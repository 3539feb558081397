import Chaintracks.Outbox

/-!
# What the retention keeps

A tick of the retention is two transactions: it reads the floor, and later hands over the
batch that raises it and deletes. Between the two the journal grows and other ticks run, so
a tick may pick its rows above a floor long passed, with a clock behind or ahead of the
others'. It does no harm, because no reader is ever told to trust a floor that a tick read:
the batch raises the floor over exactly the chain rows it deletes, on the rows it finds
(`Chaintracks.EventJournal.of_retained`).

So above the floor that is stored no chain row is missing, whatever ticks ran
(`Chaintracks.RetainedJournal.Whole`, `Chaintracks.retention_keeps_readers`). The one thing
asked of the rows is that a key in the range of the `tipAge` rows is a `tipAge` row's, and
the journal's writers see to it (`Chaintracks.JournalInsert.keyed`).
-/

namespace Chaintracks

/-! ### The rows and their keys -/

/-- The range of `event_key` by which the `tipAge` rows are found. -/
def ageKeyed (eventKey : Option String) : Bool :=
  eventKey.any fun k => "tipAge:" ≤ k && k < "tipAge;"

/-- The `INSERT`s into `chain_events`: those of the triggers, and of `SQL_TIP_AGE`. -/
inductive JournalInsert
  | reorg
  | tip
  | tipAge (hash : String) (minute : Nat)
  | fork (new served : String)
  | split (forkHash : String)
  | splitResolved (forkHash : String)

namespace JournalInsert

/-- The `kind` of the payload. -/
def kind : JournalInsert → String
  | reorg => "reorg"
  | tip => "tip"
  | tipAge .. => "tipAge"
  | fork .. => "fork"
  | split _ => "split"
  | splitResolved _ => "splitResolved"

/-- The `event_key`. -/
def eventKey : JournalInsert → Option String
  | reorg | tip => none
  | tipAge hash minute => some ("tipAge:" ++ hash ++ ":" ++ toString minute)
  | fork new served => some ("fork:" ++ new ++ ":" ++ served)
  | split forkHash => some ("split:" ++ forkHash)
  | splitResolved forkHash => some ("splitResolved:" ++ forkHash)

/-- **A key in the range of the `tipAge` rows is a `tipAge` row's.** -/
theorem keyed (insert : JournalInsert) (h : ageKeyed insert.eventKey = true) :
    insert.kind = "tipAge" := by
  -- every other key is below the range by its first letter
  have hbelow : ∀ key, key < "tipAge:" → ¬ageKeyed (some key) = true := by
    intro key hlt hkey
    rw [ageKeyed, Option.any_some, decide_eq_false (not_le_of_gt hlt)] at hkey
    cases hkey
  cases insert with
  | reorg | tip => cases h
  | tipAge => rfl
  | fork new served =>
    refine absurd h (hbelow _ ?_)
    rw [String.lt_iff_toList_lt, String.toList_append, String.toList_append, String.toList_append]
    simp [List.cons_lt_cons_iff]
  | split forkHash | splitResolved forkHash =>
    refine absurd h (hbelow _ ?_)
    rw [String.lt_iff_toList_lt, String.toList_append]
    simp [List.cons_lt_cons_iff]

end JournalInsert

section Rows

variable (reader : PayloadReader)

/-- A chain row: one of the kinds the floor is about. -/
def EventRow.isChain (r : EventRow) : Bool :=
  (reader.kind r.payload).any (EventJournal.chainKinds.contains ·)

/-- A `tipAge` row. -/
def EventRow.isTipAge (r : EventRow) : Bool := reader.kind r.payload == some "tipAge"

/-- `Wake::expired`: a cursor below the floor. -/
def EventJournal.expired (j : EventJournal) (since : Nat) : Bool := decide (since < j.floor)

variable {reader}

theorem EventRow.isChain_of_isTipAge {r : EventRow} (h : r.isTipAge reader = true) :
    r.isChain reader = false := by
  rw [EventRow.isTipAge, beq_iff_eq] at h
  rw [EventRow.isChain, h]
  decide

end Rows

/-! ### What a batch picks -/

namespace EventJournal

variable {reader : PayloadReader} {j : EventJournal} {r : EventRow}
  {floor chainCutoff tipAgeCutoff : Nat}

theorem eq_of_cursor {r' : EventRow} (hr : r ∈ j.rows) (hr' : r' ∈ j.rows)
    (h : r.cursor = r'.cursor) : r = r' := by
  have hnodup : (j.rows.map (·.cursor)).Nodup :=
    List.pairwise_map.mpr (j.ascending.imp fun hlt => Nat.ne_of_lt hlt)
  exact List.inj_on_of_nodup_map hnodup hr hr' h

theorem cursor_le_head (h : r ∈ j.rows) : r.cursor ≤ j.head :=
  List.le_max?_getD_of_mem (List.mem_map_of_mem h)

/-- The head is a row's, where there is one below it. -/
theorem exists_head (h : r ∈ j.rows) : ∃ top ∈ j.rows, top.cursor = j.head := by
  cases hm : (j.rows.map (·.cursor)).max? with
  | none =>
    rw [List.max?_eq_none_iff, List.map_eq_nil_iff] at hm
    rw [hm] at h
    cases h
  | some c =>
    obtain ⟨top, htop, hc⟩ := List.mem_map.mp (List.max?_mem hm)
    exact ⟨top, htop, by rw [head, hm, hc, Option.getD_some]⟩

/-- **What a batch picks**: rows below the head, each a chain row or one keyed as a `tipAge`
row. -/
theorem of_picked {cursor : Nat} {chain : Bool}
    (h : (cursor, chain) ∈ j.retainPicked reader floor chainCutoff tipAgeCutoff) :
    ∃ r ∈ j.rows, r.cursor = cursor ∧ cursor < j.head ∧
      if chain then r.isChain reader = true else ageKeyed r.eventKey = true := by
  unfold retainPicked at h
  obtain ⟨r, hr, h⟩ := List.mem_flatMap.mp (List.mem_of_mem_take h)
  rcases List.mem_append.mp h with h | h
  · split at h
    · rename_i hpick
      rw [List.mem_singleton, Prod.mk.injEq] at h
      obtain ⟨rfl, rfl⟩ := h
      refine ⟨r, hr, rfl, hpick.2.1.trans_le ?_, hpick.2.2⟩
      -- the oldest young row is a row of the journal
      cases hy : j.rows.find? fun r => floor < r.cursor && chainCutoff ≤ r.createdAt with
      | none => exact le_rfl
      | some y => exact cursor_le_head (List.mem_of_find?_eq_some hy)
    · cases h
  · split at h
    · rename_i hpick
      rw [List.mem_singleton, Prod.mk.injEq] at h
      obtain ⟨rfl, rfl⟩ := h
      exact ⟨r, hr, rfl, hpick.2.2, hpick.1⟩
    · cases h

/-- **What a batch deletes**: a row of the journal that is gone was below the head; it is a
chain row at or below the floor the batch leaves, or keyed as a `tipAge` row. -/
theorem of_retained (hr : r ∈ j.rows)
    (hgone : r ∉ (j.retain reader floor chainCutoff tipAgeCutoff).rows) :
    r.cursor < j.head ∧
      (r.isChain reader = true ∧
          r.cursor ≤ (j.retain reader floor chainCutoff tipAgeCutoff).floor ∨
        ageKeyed r.eventKey = true) := by
  have hpicked : r.cursor ∈
      (j.retainPicked reader floor chainCutoff tipAgeCutoff).map (·.1) := by
    by_contra hnot
    refine hgone (List.mem_filter.mpr ⟨hr, ?_⟩)
    rw [Bool.not_eq_true', ← Bool.not_eq_true, List.contains_iff_mem]
    exact hnot
  obtain ⟨⟨cursor, chain⟩, hmem, heq⟩ := List.mem_map.mp hpicked
  obtain ⟨r', hr', hcursor, hhead, hkind⟩ := of_picked hmem
  have hsame : r' = r := eq_of_cursor hr' hr (hcursor.trans heq)
  subst hsame
  refine ⟨hcursor ▸ hhead, ?_⟩
  cases chain with
  | false => exact .inr hkind
  | true =>
    refine .inl ⟨hkind, le_max_of_le_right (List.le_max?_getD_of_mem ?_)⟩
    rw [hcursor]
    exact List.mem_map.mpr ⟨_, List.mem_filter.mpr ⟨hmem, rfl⟩, rfl⟩

/-- **The floor a batch leaves** is the one it found, or the cursor of a chain row that it
deletes. -/
theorem floor_retained :
    (j.retain reader floor chainCutoff tipAgeCutoff).floor = j.floor ∨
      ∃ r ∈ j.rows, r.isChain reader = true ∧
        r ∉ (j.retain reader floor chainCutoff tipAgeCutoff).rows ∧
        r.cursor = (j.retain reader floor chainCutoff tipAgeCutoff).floor := by
  change max j.floor _ = j.floor ∨ ∃ r ∈ j.rows, _ ∧ _ ∧ r.cursor = max j.floor _
  cases hm : (((j.retainPicked reader floor chainCutoff tipAgeCutoff).filter (·.2)).map
      (·.1)).max? with
  | none => exact .inl (Nat.max_eq_left (Nat.zero_le _))
  | some cursor =>
    rw [Option.getD_some]
    rcases Nat.le_total cursor j.floor with hle | hle
    · exact .inl (Nat.max_eq_left hle)
    · obtain ⟨⟨c, chain⟩, hmem, rfl⟩ := List.mem_map.mp (List.max?_mem hm)
      obtain ⟨hmem, hchain⟩ := List.mem_filter.mp hmem
      obtain ⟨r, hr, hcursor, -, hkind⟩ := of_picked hmem
      rw [show chain = true from hchain, if_pos rfl] at hkind
      refine .inr ⟨r, hr, hkind, fun hkept => ?_, hcursor.trans (Nat.max_eq_right hle).symm⟩
      have hnot := (List.mem_filter.mp hkept).2
      rw [Bool.not_eq_true', ← Bool.not_eq_true, List.contains_iff_mem] at hnot
      exact hnot (List.mem_map.mpr ⟨_, hmem, hcursor.symm⟩)

theorem floor_le_retained :
    j.floor ≤ (j.retain reader floor chainCutoff tipAgeCutoff).floor := Nat.le_max_left _ _

theorem rows_retained (h : r ∈ (j.retain reader floor chainCutoff tipAgeCutoff).rows) :
    r ∈ j.rows := List.mem_of_mem_filter h

end EventJournal

/-! ### The ticks -/

/-- The age up to which a chain row is kept, in seconds. -/
def retainChainSecs : Nat := 90 * 86400

/-- The age up to which a `tipAge` row is kept. -/
def retainTipAgeSecs : Nat := 86400

/-- The journal, and every row ever appended to it. -/
structure RetainedJournal where
  journal : EventJournal
  appended : List EventRow

namespace RetainedJournal

/-- The journal before any event. -/
def fresh : RetainedJournal := ⟨.fresh, []⟩

/-- An append; a key already in the journal makes it nothing. -/
def append (s : RetainedJournal) (payload : String) (eventKey : Option String) (createdAt : Nat) :
    RetainedJournal where
  journal := s.journal.append payload eventKey createdAt
  appended :=
    if eventKey.isSome ∧ eventKey ∈ s.journal.rows.map (·.eventKey) then s.appended
    else s.appended ++ [⟨s.journal.sequence + 1, payload, eventKey, createdAt⟩]

end RetainedJournal

/-- Where a tick of the retention stands. -/
inductive RetainTick
  | idle
  /-- It has read the floor. -/
  | read (floor : Nat)

section Steps

variable (reader : PayloadReader)

/-- **The steps of `retain`**: the read of the floor, and the batch on it, each tick with a
clock of its own. -/
inductive RetainStep : RetainedJournal → RetainTick → RetainedJournal → RetainTick → Prop
  | readFloor (s : RetainedJournal) : RetainStep s .idle s (.read s.journal.floor)
  | batch (s : RetainedJournal) (floor now : Nat) :
    RetainStep s (.read floor)
      { s with
        journal := s.journal.retain reader floor (now - retainChainSecs) (now - retainTipAgeSecs) }
      .idle
  | cut (s) (tick) : RetainStep s tick s .idle

/-- An append outside of the ticks, at any time of the database's clock. -/
inductive AppendStep : RetainedJournal → RetainedJournal → Prop
  | append (s : RetainedJournal) (payload eventKey createdAt)
    (keyed : ageKeyed eventKey = true → reader.kind payload = some "tipAge") :
    AppendStep s (s.append payload eventKey createdAt)

/-- The runs of the retention: any number of ticks, and appends, in any order. -/
def RetentionRuns : Agents.Config RetainedJournal RetainTick →
    Agents.Config RetainedJournal RetainTick → Prop :=
  Agents.Runs (RetainStep reader) (AppendStep reader)

end Steps

/-- Before any event and any tick. -/
def RetainedJournal.init : Agents.Config RetainedJournal RetainTick := ⟨.fresh, fun _ => .idle⟩

/-! ### The invariant -/

section Invariant

variable (reader : PayloadReader)

/-- **The journal is whole above its floor**, and the floor is a deleted chain row's. -/
structure RetainedJournal.Whole (s : RetainedJournal) : Prop where
  kept : ∀ r ∈ s.journal.rows, r ∈ s.appended
  numbered : ∀ r ∈ s.appended, 0 < r.cursor ∧ r.cursor ≤ s.journal.sequence
  keyed : ∀ r ∈ s.appended, ageKeyed r.eventKey = true → r.isTipAge reader = true
  above : ∀ r ∈ s.appended, r.isChain reader = true → s.journal.floor < r.cursor →
    r ∈ s.journal.rows
  reached : s.journal.floor = 0 ∨ ∃ r ∈ s.appended, r.isChain reader = true ∧
    r ∉ s.journal.rows ∧ r.cursor = s.journal.floor
  others : ∀ r ∈ s.appended, r.isChain reader = false → r.isTipAge reader = false →
    r ∈ s.journal.rows
  newest : ∀ r ∈ s.appended, (∀ r' ∈ s.appended, r'.cursor ≤ r.cursor) → r ∈ s.journal.rows

variable {reader} {s s' : RetainedJournal}

/-- An append keeps the journal whole. -/
theorem RetainedJournal.Whole.append (h : s.Whole reader) {payload : String}
    {eventKey : Option String} {createdAt : Nat}
    (hkeyed : ageKeyed eventKey = true → reader.kind payload = some "tipAge") :
    (s.append payload eventKey createdAt).Whole reader ∧
      (s.append payload eventKey createdAt).journal.floor = s.journal.floor := by
  unfold RetainedJournal.append EventJournal.append
  by_cases hdup : eventKey.isSome ∧ eventKey ∈ s.journal.rows.map (·.eventKey)
  · rw [if_pos hdup, if_pos hdup]
    exact ⟨h, rfl⟩
  · rw [if_neg hdup, if_neg hdup]
    refine ⟨?_, rfl⟩
    have hsplit : ∀ {r : EventRow} {rows : List EventRow},
        r ∈ rows ++ [⟨s.journal.sequence + 1, payload, eventKey, createdAt⟩] ↔
          r ∈ rows ∨ r = ⟨s.journal.sequence + 1, payload, eventKey, createdAt⟩ := by
      intro r rows
      rw [List.mem_append, List.mem_singleton]
    refine
      { kept := fun r hr => hsplit.mpr ((hsplit.mp hr).imp_left (h.kept r))
        numbered := fun r hr => ?_
        keyed := fun r hr hage => ?_
        above := fun r hr hchain hlt => ?_
        reached := ?_
        others := fun r hr hchain hage => ?_
        newest := fun r hr hmax => ?_ }
    · rcases hsplit.mp hr with hr | rfl
      · exact ⟨(h.numbered r hr).1, Nat.le_succ_of_le (h.numbered r hr).2⟩
      · exact ⟨Nat.succ_pos _, le_rfl⟩
    · rcases hsplit.mp hr with hr | rfl
      · exact h.keyed r hr hage
      · exact beq_iff_eq.mpr (hkeyed hage)
    · exact hsplit.mpr ((hsplit.mp hr).imp_left fun hr => h.above r hr hchain hlt)
    · refine h.reached.imp_right ?_
      rintro ⟨r, hr, hchain, hgone, hcursor⟩
      refine ⟨r, hsplit.mpr (.inl hr), hchain, fun hin => ?_, hcursor⟩
      -- the new row's cursor is above every cursor ever given
      rcases hsplit.mp hin with hin | heq
      · exact hgone hin
      · have hnum := (h.numbered r hr).2
        rw [heq] at hnum
        exact absurd hnum (Nat.not_succ_le_self _)
    · exact hsplit.mpr ((hsplit.mp hr).imp_left fun hr => h.others r hr hchain hage)
    · rcases hsplit.mp hr with hr | rfl
      · have hle := hmax _ (hsplit.mpr (.inr rfl))
        have hnum := (h.numbered r hr).2
        exact absurd (hle.trans hnum) (Nat.not_succ_le_self _)
      · exact hsplit.mpr (.inr rfl)

/-- **A batch keeps the journal whole**, whatever floor its tick read and whatever its clock
says. -/
theorem RetainedJournal.Whole.retain (h : s.Whole reader) (floor chainCutoff tipAgeCutoff : Nat) :
    RetainedJournal.Whole reader
      { s with journal := s.journal.retain reader floor chainCutoff tipAgeCutoff } := by
  have hgone : ∀ r ∈ s.journal.rows,
      r ∉ (s.journal.retain reader floor chainCutoff tipAgeCutoff).rows →
        r.cursor < s.journal.head ∧ (r.isChain reader = true ∧
          r.cursor ≤ (s.journal.retain reader floor chainCutoff tipAgeCutoff).floor ∨
          r.isTipAge reader = true) := by
    intro r hr hnot
    obtain ⟨hhead, hkind⟩ := EventJournal.of_retained hr hnot
    exact ⟨hhead, hkind.imp_right (h.keyed r (h.kept r hr))⟩
  refine
    { kept := fun r hr => h.kept r (EventJournal.rows_retained hr)
      numbered := h.numbered
      keyed := h.keyed
      above := fun r hr hchain hlt => ?_
      reached := ?_
      others := fun r hr hchain hage => ?_
      newest := fun r hr hmax => ?_ }
  · by_contra hnot
    have hrow := h.above r hr hchain (EventJournal.floor_le_retained.trans_lt hlt)
    rcases (hgone r hrow hnot).2 with ⟨-, hle⟩ | hage
    · exact absurd hlt (Nat.not_lt.mpr hle)
    · exact absurd hchain (by rw [EventRow.isChain_of_isTipAge hage]; exact Bool.false_ne_true)
  · rcases @EventJournal.floor_retained reader s.journal floor chainCutoff tipAgeCutoff with hsame | hnew
    · refine h.reached.imp (fun hz => hsame.trans hz) ?_
      rintro ⟨r, hr, hchain, hnot, hcursor⟩
      exact ⟨r, hr, hchain, fun hin => hnot (EventJournal.rows_retained hin),
        hcursor.trans hsame.symm⟩
    · obtain ⟨r, hr, hchain, hnot, hcursor⟩ := hnew
      exact .inr ⟨r, h.kept r hr, hchain, hnot, hcursor⟩
  · by_contra hnot
    rcases (hgone r (h.others r hr hchain hage) hnot).2 with ⟨hc, -⟩ | ha
    · rw [hchain] at hc
      cases hc
    · rw [hage] at ha
      cases ha
  · by_contra hnot
    have hrow := h.newest r hr hmax
    obtain ⟨top, htop, hhead⟩ := EventJournal.exists_head hrow
    have hlt := (hgone r hrow hnot).1
    rw [← hhead] at hlt
    exact absurd hlt (Nat.not_lt.mpr (hmax top (h.kept top htop)))

/-- The cursors of the chain rows deleted so far. -/
def RetainedJournal.deletedChain (reader : PayloadReader) (s : RetainedJournal) : List Nat :=
  (s.appended.filter fun r => r.isChain reader && !s.journal.rows.contains r).map (·.cursor)

theorem RetainedJournal.mem_deletedChain {cursor : Nat} :
    cursor ∈ s.deletedChain reader ↔ ∃ r ∈ s.appended, r.isChain reader = true ∧
      r ∉ s.journal.rows ∧ r.cursor = cursor := by
  simp [deletedChain, and_assoc]

/-- **The floor is the greatest cursor of a deleted chain row**, 0 where none was deleted. -/
theorem RetainedJournal.Whole.floor_eq (h : s.Whole reader) :
    s.journal.floor = (s.deletedChain reader).max?.getD 0 := by
  have hle : ∀ c ∈ s.deletedChain reader, c ≤ s.journal.floor := by
    intro c hc
    obtain ⟨r, hr, hchain, hgone, rfl⟩ := mem_deletedChain.mp hc
    exact Nat.not_lt.mp fun hlt => hgone (h.above r hr hchain hlt)
  rcases h.reached with hzero | ⟨r, hr, hchain, hgone, hcursor⟩
  · have hnone : s.deletedChain reader = [] := by
      refine List.eq_nil_iff_forall_not_mem.mpr fun c hc => ?_
      have hpos : 0 < c := by
        obtain ⟨r, hr, -, -, rfl⟩ := mem_deletedChain.mp hc
        exact (h.numbered r hr).1
      exact absurd (hle c hc) (Nat.not_le.mpr (hzero ▸ hpos))
    rw [hnone, hzero]
    rfl
  · have hmem := mem_deletedChain.mpr ⟨r, hr, hchain, hgone, hcursor⟩
    rw [List.max?_eq_some_iff.mpr ⟨hmem, hle⟩, Option.getD_some]

/-- **The retention under any number of ticks.** -/
theorem retention_inductive (reader : PayloadReader) :
    Agents.Inductive (RetainStep reader) (AppendStep reader) (RetainedJournal.Whole reader)
      (fun _ _ => True) (fun s s' => s.journal.floor ≤ s'.journal.floor) where
  acts h _ hs := by
    cases hs with
    | readFloor | cut => exact ⟨h, trivial, le_rfl⟩
    | batch floor now => exact ⟨h.retain _ _ _, trivial, EventJournal.floor_le_retained⟩
  outsides h hs := by
    cases hs with
    | append payload eventKey createdAt keyed =>
      obtain ⟨hwhole, hfloor⟩ := h.append keyed
      exact ⟨hwhole, hfloor.ge⟩
  stable _ _ _ := trivial

end Invariant

/-! ### The runs -/

section Runs

variable {reader : PayloadReader} {c : Agents.Config RetainedJournal RetainTick}

theorem retention_holds (h : RetentionRuns reader RetainedJournal.init c) :
    Agents.Holds (RetainedJournal.Whole reader) (fun _ _ => True) c := by
  refine (retention_inductive reader).runs h ⟨?_, fun _ => trivial⟩
  have hnone : ∀ r ∈ RetainedJournal.fresh.appended, False := fun _ hr => List.not_mem_nil hr
  exact
    { kept := fun r hr => (hnone r hr).elim
      numbered := fun r hr => (hnone r hr).elim
      keyed := fun r hr => (hnone r hr).elim
      above := fun r hr => (hnone r hr).elim
      reached := .inl rfl
      others := fun r hr => (hnone r hr).elim
      newest := fun r hr => (hnone r hr).elim }

/-- **The retention keeps what readers need**, over every interleaving of appends and of any
number of ticks, whatever their clocks. A cursor that is not expired misses no chain row
ever appended above it; the floor is the greatest cursor of a chain row deleted so far; a
row of an unknown kind is never deleted, nor is the newest row; and the floor never goes
down. -/
theorem retention_keeps_readers (h : RetentionRuns reader RetainedJournal.init c) :
    (∀ since, c.shared.journal.expired since = false → ∀ r ∈ c.shared.appended,
        r.isChain reader = true → since < r.cursor → r ∈ c.shared.journal.rows) ∧
      c.shared.journal.floor = (c.shared.deletedChain reader).max?.getD 0 ∧
      (∀ r ∈ c.shared.appended, r.isChain reader = false → r.isTipAge reader = false →
        r ∈ c.shared.journal.rows) ∧
      (∀ r ∈ c.shared.appended, (∀ r' ∈ c.shared.appended, r'.cursor ≤ r.cursor) →
        r ∈ c.shared.journal.rows) ∧
      ∀ c', RetentionRuns reader c c' → c.shared.journal.floor ≤ c'.shared.journal.floor := by
  have hholds := retention_holds h
  have hwhole := hholds.1
  refine ⟨fun since hexp r hr hchain hlt => ?_, hwhole.floor_eq, hwhole.others, hwhole.newest,
    fun c' h' => ?_⟩
  · rw [EventJournal.expired, decide_eq_false_iff_not, Nat.not_lt] at hexp
    exact hwhole.above r hr hchain (hexp.trans_lt hlt)
  · exact (retention_inductive reader).runs_rel (fun _ => le_rfl) le_trans h' hholds

/-- A reader of rows whose payload is their kind. -/
def kindReader : PayloadReader := ⟨fun _ => .ok (), some, id⟩

/-- Two ticks read the floor before either's batch, the second with a clock three months
ahead: the first row is deleted, the floor is its cursor, and the two above it are there. -/
theorem retention_keeps_readers_overlapping : ∃ c : Agents.Config RetainedJournal RetainTick,
    c.shared.journal.floor = 1 ∧ c.shared.appended.length = 3 ∧
      ∀ r ∈ c.shared.appended, r.isChain kindReader = true → 1 < r.cursor →
        r ∈ c.shared.journal.rows := by
  have h₀ : RetentionRuns kindReader RetainedJournal.init (.ofList .idle .fresh [.idle, .idle]) := by
    rw [show [RetainTick.idle, .idle] = List.replicate 2 .idle from rfl, Agents.Config.ofList_idle]
    exact .refl
  have h₁ := h₀.outsides (.append _ "tip" none 100 nofun)
  have h₂ := h₁.outsides (.append _ "reorg" none 9000000 nofun)
  have h₃ := h₂.acts 0 (by decide) (.readFloor _)
  have h₄ := h₃.acts 1 (by decide) (.readFloor _)
  have h₅ := h₄.outsides (.append _ "tip" none 9000000 nofun)
  have h₆ := h₅.acts 1 (by decide) (.batch _ 0 16776000)
  have h₇ := h₆.acts 0 (by decide) (.batch _ 0 9000000)
  exact ⟨_, by decide, by decide, (retention_keeps_readers h₇).1 1 (by decide)⟩

end Runs

end Chaintracks

import Chaintracks.Outbox

/-!
# Chain events reach every target at least once, and in order

What makes the outbox safe is that no step ever needs to know what another tick did. A
post is handed over only when every row below it has been answered for
(`Chaintracks.Outbox.Below`); that stays true whoever posts next, since the journal grows
above its sequence alone and an answer is never taken back. A stored cursor is written
only over rows answered for (`Chaintracks.Outbox.Covered`), and it is written as a
maximum.

`Chaintracks.outbox_inductive` is the invariant, `Chaintracks.delivery_at_least_once` what
it says of a run: under a target's cursor every row of the journal above its start has
been answered with a 2xx, the first answers came in cursor order, and the cursor never
goes down.
-/

namespace Chaintracks

namespace Outbox

variable (reader : PayloadReader) (s : Outbox)

/-- A row of the journal that a target is owed, above where it was started. -/
def Owed (target : WebhookTarget) (r : EventRow) : Prop :=
  r ∈ s.journal.rows ∧ s.startedAt target < r.cursor

/-- Every row owed up to a cursor has been answered for. -/
def Covered (target : WebhookTarget) (cursor : Nat) : Prop :=
  ∀ r, s.Owed target r → r.cursor ≤ cursor → ⟨target, journalEvent reader r⟩ ∈ s.accepted

/-- Every row owed below a cursor has been answered for. -/
def Below (target : WebhookTarget) (cursor : Nat) : Prop :=
  ∀ r, s.Owed target r → r.cursor < cursor → ⟨target, journalEvent reader r⟩ ∈ s.accepted

/-- A stored cursor, or a cursor started from: within the sequence, with every row up to
it answered for. -/
def Settles (target : WebhookTarget) (cursor : Nat) : Prop :=
  cursor ≤ s.journal.sequence ∧ s.Covered reader target cursor

/-- **What a tick knows of the events in its hands**: they ascend, and every row owed up
to any of them is one of them or answered for. -/
structure Pending (target : WebhookTarget) (events : List JournalEvent) : Prop where
  ascending : events.Pairwise fun a b => a.cursor < b.cursor
  numbered : ∀ e ∈ events, e.cursor ≤ s.journal.sequence
  held : ∀ r, s.Owed target r → ∀ e ∈ events, r.cursor ≤ e.cursor →
    ⟨target, journalEvent reader r⟩ ∈ s.accepted ∨ journalEvent reader r ∈ events

/-- **The invariant of the outbox.** -/
structure Sound : Prop where
  floor : s.journal.floor ≤ s.journal.sequence
  cursors : ∀ target c, s.cursors (targetKey target) = some c → s.Settles reader target c
  posted : ∀ p ∈ s.posted, p.event.cursor ≤ s.journal.sequence ∧
    s.Below reader p.target p.event.cursor
  inOrder : ∀ earlier p later, s.accepted = earlier ++ p :: later →
    p.event.cursor ≤ s.journal.sequence ∧
      ∀ r, s.Owed p.target r → r.cursor < p.event.cursor →
        ⟨p.target, journalEvent reader r⟩ ∈ earlier

/-- What a tick knows of its read of the outbox. -/
def ReadSound (outbox : Option OutboxRead) : Prop :=
  ∀ read, outbox = some read → read.floor ≤ s.journal.sequence ∧
    ∀ target c, read.stored (targetKey target) = some c → s.Settles reader target c

/-- **What a tick knows**, wherever it stands. -/
def Knows : Tick → Prop
  | .idle => True
  | .starting _ _ => True
  | .choosing plan => s.ReadSound reader plan.outbox
  | .heading target since plan | .paging target since plan =>
    s.ReadSound reader plan.outbox ∧ s.Settles reader target since
  | .posting target events plan => s.ReadSound reader plan.outbox ∧ s.Pending reader target events
  | .awaiting target event events plan =>
    s.ReadSound reader plan.outbox ∧ s.Pending reader target (event :: events)
  | .recording target event events plan =>
    s.ReadSound reader plan.outbox ∧ s.Pending reader target (event :: events) ∧
      ⟨target, event⟩ ∈ s.accepted

/-- **What a step can do to the outbox**: rows come above the sequence, answers are added,
starts and cursors rise. -/
structure Grows (s s' : Outbox) : Prop where
  sequence : s.journal.sequence ≤ s'.journal.sequence
  rows : ∀ r ∈ s'.journal.rows, r ∈ s.journal.rows ∨ s.journal.sequence < r.cursor
  startedAt : ∀ target, s.startedAt target ≤ s'.startedAt target
  accepted : ∀ p ∈ s.accepted, p ∈ s'.accepted
  cursors : ∀ key c, s.cursors key = some c → ∃ c', s'.cursors key = some c' ∧ c ≤ c'

end Outbox

section Invariant

open Outbox

variable {reader : PayloadReader} {s s' : Outbox} {target : WebhookTarget}

/-! ### What growth keeps -/

theorem Outbox.Grows.refl (s : Outbox) : Grows s s :=
  { sequence := le_rfl, rows := fun _ h => .inl h, startedAt := fun _ => le_rfl,
    accepted := fun _ h => h, cursors := fun _ c h => ⟨c, h, le_rfl⟩ }

theorem Outbox.Grows.trans {s'' : Outbox} (h : Grows s s') (h' : Grows s' s'') : Grows s s'' where
  sequence := h.sequence.trans h'.sequence
  rows r hr := by
    rcases h'.rows r hr with hr | hr
    · exact h.rows r hr
    · exact .inr (h.sequence.trans_lt hr)
  startedAt t := (h.startedAt t).trans (h'.startedAt t)
  accepted p hp := h'.accepted p (h.accepted p hp)
  cursors key c hc := by
    obtain ⟨c', hc', hle⟩ := h.cursors key c hc
    obtain ⟨c'', hc'', hle'⟩ := h'.cursors key c' hc'
    exact ⟨c'', hc'', hle.trans hle'⟩

/-- A row owed later, at most at the sequence, was owed before. -/
theorem Outbox.Grows.owed (hg : Grows s s') {r : EventRow} (h : s'.Owed target r)
    (hle : r.cursor ≤ s.journal.sequence) : s.Owed target r := by
  rcases hg.rows r h.1 with hr | hr
  · exact ⟨hr, (hg.startedAt target).trans_lt h.2⟩
  · exact absurd hle (Nat.not_le.mpr hr)

theorem Outbox.Settles.grows {c : Nat} (h : s.Settles reader target c) (hg : Grows s s') :
    s'.Settles reader target c :=
  ⟨h.1.trans hg.sequence, fun r hr hle =>
    hg.accepted _ (h.2 r (hg.owed hr (hle.trans h.1)) hle)⟩

theorem Outbox.Below.grows {c : Nat} (h : s.Below reader target c) (hc : c ≤ s.journal.sequence)
    (hg : Grows s s') : s'.Below reader target c := fun r hr hlt =>
  hg.accepted _ (h r (hg.owed hr (hlt.le.trans hc)) hlt)

theorem Outbox.Pending.grows {events : List JournalEvent} (h : s.Pending reader target events)
    (hg : Grows s s') : s'.Pending reader target events where
  ascending := h.ascending
  numbered e he := (h.numbered e he).trans hg.sequence
  held r hr e he hle :=
    (h.held r (hg.owed hr (hle.trans (h.numbered e he))) e he hle).imp (hg.accepted _) id

theorem Outbox.ReadSound.grows {outbox : Option OutboxRead} (h : s.ReadSound reader outbox)
    (hg : Grows s s') : s'.ReadSound reader outbox := fun read hread =>
  ⟨(h read hread).1.trans hg.sequence, fun t c hc => ((h read hread).2 t c hc).grows hg⟩

/-- **No step of another changes what a tick knows.** -/
theorem Outbox.Knows.grows {tick : Tick} (h : s.Knows reader tick) (hg : Grows s s') :
    s'.Knows reader tick := by
  cases tick with
  | idle => trivial
  | starting => trivial
  | choosing => exact ReadSound.grows h hg
  | heading | paging => exact ⟨h.1.grows hg, h.2.grows hg⟩
  | posting | awaiting => exact ⟨h.1.grows hg, h.2.grows hg⟩
  | recording => exact ⟨h.1.grows hg, h.2.1.grows hg, hg.accepted _ h.2.2⟩

/-- Growth keeps the invariant where the cursors, the posts and the answers are the same. -/
theorem Outbox.Sound.grows (h : s.Sound reader) (hg : Grows s s')
    (hfloor : s'.journal.floor ≤ s'.journal.sequence) (hc : s'.cursors = s.cursors)
    (hp : s'.posted = s.posted) (ha : s'.accepted = s.accepted) : s'.Sound reader where
  floor := hfloor
  cursors t c hct := (h.cursors t c (hc ▸ hct)).grows hg
  posted p hpp := by
    obtain ⟨hle, hb⟩ := h.posted p (hp ▸ hpp)
    exact ⟨hle.trans hg.sequence, hb.grows hle hg⟩
  inOrder earlier p later heq := by
    obtain ⟨hle, hb⟩ := h.inOrder earlier p later (ha ▸ heq)
    exact ⟨hle.trans hg.sequence, fun r hr hlt => hb r (hg.owed hr (hlt.le.trans hle)) hlt⟩

/-! ### The outside -/

theorem EventJournal.retain_floor (j : EventJournal) (floor chainCutoff tipAgeCutoff : Nat)
    (h : j.floor ≤ j.sequence) :
    (j.retain reader floor chainCutoff tipAgeCutoff).floor ≤ j.sequence := by
  refine max_le h ?_
  cases hm : (((j.retainPicked reader floor chainCutoff tipAgeCutoff).filter (·.2)).map
      (·.1)).max? with
  | none => exact Nat.zero_le _
  | some m =>
    obtain ⟨x, hx, rfl⟩ := List.mem_map.mp (List.max?_mem hm)
    have hx := List.mem_of_mem_take (List.mem_of_mem_filter hx)
    obtain ⟨r, hr, hx⟩ := List.mem_flatMap.mp hx
    have hcursor : x.1 = r.cursor := by
      rcases List.mem_append.mp hx with hx | hx <;>
      · split at hx
        · rw [List.mem_singleton.mp hx]
        · cases hx
    exact hcursor ▸ j.numbered r hr

/-- **The outside keeps the invariant.** -/
theorem Outbox.Sound.outside (h : s.Sound reader) (hs : OutboxStep reader s s') :
    s'.Sound reader ∧ Grows s s' := by
  cases hs with
  | append payload eventKey createdAt =>
    by_cases hdup : eventKey.isSome ∧ eventKey ∈ s.journal.rows.map (·.eventKey)
    · rw [EventJournal.append, if_pos hdup]
      exact ⟨h, Grows.refl s⟩
    · have hg : Grows s { s with journal := s.journal.append payload eventKey createdAt } := by
        rw [EventJournal.append, if_neg hdup]
        refine { Grows.refl s with sequence := Nat.le_succ _, rows := fun r hr => ?_ }
        rcases List.mem_append.mp hr with hr | hr
        · exact .inl hr
        · rw [List.mem_singleton.mp hr]
          exact .inr (Nat.lt_succ_self _)
      refine ⟨h.grows hg ?_ rfl rfl rfl, hg⟩
      dsimp only
      rw [EventJournal.append, if_neg hdup]
      exact Nat.le_succ_of_le h.floor
  | retain floor chainCutoff tipAgeCutoff =>
    have hg : Grows s { s with journal := s.journal.retain reader floor chainCutoff tipAgeCutoff } :=
      { Grows.refl s with rows := fun r hr => .inl (List.mem_of_mem_filter hr) }
    exact ⟨h.grows hg (EventJournal.retain_floor _ _ _ _ h.floor) rfl rfl rfl, hg⟩
  | answer post hpost =>
    have hg : Grows s { s with accepted := s.accepted ++ [post] } :=
      { Grows.refl s with accepted := fun p hp => List.mem_append_left _ hp }
    obtain ⟨hle, hbelow⟩ := h.posted post hpost
    refine ⟨{ floor := h.floor, cursors := fun t c hc => (h.cursors t c hc).grows hg,
              posted := fun p hp => ?_, inOrder := ?_ }, hg⟩
    · exact ⟨(h.posted p hp).1, (h.posted p hp).2.grows (h.posted p hp).1 hg⟩
    · intro earlier p later heq
      change s.accepted ++ [post] = earlier ++ p :: later at heq
      rcases List.eq_nil_or_concat later with rfl | ⟨later, q, rfl⟩
      · -- the answer just come: its post was handed over with all below it answered for
        obtain ⟨rfl, hp⟩ := List.append_inj' heq rfl
        cases hp
        exact ⟨hle, hbelow⟩
      · have hsplit : s.accepted = earlier ++ p :: later := by
          have : s.accepted ++ [post] = (earlier ++ p :: later) ++ [q] := by
            rw [heq, List.append_assoc, List.cons_append, List.concat_eq_append]
          exact (List.append_inj' this rfl).1
        exact h.inOrder earlier p later hsplit

/-! ### The ticks -/

theorem OutboxRead.since_settles {read : OutboxRead} {since : Nat} (hread : s.ReadSound reader read)
    (h : read.since target = some since) :
    (s.start read target since).Settles reader target since := by
  unfold OutboxRead.since at h
  dsimp only at h
  split at h
  · cases h
  · cases hstored : read.stored (targetKey target) with
    | some c =>
      rw [hstored] at h
      cases h
      rw [Outbox.start, hstored]
      exact (hread read rfl).2 target c hstored
    | none =>
      rw [hstored] at h
      cases h
      rw [Outbox.start, hstored]
      refine ⟨(hread read rfl).1, fun r hr hle => ?_⟩
      -- no row is owed up to the floor the target is started from
      have hlt := hr.2
      change Function.update s.startedAt target (max (s.startedAt target) read.floor) target < _ at hlt
      rw [Function.update_self] at hlt
      exact absurd ((le_max_right _ _).trans_lt hlt) (Nat.not_lt.mpr hle)

theorem Outbox.start_grows (s : Outbox) (read : OutboxRead) (since : Nat) :
    Grows s (s.start read target since) := by
  unfold Outbox.start
  split
  · refine { Grows.refl s with startedAt := fun t => ?_ }
    dsimp only
    by_cases ht : t = target
    · rw [ht, Function.update_self]
      exact le_max_left _ _
    · rw [Function.update_of_ne ht]
  · exact Grows.refl s

theorem Outbox.record_grows (s : Outbox) (cursor : Nat) : Grows s (s.record target cursor) := by
  refine { Grows.refl s with cursors := fun key c hc => ?_ }
  unfold Outbox.record
  dsimp only
  by_cases hk : key = targetKey target
  · rw [hk] at hc ⊢
    rw [Function.update_self, hc]
    exact ⟨_, rfl, le_max_left _ _⟩
  · rw [Function.update_of_ne hk]
    exact ⟨c, hc, le_rfl⟩

/-- A page holds every row up to any of its rows. -/
theorem EventJournal.page_pending (h : s.Settles reader target since) (limit : Nat) :
    s.Pending reader target (s.journal.page reader since limit) := by
  have hsorted : ((s.journal.rows.filter fun r => since < r.cursor).take limit).Pairwise
      fun a b => a.cursor < b.cursor :=
    (s.journal.ascending.filter _).sublist (List.take_sublist _ _)
  refine ⟨?_, ?_, ?_⟩
  · rw [page, List.pairwise_map]
    simpa using hsorted
  · intro e he
    obtain ⟨r, hr, rfl⟩ := List.mem_map.mp he
    rw [journalEvent_cursor]
    exact s.journal.numbered r (List.mem_of_mem_filter (List.mem_of_mem_take hr))
  · intro r hr e he hle
    obtain ⟨q, hq, rfl⟩ := List.mem_map.mp he
    rw [journalEvent_cursor] at hle
    by_cases hsince : r.cursor ≤ since
    · exact .inl (h.2 r hr hsince)
    · refine .inr (List.mem_map.mpr ⟨r, ?_, rfl⟩)
      have hrow : r ∈ s.journal.rows.filter fun r => since < r.cursor :=
        List.mem_filter.mpr ⟨hr.1, decide_eq_true (Nat.lt_of_not_le hsince)⟩
      -- the rows ascend, so what the page leaves out stands above all it takes
      rw [← List.take_append_drop limit (s.journal.rows.filter fun r => since < r.cursor)] at hrow
      rcases List.mem_append.mp hrow with hrow | hrow
      · exact hrow
      · have hsplit := s.journal.ascending.filter fun r => since < r.cursor
        rw [← List.take_append_drop limit (s.journal.rows.filter fun r => since < r.cursor),
          List.pairwise_append] at hsplit
        exact absurd (hsplit.2.2 q hq r hrow) (Nat.not_lt.mpr hle)

/-- The first event in hand has every row below it answered for. -/
theorem Outbox.Pending.below {event : JournalEvent} {events : List JournalEvent}
    (h : s.Pending reader target (event :: events)) : s.Below reader target event.cursor := by
  intro r hr hlt
  rcases h.held r hr event List.mem_cons_self hlt.le with hacc | hmem
  · exact hacc
  · rcases List.mem_cons.mp hmem with heq | hmem
    · rw [← heq, journalEvent_cursor] at hlt
      exact absurd hlt (Nat.lt_irrefl _)
    · have := (List.pairwise_cons.mp h.ascending).1 _ hmem
      rw [journalEvent_cursor] at this
      exact absurd hlt (Nat.lt_asymm this)

/-- Once the first event is answered for, so is every row up to it. -/
theorem Outbox.Pending.covered {event : JournalEvent} {events : List JournalEvent}
    (h : s.Pending reader target (event :: events)) (hacc : ⟨target, event⟩ ∈ s.accepted) :
    s.Covered reader target event.cursor := by
  intro r hr hle
  rcases Nat.lt_or_eq_of_le hle with hlt | heq
  · exact h.below r hr hlt
  · rcases h.held r hr event List.mem_cons_self hle with hacc | hmem
    · exact hacc
    · rcases List.mem_cons.mp hmem with hev | hmem
      · exact hev ▸ hacc
      · have := (List.pairwise_cons.mp h.ascending).1 _ hmem
        rw [journalEvent_cursor] at this
        exact absurd heq (Nat.ne_of_gt this)

theorem Outbox.Pending.tail {event : JournalEvent} {events : List JournalEvent}
    (h : s.Pending reader target (event :: events)) (hacc : ⟨target, event⟩ ∈ s.accepted) :
    s.Pending reader target events where
  ascending := (List.pairwise_cons.mp h.ascending).2
  numbered e he := h.numbered e (List.mem_cons_of_mem _ he)
  held r hr e he hle := by
    rcases h.held r hr e (List.mem_cons_of_mem _ he) hle with hr | hmem
    · exact .inl hr
    · rcases List.mem_cons.mp hmem with hev | hmem
      · exact .inl (hev ▸ hacc)
      · exact .inr hmem

/-- **A step of a tick keeps the invariant** and what the tick knows. -/
theorem Outbox.Sound.tick {tick tick' : Tick} (h : s.Sound reader) (hk : s.Knows reader tick)
    (hs : TickStep reader s tick s' tick') :
    s'.Sound reader ∧ s'.Knows reader tick' ∧ Grows s s' := by
  cases hs with
  | deliver feed targets token =>
    refine ⟨h, ?_, Grows.refl s⟩
    unfold deliver
    split
    · trivial
    · cases feed
      · exact nofun
      · trivial
  | readOutbox budget targets =>
    refine ⟨h, ?_, Grows.refl s⟩
    rintro read ⟨⟩
    exact ⟨h.floor, h.cursors⟩
  | done => exact ⟨h, trivial, Grows.refl s⟩
  | readCursor budget target rest =>
    refine ⟨h, ⟨nofun, ?_⟩, Grows.refl s⟩
    cases hc : s.cursors (targetKey target) with
    | some c => exact h.cursors target c hc
    | none =>
      exact ⟨Nat.zero_le _, fun r hr hle => absurd hr.2 (Nat.not_lt.mpr (hle.trans (Nat.zero_le _)))⟩
  | skip budget read target rest hsince => exact ⟨h, hk, Grows.refl s⟩
  | start budget read target rest since hsince =>
    have hg := @Outbox.start_grows target s read since
    refine ⟨h.grows hg ?_ ?_ ?_ ?_, ⟨ReadSound.grows hk hg, OutboxRead.since_settles hk hsince⟩, hg⟩ <;>
      unfold Outbox.start <;> split <;> first | exact h.floor | rfl
  | readHead => exact ⟨h, hk, Grows.refl s⟩
  | readRows target since plan =>
    exact ⟨h, ⟨hk.1, EventJournal.page_pending hk.2 _⟩, Grows.refl s⟩
  | post target event events plan =>
    have hg : Grows s { s with posted := ⟨target, event⟩ :: s.posted } := { Grows.refl s with }
    refine ⟨{ floor := h.floor, cursors := fun t c hc => (h.cursors t c hc).grows hg,
              posted := fun p hp => ?_, inOrder := h.inOrder },
      ⟨hk.1.grows hg, hk.2.grows hg⟩, hg⟩
    rcases List.mem_cons.mp hp with rfl | hp
    · exact ⟨hk.2.numbered event List.mem_cons_self, hk.2.below⟩
    · exact h.posted p hp
  | next target plan => exact ⟨h, hk.1, Grows.refl s⟩
  | accepted target event events plan hacc => exact ⟨h, ⟨hk.1, hk.2, hacc⟩, Grows.refl s⟩
  | refused => exact ⟨h, hk.1, Grows.refl s⟩
  | record target event events plan =>
    obtain ⟨hread, hpending, hacc⟩ := hk
    have hg := @Outbox.record_grows target s event.cursor
    refine ⟨{ floor := h.floor, posted := h.posted, inOrder := h.inOrder, cursors := ?_ },
      ⟨hread.grows hg, (hpending.tail hacc).grows hg⟩, hg⟩
    intro t c hc
    suffices s.Settles reader t c from this
    change Function.update s.cursors (targetKey target) _ (targetKey t) = some c at hc
    by_cases ht : targetKey t = targetKey target
    · have htt := targetKey_injective ht
      subst htt
      rw [Function.update_self, Option.some_inj] at hc
      have hevent : s.Settles reader t event.cursor :=
        ⟨hpending.numbered event List.mem_cons_self, hpending.covered hacc⟩
      -- the larger of two cursors that both settle
      cases hstored : s.cursors (targetKey t) with
      | none =>
        rw [hstored, Option.getD_none, Nat.zero_max] at hc
        exact hc ▸ hevent
      | some c' =>
        rw [hstored, Option.getD_some] at hc
        rcases Nat.le_total c' event.cursor with hle | hle
        · rw [Nat.max_eq_right hle] at hc
          exact hc ▸ hevent
        · rw [Nat.max_eq_left hle] at hc
          exact hc ▸ h.cursors t c' hstored
    · rw [Function.update_of_ne ht] at hc
      exact h.cursors t c hc
  | cut => exact ⟨h, trivial, Grows.refl s⟩

/-- **The outbox under any number of ticks.** -/
theorem outbox_inductive (reader : PayloadReader) :
    Agents.Inductive (TickStep reader) (OutboxStep reader) (Sound reader) (fun s => s.Knows reader)
      Grows where
  acts h hk hs := h.tick hk hs
  outsides h hs := h.outside hs
  stable _ hg hk := hk.grows hg

end Invariant

/-! ### The runs -/

/-- The outbox and its ticks before any event. -/
def Outbox.init : Agents.Config Outbox Tick := ⟨.fresh, fun _ => .idle⟩

/-- The runs of the delivery: any number of ticks, of either feed and over any targets. -/
def DeliveryRuns (reader : PayloadReader) :
    Agents.Config Outbox Tick → Agents.Config Outbox Tick → Prop :=
  Agents.Runs (TickStep reader) (OutboxStep reader)

/-- **Delivered through a cursor**: every row of the journal up to it, above the target's
start, was answered with a 2xx, and the first answers came in cursor order. -/
structure Outbox.Delivered (reader : PayloadReader) (s : Outbox) (target : WebhookTarget)
    (cursor : Nat) : Prop where
  answered : ∀ r ∈ s.journal.rows, s.startedAt target < r.cursor → r.cursor ≤ cursor →
    ⟨target, journalEvent reader r⟩ ∈ s.accepted
  inOrder : ∀ r ∈ s.journal.rows, ∀ r' ∈ s.journal.rows, s.startedAt target < r.cursor →
    r.cursor < r'.cursor → r'.cursor ≤ cursor →
    s.accepted.idxOf ⟨target, journalEvent reader r⟩ <
      s.accepted.idxOf ⟨target, journalEvent reader r'⟩

section Runs

variable {reader : PayloadReader} {c : Agents.Config Outbox Tick}

theorem Outbox.Sound.delivered {s : Outbox} {target : WebhookTarget} {cursor : Nat}
    (h : s.Sound reader) (hc : s.cursors (targetKey target) = some cursor) :
    s.Delivered reader target cursor := by
  obtain ⟨-, hcovered⟩ := h.cursors target cursor hc
  refine ⟨fun r hr hlt hle => hcovered r ⟨hr, hlt⟩ hle, fun r hr r' hr' hlt hrr' hle => ?_⟩
  -- the first answer for the later row splits the answers, with the earlier row's before it
  have hmem := hcovered r' ⟨hr', hlt.trans hrr'⟩ hle
  have hfirst := List.idxOf_lt_length_of_mem hmem
  have hsplit := (List.take_append_drop (s.accepted.idxOf ⟨target, journalEvent reader r'⟩)
    s.accepted).symm
  rw [List.drop_eq_getElem_cons hfirst, List.getElem_idxOf hfirst] at hsplit
  refine (List.mem_take_iff_idxOf_lt (hcovered r ⟨hr, hlt⟩ (hrr'.le.trans hle))).mp ?_
  refine (h.inOrder _ _ _ hsplit).2 r ⟨hr, hlt⟩ ?_
  rw [journalEvent_cursor]
  exact hrr'

theorem outbox_holds (h : DeliveryRuns reader Outbox.init c) :
    Agents.Holds (Outbox.Sound reader) (fun s => s.Knows reader) c := by
  refine (outbox_inductive reader).runs h ⟨?_, fun _ => trivial⟩
  refine ⟨le_rfl, nofun, List.forall_mem_nil _, ?_⟩
  intro earlier p later heq
  cases earlier <;> cases heq

/-- **Chain events are delivered at least once and in order**, over every interleaving of
any number of ticks: under a target's stored cursor it is delivered through it, and its
stored cursor never goes down. -/
theorem delivery_at_least_once (h : DeliveryRuns reader Outbox.init c) :
    (∀ target cursor, c.shared.cursors (targetKey target) = some cursor →
      c.shared.Delivered reader target cursor) ∧
    ∀ c', DeliveryRuns reader c c' → ∀ target cursor,
      c.shared.cursors (targetKey target) = some cursor →
      ∃ cursor', c'.shared.cursors (targetKey target) = some cursor' ∧ cursor ≤ cursor' := by
  have hholds := outbox_holds h
  refine ⟨fun target cursor hc => hholds.1.delivered hc, fun c' h' target cursor hc => ?_⟩
  exact ((outbox_inductive reader).runs_rel Outbox.Grows.refl Outbox.Grows.trans h' hholds).cursors
    (targetKey target) cursor hc

/-- A reader to whom every payload is a tip. -/
def tipReader : PayloadReader := ⟨fun _ => .ok (), fun _ => some "tip", id⟩

/-- A target without a binding. -/
def plainTarget : WebhookTarget := ⟨none, "https://a", unbound_named⟩

/-- The events of the two rows below. -/
def firstTip : JournalEvent := ⟨1, "tip", none⟩
def secondTip : JournalEvent := ⟨2, "tip", none⟩

/-- A journal of two rows, with the cursors stored and the posts answered for. -/
def outboxOfTwo (cursors : String → Option Nat) (posted accepted : List EventPost) : Outbox :=
  ⟨(EventJournal.fresh.append "tip" none 0).append "tip" none 1, cursors, posted, accepted,
    fun _ => 0⟩

/-- What is left of a tick that has no other target. -/
def lastPlan : TickPlan := ⟨32, none, []⟩

/-- Two ticks of feed 1 read the rows one beside the other, before either has posted. -/
theorem overlapping_ticks : DeliveryRuns tipReader Outbox.init
    (.ofList .idle (outboxOfTwo (fun _ => none) [] [])
      [.posting plainTarget [firstTip, secondTip] lastPlan,
        .posting plainTarget [firstTip, secondTip] lastPlan]) := by
  have h₀ : DeliveryRuns tipReader Outbox.init (.ofList .idle .fresh [.idle, .idle]) := by
    rw [show [Tick.idle, .idle] = List.replicate 2 .idle from rfl, Agents.Config.ofList_idle]
    exact .refl
  have hrows : DeliveryRuns tipReader Outbox.init
      (.ofList .idle (outboxOfTwo (fun _ => none) [] []) [.idle, .idle]) :=
    (h₀.outsides (.append _ "tip" none 0)).outsides (.append _ "tip" none 1)
  have hdeliver : deliver .v1 [plainTarget] "token" = .choosing ⟨32, none, [plainTarget]⟩ := by
    unfold deliver
    rw [if_neg (by decide)]
    rfl
  have h₁ := hrows.acts 0 (by decide) (.deliver _ .v1 [plainTarget] "token")
  have h₂ := h₁.acts 1 (by decide) (.deliver _ .v1 [plainTarget] "token")
  rw [hdeliver] at h₂
  have h₃ := h₂.acts 0 (by decide) (.readCursor _ 32 plainTarget [])
  have h₄ := h₃.acts 1 (by decide) (.readCursor _ 32 plainTarget [])
  have h₅ := h₄.acts 0 (by decide)
    (.readHead _ plainTarget 0 lastPlan (by decide) (by decide) (by decide) (by decide))
  have h₆ := h₅.acts 1 (by decide)
    (.readHead _ plainTarget 0 lastPlan (by decide) (by decide) (by decide) (by decide))
  have h₇ := h₆.acts 0 (by decide) (.readRows _ plainTarget 0 lastPlan)
  exact h₇.acts 1 (by decide) (.readRows _ plainTarget 0 lastPlan)

/-- Both ticks post the first row. The first one hears its answer, posts the second row and
records both, while the second still waits. -/
theorem first_tick_records : DeliveryRuns tipReader Outbox.init
    (.ofList .idle
      (outboxOfTwo
        (Function.update (Function.update (fun _ => none) "=https://a" (some 1)) "=https://a"
          (some 2))
        [⟨plainTarget, secondTip⟩, ⟨plainTarget, firstTip⟩, ⟨plainTarget, firstTip⟩]
        [⟨plainTarget, firstTip⟩, ⟨plainTarget, secondTip⟩])
      [.posting plainTarget [] lastPlan,
        .awaiting plainTarget firstTip [secondTip] lastPlan]) := by
  have h₁ := overlapping_ticks.acts 0 (by decide)
    (.post _ plainTarget firstTip [secondTip] lastPlan)
  have h₂ : DeliveryRuns tipReader Outbox.init (.ofList .idle
      (outboxOfTwo (fun _ => none) [⟨plainTarget, firstTip⟩, ⟨plainTarget, firstTip⟩] [])
      [.awaiting plainTarget firstTip [secondTip] lastPlan,
        .awaiting plainTarget firstTip [secondTip] lastPlan]) :=
    h₁.acts 1 (by decide) (.post _ plainTarget firstTip [secondTip] lastPlan)
  have h₃ : DeliveryRuns tipReader Outbox.init (.ofList .idle
      (outboxOfTwo (fun _ => none) [⟨plainTarget, firstTip⟩, ⟨plainTarget, firstTip⟩]
        [⟨plainTarget, firstTip⟩])
      [.awaiting plainTarget firstTip [secondTip] lastPlan,
        .awaiting plainTarget firstTip [secondTip] lastPlan]) :=
    h₂.outsides (.answer _ ⟨plainTarget, firstTip⟩ List.mem_cons_self)
  have h₄ := h₃.acts 0 (by decide)
    (.accepted _ plainTarget firstTip [secondTip] lastPlan List.mem_cons_self)
  have h₅ := h₄.acts 0 (by decide) (.record _ plainTarget firstTip [secondTip] lastPlan)
  have h₆ : DeliveryRuns tipReader Outbox.init (.ofList .idle
      (outboxOfTwo (Function.update (fun _ => none) "=https://a" (some 1))
        [⟨plainTarget, secondTip⟩, ⟨plainTarget, firstTip⟩, ⟨plainTarget, firstTip⟩]
        [⟨plainTarget, firstTip⟩])
      [.awaiting plainTarget secondTip [] lastPlan,
        .awaiting plainTarget firstTip [secondTip] lastPlan]) :=
    h₅.acts 0 (by decide) (.post _ plainTarget secondTip [] lastPlan)
  have h₇ := h₆.outsides (.answer _ ⟨plainTarget, secondTip⟩ List.mem_cons_self)
  have h₈ := h₇.acts 0 (by decide)
    (.accepted _ plainTarget secondTip [] lastPlan (List.mem_cons_of_mem _ List.mem_cons_self))
  exact h₈.acts 0 (by decide) (.record _ plainTarget secondTip [] lastPlan)

/-- Two rows, one target, two ticks that overlap. Through the first tick's record both rows are
answered for in their order, and the second tick, which hears of the first row only then,
leaves the cursor where it is. -/
theorem delivery_at_least_once_tick : ∃ c c' : Agents.Config Outbox Tick,
    DeliveryRuns tipReader c c' ∧ c.shared.cursors "=https://a" = some 2 ∧
      c.shared.Delivered tipReader plainTarget 2 ∧
      ∃ cursor, c'.shared.cursors "=https://a" = some cursor ∧ 2 ≤ cursor := by
  have hafter {c c' : Agents.Config Outbox Tick} (_ : DeliveryRuns tipReader c c') :
      DeliveryRuns tipReader c' c' := .refl
  have hheard := (hafter first_tick_records).acts 1 (by decide)
    (.accepted _ plainTarget firstTip [secondTip] lastPlan List.mem_cons_self)
  have hrecorded := hheard.acts 1 (by decide)
    (.record _ plainTarget firstTip [secondTip] lastPlan)
  have hdelivered := delivery_at_least_once first_tick_records
  exact ⟨_, _, hrecorded, rfl, hdelivered.1 plainTarget 2 rfl,
    hdelivered.2 _ hrecorded plainTarget 2 rfl⟩

end Runs

end Chaintracks

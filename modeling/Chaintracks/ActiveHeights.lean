import Chaintracks.Runs
import Chaintracks.Regtest

/-!
# At most one active row a height

No constraint of the database says that a height has one active row; the writers do, each
by what it looks at before it activates anything. `Chaintracks.Rivals` says that two rows
are active at a height, and `Chaintracks.Rivals.move` what becomes of them in one
transaction: rivals after it were rivals before it, or stand at a height the transaction
crowds (`Chaintracks.crowded`) – it activates a row there without having looked at the row
already active there. A sweep of a height ends its rivals.

Over one call of a writer the account is `Chaintracks.crowdedNow`: the heights crowded and
not swept since. Where none is left the call keeps one active row a height
(`Chaintracks.uniqueActive_call`), and so does a bulk write or a catch-up that ends, for
its sweep settles what it crowded (`Chaintracks.uniqueActive_of_sweep`). A live insertion
beside a row active above the flag crowds a height for good
(`Chaintracks.insertion_beside_active`).
-/

namespace Chaintracks

open HeaderRows

/-! ### What a transaction activates -/

section Raises

variable {t : HeaderTable} {row : HeaderRow} {txn : List Stmt} {hash : String}

/-- The statement may activate the row of a hash. -/
def Stmt.Raises (hash : String) : Stmt → Prop
  | insertHeader _ header isActive _ => isActive = true ∧ header.hash = hash
  | setChainTipActive h | activateHash h | activateStored _ h _ | canonicalizeHeight h _ => h = hash
  | _ => False

theorem HeaderTable.active_update {cond : HeaderRow → Bool} {set : HeaderRow → RowCells}
    {P : Prop} (hrow : row ∈ (t.update cond set).rows) (hact : row.isActive = true)
    (h : ∀ r ∈ t.rows, cond r = true → r.hash = row.hash → (set r).isActive = true →
      r.isActive = true ∨ P) :
    (∃ r ∈ t.rows, r.toBlockHeader = row.toBlockHeader ∧ r.isActive = true) ∨ P := by
  obtain ⟨r, hr, rfl⟩ := HeaderTable.mem_update.mp hrow
  by_cases hc : cond r = true
  · simp only [if_pos hc] at hact h ⊢
    exact (h r hr hc rfl hact).imp_left fun ha => ⟨r, hr, rfl, ha⟩
  · simp only [if_neg hc] at hact ⊢
    exact .inl ⟨r, hr, rfl, hact⟩

/-- A row active after a statement was active before it, or the statement names it. -/
theorem Stmt.active_after {stmt : Stmt} (hrow : row ∈ (stmt.onHeaders t).rows)
    (hact : row.isActive = true) :
    (∃ r ∈ t.rows, r.toBlockHeader = row.toBlockHeader ∧ r.isActive = true) ∨
      stmt.Raises row.hash := by
  cases stmt with
  | insertHeader prev header act work =>
    rcases HeaderTable.mem_insert hrow with hrow | ⟨rfl, -⟩
    · exact .inl ⟨row, hrow, rfl, hact⟩
    · exact .inr ⟨hact, rfl⟩
  | setChainTipActive hash | activateHash hash =>
    exact HeaderTable.active_update hrow hact fun r _ hc hh _ => .inr ((beq_iff_eq.mp hc).symm.trans hh)
  | activateStored work hash height =>
    refine HeaderTable.active_update hrow hact fun r _ hc hh _ => .inr ?_
    rw [Bool.and_eq_true, Bool.and_eq_true, beq_iff_eq] at hc
    exact hc.1.1.symm.trans hh
  | canonicalizeHeight hash height =>
    exact HeaderTable.active_update hrow hact fun r _ _ hh ha =>
      .inr ((beq_iff_eq.mp ha).symm.trans hh)
  | recordPendingReorg => exact .inl ⟨row, hrow, rfl, hact⟩
  | deactivateAbove | dedupeHeight =>
    exact HeaderTable.active_update hrow hact fun r _ _ _ ha => nomatch ha
  | _ => exact HeaderTable.active_update hrow hact fun r _ _ _ ha => .inl ha

/-- A row active after a transaction was active before it, or a statement names it. -/
theorem active_after (hrow : row ∈ (onHeadersAll txn t).rows) (hact : row.isActive = true) :
    (∃ r ∈ t.rows, r.toBlockHeader = row.toBlockHeader ∧ r.isActive = true) ∨
      ∃ stmt ∈ txn, stmt.Raises row.hash := by
  induction txn generalizing t with
  | nil => exact .inl ⟨row, hrow, rfl, hact⟩
  | cons stmt txn ih =>
    rcases ih hrow with ⟨r, hr, hh, ha⟩ | ⟨s, hs, hraise⟩
    · rcases Stmt.active_after hr ha with ⟨r', hr', hh', ha'⟩ | hraise
      · exact .inl ⟨r', hr', hh'.trans hh, ha'⟩
      · have hhash : r.hash = row.hash := congrArg BlockHeader.hash hh
        exact .inr ⟨stmt, List.mem_cons_self, hhash ▸ hraise⟩
    · exact .inr ⟨s, List.mem_cons_of_mem _ hs, hraise⟩

end Raises

/-! ### Rivals, and the heights a transaction crowds -/

/-- Two rows are active at the height. -/
def Rivals (t : HeaderTable) (height : Nat) : Prop :=
  ∃ r ∈ t.rows, ∃ r' ∈ t.rows, r.hash ≠ r'.hash ∧ (r.isActive = true ∧ r.height = height) ∧
    r'.isActive = true ∧ r'.height = height

/-- No two active rows share a height. -/
def UniqueActive (t : HeaderTable) : Prop :=
  ∀ r ∈ t.rows, ∀ r' ∈ t.rows, r.isActive = true → r'.isActive = true → r.height = r'.height →
    r = r'

instance (t : HeaderTable) : Decidable (UniqueActive t) :=
  inferInstanceAs (Decidable (∀ r ∈ t.rows, ∀ r' ∈ t.rows, r.isActive = true →
    r'.isActive = true → r.height = r'.height → r = r'))

theorem uniqueActive_iff {t : HeaderTable} : UniqueActive t ↔ ∀ height, ¬Rivals t height := by
  constructor
  · rintro h height ⟨r, hr, r', hr', hne, ⟨ha, hh⟩, ha', hh'⟩
    exact hne (congrArg (·.hash) (h r hr r' hr' ha ha' (hh.trans hh'.symm)))
  · intro h r hr r' hr' ha ha' hh
    by_contra hne
    refine h r'.height ⟨r, hr, r', hr', ?_, ⟨ha, hh⟩, ha', rfl⟩
    exact fun hhash => hne (HeaderTable.eq_of_hash hr hr' hhash)

/-- Another row than that of `hash` is active at the height. -/
def rivalAt (rows : List HeaderRow) (height : Nat) (hash : String) : Bool :=
  rows.any fun r => r.isActive && (r.height == height && r.hash != hash)

/-- **The heights a transaction crowds**, read off the store before it: a new header goes
in active beside an active row; a stored row is activated at another height than the
one its batch carries; two rows of a reorg's branch stand at one height; the tip moves
to a row beside an active one. -/
def crowded (before : Store) (txn : List Stmt) : List Nat :=
  txn.flatMap fun stmt => match stmt with
    | .insertHeader _ header true _ =>
      if (headerForHash before.rows header.hash).isNone &&
          rivalAt before.rows header.height header.hash then [header.height] else []
    | .activateStored _ hash height =>
      (before.rows.filter fun r => r.hash == hash && (!r.isActive && r.height != height)).map
        (·.height)
    | .activateHash hash =>
      (before.rows.filter fun r => r.hash == hash && before.rows.any fun o =>
        o.height == r.height && (o.hash != hash && txn.any (· == .activateHash o.hash))).map
          (·.height)
    | .setChainTipActive hash =>
      if txn.any (· == .activateHash hash) then []
      else
        (before.rows.filter fun r => r.hash == hash && rivalAt before.rows r.height hash).map
          (·.height)
    | _ => []

section Crowded

variable {before : Store} {txn : List Stmt} {r o : HeaderRow}

theorem rivalAt_iff {rows : List HeaderRow} {height : Nat} {hash : String} :
    rivalAt rows height hash = true ↔
      ∃ r ∈ rows, r.isActive = true ∧ r.height = height ∧ r.hash ≠ hash := by
  simp [rivalAt]

theorem crowded_insert {prev : Option Nat} {header : BlockHeader} {work : Nat}
    (hs : .insertHeader prev header true work ∈ txn)
    (hfresh : headerForHash before.rows header.hash = none) (ho : o ∈ before.rows)
    (hact : o.isActive = true) (hh : o.height = header.height) : header.height ∈ crowded before txn := by
  refine List.mem_flatMap.mpr ⟨_, hs, ?_⟩
  have hne := headerForHash_eq_none.mp hfresh o ho
  have hrival := rivalAt_iff.mpr ⟨o, ho, hact, hh, hne⟩
  dsimp only
  rw [hfresh, hrival]
  exact List.mem_singleton_self _

theorem crowded_stored {work height : Nat} (hs : .activateStored work r.hash height ∈ txn)
    (hr : r ∈ before.rows) (hact : r.isActive = false) (hne : r.height ≠ height) :
    r.height ∈ crowded before txn := by
  refine List.mem_flatMap.mpr ⟨_, hs, List.mem_map.mpr ⟨r, List.mem_filter.mpr ⟨hr, ?_⟩, rfl⟩⟩
  simp [hact, hne]

theorem crowded_branch (hs : .activateHash r.hash ∈ txn) (hs' : .activateHash o.hash ∈ txn)
    (hr : r ∈ before.rows) (ho : o ∈ before.rows) (hne : r.hash ≠ o.hash)
    (hh : o.height = r.height) : r.height ∈ crowded before txn := by
  refine List.mem_flatMap.mpr ⟨_, hs, List.mem_map.mpr ⟨r, List.mem_filter.mpr ⟨hr, ?_⟩, rfl⟩⟩
  rw [Bool.and_eq_true]
  refine ⟨beq_self_eq_true _, List.any_eq_true.mpr ⟨o, ho, ?_⟩⟩
  simp [hh, hne.symm, hs']

theorem crowded_tip (hs : .setChainTipActive r.hash ∈ txn) (hnot : .activateHash r.hash ∉ txn)
    (hr : r ∈ before.rows) (ho : o ∈ before.rows) (hact : o.isActive = true)
    (hne : o.hash ≠ r.hash) (hh : o.height = r.height) : r.height ∈ crowded before txn := by
  refine List.mem_flatMap.mpr ⟨_, hs, ?_⟩
  have hany : txn.any (· == .activateHash r.hash) = false := by
    rw [List.any_eq_false]
    intro s hm he
    exact hnot (beq_iff_eq.mp he ▸ hm)
  dsimp only
  rw [hany]
  refine List.mem_map.mpr ⟨r, List.mem_filter.mpr ⟨hr, ?_⟩, rfl⟩
  rw [Bool.and_eq_true]
  exact ⟨beq_self_eq_true _, rivalAt_iff.mpr ⟨o, ho, hact, hh, hne⟩⟩

end Crowded

/-! ### One transaction -/

section Moves

variable {env : Env} {params : ChainParams} {w : World} {t : HeaderTable} {txn : List Stmt}
  {height : Nat}

/-- A transaction that names no row leaves no rivals that were not there. -/
theorem Rivals.of_unnamed (hr : Rivals (onHeadersAll txn t) height)
    (h : ∀ stmt ∈ txn, ∀ hash, ¬stmt.Raises hash) : Rivals t height := by
  obtain ⟨r, hr, r', hr', hne, ⟨ha, hh⟩, ha', hh'⟩ := hr
  have hold : ∀ row ∈ (onHeadersAll txn t).rows, row.isActive = true →
      ∃ o ∈ t.rows, o.toBlockHeader = row.toBlockHeader ∧ o.isActive = true := by
    intro row hrow hact
    rcases active_after hrow hact with ho | ⟨stmt, hs, hraise⟩
    · exact ho
    · exact absurd hraise (h stmt hs _)
  obtain ⟨o, ho, he, hoa⟩ := hold r hr ha
  obtain ⟨o', ho', he', hoa'⟩ := hold r' hr' ha'
  refine ⟨o, ho, o', ho', ?_, ⟨hoa, (congrArg BlockHeader.height he).trans hh⟩, hoa',
    (congrArg BlockHeader.height he').trans hh'⟩
  rw [show o.hash = r.hash from congrArg BlockHeader.hash he,
    show o'.hash = r'.hash from congrArg BlockHeader.hash he']
  exact hne

/-- Where a transaction names one row alone, rivals after it were rivals before, or one
of them is that row. -/
theorem Rivals.of_named {hash : String} (hr : Rivals (onHeadersAll txn t) height)
    (h : ∀ stmt ∈ txn, ∀ named, stmt.Raises named → named = hash) :
    Rivals t height ∨
      ∃ row ∈ (onHeadersAll txn t).rows, row.hash = hash ∧ row.height = height ∧
        ∃ o ∈ t.rows, o.isActive = true ∧ o.height = height ∧ o.hash ≠ hash := by
  obtain ⟨r, hr, r', hr', hne, ⟨ha, hh⟩, ha', hh'⟩ := hr
  rcases active_after hr ha with ⟨o, ho, he, hoa⟩ | ⟨stmt, hs, hraise⟩ <;>
    rcases active_after hr' ha' with ⟨o', ho', he', hoa'⟩ | ⟨stmt', hs', hraise'⟩
  · have hhash : o.hash = r.hash := congrArg BlockHeader.hash he
    have hhash' : o'.hash = r'.hash := congrArg BlockHeader.hash he'
    refine .inl ⟨o, ho, o', ho', ?_, ⟨hoa, (congrArg BlockHeader.height he).trans hh⟩, hoa',
      (congrArg BlockHeader.height he').trans hh'⟩
    rwa [hhash, hhash']
  · have hhash : o.hash = r.hash := congrArg BlockHeader.hash he
    have hnamed := h stmt' hs' _ hraise'
    refine .inr ⟨r', hr', hnamed, hh', o, ho, hoa, (congrArg BlockHeader.height he).trans hh, ?_⟩
    rwa [hhash, ← hnamed]
  · have hhash' : o'.hash = r'.hash := congrArg BlockHeader.hash he'
    have hnamed := h stmt hs _ hraise
    refine .inr ⟨r, hr, hnamed, hh, o', ho', hoa', (congrArg BlockHeader.height he').trans hh', ?_⟩
    rw [hhash', ← hnamed]
    exact hne.symm
  · exact absurd ((h stmt hs _ hraise).trans (h stmt' hs' _ hraise').symm) hne

/-- A sweep leaves no rivals at its height. -/
theorem dedupe_settles (t : HeaderTable) (height : Nat) :
    ¬Rivals ((Stmt.dedupeHeight height).onHeaders t) height := by
  rintro ⟨r, hr, r', hr', hne, ⟨ha, hh⟩, ha', hh'⟩
  have hkept : ∀ row ∈ ((Stmt.dedupeHeight height).onHeaders t).rows, row.isActive = true →
      row.height = height → some row.headerId = (dedupeKept t.rows height).map (·.headerId) := by
    intro row hrow hact hheight
    obtain ⟨o, -, rfl⟩ := HeaderTable.mem_update.mp hrow
    by_contra hid
    split at hact
    · cases hact
    · rename_i hc
      split at hheight <;> split at hid <;> simp_all
  have hid : r.headerId = r'.headerId :=
    Option.some_inj.mp ((hkept r hr ha hh).trans (hkept r' hr' ha' hh').symm)
  exact hne (congrArg (·.hash) (HeaderTable.eq_of_headerId hr hr' hid))

/-- The activation of a push leaves no rivals that were not there: at each of its
heights its own row is the one active row. -/
theorem Rivals.of_canonicalize {headers : List BlockHeader}
    (hr : Rivals (onHeadersAll (headers.map fun x => .canonicalizeHeight x.hash x.height) t)
      height) : Rivals t height := by
  induction headers generalizing t with
  | nil => exact hr
  | cons x xs ih =>
    obtain ⟨r, hr, r', hr', hne, ⟨ha, hh⟩, ha', hh'⟩ := ih hr
    obtain ⟨o, ho, he, -, hcells⟩ := HeaderTable.of_mem_update hr
    obtain ⟨o', ho', he', -, hcells'⟩ := HeaderTable.of_mem_update hr'
    replace ha : r.toRowCells.isActive = true := ha
    replace ha' : r'.toRowCells.isActive = true := ha'
    rw [he] at hh
    rw [he'] at hh'
    rw [he, he'] at hne
    rw [hcells] at ha
    rw [hcells'] at ha'
    by_cases hx : x.height = height
    · -- both would carry the hash of the row the statement names
      rw [if_pos (beq_iff_eq.mpr (hh.trans hx.symm))] at ha
      rw [if_pos (beq_iff_eq.mpr (hh'.trans hx.symm))] at ha'
      exact absurd ((beq_iff_eq.mp ha).trans (beq_iff_eq.mp ha').symm) hne
    · rw [if_neg fun hc => hx ((beq_iff_eq.mp hc).symm.trans hh)] at ha
      rw [if_neg fun hc => hx ((beq_iff_eq.mp hc).symm.trans hh')] at ha'
      exact ⟨o, ho, o', ho', hne, ⟨ha, hh⟩, ha', hh'⟩

/-- **A chunk of a batch, mid-way**: the rows of the store are there, those active still
active; and a row active now was so before, or stands at a crowded height, or is of a
header of the run, at its height, with no row active there before. -/
structure BulkRows (db : Store) (headers : List BlockHeader) (chunk : List Stmt)
    (t : HeaderTable) : Prop where
  kept : ∀ o ∈ db.rows, ∃ r ∈ t.rows, r.toBlockHeader = o.toBlockHeader ∧
    (o.isActive = true → r.isActive = true)
  origin : ∀ r ∈ t.rows, (∃ o ∈ db.rows, o.toBlockHeader = r.toBlockHeader) ∨ r.isActive = true
  active : ∀ r ∈ t.rows, r.isActive = true →
    (∃ o ∈ db.rows, o.toBlockHeader = r.toBlockHeader ∧ o.isActive = true) ∨
      r.height ∈ crowded db chunk ∨
      (∃ x ∈ headers, x.hash = r.hash ∧ x.height = r.height) ∧
        ∀ o ∈ db.rows, o.isActive = true → o.height ≠ r.height

section Bulk

variable {db : Store} {headers : List BlockHeader} {chunk : List Stmt} {x : BlockHeader}
  {work : Nat}

theorem BulkRows.insert (h : BulkRows db headers chunk t) (hx : x ∈ headers)
    (hs : .insertHeader none x true work ∈ chunk) :
    BulkRows db headers chunk ((Stmt.insertHeader none x true work).onHeaders t) := by
  refine ⟨fun o ho => ?_, fun r hr => ?_, fun r hr hact => ?_⟩
  · obtain ⟨r, hr, he, ha⟩ := h.kept o ho
    exact ⟨r, HeaderTable.mem_insert_of_mem hr, he, ha⟩
  · rcases HeaderTable.mem_insert hr with hr | ⟨rfl, -⟩
    · exact h.origin r hr
    · exact .inr rfl
  · rcases HeaderTable.mem_insert hr with hr | ⟨rfl, hfresh⟩
    · exact h.active r hr hact
    · have hfresh' : headerForHash db.rows x.hash = none := by
        refine headerForHash_eq_none.mpr fun o ho hh => ?_
        obtain ⟨r, hr, he, -⟩ := h.kept o ho
        exact hfresh r hr ((congrArg BlockHeader.hash he).trans hh)
      by_cases hrival : ∃ o ∈ db.rows, o.isActive = true ∧ o.height = x.height
      · obtain ⟨o, ho, hoa, hoh⟩ := hrival
        exact .inr (.inl (crowded_insert hs hfresh' ho hoa hoh))
      · exact .inr (.inr ⟨⟨x, hx, rfl, rfl⟩, fun o ho hoa hoh => hrival ⟨o, ho, hoa, hoh⟩⟩)

theorem BulkRows.activateStored (h : BulkRows db headers chunk t) (hx : x ∈ headers)
    (hs : .activateStored work x.hash x.height ∈ chunk) :
    BulkRows db headers chunk ((Stmt.activateStored work x.hash x.height).onHeaders t) := by
  refine ⟨fun o ho => ?_, fun r hr => ?_, fun r hr hact => ?_⟩
  · obtain ⟨r, hr, he, ha⟩ := h.kept o ho
    refine ⟨_, HeaderTable.mem_update.mpr ⟨r, hr, rfl⟩, ?_⟩
    split
    · exact ⟨he, fun _ => rfl⟩
    · exact ⟨he, ha⟩
  · obtain ⟨q, hq, rfl⟩ := HeaderTable.mem_update.mp hr
    split
    · exact .inr rfl
    · exact h.origin q hq
  · obtain ⟨q, hq, rfl⟩ := HeaderTable.mem_update.mp hr
    split at hact
    · -- the row the statement activates: nothing is active at the batch's height
      rename_i hc
      rw [if_pos hc]
      simp only [Bool.and_eq_true, beq_iff_eq, Bool.not_eq_true', List.any_eq_false, not_and,
        Bool.not_eq_true] at hc
      obtain ⟨⟨hhash, hinactive⟩, hnone⟩ := hc
      have hfree : ∀ o ∈ db.rows, o.isActive = true → o.height ≠ x.height := by
        intro o ho hoa hoh
        obtain ⟨r', hr', he, ha⟩ := h.kept o ho
        have := hnone r' hr' ((congrArg BlockHeader.height he).trans hoh)
        rw [ha hoa] at this
        cases this
      rcases h.origin q hq with ⟨o, ho, he⟩ | hqa
      · have hoh : o.hash = x.hash := (congrArg BlockHeader.hash he).trans hhash
        have hheight : o.height = q.height := congrArg BlockHeader.height he
        have hoi : o.isActive = false := by
          by_contra hoa
          rw [Bool.not_eq_false] at hoa
          obtain ⟨r', hr', he', ha'⟩ := h.kept o ho
          have : r' = q := HeaderTable.eq_of_hash hr' hq (congrArg BlockHeader.hash (he'.trans he))
          rw [← this, ha' hoa] at hinactive
          cases hinactive
        by_cases hne : o.height = x.height
        · refine .inr (.inr ⟨⟨x, hx, hhash.symm, hne.symm.trans hheight⟩, ?_⟩)
          exact fun o' ho' hoa' hoh' => hfree o' ho' hoa' (hoh'.trans (hheight.symm.trans hne))
        · refine .inr (.inl ?_)
          change q.height ∈ _
          rw [← hheight]
          exact crowded_stored (hoh ▸ hs) ho hoi hne
      · rw [hqa] at hinactive
        cases hinactive
    · rename_i hc
      rw [if_neg hc]
      exact h.active q hq hact

/-- The whole chunk. -/
theorem BulkRows.whole (db : Store) (headers : List BlockHeader)
    (hwrites : ∀ stmt ∈ chunk, ∃ x ∈ headers, ∃ work,
      stmt = .activateStored work x.hash x.height ∨ stmt = .insertHeader none x true work) :
    BulkRows db headers chunk (onHeadersAll chunk db.headers) := by
  have hgen : ∀ (stmts : List Stmt) (t : HeaderTable), stmts ⊆ chunk →
      BulkRows db headers chunk t → BulkRows db headers chunk (onHeadersAll stmts t) := by
    intro stmts
    induction stmts with
    | nil => exact fun _ _ h => h
    | cons stmt stmts ih =>
      intro t hsub h
      have hs := hsub List.mem_cons_self
      refine ih _ (fun s hm => hsub (List.mem_cons_of_mem _ hm)) ?_
      obtain ⟨x, hx, work, rfl | rfl⟩ := hwrites stmt hs
      · exact h.activateStored hx hs
      · exact h.insert hx hs
  refine hgen chunk db.headers (fun _ h => h) ⟨fun o ho => ⟨o, ho, rfl, id⟩, fun r hr => ?_, ?_⟩
  · exact .inl ⟨r, hr, rfl⟩
  · exact fun r hr hact => .inl ⟨r, hr, rfl, hact⟩

/-- Rivals after a chunk were rivals before it, or stand at a height it crowds. -/
theorem Rivals.of_bulk (hlinked : LinkedRun headers)
    (hwrites : ∀ stmt ∈ chunk, ∃ x ∈ headers, ∃ work,
      stmt = .activateStored work x.hash x.height ∨ stmt = .insertHeader none x true work)
    (hr : Rivals (onHeadersAll chunk db.headers) height) :
    height ∈ crowded db chunk ∨ Rivals db.headers height := by
  have h := BulkRows.whole db headers hwrites
  obtain ⟨r, hr, r', hr', hne, ⟨ha, hh⟩, ha', hh'⟩ := hr
  rcases h.active r hr ha with ⟨o, ho, he, hoa⟩ | hc | ⟨⟨x, hx, hxh, hxv⟩, hfree⟩
  · have hoh : o.height = height := (congrArg BlockHeader.height he).trans hh
    rcases h.active r' hr' ha' with ⟨o', ho', he', hoa'⟩ | hc | ⟨-, hfree'⟩
    · refine .inr ⟨o, ho, o', ho', ?_, ⟨hoa, hoh⟩, hoa', (congrArg BlockHeader.height he').trans hh'⟩
      rw [show o.hash = r.hash from congrArg BlockHeader.hash he,
        show o'.hash = r'.hash from congrArg BlockHeader.hash he']
      exact hne
    · exact .inl (hh' ▸ hc)
    · exact absurd (hoh.trans hh'.symm) (hfree' o ho hoa)
  · exact .inl (hh ▸ hc)
  · rcases h.active r' hr' ha' with ⟨o', ho', he', hoa'⟩ | hc | ⟨⟨x', hx', hxh', hxv'⟩, -⟩
    · have hoh' : o'.height = height := (congrArg BlockHeader.height he').trans hh'
      exact absurd (hoh'.trans hh.symm) (hfree o' ho' hoa')
    · exact .inl (hh' ▸ hc)
    · -- the heights of a linked run differ
      refine absurd ?_ hne
      rw [← hxh, ← hxh', hlinked.eq_of_height hx hx' (by omega)]

end Bulk

/-- A reorg's rivals were rivals before it, or stand at a height it crowds: what it leaves
active stood at or below the ancestor, and its branch stands above it. -/
theorem Rivals.of_reorg {db : Store} {new oldTip : LinkedHeader} {row : HeaderRow}
    {plan : ReorgPlan} (hrow : row ∈ db.rows) (hsame : row.toBlockHeader = new.toBlockHeader)
    (hplan : planReorg db.rows new oldTip = .ok plan)
    (hr : Rivals (onHeadersAll (plan.txn new.hash) db.headers) height) :
    height ∈ crowded db (plan.txn new.hash) ∨ Rivals db.headers height := by
  obtain ⟨ancestor, -, hanc, hbranch, -⟩ := planReorg_ok hplan
  have hhash : row.hash = new.hash := congrArg BlockHeader.hash hsame
  have hheight : row.height = new.height := congrArg BlockHeader.height hsame
  -- the rows of the branch are stored, above the ancestor
  have hstored : ∀ hash ∈ plan.branch, ∃ q ∈ db.rows, q.hash = hash ∧ plan.ancestorHeight < q.height := by
    intro hash hmem
    rcases branchAbove_mem hbranch hmem with ⟨rfl, hlt⟩ | ⟨q, hq, hh, hlt⟩
    · exact ⟨row, hrow, hhash, by omega⟩
    · exact ⟨q, hq, hh, by omega⟩
  have hin : ∀ hash ∈ plan.branch, .activateHash hash ∈ plan.txn new.hash := by
    intro hash hmem
    simp [ReorgPlan.txn, hmem]
  have hout : ∀ hash, .activateHash hash ∈ plan.txn new.hash → hash ∈ plan.branch := by
    intro hash hmem
    simpa [ReorgPlan.txn] using hmem
  have hset : .setChainTipActive new.hash ∈ plan.txn new.hash := by
    simp [ReorgPlan.txn]
  -- what each row active after it is
  have hactive : ∀ q ∈ (onHeadersAll (plan.txn new.hash) db.headers).rows, q.isActive = true →
      ∃ o ∈ db.rows, o.toBlockHeader = q.toBlockHeader ∧
        (o.isActive = true ∧ o.height ≤ plan.ancestorHeight ∨ o.hash ∈ plan.branch ∨
          o.hash = new.hash ∧ new.height ≤ plan.ancestorHeight) := by
    intro q hq hact
    rw [ReorgPlan.txn, List.cons_append, onHeadersAll_cons] at hq
    rcases active_after hq hact with ⟨q', hq', he, hact'⟩ | ⟨stmt, hs, hraise⟩
    · -- active already once the old branch was taken off
      obtain ⟨o, ho, he', -, hcells⟩ := HeaderTable.of_mem_update hq'
      replace hact' : q'.toRowCells.isActive = true := hact'
      rw [hcells] at hact'
      split at hact'
      · cases hact'
      · rename_i hc
        have hle : o.height ≤ plan.ancestorHeight := by
          by_contra hgt
          exact hc (by rw [Bool.and_eq_true]; exact ⟨decide_eq_true (by omega), hact'⟩)
        exact ⟨o, ho, he'.symm.trans he, .inl ⟨hact', hle⟩⟩
    · simp only [List.mem_append, List.mem_map, List.mem_cons, List.not_mem_nil, or_false] at hs
      have hnamed : q.hash ∈ plan.branch ∨ q.hash = new.hash := by
        rcases hs with ⟨hash, hmem, rfl⟩ | rfl | rfl | rfl
        · exact .inl (hraise ▸ hmem)
        · exact hraise.elim
        · exact hraise.elim
        · exact .inr hraise.symm
      have horigin : ∃ o ∈ db.rows, o.toBlockHeader = q.toBlockHeader := by
        rw [← onHeadersAll_cons, ← List.cons_append] at hq
        rcases mem_onHeadersAll hq with ⟨o, ho, he, -⟩ | ⟨prev, act, work, hins⟩
        · exact ⟨o, ho, he.symm⟩
        · simp at hins
      obtain ⟨o, ho, he⟩ := horigin
      have hoh : o.hash = q.hash := congrArg BlockHeader.hash he
      refine ⟨o, ho, he, .inr ?_⟩
      rcases hnamed with hb | hn
      · exact .inl (hoh ▸ hb)
      · by_cases hle : new.height ≤ plan.ancestorHeight
        · exact .inr ⟨hoh.trans hn, hle⟩
        · refine .inl ?_
          rw [hoh, hn]
          exact branchAbove_self hbranch (by omega)
  obtain ⟨r, hr, r', hr', hne, ⟨ha, hh⟩, ha', hh'⟩ := hr
  obtain ⟨o, ho, he, hcase⟩ := hactive r hr ha
  obtain ⟨o', ho', he', hcase'⟩ := hactive r' hr' ha'
  have hoh : o.height = height := (congrArg BlockHeader.height he).trans hh
  have hoh' : o'.height = height := (congrArg BlockHeader.height he').trans hh'
  have hone : o.hash ≠ o'.hash := by
    rwa [show o.hash = r.hash from congrArg BlockHeader.hash he,
      show o'.hash = r'.hash from congrArg BlockHeader.hash he']
  -- a row of the branch stands above the ancestor, whichever row carries its hash
  have habove : ∀ q ∈ db.rows, q.hash ∈ plan.branch → plan.ancestorHeight < q.height := by
    intro q hq hb
    obtain ⟨q', hq', hqh, hlt⟩ := hstored _ hb
    rwa [HeaderTable.eq_of_hash hq hq' hqh.symm]
  rcases hcase with ⟨hoa, hle⟩ | hb | ⟨hn, hle⟩ <;> rcases hcase' with ⟨hoa', hle'⟩ | hb' | ⟨hn', hle'⟩
  · exact .inr ⟨o, ho, o', ho', hone, ⟨hoa, hoh⟩, hoa', hoh'⟩
  · have := habove o' ho' hb'
    omega
  · refine .inl (hoh' ▸ crowded_tip (hn' ▸ hset) (fun hm => ?_) ho' ho hoa hone (hoh.trans hoh'.symm))
    have := habove o' ho' (hout _ hm)
    omega
  · have := habove o ho hb
    omega
  · exact .inl (hoh ▸ crowded_branch (hin _ hb) (hin _ hb') ho ho' hone (hoh'.trans hoh.symm))
  · have := habove o ho hb
    have hno : o'.height = new.height := by
      rw [HeaderTable.eq_of_hash ho' hrow (hn'.trans hhash.symm), hheight]
    omega
  · refine .inl (hoh ▸ crowded_tip (hn ▸ hset) (fun hm => ?_) ho ho' hoa' hone.symm
      (hoh'.trans hoh.symm))
    have := habove o ho (hout _ hm)
    omega
  · have := habove o' ho' hb'
    have hno : o.height = new.height := by
      rw [HeaderTable.eq_of_hash ho hrow (hn.trans hhash.symm), hheight]
    omega
  · exact absurd (hn.trans hn'.symm) hone

/-- The rivals of a transaction of the live path. -/
theorem Rivals.of_live {offered : BlockHeader → Prop} (hmove : LiveMove params offered w txn)
    (hr : Rivals (onHeadersAll txn w.db.headers) height) :
    height ∈ crowded w.db txn ∨
      Rivals w.db.headers height ∧ .dedupeHeight height ∉ txn := by
  cases hmove with
  | insertion header a given pow fresh =>
    have hnot : .dedupeHeight height ∉ a.txn header := by
      unfold Admission.txn Admission.insertion
      split <;> simp
    by_cases hact : a.isActive header = true
    · have hnamed : ∀ stmt ∈ a.txn header, ∀ named, stmt.Raises named → named = header.hash := by
        intro stmt hs named hraise
        rw [Admission.txn, if_pos hact, Admission.insertion] at hs
        simp only [List.mem_cons, List.not_mem_nil, or_false] at hs
        rcases hs with rfl | rfl | rfl
        · exact hraise.2.symm
        · exact hraise.elim
        · exact hraise.symm
      rcases hr.of_named hnamed with hb | ⟨row, hrow, hh, hheight, o, ho, hoa, hoh, -⟩
      · exact .inr ⟨hb, hnot⟩
      · -- the new row is the header's own
        rcases mem_onHeadersAll hrow with ⟨q, hq, he, -⟩ | ⟨prev, act, work, hins⟩
        · refine absurd ?_ (headerForHash_eq_none.mp fresh q hq)
          exact (congrArg BlockHeader.hash he).symm.trans hh
        · have hrh : row.toBlockHeader = header := by
            unfold Admission.txn Admission.insertion at hins
            split at hins <;> simp at hins <;> exact hins.2.1
          have hhh : header.height = height := hrh ▸ hheight
          have hins : .insertHeader (a.previous.map (·.headerId)) header true a.chainWork ∈
              a.txn header := by
            rw [Admission.txn, if_pos hact, Admission.insertion, hact]
            exact List.mem_cons_self
          exact .inl (hhh ▸ crowded_insert hins fresh ho hoa (hoh.trans hhh.symm))
    · refine .inr ⟨hr.of_unnamed fun stmt hs hash hraise => ?_, hnot⟩
      rw [Admission.txn, if_neg hact, Admission.insertion, List.mem_singleton] at hs
      subst hs
      exact hact hraise.1
  | reorg new row tip plan stored same link flagged apart outworks cleared planned =>
    refine (Rivals.of_reorg stored same planned hr).imp_right fun h => ⟨h, ?_⟩
    simp [ReorgPlan.txn]
  | moveTip row stored =>
    have hnamed : ∀ stmt ∈ moveTipTxn row.hash, ∀ named, stmt.Raises named → named = row.hash := by
      intro stmt hs named hraise
      simp only [moveTipTxn, List.mem_cons, List.not_mem_nil, or_false] at hs
      rcases hs with rfl | rfl
      · exact hraise.elim
      · exact hraise.symm
    rcases hr.of_named hnamed with hb | ⟨r, hrow, hh, hheight, o, ho, hoa, hoh, hne⟩
    · exact .inr ⟨hb, by simp [moveTipTxn]⟩
    · rcases mem_onHeadersAll hrow with ⟨q, hq, he, -⟩ | ⟨prev, act, work, hins⟩
      · have hqr : q = row := HeaderTable.eq_of_hash hq stored
          ((congrArg BlockHeader.hash he).symm.trans hh)
        have hrowh : row.height = height := by
          rw [← hqr]
          exact (congrArg BlockHeader.height he).symm.trans hheight
        refine .inl (hrowh ▸ crowded_tip ?_ ?_ stored ho hoa hne (hoh.trans hrowh.symm))
        · simp [moveTipTxn]
        · simp [moveTipTxn]
      · simp [moveTipTxn] at hins
  | relink =>
    refine .inr ⟨hr.of_unnamed fun stmt hs hash hraise => ?_, by simp⟩
    rw [List.mem_singleton] at hs
    subst hs
    exact hraise

/-- **The rivals of one transaction**: they were rivals before it and their height was not
swept, or their height is crowded by it. -/
theorem Rivals.move (hmove : Move params w txn)
    (hr : Rivals (onHeadersAll txn w.db.headers) height) :
    height ∈ crowded w.db txn ∨
      Rivals w.db.headers height ∧ .dedupeHeight height ∉ txn := by
  cases hmove with
  | live hlive => exact hr.of_live hlive
  | flagTip top =>
    refine .inr ⟨hr.of_unnamed fun stmt hs hash hraise => ?_, by simp [flagTipTxn]⟩
    simp only [flagTipTxn, List.mem_cons, List.not_mem_nil, or_false] at hs
    rcases hs with rfl | rfl <;> exact hraise
  | bulk headers _ linked pow cleared writes =>
    refine (Rivals.of_bulk linked writes hr).imp_right fun h => ⟨h, fun hm => ?_⟩
    obtain ⟨x, -, work, hw | hw⟩ := writes _ hm <;> cases hw
  | progress _ writes =>
    refine .inr ⟨hr.of_unnamed fun stmt hs hash hraise => ?_, fun hm => ?_⟩
    · obtain ⟨x, work, rfl, -⟩ := writes _ hs
      cases hraise.1
    · obtain ⟨x, work, hw, -⟩ := writes _ hm
      cases hw
  | linkSpan =>
    refine .inr ⟨hr.of_unnamed fun stmt hs hash hraise => ?_, by simp⟩
    rw [List.mem_singleton] at hs
    subst hs
    exact hraise
  | activation headers last child lowest =>
    rw [activationTxn, onHeadersAll_append] at hr
    refine .inr ⟨(hr.of_unnamed fun stmt hs hash hraise => ?_).of_canonicalize, ?_⟩
    · simp only [List.mem_cons, Option.mem_toList, Option.map_eq_some_iff] at hs
      rcases hs with rfl | ⟨lo, -, rfl⟩ <;> exact hraise
    · simp [activationTxn]
  | dedupe swept =>
    refine .inr ⟨hr.of_unnamed fun stmt hs hash hraise => ?_, fun hm => ?_⟩
    · rw [List.mem_singleton] at hs
      subst hs
      exact hraise
    · rw [List.mem_singleton] at hm
      cases hm
      exact dedupe_settles w.db.headers height hr
  | repair _ writes =>
    refine .inr ⟨hr.of_unnamed fun stmt hs hash hraise => ?_, fun hm => ?_⟩
    · obtain ⟨work, id, rfl⟩ := writes _ hs
      exact hraise
    · obtain ⟨work, id, hw⟩ := writes _ hm
      cases hw

end Moves

/-! ### One call -/

section Calls

variable {env : Env} {params : ChainParams}

/-- The heights that transactions have crowded and none has swept since, newest first. -/
def crowdedNow : List Entry → List Nat
  | [] => []
  | .commit before txn _ :: earlier =>
    crowded before txn ++ (crowdedNow earlier).filter fun h => !txn.any (· == .dedupeHeight h)
  | _ :: earlier => crowdedNow earlier

/-- Rivals after some steps were rivals before them, or stand at a height crowded since. -/
theorem rivals_steps {w w' : World} (h : Relation.ReflTransGen (Step params (Move params)) w w') :
    ∃ new, w'.history = new ++ w.history ∧ ∀ height, Rivals w'.db.headers height →
      Rivals w.db.headers height ∨ height ∈ crowdedNow new := by
  induction h with
  | refl => exact ⟨[], rfl, fun _ hr => .inl hr⟩
  | tail _ hs ih =>
    obtain ⟨new, hnew, hrivals⟩ := ih
    cases hs with
    | asked => exact ⟨new, hnew, hrivals⟩
    | noted entry hcheck hsound =>
      refine ⟨entry :: new, congrArg (entry :: ·) hnew, fun height hr => ?_⟩
      refine (hrivals height hr).imp_right fun hm => ?_
      cases entry with
      | commit b txn a => exact absurd rfl (hcheck b txn a)
      | passed => exact hm
      | vouched => exact hm
    | committed now txn hmove =>
      refine ⟨_ :: new, congrArg (_ :: ·) hnew, fun height hr => ?_⟩
      dsimp only at hr
      rw [execAll_headers] at hr
      rcases hr.move hmove with hc | ⟨hb, hnot⟩
      · exact .inr (List.mem_append_left _ hc)
      · refine (hrivals height hb).imp_right fun hm => List.mem_append_right _ ?_
        refine List.mem_filter.mpr ⟨hm, ?_⟩
        rw [Bool.not_eq_true', List.any_eq_false]
        intro s hs he
        exact hnot (beq_iff_eq.mp he ▸ hs)

/-- **A call that leaves no height crowded keeps one active row a height.** -/
theorem uniqueActive_call (env : Env) (params : ChainParams) (call : Call) (w : World)
    (hunique : UniqueActive w.db.headers)
    (hsettled : crowdedNow ((call.run env params w).since w) = []) :
    UniqueActive (call.run env params w).db.headers := by
  obtain ⟨new, hnew, hrivals⟩ := rivals_steps (show Relation.ReflTransGen (Step params (Move params)) w
    (call.run env params w) from via_call call w)
  rw [since_eq hnew] at hsettled
  rw [uniqueActive_iff] at hunique ⊢
  intro height hr
  rcases hrivals height hr with hb | hm
  · exact hunique height hb
  · rw [hsettled] at hm
    cases hm

open Regtest in
/-- A bulk write beside rows active above the flag: its sweep settles both heights. -/
theorem uniqueActive_call_bulkWrite : UniqueActive ((Call.bulkWrite [b1, b2]).run host
    Regtest.params (runAll host Regtest.params [.insertHeader genesis, .backfillWrite [a1, a2]]
      .init)).db.headers :=
  uniqueActive_call _ _ _ _ (by decide +kernel) (by decide +kernel)

open Regtest in
/-- **A live insertion beside an active row.** A backfill leaves two rows active above the
flag, one at each height; the insertion of a rival of the first extends the flagged tip,
ends well, and leaves two rows active at its height. -/
theorem insertion_beside_active :
    UniqueActive (runAll host Regtest.params [.insertHeader genesis, .backfillWrite [a1, a2]]
        .init).db.headers ∧
      (insertHeader host Regtest.params b1 (runAll host Regtest.params
        [.insertHeader genesis, .backfillWrite [a1, a2]] .init)).1.isOk = true ∧
      ¬UniqueActive ((Call.insertHeader b1).run host Regtest.params (runAll host Regtest.params
        [.insertHeader genesis, .backfillWrite [a1, a2]] .init)).db.headers := by
  decide +kernel

end Calls

/-! ### The sweep -/

section Sweep

variable {env : Env} {w w' : World} {heights : List Nat} {n : Nat}

/-- A sweep that ends leaves no rivals at the heights it was given. -/
theorem dedupeEach_settles (h : dedupeEach env heights w = (.ok n, w')) :
    ∀ height, Rivals w'.db.headers height → Rivals w.db.headers height ∧ height ∉ heights := by
  induction heights generalizing w n with
  | nil =>
    cases h
    exact fun height hr => ⟨hr, List.not_mem_nil⟩
  | cons x xs ih =>
    unfold dedupeEach dedupeOne readRows at h
    obtain ⟨swept, w₁, hone, h⟩ := Prog.bind_eq_ok h
    obtain ⟨_, w₂, hcommit, hone⟩ := Prog.bind_eq_ok (m := commit env [.dedupeHeight x]) hone
    obtain ⟨-, rfl⟩ := commit_eq_ok hcommit
    cases hone
    obtain ⟨rest, w₃, hrest, h⟩ := Prog.bind_eq_ok h
    cases h
    intro height hr
    obtain ⟨hmid, hnot⟩ := ih hrest height hr
    dsimp only at hmid
    rw [execAll_headers] at hmid
    refine ⟨hmid.of_unnamed fun stmt hs hash hraise => ?_, fun hm => ?_⟩
    · rw [List.mem_singleton] at hs
      subst hs
      exact hraise
    · rcases List.mem_cons.mp hm with rfl | hm
      · exact dedupe_settles w.db.headers height hmid
      · exact hnot hm

/-- The heights of rivals are the heights a sweep lists. -/
theorem mem_dualActiveHeights {t : HeaderTable} {height : Nat} (h : Rivals t height) :
    height ∈ dualActiveHeights t.rows := by
  obtain ⟨r, hr, r', hr', hne, ⟨ha, hh⟩, ha', hh'⟩ := h
  have hcount : 1 < ((t.rows.filter (·.isActive)).map (·.height)).count height := by
    rw [List.count, List.countP_map, List.countP_eq_length_filter]
    have hm : r ∈ (t.rows.filter (·.isActive)).filter ((· == height) ∘ (·.height)) := by
      simp [hr, ha, hh]
    have hm' : r' ∈ (t.rows.filter (·.isActive)).filter ((· == height) ∘ (·.height)) := by
      simp [hr', ha', hh']
    generalize (t.rows.filter (·.isActive)).filter ((· == height) ∘ (·.height)) = l at hm hm'
    match l with
    | [] => cases hm
    | [x] =>
      rw [List.mem_singleton] at hm hm'
      exact absurd (hm.trans hm'.symm ▸ rfl) hne
    | _ :: _ :: _ =>
      simp only [List.length_cons]
      omega
  rw [dualActiveHeights, List.mem_insertionSort, List.mem_filter, List.mem_dedup]
  exact ⟨List.count_pos_iff.mp (by omega), decide_eq_true hcount⟩

/-- **A sweep that ends leaves one active row a height**, where no more heights than one
sweep settles had two. -/
theorem uniqueActive_of_sweep (h : dedupeActiveHeights env w = (.ok n, w'))
    (hfew : (dualActiveHeights w.db.rows).length ≤ dedupeHeightsPerSweep) :
    UniqueActive w'.db.headers := by
  unfold dedupeActiveHeights readRows at h
  rw [Prog.read_bind_apply, List.take_of_length_le hfew] at h
  rw [uniqueActive_iff]
  intro height hr
  obtain ⟨hb, hnot⟩ := dedupeEach_settles h height hr
  exact hnot (mem_dualActiveHeights hb)

end Sweep

end Chaintracks

import Chaintracks.Clock
import Chaintracks.Statement
import Chaintracks.Library.Agents

/-!
# The writer lease and its fence

One row's lease keeps the writers apart: its owner, a token drawn at the take, and the
last second of its term. Four conditions are evaluated on it, at different times and by
different isolates: the take (`Chaintracks.LeaseRow.takes`), the fence at the head of
every transaction that writes the `headers` table (`Chaintracks.LeaseRow.holds`), the
milliseconds left (`Chaintracks.LeaseRow.leftMs`) and the release.

A writer is an agent over the database (`Chaintracks.Writing`), the clock moves on its
own, and a batch is one transaction: it runs statement by statement on a copy, and its
first refusal leaves the database as it was (`Chaintracks.transaction`). The fence and
the writes behind it see one instant, and that is the whole of the safety argument: a
token is taken once, so a row that no longer names it never will again
(`Chaintracks.LeaseDb.Moves`).

What is left of the term is computed in doubles, where the rest is whole seconds. At the
first instant after the term the milliseconds can come out one too many, and for that
instant the holder reads a millisecond left of a lease that anyone may take
(`Chaintracks.lease_left_short`).
-/

namespace Chaintracks

/-! ### The four conditions -/

/-- The lease columns of the sync row. -/
structure LeaseRow where
  owner : Option String
  leaseUntil : Option Nat
  deriving DecidableEq

/-- `LEASE_S`. -/
def leaseTerm : Nat := 120

namespace LeaseRow

variable (row : LeaseRow) (owner : String) (now : Instant)

/-- The `WHERE` of `TAKE_LEASE_SQL`: free, this owner's, or expired. -/
def takes : Bool :=
  row.owner.isNone || row.owner == some owner || row.leaseUntil.any (· < now.seconds)

/-- `TAKE_LEASE_SQL`, with the number of rows it changed. -/
def take : LeaseRow × Nat :=
  if row.takes owner now then (⟨some owner, some (now.seconds + leaseTerm)⟩, 1) else (row, 0)

/-- `RELEASE_LEASE_SQL`. -/
def release : LeaseRow := if row.owner = some owner then ⟨none, none⟩ else row

/-- The condition of `FENCE_SQL`: the row names the owner and its term has not passed. -/
def holds : Bool := row.owner == some owner && decide (now.seconds ≤ row.leaseUntil.getD 0)

/-- `LEASE_LEFT_SQL`. -/
def leftMs : Option ℤ :=
  if row.owner = some owner then
    row.leaseUntil.map fun (u : Nat) => ((u : ℤ) + 1) * 1000 - castMs now
  else none

/-- `lease_left_of`, where the read answers: 0 when the lease is no longer the owner's. -/
def leftOf : ℤ := (row.leftMs owner now).getD 0

end LeaseRow

/-! ### The fenced writes -/

/-- The database as the writers share it: the store, the lease, the clock, and the tokens
ever drawn. -/
structure LeaseDb where
  store : Store
  lease : LeaseRow
  clock : Instant
  issued : List String

/-- Before any writer. -/
def LeaseDb.fresh : LeaseDb := ⟨.fresh, ⟨none, none⟩, .epoch, []⟩

/-- A statement of a batch. -/
inductive Sql
  /-- `FENCE_SQL`. -/
  | fence (owner : String)
  | stmt (stmt : Stmt)

/-- One statement: the fence sets an id the row's check refuses where the lease is not
held; a statement may fail on its own. -/
def Sql.run (fails : Stmt → Bool) (db : LeaseDb) : Sql → Option LeaseDb
  | fence owner => if db.lease.holds owner db.clock then some db else none
  | stmt s => if fails s then none else some { db with store := s.exec db.clock.seconds db.store }

/-- A batch is one transaction: all of it, or none. -/
def transaction (fails : Stmt → Bool) (batch : List Sql) (db : LeaseDb) : LeaseDb × Bool :=
  match batch.foldlM (Sql.run fails) db with
  | some db' => (db', true)
  | none => (db, false)

/-- `Fenced::writes_headers`. -/
def writesHeaders (sql : String) : Bool :=
  ["INSERT OR IGNORE INTO headers", "INSERT INTO headers", "UPDATE headers ",
    "DELETE FROM headers"].any fun head => (asBytes head).isPrefixOf (asBytes sql)

/-- `Fenced::batch_changes`: a batch with a write of the `headers` table goes behind the
fence. -/
def fencedBatch (owner : String) (stmts : List Stmt) : List Sql :=
  if stmts.any fun s => writesHeaders s.sql then .fence owner :: stmts.map .stmt
  else stmts.map .stmt

/-! ### The writers -/

/-- Where a writer stands. -/
inductive Writing
  /-- Before its ask for the lease. -/
  | idle
  /-- It holds the lease, as far as it knows; whether it has seen the lapse. -/
  | held (owner : String) (lapsed : Bool)
  /-- A batch was refused, the remaining term not read yet. -/
  | refused (owner : String)
  /-- Turned away, released or gone. -/
  | done

/-- **The steps of a writer.** Each statement or batch of the database is one step; the
writer may be gone after any. -/
inductive WriterStep : LeaseDb → Writing → LeaseDb → Writing → Prop
  /-- `take_lease`: the token is eight random bytes, never drawn before. -/
  | take (db : LeaseDb) (owner : String) (drawn : owner ∉ db.issued) :
    WriterStep db .idle
      { db with lease := (db.lease.take owner db.clock).1, issued := owner :: db.issued }
      (if (db.lease.take owner db.clock).2 = 1 then .held owner false else .done)
  /-- A batch through the fence; one that writes the `headers` table is refused unread
  once the lapse was seen. -/
  | batch (db : LeaseDb) (owner : String) (lapsed : Bool) (stmts : List Stmt) (fails : Stmt → Bool)
    (unlapsed : lapsed = false ∨ stmts.any (fun s => writesHeaders s.sql) = false) :
    WriterStep db (.held owner lapsed) (transaction fails (fencedBatch owner stmts) db).1
      (if (transaction fails (fencedBatch owner stmts) db).2 then .held owner lapsed
        else .refused owner)
  /-- The read of the term after a refusal, which may itself fail. -/
  | readLeft (db : LeaseDb) (owner : String) (answers : Bool) :
    WriterStep db (.refused owner) db
      (.held owner (!answers || decide (db.lease.leftOf owner db.clock ≤ 0)))
  /-- `note_lapse`. -/
  | noteLapse (db : LeaseDb) (owner : String) (lapsed : Bool) :
    WriterStep db (.held owner lapsed) db (.held owner true)
  /-- `release_lease`. -/
  | release (db : LeaseDb) (owner : String) (lapsed : Bool) :
    WriterStep db (.held owner lapsed) { db with lease := db.lease.release owner } .done
  | gone (db : LeaseDb) (writing : Writing) : WriterStep db writing db .done

/-- The clock moves on. -/
inductive ClockStep : LeaseDb → LeaseDb → Prop
  | tick (db : LeaseDb) (now : Instant) (later : db.clock.ms ≤ now.ms) :
    ClockStep db { db with clock := now }

/-- The runs of any number of writers. -/
def LeaseRuns : Agents.Config LeaseDb Writing → Agents.Config LeaseDb Writing → Prop :=
  Agents.Runs WriterStep ClockStep

/-- No writer yet. -/
def LeaseDb.init : Agents.Config LeaseDb Writing := ⟨.fresh, fun _ => .idle⟩

/-! ### What a batch does -/

section Batches

variable {fails : Stmt → Bool} {db db' : LeaseDb} {owner : String}

/-- **Every statement that can change the header rows is one the fence knows.** -/
theorem writesHeaders_of_onHeaders {stmt : Stmt} {t : HeaderTable} (h : stmt.onHeaders t ≠ t) :
    writesHeaders stmt.sql = true := by
  cases stmt with
  | recordPendingReorg => exact absurd rfl h
  | insertHeader =>
    exact (by decide +kernel :
      writesHeaders (Stmt.insertHeader none ⟨0, "", "", 0, 0, 0, 0, ""⟩ false 0).sql = true)
  | clearChainTip => exact (by decide +kernel : writesHeaders Stmt.clearChainTip.sql = true)
  | setChainTipActive =>
    exact (by decide +kernel : writesHeaders (Stmt.setChainTipActive "").sql = true)
  | setChainTip => exact (by decide +kernel : writesHeaders (Stmt.setChainTip "").sql = true)
  | deactivateAbove => exact (by decide +kernel : writesHeaders (Stmt.deactivateAbove 0).sql = true)
  | activateHash => exact (by decide +kernel : writesHeaders (Stmt.activateHash "").sql = true)
  | relinkHeader =>
    exact (by decide +kernel : writesHeaders (Stmt.relinkHeader none 0 0).sql = true)
  | setChainWork => exact (by decide +kernel : writesHeaders (Stmt.setChainWork 0 0).sql = true)
  | activateStored =>
    exact (by decide +kernel : writesHeaders (Stmt.activateStored 0 "" 0).sql = true)
  | linkChild => exact (by decide +kernel : writesHeaders (Stmt.linkChild "" "").sql = true)
  | linkSpan => exact (by decide +kernel : writesHeaders (Stmt.linkSpan 0 0).sql = true)
  | canonicalizeHeight =>
    exact (by decide +kernel : writesHeaders (Stmt.canonicalizeHeight "" 0).sql = true)
  | dedupeHeight => exact (by decide +kernel : writesHeaders (Stmt.dedupeHeight 0).sql = true)

theorem run_stmts_frame {stmts : List Stmt}
    (h : (stmts.map Sql.stmt).foldlM (Sql.run fails) db = some db') :
    db'.lease = db.lease ∧ db'.clock = db.clock ∧ db'.issued = db.issued ∧
      db'.store.headers = onHeadersAll stmts db.store.headers := by
  induction stmts generalizing db with
  | nil =>
    cases h
    exact ⟨rfl, rfl, rfl, rfl⟩
  | cons stmt stmts ih =>
    rw [List.map_cons, List.foldlM_cons] at h
    obtain ⟨db₁, h₁, h⟩ := Option.bind_eq_some_iff.mp h
    rw [Sql.run] at h₁
    split at h₁
    · cases h₁
    · cases h₁
      obtain ⟨hl, hc, hi, hh⟩ := ih h
      exact ⟨hl, hc, hi, hh.trans (by rw [onHeadersAll_cons, exec_headers])⟩

theorem onHeadersAll_of_not_writes {stmts : List Stmt} {t : HeaderTable}
    (h : stmts.any (fun s => writesHeaders s.sql) = false) : onHeadersAll stmts t = t := by
  induction stmts with
  | nil => rfl
  | cons stmt stmts ih =>
    obtain ⟨hstmt, hstmts⟩ := Bool.or_eq_false_iff.mp h
    have hsame : stmt.onHeaders t = t := by
      by_contra hne
      exact Bool.eq_false_iff.mp hstmt (writesHeaders_of_onHeaders hne)
    rw [onHeadersAll_cons, hsame]
    exact ih hstmts

/-- **A fenced batch**: it is refused and the database is as it was, or it commits; and
where it commits with a write of the `headers` table, the lease was held. -/
theorem fencedBatch_cases (fails : Stmt → Bool) (owner : String) (stmts : List Stmt)
    (db : LeaseDb) :
    (transaction fails (fencedBatch owner stmts) db = (db, false)) ∨
      ∃ db', transaction fails (fencedBatch owner stmts) db = (db', true) ∧
        db'.lease = db.lease ∧ db'.clock = db.clock ∧ db'.issued = db.issued ∧
        (db'.store.headers = db.store.headers ∨ db.lease.holds owner db.clock = true) := by
  unfold transaction
  cases hrun : (fencedBatch owner stmts).foldlM (Sql.run fails) db with
  | none => exact .inl rfl
  | some db' =>
    refine .inr ⟨db', rfl, ?_⟩
    unfold fencedBatch at hrun
    split at hrun
    · rw [List.foldlM_cons] at hrun
      obtain ⟨db₁, h₁, hrun⟩ := Option.bind_eq_some_iff.mp hrun
      rw [Sql.run] at h₁
      split at h₁
      · rename_i hholds
        cases h₁
        obtain ⟨hl, hc, hi, -⟩ := run_stmts_frame hrun
        exact ⟨hl, hc, hi, .inr hholds⟩
      · cases h₁
    · rename_i hnone
      obtain ⟨hl, hc, hi, hh⟩ := run_stmts_frame hrun
      exact ⟨hl, hc, hi, .inl (hh.trans (onHeadersAll_of_not_writes (Bool.not_eq_true _ ▸ hnone)))⟩

end Batches

/-! ### The invariant -/

section Invariant

/-- **What a step can do to the lease**: tokens are added, and a token the row does not
name any more it never names again. -/
structure LeaseDb.Moves (db db' : LeaseDb) : Prop where
  issued : ∀ owner ∈ db.issued, owner ∈ db'.issued
  gone : ∀ owner ∈ db.issued, db.lease.owner ≠ some owner → db'.lease.owner ≠ some owner

/-- A named owner has a term, and its token was drawn. -/
def LeaseDb.Sound (db : LeaseDb) : Prop :=
  ∀ owner, db.lease.owner = some owner → db.lease.leaseUntil.isSome ∧ owner ∈ db.issued

/-- A writer's token was drawn. -/
def Writing.Drawn (db : LeaseDb) : Writing → Prop
  | held owner _ | refused owner => owner ∈ db.issued
  | idle | done => True

variable {db db' db'' : LeaseDb} {owner : String}

theorem LeaseDb.Moves.refl (db : LeaseDb) : db.Moves db := ⟨fun _ h => h, fun _ _ h => h⟩

theorem LeaseDb.Moves.trans (h : db.Moves db') (h' : db'.Moves db'') : db.Moves db'' :=
  ⟨fun o ho => h'.issued o (h.issued o ho),
    fun o ho hne => h'.gone o (h.issued o ho) (h.gone o ho hne)⟩

theorem LeaseDb.Moves.of_lease (hl : db'.lease = db.lease) (hi : db'.issued = db.issued) :
    db.Moves db' := ⟨fun _ h => hi ▸ h, fun _ _ h => hl ▸ h⟩

/-- The lease after a release: freed, where it was this owner's. -/
theorem release_owner (row : LeaseRow) (owner other : String)
    (h : (row.release owner).owner = some other) : row.release owner = row := by
  unfold LeaseRow.release at h ⊢
  split at h
  · cases h
  · rename_i hne
    exact if_neg hne

/-- **The lease under any number of writers.** -/
theorem lease_inductive :
    Agents.Inductive WriterStep ClockStep LeaseDb.Sound Writing.Drawn LeaseDb.Moves where
  acts := by
    intro db writing db' writing' hS hK hs
    cases hs with
    | take owner drawn =>
      have hmoves : db.Moves
          { db with lease := (db.lease.take owner db.clock).1, issued := owner :: db.issued } := by
        refine ⟨fun o ho => List.mem_cons_of_mem _ ho, fun o ho hne => ?_⟩
        unfold LeaseRow.take
        split
        · -- the token just drawn is none of the earlier ones
          exact fun heq => drawn (Option.some_inj.mp heq ▸ ho)
        · exact hne
      refine ⟨fun o ho => ?_, ?_, hmoves⟩
      · unfold LeaseRow.take at ho ⊢
        split at ho
        · rename_i htakes
          cases ho
          dsimp only
          rw [if_pos htakes]
          exact ⟨rfl, List.mem_cons_self⟩
        · rename_i htakes
          dsimp only
          rw [if_neg htakes]
          exact ⟨(hS o ho).1, List.mem_cons_of_mem _ (hS o ho).2⟩
      · split
        · exact List.mem_cons_self
        · trivial
    | batch owner lapsed stmts fails unlapsed =>
      rcases fencedBatch_cases fails owner stmts db with hrun | ⟨db₁, hrun, hl, -, hi, -⟩
      · rw [hrun]
        exact ⟨hS, hK, .refl db⟩
      · rw [hrun]
        refine ⟨fun o ho => ?_, ?_, .of_lease hl hi⟩
        · rw [hl] at ho ⊢
          exact hi ▸ hS o ho
        · rw [if_pos rfl]
          exact (hi ▸ hK : owner ∈ db₁.issued)
    | readLeft => exact ⟨hS, hK, .refl db⟩
    | noteLapse => exact ⟨hS, hK, .refl db⟩
    | release owner lapsed =>
      refine ⟨fun o ho => ?_, trivial, ⟨fun _ h => h, fun o ho hne heq => ?_⟩⟩
      · have hrow := release_owner db.lease owner o ho
        dsimp only at ho ⊢
        rw [hrow] at ho ⊢
        exact hS o ho
      · have hrow := release_owner db.lease owner o heq
        dsimp only at heq
        rw [hrow] at heq
        exact hne heq
    | gone => exact ⟨hS, trivial, .refl db⟩
  outsides := by
    intro db db' hS hs
    cases hs
    exact ⟨hS, .of_lease rfl rfl⟩
  stable := by
    intro db db' writing _ hmoves hK
    cases writing with
    | held owner _ | refused owner => exact hmoves.issued owner hK
    | idle | done => trivial

end Invariant

/-! ### Mutual exclusion -/

section Exclusion

variable {c : Agents.Config LeaseDb Writing}

/-- **The fence is exact**: it refuses the holder exactly when a different owner's take
would succeed, and exactly when nothing is left of the term. -/
def LeaseDb.FenceExact (db : LeaseDb) (owner : String) : Prop :=
  (∀ other, other ≠ owner →
    (db.lease.holds owner db.clock = false ↔ db.lease.takes other db.clock = true)) ∧
  (db.lease.holds owner db.clock = false ↔ db.lease.leftOf owner db.clock ≤ 0)

/-- The first instant after the term, with its milliseconds cast one short. -/
def LeaseDb.ShortAfterTerm (db : LeaseDb) : Prop :=
  ∃ u, db.lease.leaseUntil = some u ∧ db.clock.ms = (u + 1) * 1000 ∧
    castMs db.clock = db.clock.ms - 1

/-- **The writers exclude each other.** -/
structure LeaseDb.Exclusive (c : Agents.Config LeaseDb Writing) : Prop where
  /-- The header rows change only inside a term of the writer that changes them. -/
  insideTerm : ∀ owner lapsed db' writing', WriterStep c.shared (.held owner lapsed) db' writing' →
    db'.store.headers ≠ c.shared.store.headers →
    c.shared.lease.owner = some owner ∧
      ∃ u, c.shared.lease.leaseUntil = some u ∧ c.shared.clock.seconds ≤ u
  /-- A writer whose lease another took changes no header row any more, and its release
  leaves the other's lease alone. -/
  overtaken : ∀ owner ∈ c.shared.issued, c.shared.lease.owner ≠ some owner →
    ∀ c', LeaseRuns c c' → c'.shared.lease.release owner = c'.shared.lease ∧
      ∀ lapsed db' writing', WriterStep c'.shared (.held owner lapsed) db' writing' →
        db'.store.headers = c'.shared.store.headers
  /-- A refused batch changes nothing. -/
  refused : ∀ owner stmts fails,
    (transaction fails (fencedBatch owner stmts) c.shared).2 = false →
      (transaction fails (fencedBatch owner stmts) c.shared).1 = c.shared

theorem lease_holds (h : LeaseRuns LeaseDb.init c) :
    Agents.Holds LeaseDb.Sound Writing.Drawn c :=
  lease_inductive.runs h ⟨nofun, fun _ => trivial⟩

/-- A step of a holder that changes the header rows is made inside its term. -/
theorem holds_of_changed {db db' : LeaseDb} {owner : String} {lapsed : Bool} {writing' : Writing}
    (hs : WriterStep db (.held owner lapsed) db' writing')
    (hne : db'.store.headers ≠ db.store.headers) : db.lease.holds owner db.clock = true := by
  cases hs with
  | batch _ _ stmts fails unlapsed =>
    rcases fencedBatch_cases fails owner stmts db with hrun | ⟨db₁, hrun, -, -, -, hwrites⟩
    · exact absurd (by rw [hrun]) hne
    · rw [hrun] at hne
      exact hwrites.resolve_left hne
  | noteLapse | release | gone => exact absurd rfl hne

theorem LeaseRow.holds_iff {row : LeaseRow} {owner : String} {now : Instant}
    (hu : row.leaseUntil.isSome) : row.holds owner now = true ↔
      row.owner = some owner ∧ ∃ u, row.leaseUntil = some u ∧ now.seconds ≤ u := by
  obtain ⟨u, hu⟩ := Option.isSome_iff_exists.mp hu
  simp [LeaseRow.holds, hu]

/-- A term ends in whole seconds, and milliseconds cast at most one short see its end
but at its very first instant. -/
theorem left_nonpos_iff {u ms : Nat} {cast : ℤ} (hcast : cast = ms ∨ cast = ms - 1) :
    ((u + 1) * 1000 ≤ ms ↔ ((u + 1) * 1000 - cast : ℤ) ≤ 0) ↔
      ¬(ms = (u + 1) * 1000 ∧ cast = ms - 1) := by
  rcases hcast with rfl | rfl
  · constructor
    · omega
    · omega
  · constructor
    · rintro hexact ⟨hms, -⟩
      have := hexact.mp hms.ge
      omega
    · intro hnot
      have hms : ms ≠ (u + 1) * 1000 := fun h => hnot ⟨h, rfl⟩
      omega

/-- **What the holder's four conditions say of one instant**: the fence and the take are
each other's negation, and so is what is left of the term but at the first instant after
it, where the cast may come out one short. -/
theorem fenceExact_iff {db : LeaseDb} {owner : String} (hS : db.Sound)
    (howner : db.lease.owner = some owner) : db.FenceExact owner ↔ ¬db.ShortAfterTerm := by
  obtain ⟨u, hu⟩ := Option.isSome_iff_exists.mp (hS owner howner).1
  have hsecond : u < db.clock.seconds ↔ (u + 1) * 1000 ≤ db.clock.ms := by
    rw [Instant.seconds]
    omega
  have hholds : db.lease.holds owner db.clock = false ↔ (u + 1) * 1000 ≤ db.clock.ms := by
    rw [← hsecond]
    simp [LeaseRow.holds, howner, hu]
  have htakes : ∀ other, other ≠ owner →
      (db.lease.takes other db.clock = true ↔ (u + 1) * 1000 ≤ db.clock.ms) := by
    intro other hne
    rw [← hsecond]
    simp [LeaseRow.takes, howner, hu, hne.symm]
  have hleft : db.lease.leftOf owner db.clock = (u + 1) * 1000 - castMs db.clock := by
    unfold LeaseRow.leftOf LeaseRow.leftMs
    rw [if_pos howner, hu, Option.map_some, Option.getD_some]
  have hshort : db.ShortAfterTerm ↔
      db.clock.ms = (u + 1) * 1000 ∧ castMs db.clock = db.clock.ms - 1 := by
    constructor
    · rintro ⟨u', hu', hshort⟩
      rw [hu, Option.some_inj] at hu'
      exact hu' ▸ hshort
    · exact fun hshort => ⟨u, hu, hshort⟩
  rw [hshort, ← left_nonpos_iff (castMs_eq_or db.clock)]
  unfold LeaseDb.FenceExact
  rw [hholds, hleft]
  exact ⟨fun h => h.2, fun h => ⟨fun other hne => (htakes other hne).symm, h⟩⟩

/-- **The lease and its fence give mutual exclusion**, over every interleaving of any
number of writers; and the holder's fence is exact at every instant but the first after
a term, and there too unless the milliseconds are cast one short. -/
theorem lease_exclusive (h : LeaseRuns LeaseDb.init c) :
    LeaseDb.Exclusive c ∧ ∀ owner, c.shared.lease.owner = some owner →
      (c.shared.FenceExact owner ↔ ¬c.shared.ShortAfterTerm) := by
  have hholds := lease_holds h
  refine ⟨⟨?_, ?_, ?_⟩, fun owner howner => fenceExact_iff hholds.1 howner⟩
  · intro owner lapsed db' writing' hs hne
    have hfence := holds_of_changed hs hne
    have howner : c.shared.lease.owner = some owner := by
      rw [LeaseRow.holds, Bool.and_eq_true, beq_iff_eq] at hfence
      exact hfence.1
    exact (LeaseRow.holds_iff (hholds.1 owner howner).1).mp hfence
  · intro owner hissued hgone c' hruns
    have hmoves := lease_inductive.runs_rel LeaseDb.Moves.refl LeaseDb.Moves.trans hruns hholds
    have hgone' := hmoves.gone owner hissued hgone
    refine ⟨if_neg hgone', fun lapsed db' writing' hs => ?_⟩
    by_contra hne
    have hfence := holds_of_changed hs hne
    rw [LeaseRow.holds, Bool.and_eq_true, beq_iff_eq] at hfence
    exact hgone' hfence.1
  · intro owner stmts fails hrefused
    rcases fencedBatch_cases fails owner stmts c.shared with hrun | ⟨db₁, hrun, -⟩
    · rw [hrun]
    · rw [hrun] at hrefused
      cases hrefused

/-! ### Runs -/

/-- The instant of a second. -/
def Instant.ofSeconds (seconds : Nat) (h : seconds < 253402300800) : Instant :=
  ⟨seconds * 1000, by omega⟩

/-- One writer takes the lease, and the clock goes on past the term. -/
theorem lease_run (t t' : Instant) (h : t.ms ≤ t'.ms) (owner : String) :
    LeaseRuns LeaseDb.init (.ofList .idle
      ⟨.fresh, ⟨some owner, some (t.seconds + leaseTerm)⟩, t', [owner]⟩ [.held owner false]) := by
  have h₀ : LeaseRuns LeaseDb.init (.ofList .idle .fresh [.idle]) := by
    rw [show [Writing.idle] = List.replicate 1 .idle from rfl, Agents.Config.ofList_idle]
    exact .refl
  have h₁ := h₀.outsides (.tick _ t (Nat.zero_le _))
  have h₂ := h₁.acts 0 (by decide) (.take _ owner List.not_mem_nil)
  exact h₂.outsides (.tick _ t' h)

/-- A second writer takes the lease in the first second after the first one's term: the
writers exclude each other, the first, who still believes it holds the lease, among them, and
the new holder's fence is exact. -/
theorem lease_exclusive_take : ∃ c, LeaseRuns LeaseDb.init c ∧
    c.agent 0 = .held "cron:0" false ∧ c.agent 1 = .held "cron:1" false ∧
    c.shared.lease.owner = some "cron:1" ∧ LeaseDb.Exclusive c ∧
    c.shared.FenceExact "cron:1" := by
  have h₀ : LeaseRuns LeaseDb.init (.ofList .idle .fresh [.idle, .idle]) := by
    rw [show [Writing.idle, .idle] = List.replicate 2 .idle from rfl, Agents.Config.ofList_idle]
    exact .refl
  have h₁ := h₀.outsides (.tick _ (.ofSeconds 101 (by decide)) (Nat.zero_le _))
  have h₂ := h₁.acts 0 (by decide) (.take _ "cron:0" List.not_mem_nil)
  have h₃ := h₂.outsides (.tick _ (.ofSeconds 222 (by decide)) (by decide))
  have hrun := h₃.acts 1 (by decide) (.take _ "cron:1" (by decide))
  obtain ⟨hexclusive, hexact⟩ := lease_exclusive hrun
  refine ⟨_, hrun, rfl, rfl, rfl, hexclusive, (hexact "cron:1" rfl).mpr ?_⟩
  rintro ⟨u, hu, hms, -⟩
  have hu : 342 = u := Option.some_inj.mp hu
  subst hu
  exact absurd hms (by decide)

/-- **A millisecond left of a lease that anyone may take**: at the first instant after
the term the fence refuses and another's take succeeds, and the holder reads one
millisecond left. -/
theorem lease_left_short : ∃ c owner, LeaseRuns LeaseDb.init c ∧
    c.shared.lease.owner = some owner ∧ ¬c.shared.FenceExact owner := by
  refine ⟨_, "cron:0", lease_run (.ofSeconds 1797389948 (by decide))
    (.ofSeconds 1797390069 (by decide)) (by decide) "cron:0", rfl, fun hexact => ?_⟩
  have hleft : LeaseRow.leftOf ⟨some "cron:0", some (1797389948 + leaseTerm)⟩ "cron:0"
      (.ofSeconds 1797390069 (by decide)) = 1 := by decide +kernel
  have hholds : LeaseRow.holds ⟨some "cron:0", some (1797389948 + leaseTerm)⟩ "cron:0"
      (.ofSeconds 1797390069 (by decide)) = false := by decide +kernel
  have hle := hexact.2.mp hholds
  exact absurd (hleft ▸ hle) (by decide)

end Exclusion

end Chaintracks

import Chaintracks.Runs
import Chaintracks.Outcomes
import Chaintracks.Regtest

/-!
# A refused push

`ingest_pushed` tells its caller two errors apart: a push the rules refused, whose
answer promises that nothing was written, and a fault of the store after them. The
line is drawn between its two parts, so whatever ends the batch is a refusal – and the
batch does not only judge. Once the rules have passed the run it writes, a transaction
a chunk or a header after the other, and reads the table again between two of them. Any
of those transactions may be refused, and any of those reads may fail, after others have
committed.

A read of the writers' world always answers. Here the push is run where it may not
(`Chaintracks.ingest`): the database is asked for each group of reads with no transaction
inside it, and may answer or not. Where it always does the push is
`Chaintracks.ingestPushed` (`Chaintracks.ingest_fault`).

`Chaintracks.refusesWhole` says of which tables and which runs a refusal is whole however
the database behaves, and `Chaintracks.refused_whole_iff` that it says so exactly.
-/

namespace Chaintracks

open HeaderRows

/-! ### The two errors of a push -/

/-- `IngestError`. -/
inductive IngestError
  | refused (fault : Fault)
  | store (fault : Fault)
  deriving DecidableEq

/-- What went wrong, whichever part it ended. -/
def IngestError.fault : IngestError → Fault
  | refused fault | store fault => fault

/-! ### The push over reads that may fail -/

/-- The reads of a push, those with no transaction between them in one group. -/
inductive PushRead
  /-- All the batch reads before its first write. -/
  | batch
  /-- What `insert_header` reads of a header before it stores it. -/
  | header (hash : String)
  /-- The walks of `handle_reorg`. -/
  | reorg (hash : String)
  /-- What `canonicalize_pushed` reads. -/
  | canonical
  /-- The highest active row. -/
  | highest
  deriving DecidableEq

namespace Push

section Reading

variable (env : Env) (reads : Nat → PushRead → Bool) (params : ChainParams)

/-- Read the header rows, where the database answers the group. -/
def readRows (group : PushRead) : Writer (List HeaderRow) := fun w =>
  if reads w.asked group then (.ok w.db.rows, w) else (.error .database, w)

/-- `handle_reorg`. -/
def handleReorg (new oldTip : LinkedHeader) : Writer Nat := do
  let rows ← readRows reads (.reorg new.hash)
  let plan ← Prog.ofExcept (planReorg rows new oldTip)
  commit env (plan.txn new.hash)
  pure plan.deactivated

/-- The reorg of a new tip that does not stand on the old one. -/
def reorgOnto (new : LinkedHeader) (tip : Option HeaderRow) : Writer Nat :=
  match tip with
  | some tip => if new.previousHash ≠ tip.hash then handleReorg env reads new tip.linked else pure 0
  | none => pure 0

/-- The tip's move where the insertion did not make it. -/
def settleTip (new : LinkedHeader) (tip : Option HeaderRow) (atomicExtension : Bool) :
    Writer Nat := do
  let reorgDepth ← reorgOnto env reads new tip
  moveTipAlone env new.hash reorgDepth atomicExtension
  pure reorgDepth

/-- `insert_header` once its checks have passed and its first transaction was taken. -/
def letIn (header : BlockHeader) (a : Admission) : Writer InsertHeaderResult :=
  if a.becomesTip then do
    let reorgDepth ← settleTip env reads header.linked a.tip (a.isActive header)
    pure { a.result header with reorgDepth }
  else pure (a.result header)

/-- `insert_header`. -/
def insertHeader (header : BlockHeader) : Writer InsertHeaderResult := do
  Prog.ofExcept (refusing header (checkPow params header))
  let rows ← readRows reads (.header header.hash)
  if (headerForHash rows header.hash).isSome then
    pure { dupe := true }
  else
    let a ← Prog.ofExcept (admission params rows header)
    Prog.each note (a.entries params header rows)
    commit env (a.txn header)
    letIn env reads header a

/-- The live path of a batch. -/
def insertEach : List BlockHeader → Writer Nat
  | [] => pure 0
  | header :: headers => do
    let result ← insertHeader env reads params header
    let added ← insertEach headers
    pure (added + if result.added then 1 else 0)

/-- The writes of a batch. -/
def writeBatch (headers : List BlockHeader) : BatchPlan → Writer Nat
  | .live => insertEach env reads params headers
  | .bulk chunks => do
    Prog.each (commit env) chunks
    pure headers.length

/-- A non-empty run through the rules and, as they decide, into the store. -/
def insertRun (first : BlockHeader) (headers : List BlockHeader) : Writer Nat := do
  let rows ← readRows reads .batch
  let judged ← Prog.ofExcept (planBatch params rows first headers)
  Prog.each note judged.1
  writeBatch env reads params headers judged.2

/-- `insert_headers_batch`. -/
def insertHeadersBatch : List BlockHeader → Writer Nat
  | [] => pure 0
  | first :: rest => insertRun env reads params first (first :: rest)

/-- `update_chain_tip_to_highest`. -/
def updateChainTipToHighest : Writer (Option HeaderRow) := do
  let rows ← readRows reads .highest
  match highestActive rows with
  | some top =>
    commit env (flagTipTxn top.hash)
    pure (some top)
  | none => pure none

/-- `canonicalize_pushed`. -/
def canonicalizePushed (headers : List BlockHeader) (inserted : Nat) : Writer IngestOutcome :=
  match headers.head?, headers.getLast? with
  | some first, some last => do
    let rows ← readRows reads .canonical
    match planCanonical rows headers first last with
    | .served canonicalized =>
      commit env [.linkSpan first.height (last.height + 1)]
      let _ ← updateChainTipToHighest env reads
      pure { inserted, canonicalized }
    | .stored canonicalized reason =>
      pure { inserted, canonicalized, outcome := .storedInactive, reason := some reason }
    | .activate child rivals =>
      commit env (activationTxn headers last child ((rivals.map (·.height)).min?))
      pure
        { inserted, canonicalized := headers.length, outcome := .activated
          deactivated := rivals.map (·.hash), childRelinked := some child }
  | _, _ => pure { inserted }

end Reading

/-! ### Where every read is answered -/

/-- A database that answers every read. -/
def answersAll : Nat → PushRead → Bool := fun _ _ => true

section Answered

variable (env : Env) (params : ChainParams)

theorem readRows_answered (group : PushRead) :
    readRows answersAll group = Chaintracks.readRows := rfl

theorem settleTip_answered (new : LinkedHeader) (tip : Option HeaderRow) (atomicExtension : Bool) :
    settleTip env answersAll new tip atomicExtension =
      Chaintracks.settleTip env new tip atomicExtension := by
  cases tip <;> rfl

theorem insertHeader_answered (header : BlockHeader) :
    insertHeader env answersAll params header = Chaintracks.insertHeader env params header := by
  unfold insertHeader Chaintracks.insertHeader letIn
  simp only [readRows_answered, settleTip_answered]

theorem insertEach_answered (headers : List BlockHeader) :
    insertEach env answersAll params headers = Chaintracks.insertEach env params headers := by
  induction headers with
  | nil => rfl
  | cons header headers ih =>
    rw [insertEach, Chaintracks.insertEach, insertHeader_answered, ih]

theorem insertHeadersBatch_answered (headers : List BlockHeader) :
    insertHeadersBatch env answersAll params headers =
      Chaintracks.insertHeadersBatch env params headers := by
  cases headers with
  | nil => rfl
  | cons first rest =>
    have hwrite (plan : BatchPlan) : writeBatch env answersAll params (first :: rest) plan =
        Chaintracks.writeBatch env params (first :: rest) plan := by
      cases plan with
      | live => exact insertEach_answered env params _
      | bulk chunks => rfl
    rw [insertHeadersBatch, Chaintracks.insertHeadersBatch, insertRun, Chaintracks.insertRun]
    simp only [readRows_answered, hwrite]

theorem canonicalizePushed_answered (headers : List BlockHeader) (inserted : Nat) :
    canonicalizePushed env answersAll headers inserted =
      Chaintracks.canonicalizePushed env headers inserted := rfl

end Answered

end Push

section Conditions

variable (env : Env) (reads : Nat → PushRead → Bool) (params : ChainParams)

/-- `ingest_pushed` with its errors as the route reads them. -/
def ingest (headers : List BlockHeader) : Prog World IngestError IngestOutcome := do
  let inserted ← (Push.insertHeadersBatch env reads params headers).mapError .refused
  (Push.canonicalizePushed env reads headers inserted).mapError .store

/-- The errors told apart and the reads all answered, `ingest` is `Chaintracks.ingestPushed`. -/
theorem ingest_fault (headers : List BlockHeader) :
    (ingest env Push.answersAll params headers).mapError IngestError.fault =
      ingestPushed env params headers := by
  unfold ingest ingestPushed
  rw [Prog.mapError_bind, Prog.mapError_mapError, Push.insertHeadersBatch_answered]
  simp only [Prog.mapError_mapError, Push.canonicalizePushed_answered]
  exact congrArg₂ _ (Prog.mapError_id _) (funext fun _ => Prog.mapError_id _)

/-! ### Where a refusal is whole -/

/-- A statement of a batch that finds its work done: its header is stored, its row active
or standing under an active one. -/
def Stmt.idle (rows : List HeaderRow) : Stmt → Bool
  | insertHeader _ header _ _ => (headerForHash rows header.hash).isSome
  | activateStored _ hash height =>
    rows.all fun r => !(r.hash == hash && !r.isActive &&
      !rows.any fun o => o.height == height && o.isActive)
  | _ => false

/-- The chunks of a batch have work to do in the last of them alone. -/
def writesOnce (rows : List HeaderRow) (chunks : List (List Stmt)) : Bool :=
  chunks.dropLast.all (·.all (·.idle rows))

/-- A header whose insertion is all it takes: it does not take the tip, or lands on it. -/
def Admission.settlesAtOnce (a : Admission) (header : BlockHeader) : Bool :=
  !a.becomesTip || a.isActive header

/-- The headers of a run the live path takes from the first that is not stored on: there is
none, or the checks keep it out, or it is the last and its insertion is all it takes. -/
def insertsOnce (rows : List HeaderRow) (headers : List BlockHeader) : Bool :=
  match headers.dropWhile fun h => (headerForHash rows h.hash).isSome with
  | [] => true
  | header :: rest =>
    match admission params rows header with
    | .ok a => rest.isEmpty && a.settlesAtOnce header
    | .error _ => true

/-- **A push whose refusal is whole**: the rules refuse the run, or what they let through
is written in a single transaction. -/
def refusesWhole (rows : List HeaderRow) : List BlockHeader → Bool
  | [] => true
  | first :: rest =>
    match planBatch params rows first (first :: rest) with
    | .error _ => true
    | .ok (_, .bulk chunks) => writesOnce rows chunks
    | .ok (_, .live) => insertsOnce params rows (first :: rest)

end Conditions

/-! ### The chunks -/

section Chunks

variable {env : Env} {w : World} {t t' t'' : HeaderTable} {stmt : Stmt} {chunk : List Stmt}

/-- A statement of a chunk of `insert_headers_batch`. -/
def OfBatch (stmt : Stmt) : Prop :=
  ∃ h work, stmt = .activateStored work h.hash h.height ∨ stmt = .insertHeader none h true work

/-- The rows of one table stand in another, the active ones active. -/
def HeaderTable.Within (t t' : HeaderTable) : Prop :=
  ∀ r ∈ t.rows, ∃ r' ∈ t'.rows, r'.toBlockHeader = r.toBlockHeader ∧
    (r.isActive = true → r'.isActive = true)

theorem HeaderTable.Within.refl (t : HeaderTable) : t.Within t := fun r hr => ⟨r, hr, rfl, id⟩

theorem HeaderTable.Within.trans (h : t.Within t') (h' : t'.Within t'') : t.Within t'' := by
  intro r hr
  obtain ⟨r₁, hr₁, hh₁, ha₁⟩ := h r hr
  obtain ⟨r₂, hr₂, hh₂, ha₂⟩ := h' r₁ hr₁
  exact ⟨r₂, hr₂, hh₂.trans hh₁, ha₂ ∘ ha₁⟩

/-- No statement of a batch takes a row off, or its activity. -/
theorem OfBatch.within (h : OfBatch stmt) (t : HeaderTable) : t.Within (stmt.onHeaders t) := by
  obtain ⟨header, work, rfl | rfl⟩ := h
  · intro r hr
    refine ⟨_, HeaderTable.mem_update.mpr ⟨r, hr, rfl⟩, ?_⟩
    split
    · exact ⟨rfl, fun _ => rfl⟩
    · exact ⟨rfl, id⟩
  · exact fun r hr => ⟨r, HeaderTable.mem_insert_of_mem hr, rfl, id⟩

theorem within_onHeadersAll (h : ∀ stmt ∈ chunk, OfBatch stmt) (t : HeaderTable) :
    t.Within (onHeadersAll chunk t) := by
  induction chunk generalizing t with
  | nil => exact .refl t
  | cons stmt chunk ih =>
    exact ((h stmt List.mem_cons_self).within t).trans
      (ih (fun s hs => h s (List.mem_cons_of_mem _ hs)) _)

/-- A statement of a batch that finds its work done leaves the database as it is. -/
theorem OfBatch.exec_idle (h : OfBatch stmt) (now : Nat) (db : Store)
    (hidle : stmt.idle db.rows = true) : stmt.exec now db = db := by
  obtain ⟨header, work, rfl | rfl⟩ := h
  · have hsame : (Stmt.activateStored work header.hash header.height).onHeaders db.headers =
        db.headers := by
      refine HeaderTable.update_of_none fun r hr => ?_
      exact (Bool.not_eq_true' _).mp (List.all_eq_true.mp hidle r hr)
    rw [Stmt.exec, hsame]
    rfl
  · obtain ⟨row, hrow⟩ := Option.isSome_iff_exists.mp hidle
    have hsame : (Stmt.insertHeader none header true work).onHeaders db.headers = db.headers :=
      HeaderTable.insert_of_stored ⟨row, headerForHash_mem hrow, headerForHash_hash hrow⟩
    rw [Stmt.exec, hsame]
    exact if_pos hidle

/-- A statement of a batch with work to do leaves what the table did not hold. -/
theorem OfBatch.not_within (h : OfBatch stmt) (t : HeaderTable)
    (hidle : stmt.idle t.rows = false) : ¬(stmt.onHeaders t).Within t := by
  intro hwithin
  obtain ⟨header, work, rfl | rfl⟩ := h
  -- an activation with work to do finds a row whose activity the table did not hold
  · obtain ⟨r, hr, hcond⟩ := List.all_eq_false.mp hidle
    rw [Bool.not_eq_true, Bool.not_eq_false'] at hcond
    obtain ⟨r', hr', hh, hact⟩ := hwithin _ (HeaderTable.mem_update.mpr ⟨r, hr, rfl⟩)
    rw [if_pos hcond] at hh hact
    have heq : r' = r := HeaderTable.eq_of_hash hr' hr (congrArg BlockHeader.hash hh)
    simp [← heq, hact rfl] at hcond
  · have hfresh := headerForHash_eq_none.mp (Option.not_isSome_iff_eq_none.mp
      (Bool.eq_false_iff.mp hidle))
    rw [HeaderTable.Within, Stmt.onHeaders, HeaderTable.insert_rows hfresh] at hwithin
    obtain ⟨r', hr', hh, -⟩ := hwithin _ (List.mem_append_right _ (List.mem_singleton_self _))
    exact hfresh r' hr' (congrArg BlockHeader.hash hh)

theorem execAll_idle (h : ∀ stmt ∈ chunk, OfBatch stmt) (now : Nat) (db : Store)
    (hidle : chunk.all (·.idle db.rows) = true) : execAll now chunk db = db := by
  induction chunk with
  | nil => rfl
  | cons stmt chunk ih =>
    rw [List.all_cons, Bool.and_eq_true] at hidle
    rw [execAll_cons, (h stmt List.mem_cons_self).exec_idle now db hidle.1]
    exact ih (fun s hs => h s (List.mem_cons_of_mem _ hs)) hidle.2

/-- A chunk with work to do leaves what the table did not hold. -/
theorem not_within_of_work (h : ∀ stmt ∈ chunk, OfBatch stmt) (t : HeaderTable)
    (hwork : chunk.all (·.idle t.rows) = false) : ¬(onHeadersAll chunk t).Within t := by
  induction chunk with
  | nil => cases hwork
  | cons stmt chunk ih =>
    have hrest : ∀ s ∈ chunk, OfBatch s := fun s hs => h s (List.mem_cons_of_mem _ hs)
    rw [onHeadersAll_cons]
    cases hidle : stmt.idle t.rows with
    -- what the first statement left no later one takes off
    | false =>
      intro hwithin
      exact (h stmt List.mem_cons_self).not_within t hidle
        ((within_onHeadersAll hrest _).trans hwithin)
    | true =>
      rw [List.all_cons, hidle, Bool.true_and] at hwork
      have hsame : stmt.onHeaders t = t := by
        have := (h stmt List.mem_cons_self).exec_idle 0
          ⟨t, Store.fresh.sync, Store.fresh.journal⟩ hidle
        rw [← exec_headers 0 ⟨t, Store.fresh.sync, Store.fresh.journal⟩, this]
      rw [hsame]
      exact ih hrest hwork

end Chunks

/-! ### The transactions of a batch -/

section Batch

variable {env : Env} {reads : Nat → PushRead → Bool} {params : ChainParams} {w : World}

/-- Chunks with work in the last of them alone are written whole, or not at all. -/
theorem chunks_whole {chunks : List (List Stmt)}
    (h : ∀ chunk ∈ chunks, ∀ stmt ∈ chunk, OfBatch stmt)
    (honce : writesOnce w.db.rows chunks = true) {fault : Fault} {w' : World}
    (heq : Prog.each (commit env) chunks w = (.error fault, w')) : w'.db = w.db := by
  induction chunks generalizing w with
  | nil => cases heq
  | cons chunk chunks ih =>
    rw [Prog.each_cons] at heq
    cases hacc : env.accepts w.asked with
    | false =>
      rw [Prog.bind_error (commit_refused chunk hacc)] at heq
      cases heq
      rfl
    | true =>
      rw [Prog.bind_ok (commit_ok chunk hacc)] at heq
      cases chunks with
      | nil => cases heq
      | cons next rest =>
        -- the chunk is not the last, so it changed nothing
        rw [writesOnce, List.dropLast_cons_cons, List.all_cons, Bool.and_eq_true] at honce
        rw [execAll_idle (h chunk List.mem_cons_self) _ _ honce.1] at heq
        exact ih (w := ⟨w.db, w.asked + 1, .commit w.db chunk w.db :: w.history⟩)
          (fun c hc => h c (List.mem_cons_of_mem _ hc)) honce.2 heq

/-- A database that takes no transaction from the `n`-th question on. -/
def lostAfter (n : Nat) : Env := { Regtest.host with accepts := fun asked => decide (asked < n) }

/-- Chunks with work before the last of them can be broken off after it. -/
theorem chunks_broken {chunks : List (List Stmt)}
    (h : ∀ chunk ∈ chunks, ∀ stmt ∈ chunk, OfBatch stmt)
    (hmore : writesOnce w.db.rows chunks = false) :
    ∃ n, w.asked < n ∧ ∃ fault w',
      Prog.each (commit (lostAfter n)) chunks w = (.error fault, w') ∧ w'.db ≠ w.db := by
  induction chunks generalizing w with
  | nil => cases hmore
  | cons chunk chunks ih =>
    cases chunks with
    | nil => cases hmore
    | cons next rest =>
      have hchunk := h chunk List.mem_cons_self
      rw [writesOnce, List.dropLast_cons_cons, List.all_cons] at hmore
      cases hidle : chunk.all (·.idle w.db.rows) with
      | true =>
        rw [hidle, Bool.true_and] at hmore
        obtain ⟨n, hn, fault, w', heq, hne⟩ :=
          ih (w := ⟨w.db, w.asked + 1, .commit w.db chunk w.db :: w.history⟩)
            (fun c hc => h c (List.mem_cons_of_mem _ hc)) hmore
        refine ⟨n, Nat.lt_of_succ_lt hn, fault, w', ?_, hne⟩
        have hacc : (lostAfter n).accepts w.asked = true :=
          decide_eq_true (Nat.lt_of_succ_lt hn)
        rw [Prog.each_cons, Prog.bind_ok (commit_ok chunk hacc), execAll_idle hchunk _ _ hidle]
        exact heq
      | false =>
        -- the chunk leaves its mark, and the next one is refused
        have hacc : (lostAfter (w.asked + 1)).accepts w.asked = true :=
          decide_eq_true (Nat.lt_succ_self _)
        have hlost : (lostAfter (w.asked + 1)).accepts (w.asked + 1) = false :=
          decide_eq_false (Nat.lt_irrefl _)
        have heq : Prog.each (commit (lostAfter (w.asked + 1))) (chunk :: next :: rest) w = _ :=
          (Prog.bind_ok (commit_ok chunk hacc)).trans (Prog.bind_error (commit_refused next hlost))
        refine ⟨w.asked + 1, Nat.lt_succ_self _, .database, _, heq, fun hsame => ?_⟩
        refine not_within_of_work hchunk w.db.headers hidle ?_
        have hheaders : (execAll _ chunk w.db).headers = w.db.headers :=
          congrArg Store.headers hsame
        rw [← execAll_headers ((lostAfter (w.asked + 1)).unixepoch w.asked), hheaders]
        exact .refl _

/-! ### The live path of a batch -/

variable {header : BlockHeader} {headers : List BlockHeader}

theorem Push.readRows_ok {group : PushRead} (h : reads w.asked group = true) :
    Push.readRows reads group w = (.ok w.db.rows, w) := by
  rw [Push.readRows, if_pos h]

theorem Push.readRows_lost {group : PushRead} (h : reads w.asked group = false) :
    Push.readRows reads group w = (.error .database, w) := by
  rw [Push.readRows, if_neg (by rw [h]; exact Bool.false_ne_true)]

/-- A header whose reads fail fails, with nothing written. -/
theorem Push.insertHeader_lost (hpow : checkPow params header = .ok ())
    (hread : reads w.asked (.header header.hash) = false) :
    Push.insertHeader env reads params header w = (.error .database, w) := by
  have hok : refusing header (checkPow params header) = .ok () := Except.mapError_eq_ok.mpr hpow
  rw [Push.insertHeader, hok, Prog.ofExcept_ok_bind_apply, Prog.bind_error (readRows_lost hread)]

/-- A stored header is passed over. -/
theorem Push.insertHeader_stored (hpow : checkPow params header = .ok ())
    (hread : reads w.asked (.header header.hash) = true)
    (hfound : (headerForHash w.db.rows header.hash).isSome = true) :
    Push.insertHeader env reads params header w = (.ok { dupe := true }, w) := by
  have hok : refusing header (checkPow params header) = .ok () := Except.mapError_eq_ok.mpr hpow
  rw [Push.insertHeader, hok, Prog.ofExcept_ok_bind_apply, Prog.bind_ok (readRows_ok hread),
    if_pos hfound]
  rfl

/-- Any other header meets the checks, on the rows that were read. -/
theorem Push.insertHeader_judged (hpow : checkPow params header = .ok ())
    (hread : reads w.asked (.header header.hash) = true)
    (hfresh : headerForHash w.db.rows header.hash = none) :
    Push.insertHeader env reads params header w = (do
      let a ← Prog.ofExcept (admission params w.db.rows header)
      Prog.each note (a.entries params header w.db.rows)
      commit env (a.txn header)
      Push.letIn env reads header a : Writer InsertHeaderResult) w := by
  have hok : refusing header (checkPow params header) = .ok () := Except.mapError_eq_ok.mpr hpow
  rw [Push.insertHeader, hok, Prog.ofExcept_ok_bind_apply, Prog.bind_ok (readRows_ok hread),
    if_neg (by rw [hfresh]; exact Bool.false_ne_true)]

/-- A header let in, its first transaction taken: its row is stored. -/
theorem Push.insertHeader_entered {a : Admission} (hpow : checkPow params header = .ok ())
    (hread : reads w.asked (.header header.hash) = true)
    (hfresh : headerForHash w.db.rows header.hash = none)
    (hadm : admission params w.db.rows header = .ok a) (hacc : env.accepts w.asked = true) :
    ∃ w₁ : World, w₁.asked = w.asked + 1 ∧
      w₁.db.headers = onHeadersAll (a.txn header) w.db.headers ∧
      Push.insertHeader env reads params header w = Push.letIn env reads header a w₁ := by
  rw [insertHeader_judged hpow hread hfresh, hadm, Prog.ofExcept_ok_bind_apply,
    Prog.bind_ok (each_note_apply _ w)]
  exact ⟨_, rfl, execAll_headers .., Prog.bind_ok (commit_ok _ hacc)⟩

variable (env reads) in
/-- A header that is not stored fails with nothing written, or is let in. -/
theorem Push.insertHeader_fresh (hpow : checkPow params header = .ok ())
    (hfresh : headerForHash w.db.rows header.hash = none) :
    (∃ fault w', Push.insertHeader env reads params header w = (.error fault, w') ∧ w'.db = w.db) ∨
      ∃ a w₁, admission params w.db.rows header = .ok a ∧
        Push.insertHeader env reads params header w = Push.letIn env reads header a w₁ := by
  cases hread : reads w.asked (.header header.hash) with
  | false => exact .inl ⟨_, w, insertHeader_lost hpow hread, rfl⟩
  | true =>
    cases hadm : admission params w.db.rows header with
    | error fault =>
      rw [insertHeader_judged hpow hread hfresh, hadm]
      exact .inl ⟨fault, w, rfl, rfl⟩
    | ok a =>
      cases hacc : env.accepts w.asked with
      | false =>
        rw [insertHeader_judged hpow hread hfresh, hadm, Prog.ofExcept_ok_bind_apply,
          Prog.bind_ok (each_note_apply _ w)]
        exact .inl ⟨_, _, Prog.bind_error (commit_refused _ hacc), rfl⟩
      | true =>
        obtain ⟨w₁, -, -, hrun⟩ := insertHeader_entered hpow hread hfresh hadm hacc
        exact .inr ⟨a, w₁, rfl, hrun⟩

variable (env reads) in
/-- A header whose insertion is all it takes answers once it is let in. -/
theorem Push.letIn_settled {a : Admission} (hsettled : a.settlesAtOnce header = true)
    (w : World) : ∃ result, Push.letIn env reads header a w = (.ok result, w) := by
  unfold Push.letIn
  cases htakes : a.becomesTip with
  | false => exact ⟨_, rfl⟩
  | true =>
    rw [Admission.settlesAtOnce, htakes, Bool.not_true, Bool.false_or] at hsettled
    have hext : a.extendsTip header = true :=
      (Bool.and_eq_true_iff.mp (show (a.becomesTip && a.extendsTip header) = true from hsettled)).2
    have hstands : Push.reorgOnto env reads header.linked a.tip = pure 0 := by
      unfold Push.reorgOnto
      unfold Admission.extendsTip at hext
      split
      · rename_i tip htip
        rw [htip] at hext
        exact if_neg (not_not.mpr (beq_iff_eq.mp hext))
      · rfl
    rw [if_pos rfl, Push.settleTip, hstands, hsettled]
    exact ⟨_, rfl⟩

/-- Any other header reads the walks of its reorg once it is let in. -/
theorem Push.letIn_lost {a : Admission} (hsettled : a.settlesAtOnce header = false)
    (hread : ∀ group, reads w.asked group = false) :
    Push.letIn env reads header a w = (.error .database, w) := by
  rw [Admission.settlesAtOnce, Bool.or_eq_false_iff, Bool.not_eq_false'] at hsettled
  obtain ⟨htakes, hact⟩ := hsettled
  have hext : a.extendsTip header = false := by
    rwa [Admission.isActive, htakes, Bool.true_and] at hact
  obtain ⟨tip, htip, hne⟩ : ∃ tip, a.tip = some tip ∧ header.previousHash ≠ tip.hash := by
    unfold Admission.extendsTip at hext
    split at hext
    · cases hext
    · rename_i tip htip
      exact ⟨tip, htip, beq_eq_false_iff_ne.mp hext⟩
  have hdef : Push.reorgOnto env reads header.linked (some tip) =
      Push.handleReorg env reads header.linked tip.linked := if_pos hne
  have hreorg : Push.reorgOnto env reads header.linked a.tip w = (.error .database, w) := by
    rw [htip, hdef]
    exact Prog.bind_error (Push.readRows_lost (hread _))
  rw [Push.letIn, if_pos htakes]
  exact Prog.bind_error (Prog.bind_error hreorg)

theorem insertsOnce_stored (hfound : (headerForHash w.db.rows header.hash).isSome = true) :
    insertsOnce params w.db.rows (header :: headers) = insertsOnce params w.db.rows headers := by
  rw [insertsOnce, List.dropWhile_cons, if_pos hfound]
  rfl

theorem insertsOnce_fresh (hfresh : headerForHash w.db.rows header.hash = none) {a : Admission}
    (hadm : admission params w.db.rows header = .ok a) :
    insertsOnce params w.db.rows (header :: headers) =
      (headers.isEmpty && a.settlesAtOnce header) := by
  rw [insertsOnce, List.dropWhile_cons, if_neg (by rw [hfresh]; exact nofun)]
  dsimp only
  rw [hadm]

/-- A run the live path inserts in one transaction is inserted whole, or not at all. -/
theorem insertEach_whole (hpow : ∀ h ∈ headers, checkPow params h = .ok ())
    (honce : insertsOnce params w.db.rows headers = true) {fault : Fault} {w' : World}
    (heq : Push.insertEach env reads params headers w = (.error fault, w')) : w'.db = w.db := by
  induction headers with
  | nil => cases heq
  | cons header headers ih =>
    have hheader := hpow header List.mem_cons_self
    rw [Push.insertEach] at heq
    cases hfound : headerForHash w.db.rows header.hash with
    | some row =>
      have hsome : (headerForHash w.db.rows header.hash).isSome = true := by rw [hfound]; rfl
      rw [insertsOnce_stored hsome] at honce
      cases hread : reads w.asked (.header header.hash) with
      | false =>
        rw [Prog.bind_error (Push.insertHeader_lost hheader hread)] at heq
        cases heq
        rfl
      | true =>
        rw [Prog.bind_ok (Push.insertHeader_stored hheader hread hsome)] at heq
        exact ih (fun h hh => hpow h (List.mem_cons_of_mem _ hh)) honce
          (Prog.bind_pure_eq_error.mp heq)
    | none =>
      rcases Push.insertHeader_fresh env reads hheader hfound with
        ⟨e, s, hrun, hsame⟩ | ⟨a, w₁, hadm, hrun⟩
      · rw [Prog.bind_error hrun] at heq
        cases heq
        exact hsame
      -- let in, it is the last, and answers
      · rw [insertsOnce_fresh hfound hadm, Bool.and_eq_true, List.isEmpty_iff] at honce
        obtain ⟨rfl, hsettled⟩ := honce
        obtain ⟨result, hlet⟩ := Push.letIn_settled env reads hsettled w₁
        rw [Prog.bind_ok (hrun.trans hlet)] at heq
        cases heq

/-- A database that answers no read once it was asked more than `n` times. -/
def silentAfter (n : Nat) : Nat → PushRead → Bool := fun asked _ => decide (asked ≤ n)

variable (env) in
/-- Any other run is broken off once a header of it is stored, by the read that follows. -/
theorem insertEach_broken (hacc : env.accepts w.asked = true)
    (hpow : ∀ h ∈ headers, checkPow params h = .ok ())
    (hmore : insertsOnce params w.db.rows headers = false) :
    ∃ fault w', Push.insertEach env (silentAfter w.asked) params headers w = (.error fault, w') ∧
      w'.db ≠ w.db := by
  have hanswers (group : PushRead) : silentAfter w.asked w.asked group = true :=
    decide_eq_true (Nat.le_refl _)
  induction headers with
  | nil => cases hmore
  | cons header headers ih =>
    have hheader := hpow header List.mem_cons_self
    have hrest : ∀ h ∈ headers, checkPow params h = .ok () :=
      fun h hh => hpow h (List.mem_cons_of_mem _ hh)
    rw [Push.insertEach]
    cases hfound : headerForHash w.db.rows header.hash with
    | some row =>
      have hsome : (headerForHash w.db.rows header.hash).isSome = true := by rw [hfound]; rfl
      rw [insertsOnce_stored hsome] at hmore
      obtain ⟨fault, w', heq, hne⟩ := ih hrest hmore
      exact ⟨fault, w', (Prog.bind_ok (Push.insertHeader_stored hheader (hanswers _) hsome)).trans
        (Prog.bind_pure_eq_error.mpr heq), hne⟩
    | none =>
      cases hadm : admission params w.db.rows header with
      | error fault =>
        rw [insertsOnce, List.dropWhile_cons, if_neg (by rw [hfound]; exact nofun)] at hmore
        dsimp only at hmore
        rw [hadm] at hmore
        cases hmore
      | ok a =>
        obtain ⟨w₁, hasked, hheaders, hrun⟩ :=
          Push.insertHeader_entered hheader (hanswers _) hfound hadm hacc
        have hsilent (group : PushRead) : silentAfter w.asked w₁.asked group = false :=
          decide_eq_false (by rw [hasked]; exact Nat.not_succ_le_self _)
        -- the row is stored when the first read after it fails
        have hmark : w₁.db ≠ w.db := by
          intro hsame
          obtain ⟨row, hrow, hh, -⟩ := insertion_row (a := a) hfound
          rw [← hheaders, hsame] at hrow
          exact headerForHash_eq_none.mp hfound row hrow (congrArg BlockHeader.hash hh)
        cases hsettled : a.settlesAtOnce header with
        -- the walks of its reorg are the read that fails
        | false =>
          exact ⟨_, w₁, Prog.bind_error (hrun.trans (Push.letIn_lost hsettled hsilent)), hmark⟩
        -- it answers, and the next header's lookups are
        | true =>
          rw [insertsOnce_fresh hfound hadm, hsettled, Bool.and_true,
            List.isEmpty_eq_false_iff] at hmore
          obtain ⟨next, rest, rfl⟩ := List.exists_cons_of_ne_nil hmore
          obtain ⟨result, hlet⟩ := Push.letIn_settled env (silentAfter w.asked) hsettled w₁
          have hnext : Push.insertEach env (silentAfter w.asked) params (next :: rest) w₁ =
              (.error .database, w₁) :=
            Prog.bind_error (Push.insertHeader_lost (hrest next List.mem_cons_self) (hsilent _))
          exact ⟨_, w₁, (Prog.bind_ok (hrun.trans hlet)).trans (Prog.bind_error hnext), hmark⟩

/-! ### The push -/

/-- A push is refused where its batch fails, with the batch's fault. -/
theorem ingest_refused {fault : Fault} {w' : World} :
    ingest env reads params headers w = (.error (.refused fault), w') ↔
      Push.insertHeadersBatch env reads params headers w = (.error fault, w') := by
  rcases hm : Push.insertHeadersBatch env reads params headers w with ⟨e | inserted, s⟩
  · have herr : ingest env reads params headers w = (.error (.refused e), s) := by
      refine Prog.bind_error ?_
      rw [Prog.mapError, hm]
      rfl
    rw [herr, Prod.mk.injEq, Prod.mk.injEq, Except.error.injEq, Except.error.injEq,
      IngestError.refused.injEq]
  · have hok : ingest env reads params headers w =
        (Push.canonicalizePushed env reads headers inserted).mapError .store s := by
      refine Prog.bind_ok ?_
      rw [Prog.mapError, hm]
      rfl
    rw [hok, Prog.mapError]
    rcases Push.canonicalizePushed env reads headers inserted s with ⟨e | out, s'⟩
    -- past the batch every error is the store's
    · constructor
      · intro h
        cases congrArg Prod.fst h
      · intro h
        cases congrArg Prod.fst h
    · constructor
      · intro h
        cases congrArg Prod.fst h
      · intro h
        cases congrArg Prod.fst h

/-- Where its reads are answered a run is judged on the rows and written as was decided. -/
theorem insertRun_judged {first : BlockHeader} {entries : List Entry} {plan : BatchPlan}
    (hread : reads w.asked .batch = true)
    (hplan : planBatch params w.db.rows first headers = .ok (entries, plan)) :
    Push.insertRun env reads params first headers w =
      Push.writeBatch env reads params headers plan
        ⟨w.db, w.asked, entries.reverse ++ w.history⟩ := by
  rw [Push.insertRun, Prog.bind_ok (Push.readRows_ok hread), hplan, Prog.ofExcept_ok_bind_apply]
  exact Prog.bind_ok (each_note_apply _ w)

theorem batch_chunks {first : BlockHeader} {entries : List Entry} {chunks : List (List Stmt)}
    (hplan : planBatch params w.db.rows first (first :: headers) = .ok (entries, .bulk chunks)) :
    ∀ chunk ∈ chunks, ∀ stmt ∈ chunk, OfBatch stmt := by
  intro chunk hchunk stmt hstmt
  obtain ⟨h, -, work, hkind⟩ := (planBatch_judged hplan).writes chunks rfl chunk hchunk stmt hstmt
  exact ⟨h, work, hkind⟩

/-- A run that is refused whole. -/
theorem batch_whole (hwhole : refusesWhole params w.db.rows headers = true) {fault : Fault}
    {w' : World} (heq : Push.insertHeadersBatch env reads params headers w = (.error fault, w')) :
    w'.db = w.db := by
  cases headers with
  | nil => cases heq
  | cons first rest =>
    rw [Push.insertHeadersBatch] at heq
    cases hread : reads w.asked .batch with
    | false =>
      rw [Push.insertRun, Prog.bind_error (Push.readRows_lost hread)] at heq
      cases heq
      rfl
    | true =>
      rw [refusesWhole] at hwhole
      cases hplan : planBatch params w.db.rows first (first :: rest) with
      | error e =>
        rw [Push.insertRun, Prog.bind_ok (Push.readRows_ok hread), hplan] at heq
        cases heq
        rfl
      | ok judged =>
        obtain ⟨entries, plan⟩ := judged
        rw [insertRun_judged hread hplan] at heq
        rw [hplan] at hwhole
        cases plan with
        | live =>
          exact insertEach_whole (w := ⟨w.db, w.asked, entries.reverse ++ w.history⟩)
            (planBatch_judged hplan).pow hwhole heq
        | bulk chunks =>
          exact chunks_whole (w := ⟨w.db, w.asked, entries.reverse ++ w.history⟩)
            (batch_chunks hplan) hwhole (Prog.bind_pure_eq_error.mp heq)

/-- Any other run can be broken off once some of it is stored. -/
theorem batch_broken (hmore : refusesWhole params w.db.rows headers = false) :
    ∃ env reads fault w', Push.insertHeadersBatch env reads params headers w = (.error fault, w') ∧
      w'.db ≠ w.db := by
  cases headers with
  | nil => cases hmore
  | cons first rest =>
    rw [refusesWhole] at hmore
    cases hplan : planBatch params w.db.rows first (first :: rest) with
    | error e =>
      rw [hplan] at hmore
      cases hmore
    | ok judged =>
      obtain ⟨entries, plan⟩ := judged
      rw [hplan] at hmore
      -- one by one a read is lost, in chunks a transaction
      cases plan with
      | live =>
        obtain ⟨fault, w', heq, hne⟩ := insertEach_broken Regtest.host
          (w := ⟨w.db, w.asked, entries.reverse ++ w.history⟩) rfl (planBatch_judged hplan).pow
          hmore
        have hread : silentAfter w.asked w.asked .batch = true := decide_eq_true (Nat.le_refl _)
        exact ⟨_, _, fault, w', (insertRun_judged hread hplan).trans heq, hne⟩
      | bulk chunks =>
        obtain ⟨n, -, fault, w', heq, hne⟩ := chunks_broken
          (w := ⟨w.db, w.asked, entries.reverse ++ w.history⟩) (batch_chunks hplan) hmore
        have hread : Push.answersAll w.asked .batch = true := rfl
        exact ⟨_, _, fault, w',
          (insertRun_judged hread hplan).trans (Prog.bind_pure_eq_error.mpr heq), hne⟩

/-- **A refused push is refused whole**, whatever the database refuses and whichever of its
reads fail, exactly where `Chaintracks.refusesWhole` says so of the rows and the run: the
headers, the pending reorg marker and the journal are as they were. -/
theorem refused_whole_iff (params : ChainParams) (headers : List BlockHeader) (w : World) :
    (∀ env reads fault w', ingest env reads params headers w = (.error (.refused fault), w') →
      w'.db = w.db) ↔ refusesWhole params w.db.rows headers = true := by
  simp only [ingest_refused]
  constructor
  · intro hwhole
    by_contra hnot
    obtain ⟨env, reads, fault, w', heq, hne⟩ := batch_broken (Bool.eq_false_of_not_eq_true hnot)
    exact hne (hwhole env reads fault w' heq)
  · exact fun hwhole _ _ _ _ heq => batch_whole hwhole heq

end Batch

/-! ### A push refused in part -/

section Regtest

open Regtest

/-- A host whose database refuses its fifth transaction. -/
def refusingHost : Env := { host with accepts := fun asked => asked != 4 }

/-- The genesis with one block on it. -/
def oneBlock : World := runAll refusingHost params [.insertHeader genesis, .insertHeader a1] .init

/-- **A push refused in part**: the two blocks of the other branch are stored when the
database refuses the reorg to them, and the answer is that the push was refused. -/
theorem refused_in_part : ¬∀ fault w',
    ingest refusingHost Push.answersAll params [b1, b2] oneBlock = (.error (.refused fault), w') →
      w'.db = oneBlock.db := by
  intro h
  have hrefused : (ingest refusingHost Push.answersAll params [b1, b2] oneBlock).1 =
      .error (.refused .database) := by
    decide +kernel
  have hstored : (ingest refusingHost Push.answersAll params [b1, b2] oneBlock).2.db.rows.length ≠
      oneBlock.db.rows.length := by
    decide +kernel
  exact hstored (congrArg (·.rows.length) (h .database _ (Prod.ext hrefused rfl)))

end Regtest

end Chaintracks

import Chaintracks.Runs

/-!
# The re-validation, and the runs of the whole service

A store that was filled before the node's rules were checked is re-validated: from the
highest checkpoint it holds, every active row above it goes through the checks in height
order, a bounded number of rows a call. `sync_state` keeps how far the pass has come, and
what may be served follows from it (`Chaintracks.Ceiling`).

The pass writes to the sync row alone (`Chaintracks.SyncWrite`), each write a
transaction of its own, and a change of the ceiling publishes as a move of the tip does.
A run of the service (`Chaintracks.runService`) is then a list of calls of the headers'
writers, of steps of the re-validation and of its restarts. The world's history keeps the
transactions on the headers; the sync row's writes leave it alone.
-/

namespace Chaintracks

open HeaderRows

/-! ### The ceiling -/

/-- How far the store may be served as proof. -/
inductive Ceiling
  | all
  | upTo (height : Nat)
  | nothing
  deriving DecidableEq

/-- `Ceiling::admits`. -/
def Ceiling.admits : Ceiling → Nat → Bool
  | all, _ => true
  | upTo c, height => height ≤ c
  | nothing, _ => false

/-- `served_ceiling`. -/
def servedCeiling (sync : SyncState) : Ceiling :=
  if sync.validationComplete then .all
  else match sync.validatedHeight with
    | some h => .upTo h
    | none => .nothing

/-! ### The writes to the sync row -/

/-- A write of the re-validation. -/
inductive SyncWrite
  /-- `set_validated`. -/
  | setValidated (last : Option BlockHeader) (complete : Bool)
  /-- `record_validation_fault`. -/
  | setValidationFault (fault : String) (lastGood : Option BlockHeader)
  /-- The operator's restart. -/
  | restartValidation
  deriving DecidableEq

/-- What a write does to the sync row. -/
def SyncWrite.onSync (sync : SyncState) : SyncWrite → SyncState
  | setValidated last complete =>
    { sync with
      validatedHeight := last.map (·.height)
      validatedHash := last.map (·.hash)
      validationComplete := complete }
  | setValidationFault fault lastGood =>
    { sync with
      validationFault := some fault
      validatedHeight := lastGood.map (·.height)
      validatedHash := lastGood.map (·.hash)
      validationComplete := false }
  | restartValidation =>
    { sync with
      validatedHeight := none
      validatedHash := none
      validationFault := none
      validationComplete := false }

/-- The columns whose change `chain_event_validation` waits for. -/
def SyncState.validated (sync : SyncState) : Option Nat × Option String × Bool :=
  (sync.validatedHeight, sync.validatedHash, sync.validationComplete)

/-- A write to the sync row, then `chain_event_validation`. -/
def SyncWrite.exec (now : Nat) (db : Store) (write : SyncWrite) : Store :=
  let db' := { db with sync := write.onSync db.sync }
  if db.sync.validated = db'.sync.validated then db' else publish now db'

@[simp] theorem SyncWrite.exec_headers (now : Nat) (db : Store) (write : SyncWrite) :
    (write.exec now db).headers = db.headers := by
  unfold exec
  dsimp only
  split
  · rfl
  · exact publish_headers _ _

@[simp] theorem SyncWrite.exec_sync (now : Nat) (db : Store) (write : SyncWrite) :
    (write.exec now db).sync = write.onSync db.sync := by
  unfold exec
  dsimp only
  split
  · rfl
  · exact publish_sync _ _

/-! ### A step of the re-validation -/

section Revalidation

variable (params : ChainParams) (rows : List HeaderRow)

/-- The anchor: the highest checkpoint at or below the tip whose height the store holds;
the row there must carry the checkpoint's hash. -/
def findAnchor (tipHeight : Nat) : List (Nat × String) → Except String (Option HeaderRow)
  | [] => pure none
  | (cp, hash) :: rest =>
    if tipHeight < cp then findAnchor tipHeight rest
    else match headerForHeight rows cp with
      | none => findAnchor tipHeight rest
      | some row =>
        if eqIgnoreAsciiCase row.hash hash then pure (some row)
        else throw (Fault.text (.refused row.toBlockHeader (.checkpointMismatch cp hash)))

/-- The nearest active row below a row that left the active chain, not below the anchor. -/
def forkPoint (anchorHeight : Nat) : Nat → HeaderRow → Option HeaderRow
  | 0, _ => none
  | fuel + 1, row =>
    match walkBack rows row.linked with
    | some p =>
      if anchorHeight ≤ p.height then
        if p.isActive then some p else forkPoint anchorHeight fuel p
      else none
    | none => none

/-- The cursor: the stored one where it is still on the active chain above the anchor,
after a reorg below it the fork point, else the anchor. -/
def resumeAt (sync : SyncState) (anchor : HeaderRow) : HeaderRow :=
  match sync.validatedHeight, sync.validatedHash with
  | some h, some hash =>
    if anchor.height < h then
      match headerForHash rows hash with
      | some row =>
        if row.isActive then row
        else (forkPoint rows anchor.height 400 row).getD anchor
      | none => anchor
    else anchor
  | _, _ => anchor

/-- The run that ends at a hash, each the parent of the one before it, down a list of
heights. -/
def runBelow (read : List HeaderRow) : String → List Nat → List HeaderRow
  | _, [] => []
  | want, height :: heights =>
    match read.find? fun r => r.height == height && eqIgnoreAsciiCase r.hash want with
    | some r => r :: runBelow read r.previousHash heights
    | none => []

/-- The checks of the rows above the cursor, height by height: the last row that passed,
with the fault that stopped the pass where one did. -/
def revalidateRows (read : List HeaderRow) :
    List Nat → Window → HeaderRow → HeaderRow × Option String
  | [], _, last => (last, none)
  | height :: heights, window, last =>
    match read.find? fun r => r.height == height && eqIgnoreAsciiCase r.previousHash last.hash with
    | none =>
      (last, some ("re-validation at " ++ toString height ++ ": no active row links to " ++
        last.hash ++ ": " ++ (HeaderFault.ancestryMissing height).text))
    | some row =>
      match (do
        checkPow params row.toBlockHeader
        checkContext params window row.toBlockHeader : Except HeaderFault Unit) with
      | .error fault =>
        (last, some ("re-validation: " ++ Fault.text (.refused row.toBlockHeader fault)))
      | .ok () =>
        revalidateRows read heights (window.push params.bsv row.link) row

/-- One read of the active rows, from the window below the cursor up to `budget` rows
above it, and the checks on it. -/
def revalidateAbove (cursor tip : HeaderRow) (budget : Nat) : HeaderRow × Option String :=
  let depth := max (params.pow.windowDepth cursor.height) 1
  let lo := cursor.height + 1 - depth
  let hi := min tip.height (cursor.height + budget)
  let read := activeHeadersBetween rows lo hi
  let below := runBelow read cursor.hash (List.range' lo (cursor.height + 1 - lo)).reverse
  revalidateRows params read (List.range' (cursor.height + 1) (hi - cursor.height))
    (Window.new params.bsv (below.reverse.map (·.link))) cursor

end Revalidation

/-- `Revalidation`: what a step answers. -/
inductive Revalidation
  | complete
  | advanced (height : Nat)
  | faulted (fault : String)
  deriving DecidableEq

section Steps

variable (env : Env) (params : ChainParams)

/-- One write to the sync row, a transaction. -/
def writeSync (write : SyncWrite) : Writer Unit := fun w =>
  if env.accepts w.asked then
    (.ok (), { w with db := write.exec (env.unixepoch w.asked) w.db, asked := w.asked + 1 })
  else (.error .database, { w with asked := w.asked + 1 })

/-- `record_validation_fault`, with the step's answer. -/
def recordValidationFault (fault : String) (lastGood : Option BlockHeader) : Writer Revalidation := do
  writeSync env (.setValidationFault fault lastGood)
  pure (.faulted fault)

/-- The cursor written where it is not the stored one. -/
def keepCursor (sync : SyncState) (cursor : HeaderRow) : Writer Unit :=
  if sync.validatedHeight ≠ some cursor.height ∨ sync.validatedHash ≠ some cursor.hash then
    writeSync env (.setValidated (some cursor.toBlockHeader) false)
  else pure ()

/-- The step from an anchor on. -/
def revalidateFrom (anchor tip : HeaderRow) (budget : Nat) : Writer Revalidation := do
  let db ← Prog.read (·.db)
  let cursor := resumeAt db.rows db.sync anchor
  keepCursor env db.sync cursor
  if tip.height ≤ cursor.height then
    writeSync env (.setValidated (some tip.toBlockHeader) true)
    pure .complete
  else
    match revalidateAbove params db.rows cursor tip budget with
    | (last, some fault) => recordValidationFault env fault (some last.toBlockHeader)
    | (last, none) =>
      let complete := decide (tip.height ≤ last.height)
      writeSync env (.setValidated (some last.toBlockHeader) complete)
      pure (if complete then .complete else .advanced last.height)

/-- The step on a store with a tip. -/
def revalidateUnder (tip : HeaderRow) (budget : Nat) (rows : List HeaderRow) :
    Writer Revalidation :=
  match findAnchor rows tip.height params.checkpoints.reverse with
  | .error fault => recordValidationFault env fault none
  | .ok none => recordValidationFault env
      "no checkpoint held: the store holds the row of no checkpoint at or below its tip" none
  | .ok (some anchor) => revalidateFrom env params anchor tip budget

/-- `revalidate_step`. -/
def revalidateStep (budget : Nat) : Writer Revalidation := do
  let db ← Prog.read (·.db)
  if db.sync.validationComplete then pure .complete
  else match db.sync.validationFault with
    | some fault => pure (.faulted fault)
    | none =>
      match chainTip db.rows with
      | none => do
        writeSync env (.setValidated none true)
        pure .complete
      | some tip => revalidateUnder env params tip budget db.rows

/-! ### The runs of the service -/

/-- A call of a writer of the headers or of the re-validation. -/
inductive ServiceCall
  | headers (call : Call)
  | revalidateStep (budget : Nat)
  | restartValidation

/-- The world a call of the service leaves. -/
def ServiceCall.run (call : ServiceCall) (w : World) : World :=
  match call with
  | headers call => call.run env params w
  | revalidateStep budget => (Chaintracks.revalidateStep env params budget w).2
  | restartValidation => (writeSync env .restartValidation w).2

/-- The world a run of the service leaves. -/
def runService (calls : List ServiceCall) (w : World) : World :=
  calls.foldl (fun w call => call.run env params w) w

end Steps

/-- A step of the service: a step of the headers' writers, or a write to the sync row. -/
inductive ServiceStep (params : ChainParams) : World → World → Prop
  | headers {w w' : World} (step : Step params (Move params) w w') : ServiceStep params w w'
  | sync (w : World) (now : Nat) (write : SyncWrite) :
    ServiceStep params w { w with db := write.exec now w.db, asked := w.asked + 1 }

section Via

variable {env : Env} {params : ChainParams}

theorem via_writeSync (write : SyncWrite) (w : World) :
    Prog.Via (ServiceStep params) (writeSync env write) w := by
  refine Prog.Via.step ?_
  unfold writeSync
  split
  · exact .sync w _ write
  · exact .headers (.asked w)

theorem via_recordValidationFault (fault : String) (lastGood : Option BlockHeader) (w : World) :
    Prog.Via (ServiceStep params) (recordValidationFault env fault lastGood) w :=
  Prog.Via.bind (via_writeSync ..) fun _ _ _ => Prog.Via.pure _

theorem via_revalidateFrom (anchor tip : HeaderRow) (budget : Nat) (w : World) :
    Prog.Via (ServiceStep params) (revalidateFrom env params anchor tip budget) w := by
  unfold revalidateFrom
  refine Prog.Via.read_bind ?_
  refine Prog.Via.bind ?_ fun _ _ _ => ?_
  · unfold keepCursor
    split
    · exact via_writeSync ..
    · exact Prog.Via.pure _
  · split
    · exact Prog.Via.bind (via_writeSync ..) fun _ s _ => Prog.Via.pure _
    · split
      · exact via_recordValidationFault ..
      · exact Prog.Via.bind (via_writeSync ..) fun _ s _ => Prog.Via.pure _

/-- **The steps of `revalidate_step`**: writes to the sync row. -/
theorem via_revalidateStep (budget : Nat) (w : World) :
    Prog.Via (ServiceStep params) (revalidateStep env params budget) w := by
  unfold revalidateStep
  refine Prog.Via.read_bind ?_
  split
  · exact Prog.Via.pure _
  · split
    · exact Prog.Via.pure _
    · split
      · exact Prog.Via.bind (via_writeSync ..) fun _ s _ => Prog.Via.pure _
      · unfold revalidateUnder
        split
        · exact via_recordValidationFault ..
        · exact via_recordValidationFault ..
        · exact via_revalidateFrom ..

/-- **A run of the service is a chain of its steps.** -/
theorem via_runService (env : Env) (params : ChainParams) (calls : List ServiceCall) (w : World) :
    Relation.ReflTransGen (ServiceStep params) w (runService env params calls w) := by
  induction calls generalizing w with
  | nil => exact Relation.ReflTransGen.refl
  | cons call calls ih =>
    refine Relation.ReflTransGen.trans ?_ (ih _)
    cases call with
    | headers call => exact Relation.ReflTransGen.mono (fun _ _ h => .headers h) _ _ (via_call call w)
    | revalidateStep budget => exact via_revalidateStep budget w
    | restartValidation => exact via_writeSync .restartValidation w

end Via

/-- **An invariant of the service under a condition on the headers' transactions.** What
every step keeps whose transaction meets the condition, every run keeps whose
transactions all do. -/
theorem service_invariant {params : ChainParams} {C : List Entry → Store → List Stmt → Store → Prop}
    {I : World → Prop}
    (hasked : ∀ w, I w → I { w with asked := w.asked + 1 })
    (hnoted : ∀ w entry, (∀ b txn a, entry ≠ .commit b txn a) → entry.Sound params w.db.rows →
      I w → I { w with history := entry :: w.history })
    (hcommitted : ∀ w now txn, Move params w txn → I w →
      C w.history w.db txn (execAll now txn w.db) →
      I ⟨execAll now txn w.db, w.asked + 1, .commit w.db txn (execAll now txn w.db) :: w.history⟩)
    (hsync : ∀ w now (write : SyncWrite), I w →
      I { w with db := write.exec now w.db, asked := w.asked + 1 })
    (hinit : I .init) {w : World} (h : Relation.ReflTransGen (ServiceStep params) .init w)
    (hC : EachCommit C w.history) : I w := by
  induction h with
  | refl => exact hinit
  | tail _ hs ih =>
    cases hs with
    | headers hs =>
      have hI := ih (hC.suffix hs.history_suffix)
      cases hs with
      | asked => exact hasked _ hI
      | noted entry hcheck hsound => exact hnoted _ _ hcheck hsound hI
      | committed now txn hmove => exact hcommitted _ now txn hmove hI hC.head
    | sync now write => exact hsync _ now write (ih hC)

end Chaintracks

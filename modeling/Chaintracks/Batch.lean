import Chaintracks.Insert

/-!
# The bulk path: runs of headers, the operator's push, the sweep

`insert_headers_batch` writes a linked run of headers active in transactions of at most
a hundred statements, after every header of the run has met the rules; where the run
would meet a rival it hands its headers to `insert_header` one by one instead. The
decision is `Chaintracks.planBatch`, a function of the rows it read.

`ingest_pushed` puts a run through the batch and then lets the stored chain decide
whether its rows are the active ones (`Chaintracks.planCanonical`). The sweep
`dedupe_active_heights` and the two writers that write no active row,
`store_heal_progress` and `repair_cumulative_work`, are here as well.
-/

namespace Chaintracks

open HeaderRows

/-- The statements of a batch a transaction may hold. -/
def batchLimit : Nat := 100

/-- The batch collector: groups of statements packed in order into transactions, a
group never split. -/
def packGroups : List (List Stmt) → List Stmt → List (List Stmt)
  | [], cur => if cur.isEmpty then [] else [cur]
  | g :: gs, cur =>
    if cur.length + g.length > batchLimit then cur :: packGroups gs g
    else packGroups gs (cur ++ g)

/-- `BatchCollector::execute`: the statements a hundred at a time. -/
def packStmts (stmts : List Stmt) : List (List Stmt) := packGroups (stmts.map ([·])) []

section Batch

variable (env : Env) (params : ChainParams)

/-! ### The judgement of a run -/

/-- Every header meets its own proof of work. -/
def checkPowAll : List BlockHeader → Except Fault Unit
  | [] => pure ()
  | header :: headers => do
    refusing header (checkPow params header)
    checkPowAll headers

/-- The run is linked, each header the parent of the next. -/
def checkLinked : List BlockHeader → Except Fault Unit
  | a :: b :: headers =>
    if b.height ≠ a.height + 1 ∨ eqIgnoreAsciiCase b.previousHash a.hash = false then
      throw (.refused b (.prevNotFound b.previousHash))
    else checkLinked (b :: headers)
  | _ => pure ()

/-- How many stored ancestors the context checks of a run need below its first header. -/
def batchDepth (first : BlockHeader) (headers : List BlockHeader) : Nat :=
  (headers.map fun h =>
    params.pow.windowDepth (h.height - 1) - (h.height - first.height)).foldr max 0

/-- The height a run without a stored parent is vouched for through: the genesis, or
the highest checkpoint the run carries. -/
def vouchedThrough (first : BlockHeader) (lastHeight : Nat) (storeEmpty : Bool) :
    Except Fault Nat :=
  if first.height = 0 ∨ first.previousHash = zeroHash then do
    let _ ← refusing first (checkUnlinked params first storeEmpty)
    pure 0
  else
    match params.checkpoints.reverse.find? fun c => first.height ≤ c.1 && c.1 ≤ lastHeight with
    | some c => pure c.1
    | none => throw (.refused first (.prevNotFound first.previousHash))

/-- The ancestry a run is read against, and how far it is vouched for: from its stored
parent, or from an anchor inside the run. -/
def batchGround (rows : List HeaderRow) (first : BlockHeader) (headers : List BlockHeader)
    (lastHeight : Nat) : Except Fault (List BlockHeader × Option Nat) :=
  match headerForHash rows first.previousHash with
  | some p => do
    checkExtends "insert_headers_batch" first p
    pure ((loadChain rows p (batchDepth params first headers)).map (·.toBlockHeader), none)
  | none => do
    let v ← vouchedThrough params first lastHeight (chainTip rows).isNone
    pure ([], some v)

/-- The hash active at a height below a held checkpoint, as the batch read it. -/
def activeBelow (rows : List HeaderRow) (first : BlockHeader) (lastHeight cp height : Nat) :
    Option String :=
  ((activeHeadersBetween rows first.height (min lastHeight (cp - 1))).reverse.find? fun r =>
    r.height == height).map (·.hash)

/-- No new header of a run lands below the held checkpoint `below`. -/
def checkNotBelow (rows : List HeaderRow) (first : BlockHeader) (lastHeight : Nat)
    (below : Option Nat) (header : BlockHeader) : Except Fault Unit :=
  match below with
  | some cp =>
    if header.height < cp ∧
        activeBelow rows first lastHeight cp header.height ≠ some header.hash then
      throw (.refused header (.forkPriorToCheckpoint header.height cp))
    else pure ()
  | none => pure ()

/-- The context of one header of a run: vouched for, it answers to the checkpoints
alone; any other is read against the stored ancestry and the run so far. -/
def checkInRun (vouched : Option Nat) (stored run : List BlockHeader) (header : BlockHeader) :
    Except Fault Entry :=
  if vouched.any (header.height ≤ ·) then do
    refusing header (checkCheckpoint params header.height header.hash)
    pure (.vouched header)
  else do
    refusing header
      (checkContext params (Window.new params.bsv ((stored ++ run).map (·.link))) header)
    pure (.passed stored run header)

/-- The rules on each header of a run, oldest first, with the checks they passed. -/
def judgeRun (rows : List HeaderRow) (first : BlockHeader) (lastHeight : Nat)
    (below vouched : Option Nat) (stored : List BlockHeader) :
    List BlockHeader → List BlockHeader → Except Fault (List Entry)
  | _, [] => pure []
  | run, header :: headers => do
    checkNotBelow rows first lastHeight below header
    let entry ← checkInRun params vouched stored run header
    let entries ← judgeRun rows first lastHeight below vouched stored (run ++ [header]) headers
    pure (entry :: entries)

/-! ### The statements of a run -/

/-- Each header of a run with the work the batch gives it. -/
def runWork : Nat → Option String → List BlockHeader → List (BlockHeader × Nat)
  | _, _, [] => []
  | running, prev, header :: headers =>
    let perBlock := params.bsv.workFromBits header.bits
    let work :=
      if prev.all (eqIgnoreAsciiCase · header.previousHash) then addWork running perBlock
      else perBlock
    (header, work) :: runWork work (some header.hash) headers

/-- The statements of one header: where it is stored inactive the row is activated, and
it is inserted active where it is not stored. -/
def headerStmts (storedInactive : List (List UInt8)) (header : BlockHeader) (work : Nat) : List Stmt :=
  (if toAsciiLowercase header.hash ∈ storedInactive then
    [.activateStored work header.hash header.height] else []) ++
  [.insertHeader none header true work]

/-- What `insert_headers_batch` has decided on what it read. -/
inductive BatchPlan
  /-- The run meets a rival: each header takes the live path. -/
  | live
  /-- The run is written active, a transaction a chunk. -/
  | bulk (chunks : List (List Stmt))

/-- The rules and the decision of a non-empty run, with the checks it passed. -/
def planBatch (rows : List HeaderRow) (first : BlockHeader) (headers : List BlockHeader) :
    Except Fault (List Entry × BatchPlan) := do
  checkPowAll params headers
  checkLinked headers
  let parent := headerForHash rows first.previousHash
  let tip := chainTip rows
  let lastHeight := (headers.getLast?.map (·.height)).getD first.height
  let (stored, vouched) ← batchGround params rows first headers lastHeight
  let below := storedCheckpointAbove rows params first.height tip
  let entries ← judgeRun params rows first lastHeight below vouched stored [] headers
  let followsCompetitor := parent.any fun p => !p.isActive
  let active := activeHeadersBetween rows first.height lastHeight
  let rivals := active.any fun r => headers.any fun h => r.height == h.height && r.hash != h.hash
  let live := (followsCompetitor || tip.any fun t => first.height ≤ t.height) &&
    (followsCompetitor || rivals)
  let storedInactive :=
    (inactiveHashesBetween rows first.height lastHeight).map toAsciiLowercase
  let worked := runWork params ((parent.map (·.chainWork)).getD 0) none headers
  pure (entries,
    if live then .live
    else .bulk (packGroups (worked.map fun w => headerStmts storedInactive w.1 w.2) []))

/-- The live path of a batch: how many of its headers `insert_header` added. -/
def insertEach : List BlockHeader → Writer Nat
  | [] => pure 0
  | header :: headers => do
    let result ← insertHeader env params header
    let added ← insertEach headers
    pure (added + if result.added then 1 else 0)

/-- The writes of a batch: how many headers it counts. -/
def writeBatch (headers : List BlockHeader) : BatchPlan → Writer Nat
  | .live => insertEach env params headers
  | .bulk chunks => do
    Prog.each (commit env) chunks
    pure headers.length

/-- A non-empty run through the rules and, as they decide, into the store. -/
def insertRun (first : BlockHeader) (headers : List BlockHeader) : Writer Nat := do
  let rows ← readRows
  let judged ← Prog.ofExcept (planBatch params rows first headers)
  Prog.each note judged.1
  writeBatch env params headers judged.2

/-- `insert_headers_batch`. -/
def insertHeadersBatch : List BlockHeader → Writer Nat
  | [] => pure 0
  | first :: rest => insertRun env params first (first :: rest)

/-! ### The tip after a bulk write, and the sweep -/

/-- The transaction that puts the flag on a row without activating it. -/
def flagTipTxn (hash : String) : List Stmt := [.clearChainTip, .setChainTip hash]

/-- `update_chain_tip_to_highest`. -/
def updateChainTipToHighest : Writer (Option HeaderRow) := do
  let rows ← readRows
  match highestActive rows with
  | some top =>
    commit env (flagTipTxn top.hash)
    pure (some top)
  | none => pure none

/-- The heights one sweep settles. -/
def dedupeHeightsPerSweep : Nat := 1000

/-- The heights with more than one active row, highest first. -/
def dualActiveHeights (rows : List HeaderRow) : List Nat :=
  let heights := (rows.filter (·.isActive)).map (·.height)
  (heights.dedup.filter fun h => 1 < heights.count h).insertionSort (· ≥ ·)

/-- One height of the sweep: how many rows it took off. -/
def dedupeOne (height : Nat) : Writer Nat := do
  let rows ← readRows
  commit env [.dedupeHeight height]
  pure (rows.countP fun r => r.height == height && r.isActive &&
    some r.headerId != (dedupeKept rows height).map (·.headerId))

/-- The sweep of a list of heights, each in its own transaction after the one above. -/
def dedupeEach : List Nat → Writer Nat
  | [] => pure 0
  | height :: heights => do
    let swept ← dedupeOne env height
    let rest ← dedupeEach heights
    pure (swept + rest)

/-- `dedupe_active_heights`. -/
def dedupeActiveHeights : Writer Nat := do
  let rows ← readRows
  dedupeEach env ((dualActiveHeights rows).take dedupeHeightsPerSweep)

/-! ### The operator's push -/

/-- What the call did with a push. -/
inductive Outcome
  | active
  | activated
  | storedInactive
  deriving DecidableEq

/-- `IngestOutcome`. -/
structure IngestOutcome where
  inserted : Nat
  canonicalized : Nat := 0
  outcome : Outcome := .active
  deactivated : List String := []
  childRelinked : Option String := none
  reason : Option String := none
  deriving DecidableEq

/-- The most headers one push may activate. -/
def maxActivation : Nat := 400

/-- The transaction of an activation: each pushed row the one active row at its height,
the child linked to the last, the lowest changed height recorded. -/
def activationTxn (headers : List BlockHeader) (last : BlockHeader) (child : String)
    (lowest : Option Nat) : List Stmt :=
  headers.map (fun h => .canonicalizeHeight h.hash h.height) ++
    .linkChild last.hash child :: (lowest.map Stmt.recordPendingReorg).toList

/-- What `canonicalize_pushed` has decided on what it read. -/
inductive CanonicalPlan
  /-- Every pushed row stands alone at its height. -/
  | served (canonicalized : Nat)
  | stored (canonicalized : Nat) (reason : String)
  | activate (child : String) (rivals : List HeaderRow)
  deriving DecidableEq

/-- The decision of `canonicalize_pushed` for a run from `first` to `last`. -/
def planCanonical (rows : List HeaderRow) (headers : List BlockHeader)
    (first last : BlockHeader) : CanonicalPlan :=
  let active := activeHeadersBetween rows first.height (last.height + 1)
  let pushed (r : HeaderRow) : Bool := headers.any fun h => eqIgnoreAsciiCase h.hash r.hash
  let rivals := active.filter fun r => r.height ≤ last.height && !pushed r
  let soleActive (h : BlockHeader) : Bool :=
    (active.all fun r => r.height != h.height || eqIgnoreAsciiCase r.hash h.hash) &&
      active.any fun r => eqIgnoreAsciiCase r.hash h.hash
  let canonicalized := headers.countP soleActive
  if canonicalized = headers.length then .served canonicalized
  else
    match active.find? fun r =>
      r.height == last.height + 1 && eqIgnoreAsciiCase r.previousHash last.hash with
    | none =>
      .stored canonicalized ("the active row at height " ++ toString (last.height + 1) ++
        " does not name the pushed header " ++ last.hash ++ " as its parent")
    | some child =>
      if 0 < first.height ∧
          (headerForHash rows first.previousHash).any (fun p => !p.isActive) = true then
        .stored canonicalized ("the parent " ++ first.previousHash ++
          " of the pushed header at height " ++ toString first.height ++
          " is not the active row below it")
      else if maxActivation < headers.length then
        .stored canonicalized ("an activation is one transaction of at most " ++
          toString maxActivation ++ " headers; push the run in parts, the highest part first")
      else .activate child.hash rivals

/-- `canonicalize_pushed`. -/
def canonicalizePushed (headers : List BlockHeader) (inserted : Nat) : Writer IngestOutcome :=
  match headers.head?, headers.getLast? with
  | some first, some last => do
    let rows ← readRows
    match planCanonical rows headers first last with
    | .served canonicalized =>
      commit env [.linkSpan first.height (last.height + 1)]
      let _ ← updateChainTipToHighest env
      pure { inserted, canonicalized }
    | .stored canonicalized reason =>
      pure { inserted, canonicalized, outcome := .storedInactive, reason := some reason }
    | .activate child rivals =>
      commit env (activationTxn headers last child ((rivals.map (·.height)).min?))
      pure
        { inserted, canonicalized := headers.length, outcome := .activated
          deactivated := rivals.map (·.hash), childRelinked := some child }
  | _, _ => pure { inserted }

/-- `ingest_pushed`. -/
def ingestPushed (headers : List BlockHeader) : Writer IngestOutcome := do
  let inserted ← insertHeadersBatch env params headers
  canonicalizePushed env headers inserted

/-! ### The writers that activate nothing -/

/-- The checks of `store_heal_progress`. -/
def checkProgress : List BlockHeader → Except Fault Unit
  | [] => pure ()
  | header :: headers => do
    refusing header (checkPow params header)
    refusing header (checkCheckpoint params header.height header.hash)
    checkProgress headers

/-- `store_heal_progress`: the rows kept inactive and unlinked, with their own work. -/
def storeHealProgress (headers : List BlockHeader) : Writer Nat := do
  Prog.ofExcept (checkProgress params headers)
  Prog.each (commit env) (packStmts (headers.map fun h =>
    .insertHeader none h false (params.bsv.workFromBits h.bits)))
  pure headers.length

/-- `link_active_span`. -/
def linkActiveSpan (lo hi : Nat) : Writer Unit := commit env [.linkSpan lo hi]

/-- The rewrites of `repair_cumulative_work` along verified linkage, from a row whose
work stands as `work`. -/
def repairs (prevHash : String) (work : Nat) : List HeaderRow → List Stmt
  | [] => []
  | h :: rows =>
    if h.previousHash ≠ prevHash then []
    else
      let expected := addWork work (params.bsv.workFromBits h.bits)
      (if h.chainWork ≠ expected then [.setChainWork expected h.headerId] else []) ++
        repairs h.hash expected rows

/-- `repair_cumulative_work`. -/
def repairCumulativeWork (window : Nat) : Writer Nat := do
  let rows ← readRows
  match chainTip rows with
  | none => pure 0
  | some tip =>
    match activeHeadersBetween rows (tip.height - window) tip.height with
    | anchor :: rest =>
      let stmts := repairs params anchor.hash anchor.chainWork rest
      Prog.each (commit env) (packStmts stmts)
      pure stmts.length
    | [] => pure 0

end Batch

end Chaintracks

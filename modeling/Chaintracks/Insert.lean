import Chaintracks.World
import Chaintracks.Ancestry

/-!
# The live path: one header, the reorg it may cause, the orphan linked later

`insert_header` reads, judges and decides before it writes anything; the reads and the
decision are `Chaintracks.admission`, a function of the rows, and the writes follow from
its answer. `handle_reorg` likewise plans on what it reads (`Chaintracks.planReorg`)
and hands over one transaction. `relink_orphan_and_reevaluate` writes the link first
and reads the tip again before it decides.

The order of the source is kept: a refusal comes from the first check that fails, and
what is read after a write is read from what the write left.
-/

namespace Chaintracks

open HeaderRows

/-- `InsertHeaderResult`. -/
structure InsertHeaderResult where
  added : Bool := false
  dupe : Bool := false
  isActiveTip : Bool := false
  reorgDepth : Nat := 0
  noPrev : Bool := false
  noTip : Bool := false
  deriving DecidableEq

/-! ### Reorgs -/

/-- What `handle_reorg` reads before it writes. -/
structure ReorgPlan where
  ancestorHeight : Nat
  branch : List String
  deactivated : Nat
  deriving DecidableEq

/-- The reads of `handle_reorg`: the common ancestor, the new branch down to it, and
how many rows stand active above it. -/
def planReorg (rows : List HeaderRow) (new oldTip : LinkedHeader) : Except Fault ReorgPlan :=
  match findCommonAncestor rows new oldTip with
  | none => throw (.noCommonAncestor new.hash oldTip.hash)
  | some ancestor =>
    match branchAbove rows ancestor.height (rows.length + 1) (some new) with
    | none => throw .diverged
    | some branch => pure ⟨ancestor.height, branch, countActiveAbove rows ancestor.height⟩

/-- The transaction of a reorg: the old branch off, the new branch on, the lowest
changed height recorded, the tip moved. -/
def ReorgPlan.txn (plan : ReorgPlan) (new : String) : List Stmt :=
  .deactivateAbove plan.ancestorHeight :: plan.branch.map .activateHash ++
    [.recordPendingReorg (plan.ancestorHeight + 1), .clearChainTip, .setChainTipActive new]

section Writers

variable (env : Env) (params : ChainParams)

/-- `handle_reorg`: answers how many rows it took off the active chain. -/
def handleReorg (new oldTip : LinkedHeader) : Writer Nat := do
  let rows ← readRows
  let plan ← Prog.ofExcept (planReorg rows new oldTip)
  commit env (plan.txn new.hash)
  pure plan.deactivated

/-- The transaction of `update_chain_tip`. -/
def moveTipTxn (hash : String) : List Stmt := [.clearChainTip, .setChainTipActive hash]

/-- `update_chain_tip`. -/
def updateChainTip (hash : String) : Writer Unit := commit env (moveTipTxn hash)

/-! ### Insertion -/

/-- The stored parent of an offered header. -/
def previousOf (rows : List HeaderRow) (header : BlockHeader) : Option HeaderRow :=
  if header.previousHash ≠ zeroHash then headerForHash rows header.previousHash else none

/-- What `insert_header` knows of a header when it has passed its checks. -/
structure Admission where
  previous : Option HeaderRow
  chainWork : Nat
  tip : Option HeaderRow
  anchored : Bool
  deriving DecidableEq

/-- The cumulative work of a header on its stored parent; its own where there is none. -/
def cumulativeWork (previous : Option HeaderRow) (header : BlockHeader) : Nat :=
  match previous with
  | some parent => addWork parent.chainWork (params.bsv.workFromBits header.bits)
  | none => params.bsv.workFromBits header.bits

/-- The window a child of `parent` is judged against. -/
def contextOf (rows : List HeaderRow) (parent : HeaderRow) : Window :=
  loadWindow rows params parent (params.pow.windowDepth parent.height)

/-- The badPrev guard: the height sits one above the stored parent. -/
def checkExtends (writer : String) (header : BlockHeader) (parent : HeaderRow) :
    Except Fault Unit :=
  if header.height = parent.height + 1 then pure ()
  else throw (.badPrev writer header.height parent.hash parent.height)

/-- `check_fork_prior_to_checkpoint`: no new header below a checkpoint the store holds. -/
def checkForkPriorToCheckpoint (rows : List HeaderRow) (header : BlockHeader)
    (tip : Option HeaderRow) : Except Fault Unit :=
  match storedCheckpointAbove rows params header.height tip with
  | some cp => throw (.refused header (.forkPriorToCheckpoint header.height cp))
  | none => pure ()

/-- A rule's fault as the writers word it. -/
def refusing {α : Type} (header : BlockHeader) (x : Except HeaderFault α) : Except Fault α :=
  x.mapError (.refused header)

/-- The context rules of a header: against its stored parent, or as an unlinked one;
whether it may take the tip. -/
def checkAnchored (rows : List HeaderRow) (header : BlockHeader) (previous tip : Option HeaderRow) :
    Except Fault Bool :=
  match previous with
  | some parent => do
    refusing header (checkContext params (contextOf params rows parent) header)
    pure true
  | none => refusing header (checkUnlinked params header tip.isNone)

/-- Steps 2 to 4 of `insert_header`: the parent, the work, the tip, the height above
the parent, then the node's context rules. -/
def admission (rows : List HeaderRow) (header : BlockHeader) : Except Fault Admission := do
  let previous := previousOf rows header
  let tip := chainTip rows
  previous.forM (checkExtends "insert_header" header)
  checkForkPriorToCheckpoint params rows header tip
  let anchored ← checkAnchored params rows header previous tip
  pure ⟨previous, cumulativeWork params previous header, tip, anchored⟩

namespace Admission

variable (a : Admission) (header : BlockHeader)

/-- Most work wins: with no tip the header takes it, else only an anchored header of
strictly more work. -/
def becomesTip : Bool :=
  match a.tip with
  | none => true
  | some tip => a.anchored && decide (tip.chainWork < a.chainWork)

/-- The header stands on the tip, or there is none. -/
def extendsTip : Bool :=
  match a.tip with
  | none => true
  | some tip => header.previousHash == tip.hash

/-- The insertion alone lands the header active. -/
def isActive : Bool := a.becomesTip && a.extendsTip header

/-- The insertion statement. -/
def insertion : Stmt :=
  .insertHeader (a.previous.map (·.headerId)) header (a.isActive header) a.chainWork

/-- The first transaction: an extension moves the tip with it. -/
def txn : List Stmt :=
  if a.isActive header then
    [a.insertion header, .clearChainTip, .setChainTipActive header.hash]
  else [a.insertion header]

/-- What the history keeps of the checks: the ancestry the context check read, or that
the header was taken for an anchor. -/
def entries (rows : List HeaderRow) : List Entry :=
  match a.previous with
  | some parent =>
    [.passed ((loadChain rows parent (params.pow.windowDepth parent.height)).map
      (·.toBlockHeader)) [] header]
  | none => if a.anchored then [.vouched header] else []

/-- The answer of `insert_header`, before the reorg's depth is known. -/
def result : InsertHeaderResult where
  added := true
  noPrev := a.previous.isNone && decide (0 < header.height)
  noTip := a.tip.isNone
  isActiveTip := a.becomesTip

end Admission

/-- The reorg of a new tip that does not stand on the old one: how many rows it took
off the active chain. -/
def reorgOnto (new : LinkedHeader) (tip : Option HeaderRow) : Writer Nat :=
  match tip with
  | some tip => if new.previousHash ≠ tip.hash then handleReorg env new tip.linked else pure 0
  | none => pure 0

/-- The tip alone, where neither a reorg nor the insertion moved it. -/
def moveTipAlone (hash : String) (reorgDepth : Nat) (atomicExtension : Bool) : Writer Unit :=
  if reorgDepth = 0 ∧ atomicExtension = false then updateChainTip env hash else pure ()

/-- The tip's move where the insertion did not make it: the reorg first, and where it
took nothing off the chain, the tip alone. -/
def settleTip (new : LinkedHeader) (tip : Option HeaderRow) (atomicExtension : Bool) :
    Writer Nat := do
  let reorgDepth ← reorgOnto env new tip
  moveTipAlone env new.hash reorgDepth atomicExtension
  pure reorgDepth

/-- `insert_header`. -/
def insertHeader (header : BlockHeader) : Writer InsertHeaderResult := do
  Prog.ofExcept (refusing header (checkPow params header))
  let rows ← readRows
  if (headerForHash rows header.hash).isSome then
    pure { dupe := true }
  else
    let a ← Prog.ofExcept (admission params rows header)
    Prog.each note (a.entries params header rows)
    commit env (a.txn header)
    if a.becomesTip then
      let reorgDepth ← settleTip env header.linked a.tip (a.isActive header)
      pure { a.result header with reorgDepth }
    else
      pure (a.result header)

/-! ### The orphan linked later -/

/-- What `relink_orphan_and_reevaluate` reads before it writes. -/
inductive RelinkPlan
  | unknown
  | noParent
  | link (stored parent : HeaderRow) (chainWork : Nat)
  deriving DecidableEq

/-- The reads of `relink_orphan_and_reevaluate`: the row, its parent, the height above
it, then the context check the row was stored without. -/
def planRelink (rows : List HeaderRow) (hash : String) : Except Fault RelinkPlan :=
  match headerForHash rows hash with
  | none => pure .unknown
  | some stored =>
    match headerForHash rows stored.previousHash with
    | none => pure .noParent
    | some parent => do
      checkExtends "relink" stored.toBlockHeader parent
      refusing stored.toBlockHeader
        (checkContext params (contextOf params rows parent) stored.toBlockHeader)
      pure (.link stored parent (addWork parent.chainWork (params.bsv.workFromBits stored.bits)))

/-- The tip decision of a relinked row: no orphan's flag stands in its way, its context
has just been checked. -/
def relinkTakesTip (tip : Option HeaderRow) (chainWork : Nat) : Bool :=
  match tip with
  | none => true
  | some tip => decide (tip.chainWork < chainWork)

/-- `relink_orphan_and_reevaluate`. -/
def relinkOrphanAndReevaluate (hash : String) : Writer InsertHeaderResult := do
  let rows ← readRows
  match ← Prog.ofExcept (planRelink params rows hash) with
  | .unknown => pure {}
  | .noParent => pure { dupe := true, noPrev := true }
  | .link stored parent chainWork =>
    note (.passed ((loadChain rows parent (params.pow.windowDepth parent.height)).map
      (·.toBlockHeader)) [] stored.toBlockHeader)
    commit env [.relinkHeader (some parent.headerId) chainWork stored.headerId]
    let rows ← readRows
    let tip := chainTip rows
    if relinkTakesTip tip chainWork then
      let reorgDepth ← settleTip env ⟨stored.toBlockHeader, some parent.headerId⟩ tip false
      pure { dupe := true, isActiveTip := true, reorgDepth }
    else
      pure { dupe := true }

/-! ### The parent walk -/

/-- The `BACKFILL_LIMIT` of the parent walk. -/
def backfillLimit : Nat := 36

/-- The walk back by hash until a stored header: the branch in the order fetched. -/
def backfillWalk : Nat → String → Writer (List BlockHeader)
  | 0, _ => pure []
  | fuel + 1, want => do
    let rows ← readRows
    if want = zeroHash ∨ (headerForHash rows want).isSome then
      pure []
    else
      let parent ← askCourier fun n => env.headerByHash n want
      let branch ← backfillWalk fuel parent.previousHash
      pure (parent :: branch)

/-- A duplicate that an aborted walk left unlinked or inactive. -/
def storedOrphan (rows : List HeaderRow) (header : BlockHeader) (result : InsertHeaderResult) :
    Bool :=
  result.dupe && decide (0 < header.height) &&
    match headerForHash rows header.hash with
    | some h => h.previousHeaderId.isNone || !h.isActive
    | none => false

/-- `insert_with_parent_backfill`. -/
def insertWithParentBackfill (header : BlockHeader) : Writer InsertHeaderResult := do
  let result ← insertHeader env params header
  let rows ← readRows
  if !result.noPrev && !storedOrphan rows header result then
    pure result
  else
    let branch ← backfillWalk env backfillLimit header.previousHash
    Prog.each (fun parent => do let _ ← insertHeader env params parent) branch.reverse
    relinkOrphanAndReevaluate env params header.hash

end Writers

/-! ### What an admission says -/

section Lemmas

variable {params : ChainParams} {rows : List HeaderRow} {header : BlockHeader} {a : Admission}

/-- **What `insert_header` has checked** of a header it lets in. -/
structure Admitted (params : ChainParams) (rows : List HeaderRow) (header : BlockHeader)
    (a : Admission) : Prop where
  previous : a.previous = previousOf rows header
  chainWork : a.chainWork = cumulativeWork params (previousOf rows header) header
  tip : a.tip = chainTip rows
  noCheckpointAbove : storedCheckpointAbove rows params header.height (chainTip rows) = none
  onParent : ∀ parent, previousOf rows header = some parent →
    header.height = parent.height + 1 ∧
      checkContext params (contextOf params rows parent) header = .ok () ∧ a.anchored = true
  unlinked : previousOf rows header = none →
    checkUnlinked params header (chainTip rows).isNone = .ok a.anchored

theorem checkExtends_ok {writer : String} {parent : HeaderRow} {u : Unit}
    (h : checkExtends writer header parent = .ok u) : header.height = parent.height + 1 := by
  unfold checkExtends at h
  split at h
  · assumption
  · cases h

theorem checkForkPriorToCheckpoint_ok {tip : Option HeaderRow} {u : Unit}
    (h : checkForkPriorToCheckpoint params rows header tip = .ok u) :
    storedCheckpointAbove rows params header.height tip = none := by
  unfold checkForkPriorToCheckpoint at h
  split at h
  · cases h
  · assumption

theorem admission_ok (h : admission params rows header = .ok a) : Admitted params rows header a := by
  unfold admission at h
  obtain ⟨_, hext, h⟩ := Except.bind_eq_ok.mp h
  obtain ⟨_, hfork, h⟩ := Except.bind_eq_ok.mp h
  obtain ⟨anchored, hanch, h⟩ := Except.bind_eq_ok.mp h
  cases h
  refine
    { previous := rfl
      chainWork := rfl
      tip := rfl
      noCheckpointAbove := checkForkPriorToCheckpoint_ok hfork
      onParent := ?_
      unlinked := ?_ }
  · intro parent hp
    rw [hp] at hext hanch
    obtain ⟨_, hctx, hanch⟩ := Except.bind_eq_ok.mp hanch
    cases hanch
    exact ⟨checkExtends_ok hext, Except.mapError_eq_ok.mp hctx, rfl⟩
  · intro hp
    rw [hp] at hanch
    exact Except.mapError_eq_ok.mp hanch

/-- **What a reorg has read** when it goes ahead. -/
theorem planReorg_ok {new oldTip : LinkedHeader} {plan : ReorgPlan}
    (h : planReorg rows new oldTip = .ok plan) :
    ∃ ancestor, findCommonAncestor rows new oldTip = some ancestor ∧
      plan.ancestorHeight = ancestor.height ∧
      branchAbove rows ancestor.height (rows.length + 1) (some new) = some plan.branch ∧
      plan.deactivated = countActiveAbove rows ancestor.height := by
  unfold planReorg at h
  split at h
  · cases h
  · rename_i ancestor hanc
    split at h
    · cases h
    · rename_i branch hbranch
      cases h
      exact ⟨ancestor, hanc, rfl, hbranch, rfl⟩

/-- **What a relink has checked** of the row it links. -/
structure Relinked (params : ChainParams) (rows : List HeaderRow) (hash : String)
    (stored parent : HeaderRow) (chainWork : Nat) : Prop where
  found : headerForHash rows hash = some stored
  foundParent : headerForHash rows stored.previousHash = some parent
  onParent : stored.height = parent.height + 1
  context : checkContext params (contextOf params rows parent) stored.toBlockHeader = .ok ()
  work : chainWork = addWork parent.chainWork (params.bsv.workFromBits stored.bits)

theorem planRelink_link {hash : String} {stored parent : HeaderRow} {chainWork : Nat}
    (h : planRelink params rows hash = .ok (.link stored parent chainWork)) :
    Relinked params rows hash stored parent chainWork := by
  unfold planRelink at h
  split at h
  · cases h
  · rename_i s hs
    split at h
    · cases h
    · rename_i p hp
      obtain ⟨_, hext, h⟩ := Except.bind_eq_ok.mp h
      obtain ⟨_, hctx, h⟩ := Except.bind_eq_ok.mp h
      cases h
      exact ⟨hs, hp, checkExtends_ok hext, Except.mapError_eq_ok.mp hctx, rfl⟩

end Lemmas

end Chaintracks

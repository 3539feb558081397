import Chaintracks.Batch

/-!
# The passes: the heal of broken links, the legs of the cron, the doors

The writers of the two modules before are called from here: by the heal, which walks
back by hash from the parent a broken link's child names; by the two legs of a cron
pass, the catch-up and the live sync; by the push's door and the operator's routes.

A pass goes on past the faults of its legs where the source does – a heal's run that is
refused leaves the next break to be tried – so those calls are attempts
(`Prog.attempt`). Each pass holds the writer lease in the source; a lapse shows here as
transactions the environment refuses. What the passes record in the sync row beside
the headers (the seen height, the last fault, the link state) no writer of the headers
reads, and is left out.
-/

namespace Chaintracks

open HeaderRows

section Passes

variable (env : Env) (params : ChainParams)

/-! ### The link check -/

/-- One height whose active row the next height does not name. -/
structure BrokenLink where
  height : Nat
  active : Option String
  nextNames : String
  next : String
  deriving DecidableEq

/-- `LinkReport`, as far as the heal reads it. -/
structure LinkReport where
  fromHeight : Nat
  toHeight : Nat
  broken : List BrokenLink
  deriving DecidableEq

/-- The most broken links one answer carries. -/
def linkMaxBroken : Nat := 1000

/-- The heights under the tip the pass's link leg checks. -/
def linkWindow : Nat := 400

/-- The children of `(lo, hi]` whose parent by height is not the row they name, one
entry for each row active below. -/
def brokenLinks (rows : List HeaderRow) (lo hi : Nat) : List BrokenLink :=
  (activeHeadersBetween rows (lo + 1) hi).flatMap fun c =>
    match rows.filter fun p => p.isActive && p.height == c.height - 1 with
    | [] => [⟨c.height - 1, none, c.previousHash, c.hash⟩]
    | below => (below.filter fun p => p.hash != c.previousHash).map fun p =>
        ⟨c.height - 1, some p.hash, c.previousHash, c.hash⟩

/-- `link_state`: the link check of the top of the active chain under the tip. -/
def linkState (rows : List HeaderRow) (tip : Nat) : LinkReport :=
  let lowest := (((rows.filter (·.isActive)).map (·.height)).min?).getD 0
  let fromHeight := max (tip - linkWindow) lowest
  let toHeight := max tip fromHeight
  ⟨fromHeight, toHeight, (brokenLinks rows fromHeight toHeight).take linkMaxBroken⟩

/-! ### The heal -/

/-- The courier reads one pass of the heal may spend. -/
def healSpan : Nat := 100

/-- The courier reads between two looks at the lease. -/
def healStep : Nat := 10

/-- The term of the writer lease, in milliseconds. -/
def leaseTermMs : Int := 120000

/-- What the heal counts over a whole pass. -/
structure HealClock where
  reads : Nat
  longest : Nat
  stepStarted : Nat

/-- One walk of the heal: the run the child names and the headers read for it, newest
first, and why it stopped (`none` on an active row, else whether it is a fault). -/
structure HealWalk where
  run : List BlockHeader
  read : List BlockHeader
  stop : Option Bool
  clock : HealClock

/-- Whether the lease still carries the walk: looked at every `healStep` reads. -/
def healLook (clock : HealClock) : Writer (HealClock × Bool) :=
  if clock.reads % healStep = 0 then do
    let now ← ask env.clockMs
    let longest :=
      if 0 < clock.reads then max clock.longest (now - clock.stepStarted) else clock.longest
    let left ← ask env.leaseLeftMs
    pure ({ clock with longest, stepStarted := now },
      left.all fun left => decide (leaseTermMs / 2 + 2 * longest ≤ left))
  else pure (clock, true)

/-- The walk of one break: back by hash through the store where the rows are held and
through the couriers where they are not, until an active row. -/
def healWalk : Nat → HealClock → Nat → String → List BlockHeader → List BlockHeader →
    Writer HealWalk
  | 0, clock, _, _, run, read => pure ⟨run, read, some true, clock⟩
  | fuel + 1, clock, height, want, run, read => do
    let rows ← readRows
    match headerForHash rows want with
    | some row =>
      if row.isActive then pure ⟨run, read, none, clock⟩
      else if height = 0 then pure ⟨run ++ [row.toBlockHeader], read, some true, clock⟩
      else healWalk fuel clock (height - 1) row.previousHash (run ++ [row.toBlockHeader]) read
    | none =>
      if healSpan ≤ clock.reads then pure ⟨run, read, some false, clock⟩
      else do
        let (clock, goOn) ← healLook env clock
        if !goOn then pure ⟨run, read, some false, clock⟩
        else do
          let clock := { clock with reads := clock.reads + 1 }
          match ← ask fun n => env.headerByHash n want with
          | .ok h =>
            if h.height = height ∧ eqIgnoreAsciiCase h.hash want = true then
              if height = 0 then pure ⟨run ++ [h], read ++ [h], some true, clock⟩
              else
                healWalk fuel clock (height - 1) h.previousHash (run ++ [h]) (read ++ [h])
            else pure ⟨run, read, some true, clock⟩
          | .error _ => pure ⟨run, read, some true, clock⟩

/-- A run of the heal through the push: whether it landed. -/
def healIngest (run : List BlockHeader) : Writer Bool := do
  match ← Prog.attempt (ingestPushed env params run) with
  | .ok out => pure (out.outcome != .storedInactive)
  | .error _ => pure false

/-- The rows a walk read and could not land, kept; whether the store took them. -/
def healKeep (read : List BlockHeader) : Writer Bool :=
  if read.isEmpty then pure true
  else do
    match ← Prog.attempt (storeHealProgress env params read) with
    | .ok _ => pure true
    | .error _ => pure false

/-- The breaks of a report, the highest first; answers whether a run landed. -/
def healBreaks : HealClock → Bool → List BrokenLink → Writer Bool
  | _, healed, [] => pure healed
  | clock, healed, broken :: rest => do
    let walk ← healWalk env maxActivation clock broken.height broken.nextNames [] []
    let left ← ask env.leaseLeftMs
    if left.any (· ≤ 0) then pure healed
    else
      match walk.stop with
      | none =>
        if walk.run.isEmpty then healBreaks walk.clock healed rest
        else do
          let landed ← healIngest env params walk.run.reverse
          healBreaks walk.clock (healed || landed) rest
      | some fault => do
        let kept ← healKeep env params walk.read
        if kept && fault then healBreaks walk.clock healed rest else pure healed

/-- `heal_links`. -/
def healLinks (report : LinkReport) : Writer Bool := do
  let now ← ask env.clockMs
  let healed ← healBreaks env params ⟨0, 0, now⟩ false report.broken.reverse
  if healed then
    let _ ← Prog.attempt (linkActiveSpan env report.fromHeight report.toHeight)
    pure true
  else pure false

/-- `link_leg`: the check of the top of the chain under `tip`, and the heal where it is
broken. -/
def linkLeg (tip : Option HeaderRow) : Writer Bool :=
  match tip with
  | none => pure false
  | some tip => do
    let rows ← readRows
    let report := linkState rows tip.height
    if report.broken.isEmpty then pure false else healLinks env params report

/-! ### The legs of a cron pass -/

/-- Headers one by one by height through the parent walk, up to the first that is not
served or not ingested; answers whether all were. -/
def ingestHeights : List Nat → Writer Bool
  | [] => pure true
  | height :: heights => do
    match ← ask fun n => env.headerByHeight n height with
    | .error _ => pure false
    | .ok header =>
      match ← Prog.attempt (insertWithParentBackfill env params header) with
      | .error _ => pure false
      | .ok _ => ingestHeights heights

/-- The live leg: the heights above ours, one by one. -/
def liveLeg (ourHeight wocHeight : Nat) : Writer Unit := do
  let _ ← ingestHeights env params
    ((List.range (wocHeight - ourHeight)).map fun i => ourHeight + 1 + i)
  pure ()

/-- Headers one request of the catch-up asks for. -/
def catchUpBatch : Nat := 1000

/-- Headers one pass of the catch-up goes up by at most. -/
def catchUpPerCycle : Nat := 5000

/-- The upstream's answer to a request, where one is configured. -/
def askUpstream (upstream : Bool) (height count : Nat) (anchor : Option String) :
    Writer (Except String (List BlockHeader)) :=
  if upstream then ask fun n => env.upstream n height count anchor
  else pure (.error "upstream not configured")

/-- The upstream's batch written: how many headers, none where it was refused or not
had. -/
def writeUpstream (fetched : Except String (List BlockHeader)) : Writer (Option Nat) :=
  match fetched with
  | .error _ => pure none
  | .ok [] => pure (some 0)
  | .ok (first :: rest) => do
    match ← Prog.attempt (insertHeadersBatch env params (first :: rest)) with
    | .ok _ => pure (some (rest.length + 1))
    | .error _ => pure none

/-- The loop of the catch-up: the upstream's batch, else the heights of its span one by
one. Each round goes up by at least one height. -/
def catchUpLoop (upstream : Bool) (endHeight : Nat) : Nat → Nat → Writer Unit
  | 0, _ => pure ()
  | fuel + 1, height =>
    if endHeight < height then pure ()
    else do
      let count := min catchUpBatch (endHeight - height + 1)
      let rows ← readRows
      let anchor := if 0 < height then (headerForHeight rows (height - 1)).map (·.hash) else none
      let fetched ← askUpstream env upstream height count anchor
      let written ← writeUpstream env params fetched
      match written with
      | some 0 => pure ()
      | some n => catchUpLoop upstream endHeight fuel (height + n)
      | none => do
        let span := min (height + count - 1) endHeight + 1 - height
        let all ← ingestHeights env params ((List.range span).map fun i => height + i)
        if all then catchUpLoop upstream endHeight fuel (height + count) else pure ()

/-- The catch-up leg: the loop, the sweep, the tip. -/
def catchUpLeg (upstream : Bool) (ourHeight wocHeight : Nat) : Writer Unit := do
  let endHeight := min (ourHeight + catchUpPerCycle) wocHeight
  catchUpLoop env params upstream endHeight (endHeight - ourHeight) (ourHeight + 1)
  let _ ← dedupeActiveHeights env
  let _ ← updateChainTipToHighest env
  pure ()

/-- The equal-height branch mismatch of an idle pass: the couriers' best header by hash;
answers whether it was ingested. -/
def competitorLeg (bestHash : String) : Writer Bool := do
  match ← ask fun n => env.headerByHash n bestHash with
  | .error _ => pure false
  | .ok header => do
    match ← Prog.attempt (insertWithParentBackfill env params header) with
    | .ok _ => pure true
    | .error _ => pure false

/-- The competitor of an idle pass, where the couriers' best is another header at our
height. -/
def idleLeg (tip : Option HeaderRow) (wocHeight : Nat) (bestHash : Option String) : Writer Bool :=
  match tip, bestHash with
  | some ourTip, some best =>
    if wocHeight = ourTip.height ∧ 0 < ourTip.height ∧
        eqIgnoreAsciiCase ourTip.hash best = false then
      competitorLeg env params best
    else pure false
  | _, _ => pure false

/-- The sync of a pass with work: the catch-up over a wide gap, else one by one. -/
def syncLeg (upstream : Bool) (ourHeight wocHeight : Nat) : Writer Unit :=
  if 10 < wocHeight - ourHeight then catchUpLeg env params upstream ourHeight wocHeight
  else liveLeg env params ourHeight wocHeight

/-- The heights of the cumulative-work repair at the end of a pass. -/
def repairWindow : Nat := 144

/-- The writes of the headers of `run_cron_inner`, on what the couriers answered for
their tip. -/
def cronPass (upstream : Bool) (wocHeight : Nat) (bestHash : Option String) : Writer Unit := do
  let rows ← readRows
  let tip := chainTip rows
  let ourHeight := (tip.map (·.height)).getD 0
  if wocHeight ≤ ourHeight then do
    let landed ← idleLeg env params tip wocHeight bestHash
    let rows ← readRows
    let _ ← linkLeg env params (if landed then chainTip rows else tip)
    pure ()
  else do
    syncLeg env params upstream ourHeight wocHeight
    let rows ← readRows
    let _ ← linkLeg env params (chainTip rows)
    let _ ← Prog.attempt (repairCumulativeWork env params repairWindow)
    pure ()

/-! ### The doors -/

/-- The `PARENT_WALK_LIMIT` of the push's door. -/
def parentWalkLimit : Nat := 36

/-- The parent walk of a pushed header: the run, oldest first. -/
def pushWalk (pushed : BlockHeader) : Nat → List BlockHeader → Writer (List BlockHeader)
  | fuel, run => do
    let want := (run.head?.map (·.previousHash)).getD zeroHash
    let rows ← readRows
    if want = zeroHash ∨ (headerForHash rows want).isSome then pure run
    else
      match fuel with
      | 0 => Prog.fail (.walkTooDeep pushed.hash pushed.height want)
      | fuel + 1 => do
        let parent ← askCourier fun n => env.headerByHash n want
        pushWalk pushed fuel (parent :: run)

/-- `ingest_held`: a pushed header with the ancestors the store misses. -/
def ingestHeld (header : BlockHeader) : Writer IngestOutcome := do
  let run ← pushWalk env header parentWalkLimit [header]
  ingestPushed env params run

/-- `bulk_write`, under its lease. -/
def bulkWrite (headers : List BlockHeader) : Writer Nat := do
  let inserted ← insertHeadersBatch env params headers
  let _ ← dedupeActiveHeights env
  let _ ← updateChainTipToHighest env
  pure inserted

/-- `backfill_write`, under its lease: the rows inserted. -/
def backfillWrite (headers : List BlockHeader) : Writer Nat :=
  insertHeadersBatch env params headers

end Passes

end Chaintracks

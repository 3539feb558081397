import Chaintracks.CourierTick
import Chaintracks.HeaderForest
import Chaintracks.LiveFinality
import Chaintracks.Library.Meetings

/-!
# The rungs' tips and the splits between them

The tip each courier was last seen at is kept in a row of its own
(`Chaintracks.RungTable`), one row for each configured rung. A poll replaces the snapshot
in one transaction (`Chaintracks.SplitDb.record`): rows of rungs no longer configured go, an
observation takes the row unless a later one stands there, and then the trigger of
`chain_split_signal` reads the snapshot against the store.

It looks at the *checked* tips only (`Chaintracks.SplitDb.checkedTip`): the observed hash
is stored at the observed height, active or linked, and below the ceiling of the
validation. From each the views walk back by hash (`Chaintracks.SplitDb.ancestry`), and
where two rungs' walks first share a header they have their fork
(`Chaintracks.SplitDb.forkOf`). A pair whose tips both stand deep enough above its fork
opens a split there, once; a split is resolved once every pair has a fork and none has
both its tips above this one (`Chaintracks.SplitDb.detect`).
-/

namespace Chaintracks

open HeaderRows Forest

/-! ### The snapshot -/

/-- `Definition`. -/
structure RungDefinition where
  name : String
  implementation : String
  deriving DecidableEq

/-- `Observation`. -/
structure Observation where
  hash : String
  height : Nat
  observedAt : Nat
  deriving DecidableEq

/-- A row of `sync_rung_tips`; its columns `hash`, `height` and `observed_at` are written
together, or null together. -/
structure RungRow where
  name : String
  implementation : String
  seen : Option Observation
  deriving DecidableEq

/-- The table `sync_rung_tips`. The name is its primary key. -/
structure RungTable where
  rows : List RungRow
  uniqueName : (rows.map (·.name)).Nodup
  deriving DecidableEq

namespace RungTable

variable (t : RungTable)

/-- The rows rewritten, their names kept. -/
def map (f : RungRow → RungRow) (hf : ∀ r, (f r).name = r.name) : RungTable where
  rows := t.rows.map f
  uniqueName := by
    simpa only [List.map_map, Function.comp_def, hf] using t.uniqueName

theorem prune_nodup (names : List String) :
    ((t.rows.filter fun r => names.contains r.name).map (·.name)).Nodup :=
  t.uniqueName.sublist (List.filter_sublist.map _)

/-- `DELETE FROM sync_rung_tips WHERE name NOT IN (..)`. -/
def prune (names : List String) : RungTable where
  rows := t.rows.filter fun r => names.contains r.name
  uniqueName := t.prune_nodup names

theorem append_nodup {d : RungDefinition} (h : d.name ∉ t.rows.map (·.name)) :
    ((t.rows ++ [(⟨d.name, d.implementation, none⟩ : RungRow)]).map (·.name)).Nodup := by
  rw [List.map_append, List.nodup_append]
  refine ⟨t.uniqueName, by simp, ?_⟩
  rintro name hname _ hlast rfl
  rw [List.map_singleton, List.mem_singleton] at hlast
  exact h (by rwa [hlast] at hname)

/-- The label of a deploy on the row of a rung. -/
def relabel (d : RungDefinition) (r : RungRow) : RungRow :=
  if r.name = d.name then { r with implementation := d.implementation } else r

theorem relabel_name (d : RungDefinition) (r : RungRow) : (relabel d r).name = r.name := by
  unfold relabel
  split <;> rfl

/-- `INSERT INTO sync_rung_tips(name, implementation) .. ON CONFLICT(name) DO UPDATE`. -/
def upsert (d : RungDefinition) : RungTable :=
  if h : d.name ∈ t.rows.map (·.name) then t.map (relabel d) (relabel_name d)
  else { rows := t.rows ++ [⟨d.name, d.implementation, none⟩], uniqueName := t.append_nodup h }

/-- An observation on the row of a rung, unless a later one stands there. -/
def observed (name : String) (o : Observation) (r : RungRow) : RungRow :=
  if r.name = name ∧ r.seen.all (·.observedAt ≤ o.observedAt) = true then { r with seen := some o }
  else r

theorem observed_name (name : String) (o : Observation) (r : RungRow) :
    (observed name o r).name = r.name := by
  unfold observed
  split <;> rfl

/-- `UPDATE sync_rung_tips SET .. WHERE name = ?4 AND (observed_at IS NULL OR ..)`. -/
def observe (name : String) (o : Observation) : RungTable :=
  t.map (observed name o) (observed_name name o)

/-- What a poll writes of one rung: a failed one keeps what it was last seen at. -/
def recordRung (rung : RungDefinition × Option Observation) : RungTable :=
  match rung.2 with
  | some o => (t.upsert rung.1).observe rung.1.name o
  | none => t.upsert rung.1

/-- What a poll writes of all rungs, those no longer configured gone. -/
def recordRungs (rungs : List (RungDefinition × Option Observation)) : RungTable :=
  rungs.foldl recordRung (t.prune (rungs.map (·.1.name)))

/-- The rows by name. -/
def byName : List RungRow := t.rows.insertionSort fun a b => a.name ≤ b.name

end RungTable

/-! ### The splits -/

/-- `SplitTip`. -/
structure SplitTip where
  hash : String
  height : Nat
  chainWork : Nat
  rungs : List String
  deriving DecidableEq

/-- A row of `chain_splits`. -/
structure Split where
  forkHash : String
  forkHeight : Nat
  tips : List SplitTip
  resolved : Bool
  deriving DecidableEq

/-- The envelopes of a split, both of version 2. -/
inductive SplitEvent
  | split (key : String) (forkHeight : Nat) (tips : List SplitTip)
  | splitResolved (key : String) (forkHeight : Nat)
  deriving DecidableEq

/-- A row the split triggers write to `chain_events`. -/
structure SplitRecord where
  event : SplitEvent
  eventKey : String
  deriving DecidableEq

/-- `chain_split_open`. -/
def Split.opening (s : Split) : SplitRecord :=
  ⟨.split ("split:" ++ s.forkHash) s.forkHeight s.tips, "split:" ++ s.forkHash⟩

/-- `chain_split_resolve`. -/
def Split.resolution (s : Split) : SplitRecord :=
  ⟨.splitResolved ("split:" ++ s.forkHash) s.forkHeight, "splitResolved:" ++ s.forkHash⟩

/-- The table `chain_splits`. The hash of the fork is its primary key. -/
structure SplitTable where
  rows : List Split
  uniqueFork : (rows.map (·.forkHash)).Nodup
  deriving DecidableEq

/-- `ANCESTRY_LIMIT`. -/
def ancestryLimit : Nat := 400

/-- A split depth: the `CHECK` of `chain_split_signal`. -/
structure SplitDepth where
  blocks : Nat
  bounds : 1 ≤ blocks ∧ blocks ≤ ancestryLimit
  deriving DecidableEq

theorem defaultSplitDepth_bounds : 1 ≤ 3 ∧ 3 ≤ ancestryLimit := by decide

/-- `DEFAULT_SPLIT_DEPTH`. -/
def defaultSplitDepth : SplitDepth := ⟨3, defaultSplitDepth_bounds⟩

/-- `split_depth`. -/
def splitDepth (value : Option String) : Except String SplitDepth :=
  match value with
  | none => .ok defaultSplitDepth
  | some s =>
    match parseU32 s.toList with
    | some n =>
      if h : 1 ≤ n ∧ n ≤ ancestryLimit then .ok ⟨n, h⟩
      else .error "SPLIT_DEPTH must be an integer in 1..=400"
    | none => .error "SPLIT_DEPTH must be an integer in 1..=400"

/-- The database as the polls of the rungs meet it, with what the split triggers have written
to the journal, oldest first. -/
structure SplitDb where
  headers : HeaderTable
  sync : SyncState
  rungs : RungTable
  splits : SplitTable
  depth : SplitDepth
  tick : Nat
  records : List SplitRecord
  deriving DecidableEq

/-- The database as the migrations leave it. -/
def SplitDb.fresh : SplitDb where
  headers := Store.fresh.headers
  sync := Store.fresh.sync
  rungs := { rows := [], uniqueName := List.nodup_nil }
  splits := { rows := [], uniqueFork := List.nodup_nil }
  depth := defaultSplitDepth
  tick := 0
  records := []

/-! ### The views -/

/-- The step of `chain_rung_ancestry`: the stored row of the parent's hash, where it stands one
below. -/
def parentByHash (rows : List HeaderRow) (row : HeaderRow) : Option HeaderRow :=
  (headerForHash rows row.previousHash).filter fun p => p.height + 1 == row.height

theorem parentByHash_height {rows : List HeaderRow} {a b : HeaderRow}
    (h : parentByHash rows a = some b) : a.height = b.height + 1 := by
  rw [parentByHash, Option.filter_eq_some_iff] at h
  simpa using (beq_iff_eq.mp h.2).symm

/-- A pair of `chain_rung_pairs`, with the checked tips of its rungs. -/
structure RungPair where
  left : RungRow
  right : RungRow
  leftTip : HeaderRow
  rightTip : HeaderRow
  fork : HeaderRow
  deriving DecidableEq

namespace SplitDb

variable (db : SplitDb)

/-- `sync_rung_headers`: the header a rung was last seen at, where it is stored at that height,
active or linked, and below the ceiling. -/
def checkedTip (r : RungRow) : Option HeaderRow :=
  r.seen.bind fun o =>
    (headerForHash db.headers.rows o.hash).filter fun h =>
      h.height == o.height && (h.isActive || h.previousHeaderId.isSome) &&
        (db.sync.validationComplete || db.sync.validatedHeight.any (h.height ≤ ·))

/-- The rows of `chain_rung_ancestry` from a checked tip, nearest first. -/
def ancestry (tip : HeaderRow) : List HeaderRow :=
  trail (parentByHash db.headers.rows) ancestryLimit tip

/-- The row of `chain_rung_pairs` for two rungs: the highest header both reach. -/
def forkOf (l r : RungRow) : Option RungPair :=
  (db.checkedTip l).bind fun lt =>
    (db.checkedTip r).bind fun rt =>
      (meeting (·.hash) (db.ancestry lt) (db.ancestry rt)).map fun fork => ⟨l, r, lt, rt, fork⟩

/-- `chain_rung_pairs`, in the order of the names. -/
def rungPairs : List RungPair :=
  pairsOf (fun l r => decide (l.name < r.name)) db.forkOf db.rungs.byName db.rungs.byName

/-- The names of the rungs seen at a hash, by name. -/
def namesAt (hash : String) : List String :=
  (db.rungs.byName.filter fun r => r.seen.any (·.hash == hash)).map (·.name)

/-- One of the two tips of an envelope. -/
def splitTip (tip : HeaderRow) : SplitTip :=
  ⟨tip.hash, tip.height, tip.chainWork, db.namesAt tip.hash⟩

end SplitDb

namespace RungPair

/-- Both tips stand so deep above the fork. -/
def deep (p : RungPair) (depth : SplitDepth) : Bool :=
  decide (p.fork.height + depth.blocks ≤ p.leftTip.height) &&
    decide (p.fork.height + depth.blocks ≤ p.rightTip.height)

/-- Both tips stand above the fork of this hash. -/
def straddles (p : RungPair) (forkHash : String) : Bool :=
  p.fork.hash == forkHash && decide (p.fork.height < p.leftTip.height) &&
    decide (p.fork.height < p.rightTip.height)

end RungPair

/-! ### The detection -/

namespace SplitTable

/-- The fork points that have had a split. -/
def forks (t : SplitTable) : List String := t.rows.map (·.forkHash)

theorem open_nodup (t : SplitTable) {s : Split} (h : s.forkHash ∉ t.forks) :
    ((t.rows ++ [s]).map (·.forkHash)).Nodup := by
  rw [List.map_append, List.nodup_append]
  refine ⟨t.uniqueFork, by simp, ?_⟩
  rintro hash hhash _ hlast rfl
  rw [List.map_singleton, List.mem_singleton] at hlast
  exact h (hlast ▸ hhash)

theorem resolve_nodup (t : SplitTable) (settles : Split → Bool) :
    ((t.rows.map fun s => if settles s then { s with resolved := true } else s).map
      (·.forkHash)).Nodup := by
  have h : ∀ s : Split,
      (if settles s then { s with resolved := true } else s).forkHash = s.forkHash := by
    intro s
    split <;> rfl
  simpa only [List.map_map, Function.comp_def, h] using t.uniqueFork

/-- `UPDATE chain_splits SET resolved = 1 WHERE ..`. -/
def resolve (t : SplitTable) (settles : Split → Bool) : SplitTable where
  rows := t.rows.map fun s => if settles s then { s with resolved := true } else s
  uniqueFork := t.resolve_nodup settles

end SplitTable

namespace SplitDb

variable (db : SplitDb)

/-- `INSERT OR IGNORE INTO chain_splits`, with `chain_split_open`. -/
def openSplit (s : Split) : SplitDb :=
  if h : s.forkHash ∈ db.splits.forks then db
  else
    { db with
      splits := { rows := db.splits.rows ++ [s], uniqueFork := db.splits.open_nodup h }
      records := db.records ++ [s.opening] }

/-- The split a deep pair opens. -/
def splitOf (p : RungPair) : Split where
  forkHash := p.fork.hash
  forkHeight := p.fork.height + 1
  tips := [db.splitTip p.leftTip, db.splitTip p.rightTip]
  resolved := false

/-- The first statement of the trigger: every deep pair opens its split. -/
def openSplits : SplitDb :=
  ((db.rungPairs.filter (·.deep db.depth)).map db.splitOf).foldl openSplit db

/-- As many pairs as rungs can form. -/
def allPaired : Bool :=
  db.rungPairs.length == db.rungs.rows.length * (db.rungs.rows.length - 1) / 2

/-- What the second statement resolves: an open split, when every pair of rungs has a fork and
none straddles this one. -/
def settles (s : Split) : Bool :=
  !s.resolved && db.allPaired && !db.rungPairs.any (·.straddles s.forkHash)

/-- The second statement of the trigger, with `chain_split_resolve`. -/
def resolveSplits : SplitDb :=
  { db with
    splits := db.splits.resolve db.settles
    records := db.records ++ (db.splits.rows.filter db.settles).map Split.resolution }

/-- `chain_split_detect`. -/
def detect : SplitDb := db.openSplits.resolveSplits

/-- `record`: one transaction. -/
def record (rungs : List (RungDefinition × Option Observation)) (depth : SplitDepth) : SplitDb :=
  { db with rungs := db.rungs.recordRungs rungs, depth, tick := db.tick + 1 }.detect

end SplitDb

end Chaintracks

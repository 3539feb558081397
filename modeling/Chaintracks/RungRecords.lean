import Chaintracks.SplitLifecycle

/-!
# What the rungs' polls keep and publish

Two things are asked of the polls over whole runs. The snapshot is to hold the latest
observation of each rung: a failed rung keeps what it was last seen at, an answer that
comes late replaces nothing newer, and a rung that left the configuration starts anew
(`Chaintracks.rung_latest`). And what the split triggers put into the journal is to be
read back: SQL writes the envelopes, the reader's decoder checks how their fields relate
(`Chaintracks.SplitEvent.valid`), and no envelope of a run fails there
(`Chaintracks.split_envelopes_valid`).
-/

namespace Chaintracks

open HeaderRows Forest

/-! ### One rung in a poll -/

/-- The observation that stays: the newer of the two, the later one of two alike. -/
def newerSeen (seen : Option Observation) (o : Observation) : Option Observation :=
  if seen.all (·.observedAt ≤ o.observedAt) then some o else seen

/-- What a poll observes of a rung. -/
def observationsOf (name : String) (rungs : List (RungDefinition × Option Observation)) :
    List Observation :=
  (rungs.filter fun rung => rung.1.name == name).filterMap (·.2)

theorem observationsOf_eq_nil {name : String} {rungs : List (RungDefinition × Option Observation)}
    (h : name ∉ rungs.map (·.1.name)) : observationsOf name rungs = [] := by
  rw [observationsOf, List.filter_eq_nil_iff.mpr, List.filterMap_nil]
  intro rung hrung hname
  exact h (List.mem_map.mpr ⟨rung, hrung, by simpa using hname⟩)

namespace RungTable

variable {t : RungTable} {name : String} {r : RungRow}

/-- What a rung was last seen at, if it has a row. -/
def seenAt (t : RungTable) (name : String) : Option (Option Observation) :=
  (t.rows.find? fun r => r.name == name).map (·.seen)

theorem seenAt_eq_some {seen : Option Observation} :
    t.seenAt name = some seen ↔ ∃ r ∈ t.rows, r.name = name ∧ r.seen = seen := by
  rw [seenAt, Option.map_eq_some_iff]
  constructor
  · rintro ⟨r, hr, rfl⟩
    exact ⟨r, List.mem_of_find?_eq_some hr, by simpa using List.find?_some hr, rfl⟩
  · rintro ⟨r, hr, rfl, rfl⟩
    cases hf : t.rows.find? fun r' => r'.name == r.name with
    | none => exact absurd (beq_self_eq_true r.name) (List.find?_eq_none.mp hf r hr)
    | some r' =>
      have hname : r'.name = r.name := by simpa using List.find?_some hf
      exact ⟨r', rfl, by rw [eq_of_name (List.mem_of_find?_eq_some hf) hr hname]⟩

theorem seenAt_map (f : RungRow → RungRow) (hf : ∀ r, (f r).name = r.name) :
    (t.map f hf).seenAt name = (t.rows.find? fun r => r.name == name).map fun r => (f r).seen := by
  rw [seenAt, RungTable.map, List.find?_map, Option.map_map]
  have hsame : ((fun r => r.name == name) ∘ f) = fun r : RungRow => r.name == name := by
    funext r
    rw [Function.comp_apply, hf]
  rw [hsame]
  rfl

theorem seenAt_prune (names : List String) :
    (t.prune names).seenAt name = if name ∈ names then t.seenAt name else none := by
  rw [seenAt, prune, List.find?_filter]
  split
  · rename_i hname
    refine congrArg _ (List.find?_congr fun r _ => ?_)
    by_cases hr : r.name = name
    · simp [hr, hname]
    · simp [hr]
  · rename_i hname
    rw [Option.map_eq_none_iff]
    refine List.find?_eq_none.mpr fun r _ h => ?_
    simp only [List.contains_iff_mem, beq_iff_eq, decide_eq_true_eq] at h
    exact hname (h.2 ▸ h.1)

/-- The upsert of a rung gives it a row, and changes no observation. -/
theorem seenAt_upsert (d : RungDefinition) :
    (t.upsert d).seenAt name = if d.name = name then some (t.seenAt name).join else t.seenAt name := by
  have hlabel : ∀ r, (relabel d r).seen = r.seen := by
    intro r
    unfold relabel
    split <;> rfl
  unfold upsert
  split
  · rename_i hrow
    rw [seenAt_map]
    simp only [hlabel]
    change t.seenAt name = _
    split
    · rename_i hname
      obtain ⟨r, hr, hrname⟩ := List.mem_map.mp hrow
      rw [seenAt_eq_some.mpr ⟨r, hr, hrname.trans hname, rfl⟩]
      rfl
    · rfl
  · rename_i hrow
    rw [seenAt, List.find?_append, Option.map_or]
    change (t.seenAt name).or _ = _
    split
    · rename_i hname
      have hnone : t.seenAt name = none := by
        by_contra hne
        obtain ⟨seen, hseen⟩ := Option.ne_none_iff_exists'.mp hne
        obtain ⟨r, hr, hrname, -⟩ := seenAt_eq_some.mp hseen
        exact hrow (List.mem_map.mpr ⟨r, hr, hrname.trans hname.symm⟩)
      rw [hnone]
      simp [hname]
    · rename_i hname
      simp [hname]

theorem seenAt_observe (key : String) (o : Observation) :
    (t.observe key o).seenAt name =
      if key = name then (t.seenAt name).map fun seen => newerSeen seen o else t.seenAt name := by
  rw [observe, seenAt_map]
  cases hf : t.rows.find? fun r => r.name == name with
  | none => simp [seenAt, hf]
  | some r =>
    have hrname : r.name = name := by simpa using List.find?_some hf
    by_cases hkey : key = name
    · by_cases hold : r.seen.all (·.observedAt ≤ o.observedAt) = true
      · simp [seenAt, hf, hkey, observed, hrname, newerSeen, hold]
      · simp [seenAt, hf, hkey, observed, hrname, newerSeen, hold]
    · have hne : r.name ≠ key := fun h => hkey (h.symm.trans hrname)
      simp [seenAt, hf, hkey, observed, hne]

/-- **What a poll makes of the row of a rung.** -/
theorem seenAt_recordRungs (rungs : List (RungDefinition × Option Observation)) :
    (t.recordRungs rungs).seenAt name =
      if name ∈ rungs.map (·.1.name) then
        some ((observationsOf name rungs).foldl newerSeen (t.seenAt name).join)
      else none := by
  have hfold : ∀ (rungs : List (RungDefinition × Option Observation)) (t : RungTable),
      (rungs.foldl recordRung t).seenAt name =
        if name ∈ rungs.map (·.1.name) then
          some ((observationsOf name rungs).foldl newerSeen (t.seenAt name).join)
        else t.seenAt name := by
    intro rungs
    induction rungs with
    | nil =>
      intro t
      rfl
    | cons rung rungs ih =>
      intro t
      obtain ⟨d, seen⟩ := rung
      rw [List.foldl_cons, ih]
      by_cases hname : d.name = name
      · have hone : (t.recordRung (d, seen)).seenAt name =
            some (seen.toList.foldl newerSeen (t.seenAt name).join) := by
          cases seen with
          | none => rw [recordRung, seenAt_upsert, if_pos hname]; rfl
          | some o => rw [recordRung, seenAt_observe, if_pos hname, seenAt_upsert, if_pos hname]; rfl
        have hobs : observationsOf name ((d, seen) :: rungs) =
            seen.toList ++ observationsOf name rungs := by
          cases seen <;> simp [observationsOf, hname]
        rw [hone, hobs, List.foldl_append, Option.join_some,
          if_pos (show name ∈ ((d, seen) :: rungs).map (·.1.name) by simp [hname])]
        by_cases hin : name ∈ rungs.map (·.1.name)
        · rw [if_pos hin]
        · rw [if_neg hin, observationsOf_eq_nil hin]
          rfl
      · have hone : (t.recordRung (d, seen)).seenAt name = t.seenAt name := by
          cases seen with
          | none => rw [recordRung, seenAt_upsert, if_neg hname]
          | some o => rw [recordRung, seenAt_observe, if_neg hname, seenAt_upsert, if_neg hname]
        have hobs : observationsOf name ((d, seen) :: rungs) = observationsOf name rungs := by
          simp [observationsOf, hname]
        have hmem : name ∈ ((d, seen) :: rungs).map (·.1.name) ↔ name ∈ rungs.map (·.1.name) := by
          rw [List.map_cons, List.mem_cons]
          exact or_iff_right (Ne.symm hname)
        simp only [hone, hobs, hmem]
  rw [recordRungs, hfold, seenAt_prune]
  split <;> rfl

end RungTable

/-! ### The latest observation -/

/-- The observations of a rung after one more step: a poll that does not configure it drops
them. -/
def observeStep (name : String) (obs : List Observation) : SplitOp → List Observation
  | .poll rungs _ =>
    if name ∈ rungs.map (·.1.name) then obs ++ observationsOf name rungs else []
  | .chain _ _ => obs

/-- What the polls of a run observed of a rung since it was last configured anew. -/
def sinceConfigured (name : String) (ops : List SplitOp) : List Observation :=
  ops.foldl (observeStep name) []

/-- The latest of some observations: none is later, and those after it are earlier. -/
def IsLatest (obs : List Observation) (o : Observation) : Prop :=
  ∃ before after, obs = before ++ o :: after ∧
    (∀ x ∈ before, x.observedAt ≤ o.observedAt) ∧ ∀ x ∈ after, x.observedAt < o.observedAt

theorem newest_spec (obs : List Observation) :
    (obs.foldl newerSeen none = none ↔ obs = []) ∧
      ∀ o, obs.foldl newerSeen none = some o → IsLatest obs o := by
  induction obs using List.reverseRecOn with
  | nil => simp
  | append_singleton obs o ih =>
    rw [List.foldl_append, List.foldl_cons, List.foldl_nil]
    cases hlast : obs.foldl newerSeen none with
    | none =>
      have hnil := ih.1.mp hlast
      rw [hnil]
      refine ⟨by simp [newerSeen], ?_⟩
      rintro o' ho'
      cases ho'
      exact ⟨[], [], rfl, by simp, by simp⟩
    | some last =>
      obtain ⟨before, after, hobs, hbefore, hafter⟩ := ih.2 last hlast
      by_cases hle : last.observedAt ≤ o.observedAt
      · rw [newerSeen, if_pos (by simpa using hle)]
        refine ⟨by simp, ?_⟩
        rintro o' ho'
        cases ho'
        refine ⟨obs, [], rfl, ?_, by simp⟩
        intro x hx
        rw [hobs, List.mem_append, List.mem_cons] at hx
        rcases hx with hx | rfl | hx
        · exact (hbefore x hx).trans hle
        · exact hle
        · exact (Nat.le_of_lt (hafter x hx)).trans hle
      · rw [newerSeen, if_neg (by simpa using hle)]
        refine ⟨by simp, ?_⟩
        rintro o' ho'
        cases ho'
        refine ⟨before, after ++ [o], by rw [hobs]; simp, hbefore, ?_⟩
        intro x hx
        rcases List.mem_append.mp hx with hx | hx
        · exact hafter x hx
        · rw [List.mem_singleton.mp hx]
          omega

/-- The snapshot of a run follows the observations. -/
theorem seenAt_run (ops : List SplitOp) (name : String) :
    ((splitRun ops).rungs.seenAt name).join = (sinceConfigured name ops).foldl newerSeen none := by
  induction ops using List.reverseRecOn with
  | nil => rfl
  | append_singleton ops op ih =>
    have hsince : sinceConfigured name (ops ++ [op]) =
        observeStep name (sinceConfigured name ops) op := List.foldl_append
    rw [splitRun_concat, hsince]
    cases op with
    | chain headers sync => exact ih
    | poll rungs depth =>
      have hrungs : ((splitRun ops).step (.poll rungs depth)).rungs =
          (splitRun ops).rungs.recordRungs rungs :=
        (SplitDb.detect_keeps { splitRun ops with
          rungs := (splitRun ops).rungs.recordRungs rungs, depth,
          tick := (splitRun ops).tick + 1 }).rungs
      rw [hrungs, RungTable.seenAt_recordRungs, observeStep]
      split
      · rw [List.foldl_append, Option.join_some, ih]
      · rfl

/-- **The snapshot holds the latest observation of each rung**, over every run of polls: none
where the polls observed nothing since the rung was configured, and else the latest of what
they observed, the last polled of two alike. -/
theorem rung_latest (ops : List SplitOp) (r : RungRow) (hr : r ∈ (splitRun ops).rungs.rows) :
    (r.seen = none ↔ sinceConfigured r.name ops = []) ∧
      ∀ o, r.seen = some o → IsLatest (sinceConfigured r.name ops) o := by
  have hseen := RungTable.seenAt_eq_some.mpr ⟨r, hr, rfl, rfl⟩
  have hrun := seenAt_run ops r.name
  rw [hseen, Option.join_some] at hrun
  rw [hrun]
  exact newest_spec _

open Regtest in
/-- An answer that comes late replaces nothing: the rung stays at the newer one. -/
theorem rung_latest_late :
    IsLatest [⟨a2.hash, 2, 20⟩, ⟨b1.hash, 1, 9⟩] ⟨a2.hash, 2, 20⟩ :=
  (rung_latest
    [.poll [(woc, some ⟨a2.hash, 2, 20⟩)] defaultSplitDepth,
      .poll [(woc, some ⟨b1.hash, 1, 9⟩)] defaultSplitDepth]
    ⟨"woc", "reference", some ⟨a2.hash, 2, 20⟩⟩ (by decide +kernel)).2 _ rfl

/-! ### What the decoder checks -/

/-- `i32::MAX`. -/
def i32Max : Nat := 2 ^ 31 - 1

/-- `valid_hash`: sixty-four hex digits. -/
def validHash (s : String) : Bool :=
  (asBytes s).length == 64 && (asBytes s).all fun b => (Hash32.hexDigit b).isSome

/-- `strip_prefix`. -/
def stripPrefix (pre s : String) : Option String :=
  if pre.toList.isPrefixOf s.toList then some (String.ofList (s.toList.drop pre.toList.length))
  else none

/-- `valid_split_key`. -/
def validSplitKey (key : String) (height : Nat) : Bool :=
  decide (0 < height) && decide (height ≤ i32Max) && (stripPrefix "split:" key).any validHash

/-- The check of one tip of a split, but for the text of its work: `decode` asks that of sixty-four
hex digits as well, which the writers of this version store and a row of an older one may not. -/
def SplitTip.valid (tip : SplitTip) (forkHeight : Nat) : Bool :=
  validHash tip.hash && decide (forkHeight ≤ tip.height) && decide (tip.height ≤ i32Max) &&
    !tip.rungs.isEmpty && tip.rungs.all (· != "") && decide (tip.rungs.IsChain (· < ·))

/-- What `decode` checks of the two kinds, but for the texts of the works. -/
def SplitEvent.valid : SplitEvent → Bool
  | split key forkHeight [a, b] =>
    validSplitKey key forkHeight && a.valid forkHeight && b.valid forkHeight && a.hash != b.hash &&
      a.rungs.all fun name => !b.rungs.contains name
  | split _ _ _ => false
  | splitResolved key forkHeight => validSplitKey key forkHeight

theorem stripPrefix_append (pre s : String) : stripPrefix pre (pre ++ s) = some s := by
  rw [stripPrefix, String.toList_append, if_pos (List.isPrefixOf_iff_prefix.mpr
    (List.prefix_append _ _)), List.drop_left, String.ofList_toList]

/-- The key of a fork point passes, where its hash and height do. -/
theorem validSplitKey_fork {fork : String} {height : Nat} (hfork : validHash fork = true)
    (hpos : 0 < height) (hle : height ≤ i32Max) : validSplitKey ("split:" ++ fork) height = true := by
  simp [validSplitKey, stripPrefix_append, hfork, hpos, hle]

/-! ### Every envelope of a run is read -/

/-- What a step is promised to bring: the guard of `finish_observations` lets no observation
above the heights through, the configured rungs have names, and the hashes in the store are
those of checked frames. -/
def SplitOp.WellFormed : SplitOp → Prop
  | .poll rungs _ => ∀ rung ∈ rungs, rung.1.name ≠ "" ∧ ∀ o ∈ rung.2, o.height ≤ i32Max
  | .chain headers _ => ∀ row ∈ headers.rows, validHash row.hash = true

/-- **What holds of the snapshot, the splits and their envelopes** in a run of such steps. -/
structure SplitDb.WellFormed (db : SplitDb) : Prop where
  hashes : ∀ row ∈ db.headers.rows, validHash row.hash = true
  names : ∀ r ∈ db.rungs.rows, r.name ≠ ""
  heights : ∀ r ∈ db.rungs.rows, ∀ o ∈ r.seen, o.height ≤ i32Max
  splits : ∀ s ∈ db.splits.rows, validSplitKey ("split:" ++ s.forkHash) s.forkHeight = true
  records : ∀ rec ∈ db.records, rec.event.valid = true

section WellFormed

variable {db : SplitDb} {p : RungPair} {s : Split}

theorem mem_foldl_newerSeen {obs : List Observation} {seen : Option Observation} {o : Observation}
    (h : obs.foldl newerSeen seen = some o) : o ∈ obs ∨ seen = some o := by
  induction obs generalizing seen with
  | nil => exact .inr h
  | cons x obs ih =>
    rcases ih h with hmem | hseen
    · exact .inl (List.mem_cons_of_mem _ hmem)
    · rw [newerSeen] at hseen
      split at hseen
      · cases hseen
        exact .inl List.mem_cons_self
      · exact .inr hseen

/-- A row after a poll: of a rung polled, at an observation polled or kept. -/
theorem RungTable.of_mem_recordRungs {t : RungTable} {r : RungRow}
    {rungs : List (RungDefinition × Option Observation)} (h : r ∈ (t.recordRungs rungs).rows) :
    (∃ rung ∈ rungs, rung.1.name = r.name) ∧ ∀ o ∈ r.seen,
      (∃ rung ∈ rungs, o ∈ rung.2) ∨ ∃ old ∈ t.rows, o ∈ old.seen := by
  have hseen := RungTable.seenAt_eq_some.mpr ⟨r, h, rfl, rfl⟩
  rw [RungTable.seenAt_recordRungs] at hseen
  split at hseen
  · rename_i hname
    refine ⟨List.mem_map.mp hname, fun o ho => ?_⟩
    rw [Option.mem_def.mp ho] at hseen
    rcases mem_foldl_newerSeen (Option.some_inj.mp hseen) with hobs | hold
    · obtain ⟨rung, hrung, ho⟩ := List.mem_filterMap.mp hobs
      exact .inl ⟨rung, (List.mem_filter.mp hrung).1, ho⟩
    · obtain ⟨old, hold, -, holdseen⟩ := RungTable.seenAt_eq_some.mp (Option.join_eq_some_iff.mp hold)
      exact .inr ⟨old, hold, holdseen⟩
  · cases hseen

/-- The rungs seen at a hash stand in the strict order of their names. -/
theorem SplitDb.namesAt_isChain (db : SplitDb) (hash : String) : (db.namesAt hash).IsChain (· < ·) := by
  have hsorted := (RungTable.byName_pairwise (t := db.rungs)).filter
    fun r => r.seen.any (·.hash == hash)
  have hmap : (db.namesAt hash).Pairwise (· < ·) :=
    List.pairwise_map.mpr (hsorted.imp fun h => of_decide_eq_true h)
  exact hmap.isChain

theorem SplitDb.mem_namesAt {hash name : String} : name ∈ db.namesAt hash ↔
    ∃ r ∈ db.rungs.rows, r.name = name ∧ ∃ o ∈ r.seen, o.hash = hash := by
  rw [SplitDb.namesAt, List.mem_map]
  refine exists_congr fun r => ?_
  rw [List.mem_filter, RungTable.mem_byName, Option.any_eq_true]
  simp only [beq_iff_eq, Option.mem_def]
  tauto

/-- A checked tip is where its rung was seen. -/
theorem SplitDb.checkedTip_seen {r : RungRow} {tip : HeaderRow} (h : db.checkedTip r = some tip) :
    ∃ o ∈ r.seen, o.hash = tip.hash ∧ o.height = tip.height := by
  rw [SplitDb.checkedTip, Option.bind_eq_some_iff] at h
  obtain ⟨o, ho, h⟩ := h
  rw [Option.filter_eq_some_iff] at h
  refine ⟨o, ho, (headerForHash_hash h.1).symm, ?_⟩
  have hall := h.2
  simp only [Bool.and_eq_true, beq_iff_eq] at hall
  exact hall.1.1.symm

/-- One tip of a deep pair passes the check. -/
theorem SplitDb.WellFormed.tip (h : db.WellFormed) {r : RungRow} {tip : HeaderRow} {height : Nat}
    (hr : r ∈ db.rungs.rows) (htip : db.checkedTip r = some tip) (hle : height ≤ tip.height) :
    (db.splitTip tip).valid height = true := by
  obtain ⟨o, ho, hhash, hheight⟩ := SplitDb.checkedTip_seen htip
  have hmax : tip.height ≤ i32Max := hheight ▸ h.heights r hr o ho
  have hown : r.name ∈ db.namesAt tip.hash := SplitDb.mem_namesAt.mpr ⟨r, hr, rfl, o, ho, hhash⟩
  have hnonempty : (db.namesAt tip.hash).isEmpty = false :=
    List.isEmpty_eq_false_iff.mpr (List.ne_nil_of_mem hown)
  have hnamed : (db.namesAt tip.hash).all (· != "") = true := by
    refine List.all_eq_true.mpr fun name hname => ?_
    obtain ⟨r', hr', rfl, -⟩ := SplitDb.mem_namesAt.mp hname
    exact bne_iff_ne.mpr (h.names r' hr')
  have hvalid := h.hashes tip (SplitDb.checkedTip_mem htip)
  simp only [SplitTip.valid, SplitDb.splitTip, hvalid, hnonempty, hnamed, Bool.not_false,
    Bool.and_eq_true]
  exact ⟨⟨⟨⟨⟨trivial, decide_eq_true hle⟩, decide_eq_true hmax⟩, trivial⟩, trivial⟩,
    decide_eq_true (db.namesAt_isChain tip.hash)⟩

/-- **The envelope a deep pair opens a split with is read.** -/
theorem SplitDb.WellFormed.opening (h : db.WellFormed) (hp : p ∈ db.rungPairs)
    (hdeep : p.deep db.depth = true) : (db.splitOf p).opening.event.valid = true ∧
      validSplitKey ("split:" ++ (db.splitOf p).forkHash) (db.splitOf p).forkHeight = true := by
  obtain ⟨l, hl, r, hr, -, hfork⟩ := SplitDb.mem_rungPairs.mp hp
  obtain ⟨-, -, hlt, hrt, hcommon⟩ := SplitDb.forkOf_eq_some.mp hfork
  have hdepth := db.depth.bounds.1
  simp only [RungPair.deep, Bool.and_eq_true, decide_eq_true_eq] at hdeep
  obtain ⟨hdl, hdr⟩ := hdeep
  have hmem : p.fork ∈ db.headers.rows := hcommon.left.mem (SplitDb.checkedTip_mem hlt)
  obtain ⟨o, ho, -, hheight⟩ := SplitDb.checkedTip_seen hlt
  have hmax : p.leftTip.height ≤ i32Max := hheight ▸ h.heights l hl o ho
  have hkey := validSplitKey_fork (h.hashes p.fork hmem) (Nat.succ_pos p.fork.height)
    ((show p.fork.height + 1 ≤ p.leftTip.height by omega).trans hmax)
  -- one header as both tips would be its own highest common ancestor
  have hne : p.leftTip.hash ≠ p.rightTip.hash := by
    intro heq
    have hsame := HeaderTable.eq_of_hash (SplitDb.checkedTip_mem hlt)
      (SplitDb.checkedTip_mem hrt) heq
    have hself : Reaches db.headers.rows p.leftTip p.leftTip := ⟨.refl _, Nat.le_add_right _ _⟩
    have := hcommon.top p.leftTip hself (hsame ▸ hself)
    omega
  have hdisjoint : ∀ name ∈ db.namesAt p.leftTip.hash, name ∉ db.namesAt p.rightTip.hash := by
    intro name hname hname'
    obtain ⟨a, ha, rfl, oa, hoa, hha⟩ := SplitDb.mem_namesAt.mp hname
    obtain ⟨b, hb, hab, ob, hob, hhb⟩ := SplitDb.mem_namesAt.mp hname'
    have hsame := RungTable.eq_of_name hb ha hab
    rw [hsame, hoa] at hob
    cases hob
    exact hne (hha.symm.trans hhb)
  have hleft := h.tip hl hlt (show p.fork.height + 1 ≤ p.leftTip.height by omega)
  have hright := h.tip hr hrt (show p.fork.height + 1 ≤ p.rightTip.height by omega)
  refine ⟨?_, hkey⟩
  simp only [Split.opening, SplitDb.splitOf, SplitEvent.valid, hkey, hleft, hright, Bool.true_and,
    Bool.and_eq_true, bne_iff_ne, List.all_eq_true]
  refine ⟨hne, fun name hname => ?_⟩
  simpa [SplitDb.splitTip] using hdisjoint name hname

/-- **One step keeps the envelopes readable.** -/
theorem SplitDb.WellFormed.step (h : db.WellFormed) {op : SplitOp} (hop : op.WellFormed) :
    (db.step op).WellFormed := by
  cases op with
  | chain headers sync => exact ⟨hop, h.names, h.heights, h.splits, h.records⟩
  | poll rungs depth =>
    -- the snapshot first, then the splits it opens, then those it resolves
    have hseen : ({ db with
        rungs := db.rungs.recordRungs rungs, depth, tick := db.tick + 1 } : SplitDb).WellFormed := by
      refine ⟨h.hashes, fun r hr => ?_, fun r hr o ho => ?_, h.splits, h.records⟩
      · obtain ⟨⟨rung, hrung, hname⟩, -⟩ := RungTable.of_mem_recordRungs hr
        exact hname ▸ (hop rung hrung).1
      · rcases (RungTable.of_mem_recordRungs hr).2 o ho with ⟨rung, hrung, ho⟩ | ⟨old, hold, ho⟩
        · exact (hop rung hrung).2 o ho
        · exact h.heights old hold o ho
    have hopen : ∀ (ss : List Split) (db' : SplitDb), db'.WellFormed →
        (∀ s ∈ ss, s.opening.event.valid = true ∧
          validSplitKey ("split:" ++ s.forkHash) s.forkHeight = true) →
        (ss.foldl SplitDb.openSplit db').WellFormed := by
      intro ss
      induction ss with
      | nil => exact fun _ h' _ => h'
      | cons s ss ih =>
        intro db' h' hss
        refine ih _ ?_ fun n hn => hss n (List.mem_cons_of_mem _ hn)
        obtain ⟨hvalid, hkey⟩ := hss s List.mem_cons_self
        unfold SplitDb.openSplit
        split
        · exact h'
        · refine ⟨h'.hashes, h'.names, h'.heights, fun n hn => ?_, fun rec hrec => ?_⟩
          · rcases List.mem_append.mp hn with hn | hn
            · exact h'.splits n hn
            · rw [List.mem_singleton.mp hn]
              exact hkey
          · rcases List.mem_append.mp hrec with hrec | hrec
            · exact h'.records rec hrec
            · rw [List.mem_singleton.mp hrec]
              exact hvalid
    have hopened := hopen _ _ hseen fun s hs => by
      obtain ⟨p, hp, rfl⟩ := List.mem_map.mp hs
      exact hseen.opening (List.mem_filter.mp hp).1 (List.mem_filter.mp hp).2
    refine ⟨hopened.hashes, hopened.names, hopened.heights, fun n hn => ?_, fun rec hrec => ?_⟩
    · obtain ⟨s, hs, rfl⟩ := List.mem_map.mp hn
      have hkey := hopened.splits s hs
      split <;> exact hkey
    · rcases List.mem_append.mp hrec with hrec | hrec
      · exact hopened.records rec hrec
      · obtain ⟨s, hs, rfl⟩ := List.mem_map.mp hrec
        exact hopened.splits s (List.mem_filter.mp hs).1

end WellFormed

/-- **Every split envelope of a run is read**: none the triggers write fails the decoder's
checks. -/
theorem split_envelopes_valid (ops : List SplitOp) (hops : ∀ op ∈ ops, op.WellFormed) :
    ∀ rec ∈ (splitRun ops).records, rec.event.valid = true := by
  have hrun : (splitRun ops).WellFormed := by
    induction ops using List.reverseRecOn with
    | nil =>
      refine ⟨?_, ?_, ?_, ?_, ?_⟩ <;> intro x hx <;> cases hx
    | append_singleton ops op ih =>
      rw [splitRun_concat]
      exact (ih fun op hop => hops op (List.mem_append_left _ hop)).step
        (hops op (List.mem_append_right _ (List.mem_singleton.mpr rfl)))
  exact hrun.records

open Regtest in
/-- The split of the two branches of a network. -/
theorem split_envelopes_valid_apart :
    ((splitRun [.chain forkTable Store.fresh.sync, rungsApart]).records.all fun rec =>
      rec.event.valid) = true := by
  refine List.all_eq_true.mpr (split_envelopes_valid _ fun op hop => ?_)
  have hhashes : ∀ row ∈ forkTable.rows, validHash row.hash = true := by decide +kernel
  rcases List.mem_cons.mp hop with rfl | hop
  · exact hhashes
  · rw [List.mem_singleton.mp hop]
    have hpoll : ∀ rung ∈ [(woc, some (⟨a1.hash, 1, 1⟩ : Observation)),
        (arcade, some ⟨b1.hash, 1, 1⟩)], rung.1.name ≠ "" ∧ ∀ o ∈ rung.2, o.height ≤ i32Max := by
      decide +kernel
    exact hpoll

end Chaintracks

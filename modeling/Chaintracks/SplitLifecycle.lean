import Chaintracks.Rungs

/-!
# The life of a split

What the detection is for is said here without its views. Two stored headers have a
highest common ancestor within the walk (`Chaintracks.HighestCommon`); two rungs whose
checked tips have one are *related* there (`Chaintracks.SplitDb.Related`); a fork point is
*held apart* at a depth when some two rungs related there both stand so deep above it
(`Chaintracks.SplitDb.HeldApart`), and *straddled* when they both stand above it at all.

A run is any sequence of polls, with anything in between that the writers of the headers and
the re-validation may do to the store. Over every run a fork point has one life in the
journal, a split and later its resolution, it begins at the first poll that holds the point
apart (`Chaintracks.phase_run_unsplit`), and it ends at the first poll from there on at which all
rungs are related and none straddle it. So no split ends while the ancestry of a rung is
unknown – unless that rung is the only one, which leaves no pair to relate
(`Chaintracks.splits_live_once`).
-/

namespace Chaintracks

open HeaderRows Forest

/-! ### Highest common ancestors -/

/-- The header is `a` or above it by parents' hashes, within the walk. -/
def Reaches (rows : List HeaderRow) (a f : HeaderRow) : Prop :=
  Up (parentByHash rows) a f ∧ a.height ≤ f.height + ancestryLimit

/-- The highest header that two headers both reach. -/
structure HighestCommon (rows : List HeaderRow) (a b f : HeaderRow) : Prop where
  left : Reaches rows a f
  right : Reaches rows b f
  top : ∀ g, Reaches rows a g → Reaches rows b g → g.height ≤ f.height

theorem HighestCommon.symm {rows : List HeaderRow} {a b f : HeaderRow}
    (h : HighestCommon rows a b f) : HighestCommon rows b a f :=
  ⟨h.right, h.left, fun g ha hb => h.top g hb ha⟩

/-- A walk by parents' hashes stays in the table. -/
theorem Reaches.mem {rows : List HeaderRow} {a f : HeaderRow} (h : Reaches rows a f)
    (ha : a ∈ rows) : f ∈ rows := by
  refine h.1.closed (fun x y _ hxy => ?_) ha
  rw [parentByHash, Option.filter_eq_some_iff] at hxy
  exact headerForHash_mem hxy.1

namespace SplitDb

variable (db : SplitDb)

/-- The two rungs' checked tips have this highest common ancestor. -/
def Related (l r : RungRow) (f : HeaderRow) : Prop :=
  ∃ lt rt, db.checkedTip l = some lt ∧ db.checkedTip r = some rt ∧
    HighestCommon db.headers.rows lt rt f

/-- Two rungs related at the header of this hash, both tips at least `d` above it. -/
def HeldApart (d : Nat) (fork : String) : Prop :=
  ∃ l ∈ db.rungs.rows, ∃ r ∈ db.rungs.rows, l ≠ r ∧ ∃ lt rt f,
    db.checkedTip l = some lt ∧ db.checkedTip r = some rt ∧
      HighestCommon db.headers.rows lt rt f ∧ f.hash = fork ∧
      f.height + d ≤ lt.height ∧ f.height + d ≤ rt.height

/-- Every two rungs are related. -/
def AllRelated : Prop :=
  ∀ l ∈ db.rungs.rows, ∀ r ∈ db.rungs.rows, l ≠ r → ∃ f, db.Related l r f

/-- The ancestry of every rung is known. -/
def AllKnown : Prop := ∀ r ∈ db.rungs.rows, (db.checkedTip r).isSome = true

variable {db} {l r : RungRow} {p : RungPair} {f : HeaderRow}

theorem checkedTip_mem {tip : HeaderRow} (h : db.checkedTip r = some tip) :
    tip ∈ db.headers.rows := by
  rw [checkedTip, Option.bind_eq_some_iff] at h
  obtain ⟨o, -, h⟩ := h
  rw [Option.filter_eq_some_iff] at h
  exact headerForHash_mem h.1

theorem mem_ancestry {a : HeaderRow} : f ∈ db.ancestry a ↔ Reaches db.headers.rows a f :=
  mem_trail_iff fun _ _ => parentByHash_height

/-- **The walks of two rungs first share a header at their highest common ancestor.** -/
theorem meeting_ancestry {a b : HeaderRow} (ha : a ∈ db.headers.rows) (hb : b ∈ db.headers.rows) :
    meeting (·.hash) (db.ancestry a) (db.ancestry b) = some f ↔
      HighestCommon db.headers.rows a b f := by
  have hsame : ∀ x ∈ db.ancestry a, (∃ y ∈ db.ancestry b, y.hash = x.hash) ↔
      Reaches db.headers.rows b x := by
    intro x hx
    constructor
    · rintro ⟨y, hy, hyx⟩
      have hmem := (mem_ancestry.mp hx).mem ha
      have hmem' := (mem_ancestry.mp hy).mem hb
      rw [← HeaderTable.eq_of_hash hmem' hmem hyx]
      exact mem_ancestry.mp hy
    · intro h
      exact ⟨x, mem_ancestry.mpr h, rfl⟩
  have hdown : (db.ancestry a).Pairwise fun a b => b.height < a.height :=
    trail_pairwise fun _ _ => parentByHash_height
  rw [meeting_eq_some_iff hdown]
  constructor
  · rintro ⟨hl, hr, htop⟩
    refine ⟨mem_ancestry.mp hl, (hsame f hl).mp hr, fun g hga hgb => ?_⟩
    have hg := mem_ancestry.mpr hga
    exact htop g hg ((hsame g hg).mpr hgb)
  · rintro ⟨hl, hr, htop⟩
    have hf := mem_ancestry.mpr hl
    refine ⟨hf, (hsame f hf).mpr hr, fun g hg hgb => ?_⟩
    exact htop g (mem_ancestry.mp hg) ((hsame g hg).mp hgb)

/-- **The pair of two rungs**, in the terms of their tips. -/
theorem forkOf_eq_some : db.forkOf l r = some p ↔
    p.left = l ∧ p.right = r ∧ db.checkedTip l = some p.leftTip ∧
      db.checkedTip r = some p.rightTip ∧
      HighestCommon db.headers.rows p.leftTip p.rightTip p.fork := by
  simp only [forkOf, Option.bind_eq_some_iff, Option.map_eq_some_iff]
  constructor
  · rintro ⟨lt, hl, rt, hr, f, hf, rfl⟩
    exact ⟨rfl, rfl, hl, hr, (meeting_ancestry (checkedTip_mem hl) (checkedTip_mem hr)).mp hf⟩
  · rintro ⟨rfl, rfl, hl, hr, hf⟩
    exact ⟨p.leftTip, hl, p.rightTip, hr, p.fork,
      (meeting_ancestry (checkedTip_mem hl) (checkedTip_mem hr)).mpr hf, rfl⟩

theorem isSome_forkOf : (db.forkOf l r).isSome = true ↔ ∃ f, db.Related l r f := by
  rw [Option.isSome_iff_exists]
  constructor
  · rintro ⟨p, hp⟩
    obtain ⟨-, -, hl, hr, hf⟩ := forkOf_eq_some.mp hp
    exact ⟨p.fork, p.leftTip, p.rightTip, hl, hr, hf⟩
  · rintro ⟨f, lt, rt, hl, hr, hf⟩
    exact ⟨⟨l, r, lt, rt, f⟩, forkOf_eq_some.mpr ⟨rfl, rfl, hl, hr, hf⟩⟩

end SplitDb

/-! ### The rows by name -/

namespace RungTable

variable {t : RungTable} {l r : RungRow}

theorem mem_byName : r ∈ t.byName ↔ r ∈ t.rows := List.mem_insertionSort _

theorem length_byName : t.byName.length = t.rows.length := List.length_insertionSort _ _

theorem eq_of_name (hl : l ∈ t.rows) (hr : r ∈ t.rows) (h : l.name = r.name) : l = r :=
  List.inj_on_of_nodup_map t.uniqueName hl hr h

/-- By name the rows stand in a strict order. -/
theorem byName_pairwise : t.byName.Pairwise fun l r => decide (l.name < r.name) = true := by
  have hsorted : t.byName.Pairwise fun l r => l.name ≤ r.name :=
    List.pairwise_insertionSort (fun l r : RungRow => l.name ≤ r.name) t.rows
  have hnd : t.byName.Pairwise fun l r => l.name ≠ r.name := by
    have := (List.perm_insertionSort (fun l r : RungRow => l.name ≤ r.name) t.rows).map (·.name)
    exact List.pairwise_map.mp (this.nodup_iff.mpr t.uniqueName)
  refine (hsorted.and hnd).imp fun h => ?_
  exact decide_eq_true (lt_of_le_of_ne h.1 h.2)

end RungTable

namespace SplitDb

variable {db : SplitDb} {p : RungPair}

theorem mem_rungPairs : p ∈ db.rungPairs ↔
    ∃ l ∈ db.rungs.rows, ∃ r ∈ db.rungs.rows, l.name < r.name ∧ db.forkOf l r = some p := by
  simp only [rungPairs, mem_pairsOf, RungTable.mem_byName, decide_eq_true_eq]

/-- Two rungs are a pair in one order or the other. -/
theorem forall_pairs {P : RungRow → RungRow → Prop} (hP : ∀ l r, P l r → P r l) :
    (∀ l ∈ db.rungs.rows, ∀ r ∈ db.rungs.rows, l.name < r.name → P l r) ↔
      ∀ l ∈ db.rungs.rows, ∀ r ∈ db.rungs.rows, l ≠ r → P l r := by
  constructor
  · intro h l hl r hr hne
    have hname : l.name ≠ r.name := fun he => hne (RungTable.eq_of_name hl hr he)
    rcases lt_or_gt_of_ne hname with hlt | hlt
    · exact h l hl r hr hlt
    · exact hP _ _ (h r hr l hl hlt)
  · intro h l hl r hr hlt
    exact h l hl r hr fun he => lt_irrefl _ (he ▸ hlt)

theorem Related.symm {l r : RungRow} {f : HeaderRow} (h : db.Related l r f) : db.Related r l f := by
  obtain ⟨lt, rt, hl, hr, hf⟩ := h
  exact ⟨rt, lt, hr, hl, hf.symm⟩

/-- **The count of the pairs tells whether all rungs are related.** -/
theorem allPaired_iff : db.allPaired = true ↔ db.AllRelated := by
  have hasymm : ∀ l r : RungRow, decide (l.name < r.name) = true →
      decide (r.name < l.name) = false := by
    intro l r h
    exact decide_eq_false (lt_asymm (of_decide_eq_true h))
  have hirrefl : ∀ r : RungRow, decide (r.name < r.name) = false :=
    fun r => decide_eq_false (lt_irrefl _)
  have hcount := (length_pairsOf (f := db.forkOf) (RungTable.byName_pairwise (t := db.rungs))
    hasymm hirrefl).2
  rw [RungTable.length_byName] at hcount
  rw [allPaired, beq_iff_eq, rungPairs, hcount, AllRelated,
    ← forall_pairs fun l r ⟨f, hf⟩ => ⟨f, hf.symm⟩]
  simp only [RungTable.mem_byName, decide_eq_true_eq, isSome_forkOf]

/-- **Some deep pair has its fork at a hash: the hash is held apart.** -/
theorem exists_deep_iff {depth : SplitDepth} {fork : String} :
    (∃ p ∈ db.rungPairs, p.deep depth = true ∧ p.fork.hash = fork) ↔
      db.HeldApart depth.blocks fork := by
  simp only [RungPair.deep, Bool.and_eq_true, decide_eq_true_eq]
  constructor
  · rintro ⟨p, hp, ⟨hdl, hdr⟩, rfl⟩
    obtain ⟨l, hl, r, hr, hlt, hp⟩ := mem_rungPairs.mp hp
    obtain ⟨-, -, hlt', hrt, hf⟩ := forkOf_eq_some.mp hp
    refine ⟨l, hl, r, hr, fun he => lt_irrefl _ (he ▸ hlt), ?_⟩
    exact ⟨p.leftTip, p.rightTip, p.fork, hlt', hrt, hf, rfl, hdl, hdr⟩
  · rintro ⟨l, hl, r, hr, hne, lt, rt, f, hlt, hrt, hf, rfl, hdl, hdr⟩
    have hname : l.name ≠ r.name := fun he => hne (RungTable.eq_of_name hl hr he)
    rcases lt_or_gt_of_ne hname with hord | hord
    · refine ⟨⟨l, r, lt, rt, f⟩, mem_rungPairs.mpr ⟨l, hl, r, hr, hord, ?_⟩, ⟨hdl, hdr⟩, rfl⟩
      exact forkOf_eq_some.mpr ⟨rfl, rfl, hlt, hrt, hf⟩
    · refine ⟨⟨r, l, rt, lt, f⟩, mem_rungPairs.mpr ⟨r, hr, l, hl, hord, ?_⟩, ⟨hdr, hdl⟩, rfl⟩
      exact forkOf_eq_some.mpr ⟨rfl, rfl, hrt, hlt, hf.symm⟩

/-- To straddle a fork is to hold it apart at depth one. -/
theorem exists_straddles_iff {fork : String} :
    db.rungPairs.any (·.straddles fork) = true ↔ db.HeldApart 1 fork := by
  rw [← @exists_deep_iff _ ⟨1, by decide⟩, List.any_eq_true]
  refine exists_congr fun p => and_congr_right fun _ => ?_
  simp only [RungPair.straddles, RungPair.deep, Bool.and_eq_true, beq_iff_eq, decide_eq_true_eq]
  exact ⟨fun h => ⟨⟨h.1.2, h.2⟩, h.1.1⟩, fun h => ⟨⟨h.2, h.1.1⟩, h.1.2⟩⟩

/-- **What the second statement resolves.** -/
theorem settles_iff {s : Split} :
    db.settles s = true ↔ s.resolved = false ∧ db.AllRelated ∧ ¬db.HeldApart 1 s.forkHash := by
  rw [← allPaired_iff, ← exists_straddles_iff]
  simp [settles, and_assoc]

end SplitDb

/-! ### What a poll does -/

/-- The key of an envelope. -/
def SplitEvent.key : SplitEvent → String
  | split key _ _ => key
  | splitResolved key _ => key

/-- The split of a fork point, if it has had one. -/
def SplitTable.at (t : SplitTable) (fork : String) : Option Split :=
  t.rows.find? fun s => s.forkHash == fork

/-- What the journal tells of a fork point. -/
def SplitDb.lifeOf (db : SplitDb) (fork : String) : List SplitRecord :=
  db.records.filter fun rec => rec.event.key == "split:" ++ fork

/-- What the journal should tell of a fork point: nothing, or its split, and its resolution
once it is resolved. -/
def lifeOfSplit : Option Split → List SplitRecord
  | none => []
  | some s => if s.resolved then [s.opening, s.resolution] else [s.opening]

section Detection

variable {db : SplitDb} {s : Split} {fork : String}

theorem splitKey_beq (a b : String) : ("split:" ++ a == "split:" ++ b) = (a == b) := by
  rw [Bool.eq_iff_iff, beq_iff_eq, beq_iff_eq, String.append_right_inj]

theorem SplitTable.filter_fork (t : SplitTable) (fork : String) :
    (t.rows.filter fun s => s.forkHash == fork) = (t.at fork).toList := by
  obtain ⟨rows, hnd⟩ := t
  induction rows with
  | nil => rfl
  | cons s rows ih =>
    rw [List.map_cons, List.nodup_cons] at hnd
    by_cases hs : s.forkHash = fork
    · have hnone : rows.filter (fun s => s.forkHash == fork) = [] := by
        refine List.filter_eq_nil_iff.mpr fun r hr h => ?_
        exact hnd.1 (List.mem_map.mpr ⟨r, hr, (beq_iff_eq.mp h).trans hs.symm⟩)
      simp [SplitTable.at, hs, hnone]
    · simpa [SplitTable.at, hs] using ih hnd.2

theorem SplitTable.at_eq_some {t : SplitTable} :
    t.at fork = some s ↔ s ∈ t.rows ∧ s.forkHash = fork := by
  have h : s ∈ (t.rows.filter fun s => s.forkHash == fork) ↔ s ∈ (t.at fork).toList := by
    rw [t.filter_fork fork]
  rw [List.mem_filter, beq_iff_eq, Option.mem_toList] at h
  exact h.symm

theorem SplitTable.at_eq_none {t : SplitTable} : t.at fork = none ↔ fork ∉ t.forks := by
  simp [SplitTable.at, SplitTable.forks, List.find?_eq_none]

theorem SplitTable.at_resolve (t : SplitTable) (settles : Split → Bool) (fork : String) :
    (t.resolve settles).at fork =
      (t.at fork).map fun s => if settles s then { s with resolved := true } else s := by
  rw [SplitTable.at, SplitTable.resolve, List.find?_map]
  refine congrArg _ (List.find?_congr fun s _ => ?_)
  dsimp only [Function.comp_apply]
  split <;> rfl

/-- The openings of some splits, those of a fork point. -/
theorem filter_opening (l : List Split) :
    ((l.map Split.opening).filter fun rec => rec.event.key == "split:" ++ fork) =
      (l.filter fun s => s.forkHash == fork).map Split.opening := by
  rw [List.filter_map]
  refine congrArg _ (List.filter_congr fun s _ => ?_)
  exact splitKey_beq s.forkHash fork

theorem filter_resolution (l : List Split) :
    ((l.map Split.resolution).filter fun rec => rec.event.key == "split:" ++ fork) =
      (l.filter fun s => s.forkHash == fork).map Split.resolution := by
  rw [List.filter_map]
  refine congrArg _ (List.filter_congr fun s _ => ?_)
  exact splitKey_beq s.forkHash fork

/-- **The journal tells the splits**: of every fork point what its row says. -/
def SplitDb.Told (db : SplitDb) : Prop := ∀ fork, db.lifeOf fork = lifeOfSplit (db.splits.at fork)

theorem SplitDb.Told.openSplit (h : db.Told) (hs : s.resolved = false) : (db.openSplit s).Told := by
  intro fork
  unfold SplitDb.openSplit
  split
  · exact h fork
  · rename_i hnew
    have hlife := h fork
    rw [SplitDb.lifeOf] at hlife ⊢
    rw [List.filter_append, hlife]
    have hone := @filter_opening fork [s]
    rw [List.map_singleton] at hone
    rw [hone]
    by_cases hf : s.forkHash = fork
    · have hnone : db.splits.at fork = none := SplitTable.at_eq_none.mpr (hf ▸ hnew)
      rw [SplitTable.at] at hnone
      simp [hnone, SplitTable.at, lifeOfSplit, hf, hs]
    · have hat : (db.splits.rows ++ [s]).find? (fun s => s.forkHash == fork) =
          db.splits.rows.find? fun s => s.forkHash == fork := by
        rw [List.find?_append]
        simp [hf]
      simp [SplitTable.at, hat, hf]

theorem SplitDb.Told.resolveSplits (h : db.Told) : db.resolveSplits.Told := by
  intro fork
  change (db.records ++ _).filter _ = lifeOfSplit ((db.splits.resolve db.settles).at fork)
  rw [SplitTable.at_resolve, List.filter_append, filter_resolution, List.filter_comm, SplitTable.filter_fork]
  have hlife := h fork
  rw [SplitDb.lifeOf] at hlife
  rw [hlife]
  cases db.splits.at fork with
  | none => rfl
  | some s =>
    by_cases hs : db.settles s = true
    · have hopen : s.resolved = false := (SplitDb.settles_iff.mp hs).1
      simp [hs, hopen, lifeOfSplit, Split.opening, Split.resolution]
    · simp [hs]

end Detection

/-! ### The phases of a fork point -/

/-- Where a fork point stands. -/
inductive SplitPhase
  | unsplit
  | isOpen
  | resolved
  deriving DecidableEq

/-- The phase a row of `chain_splits` tells. -/
def phaseOfSplit : Option Split → SplitPhase
  | none => .unsplit
  | some s => if s.resolved then .resolved else .isOpen

/-- The phase of a fork point in a database. -/
def SplitDb.phase (db : SplitDb) (fork : String) : SplitPhase := phaseOfSplit (db.splits.at fork)

open Classical in
/-- **What one poll does to a fork point**, in the terms of what is known after the snapshot. -/
noncomputable def SplitPhase.next (db : SplitDb) (depth : Nat) (fork : String) :
    SplitPhase → SplitPhase
  | unsplit => if db.HeldApart depth fork then isOpen else unsplit
  | isOpen => if db.AllRelated ∧ ¬db.HeldApart 1 fork then resolved else isOpen
  | resolved => resolved

/-- What the detection leaves alone, and that it only adds to the journal. -/
structure SplitDb.Keeps (db db' : SplitDb) : Prop where
  headers : db'.headers = db.headers
  sync : db'.sync = db.sync
  rungs : db'.rungs = db.rungs
  depth : db'.depth = db.depth
  records : db.records <+: db'.records

section Phases

variable {db db' db'' : SplitDb} {s : Split} {ss : List Split} {fork : String}

theorem SplitDb.Keeps.refl (db : SplitDb) : db.Keeps db :=
  ⟨rfl, rfl, rfl, rfl, List.prefix_refl _⟩

theorem SplitDb.Keeps.trans (h : db.Keeps db') (h' : db'.Keeps db'') : db.Keeps db'' where
  headers := h'.headers.trans h.headers
  sync := h'.sync.trans h.sync
  rungs := h'.rungs.trans h.rungs
  depth := h'.depth.trans h.depth
  records := h.records.trans h'.records

theorem SplitDb.Keeps.heldApart (h : db.Keeps db') (d : Nat) :
    db'.HeldApart d fork ↔ db.HeldApart d fork := by
  simp only [SplitDb.HeldApart, SplitDb.checkedTip, h.headers, h.sync, h.rungs]

theorem SplitDb.Keeps.allRelated (h : db.Keeps db') : db'.AllRelated ↔ db.AllRelated := by
  simp only [SplitDb.AllRelated, SplitDb.Related, SplitDb.checkedTip, h.headers, h.sync, h.rungs]

/-- A fork held apart is straddled. -/
theorem SplitDb.HeldApart.straddled {d : Nat} (h : db.HeldApart d fork) (hd : 1 ≤ d) :
    db.HeldApart 1 fork := by
  obtain ⟨l, hl, r, hr, hne, lt, rt, f, hlt, hrt, hf, hhash, hdl, hdr⟩ := h
  exact ⟨l, hl, r, hr, hne, lt, rt, f, hlt, hrt, hf, hhash, by omega, by omega⟩

theorem SplitDb.openSplit_keeps (db : SplitDb) (s : Split) : db.Keeps (db.openSplit s) := by
  unfold SplitDb.openSplit
  split
  · exact .refl db
  · exact ⟨rfl, rfl, rfl, rfl, List.prefix_append _ _⟩

theorem SplitDb.foldl_openSplit_keeps (ss : List Split) (db : SplitDb) :
    db.Keeps (ss.foldl SplitDb.openSplit db) := by
  induction ss generalizing db with
  | nil => exact .refl db
  | cons s ss ih => exact (db.openSplit_keeps s).trans (ih _)

theorem SplitDb.resolveSplits_keeps (db : SplitDb) : db.Keeps db.resolveSplits :=
  ⟨rfl, rfl, rfl, rfl, List.prefix_append _ _⟩

theorem SplitDb.detect_keeps (db : SplitDb) : db.Keeps db.detect :=
  (foldl_openSplit_keeps _ db).trans (resolveSplits_keeps _)

theorem SplitDb.phase_eq_unsplit : db.phase fork = .unsplit ↔ fork ∉ db.splits.forks := by
  rw [← SplitTable.at_eq_none, SplitDb.phase]
  cases db.splits.at fork with
  | none => simp [phaseOfSplit]
  | some s =>
    rw [phaseOfSplit]
    split <;> simp

/-- An unresolved split inserted opens its fork point, where that was unsplit. -/
theorem SplitDb.phase_openSplit (hs : s.resolved = false) :
    (db.openSplit s).phase fork =
      if db.phase fork = .unsplit ∧ s.forkHash = fork then .isOpen else db.phase fork := by
  by_cases hnew : s.forkHash ∈ db.splits.forks
  · have hsame : db.openSplit s = db := dif_pos hnew
    rw [hsame, if_neg]
    rintro ⟨hun, rfl⟩
    exact SplitDb.phase_eq_unsplit.mp hun hnew
  · have hrows : (db.openSplit s).splits.rows = db.splits.rows ++ [s] := by
      rw [SplitDb.openSplit, dif_neg hnew]
    by_cases hf : s.forkHash = fork
    · have hun : db.phase fork = .unsplit := SplitDb.phase_eq_unsplit.mpr (hf ▸ hnew)
      have hnone : db.splits.at fork = none := SplitTable.at_eq_none.mpr (hf ▸ hnew)
      rw [SplitTable.at] at hnone
      rw [if_pos ⟨hun, hf⟩, SplitDb.phase, SplitTable.at, hrows, List.find?_append, hnone]
      simp [hf, phaseOfSplit, hs]
    · rw [if_neg fun h => hf h.2, SplitDb.phase, SplitTable.at, hrows, List.find?_append]
      simp [hf, SplitDb.phase, SplitTable.at]

theorem SplitDb.phase_foldl_openSplit (hss : ∀ s ∈ ss, s.resolved = false) (db : SplitDb) :
    (ss.foldl SplitDb.openSplit db).phase fork =
      if db.phase fork = .unsplit ∧ fork ∈ ss.map (·.forkHash) then .isOpen else db.phase fork := by
  induction ss generalizing db with
  | nil => simp
  | cons s ss ih =>
    rw [List.foldl_cons, ih (fun s hs => hss s (List.mem_cons_of_mem _ hs)),
      phase_openSplit (hss s List.mem_cons_self)]
    simp only [List.map_cons, List.mem_cons]
    by_cases hun : db.phase fork = .unsplit
    · by_cases hf : s.forkHash = fork
      · simp [hun, hf]
      · simp [hun, hf, Ne.symm hf]
    · simp [hun]

open Classical in
theorem SplitDb.phase_resolveSplits (db : SplitDb) :
    db.resolveSplits.phase fork =
      if db.phase fork = .isOpen ∧ db.AllRelated ∧ ¬db.HeldApart 1 fork then .resolved
      else db.phase fork := by
  have hat : db.resolveSplits.splits.at fork =
      (db.splits.at fork).map fun s => if db.settles s then { s with resolved := true } else s :=
    SplitTable.at_resolve _ _ _
  rw [SplitDb.phase, SplitDb.phase, hat]
  cases h : db.splits.at fork with
  | none => simp [phaseOfSplit]
  | some s =>
    obtain ⟨-, rfl⟩ := SplitTable.at_eq_some.mp h
    by_cases hs : db.settles s = true
    · have hspec := SplitDb.settles_iff.mp hs
      have hopen : phaseOfSplit (some s) = .isOpen := by simp [phaseOfSplit, hspec.1]
      rw [if_pos ⟨hopen, hspec.2⟩]
      simp [hs, phaseOfSplit]
    · rw [if_neg]
      · simp [hs]
      · rintro ⟨hopen, hrest⟩
        refine hs (SplitDb.settles_iff.mpr ⟨?_, hrest⟩)
        by_contra hres
        rw [phaseOfSplit, if_pos (by simpa using hres)] at hopen
        cases hopen

/-- **A poll takes every fork point to its next phase.** -/
theorem SplitDb.phase_record (db : SplitDb) (rungs : List (RungDefinition × Option Observation))
    (depth : SplitDepth) (fork : String) :
    (db.record rungs depth).phase fork =
      (db.phase fork).next (db.record rungs depth) depth.blocks fork := by
  classical
  generalize hseen : ({ db with
    rungs := db.rungs.recordRungs rungs, depth, tick := db.tick + 1 } : SplitDb) = seen
  have hphase : seen.phase fork = db.phase fork := by rw [← hseen]; rfl
  have hdepth : seen.depth = depth := by rw [← hseen]
  have hkeeps := seen.detect_keeps
  have hopens : seen.openSplits.phase fork =
      if seen.phase fork = .unsplit ∧ seen.HeldApart depth.blocks fork then .isOpen
      else seen.phase fork := by
    have hfork : fork ∈ ((seen.rungPairs.filter (·.deep seen.depth)).map seen.splitOf).map
        (·.forkHash) ↔ seen.HeldApart depth.blocks fork := by
      rw [← SplitDb.exists_deep_iff, hdepth]
      simp [SplitDb.splitOf, List.mem_filter, and_assoc]
    have hunresolved : ∀ s ∈ (seen.rungPairs.filter (·.deep seen.depth)).map seen.splitOf,
        s.resolved = false := by
      intro s hs
      obtain ⟨p, -, rfl⟩ := List.mem_map.mp hs
      rfl
    rw [SplitDb.openSplits, SplitDb.phase_foldl_openSplit hunresolved]
    simp only [hfork]
  have hopensKeeps : seen.Keeps seen.openSplits := SplitDb.foldl_openSplit_keeps _ seen
  have hdetect : db.record rungs depth = seen.openSplits.resolveSplits := by
    rw [← hseen]
    rfl
  have hkeeps' : seen.Keeps (db.record rungs depth) := hdetect ▸ hkeeps
  rw [hdetect, SplitDb.phase_resolveSplits, hopens, hopensKeeps.allRelated, hopensKeeps.heldApart,
    hphase, ← hdetect]
  cases hp : db.phase fork with
  | unsplit =>
    by_cases hapart : seen.HeldApart depth.blocks fork
    · simp [SplitPhase.next, hkeeps'.heldApart, hapart, hapart.straddled depth.bounds.1]
    · simp [SplitPhase.next, hkeeps'.heldApart, hapart]
  | isOpen => simp [SplitPhase.next, hkeeps'.heldApart, hkeeps'.allRelated]
  | resolved => simp [SplitPhase.next]

end Phases

/-! ### Runs -/

/-- What happens: a poll, or anything the writers of the headers and the re-validation leave. -/
inductive SplitOp
  | poll (rungs : List (RungDefinition × Option Observation)) (depth : SplitDepth)
  | chain (headers : HeaderTable) (sync : SyncState)

/-- One of these. -/
def SplitDb.step (db : SplitDb) : SplitOp → SplitDb
  | .poll rungs depth => db.record rungs depth
  | .chain headers sync => { db with headers, sync }

/-- The database a run leaves. -/
def splitRun (ops : List SplitOp) : SplitDb := ops.foldl SplitDb.step .fresh

/-- What a step after a run journals of a fork point. -/
def journalled (before : List SplitOp) (op : SplitOp) (fork : String) : List SplitRecord :=
  ((splitRun (before ++ [op])).records.drop (splitRun before).records.length).filter
    fun rec => rec.event.key == "split:" ++ fork

/-- The envelope is a split's. -/
def SplitEvent.isSplit : SplitEvent → Bool
  | split _ _ _ => true
  | splitResolved _ _ => false

/-- Some poll of the run held the fork point apart, at its depth. -/
def HeldApartIn (ops : List SplitOp) (fork : String) : Prop :=
  ∃ before rungs depth, before ++ [.poll rungs depth] <+: ops ∧
    (splitRun (before ++ [.poll rungs depth])).HeldApart depth.blocks fork

section SplitRuns

variable {before ops : List SplitOp} {op : SplitOp} {fork : String} {db : SplitDb}

theorem splitRun_concat (ops : List SplitOp) (op : SplitOp) :
    splitRun (ops ++ [op]) = (splitRun ops).step op := by
  rw [splitRun, List.foldl_append]
  rfl

theorem SplitDb.Told.foldl_openSplit {ss : List Split} (hss : ∀ s ∈ ss, s.resolved = false)
    (h : db.Told) : (ss.foldl SplitDb.openSplit db).Told := by
  induction ss generalizing db with
  | nil => exact h
  | cons s ss ih =>
    exact ih (fun s hs => hss s (List.mem_cons_of_mem _ hs)) (h.openSplit (hss s List.mem_cons_self))

theorem SplitDb.Told.step (h : db.Told) (op : SplitOp) : (db.step op).Told := by
  cases op with
  | chain headers sync => exact h
  | poll rungs depth =>
    refine SplitDb.Told.resolveSplits (SplitDb.Told.foldl_openSplit ?_ ?_)
    · intro s hs
      obtain ⟨p, -, rfl⟩ := List.mem_map.mp hs
      rfl
    · exact h

/-- **The journal tells the splits after every run.** -/
theorem told_run (ops : List SplitOp) : (splitRun ops).Told := by
  induction ops using List.reverseRecOn with
  | nil => exact fun fork => rfl
  | append_singleton ops op ih =>
    rw [splitRun_concat]
    exact ih.step op

theorem SplitDb.step_records (db : SplitDb) (op : SplitOp) : db.records <+: (db.step op).records := by
  cases op with
  | chain headers sync => exact List.prefix_refl _
  | poll rungs depth =>
    exact (SplitDb.detect_keeps
      { db with rungs := db.rungs.recordRungs rungs, depth, tick := db.tick + 1 }).records

/-- What the journal tells of a fork point grows by what the step journals. -/
theorem lifeOf_concat (before : List SplitOp) (op : SplitOp) (fork : String) :
    (splitRun (before ++ [op])).lifeOf fork =
      (splitRun before).lifeOf fork ++ journalled before op fork := by
  have hgrows := (splitRun before).step_records op
  rw [← splitRun_concat] at hgrows
  obtain ⟨new, hnew⟩ := hgrows
  rw [SplitDb.lifeOf, SplitDb.lifeOf, journalled, ← hnew, List.filter_append, List.drop_left]

/-- What is journalled of a fork point tells its change of phase. -/
theorem lifeOfSplit_grows {o o' : Option Split} {new : List SplitRecord}
    (h : lifeOfSplit o' = lifeOfSplit o ++ new)
    (hskip : phaseOfSplit o = .unsplit → phaseOfSplit o' ≠ .resolved) :
    ((∃ rec ∈ new, rec.event.isSplit = true) ↔
        phaseOfSplit o = .unsplit ∧ phaseOfSplit o' = .isOpen) ∧
      ((∃ rec ∈ new, rec.event.isSplit = false) ↔
        phaseOfSplit o = .isOpen ∧ phaseOfSplit o' = .resolved) := by
  have hopening : ∀ s : Split, s.opening.event.isSplit = true := fun s => rfl
  have hresolution : ∀ s : Split, s.resolution.event.isSplit = false := fun s => rfl
  have hlife : ∀ s : Split, lifeOfSplit (some s) =
      if s.resolved then [s.opening, s.resolution] else [s.opening] := fun s => rfl
  have hphase : ∀ s : Split, phaseOfSplit (some s) =
      if s.resolved then .resolved else .isOpen := fun s => rfl
  cases o with
  | none =>
    rw [show lifeOfSplit none = [] from rfl, List.nil_append] at h
    subst h
    cases o' with
    | none => simp [lifeOfSplit, phaseOfSplit]
    | some s' =>
      cases hs' : s'.resolved with
      | true => exact absurd (by rw [hphase, hs']; rfl) (hskip rfl)
      | false => simp [hlife, hs', hopening, phaseOfSplit]
  | some s =>
    cases o' with
    | none =>
      rw [hlife] at h
      split at h <;> cases h
    | some s' =>
      cases hs : s.resolved <;> cases hs' : s'.resolved <;>
        simp only [hlife, hphase, hs, hs', if_true, if_false, Bool.false_eq_true, List.cons_append,
          List.nil_append, List.cons.injEq] at h ⊢
      · simp [← h.2]
      · simp [← h.2, hresolution]
      · exact absurd h.2 (by simp)
      · simp [← h.2.2]

theorem phase_chain (before : List SplitOp) (headers : HeaderTable) (sync : SyncState) :
    (splitRun (before ++ [.chain headers sync])).phase fork = (splitRun before).phase fork := by
  rw [splitRun_concat]
  rfl

theorem phase_poll (before : List SplitOp) (rungs : List (RungDefinition × Option Observation))
    (depth : SplitDepth) :
    (splitRun (before ++ [.poll rungs depth])).phase fork =
      ((splitRun before).phase fork).next (splitRun (before ++ [.poll rungs depth]))
        depth.blocks fork := by
  rw [splitRun_concat]
  exact SplitDb.phase_record _ rungs depth fork

/-- **What a step journals tells the change of phase.** -/
theorem journalled_iff (before : List SplitOp) (op : SplitOp) (fork : String) :
    ((∃ rec ∈ journalled before op fork, rec.event.isSplit = true) ↔
        (splitRun before).phase fork = .unsplit ∧
          (splitRun (before ++ [op])).phase fork = .isOpen) ∧
      ((∃ rec ∈ journalled before op fork, rec.event.isSplit = false) ↔
        (splitRun before).phase fork = .isOpen ∧
          (splitRun (before ++ [op])).phase fork = .resolved) := by
  have hgrows := lifeOf_concat before op fork
  rw [told_run, told_run] at hgrows
  refine lifeOfSplit_grows hgrows fun hun => ?_
  change (splitRun before).phase fork = .unsplit at hun
  change (splitRun (before ++ [op])).phase fork ≠ .resolved
  cases op with
  | chain headers sync =>
    rw [phase_chain, hun]
    decide
  | poll rungs depth =>
    rw [phase_poll, hun, SplitPhase.next]
    split <;> decide

/-- Some poll of a longer run. -/
theorem heldApartIn_concat : HeldApartIn (ops ++ [op]) fork ↔ HeldApartIn ops fork ∨
    ∃ rungs depth, op = .poll rungs depth ∧
      (splitRun (ops ++ [op])).HeldApart depth.blocks fork := by
  constructor
  · rintro ⟨before, rungs, depth, hprefix, hheld⟩
    rcases List.prefix_concat_iff.mp hprefix with heq | hprefix
    · obtain ⟨rfl, rfl⟩ := List.append_singleton_inj.mp heq
      exact .inr ⟨rungs, depth, rfl, hheld⟩
    · exact .inl ⟨before, rungs, depth, hprefix, hheld⟩
  · rintro (⟨before, rungs, depth, hprefix, hheld⟩ | ⟨rungs, depth, rfl, hheld⟩)
    · exact ⟨before, rungs, depth, hprefix.trans (List.prefix_append _ _), hheld⟩
    · exact ⟨ops, rungs, depth, List.prefix_refl _, hheld⟩

/-- **A fork point has had a split once a poll has held it apart.** -/
theorem phase_run_unsplit (ops : List SplitOp) (fork : String) :
    (splitRun ops).phase fork = .unsplit ↔ ¬HeldApartIn ops fork := by
  induction ops using List.reverseRecOn with
  | nil =>
    refine iff_of_true rfl ?_
    rintro ⟨before, rungs, depth, hprefix, -⟩
    exact absurd (List.prefix_nil.mp hprefix) (by simp)
  | append_singleton ops op ih =>
    rw [heldApartIn_concat]
    cases op with
    | chain headers sync =>
      rw [phase_chain, ih]
      simp
    | poll rungs depth =>
      rw [phase_poll]
      by_cases hun : (splitRun ops).phase fork = .unsplit
      · rw [hun, SplitPhase.next]
        have hnot := ih.mp hun
        split
        · rename_i hheld
          exact iff_of_false (by decide) (not_not.mpr (.inr ⟨rungs, depth, rfl, hheld⟩))
        · rename_i hheld
          refine iff_of_true rfl ?_
          rintro (h | ⟨rungs', depth', heq, h⟩)
          · exact hnot h
          · cases heq
            exact hheld h
      · have hin : HeldApartIn ops fork := not_not.mp (mt ih.mpr hun)
        refine iff_of_false ?_ (not_not.mpr (.inl hin))
        cases hp : (splitRun ops).phase fork with
        | unsplit => exact absurd hp hun
        | isOpen =>
          rw [SplitPhase.next]
          split <;> decide
        | resolved =>
          rw [SplitPhase.next]
          decide

/-- Some poll of the run came after one that held the fork point apart, and found all rungs
related and none straddling it. -/
def SettledIn (ops : List SplitOp) (fork : String) : Prop :=
  ∃ before rungs depth, before ++ [.poll rungs depth] <+: ops ∧ HeldApartIn before fork ∧
    (splitRun (before ++ [.poll rungs depth])).AllRelated ∧
      ¬(splitRun (before ++ [.poll rungs depth])).HeldApart 1 fork

theorem settledIn_concat : SettledIn (ops ++ [op]) fork ↔ SettledIn ops fork ∨
    ∃ rungs depth, op = .poll rungs depth ∧ HeldApartIn ops fork ∧
      (splitRun (ops ++ [op])).AllRelated ∧ ¬(splitRun (ops ++ [op])).HeldApart 1 fork := by
  constructor
  · rintro ⟨before, rungs, depth, hprefix, hrest⟩
    rcases List.prefix_concat_iff.mp hprefix with heq | hprefix
    · obtain ⟨rfl, rfl⟩ := List.append_singleton_inj.mp heq
      exact .inr ⟨rungs, depth, rfl, hrest⟩
    · exact .inl ⟨before, rungs, depth, hprefix, hrest⟩
  · rintro (⟨before, rungs, depth, hprefix, hrest⟩ | ⟨rungs, depth, rfl, hrest⟩)
    · exact ⟨before, rungs, depth, hprefix.trans (List.prefix_append _ _), hrest⟩
    · exact ⟨ops, rungs, depth, List.prefix_refl _, hrest⟩

/-- **A split is resolved once a later poll has found it settled.** -/
theorem phase_run_resolved (ops : List SplitOp) (fork : String) :
    (splitRun ops).phase fork = .resolved ↔ SettledIn ops fork := by
  induction ops using List.reverseRecOn with
  | nil =>
    have hfresh : (splitRun []).phase fork = .unsplit := rfl
    rw [hfresh]
    refine iff_of_false (by decide) ?_
    rintro ⟨before, rungs, depth, hprefix, -⟩
    exact absurd (List.prefix_nil.mp hprefix) (by simp)
  | append_singleton ops op ih =>
    rw [settledIn_concat]
    cases op with
    | chain headers sync =>
      rw [phase_chain, ih]
      simp
    | poll rungs depth =>
      rw [phase_poll, ← ih]
      have hheld := phase_run_unsplit ops fork
      cases hp : (splitRun ops).phase fork with
      | unsplit =>
        rw [SplitPhase.next]
        have hnot := hheld.mp hp
        refine iff_of_false (by split <;> decide) ?_
        rintro (h | ⟨-, -, -, h, -⟩)
        · cases h
        · exact hnot h
      | isOpen =>
        have hin : HeldApartIn ops fork := not_not.mp (mt hheld.mpr (by rw [hp]; decide))
        rw [SplitPhase.next]
        split
        · rename_i hends
          exact iff_of_true rfl (.inr ⟨rungs, depth, rfl, hin, hends⟩)
        · rename_i hends
          refine iff_of_false (by decide) ?_
          rintro (h | ⟨rungs', depth', heq, -, h⟩)
          · cases h
          · exact hends h
      | resolved => exact iff_of_true rfl (.inl rfl)

end SplitRuns

/-! ### The life of a split -/

/-- The rungs' ancestry is known where all are related, unless there is one rung only. -/
theorem SplitDb.AllRelated.allKnown {db : SplitDb} (h : db.AllRelated)
    (hlone : ∀ r, db.rungs.rows = [r] → (db.checkedTip r).isSome = true) : db.AllKnown := by
  intro r hr
  by_cases hother : ∃ l ∈ db.rungs.rows, r ≠ l
  · obtain ⟨l, hl, hne⟩ := hother
    obtain ⟨f, rt, lt, hrt, -⟩ := h r hr l hl hne
    rw [hrt]
    rfl
  · refine hlone r ?_
    have hall : ∀ l ∈ db.rungs.rows, l = r := by
      intro l hl
      by_contra hne
      exact hother ⟨l, hl, Ne.symm hne⟩
    have hrows := List.eq_replicate_of_mem hall
    have hnd : db.rungs.rows.Nodup := List.Nodup.of_map _ db.rungs.uniqueName
    rw [hrows, List.nodup_replicate] at hnd
    have hpos := List.length_pos_of_mem hr
    rw [hrows, show db.rungs.rows.length = 1 by omega]
    rfl

/-- **The life of the splits of a run**: each fork point has at most one split and at most one
resolution, in this order; the split is journalled by the first poll that holds the point
apart; and a resolution only by a poll after which every two rungs are related, none straddle
the point, and the ancestry of every rung is known. -/
structure SplitLifecycle (ops : List SplitOp) : Prop where
  once : ∀ fork, (splitRun ops).lifeOf fork = [] ∨ ∃ s : Split, s.forkHash = fork ∧
    ((splitRun ops).lifeOf fork = [s.opening] ∨
      (splitRun ops).lifeOf fork = [s.opening, s.resolution])
  opened : ∀ before rungs depth, before ++ [.poll rungs depth] <+: ops → ∀ fork,
    (∃ rec ∈ journalled before (.poll rungs depth) fork, rec.event.isSplit = true) ↔
      (splitRun (before ++ [.poll rungs depth])).HeldApart depth.blocks fork ∧
        ¬HeldApartIn before fork
  resolved : ∀ before rungs depth, before ++ [.poll rungs depth] <+: ops → ∀ fork,
    (∃ rec ∈ journalled before (.poll rungs depth) fork, rec.event.isSplit = false) →
      (splitRun (before ++ [.poll rungs depth])).AllRelated ∧
        ¬(splitRun (before ++ [.poll rungs depth])).HeldApart 1 fork ∧
        (splitRun (before ++ [.poll rungs depth])).AllKnown

/-- **Splits live once**, over every run in which no poll finds a single rung configured whose
ancestry is unknown. -/
theorem splits_live_once (ops : List SplitOp)
    (hlone : ∀ before rungs depth, before ++ [.poll rungs depth] <+: ops → ∀ r,
      (splitRun (before ++ [.poll rungs depth])).rungs.rows = [r] →
        ((splitRun (before ++ [.poll rungs depth])).checkedTip r).isSome = true) :
    SplitLifecycle ops where
  once fork := by
    rw [told_run ops fork]
    cases hat : (splitRun ops).splits.at fork with
    | none => exact .inl rfl
    | some s =>
      refine .inr ⟨s, (SplitTable.at_eq_some.mp hat).2, ?_⟩
      rw [lifeOfSplit]
      split
      · exact .inr rfl
      · exact .inl rfl
  opened before rungs depth _ fork := by
    rw [(journalled_iff before _ fork).1, phase_run_unsplit]
    constructor
    · rintro ⟨hnot, hopen⟩
      rw [phase_poll, (phase_run_unsplit before fork).mpr hnot, SplitPhase.next] at hopen
      split at hopen
      · exact ⟨‹_›, hnot⟩
      · cases hopen
    · rintro ⟨hheld, hnot⟩
      refine ⟨hnot, ?_⟩
      rw [phase_poll, (phase_run_unsplit before fork).mpr hnot, SplitPhase.next, if_pos hheld]
  resolved before rungs depth hprefix fork hrec := by
    obtain ⟨hopen, hresolved⟩ := (journalled_iff before _ fork).2.mp hrec
    rw [phase_poll, hopen, SplitPhase.next] at hresolved
    split at hresolved
    · rename_i hends
      exact ⟨hends.1, hends.2, hends.1.allKnown (hlone before rungs depth hprefix)⟩
    · cases hresolved

/-- **What the journal holds of a fork point after a run**: a split if some poll held it apart,
and the resolution if a later poll found all rungs related and none straddling it. -/
theorem life_of_fork (ops : List SplitOp) (fork : String) :
    ((∃ rec ∈ (splitRun ops).lifeOf fork, rec.event.isSplit = true) ↔ HeldApartIn ops fork) ∧
      ((∃ rec ∈ (splitRun ops).lifeOf fork, rec.event.isSplit = false) ↔ SettledIn ops fork) := by
  have hlife : (splitRun ops).lifeOf fork = lifeOfSplit ((splitRun ops).splits.at fork) :=
    told_run ops fork
  have hunsplit := phase_run_unsplit ops fork
  have hresolved := phase_run_resolved ops fork
  rw [SplitDb.phase] at hunsplit hresolved
  rw [hlife, ← hresolved, ← not_iff_not, ← hunsplit]
  cases (splitRun ops).splits.at fork with
  | none => simp [lifeOfSplit, phaseOfSplit]
  | some s =>
    cases hs : s.resolved <;>
      simp [lifeOfSplit, phaseOfSplit, hs, Split.opening, Split.resolution, SplitEvent.isSplit]

/-! ### The lone rung -/

namespace Regtest

/-- Two rungs of a deploy. -/
def woc : RungDefinition := ⟨"woc", "reference"⟩

def arcade : RungDefinition := ⟨"arcade", "teranode"⟩

theorem depthOne_bounds : 1 ≤ 1 ∧ 1 ≤ ancestryLimit := by decide

/-- A poll of the two rungs, seen on the two branches. -/
def rungsApart : SplitOp :=
  .poll [(woc, some ⟨a1.hash, 1, 1⟩), (arcade, some ⟨b1.hash, 1, 1⟩)] ⟨1, depthOne_bounds⟩

/-- A poll of one rung, at a tip the store does not hold. -/
def loneUnknown : SplitOp :=
  .poll [(woc, some ⟨"unavailable", 5, 2⟩)] ⟨1, depthOne_bounds⟩

/-- The two branches are stored, and the two polls come one after the other. -/
def lonePolls : List SplitOp :=
  [.chain forkTable Store.fresh.sync, rungsApart, loneUnknown]

end Regtest

open Regtest in
/-- The two branches, and one poll that finds the rungs apart. -/
theorem splits_live_once_apart : SplitLifecycle [.chain forkTable Store.fresh.sync, rungsApart] := by
  refine splits_live_once _ fun before rungs depth hprefix r hr => ?_
  have htwo : (splitRun [.chain forkTable Store.fresh.sync, rungsApart]).rungs.rows.length = 2 := by
    decide +kernel
  have hlast : before ++ [.poll rungs depth] <+: [.chain forkTable Store.fresh.sync] ++ [rungsApart] :=
    hprefix
  rcases List.prefix_concat_iff.mp hlast with heq | hfirst
  · rw [heq] at hr
    rw [List.singleton_append] at hr
    rw [hr] at htwo
    cases htwo
  · -- the step before is no poll
    have hchain : before ++ [.poll rungs depth] <+:
        [] ++ [.chain forkTable Store.fresh.sync] := hfirst
    rcases List.prefix_concat_iff.mp hchain with heq | hnil
    · obtain ⟨-, hpoll⟩ := List.append_singleton_inj.mp heq
      cases hpoll
    · exact absurd (List.prefix_nil.mp hnil) (by simp)

open Regtest in
/-- **A lone rung of unknown ancestry resolves a split.** -/
theorem lone_rung_resolves : ¬SplitLifecycle lonePolls := by
  intro h
  have hrec : ∃ rec ∈ journalled [.chain forkTable Store.fresh.sync, rungsApart] loneUnknown genesis.hash,
      rec.event.isSplit = false := by decide +kernel
  have hknown := (h.resolved [.chain forkTable Store.fresh.sync, rungsApart] _ _
    (List.prefix_refl _) genesis.hash hrec).2.2
  have hunknown : ∃ r ∈ (splitRun lonePolls).rungs.rows,
      ((splitRun lonePolls).checkedTip r).isSome = false := by decide +kernel
  obtain ⟨r, hr, hnone⟩ := hunknown
  exact absurd ((hknown r hr).symm.trans hnone) (by decide)

end Chaintracks

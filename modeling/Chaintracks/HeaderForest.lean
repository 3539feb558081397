import Chaintracks.Branches
import Chaintracks.Regtest
import Chaintracks.Library.Lines

/-!
# The walks on any stored forest

The walks back from a row are stated here of every table whose rows form a forest, live
or not: a row's parent is the stored row whose hash it names
(`Chaintracks.storedParent`), it stands one below, and the link to a row's id, where it is
set, is the parent's (`Chaintracks.HeaderForest`).

On such a table `Chaintracks.walkBack` is a step to the parent. The bounded search for a
common ancestor is then exact, and the branch above it is the line of parents
(`Chaintracks.findCommonAncestor_exact`). The ancestry of the difficulty rule, read by
steps off the active chain and by one range read on it, is what plain steps to the parent
would give (`Chaintracks.loadChain_naive`), except that the range read compares hashes
without regard to letter case and does not know the zero hash, which no walk by the hash
itself would follow (`Chaintracks.loadChain_not_naive`).
-/

namespace Chaintracks

open HeaderRows Forest

/-- The stored parent of a stored row: the row whose hash it names. The zero hash names
no header. -/
def storedParent (rows : List HeaderRow) (row : HeaderRow) : Option HeaderRow :=
  if row ∈ rows ∧ row.previousHash ≠ zeroHash then headerForHash rows row.previousHash else none

/-- A table whose rows form a forest: parents stand one below their children, and the
links that are set are those to the parents. -/
structure HeaderForest (t : HeaderTable) : Prop where
  heights : ∀ child parent, storedParent t.rows child = some parent →
    child.height = parent.height + 1
  links : ∀ child ∈ t.rows, ∀ id, child.previousHeaderId = some id →
    ∃ parent, storedParent t.rows child = some parent ∧ parent.headerId = id

section Parents

variable {t : HeaderTable} {row parent a b c : HeaderRow}

theorem storedParent_mem (h : storedParent t.rows row = some parent) : parent ∈ t.rows := by
  rw [storedParent] at h
  split at h
  · exact headerForHash_mem h
  · exact absurd h (by simp)

/-- Only stored rows have a parent. -/
theorem mem_of_storedParent {rows : List HeaderRow} (h : storedParent rows row = some parent) :
    row ∈ rows := by
  rw [storedParent] at h
  split at h
  · rename_i hrow
    exact hrow.1
  · exact absurd h (by simp)

theorem storedParent_hash (h : storedParent t.rows row = some parent) :
    parent.hash = row.previousHash := by
  rw [storedParent] at h
  split at h
  · exact headerForHash_hash h
  · exact absurd h (by simp)

/-- The ancestors of a stored row are stored. -/
theorem up_mem (h : Up (storedParent t.rows) a b) (ha : a ∈ t.rows) : b ∈ t.rows :=
  h.closed (fun _ _ _ hp => storedParent_mem hp) ha

/-- Of stored rows the hash tells the ancestors apart. -/
theorem up_hash (ha : a ∈ t.rows) (hb : b ∈ t.rows) (c c' : HeaderRow)
    (hac : Up (storedParent t.rows) a c) (hbc : Up (storedParent t.rows) b c')
    (h : c.hash = c'.hash) : c = c' :=
  HeaderTable.eq_of_hash (up_mem hac ha) (up_mem hbc hb) h

/-- **On a stored forest `walk_back` is a step to the parent.** -/
theorem HeaderForest.walkBack_eq (forest : HeaderForest t) (hrow : row ∈ t.rows) :
    walkBack t.rows row.linked = storedParent t.rows row := by
  have hbyhash : storedParent t.rows row =
      if row.previousHash ≠ zeroHash then headerForHash t.rows row.previousHash else none := by
    rw [storedParent]
    simp only [hrow, true_and]
  cases hid : row.previousHeaderId with
  | none =>
    rw [hbyhash, walkBack]
    simp only [HeaderRow.linked, hid, Option.bind_none]
  | some id =>
    -- the linked row is the parent
    obtain ⟨parent, hparent, rfl⟩ := forest.links row hrow id hid
    rw [hparent, walkBack]
    simp only [HeaderRow.linked, hid, Option.bind_some,
      headerForId_eq_some t.uniqueId (storedParent_mem hparent)]

/-! ### The common ancestor -/

/-- The loop of `find_common_ancestor` is the library's search. -/
theorem HeaderForest.commonAncestorLoop_eq (forest : HeaderForest t) (fuel : Nat)
    {x y : Option HeaderRow} (hx : ∀ r ∈ x, r ∈ t.rows) (hy : ∀ r ∈ y, r ∈ t.rows) :
    commonAncestorLoop t.rows fuel (x.map (·.linked)) (y.map (·.linked)) =
      (meet (storedParent t.rows) (·.height) (·.hash) fuel x y).map (·.linked) := by
  have hparents : ∀ r, ∀ p ∈ storedParent t.rows r, p ∈ t.rows := fun r p hp => storedParent_mem hp
  induction fuel generalizing x y with
  | zero =>
    cases x with
    | none => rfl
    | some a =>
      cases y with
      | none => rfl
      | some b =>
        unfold commonAncestorLoop meet
        dsimp only [Option.map_some]
        change (if a.hash = b.hash then some a.linked else none) =
          (if a.hash = b.hash then some a else none).map (·.linked)
        split <;> rfl
  | succ fuel ih =>
    cases x with
    | none => rfl
    | some a =>
      cases y with
      | none => rfl
      | some b =>
        unfold commonAncestorLoop meet
        dsimp only [Option.map_some]
        change (if a.hash = b.hash then some a.linked else
            if a.height > b.height then
              commonAncestorLoop t.rows fuel ((walkBack t.rows a.linked).map (·.linked))
                ((some b).map (·.linked))
            else if a.height < b.height then
              commonAncestorLoop t.rows fuel ((some a).map (·.linked))
                ((walkBack t.rows b.linked).map (·.linked))
            else
              commonAncestorLoop t.rows fuel ((walkBack t.rows a.linked).map (·.linked))
                ((walkBack t.rows b.linked).map (·.linked))) = _
        rw [forest.walkBack_eq (hx a rfl), forest.walkBack_eq (hy b rfl), ih (hparents a) hy,
          ih hx (hparents b), ih (hparents a) (hparents b)]
        split
        · rfl
        · split
          · rfl
          · split <;> rfl

/-- What `find_common_ancestor` answers on a forest. -/
theorem HeaderForest.findCommonAncestor_eq (forest : HeaderForest t) (ha : a ∈ t.rows)
    (hb : b ∈ t.rows) {l : LinkedHeader} :
    findCommonAncestor t.rows a.linked b.linked = some l ↔
      ∃ c, c.linked = l ∧ LowestCommon (storedParent t.rows) a b c ∧
        a.height ≤ c.height + reorgHeightThreshold ∧
          b.height ≤ c.height + reorgHeightThreshold := by
  have hloop := forest.commonAncestorLoop_eq reorgHeightThreshold
    (x := some a) (y := some b) (by rintro r ⟨⟩; exact ha) (by rintro r ⟨⟩; exact hb)
  rw [findCommonAncestor]
  dsimp only [Option.map_some] at hloop
  rw [hloop, Option.map_eq_some_iff]
  constructor
  · rintro ⟨c, hc, rfl⟩
    exact ⟨c, rfl, (meet_eq_some_iff forest.heights (up_hash ha hb)).mp hc⟩
  · rintro ⟨c, rfl, hc⟩
    exact ⟨c, (meet_eq_some_iff forest.heights (up_hash ha hb)).mpr hc, rfl⟩

/-! ### The branch above it -/

/-- The walk down a branch lists its line. -/
theorem HeaderForest.branchAbove_line (forest : HeaderForest t) {line : List HeaderRow}
    (hline : Line (storedParent t.rows) a c line) (ha : a ∈ t.rows) {fuel : Nat}
    (hfuel : line.length ≤ fuel) :
    branchAbove t.rows c.height fuel (some a.linked) = some (line.map (·.hash)) := by
  induction line generalizing a fuel with
  | nil =>
    rcases hline.cases with ⟨-, rfl⟩ | ⟨y, rest, hnil, -⟩
    · have hle : a.linked.height ≤ a.height := le_rfl
      cases fuel <;> (unfold branchAbove; rw [if_pos hle]; rfl)
    · exact absurd hnil (by simp)
  | cons r line ih =>
    have hheight := hline.rank_eq forest.heights
    rcases hline.cases with ⟨hnil, -⟩ | ⟨parent, rest, heq, hp, hrest⟩
    · exact absurd hnil (by simp)
    · obtain ⟨rfl, rfl⟩ := List.cons.inj heq
      rw [List.length_cons] at hfuel hheight
      obtain ⟨fuel, rfl⟩ : ∃ n, fuel = n + 1 := ⟨fuel - 1, by omega⟩
      have hgt : ¬ r.linked.height ≤ c.height := by
        change ¬ r.height ≤ c.height
        omega
      unfold branchAbove
      rw [if_neg hgt, forest.walkBack_eq ha, hp]
      dsimp only [Option.map_some]
      rw [ih hrest (storedParent_mem hp) (by omega)]
      rfl

/-- A line of stored rows is no longer than the table. -/
theorem line_length_le (forest : HeaderForest t) {line : List HeaderRow}
    (hline : Line (storedParent t.rows) a c line) (ha : a ∈ t.rows) :
    line.length ≤ t.rows.length := by
  refine (hline.nodup forest.heights).subperm (fun r hr => ?_) |>.length_le
  exact up_mem ((hline.mem_iff forest.heights).mp hr).1 ha

end Parents

/-- **The bounded ancestor walk is exact.** On every stored forest, for every two stored
rows: the search answers their lowest common ancestor where they have one and stand at
most 400 above it, and nothing otherwise; and the branch walked back from the first to the
answer is, each once, the hashes of exactly the first's ancestors that stand above the
answer. -/
theorem findCommonAncestor_exact {t : HeaderTable} (forest : HeaderForest t) {a b : HeaderRow}
    (ha : a ∈ t.rows) (hb : b ∈ t.rows) :
    (∀ c, LowestCommon (storedParent t.rows) a b c → max a.height b.height ≤ c.height + 400 →
        findCommonAncestor t.rows a.linked b.linked = some c.linked) ∧
      ((¬ ∃ c, LowestCommon (storedParent t.rows) a b c ∧
          max a.height b.height ≤ c.height + 400) →
        findCommonAncestor t.rows a.linked b.linked = none) ∧
      ∀ ancestor, findCommonAncestor t.rows a.linked b.linked = some ancestor →
        ∃ (c : HeaderRow) (line : List HeaderRow), c ∈ t.rows ∧ c.linked = ancestor ∧ line.Nodup ∧
          branchAbove t.rows ancestor.height (t.rows.length + 1) (some a.linked) =
            some (line.map (·.hash)) ∧
          ∀ r, r ∈ line ↔
            Up (storedParent t.rows) a r ∧ Up (storedParent t.rows) r c ∧ r ≠ c := by
  refine ⟨?_, ?_, ?_⟩
  · rintro c hlow hmax
    have hmax := max_le_iff.mp hmax
    exact (forest.findCommonAncestor_eq ha hb).mpr ⟨c, rfl, hlow, hmax⟩
  · rintro hno
    rw [Option.eq_none_iff_forall_ne_some]
    rintro l hl
    obtain ⟨c, -, hlow, hfa, hfb⟩ := (forest.findCommonAncestor_eq ha hb).mp hl
    exact hno ⟨c, hlow, max_le hfa hfb⟩
  · rintro ancestor hanswer
    obtain ⟨c, rfl, hlow, -⟩ := (forest.findCommonAncestor_eq ha hb).mp hanswer
    obtain ⟨line, hline⟩ := hlow.1.exists_line
    refine ⟨c, line, up_mem hlow.1 ha, rfl, hline.nodup forest.heights, ?_, fun r =>
      hline.mem_iff forest.heights⟩
    exact forest.branchAbove_line hline ha (Nat.le_succ_of_le (line_length_le forest hline ha))

/-! ### A fork -/

section Fork

open Regtest

/-- A row of a block, with the link it has. -/
def forkRow (header : BlockHeader) (headerId : Nat) (previousHeaderId : Option Nat)
    (isActive : Bool) : HeaderRow where
  toBlockHeader := header
  previousHeaderId := previousHeaderId
  isActive := isActive
  isChainTip := false
  chainWork := 0
  headerId := headerId

/-- The chain of `b2`, with `a2` beside it: some rows linked, some not. -/
def forkTable : HeaderTable where
  rows := [forkRow genesis 1 none true, forkRow a1 2 (some 1) false, forkRow b1 3 none true,
    forkRow a2 4 none false, forkRow b2 5 (some 3) true]
  uniqueHash := by decide +kernel
  uniqueId := by decide +kernel

theorem forkTable_forest : HeaderForest forkTable where
  heights child parent h := by
    have hall : ∀ r ∈ forkTable.rows, ∀ p ∈ storedParent forkTable.rows r,
        r.height = p.height + 1 := by decide +kernel
    exact hall child (mem_of_storedParent h) parent h
  links child hchild id hid := by
    have hall : ∀ r ∈ forkTable.rows, ∀ id ∈ r.previousHeaderId,
        (storedParent forkTable.rows r).map (·.headerId) = some id := by decide +kernel
    obtain ⟨parent, hparent, rfl⟩ := Option.map_eq_some_iff.mp (hall child hchild id hid)
    exact ⟨parent, hparent, rfl⟩

/-- From `a2` and `b2` the search comes to the genesis, over `a2` and `a1`. -/
theorem findCommonAncestor_exact_fork :
    ∃ (c : HeaderRow) (line : List HeaderRow), c.toBlockHeader = genesis ∧
      findCommonAncestor forkTable.rows (forkRow a2 4 none false).linked
        (forkRow b2 5 (some 3) true).linked = some c.linked ∧
      branchAbove forkTable.rows c.height (forkTable.rows.length + 1)
        (some (forkRow a2 4 none false).linked) = some (line.map (·.hash)) ∧ line.Nodup := by
  have ha : forkRow a2 4 none false ∈ forkTable.rows := by decide +kernel
  have hb : forkRow b2 5 (some 3) true ∈ forkTable.rows := by decide +kernel
  have hanswer : findCommonAncestor forkTable.rows (forkRow a2 4 none false).linked
      (forkRow b2 5 (some 3) true).linked = some (forkRow genesis 1 none true).linked := by
    decide +kernel
  obtain ⟨c, line, -, hc, hnodup, hbranch, -⟩ :=
    (findCommonAncestor_exact forkTable_forest ha hb).2.2 _ hanswer
  refine ⟨c, line, congrArg (·.toBlockHeader) hc, hanswer.trans (congrArg some hc.symm), ?_, hnodup⟩
  rw [← hc] at hbranch
  exact hbranch

end Fork

/-! ### The ancestry of the difficulty rule -/

/-- The walk by plain steps to the parent, ascending and ending at the row it starts from. -/
def naiveChain (rows : List HeaderRow) (parent : HeaderRow) (depth : Nat) : List HeaderRow :=
  (parent :: follow (storedParent rows) (depth - 1) parent).reverse

/-- The stored parent of an active row is active. -/
def ActiveClosed (t : HeaderTable) : Prop :=
  ∀ child parent, child.isActive = true → storedParent t.rows child = some parent →
    parent.isActive = true

/-- Stored hashes are spelled as the rows above name them, and none is the zero hash. -/
structure PlainlySpelled (t : HeaderTable) : Prop where
  spelled : ∀ child ∈ t.rows, ∀ row ∈ t.rows,
    eqIgnoreAsciiCase row.hash child.previousHash = true → row.hash = child.previousHash
  nonzero : ∀ row ∈ t.rows, row.hash ≠ zeroHash

section Loading

variable {t : HeaderTable} {row parent : HeaderRow}

/-- A step off the active chain is a step to the parent. -/
theorem HeaderForest.stepOffChain_eq (forest : HeaderForest t) (hrow : row ∈ t.rows)
    (hoff : row.isActive = false) : stepOffChain t.rows row = storedParent t.rows row := by
  cases hp : storedParent t.rows row with
  | none =>
    rw [stepOffChain, forest.walkBack_eq hrow, hp, Option.filter_none, ite_self]
  | some parent =>
    have hheight := forest.heights row parent hp
    have hpos : (!row.isActive && decide (0 < row.height)) = true := by
      rw [hoff, hheight]
      rfl
    have hstands : (parent.height + 1 == row.height &&
        eqIgnoreAsciiCase parent.hash row.previousHash) = true := by
      rw [hheight, storedParent_hash hp, eqIgnoreAsciiCase]
      simp only [beq_self_eq_true, Bool.and_self]
    rw [stepOffChain, if_pos hpos, forest.walkBack_eq hrow, hp, Option.filter_some, if_pos hstands]

/-- No step off the active chain is made from an active row. -/
theorem stepOffChain_active {rows : List HeaderRow} (hactive : row.isActive = true) :
    stepOffChain rows row = none := by
  rw [stepOffChain, hactive]
  rfl

/-- **A step on the rows read** is a step to the parent, from an active row whose parent's
height was read. -/
theorem HeaderForest.stepOnChain_eq (forest : HeaderForest t) (closed : ActiveClosed t)
    (plain : PlainlySpelled t) (hrow : row ∈ t.rows) (hactive : row.isActive = true) {lo hi : Nat}
    (hlo : lo < row.height) (hhi : row.height ≤ hi + 1) :
    stepOnChain (activeHeadersBetween t.rows lo hi) row = storedParent t.rows row := by
  rw [stepOnChain, if_pos (Nat.zero_lt_of_lt hlo)]
  cases hp : storedParent t.rows row with
  | none =>
    rw [List.find?_eq_none]
    rintro q hq hstands
    rw [Bool.and_eq_true] at hstands
    have hmem := (mem_activeHeadersBetween.mp hq).1
    have hspelled := plain.spelled row hrow q hmem hstands.2
    -- the row found is the one the hash finds, so the row has a parent
    rw [storedParent, if_pos ⟨hrow, hspelled ▸ plain.nonzero q hmem⟩, ← hspelled,
      headerForHash_eq_some t.uniqueHash hmem] at hp
    exact absurd hp (by simp)
  | some parent =>
    have hheight := forest.heights row parent hp
    have hread : parent ∈ activeHeadersBetween t.rows lo hi :=
      mem_activeHeadersBetween.mpr
        ⟨storedParent_mem hp, closed row parent hactive hp, by omega, by omega⟩
    have hstands : (parent.height == row.height - 1 &&
        eqIgnoreAsciiCase parent.hash row.previousHash) = true := by
      rw [hheight, storedParent_hash hp, eqIgnoreAsciiCase, Nat.add_sub_cancel]
      simp only [beq_self_eq_true, Bool.and_self]
    cases hfind : (activeHeadersBetween t.rows lo hi).find? fun p =>
        p.height == row.height - 1 && eqIgnoreAsciiCase p.hash row.previousHash with
    | none => exact absurd hstands (List.find?_eq_none.mp hfind parent hread)
    | some q =>
      have hq := List.find?_some hfind
      rw [Bool.and_eq_true] at hq
      have hmem := (mem_activeHeadersBetween.mp (List.mem_of_find?_eq_some hfind)).1
      have hspelled := plain.spelled row hrow q hmem hq.2
      rw [HeaderTable.eq_of_hash hmem (storedParent_mem hp)
        (hspelled.trans (storedParent_hash hp).symm)]

/-- The walk on the rows read goes on as the naive one does. -/
theorem HeaderForest.follow_onChain (forest : HeaderForest t) (closed : ActiveClosed t)
    (plain : PlainlySpelled t) (hrow : row ∈ t.rows) (hactive : row.isActive = true) (need : Nat) :
    follow (stepOnChain (activeHeadersBetween t.rows (row.height - need) (row.height - 1)))
        need row =
      follow (storedParent t.rows) need row := by
  -- with `fuel` steps left the walk stands `need - fuel` below the row
  refine follow_congr (P := fun fuel r => r ∈ t.rows ∧ r.isActive = true ∧
    r.height + need = row.height + fuel ∧ fuel ≤ need) ?_ ?_ ⟨hrow, hactive, rfl, le_rfl⟩
  · rintro fuel r ⟨hmem, hact, hheight, hfuel⟩
    by_cases hpos : 0 < r.height
    · exact forest.stepOnChain_eq closed plain hmem hact (by omega) (by omega)
    · rw [stepOnChain, if_neg hpos]
      cases hp : storedParent t.rows r with
      | none => rfl
      | some parent =>
        have := forest.heights r parent hp
        omega
  · rintro fuel r parent ⟨hmem, hact, hheight, hfuel⟩ hp
    have := forest.heights r parent hp
    exact ⟨storedParent_mem hp, closed r parent hact hp, by omega, by omega⟩

/-- **Where the steps off the active chain stopped**, the range read goes on as the naive
walk does: from an active row, by what was read; from any other, not at all. -/
theorem HeaderForest.onChain_eq (forest : HeaderForest t) (closed : ActiveClosed t)
    (plain : PlainlySpelled t) (hrow : row ∈ t.rows) {need : Nat}
    (hstopped : 0 < need → stepOffChain t.rows row = none) :
    onChain t.rows row need = follow (storedParent t.rows) need row := by
  rw [onChain]
  cases need with
  | zero => rfl
  | succ need =>
    cases hactive : row.isActive with
    | false =>
      have hnone := hstopped (Nat.succ_pos need)
      rw [forest.stepOffChain_eq hrow hactive] at hnone
      have hstop : follow (storedParent t.rows) (need + 1) row = [] := by rw [follow, hnone]
      rw [hstop, Bool.and_false, Bool.false_and]
      rfl
    | true =>
      rw [← forest.follow_onChain closed plain hrow hactive]
      by_cases hpos : 0 < row.height
      · rw [if_pos (by simpa using hpos)]
      · -- a row at height zero has no step to make
        rw [if_neg (by simpa using hpos), follow, stepOnChain, if_neg hpos]

end Loading

/-- **The window load equals the naive walk**: on every stored forest in which the parent
of an active row is active and hashes are spelled as they are named, from every stored
row and for every depth of at least one, the range read and the steps before it give what
plain steps to the parent give, and these end early only at a row without a parent. -/
theorem loadChain_naive {t : HeaderTable} (forest : HeaderForest t) (closed : ActiveClosed t)
    (plain : PlainlySpelled t) {parent : HeaderRow} (hparent : parent ∈ t.rows) {depth : Nat}
    (hdepth : 1 ≤ depth) (params : ChainParams) :
    loadChain t.rows parent depth = naiveChain t.rows parent depth ∧
      (loadWindow t.rows params parent depth).links =
        (naiveChain t.rows parent depth).map (·.link) ∧
      ((naiveChain t.rows parent depth).length < depth →
        ∀ low ∈ (naiveChain t.rows parent depth).head?, storedParent t.rows low = none) := by
  have hchain : loadChain t.rows parent depth = naiveChain t.rows parent depth := by
    have hstep : ∀ a b, a ∈ t.rows → stepOffChain t.rows a = some b →
        storedParent t.rows a = some b ∧ b ∈ t.rows := by
      rintro a b ha hab
      refine ⟨?_, (stepOffChain_spec hab).1⟩
      cases hactive : a.isActive with
      | false => rwa [forest.stepOffChain_eq ha hactive] at hab
      | true => exact absurd hab (by rw [stepOffChain_active hactive]; simp)
    have hsplit := follow_append hstep (depth - 1) hparent
    have hcur := follow_last (fun a b ha hab => (hstep a b ha hab).2) (depth - 1) hparent
    have hstops := @follow_stops _ parent (stepOffChain t.rows) (depth - 1)
    have hlen := @follow_length_le _ (stepOffChain t.rows) (depth - 1) parent
    rw [loadChain_eq rfl rfl, naiveChain, hsplit]
    generalize follow (stepOffChain t.rows) (depth - 1) parent = off at hcur hstops hlen ⊢
    generalize off.getLast?.getD parent = cur at hcur hstops ⊢
    rw [List.cons_append, show depth - (1 + off.length) = depth - 1 - off.length by omega,
      forest.onChain_eq closed plain hcur fun hneed => hstops (by omega)]
  refine ⟨hchain, ?_, ?_⟩
  · rw [loadWindow, Window.new_links, hchain]
  · rintro hshort low hlow
    rw [naiveChain, List.length_reverse, List.length_cons] at hshort
    rw [naiveChain, List.head?_reverse, List.getLast?_cons, Option.mem_def, Option.some_inj] at hlow
    rw [← hlow]
    exact follow_stops (by omega)

section Fork

open Regtest

/-- From `a2`, off the active chain, the load goes down to the genesis. -/
theorem loadChain_naive_fork :
    loadChain forkTable.rows (forkRow a2 4 none false) 9 =
        [forkRow genesis 1 none true, forkRow a1 2 (some 1) false, forkRow a2 4 none false] ∧
      ∀ low ∈ (naiveChain forkTable.rows (forkRow a2 4 none false) 9).head?,
        storedParent forkTable.rows low = none := by
  have hmem : forkRow a2 4 none false ∈ forkTable.rows := by decide +kernel
  have closed : ActiveClosed forkTable := by
    rintro child parent hactive hparent
    have hall : ∀ r ∈ forkTable.rows, r.isActive = true →
        ∀ p ∈ storedParent forkTable.rows r, p.isActive = true := by decide +kernel
    exact hall child (mem_of_storedParent hparent) hactive parent hparent
  have plain : PlainlySpelled forkTable := ⟨by decide +kernel, by decide +kernel⟩
  obtain ⟨hchain, -, hstops⟩ :=
    loadChain_naive forkTable_forest closed plain hmem (show 1 ≤ 9 by decide) params
  exact ⟨hchain.trans (by decide +kernel), hstops (by decide +kernel)⟩

/-- The genesis, and `a1` naming it in capitals. -/
def capitals : HeaderTable where
  rows := [forkRow genesis 1 none true,
    forkRow { a1 with previousHash := a1.previousHash.toUpper } 2 none true]
  uniqueHash := by decide +kernel
  uniqueId := by decide +kernel

/-- A row that carries the zero hash, and one above it. -/
def zeroed : HeaderTable where
  rows := [forkRow { genesis with hash := zeroHash } 1 none true,
    forkRow { a1 with previousHash := zeroHash } 2 none true]
  uniqueHash := by decide +kernel
  uniqueId := by decide +kernel

/-- **What the range read follows and the naive walk does not**: a hash that differs from
the named one in letter case, and the zero hash. -/
theorem loadChain_not_naive :
    (HeaderForest capitals ∧ ActiveClosed capitals ∧
      ∃ parent ∈ capitals.rows, (naiveChain capitals.rows parent 2).length = 1 ∧
        (loadChain capitals.rows parent 2).length = 2) ∧
    (HeaderForest zeroed ∧ ActiveClosed zeroed ∧
      ∃ parent ∈ zeroed.rows, (naiveChain zeroed.rows parent 2).length = 1 ∧
        (loadChain zeroed.rows parent 2).length = 2) := by
  have hnone : ∀ t ∈ [capitals, zeroed], ∀ child, storedParent t.rows child = none := by
    rintro t ht child
    have hall : ∀ t ∈ [capitals, zeroed], ∀ r ∈ t.rows, storedParent t.rows r = none := by
      decide +kernel
    by_cases hmem : child ∈ t.rows
    · exact hall t ht child hmem
    · rw [storedParent, if_neg fun h => hmem h.1]
  have hunlinked : ∀ t ∈ [capitals, zeroed], ∀ r ∈ t.rows, r.previousHeaderId = none := by
    decide +kernel
  have hloads : ∀ t ∈ [capitals, zeroed], ∃ parent ∈ t.rows,
      (naiveChain t.rows parent 2).length = 1 ∧ (loadChain t.rows parent 2).length = 2 := by
    decide +kernel
  have hboth : ∀ t ∈ [capitals, zeroed], HeaderForest t ∧ ActiveClosed t ∧
      ∃ parent ∈ t.rows, (naiveChain t.rows parent 2).length = 1 ∧
        (loadChain t.rows parent 2).length = 2 := by
    rintro t ht
    refine ⟨⟨?_, ?_⟩, ?_, hloads t ht⟩
    · rintro child parent h
      rw [hnone t ht child] at h
      exact absurd h (by simp)
    · rintro child hchild id hid
      rw [hunlinked t ht child hchild] at hid
      exact absurd hid (by simp)
    · rintro child parent - h
      rw [hnone t ht child] at h
      exact absurd h (by simp)
  exact ⟨hboth capitals (by simp), hboth zeroed (by simp)⟩

end Fork

end Chaintracks

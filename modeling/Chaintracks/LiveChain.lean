import Chaintracks.Runs

/-!
# The active chain of the live path

Offered the headers of a tree (`Chaintracks.HeaderTree`), the live path keeps one chain
active: `Chaintracks.ActiveChain t chain` says that `chain`, tip first, is a chain of
stored headers each naming the one below, that the active rows are its headers' rows,
and that the flagged row is its head's. Beside it stand the facts about all rows,
`Chaintracks.Stocked`: where a row is linked it is linked to the parent it names, and no
row stands as low as the anchor.

On such a store a walk back by the stored links is a walk by hashes
(`Chaintracks.Stocked.walkBack_eq`), the two walks of a reorg are the search of
`Forest.meet`, and what a reorg has planned is read off the chain
(`Chaintracks.Live.plan_spec`): the chain above the ancestor goes, the branch comes.
-/

namespace Chaintracks

open HeaderRows

/-! ### Trees of headers -/

/-- **A tree of headers with consistent heights**: a hash names one header, and a header
stands one above the header it names. Where its hash is compared with one the node was built
with, at the genesis and at a checkpoint, it is in lower case. -/
structure HeaderTree (params : ChainParams) (offered : BlockHeader → Prop) : Prop where
  unique : ∀ a b, offered a → offered b → a.hash = b.hash → a = b
  heights : ∀ child parent, offered child → offered parent → child.previousHash = parent.hash →
    child.height = parent.height + 1
  lowercase : ∀ a, offered a → a.height = 0 ∨ (params.checkpointAt a.height).isSome = true →
    toAsciiLowercase a.hash = asBytes a.hash

/-- One header stands on another: one height up, naming its hash. -/
def ChildOf (child parent : BlockHeader) : Prop :=
  child.height = parent.height + 1 ∧ child.previousHash = parent.hash

/-- Lower-case texts that agree up to case are one text. -/
theorem eq_of_eqIgnoreAsciiCase {a b : String} (h : eqIgnoreAsciiCase a b = true)
    (ha : toAsciiLowercase a = asBytes a) (hb : toAsciiLowercase b = asBytes b) : a = b := by
  rw [eqIgnoreAsciiCase, beq_iff_eq, ha, hb] at h
  refine String.toByteArray_inj.mp (ByteArray.ext ?_)
  exact Array.toList_inj.mp h

section Chains

variable {chain above below : List BlockHeader} {h : BlockHeader}

/-- Down a chain the heights go down. -/
theorem chain_pairwise (hl : chain.IsChain ChildOf) :
    chain.Pairwise fun a b => b.height < a.height := by
  have : IsTrans BlockHeader fun a b => b.height < a.height :=
    ⟨fun _ _ _ hab hbc => Nat.lt_trans hbc hab⟩
  refine List.isChain_iff_pairwise.mp (hl.imp fun a b hab => ?_)
  have := hab.1
  omega

theorem chain_height_above (hl : (above ++ h :: below).IsChain ChildOf) :
    ∀ x ∈ above, h.height < x.height := fun x hx =>
  (List.pairwise_append.mp (chain_pairwise hl)).2.2 x hx h List.mem_cons_self

theorem chain_height_below (hl : (above ++ h :: below).IsChain ChildOf) :
    ∀ x ∈ below, x.height < h.height :=
  (List.pairwise_cons.mp (List.pairwise_append.mp (chain_pairwise hl)).2.1).1

theorem chain_nodup (hl : chain.IsChain ChildOf) : chain.Nodup :=
  (chain_pairwise hl).imp fun hlt he => by
    rw [he] at hlt
    exact Nat.lt_irrefl _ hlt

/-- The head of a chain is its highest header. -/
theorem chain_le_head (hl : chain.IsChain ChildOf) {tip : BlockHeader}
    (htip : chain.head? = some tip) : ∀ x ∈ chain, x.height ≤ tip.height := by
  cases chain with
  | nil => cases htip
  | cons y ys =>
    cases htip
    intro x hx
    rcases List.mem_cons.mp hx with rfl | hx
    · exact Nat.le_refl _
    · exact Nat.le_of_lt ((List.pairwise_cons.mp (chain_pairwise hl)).1 x hx)

/-- The last of a chain is its lowest header. -/
theorem chain_last_le (hl : chain.IsChain ChildOf) {anchor : BlockHeader}
    (hlast : chain.getLast? = some anchor) : ∀ x ∈ chain, anchor.height ≤ x.height := by
  obtain ⟨front, rfl⟩ := List.getLast?_eq_some_iff.mp hlast
  intro x hx
  rcases List.mem_append.mp hx with hx | hx
  · exact Nat.le_of_lt (chain_height_above hl x hx)
  · rw [List.mem_singleton.mp hx]

/-- The head of a chain stands as high above a header of it as there are headers between. -/
theorem chain_head_height {tip : BlockHeader} (hl : (above ++ h :: below).IsChain ChildOf)
    (htip : (above ++ h :: below).head? = some tip) : tip.height = h.height + above.length := by
  induction above generalizing tip with
  | nil =>
    cases htip
    rfl
  | cons x xs ih =>
    cases htip
    obtain ⟨hx, hl'⟩ := List.isChain_cons.mp hl
    cases hhead : (xs ++ h :: below).head? with
    | none => cases xs <;> cases hhead
    | some y =>
      have := (hx y hhead).1
      have := ih hl' hhead
      rw [List.length_cons]
      omega

/-- A chain has a header at each height between its ends. -/
theorem chain_exists_height (hl : chain.IsChain ChildOf) {tip anchor : BlockHeader}
    (htip : chain.head? = some tip) (hlast : chain.getLast? = some anchor) {height : Nat}
    (hlo : anchor.height ≤ height) (hhi : height ≤ tip.height) :
    ∃ x ∈ chain, x.height = height := by
  induction chain generalizing tip with
  | nil => cases htip
  | cons y ys ih =>
    cases htip
    by_cases heq : y.height = height
    · exact ⟨y, List.mem_cons_self, heq⟩
    · cases ys with
      | nil =>
        rw [List.getLast?_singleton, Option.some_inj] at hlast
        rw [hlast] at hhi heq
        omega
      | cons z zs =>
        obtain ⟨hyz, hl'⟩ := List.isChain_cons_cons.mp hl
        have := hyz.1
        obtain ⟨x, hx, hh⟩ := ih hl' rfl (by rwa [List.getLast?_cons_cons] at hlast) (by omega)
        exact ⟨x, List.mem_cons_of_mem _ hx, hh⟩

end Chains

/-! ### The active chain -/

/-- **The active chain of a table**, tip first. -/
structure ActiveChain (t : HeaderTable) (chain : List BlockHeader) : Prop where
  linked : chain.IsChain ChildOf
  stored : ∀ h ∈ chain, ∃ row ∈ t.rows, row.toBlockHeader = h
  active : ∀ row ∈ t.rows, row.isActive = true ↔ row.toBlockHeader ∈ chain
  flagged : ∀ row ∈ t.rows, row.isChainTip = true ↔ chain.head? = some row.toBlockHeader

/-- The header a chain may start from: the genesis, or a checkpoint. -/
def Anchor (params : ChainParams) (h : BlockHeader) : Prop :=
  h.height = 0 ∧ eqIgnoreAsciiCase h.hash params.genesisHash = true ∨
    (h.height, h.hash) ∈ params.checkpoints

/-- **What holds of all rows of a live store**: they were offered, a link goes to the
parent named, a row that names no parent is at height zero, and the anchor stands below
every other row. -/
structure Stocked (params : ChainParams) (offered : BlockHeader → Prop) (t : HeaderTable)
    (anchor : Option BlockHeader) : Prop where
  given : ∀ row ∈ t.rows, offered row.toBlockHeader
  links : ∀ row ∈ t.rows, ∀ id, row.previousHeaderId = some id →
    ∃ p ∈ t.rows, p.headerId = id ∧ p.hash = row.previousHash
  rooted : ∀ row ∈ t.rows, row.previousHash = zeroHash → row.height = 0
  anchored : ∀ a, anchor = some a → Anchor params a ∧
    ∀ row ∈ t.rows, row.toBlockHeader ≠ a → a.height < row.height

/-- **A live store**: one active chain, over rows in order. -/
structure Live (params : ChainParams) (offered : BlockHeader → Prop) (t : HeaderTable)
    (chain : List BlockHeader) : Prop extends ActiveChain t chain,
      Stocked params offered t chain.getLast? where
  held : chain = [] → t.rows = []

section Reading

variable {params : ChainParams} {offered : BlockHeader → Prop} {t : HeaderTable}
  {chain : List BlockHeader} {row : HeaderRow}

/-- The flagged row is the row of the chain's head. -/
theorem ActiveChain.chainTip_eq (h : ActiveChain t chain) {tip : HeaderRow}
    (htip : chainTip t.rows = some tip) : chain.head? = some tip.toBlockHeader :=
  (h.flagged tip (chainTip_mem htip)).mp (chainTip_isChainTip htip)

/-- The row of the chain's head is the flagged row. -/
theorem ActiveChain.exists_chainTip (h : ActiveChain t chain) {head : BlockHeader}
    (hhead : chain.head? = some head) :
    ∃ tip, chainTip t.rows = some tip ∧ tip.toBlockHeader = head := by
  obtain ⟨row, hrow, rfl⟩ := h.stored head (List.mem_of_head? hhead)
  cases htip : chainTip t.rows with
  | none =>
    have := chainTip_eq_none.mp htip row hrow
    rw [(h.flagged row hrow).mpr hhead] at this
    cases this
  | some tip =>
    have := h.chainTip_eq htip
    exact ⟨tip, rfl, Option.some_inj.mp (this.symm.trans hhead)⟩

/-- A store without a flagged row is empty. -/
theorem Live.empty_of_chainTip (h : Live params offered t chain)
    (htip : chainTip t.rows = none) : t.rows = [] ∧ chain = [] := by
  suffices hc : chain = [] from ⟨h.held hc, hc⟩
  cases chain with
  | nil => rfl
  | cons x xs =>
    obtain ⟨tip, ht, -⟩ := h.exists_chainTip rfl
    rw [ht] at htip
    cases htip

theorem eq_of_toBlockHeader {r r' : HeaderRow} (hr : r ∈ t.rows) (hr' : r' ∈ t.rows)
    (he : r.toBlockHeader = r'.toBlockHeader) : r = r' :=
  HeaderTable.eq_of_hash hr hr' (congrArg BlockHeader.hash he)

end Reading

/-! ### The walks on a live store -/

/-- The stored parent of a header, by hash, where it stands one below. -/
def parentOf (rows : List HeaderRow) (h : BlockHeader) : Option BlockHeader :=
  ((headerForHash rows h.previousHash).map (·.toBlockHeader)).filter fun p =>
    p.height + 1 == h.height

/-- A header as a walk holds it: of a stored row, with its link or without. -/
def Walked (t : HeaderTable) (l : LinkedHeader) : Prop :=
  ∃ row ∈ t.rows, row.toBlockHeader = l.toBlockHeader ∧
    (l.previousHeaderId = none ∨ l.previousHeaderId = row.previousHeaderId)

section Walks

variable {params : ChainParams} {offered : BlockHeader → Prop} {t : HeaderTable}
  {anchor : Option BlockHeader} {chain : List BlockHeader} {a b h : BlockHeader}
  {l : LinkedHeader} {row : HeaderRow}

theorem parentOf_rank {rows : List HeaderRow} (a b : BlockHeader) (h : parentOf rows a = some b) :
    a.height = b.height + 1 := by
  have := (Option.filter_eq_some_iff.mp h).2
  exact (beq_iff_eq.mp this).symm

theorem parentOf_stored {rows : List HeaderRow} (h : parentOf rows a = some b) :
    (∃ p ∈ rows, p.toBlockHeader = b) ∧ ChildOf a b := by
  have hrank := parentOf_rank a b h
  obtain ⟨p, hp, rfl⟩ := Option.map_eq_some_iff.mp (Option.filter_eq_some_iff.mp h).1
  exact ⟨⟨p, headerForHash_mem hp, rfl⟩, hrank, (headerForHash_hash hp).symm⟩

theorem parentOf_eq_some (hrow : row ∈ t.rows) (hc : ChildOf a row.toBlockHeader) :
    parentOf t.rows a = some row.toBlockHeader := by
  rw [parentOf, hc.2, headerForHash_eq_some t.uniqueHash hrow, Option.map_some, Option.filter_some,
    if_pos (beq_iff_eq.mpr hc.1.symm)]

/-- Among the headers of a tree the parent by hash stands one below. -/
theorem Stocked.parentOf_eq (h : Stocked params offered t anchor) (tree : HeaderTree params offered)
    (ha : offered a) :
    parentOf t.rows a = (headerForHash t.rows a.previousHash).map (·.toBlockHeader) := by
  cases hp : headerForHash t.rows a.previousHash with
  | none => rw [parentOf, hp]; rfl
  | some p =>
    have hmem := headerForHash_mem hp
    have hheight := tree.heights a p.toBlockHeader ha (h.given p hmem) (headerForHash_hash hp).symm
    rw [Option.map_some]
    exact parentOf_eq_some hmem ⟨hheight, (headerForHash_hash hp).symm⟩

/-- No row is found by the zero hash that a stored row names. -/
theorem Stocked.zeroHash_none (h : Stocked params offered t anchor)
    (tree : HeaderTree params offered)
    (hrow : row ∈ t.rows) (hz : row.previousHash = zeroHash) :
    headerForHash t.rows row.previousHash = none := by
  cases hp : headerForHash t.rows row.previousHash with
  | none => rfl
  | some p =>
    have hheight := tree.heights row.toBlockHeader p.toBlockHeader (h.given row hrow)
      (h.given p (headerForHash_mem hp)) (headerForHash_hash hp).symm
    have := h.rooted row hrow hz
    omega

/-- **A step back by the stored link is a step by hash.** -/
theorem Stocked.walkBack_eq (h : Stocked params offered t anchor) (tree : HeaderTree params offered)
    (hl : Walked t l) : walkBack t.rows l = headerForHash t.rows l.previousHash := by
  obtain ⟨row, hrow, hsame, hlink⟩ := hl
  have hprev : l.previousHash = row.previousHash := (congrArg BlockHeader.previousHash hsame).symm
  have hbyhash : (if l.previousHash ≠ zeroHash then headerForHash t.rows l.previousHash else none) =
      headerForHash t.rows l.previousHash := by
    split
    · rfl
    · rename_i hz
      rw [hprev] at hz ⊢
      exact (h.zeroHash_none tree hrow (not_not.mp hz)).symm
  unfold walkBack
  cases hid : l.previousHeaderId with
  | none => exact hbyhash
  | some id =>
    -- the linked row is the one the hash finds
    obtain ⟨p, hp, hpid, hph⟩ := h.links row hrow id ((hlink.resolve_left (by simp [hid])) ▸ hid)
    have hfind : headerForId t.rows id = some p := hpid ▸ headerForId_eq_some t.uniqueId hp
    rw [Option.bind_some, hfind, hprev, ← hph]
    exact (headerForHash_eq_some t.uniqueHash hp).symm

theorem Stocked.walkBack_parentOf (h : Stocked params offered t anchor)
    (tree : HeaderTree params offered) (hl : Walked t l) :
    (walkBack t.rows l).map (·.toBlockHeader) = parentOf t.rows l.toBlockHeader := by
  obtain ⟨row, hrow, hsame, -⟩ := id hl
  rw [h.walkBack_eq tree hl, h.parentOf_eq tree (hsame ▸ h.given row hrow)]

theorem Walked.of_mem (hrow : row ∈ t.rows) : Walked t row.linked := ⟨row, hrow, rfl, .inr rfl⟩

theorem Walked.walkBack (l' : LinkedHeader)
    (hl : (Chaintracks.walkBack t.rows l).map (·.linked) = some l') : Walked t l' := by
  obtain ⟨row, hrow, rfl⟩ := Option.map_eq_some_iff.mp hl
  exact .of_mem (walkBack_mem hrow)

/-- **The loop of the common ancestor is the library's search** over the parents by hash. -/
theorem Stocked.commonAncestorLoop_eq (h : Stocked params offered t anchor)
    (tree : HeaderTree params offered) (fuel : Nat) {x y : Option LinkedHeader}
    (hx : ∀ l, x = some l → Walked t l) (hy : ∀ l, y = some l → Walked t l) :
    (commonAncestorLoop t.rows fuel x y).map (·.toBlockHeader) =
      Forest.meet (parentOf t.rows) (·.height) (·.hash) fuel (x.map (·.toBlockHeader))
        (y.map (·.toBlockHeader)) := by
  have hback : ∀ l, Walked t l →
      ((Chaintracks.walkBack t.rows l).map (·.linked)).map (·.toBlockHeader) =
        parentOf t.rows l.toBlockHeader := by
    intro l hl
    rw [Option.map_map, ← h.walkBack_parentOf tree hl]
    rfl
  induction fuel generalizing x y with
  | zero =>
    cases x with
    | none => rfl
    | some a =>
      cases y with
      | none => rfl
      | some b =>
        unfold commonAncestorLoop Forest.meet
        dsimp only [Option.map_some]
        split <;> rfl
  | succ fuel ih =>
    cases x with
    | none => rfl
    | some a =>
      cases y with
      | none => rfl
      | some b =>
        have ha := hx a rfl
        have hb := hy b rfl
        unfold commonAncestorLoop Forest.meet
        dsimp only [Option.map_some]
        split
        · rfl
        · split
          · rw [ih (Walked.walkBack (l := a)) hy, hback a ha, Option.map_some]
          · split
            · rw [ih hx (Walked.walkBack (l := b)), hback b hb, Option.map_some]
            · rw [ih (Walked.walkBack (l := a)) (Walked.walkBack (l := b)), hback a ha, hback b hb]

/-! ### What a reorg has planned -/

/-- The parents of the chain's headers are the chain's. -/
theorem Live.parentOf_chain (h : Live params offered t chain) (ha : a ∈ chain)
    (hp : parentOf t.rows a = some b) : b ∈ chain := by
  obtain ⟨⟨p, hpmem, rfl⟩, hheight, hprev⟩ := parentOf_stored hp
  obtain ⟨above, below, rfl⟩ := List.append_of_mem ha
  cases below with
  | nil =>
    -- below the anchor there is no row
    have hlast : (above ++ [a]).getLast? = some a := by simp
    have hlow := (h.anchored a hlast).2 p hpmem
    by_cases he : p.toBlockHeader = a
    · rw [he]
      simp
    · have := hlow he
      omega
  | cons y below =>
    have hchild : ChildOf a y := (List.isChain_append.mp h.linked).2.1.rel
    obtain ⟨q, hq, rfl⟩ := h.stored y (by simp)
    have : p = q := HeaderTable.eq_of_hash hpmem hq (hprev.symm.trans hchild.2)
    rw [this]
    simp

/-- The ancestors of the chain's headers are the chain's. -/
theorem Live.up_chain (h : Live params offered t chain) (ha : a ∈ chain)
    (hup : Forest.Up (parentOf t.rows) a b) : b ∈ chain :=
  hup.closed (fun _ _ hx hp => h.parentOf_chain hx hp) ha

/-- Every header of a stored chain is an ancestor of its head. -/
theorem up_of_linked (hl : chain.IsChain ChildOf)
    (hs : ∀ x ∈ chain, ∃ row ∈ t.rows, row.toBlockHeader = x) (hhead : chain.head? = some a)
    (hb : b ∈ chain) : Forest.Up (parentOf t.rows) a b := by
  induction chain generalizing a with
  | nil => cases hhead
  | cons y ys ih =>
    cases hhead
    rcases List.mem_cons.mp hb with rfl | hb
    · exact .refl _
    · cases ys with
      | nil => cases hb
      | cons z zs =>
        obtain ⟨hyz, hl'⟩ := List.isChain_cons_cons.mp hl
        obtain ⟨row, hrow, rfl⟩ := hs z (by simp)
        exact .head (parentOf_eq_some hrow hyz)
          (ih hl' (fun x hx => hs x (List.mem_cons_of_mem _ hx)) rfl hb)

theorem ActiveChain.up_of_mem (h : ActiveChain t chain) (hhead : chain.head? = some a)
    (hb : b ∈ chain) : Forest.Up (parentOf t.rows) a b :=
  up_of_linked h.linked h.stored hhead hb

/-- **The branch of a reorg**: from a header down to an ancestor, not included. -/
theorem Stocked.branch_spec (h : Stocked params offered t anchor) (tree : HeaderTree params offered)
    {c x : BlockHeader} (hup : Forest.Up (parentOf t.rows) x c) (hl : Walked t l)
    (hx : l.toBlockHeader = x) {fuel : Nat} {branch : List String}
    (hbranch : branchAbove t.rows c.height fuel (some l) = some branch) :
    ∃ path, branch = path.map (·.hash) ∧ (path ++ [c]).IsChain ChildOf ∧
      (path ++ [c]).head? = some x ∧
      ∀ p ∈ path, (∃ row ∈ t.rows, row.toBlockHeader = p) ∧ Forest.Up (parentOf t.rows) x p := by
  induction hup using Relation.ReflTransGen.head_induction_on generalizing l fuel branch with
  | refl =>
    refine ⟨[], ?_, List.isChain_singleton c, rfl, List.forall_mem_nil _⟩
    have hle : l.height ≤ c.height := by rw [hx]
    cases fuel <;> (unfold branchAbove at hbranch; rw [if_pos hle] at hbranch; cases hbranch; rfl)
  | head hxy hyc ih =>
    rename_i x y
    have hrank := parentOf_rank _ _ hxy
    have hyc' : c.height ≤ y.height := Forest.Up.rank_le parentOf_rank hyc
    have hxl : l.height = x.height := by rw [hx]
    cases fuel with
    | zero =>
      unfold branchAbove at hbranch
      rw [if_neg (by omega)] at hbranch
      cases hbranch
    | succ fuel =>
      unfold branchAbove at hbranch
      rw [if_neg (by omega)] at hbranch
      obtain ⟨rest, hrest, rfl⟩ := Option.map_eq_some_iff.mp hbranch
      have hback := h.walkBack_parentOf tree hl
      rw [hx, hxy] at hback
      obtain ⟨row, hrow, hy⟩ := Option.map_eq_some_iff.mp hback
      rw [hrow] at hrest
      obtain ⟨path, rfl, hchain, hhead, hpath⟩ := ih (.of_mem (walkBack_mem hrow)) hy hrest
      obtain ⟨self, hself, hsame, -⟩ := hl
      refine ⟨x :: path, ?_, ?_, rfl, ?_⟩
      · rw [List.map_cons, ← hx]
      · refine List.isChain_cons.mpr ⟨fun z hz => ?_, hchain⟩
        have hzy : z = y := Option.some_inj.mp (hz.symm.trans hhead)
        rw [hzy]
        exact (parentOf_stored hxy).2
      · intro p hp
        rcases List.mem_cons.mp hp with rfl | hp
        · exact ⟨⟨self, hself, hsame.trans hx⟩, .refl _⟩
        · exact ⟨(hpath p hp).1, .head hxy (hpath p hp).2⟩

/-- **What a reorg has planned on a live store**: the chain is `above`, the ancestor and
`below`; the branch is of stored headers off the chain that stand on the ancestor, from
the new tip down; and as many rows go as `above` has headers. -/
structure PlanSpec (t : HeaderTable) (chain : List BlockHeader) (new : BlockHeader)
    (plan : ReorgPlan) (above : List BlockHeader) (ancestor : BlockHeader)
    (below path : List BlockHeader) : Prop where
  chain_eq : chain = above ++ ancestor :: below
  height : plan.ancestorHeight = ancestor.height
  branch : plan.branch = path.map (·.hash)
  linked : (path ++ [ancestor]).IsChain ChildOf
  head : (path ++ [ancestor]).head? = some new
  stored : ∀ p ∈ path, ∃ row ∈ t.rows, row.toBlockHeader = p
  apart : ∀ p ∈ path, p ∉ chain
  depth : plan.deactivated = above.length
  within : above.length ≤ reorgHeightThreshold

/-- As many rows are active above a header of the chain as the chain has above it. -/
theorem ActiveChain.countActiveAbove_eq (h : ActiveChain t chain) {above below : List BlockHeader}
    {c : BlockHeader} (hc : chain = above ++ c :: below) :
    countActiveAbove t.rows c.height = above.length := by
  have hl := h.linked
  rw [hc] at hl
  have hinj : Set.InjOn (fun r : HeaderRow => r.toBlockHeader) {r | r ∈ t.rows} :=
    fun r hr r' hr' he => eq_of_toBlockHeader hr hr' he
  have hrows : t.rows.Nodup := List.Nodup.of_map _ t.uniqueHash
  have hperm : ((t.rows.filter fun r => r.isActive && c.height < r.height).map
      (·.toBlockHeader)).Perm above := by
    refine (List.perm_ext_iff_of_nodup ?_ ?_).mpr fun x => ?_
    · refine (hrows.filter _).map_on ?_
      intro r hr r' hr' he
      exact hinj (List.mem_filter.mp hr).1 (List.mem_filter.mp hr').1 he
    · exact (chain_nodup hl).of_append_left
    · simp only [List.mem_map, List.mem_filter, Bool.and_eq_true, decide_eq_true_eq]
      constructor
      · rintro ⟨r, ⟨hr, hact, hlt⟩, rfl⟩
        have hmem := (h.active r hr).mp hact
        rw [hc, List.mem_append, List.mem_cons] at hmem
        rcases hmem with hmem | heq | hmem
        · exact hmem
        · rw [heq] at hlt
          exact absurd hlt (Nat.lt_irrefl _)
        · have := chain_height_below hl _ hmem
          omega
      · intro hx
        have hxc : x ∈ chain := hc ▸ List.mem_append_left _ hx
        obtain ⟨r, hr, rfl⟩ := h.stored x hxc
        exact ⟨r, ⟨hr, (h.active r hr).mpr hxc, chain_height_above hl _ hx⟩, rfl⟩
  rw [countActiveAbove, ← hperm.length_eq, List.length_map]

theorem Live.plan_spec (h : Live params offered t chain) (tree : HeaderTree params offered)
    {new : LinkedHeader} {tip : HeaderRow} {plan : ReorgPlan} (hnew : Walked t new)
    (htip : chainTip t.rows = some tip) (hplan : planReorg t.rows new tip.linked = .ok plan) :
    ∃ above ancestor below path,
      PlanSpec t chain new.toBlockHeader plan above ancestor below path := by
  obtain ⟨c, hfind, hheight, hbranch, hdepth⟩ := planReorg_ok hplan
  have hmeet := h.commonAncestorLoop_eq tree reorgHeightThreshold
    (x := some new) (y := some tip.linked) (fun l hl => Option.some_inj.mp hl ▸ hnew)
    (fun l hl => Option.some_inj.mp hl ▸ .of_mem (chainTip_mem htip))
  rw [show commonAncestorLoop t.rows reorgHeightThreshold (some new) (some tip.linked) = some c
    from hfind] at hmeet
  replace hmeet := hmeet.symm
  have hup := (Forest.meet_some hmeet).1
  obtain ⟨-, c', hup', hkey, hle⟩ := Forest.meet_within parentOf_rank hmeet
  have hhead := h.chainTip_eq htip
  have hc' : c' ∈ chain := h.up_chain (List.mem_of_head? hhead) hup'
  -- the ancestor is stored on the new side too, so it is the chain's header
  have hcstored : ∃ row ∈ t.rows, row.toBlockHeader = c.toBlockHeader := by
    obtain ⟨row, hrow, hsame, -⟩ := hnew
    refine hup.closed (P := fun x => ∃ row ∈ t.rows, row.toBlockHeader = x) ?_ ⟨row, hrow, hsame⟩
    exact fun _ _ _ hp => (parentOf_stored hp).1
  have hcc : c.toBlockHeader = c' := by
    obtain ⟨row, hrow, hr⟩ := hcstored
    obtain ⟨row', hrow', rfl⟩ := h.stored c' hc'
    rw [← hr, HeaderTable.eq_of_hash hrow hrow' ((congrArg BlockHeader.hash hr).trans hkey)]
  have hc : c.toBlockHeader ∈ chain := hcc ▸ hc'
  obtain ⟨above, below, hchain⟩ := List.append_of_mem hc
  obtain ⟨path, hpath, hlinked, hphead, hstored⟩ := h.branch_spec tree hup hnew rfl hbranch
  refine ⟨above, c.toBlockHeader, below, path,
    { chain_eq := hchain
      height := hheight
      branch := hpath
      linked := hlinked
      head := hphead
      stored := fun p hp => (hstored p hp).1
      apart := ?_
      depth := hdepth.trans (h.countActiveAbove_eq hchain)
      within := ?_ }⟩
  · -- a header of the path on the chain would be a nearer common ancestor
    intro p hp hpc
    have hnear := Forest.meet_nearest parentOf_rank hmeet (hstored p hp).2
      (h.up_of_mem hhead hpc)
    have := chain_height_above hlinked p hp
    omega
  · -- the walk down the chain takes a step a header
    have hl := h.linked
    have htop := hhead
    rw [hchain] at hl htop
    have := chain_head_height hl htop
    rw [← hcc] at hle
    change tip.height ≤ _ at hle
    change tip.height = _ at this
    omega

end Walks

end Chaintracks

import Chaintracks.LiveShape

/-!
# Branches off the active chain

A branch of stored headers off the active chain (`Chaintracks.Branch`) is the branch a
reorg to its top plans, as long as the ancestor stands within the walk's limit
(`Chaintracks.Branch.planReorg_eq`), and there is no reorg to it where the ancestor
stands deeper (`Chaintracks.Branch.within_of_planned`). The ancestry the difficulty rule
reads under a header of it is the branch's, then the chain's
(`Chaintracks.Live.loadChain_branch`), so whether a header abides by the rules there
(`Chaintracks.Abides`) is a fact of its line and not of the rows.
-/

namespace Chaintracks

open HeaderRows

/-- **A branch off the active chain**: stored headers from its top down to, not including,
a header of the chain. -/
structure Branch (t : HeaderTable) (chain path above : List BlockHeader) (fork : BlockHeader)
    (below : List BlockHeader) : Prop where
  chain_eq : chain = above ++ fork :: below
  linked : (path ++ [fork]).IsChain ChildOf
  stored : ∀ p ∈ path, ∃ row ∈ t.rows, row.toBlockHeader = p
  apart : ∀ p ∈ path, p ∉ chain

/-- A reorg's reach: the branch and what it would take off are no longer than the walk. -/
def InReach (path above : List BlockHeader) : Prop :=
  above.length ≤ reorgHeightThreshold ∧ path.length ≤ reorgHeightThreshold

/-! ### The reorg a branch has -/

section Plan

variable {params : ChainParams} {offered : BlockHeader → Prop} {t : HeaderTable}
  {chain path above below : List BlockHeader} {fork new : BlockHeader} {l : LinkedHeader}
  {tip : HeaderRow} {anchor : Option BlockHeader}

/-- The walk down a stored branch lists it. -/
theorem Stocked.branchAbove_eq (h : Stocked params offered t anchor) (tree : HeaderTree params offered)
    (hlinked : (path ++ [fork]).IsChain ChildOf)
    (hstored : ∀ p ∈ path ++ [fork], ∃ row ∈ t.rows, row.toBlockHeader = p) (hl : Walked t l)
    (hhead : (path ++ [fork]).head? = some l.toBlockHeader) {fuel : Nat} (hfuel : path.length ≤ fuel) :
    branchAbove t.rows fork.height fuel (some l) = some (path.map (·.hash)) := by
  induction path generalizing l fuel with
  | nil =>
    have hfork : fork = l.toBlockHeader := Option.some_inj.mp hhead
    have hle : l.height ≤ fork.height := by rw [hfork]
    cases fuel <;> (unfold branchAbove; rw [if_pos hle]; rfl)
  | cons p path ih =>
    obtain rfl : p = l.toBlockHeader := Option.some_inj.mp hhead
    have hhigh : fork.height < l.height := chain_height_above hlinked _ List.mem_cons_self
    obtain ⟨next, hnext⟩ : ∃ next, (path ++ [fork]).head? = some next := by
      cases path <;> exact ⟨_, rfl⟩
    obtain ⟨hchild, hrest⟩ := List.isChain_cons.mp hlinked
    obtain ⟨row, hrow, hrownext⟩ := hstored next (List.mem_cons_of_mem _ (List.mem_of_head? hnext))
    have hback : (walkBack t.rows l).map (·.toBlockHeader) = some next := by
      rw [h.walkBack_parentOf tree hl, ← hrownext]
      exact parentOf_eq_some hrow (hrownext ▸ hchild next hnext)
    obtain ⟨parent, hparent, rfl⟩ := Option.map_eq_some_iff.mp hback
    cases fuel with
    | zero => exact absurd hfuel (Nat.not_succ_le_zero _)
    | succ fuel =>
      unfold branchAbove
      rw [if_neg (Nat.not_le.mpr hhigh), hparent, Option.map_some]
      dsimp only
      rw [ih hrest (fun x hx => hstored x (List.mem_cons_of_mem _ hx)) (.of_mem (walkBack_mem hparent))
          hnext (Nat.le_of_succ_le_succ hfuel)]
      rfl

/-- A chain of stored headers is no longer than the table. -/
theorem length_le_of_stored (hlinked : path.IsChain ChildOf)
    (hstored : ∀ p ∈ path, ∃ row ∈ t.rows, row.toBlockHeader = p) :
    path.length ≤ t.rows.length := by
  have hsub : path ⊆ t.rows.map (·.toBlockHeader) := by
    intro p hp
    obtain ⟨row, hrow, rfl⟩ := hstored p hp
    exact List.mem_map_of_mem hrow
  have := (List.subperm_of_subset (chain_nodup hlinked) hsub).length_le
  rwa [List.length_map] at this

/-- The headers of a branch and the chain's header it stands on are stored. -/
theorem Branch.stored_all (h : Branch t chain path above fork below) (hchain : ActiveChain t chain) :
    ∀ p ∈ path ++ [fork], ∃ row ∈ t.rows, row.toBlockHeader = p := by
  intro p hp
  rcases List.mem_append.mp hp with hp | hp
  · exact h.stored p hp
  · rw [List.mem_singleton.mp hp]
    exact hchain.stored fork (by rw [h.chain_eq]; simp)

/-- The nearest common ancestor of the branch's top and the tip is where the branch
stands. -/
theorem Branch.findCommonAncestor_eq (h : Branch t chain path above fork below)
    (hreach : InReach path above) (hlive : Live params offered t chain) (tree : HeaderTree params offered)
    (hl : Walked t l)
    (hhead : (path ++ [fork]).head? = some l.toBlockHeader) (htip : chainTip t.rows = some tip) :
    ∃ c, findCommonAncestor t.rows l tip.linked = some c ∧ c.toBlockHeader = fork := by
  have htop := hlive.chainTip_eq htip
  have hlinked := hlive.linked
  rw [h.chain_eq] at hlinked
  have hupnew : ∀ p ∈ path ++ [fork], Forest.Up (parentOf t.rows) l.toBlockHeader p :=
    fun p hp => up_of_linked h.linked (h.stored_all hlive.toActiveChain) hhead hp
  have hupfork := hupnew fork (by simp)
  have huptip : Forest.Up (parentOf t.rows) tip.toBlockHeader fork :=
    hlive.up_of_mem htop (by rw [h.chain_eq]; simp)
  have hdeepnew : l.height ≤ fork.height + reorgHeightThreshold := by
    have := chain_head_height (show (path ++ fork :: []).IsChain ChildOf from h.linked) hhead
    have := hreach.2
    omega
  have hdeeptip : tip.height ≤ fork.height + reorgHeightThreshold := by
    have hhead' : (above ++ fork :: below).head? = some tip.toBlockHeader := h.chain_eq ▸ htop
    have := chain_head_height hlinked hhead'
    have := hreach.1
    omega
  obtain ⟨x, hmeet⟩ : ∃ x, Forest.meet (parentOf t.rows) (·.height) (·.hash) reorgHeightThreshold
      (some l.toBlockHeader) (some tip.toBlockHeader) = some x :=
    Forest.meet_complete parentOf_rank hupfork huptip hdeepnew hdeeptip
  have hloop := hlive.commonAncestorLoop_eq tree reorgHeightThreshold
    (x := some l) (y := some tip.linked) (fun _ hx => Option.some_inj.mp hx ▸ hl)
    (fun _ hx => Option.some_inj.mp hx ▸ .of_mem (chainTip_mem htip))
  obtain ⟨c, hc, rfl⟩ := Option.map_eq_some_iff.mp (hloop.trans hmeet)
  refine ⟨c, hc, ?_⟩
  -- nearer than the branch's foot there is only the branch, which is off the chain
  have hnear := Forest.meet_nearest parentOf_rank hmeet hupfork huptip
  obtain ⟨hupc, c', hupc', hkey⟩ := Forest.meet_some hmeet
  have hcpath : c.toBlockHeader ∈ path ++ [fork] := by
    obtain ⟨x, hx, hheight⟩ := chain_exists_height h.linked hhead (List.getLast?_concat ..)
      hnear (hupc.rank_le parentOf_rank)
    exact (hupnew x hx).eq_of_rank parentOf_rank hupc hheight ▸ hx
  have hcchain : c.toBlockHeader ∈ chain := by
    obtain ⟨row, hrow, hr⟩ := h.stored_all hlive.toActiveChain _ hcpath
    obtain ⟨row', hrow', hr'⟩ := hlive.stored c' (hlive.up_chain (List.mem_of_head? htop) hupc')
    rw [← hr, HeaderTable.eq_of_hash hrow hrow' ((congrArg BlockHeader.hash hr).trans
      (hkey.trans (congrArg BlockHeader.hash hr').symm)), hr']
    exact hlive.up_chain (List.mem_of_head? htop) hupc'
  rcases List.mem_append.mp hcpath with hpath | hlast
  · exact absurd hcchain (h.apart _ hpath)
  · exact List.mem_singleton.mp hlast

/-- **What a reorg to a branch plans**: it goes ahead, and plans the branch. -/
theorem Branch.planReorg_eq (h : Branch t chain path above fork below)
    (hreach : InReach path above) (hlive : Live params offered t chain) (tree : HeaderTree params offered)
    (hl : Walked t l)
    (hhead : (path ++ [fork]).head? = some l.toBlockHeader) (htip : chainTip t.rows = some tip) :
    planReorg t.rows l tip.linked = .ok ⟨fork.height, path.map (·.hash), above.length⟩ := by
  obtain ⟨c, hc, hfork⟩ := h.findCommonAncestor_eq hreach hlive tree hl hhead htip
  have hstored := h.stored_all hlive.toActiveChain
  have hlength := length_le_of_stored (h.linked.left_of_append) h.stored
  have hbranch := hlive.branchAbove_eq tree h.linked hstored hl hhead
    (show path.length ≤ t.rows.length + 1 by omega)
  have hheight : c.height = fork.height := congrArg BlockHeader.height hfork
  unfold planReorg
  rw [hc]
  dsimp only
  rw [hheight, hbranch]
  dsimp only
  rw [hlive.countActiveAbove_eq h.chain_eq]
  rfl

/-- The plan of a branch, as `Chaintracks.Live.reorg` takes it. -/
theorem Branch.planSpec (h : Branch t chain path above fork below) (hreach : InReach path above)
    (hhead : (path ++ [fork]).head? = some new) :
    PlanSpec t chain new ⟨fork.height, path.map (·.hash), above.length⟩ above fork below path where
  chain_eq := h.chain_eq
  height := rfl
  branch := rfl
  linked := h.linked
  head := hhead
  stored := h.stored
  apart := h.apart
  depth := rfl
  within := hreach.1

theorem PlanSpec.toBranch {plan : ReorgPlan} {ancestor : BlockHeader}
    (h : PlanSpec t chain new plan above ancestor below path) :
    Branch t chain path above ancestor below :=
  ⟨h.chain_eq, h.linked, h.stored, h.apart⟩

/-- A line of stored headers leaves the chain at one height. -/
theorem Branch.fork_le (h : Branch t chain path above fork below)
    {path' above' below' : List BlockHeader} {fork' : BlockHeader}
    (h' : Branch t chain path' above' fork' below') (hchain : ActiveChain t chain)
    (hhead : (path ++ [fork]).head? = some new) (hhead' : (path' ++ [fork']).head? = some new) :
    fork'.height ≤ fork.height := by
  by_contra hgt
  have hup : Forest.Up (parentOf t.rows) new fork' :=
    up_of_linked h'.linked (h'.stored_all hchain) hhead' (by simp)
  obtain ⟨x, hx, hheight⟩ := chain_exists_height h.linked hhead (List.getLast?_concat ..)
    (Nat.le_of_not_le hgt) (hup.rank_le parentOf_rank)
  have hsame : x = fork' :=
    (up_of_linked h.linked (h.stored_all hchain) hhead hx).eq_of_rank parentOf_rank hup hheight
  rcases List.mem_append.mp hx with hx | hx
  · exact h.apart x hx (by rw [hsame, h'.chain_eq]; simp)
  · rw [List.mem_singleton] at hx
    rw [← hx] at hgt
    omega

/-- **A reorg out of reach** is not planned. -/
theorem Branch.within_of_planned (h : Branch t chain path above fork below)
    (hlive : Live params offered t chain) (tree : HeaderTree params offered) (hl : Walked t l)
    (hhead : (path ++ [fork]).head? = some l.toBlockHeader) (htip : chainTip t.rows = some tip)
    {plan : ReorgPlan} (hplan : planReorg t.rows l tip.linked = .ok plan) :
    above.length ≤ reorgHeightThreshold := by
  obtain ⟨above', fork', below', path', hspec⟩ := hlive.plan_spec tree hl htip hplan
  have h' := hspec.toBranch
  have hle := h.fork_le h' hlive.toActiveChain hhead hspec.head
  have hge := h'.fork_le h hlive.toActiveChain hspec.head hhead
  have htop := hlive.chainTip_eq htip
  have hlinked := hlive.linked
  have hdeep : tip.height = fork.height + above.length :=
    chain_head_height (h.chain_eq ▸ hlinked) (h.chain_eq ▸ htop)
  have hdeep' : tip.height = fork'.height + above'.length :=
    chain_head_height (h'.chain_eq ▸ hlinked) (h'.chain_eq ▸ htop)
  have := hspec.within
  omega

/-- A header standing on no stored row meets the chain nowhere. -/
theorem Live.planReorg_unlinked (hlive : Live params offered t chain) (tree : HeaderTree params offered)
    (hl : Walked t l) (hoff : l.toBlockHeader ∉ chain)
    (hparent : headerForHash t.rows l.previousHash = none) (htip : chainTip t.rows = some tip)
    {plan : ReorgPlan} : planReorg t.rows l tip.linked ≠ .ok plan := by
  intro hplan
  obtain ⟨above', fork', below', path', hspec⟩ := hlive.plan_spec tree hl htip hplan
  have hstored := hspec.toBranch.stored_all hlive.toActiveChain
  have hlinked := hspec.linked
  have hhead := hspec.head
  cases path' with
  | nil =>
    rw [List.nil_append, List.head?_cons, Option.some_inj] at hhead
    exact hoff (by rw [← hhead, hspec.chain_eq]; simp)
  | cons p path' =>
    rw [List.cons_append, List.head?_cons, Option.some_inj] at hhead
    obtain ⟨next, hnext⟩ : ∃ next, (path' ++ [fork']).head? = some next := by
      cases path' <;> exact ⟨_, rfl⟩
    have hchild : ChildOf p next := (List.isChain_cons.mp hlinked).1 next hnext
    obtain ⟨row, hrow, hr⟩ := hstored next (List.mem_cons_of_mem _ (List.mem_of_head? hnext))
    refine headerForHash_eq_none.mp hparent row hrow ?_
    rw [congrArg BlockHeader.hash hr, ← hchild.2, hhead]

end Plan

/-! ### The ancestry the difficulty rule reads -/

section Ancestry

variable {params : ChainParams} {offered : BlockHeader → Prop} {t : HeaderTable}
  {chain path above below : List BlockHeader} {fork header : BlockHeader} {row : HeaderRow}

theorem exists_rows {headers : List BlockHeader}
    (hstored : ∀ h ∈ headers, ∃ row ∈ t.rows, row.toBlockHeader = h) :
    ∃ rows : List HeaderRow, (∀ r ∈ rows, r ∈ t.rows) ∧ rows.map (·.toBlockHeader) = headers := by
  induction headers with
  | nil => exact ⟨[], nofun, rfl⟩
  | cons h headers ih =>
    obtain ⟨row, hrow, rfl⟩ := hstored h List.mem_cons_self
    obtain ⟨rows, hrows, rfl⟩ := ih fun x hx => hstored x (List.mem_cons_of_mem _ hx)
    refine ⟨row :: rows, fun r hr => ?_, rfl⟩
    rcases List.mem_cons.mp hr with rfl | hr
    · exact hrow
    · exact hrows r hr

/-- On the chain the range read holds, one step finds the chain's header below. -/
theorem ActiveChain.stepOnChain_eq (h : ActiveChain t chain) {parent : HeaderRow} {lo hi : Nat}
    (hparent : parent ∈ t.rows) (hmem : parent.toBlockHeader ∈ chain)
    (hchild : ChildOf row.toBlockHeader parent.toBlockHeader) (hlo : lo ≤ parent.height)
    (hhi : parent.height ≤ hi) :
    stepOnChain (activeHeadersBetween t.rows lo hi) row = some parent := by
  have hread : parent ∈ activeHeadersBetween t.rows lo hi :=
    mem_activeHeadersBetween.mpr ⟨hparent, (h.active parent hparent).mpr hmem, hlo, hhi⟩
  have hheight : row.height = parent.height + 1 := hchild.1
  have hprev : row.previousHash = parent.hash := hchild.2
  unfold stepOnChain
  rw [if_pos (by omega)]
  cases hfind : (activeHeadersBetween t.rows lo hi).find? fun p =>
      p.height == row.height - 1 && eqIgnoreAsciiCase p.hash row.previousHash with
  | none =>
    have := List.find?_eq_none.mp hfind parent hread
    simp [hheight, hprev] at this
  | some found =>
    have hfound := mem_activeHeadersBetween.mp (List.mem_of_find?_eq_some hfind)
    have hcond := List.find?_some hfind
    rw [Bool.and_eq_true, beq_iff_eq] at hcond
    have hsame : found.height = parent.height := by omega
    refine congrArg some (eq_of_toBlockHeader hfound.1 hparent ?_)
    exact chain_eq_of_height h.linked ((h.active found hfound.1).mp hfound.2.1) hmem hsame

/-- Below the chain's last header nothing is active. -/
theorem ActiveChain.stepOnChain_last (h : ActiveChain t chain) {lo hi : Nat}
    (hlast : chain.getLast? = some row.toBlockHeader) :
    stepOnChain (activeHeadersBetween t.rows lo hi) row = none := by
  unfold stepOnChain
  split
  · refine List.find?_eq_none.mpr fun found hfound => ?_
    obtain ⟨hmem, hact, -⟩ := mem_activeHeadersBetween.mp hfound
    have := chain_last_le h.linked hlast _ ((h.active found hmem).mp hact)
    rw [Bool.and_eq_true, beq_iff_eq]
    rintro ⟨heq, -⟩
    change row.height ≤ found.height at this
    omega
  · rfl

/-- Off the chain one step finds the parent. -/
theorem Live.stepOffChain_eq (h : Live params offered t chain) (tree : HeaderTree params offered)
    {parent : HeaderRow} (hrow : row ∈ t.rows) (hparent : parent ∈ t.rows)
    (hoff : row.toBlockHeader ∉ chain) (hchild : ChildOf row.toBlockHeader parent.toBlockHeader) :
    stepOffChain t.rows row = some parent := by
  have hheight : row.height = parent.height + 1 := hchild.1
  have hprev : row.previousHash = parent.hash := hchild.2
  have hact : row.isActive = false := by
    rw [← Bool.not_eq_true, h.active row hrow]
    exact hoff
  have hback : walkBack t.rows row.linked = some parent := by
    rw [h.walkBack_eq tree (.of_mem hrow)]
    change headerForHash t.rows row.previousHash = some parent
    rw [hprev]
    exact headerForHash_eq_some t.uniqueHash hparent
  unfold stepOffChain
  rw [if_pos (by rw [hact]; simp [hheight]), hback, Option.filter_some, if_pos]
  rw [Bool.and_eq_true, beq_iff_eq, hprev]
  exact ⟨hheight.symm, eqIgnoreAsciiCase_self _⟩

/-- The rows of a line of stored headers, each the parent of the one before. -/
theorem rows_isChain {R : HeaderRow → HeaderRow → Prop} {rows : List HeaderRow}
    (hl : (rows.map (·.toBlockHeader)).IsChain ChildOf)
    (hR : ∀ a ∈ rows, ∀ b ∈ rows, ChildOf a.toBlockHeader b.toBlockHeader → R a b) :
    rows.IsChain R := by
  have hchain : rows.IsChain fun a b => ChildOf a.toBlockHeader b.toBlockHeader :=
    (List.isChain_map _).mp hl
  exact hchain.imp_of_mem_imp fun a b ha hb hab => hR a ha b hb hab

/-- Along a line of headers the heights go down by one. -/
theorem height_ge_of_mem {line : List BlockHeader} {x y : BlockHeader}
    (hl : (x :: line).IsChain ChildOf) (hy : y ∈ line) :
    x.height ≤ y.height + line.length ∧ y.height < x.height := by
  obtain ⟨front, back, rfl⟩ := List.append_of_mem hy
  have := chain_head_height (show ((x :: front) ++ y :: back).IsChain ChildOf from hl) rfl
  rw [List.length_append, List.length_cons]
  rw [List.length_cons] at this
  omega

/-- The rows a range read finds on the chain, one step after the other. -/
theorem ActiveChain.follow_onChain (h : ActiveChain t chain) (hrow : row ∈ t.rows)
    (hchain : chain = above ++ row.toBlockHeader :: below) (need : Nat) :
    (Forest.follow (stepOnChain (activeHeadersBetween t.rows (row.height - need) (row.height - 1)))
      need row).map (·.toBlockHeader) = below.take need := by
  have hlinked := h.linked
  rw [hchain] at hlinked
  obtain ⟨rows, hrows, hmap⟩ := exists_rows (show ∀ x ∈ below, ∃ row ∈ t.rows, row.toBlockHeader = x
    from fun x hx => h.stored x (hchain ▸ List.mem_append_right _ (List.mem_cons_of_mem _ hx)))
  have htake : ((row :: rows.take need).map (·.toBlockHeader)).IsChain ChildOf := by
    rw [List.map_cons, List.map_take, hmap]
    exact (List.isChain_append.mp hlinked).2.1.take (need + 1)
  have hline : (row :: rows.take need).IsChain fun a b =>
      stepOnChain (activeHeadersBetween t.rows (row.height - need) (row.height - 1)) a = some b := by
    refine rows_isChain htake fun a ha b hb hab => ?_
    have hbelow : ∀ r ∈ rows.take need, row.height ≤ r.height + need ∧ r.height < row.height := by
      intro r hr
      obtain ⟨hle, hlt⟩ : row.height ≤ r.height + _ ∧ r.height < row.height :=
        height_ge_of_mem htake (List.mem_map_of_mem hr)
      have hlen : ((rows.take need).map (·.toBlockHeader)).length ≤ need := by
        rw [List.length_map]
        exact List.length_take_le ..
      omega
    have hab' : a.height = b.height + 1 := hab.1
    rcases List.mem_cons.mp hb with rfl | hb
    · rcases List.mem_cons.mp ha with rfl | ha
      · omega
      · have := hbelow a ha
        omega
    · have hrange := hbelow b hb
      have hbmem : b ∈ rows := List.mem_of_mem_take hb
      have hbchain : b.toBlockHeader ∈ chain := by
        rw [hchain, ← hmap]
        exact List.mem_append_right _ (List.mem_cons_of_mem _ (List.mem_map_of_mem hbmem))
      exact h.stepOnChain_eq (hrows b hbmem) hbchain hab (by omega) (by omega)
  rw [Forest.follow_eq_take hline, List.take_take, Nat.min_self, List.map_take, hmap]
  -- where the line is shorter than the walk it ends at the chain's last header
  intro hshort last hlast
  have hall : rows.take need = rows := List.take_of_length_le (by
    rw [List.length_take] at hshort
    omega)
  rw [hall] at hlast
  refine h.stepOnChain_last ?_
  have hmaplast : ((row :: rows).map (·.toBlockHeader)).getLast? = some last.toBlockHeader := by
    rw [List.getLast?_map, hlast]
    rfl
  rw [List.map_cons, hmap] at hmaplast
  rw [hchain, List.getLast?_append, hmaplast]
  rfl

/-- The ancestry below a header, on the active chain: one range read. -/
def onChain (rows : List HeaderRow) (cur : HeaderRow) (need : Nat) : List HeaderRow :=
  if 0 < need && cur.isActive && 0 < cur.height then
    Forest.follow (stepOnChain (activeHeadersBetween rows (cur.height - need) (cur.height - 1)))
      need cur
  else []

theorem loadChain_eq {rows off : List HeaderRow} {cur : HeaderRow} {depth : Nat}
    (hoff : Forest.follow (stepOffChain rows) (depth - 1) row = off)
    (hcur : off.getLast?.getD row = cur) :
    loadChain rows row depth =
      (row :: off ++ onChain rows cur (depth - (1 + off.length))).reverse := by
  subst hoff hcur
  rfl

/-- The range read holds the chain's headers below a header of it. -/
theorem ActiveChain.onChain_eq (h : ActiveChain t chain) (hrow : row ∈ t.rows)
    (hchain : chain = above ++ row.toBlockHeader :: below) (need : Nat) :
    (onChain t.rows row need).map (·.toBlockHeader) = below.take need := by
  have hact : row.isActive = true := (h.active row hrow).mpr (by rw [hchain]; simp)
  unfold onChain
  by_cases hgo : 0 < need ∧ 0 < row.height
  · rw [if_pos (by simp [hact, hgo]), h.follow_onChain hrow hchain]
  · rw [if_neg (by simpa [hact] using hgo)]
    rcases not_and_or.mp hgo with hnone | hzero
    · rw [Nat.eq_zero_of_not_pos hnone, List.take_zero, List.map_nil]
    · -- a row at height zero has nothing below it
      have hlinked := h.linked
      rw [hchain] at hlinked
      cases below with
      | nil => rw [List.take_nil, List.map_nil]
      | cons y below =>
        have hchild : ChildOf row.toBlockHeader y := (List.isChain_append.mp hlinked).2.1.rel
        have : row.height = y.height + 1 := hchild.1
        omega

theorem ActiveChain.stepOffChain_active (h : ActiveChain t chain) (hrow : row ∈ t.rows)
    (hmem : row.toBlockHeader ∈ chain) : stepOffChain t.rows row = none := by
  have hact : row.isActive = true := (h.active row hrow).mpr hmem
  exact if_neg (by rw [hact]; simp)

/-- **The ancestry of a header of the chain** is the chain below it. -/
theorem ActiveChain.loadChain_eq (h : ActiveChain t chain) (hrow : row ∈ t.rows)
    (hchain : chain = above ++ row.toBlockHeader :: below) (depth : Nat) :
    (loadChain t.rows row depth).map (·.toBlockHeader) =
      ((row.toBlockHeader :: below).take (max depth 1)).reverse := by
  have hoff : Forest.follow (stepOffChain t.rows) (depth - 1) row = [] := by
    refine (Forest.follow_eq_take (List.isChain_singleton row) fun _ last hlast => ?_).trans
      List.take_nil
    obtain rfl : row = last := Option.some_inj.mp hlast
    exact h.stepOffChain_active hrow (by rw [hchain]; simp)
  rw [Chaintracks.loadChain_eq hoff rfl, List.map_reverse, List.map_append, List.map_singleton,
    List.getLast?_nil, Option.getD_none, h.onChain_eq hrow hchain,
    show max depth 1 = depth - 1 + 1 by omega, List.take_succ_cons, List.singleton_append,
    List.length_nil, Nat.add_zero]

/-- **The ancestry of a stored branch**: its headers from the row down, then the chain's. -/
theorem Live.loadChain_branch (h : Live params offered t chain) (tree : HeaderTree params offered)
    {line : List BlockHeader} (hrow : row ∈ t.rows)
    (hline : row.toBlockHeader :: line = path ++ fork :: below)
    (hbranch : Branch t chain path above fork below) (depth : Nat) :
    (loadChain t.rows row depth).map (·.toBlockHeader) =
      ((row.toBlockHeader :: line).take (max depth 1)).reverse := by
  have hsplit : (row.toBlockHeader :: line).take (max depth 1) =
      row.toBlockHeader :: line.take (depth - 1) := by
    rw [show max depth 1 = depth - 1 + 1 by omega, List.take_succ_cons]
  rw [hsplit]
  cases path with
  | nil =>
    -- the row is on the chain
    obtain ⟨hfork, rfl⟩ := List.cons.inj hline
    rw [h.loadChain_eq hrow (hfork ▸ hbranch.chain_eq), ← hsplit]
  | cons p path =>
    rw [List.cons_append] at hline
    obtain ⟨rfl, rfl⟩ := List.cons.inj hline
    obtain ⟨rows, hrows, hmap⟩ := exists_rows (show ∀ x ∈ path ++ [fork],
      ∃ row ∈ t.rows, row.toBlockHeader = x
      from fun x hx => hbranch.stored_all h.toActiveChain x (List.mem_cons_of_mem _ hx))
    have hlinked : ((row :: rows).map (·.toBlockHeader)).IsChain ChildOf := by
      rw [List.map_cons, hmap]
      exact hbranch.linked
    have hfork : fork ∈ chain := by rw [hbranch.chain_eq]; simp
    have hend : ∀ last ∈ (row :: rows).getLast?, last.toBlockHeader = fork := by
      intro last hlast
      have hmaplast : ((row :: rows).map (·.toBlockHeader)).getLast? = some last.toBlockHeader := by
        rw [List.getLast?_map, hlast]
        rfl
      rw [List.map_cons, hmap, ← List.cons_append, List.getLast?_concat] at hmaplast
      exact (Option.some_inj.mp hmaplast).symm
    have hstep : (row :: rows).IsChain fun a b => stepOffChain t.rows a = some b := by
      refine rows_isChain hlinked fun a ha b hb hab => ?_
      have hin : ∀ r ∈ row :: rows, r ∈ t.rows ∧
          (r.toBlockHeader ∈ row.toBlockHeader :: path ∨ r.toBlockHeader = fork) := by
        intro r hr
        rcases List.mem_cons.mp hr with rfl | hr
        · exact ⟨hrow, .inl List.mem_cons_self⟩
        · refine ⟨hrows r hr, ?_⟩
          have hmem := List.mem_map_of_mem (f := fun r : HeaderRow => r.toBlockHeader) hr
          rw [hmap, List.mem_append, List.mem_singleton] at hmem
          exact hmem.imp_left (List.mem_cons_of_mem _)
      obtain ⟨harow, hahead⟩ := hin a ha
      obtain ⟨hbrow, hbhead⟩ := hin b hb
      refine h.stepOffChain_eq tree harow hbrow ?_ hab
      -- the branch's foot has no header of the branch below it
      rcases hahead with hahead | hahead
      · exact hbranch.apart _ hahead
      · exfalso
        rw [hahead] at hab
        have hab' : fork.height = b.height + 1 := hab.1
        rcases hbhead with hbhead | hbhead
        · have : fork.height < b.height := chain_height_above hbranch.linked _ hbhead
          omega
        · have : b.height = fork.height := congrArg BlockHeader.height hbhead
          omega
    have hoff : Forest.follow (stepOffChain t.rows) (depth - 1) row = rows.take (depth - 1) := by
      refine Forest.follow_eq_take hstep fun _ last hlast => ?_
      have hlastrow : last ∈ t.rows := by
        rcases List.mem_cons.mp (List.mem_of_getLast? hlast) with rfl | hmem
        · exact hrow
        · exact hrows last hmem
      exact h.stepOffChain_active hlastrow (hend last hlast ▸ hfork)
    have hlength : rows.length = path.length + 1 := by
      have := congrArg List.length hmap
      rwa [List.length_map, List.length_append, List.length_singleton] at this
    have hbelow : path ++ fork :: below = (path ++ [fork]) ++ below := by simp
    rw [loadChain_eq hoff rfl, List.map_reverse, List.cons_append, List.map_cons, List.map_append,
      List.map_take, hmap]
    refine congrArg List.reverse (congrArg (row.toBlockHeader :: ·) ?_)
    by_cases hshort : depth - 1 < rows.length
    · -- the walk ends on the branch
      have hneed : depth - (1 + (rows.take (depth - 1)).length) = 0 := by
        rw [List.length_take]
        omega
      have hnone : onChain t.rows ((rows.take (depth - 1)).getLast?.getD row) 0 = [] :=
        if_neg (by simp)
      have htake : (path ++ fork :: below).take (depth - 1) = (path ++ [fork]).take (depth - 1) := by
        rw [hbelow]
        exact List.take_append_of_le_length (by simp; omega)
      rw [hneed, hnone, htake]
      exact List.append_nil _
    · -- it goes on down the chain
      have hall : rows.take (depth - 1) = rows := List.take_of_length_le (Nat.not_lt.mp hshort)
      obtain ⟨foot, hfoot⟩ : ∃ foot, rows.getLast? = some foot := by
        cases rows with
        | nil => cases hlength
        | cons r rows => exact ⟨_, List.getLast?_eq_some_getLast (List.cons_ne_nil _ _)⟩
      have hfootfork : foot.toBlockHeader = fork := by
        refine hend foot ?_
        rw [List.getLast?_cons, hfoot]
        rfl
      have hon := h.onChain_eq (hrows foot (List.mem_of_getLast? hfoot))
        (hfootfork ▸ hbranch.chain_eq) (depth - (1 + rows.length))
      have hlong : (path ++ [fork]).length ≤ depth - 1 := by simp; omega
      have htake : (path ++ fork :: below).take (depth - 1) =
          (path ++ [fork]) ++ below.take (depth - (1 + rows.length)) := by
        rw [hbelow, List.take_append, List.take_of_length_le hlong, List.length_append,
          List.length_singleton, hlength, show depth - 1 - (path.length + 1) =
            depth - (1 + (path.length + 1)) by omega]
      rw [hall, hfoot, Option.getD_some, hon, htake, List.take_of_length_le hlong]

end Ancestry

/-! ### A header that abides by the rules -/

/-- **A header that abides by the rules on its line**, its ancestors from the parent down:
it meets its own target, it names a parent, and on those of its ancestors the difficulty
rule asks for it carries the checkpoint and the bits. -/
structure Abides (params : ChainParams) (line : List BlockHeader) (header : BlockHeader) :
    Prop where
  pow : checkPow params header = .ok ()
  rooted : header.previousHash ≠ zeroHash
  context : checkContext params (Window.new params.bsv
    ((line.take (max (params.pow.windowDepth (header.height - 1)) 1)).reverse.map (·.link))) header =
      .ok ()

section Admitting

variable {params : ChainParams} {offered : BlockHeader → Prop} {t : HeaderTable}
  {chain path above below line : List BlockHeader} {fork header : BlockHeader} {row tip : HeaderRow}

/-- The context of a header on a stored branch is its line's. -/
theorem Abides.checkContext_ok (h : Abides params (row.toBlockHeader :: line) header)
    (hlive : Live params offered t chain) (tree : HeaderTree params offered) (hrow : row ∈ t.rows)
    (hline : row.toBlockHeader :: line = path ++ fork :: below)
    (hbranch : Branch t chain path above fork below) (hchild : ChildOf header row.toBlockHeader) :
    checkContext params (contextOf params t.rows row) header = .ok () := by
  have hheight : header.height - 1 = row.height := by
    have : header.height = row.height + 1 := hchild.1
    omega
  have hloaded := hlive.loadChain_branch tree hrow hline hbranch (params.pow.windowDepth row.height)
  have hcontext := h.context
  rw [hheight, ← hloaded, List.map_map] at hcontext
  exact hcontext

/-- **What `insert_header` answers for a header of a branch**: it is let in, on the work
of its parent's row. -/
theorem Abides.admission_eq (h : Abides params (row.toBlockHeader :: line) header)
    (hlive : Live params offered t chain) (tree : HeaderTree params offered) (hrow : row ∈ t.rows)
    (hline : row.toBlockHeader :: line = path ++ fork :: below)
    (hbranch : Branch t chain path above fork below) (hchild : ChildOf header row.toBlockHeader)
    (hcp : storedCheckpointAbove t.rows params header.height (chainTip t.rows) = none) :
    admission params t.rows header =
      .ok ⟨some row, addWork row.chainWork (params.bsv.workFromBits header.bits), chainTip t.rows,
        true⟩ := by
  have hcontext := h.checkContext_ok hlive tree hrow hline hbranch hchild
  have hprevious : previousOf t.rows header = some row := by
    rw [previousOf, if_pos h.rooted, hchild.2]
    exact headerForHash_eq_some t.uniqueHash hrow
  have hext : checkExtends "insert_header" header row = .ok () := if_pos hchild.1
  have hfork : checkForkPriorToCheckpoint params t.rows header (chainTip t.rows) = .ok () := by
    unfold checkForkPriorToCheckpoint
    rw [hcp]
    rfl
  have hanch : checkAnchored params t.rows header (some row) (chainTip t.rows) = .ok true := by
    unfold checkAnchored
    dsimp only
    rw [hcontext]
    rfl
  unfold admission
  dsimp only
  rw [hprevious, hfork, hanch]
  change (do checkExtends "insert_header" header row; _ : Except Fault Admission) = _
  rw [hext]
  rfl

end Admitting

end Chaintracks

import Chaintracks.Branches
import Chaintracks.Outcomes

/-!
# How a live store grows

`Chaintracks.LiveShape` says what a call of the live path keeps; here is what it does. A
header inserted (`Chaintracks.Live.insertHeader_onto`) or linked
(`Chaintracks.Live.relink_onto`) on top of a stored branch leaves a store that is told
exactly: the same rows with its work beside them (`Chaintracks.weights`), and as its
chain the old one, or the branch where it outworks the tip. A header whose parent is not
stored goes in on its own work (`Chaintracks.Live.insertHeader_orphan`). The database is
one that takes what it is handed; a reorg deeper than the walk is what can still end
such a call.
-/

namespace Chaintracks

open HeaderRows

/-- The stored headers, each with the work of its row. -/
def weights (t : HeaderTable) : List (BlockHeader × Nat) :=
  t.rows.map fun r => (r.toBlockHeader, r.chainWork)

section Weights

variable {t : HeaderTable} {header : BlockHeader} {txn : List Stmt}

theorem mem_weights {n : Nat} : (header, n) ∈ weights t ↔
    ∃ row ∈ t.rows, row.toBlockHeader = header ∧ row.chainWork = n := by
  simp only [weights, List.mem_map, Prod.mk.injEq]

/-- An update that sets no work leaves the weights as they are. -/
theorem weights_update (cond : HeaderRow → Bool) (set : HeaderRow → RowCells)
    (hset : ∀ r, (set r).chainWork = r.chainWork) : weights (t.update cond set) = weights t := by
  unfold weights HeaderTable.update
  rw [List.map_map]
  refine List.map_congr_left fun r _ => ?_
  dsimp only [Function.comp_apply]
  split
  · exact congrArg _ (hset r)
  · rfl

theorem weights_insert (hfresh : headerForHash t.rows header.hash = none) (cells : RowCells) :
    weights (t.insert header cells) = weights t ++ [(header, cells.chainWork)] := by
  rw [weights, HeaderTable.insert_rows (headerForHash_eq_none.mp hfresh), List.map_append]
  rfl

theorem weights_moveTip (hash : String) : weights (onHeadersAll (moveTipTxn hash) t) = weights t :=
  (weights_update (·.hash == hash) (fun r => { r.toRowCells with isChainTip := true, isActive := true })
    fun _ => rfl).trans (weights_update _ _ fun _ => rfl)

theorem weights_activateAll (branch : List String) :
    weights (onHeadersAll (branch.map .activateHash) t) = weights t := by
  induction branch generalizing t with
  | nil => rfl
  | cons hash branch ih =>
    rw [List.map_cons, onHeadersAll_cons, ih]
    exact weights_update _ _ fun _ => rfl

theorem weights_reorg (plan : ReorgPlan) (hash : String) :
    weights (onHeadersAll (plan.txn hash) t) = weights t := by
  have htail : ∀ u : HeaderTable, weights (onHeadersAll [.recordPendingReorg (plan.ancestorHeight + 1),
      .clearChainTip, .setChainTipActive hash] u) = weights u :=
    fun u => weights_moveTip hash
  rw [ReorgPlan.txn, List.cons_append, onHeadersAll_cons, onHeadersAll_append, htail,
    weights_activateAll]
  exact weights_update _ _ fun _ => rfl

theorem weights_insertion (hfresh : headerForHash t.rows header.hash = none) (a : Admission) :
    weights (onHeadersAll (a.txn header) t) = weights t ++ [(header, a.chainWork)] := by
  have hins : weights ((a.insertion header).onHeaders t) = weights t ++ [(header, a.chainWork)] :=
    weights_insert hfresh _
  unfold Admission.txn
  split
  · exact (weights_moveTip header.hash).trans hins
  · exact hins

end Weights

/-! ### What the live path leaves -/

section Growth

variable {env : Env} {params : ChainParams} {offered : BlockHeader → Prop} {t : HeaderTable}
  {w : World} {chain path above below line : List BlockHeader} {fork header p : BlockHeader}
  {row tip : HeaderRow} {new : LinkedHeader}

/-- A branch whose top stands on the tip is that header alone. -/
theorem Branch.on_tip (h : Branch t chain (p :: path) above fork below)
    (hlive : Live params offered t chain) (htip : chainTip t.rows = some tip)
    (hprev : p.previousHash = tip.hash) : path = [] ∧ chain = fork :: below := by
  have hstored := h.stored_all hlive.toActiveChain
  have hlinked := h.linked
  rw [List.cons_append] at hlinked hstored
  have htop := hlive.chainTip_eq htip
  have hnext : ∀ next, (path ++ [fork]).head? = some next → next = tip.toBlockHeader := by
    intro next hnext
    have hchild : ChildOf p next := (List.isChain_cons.mp hlinked).1 next hnext
    obtain ⟨r, hr, rfl⟩ := hstored next (List.mem_cons_of_mem _ (List.mem_of_head? hnext))
    rw [HeaderTable.eq_of_hash hr (chainTip_mem htip) (hchild.2.symm.trans hprev)]
  cases path with
  | cons q path =>
    have hq : q = tip.toBlockHeader := hnext q rfl
    exact absurd (hq ▸ List.mem_of_head? htop) (h.apart q (by simp))
  | nil =>
    refine ⟨rfl, ?_⟩
    have hfork : fork = tip.toBlockHeader := hnext fork rfl
    have hchain := hlive.linked
    rw [h.chain_eq] at hchain htop
    cases above with
    | nil => exact h.chain_eq
    | cons a above =>
      have := chain_height_above hchain a List.mem_cons_self
      rw [List.cons_append, List.head?_cons, Option.some_inj] at htop
      rw [htop, hfork] at this
      omega

/-- **The tip goes to the top of a branch in reach**, where the database takes what it is
handed: the branch is active in the place of what stood above the ancestor. -/
theorem Branch.settleTip_eq (h : Branch w.db.headers chain (p :: path) above fork below)
    (hreach : InReach (p :: path) above) (hlive : Live params offered w.db.headers chain)
    (tree : HeaderTree params offered) (hacc : ∀ n, env.accepts n = true)
    (hl : Walked w.db.headers new)
    (hnew : new.toBlockHeader = p) (htip : chainTip w.db.rows = some tip) :
    ∃ depth w', settleTip env new (some tip) false w = (.ok depth, w') ∧
      Live params offered w'.db.headers (p :: path ++ fork :: below) ∧
      weights w'.db.headers = weights w.db.headers := by
  subst hnew
  obtain ⟨row, hrow, hsame, -⟩ := id hl
  have hhash : new.hash = row.hash := congrArg BlockHeader.hash hsame.symm
  have hplan := h.planReorg_eq hreach hlive tree hl rfl htip
  have hspec := h.planSpec hreach
    (show ((new.toBlockHeader :: path) ++ [fork]).head? = some row.toBlockHeader by
      rw [hsame]; rfl)
  have hanswers : Prog.Answers (settleTip env new (some tip) false) w := by
    rw [answers_settleTip, tipMoves]
    split
    · rw [Store.rows, hplan]
      simp only [hacc, Bool.or_true, Bool.and_true]
    · exact hacc _
  obtain ⟨depth, w', hok⟩ := hanswers
  refine ⟨depth, w', hok, ?_⟩
  have hsettled := settleTip_cases hok
  generalize hanswer : Except.ok depth = answer at hsettled
  cases hsettled with
  | failed => cases hanswer
  | moved now _ stands left =>
    -- the top stands on the tip
    have hprev : new.previousHash = tip.hash := stands tip rfl
    obtain ⟨rfl, hchain⟩ := h.on_tip hlive htip hprev
    have hprev' : row.previousHash = tip.hash :=
      (congrArg BlockHeader.previousHash hsame).trans hprev
    rw [left, execAll_headers, hhash]
    refine ⟨?_, weights_moveTip _⟩
    rw [List.singleton_append, ← hchain, ← hsame]
    exact hlive.moveTip tree hrow htip hprev'
  | reorged flagged plan now _ hflagged apart planned takes left =>
    obtain rfl : tip = flagged := Option.some_inj.mp hflagged
    obtain rfl : _ = plan := Except.ok.inj (hplan.symm.trans planned)
    rw [left, execAll_headers, hhash]
    exact ⟨hlive.reorg hrow hspec, weights_reorg _ _⟩
  | crowned flagged plan now w₁ _ answer hflagged apart planned takes first second =>
    obtain rfl : tip = flagged := Option.some_inj.mp hflagged
    obtain rfl : _ = plan := Except.ok.inj (hplan.symm.trans planned)
    have hlive₁ : Live params offered w₁.db.headers (new.toBlockHeader :: path ++ fork :: below) := by
      rw [first, execAll_headers, hhash]
      exact hlive.reorg hrow hspec
    rcases second with ⟨-, hrefused, -⟩ | ⟨now', -, left⟩
    · rw [hacc] at hrefused
      cases hrefused
    · -- the second tip move finds the row flagged
      obtain ⟨tip₁, htip₁, htop⟩ := hlive₁.exists_chainTip rfl
      have hhash₁ : new.hash = tip₁.hash := congrArg BlockHeader.hash htop.symm
      rw [left, execAll_headers]
      refine ⟨?_, ?_⟩
      · rw [hhash₁]
        exact hlive₁.moveTip_same (chainTip_mem htip₁) (chainTip_isChainTip htip₁)
      · rw [weights_moveTip, first, execAll_headers, weights_reorg]

/-- Where the tip goes to the top of a branch, the branch is in reach. -/
theorem Branch.within_of_settled (h : Branch w.db.headers chain (p :: path) above fork below)
    (hlive : Live params offered w.db.headers chain) (tree : HeaderTree params offered)
    (hl : Walked w.db.headers new) (hnew : new.toBlockHeader = p)
    (htip : chainTip w.db.rows = some tip) {depth : Nat} {w' : World}
    (hok : settleTip env new (some tip) false w = (.ok depth, w')) :
    above.length ≤ reorgHeightThreshold := by
  subst hnew
  have hsettled := settleTip_cases hok
  generalize hanswer : Except.ok depth = answer at hsettled
  cases hsettled with
  | failed => cases hanswer
  | moved now _ stands left =>
    obtain ⟨-, hchain⟩ := h.on_tip hlive htip (stands tip rfl)
    have := congrArg List.length (h.chain_eq.symm.trans hchain)
    rw [List.length_append] at this
    omega
  | reorged flagged plan now _ hflagged apart planned takes left =>
    obtain rfl : tip = flagged := Option.some_inj.mp hflagged
    exact h.within_of_planned hlive tree hl rfl htip planned
  | crowned flagged plan now w₁ _ answer hflagged apart planned takes first second =>
    obtain rfl : tip = flagged := Option.some_inj.mp hflagged
    exact h.within_of_planned hlive tree hl rfl htip planned

/-- The branch with a header on top of it. -/
theorem Branch.cons (h : Branch t chain path above fork below)
    (hstored : ∃ row ∈ t.rows, row.toBlockHeader = header) (hoff : header ∉ chain)
    (hchild : ∀ next, (path ++ [fork]).head? = some next → ChildOf header next) :
    Branch t chain (header :: path) above fork below where
  chain_eq := h.chain_eq
  linked := List.isChain_cons.mpr ⟨hchild, h.linked⟩
  stored p hp := by
    rcases List.mem_cons.mp hp with rfl | hp
    · exact hstored
    · exact h.stored p hp
  apart p hp := by
    rcases List.mem_cons.mp hp with rfl | hp
    · exact hoff
    · exact h.apart p hp

/-- A branch stands in every later table. -/
theorem Branch.mono (h : Branch t chain path above fork below) (t' : HeaderTable)
    (hkeep : ∀ row ∈ t.rows, ∃ row' ∈ t'.rows, row'.toBlockHeader = row.toBlockHeader) :
    Branch t' chain path above fork below where
  chain_eq := h.chain_eq
  linked := h.linked
  stored p hp := by
    obtain ⟨row, hrow, rfl⟩ := h.stored p hp
    exact hkeep row hrow
  apart := h.apart

/-- The line of the row a branch stands under starts where the branch does. -/
theorem head?_of_line (hline : row.toBlockHeader :: line = path ++ fork :: below) :
    (path ++ [fork]).head? = some row.toBlockHeader := by
  cases path with
  | nil => exact congrArg some (List.cons.inj hline).1.symm
  | cons p path =>
    rw [List.cons_append] at hline
    exact congrArg some (List.cons.inj hline).1.symm

/-- The header goes on top of the branch, whether the insertion moves the tip or not. -/
theorem Branch.insertion (h : Branch t chain path above fork below) (hchain : ActiveChain t chain)
    (hfresh : headerForHash t.rows header.hash = none)
    (hline : row.toBlockHeader :: line = path ++ fork :: below)
    (hchild : ChildOf header row.toBlockHeader) (a : Admission) :
    Branch (onHeadersAll (a.txn header) t) chain (header :: path) above fork below := by
  obtain ⟨r, hr, hrh, -⟩ := insertion_row (a := a) hfresh
  have hkept := h.mono (onHeadersAll (a.txn header) t) fun row hrow => by
    obtain ⟨r, hr, hh, -⟩ := onHeadersAll_keeps (a.txn header) hrow
    exact ⟨r, hr, hh⟩
  refine hkept.cons ⟨r, hr, hrh⟩ ?_ ?_
  · intro hmem
    obtain ⟨r, hr, he⟩ := hchain.stored _ hmem
    exact headerForHash_eq_none.mp hfresh r hr (congrArg BlockHeader.hash he)
  · intro next hnext
    rw [head?_of_line hline, Option.some_inj] at hnext
    exact hnext ▸ hchild

/-- The line of the tip is the chain. -/
theorem Branch.line_of_tip (h : Branch t chain path above fork below)
    (hlive : Live params offered t chain) (htip : chainTip t.rows = some tip)
    (hline : tip.toBlockHeader :: line = path ++ fork :: below) :
    above = [] ∧ chain = tip.toBlockHeader :: line := by
  have htop := hlive.chainTip_eq htip
  cases path with
  | nil =>
    obtain ⟨rfl, rfl⟩ := List.cons.inj hline
    have hlinked := hlive.linked
    rw [h.chain_eq] at hlinked htop
    have := chain_head_height hlinked htop
    have habove : above = [] := List.eq_nil_of_length_eq_zero (by omega)
    exact ⟨habove, by rw [h.chain_eq, habove]; rfl⟩
  | cons p path =>
    rw [List.cons_append] at hline
    obtain ⟨rfl, -⟩ := List.cons.inj hline
    exact absurd (List.mem_of_head? htop) (h.apart _ List.mem_cons_self)

section Insert

variable (hlive : Live params offered w.db.headers chain) (tree : HeaderTree params offered)
  (hoffered : offered header) (hacc : ∀ n, env.accepts n = true)
  (hfresh : headerForHash w.db.rows header.hash = none) (htip : chainTip w.db.rows = some tip)
  (hrow : row ∈ w.db.headers.rows) (hline : row.toBlockHeader :: line = path ++ fork :: below)
  (hbranch : Branch w.db.headers chain path above fork below)
  (hchild : ChildOf header row.toBlockHeader)
  (habides : Abides params (row.toBlockHeader :: line) header)
  (hcp : storedCheckpointAbove w.db.rows params header.height (some tip) = none)

include hlive tree hoffered hacc hfresh htip hrow hline hbranch hchild habides hcp

/-- **A header on a stored branch, inserted**: its row carries its work on its parent's,
and the branch with it is the chain exactly where that outworks the tip. -/
theorem Live.insertHeader_onto
    (hreach : tip.chainWork < addWork row.chainWork (params.bsv.workFromBits header.bits) →
      InReach (header :: path) above) :
    ∃ result w', insertHeader env params header w = (.ok result, w') ∧ result.dupe = false ∧
      result.noPrev = false ∧
      weights w'.db.headers = weights w.db.headers ++
        [(header, addWork row.chainWork (params.bsv.workFromBits header.bits))] ∧
      Live params offered w'.db.headers
        (if tip.chainWork < addWork row.chainWork (params.bsv.workFromBits header.bits) then
          header :: row.toBlockHeader :: line else chain) := by
  have hadm := habides.admission_eq hlive tree hrow hline hbranch hchild (by rwa [← htip] at hcp)
  generalize addWork row.chainWork (params.bsv.workFromBits header.bits) = work at hadm hreach ⊢
  rw [show chainTip w.db.headers.rows = some tip from htip] at hadm
  generalize ha : (⟨some row, work, some tip, true⟩ : Admission) = a at hadm
  obtain ⟨w₁, hheaders, -, hrun⟩ := insertHeader_entered habides.pow hfresh hadm
    (hacc _)
  have hlive₁ := hlive.insertion tree hoffered hfresh (admission_ok hadm)
  have hweights : weights w₁.db.headers = weights w.db.headers ++ [(header, work)] := by
    rw [hheaders, weights_insertion hfresh, ← ha]
  have htakes : a.becomesTip = decide (tip.chainWork < work) := by
    rw [← ha]
    exact Bool.true_and _
  have hatip : a.tip = some tip := by rw [← ha]
  have hnoPrev : (a.result header).noPrev = false := by
    rw [← ha]
    rfl
  rw [← hheaders] at hlive₁
  rw [hrun, letIn, htakes]
  by_cases houtworks : tip.chainWork < work
  · rw [if_pos (decide_eq_true houtworks), if_pos houtworks]
    cases hact : a.isActive header with
    | true =>
      -- the header stands on the tip, so its parent is the tip
      rw [hact, if_pos rfl] at hlive₁
      have hprev : header.previousHash = tip.hash := by
        have hext := (Bool.and_eq_true_iff.mp hact).2
        rw [Admission.extendsTip, hatip] at hext
        exact beq_iff_eq.mp hext
      obtain rfl : row = tip :=
        HeaderTable.eq_of_hash hrow (chainTip_mem htip) (hchild.2.symm.trans hprev)
      rw [settleTip_of_extends hact]
      rw [(hbranch.line_of_tip hlive htip hline).2] at hlive₁
      exact ⟨_, w₁, rfl, rfl, hnoPrev, hweights, hlive₁⟩
    | false =>
      rw [hact, if_neg Bool.false_ne_true] at hlive₁
      obtain ⟨r, hr, hrh, hrest⟩ := insertion_row (a := a) (t := w.db.headers) hfresh
      have htip₁ : chainTip w₁.db.rows = some tip := by
        rw [Store.rows, hheaders, (hrest hact).2.2]
        exact htip
      have hbranch₁ := hbranch.insertion hlive.toActiveChain hfresh hline hchild a
      rw [← hheaders] at hr hbranch₁
      obtain ⟨depth, w', hok, hlive', hweights'⟩ := hbranch₁.settleTip_eq
        (hreach houtworks) hlive₁ tree hacc
        (show Walked w₁.db.headers header.linked from ⟨r, hr, hrh, .inl rfl⟩) rfl htip₁
      rw [hatip]
      refine ⟨_, w', Prog.bind_ok hok, rfl, hnoPrev, hweights'.trans hweights, ?_⟩
      rw [hline]
      exact hlive'
  · have hact : a.isActive header = false := by
      rw [Admission.isActive, htakes, decide_eq_false houtworks, Bool.false_and]
    rw [hact, if_neg Bool.false_ne_true] at hlive₁
    rw [if_neg (by rwa [decide_eq_true_eq]), if_neg houtworks]
    exact ⟨_, w₁, rfl, rfl, hnoPrev, hweights, hlive₁⟩

/-- Out of a reorg's reach a header that outworks the tip ends the call. -/
theorem Live.insertHeader_far (hfar : reorgHeightThreshold < above.length)
    (houtworks : tip.chainWork < addWork row.chainWork (params.bsv.workFromBits header.bits)) :
    ¬Prog.Answers (insertHeader env params header) w := by
  have hadm := habides.admission_eq hlive tree hrow hline hbranch hchild (by rwa [← htip] at hcp)
  generalize addWork row.chainWork (params.bsv.workFromBits header.bits) = work at hadm houtworks
  rw [show chainTip w.db.headers.rows = some tip from htip] at hadm
  generalize ha : (⟨some row, work, some tip, true⟩ : Admission) = a at hadm
  obtain ⟨w₁, hheaders, -, hrun⟩ := insertHeader_entered habides.pow hfresh hadm
    (hacc _)
  have htakes : a.becomesTip = true := by
    rw [← ha]
    exact decide_eq_true houtworks
  have hatip : a.tip = some tip := by rw [← ha]
  have hact : a.isActive header = false := by
    rw [← Bool.not_eq_true]
    intro hact
    have hprev : header.previousHash = tip.hash := by
      have hext := (Bool.and_eq_true_iff.mp hact).2
      rw [Admission.extendsTip, hatip] at hext
      exact beq_iff_eq.mp hext
    obtain rfl : row = tip :=
      HeaderTable.eq_of_hash hrow (chainTip_mem htip) (hchild.2.symm.trans hprev)
    rw [(hbranch.line_of_tip hlive htip hline).1] at hfar
    cases hfar
  have hlive₁ := hlive.insertion tree hoffered hfresh (admission_ok hadm)
  obtain ⟨r, hr, hrh, hrest⟩ := insertion_row (a := a) (t := w.db.headers) hfresh
  have htip₁ : chainTip w₁.db.rows = some tip := by
    rw [Store.rows, hheaders, (hrest hact).2.2]
    exact htip
  have hbranch₁ := hbranch.insertion hlive.toActiveChain hfresh hline hchild a
  rw [hact, if_neg Bool.false_ne_true, ← hheaders] at hlive₁
  rw [← hheaders] at hr hbranch₁
  rw [Prog.Answers, hrun]
  refine fun h => ?_
  have hanswers := answers_letIn.mp h
  rw [htakes, hact, hatip, Bool.not_true, Bool.false_or, Bool.false_or] at hanswers
  obtain ⟨depth, w', hok⟩ := answers_settleTip.mpr hanswers
  exact absurd (hbranch₁.within_of_settled hlive₁ tree ⟨r, hr, hrh, .inl rfl⟩ rfl htip₁ hok)
    (Nat.not_le.mpr hfar)

end Insert

section Orphan

variable (hlive : Live params offered w.db.headers chain) (tree : HeaderTree params offered)
  (hoffered : offered header) (hacc : ∀ n, env.accepts n = true)
  (hfresh : headerForHash w.db.rows header.hash = none) (htip : chainTip w.db.rows = some tip)
  (hparent : headerForHash w.db.rows header.previousHash = none)
  (hpow : checkPow params header = .ok ()) (hrooted : header.previousHash ≠ zeroHash)
  (hheight : 0 < header.height)
  (hcheck : checkCheckpoint params header.height header.hash = .ok ())
  (hcp : storedCheckpointAbove w.db.rows params header.height (some tip) = none)

include htip hparent hrooted hheight hcheck hcp in
/-- A header whose parent is not stored is let in on its own work, as an anchor where it
carries a checkpoint. -/
theorem admission_orphan : admission params w.db.rows header =
    .ok ⟨none, params.bsv.workFromBits header.bits, some tip,
      (params.checkpointAt header.height).isSome⟩ := by
  have hprevious : previousOf w.db.rows header = none := by
    rw [previousOf, if_pos hrooted]
    exact hparent
  have hfork : checkForkPriorToCheckpoint params w.db.rows header (some tip) = .ok () := by
    unfold checkForkPriorToCheckpoint
    rw [hcp]
    rfl
  have hanch : checkUnlinked params header false =
      .ok (params.checkpointAt header.height).isSome := by
    have hroot : (header.height == 0 || header.previousHash == zeroHash) = false := by
      rw [Bool.or_eq_false_iff, beq_eq_false_iff_ne, beq_eq_false_iff_ne]
      exact ⟨by omega, hrooted⟩
    unfold checkUnlinked
    rw [hcheck]
    change (if _ then _ else _ : Except HeaderFault Bool) = _
    rw [if_neg (by rw [hroot]; exact Bool.false_ne_true)]
    cases (params.checkpointAt header.height).isSome <;> rfl
  unfold admission checkAnchored
  dsimp only
  rw [hprevious, htip, hfork]
  change ((refusing header (checkUnlinked params header false)).bind _ : Except Fault Admission) = _
  rw [hanch]
  rfl

include hlive tree hoffered hacc hfresh htip hparent hpow hrooted hheight hcheck hcp

/-- **An orphan, inserted**: its row carries its own work, and the chain stays. -/
theorem Live.insertHeader_orphan
    (hbeside : (params.checkpointAt header.height).isSome = true →
      params.bsv.workFromBits header.bits ≤ tip.chainWork) :
    ∃ result w', insertHeader env params header w = (.ok result, w') ∧ result.noPrev = true ∧
      weights w'.db.headers =
        weights w.db.headers ++ [(header, params.bsv.workFromBits header.bits)] ∧
      Live params offered w'.db.headers chain := by
  have hadm := admission_orphan htip hparent hrooted hheight hcheck hcp
  generalize ha : (⟨none, params.bsv.workFromBits header.bits, some tip,
    (params.checkpointAt header.height).isSome⟩ : Admission) = a at hadm
  obtain ⟨w₁, hheaders, -, hrun⟩ := insertHeader_entered hpow hfresh hadm (hacc _)
  have hlive₁ := hlive.insertion tree hoffered hfresh (admission_ok hadm)
  have hstays : a.becomesTip = false := by
    rw [← ha]
    unfold Admission.becomesTip
    dsimp only
    rw [Bool.and_eq_false_imp]
    exact fun hsome => decide_eq_false (Nat.not_lt.mpr (hbeside hsome))
  have hact : a.isActive header = false := by
    rw [Admission.isActive, hstays, Bool.false_and]
  have hnoPrev : (a.result header).noPrev = true := by
    rw [← ha]
    exact decide_eq_true hheight
  rw [hact, if_neg Bool.false_ne_true, ← hheaders] at hlive₁
  rw [hrun, letIn, hstays, if_neg Bool.false_ne_true]
  refine ⟨_, w₁, rfl, hnoPrev, ?_, hlive₁⟩
  rw [hheaders, weights_insertion hfresh, ← ha]

/-- An orphan that carries a checkpoint and outworks the tip ends the call. -/
theorem Live.insertHeader_orphan_heavy (hcarries : (params.checkpointAt header.height).isSome = true)
    (houtworks : tip.chainWork < params.bsv.workFromBits header.bits) :
    ¬Prog.Answers (insertHeader env params header) w := by
  have hadm := admission_orphan htip hparent hrooted hheight hcheck hcp
  generalize ha : (⟨none, params.bsv.workFromBits header.bits, some tip,
    (params.checkpointAt header.height).isSome⟩ : Admission) = a at hadm
  obtain ⟨w₁, hheaders, -, hrun⟩ := insertHeader_entered hpow hfresh hadm (hacc _)
  have hatip : a.tip = some tip := by rw [← ha]
  have htakes : a.becomesTip = true := by
    rw [← ha, Admission.becomesTip]
    exact Bool.and_eq_true_iff.mpr ⟨hcarries, decide_eq_true houtworks⟩
  have hne : header.previousHash ≠ tip.hash := fun hprev =>
    headerForHash_eq_none.mp hparent tip (chainTip_mem htip) hprev.symm
  have hact : a.isActive header = false := by
    rw [Admission.isActive, Admission.extendsTip, hatip, htakes]
    exact beq_eq_false_iff_ne.mpr hne
  have hlive₁ := hlive.insertion tree hoffered hfresh (admission_ok hadm)
  obtain ⟨r, hr, hrh, hrest⟩ := insertion_row (a := a) (t := w.db.headers) hfresh
  have htip₁ : chainTip w₁.db.rows = some tip := by
    rw [Store.rows, hheaders, (hrest hact).2.2]
    exact htip
  have hoff : header ∉ chain := by
    intro hmem
    obtain ⟨r, hr, he⟩ := hlive.stored _ hmem
    exact headerForHash_eq_none.mp hfresh r hr (congrArg BlockHeader.hash he)
  have hparent₁ : headerForHash w₁.db.rows header.previousHash = none := by
    refine headerForHash_eq_none.mpr fun r' hr' hh => ?_
    have hmem : (r'.toBlockHeader, r'.chainWork) ∈ weights w.db.headers ++ [(header, a.chainWork)] := by
      rw [← weights_insertion hfresh, ← hheaders]
      exact mem_weights.mpr ⟨r', hr', rfl, rfl⟩
    rcases List.mem_append.mp hmem with hmem | hmem
    · obtain ⟨r₀, hr₀, he, -⟩ := mem_weights.mp hmem
      exact headerForHash_eq_none.mp hparent r₀ hr₀ ((congrArg BlockHeader.hash he).trans hh)
    · -- no header names itself
      rw [List.mem_singleton, Prod.mk.injEq] at hmem
      have hself : header.previousHash = header.hash :=
        hh.symm.trans (congrArg BlockHeader.hash hmem.1)
      have := tree.heights header header hoffered hoffered hself
      omega
  rw [hact, if_neg Bool.false_ne_true, ← hheaders] at hlive₁
  rw [← hheaders] at hr
  rw [Prog.Answers, hrun]
  refine fun h => ?_
  have hanswers := answers_letIn.mp h
  rw [htakes, hact, hatip, Bool.not_true, Bool.false_or, Bool.false_or, tipMoves,
    if_pos (show header.linked.previousHash ≠ tip.hash from hne)] at hanswers
  cases hplan : planReorg w₁.db.rows header.linked tip.linked with
  | error fault =>
    rw [hplan] at hanswers
    cases hanswers
  | ok plan =>
    exact hlive₁.planReorg_unlinked tree ⟨r, hr, hrh, .inl rfl⟩ hoff hparent₁ htip₁ hplan

end Orphan

section Relink

variable {stored : HeaderRow} (hlive : Live params offered w.db.headers chain)
  (tree : HeaderTree params offered) (hacc : ∀ n, env.accepts n = true)
  (htip : chainTip w.db.rows = some tip) (hstored : stored ∈ w.db.headers.rows)
  (hoff : stored.toBlockHeader ∉ chain) (hrow : row ∈ w.db.headers.rows)
  (hline : row.toBlockHeader :: line = path ++ fork :: below)
  (hbranch : Branch w.db.headers chain path above fork below)
  (hchild : ChildOf stored.toBlockHeader row.toBlockHeader)
  (habides : Abides params (row.toBlockHeader :: line) stored.toBlockHeader)

include hlive tree hacc htip hstored hoff hrow hline hbranch hchild habides

/-- A relink finds the row's parent stored, links the row to it, and decides on the tip it
finds. -/
theorem Live.relink_entered :
    ∃ (w₁ : World) (tip₁ : HeaderRow), Live params offered w₁.db.headers chain ∧
      Branch w₁.db.headers chain (stored.toBlockHeader :: path) above fork below ∧
      Walked w₁.db.headers ⟨stored.toBlockHeader, some row.headerId⟩ ∧
      chainTip w₁.db.rows = some tip₁ ∧
      relinkOrphanAndReevaluate env params stored.hash w =
        if tip.chainWork < addWork row.chainWork (params.bsv.workFromBits stored.bits) then
          (do let reorgDepth ← settleTip env ⟨stored.toBlockHeader, some row.headerId⟩ (some tip₁) false
              pure { dupe := true, isActiveTip := true, reorgDepth } : Writer InsertHeaderResult) w₁
        else (.ok { dupe := true }, w₁) := by
  have hcontext := habides.checkContext_ok hlive tree hrow hline hbranch hchild
  have hplanned : planRelink params w.db.rows stored.hash = .ok (.link stored row
      (addWork row.chainWork (params.bsv.workFromBits stored.bits))) := by
    have hfind : headerForHash w.db.rows stored.previousHash = some row := by
      rw [show stored.previousHash = row.hash from hchild.2]
      exact headerForHash_eq_some w.db.headers.uniqueHash hrow
    have hext : checkExtends "relink" stored.toBlockHeader row = .ok () := if_pos hchild.1
    have hctx : refusing stored.toBlockHeader (checkContext params (contextOf params w.db.rows row)
        stored.toBlockHeader) = .ok () := Except.mapError_eq_ok.mpr hcontext
    unfold planRelink
    rw [headerForHash_eq_some w.db.headers.uniqueHash hstored]
    dsimp only
    rw [hfind]
    dsimp only
    rw [hext, hctx]
    rfl
  generalize addWork row.chainWork (params.bsv.workFromBits stored.bits) = work at hplanned ⊢
  have hlive₁ := hlive.relink hstored hrow hchild.2.symm work
  generalize hw₁ : (⟨execAll (env.unixepoch w.asked) (relinkTxn stored row work) w.db, w.asked + 1,
    .commit w.db (relinkTxn stored row work) (execAll (env.unixepoch w.asked)
      (relinkTxn stored row work) w.db) :: .passed ((loadChain w.db.rows row
        (params.pow.windowDepth row.height)).map (·.toBlockHeader)) [] stored.toBlockHeader ::
          w.history⟩ : World) = w₁
  have hheaders : w₁.db.headers = onHeadersAll (relinkTxn stored row work) w.db.headers := by
    rw [← hw₁]
    exact execAll_headers ..
  change Live params offered (onHeadersAll (relinkTxn stored row work) w.db.headers) chain at hlive₁
  rw [← hheaders] at hlive₁
  have hrow₁ : ∃ r ∈ w₁.db.headers.rows, r.toBlockHeader = stored.toBlockHeader ∧
      r.previousHeaderId = some row.headerId := by
    rw [hheaders]
    refine ⟨_, HeaderTable.mem_update.mpr ⟨stored, hstored, rfl⟩, ?_⟩
    rw [if_pos (beq_self_eq_true _)]
    exact ⟨rfl, rfl⟩
  obtain ⟨r, hr, hrh, hrlink⟩ := hrow₁
  have hbranch₁ : Branch w₁.db.headers chain (stored.toBlockHeader :: path) above fork below := by
    have hkept := hbranch.mono w₁.db.headers fun row' hrow' => by
      obtain ⟨r', hr', hh, -⟩ := onHeadersAll_keeps (relinkTxn stored row work) hrow'
      exact ⟨r', hheaders ▸ hr', hh⟩
    refine hkept.cons ⟨r, hr, hrh⟩ hoff fun next hnext => ?_
    rw [head?_of_line hline, Option.some_inj] at hnext
    exact hnext ▸ hchild
  obtain ⟨tip₁, htip₁, htop⟩ := hlive₁.exists_chainTip (hlive.chainTip_eq htip)
  have hwork : tip₁.chainWork = tip.chainWork := by
    have hmem : tip₁ ∈ w₁.db.headers.rows := chainTip_mem htip₁
    rw [hheaders] at hmem
    obtain ⟨r₀, hr₀, he, -, hcells⟩ := HeaderTable.of_mem_update hmem
    obtain rfl : r₀ = tip := eq_of_toBlockHeader hr₀ (chainTip_mem htip) (he.symm.trans htop)
    rw [if_neg] at hcells
    · exact congrArg RowCells.chainWork hcells
    · rw [beq_iff_eq]
      intro hid
      obtain rfl := HeaderTable.eq_of_headerId hr₀ hstored hid
      exact hoff (List.mem_of_head? (hlive.chainTip_eq htip))
  refine ⟨w₁, tip₁, hlive₁, hbranch₁, ⟨r, hr, hrh, .inr hrlink.symm⟩, htip₁, ?_⟩
  have htakes : relinkTakesTip (some tip₁) work = decide (tip.chainWork < work) := by
    rw [← hwork]
    rfl
  unfold relinkOrphanAndReevaluate readRows
  rw [Prog.read_bind_apply, hplanned, Prog.ofExcept_ok_bind_apply]
  dsimp only
  have hcommitted : (do
      note (.passed ((loadChain w.db.rows row (params.pow.windowDepth row.height)).map
        (·.toBlockHeader)) [] stored.toBlockHeader)
      commit env (relinkTxn stored row work) : Writer Unit) w = (.ok (), w₁) := by
    rw [← hw₁]
    exact commit_ok (w := ⟨w.db, w.asked, _⟩) _ (hacc _)
  refine (Prog.bind_ok hcommitted).trans ?_
  change (if relinkTakesTip (chainTip w₁.db.rows) work = true then do
      let reorgDepth ← settleTip env ⟨stored.toBlockHeader, some row.headerId⟩
        (chainTip w₁.db.rows) false
      pure { dupe := true, isActiveTip := true, reorgDepth }
    else pure { dupe := true } : Writer InsertHeaderResult) w₁ = _
  rw [htip₁, htakes]
  by_cases houtworks : tip.chainWork < work
  · rw [if_pos houtworks, if_pos (decide_eq_true houtworks)]
  · rw [if_neg houtworks, if_neg (by rwa [decide_eq_true_eq])]
    rfl

/-- **A row off the chain on a stored branch, relinked**: the branch with it is the chain
exactly where its work on its parent's outworks the tip. -/
theorem Live.relink_onto
    (hreach : tip.chainWork < addWork row.chainWork (params.bsv.workFromBits stored.bits) →
      InReach (stored.toBlockHeader :: path) above) :
    ∃ result w', relinkOrphanAndReevaluate env params stored.hash w = (.ok result, w') ∧
      Live params offered w'.db.headers
        (if tip.chainWork < addWork row.chainWork (params.bsv.workFromBits stored.bits) then
          stored.toBlockHeader :: row.toBlockHeader :: line else chain) := by
  obtain ⟨w₁, tip₁, hlive₁, hbranch₁, hl, htip₁, hrun⟩ := Live.relink_entered hlive tree hacc htip
    hstored hoff hrow hline hbranch hchild habides
  rw [hrun]
  by_cases houtworks : tip.chainWork < addWork row.chainWork (params.bsv.workFromBits stored.bits)
  · obtain ⟨depth, w', hok, hlive', -⟩ := hbranch₁.settleTip_eq (hreach houtworks)
      hlive₁ tree hacc hl rfl htip₁
    rw [if_pos houtworks, if_pos houtworks, hline]
    exact ⟨_, w', Prog.bind_ok hok, hlive'⟩
  · rw [if_neg houtworks, if_neg houtworks]
    exact ⟨_, w₁, rfl, hlive₁⟩

/-- Out of a reorg's reach a row that outworks the tip ends the relink. -/
theorem Live.relink_far (hfar : reorgHeightThreshold < above.length)
    (houtworks : tip.chainWork < addWork row.chainWork (params.bsv.workFromBits stored.bits)) :
    ¬Prog.Answers (relinkOrphanAndReevaluate env params stored.hash) w := by
  obtain ⟨w₁, tip₁, hlive₁, hbranch₁, hl, htip₁, hrun⟩ := Live.relink_entered hlive tree hacc htip
    hstored hoff hrow hline hbranch hchild habides
  rw [Prog.Answers, hrun, if_pos houtworks]
  rintro ⟨result, w', h⟩
  obtain ⟨depth, s, hok, -⟩ := Prog.bind_eq_ok h
  exact absurd (hbranch₁.within_of_settled hlive₁ tree hl rfl htip₁ hok) (Nat.not_le.mpr hfar)

end Relink

end Growth

end Chaintracks

import Chaintracks.LiveChain
import Chaintracks.Regtest

/-!
# The live path keeps its chain

Each transaction of the live path takes a live store to a live store, and the active chain
to one that is read off the move: an extension puts its header on top
(`Chaintracks.Live.extend`), a reorg puts its branch on the ancestor
(`Chaintracks.Live.reorg`), a tip move on a row standing on the tip puts that row on top
(`Chaintracks.Live.moveTip`), and the rest leave the chain as it is. So every store a run
reaches is live, refused transactions and failed walks included
(`Chaintracks.live_run`), and what that says of the flag and the heights is
`Chaintracks.LiveShape`.
-/

namespace Chaintracks

open HeaderRows

/-! ### The rows after a transaction -/

section Rows

variable {t : HeaderTable} {row : HeaderRow} {hash : String}

/-- The rows after a tip move: the row named is active and flagged, no other is flagged. -/
theorem moveTip_row (h : row ∈ (onHeadersAll (moveTipTxn hash) t).rows) :
    ∃ r ∈ t.rows, row.toBlockHeader = r.toBlockHeader ∧ row.headerId = r.headerId ∧
      row.toRowCells = ⟨r.previousHeaderId, r.hash == hash || r.isActive, r.hash == hash,
        r.chainWork⟩ := by
  obtain ⟨r₁, hr₁, he₁, hi₁, hc₁⟩ := HeaderTable.of_mem_update h
  obtain ⟨r, hr, he, hi, hc⟩ := HeaderTable.of_mem_update hr₁
  have hhash : r₁.hash = r.hash := congrArg BlockHeader.hash he
  refine ⟨r, hr, he₁.trans he, hi₁.trans hi, ?_⟩
  rw [hc₁, hc, hhash]
  cases hflag : r.isChainTip <;> cases heq : r.hash == hash <;>
    refine RowCells.ext ?_ ?_ ?_ ?_ <;> simp [hflag]

/-- The rows after a branch was activated. -/
theorem activateAll_row {branch : List String}
    (h : row ∈ (onHeadersAll (branch.map .activateHash) t).rows) :
    ∃ r ∈ t.rows, row.toBlockHeader = r.toBlockHeader ∧ row.headerId = r.headerId ∧
      row.toRowCells = { r.toRowCells with isActive := branch.contains r.hash || r.isActive } := by
  induction branch generalizing t with
  | nil => exact ⟨row, h, rfl, rfl, rfl⟩
  | cons x xs ih =>
    obtain ⟨r₁, hr₁, he₁, hi₁, hc₁⟩ := ih h
    obtain ⟨r, hr, he, hi, hc⟩ := HeaderTable.of_mem_update hr₁
    have hhash : r₁.hash = r.hash := congrArg BlockHeader.hash he
    refine ⟨r, hr, he₁.trans he, hi₁.trans hi, ?_⟩
    have hact : r₁.isActive = r₁.toRowCells.isActive := rfl
    rw [hc₁, hact, hhash, hc, List.contains_cons]
    split
    · rename_i heq
      rw [heq]
      simp
    · rename_i hne
      rw [Bool.not_eq_true] at hne
      rw [hne, Bool.false_or]

/-- The rows after a reorg. -/
theorem reorg_rows {plan : ReorgPlan} (h : row ∈ (onHeadersAll (plan.txn hash) t).rows) :
    ∃ r ∈ t.rows, row.toBlockHeader = r.toBlockHeader ∧ row.headerId = r.headerId ∧
      row.toRowCells = ⟨r.previousHeaderId,
        r.hash == hash || (plan.branch.contains r.hash ||
          (r.isActive && decide (r.height ≤ plan.ancestorHeight))),
        r.hash == hash, r.chainWork⟩ := by
  have hsplit : plan.txn hash = .deactivateAbove plan.ancestorHeight ::
      (plan.branch.map .activateHash ++ .recordPendingReorg (plan.ancestorHeight + 1) ::
        moveTipTxn hash) := rfl
  rw [hsplit, onHeadersAll_cons, onHeadersAll_append] at h
  obtain ⟨r₂, hr₂, he₂, hi₂, hc₂⟩ := moveTip_row h
  obtain ⟨r₁, hr₁, he₁, hi₁, hc₁⟩ := activateAll_row hr₂
  obtain ⟨r, hr, he, hi, hc⟩ := HeaderTable.of_mem_update hr₁
  have hhash₂ : r₂.hash = r₁.hash := congrArg BlockHeader.hash he₁
  have hhash₁ : r₁.hash = r.hash := congrArg BlockHeader.hash he
  refine ⟨r, hr, he₂.trans (he₁.trans he), hi₂.trans (hi₁.trans hi), ?_⟩
  rw [hc₂, hhash₂, hhash₁]
  replace hc₁ : r₂.toRowCells = ⟨r₁.toRowCells.previousHeaderId,
    plan.branch.contains r₁.hash || r₁.toRowCells.isActive, r₁.toRowCells.isChainTip,
    r₁.toRowCells.chainWork⟩ := hc₁
  by_cases hle : r.height ≤ plan.ancestorHeight
  · rw [if_neg (by simp [hle])] at hc
    rw [hc, hhash₁] at hc₁
    refine RowCells.ext ?_ ?_ rfl ?_ <;> simp [hc₁, hle]
  · have hgt : plan.ancestorHeight < r.height := by omega
    cases hact : r.isActive with
    | false =>
      rw [if_neg (by simp [hact])] at hc
      rw [hc, hhash₁] at hc₁
      refine RowCells.ext ?_ ?_ rfl ?_ <;> simp [hc₁, hact]
    | true =>
      rw [if_pos (by simp [hact, hgt])] at hc
      rw [hc, hhash₁] at hc₁
      refine RowCells.ext ?_ ?_ rfl ?_ <;> simp [hc₁, hle]

end Rows

/-! ### What an admission says on a live store -/

section Admitted

variable {params : ChainParams} {offered : BlockHeader → Prop} {t : HeaderTable}
  {chain : List BlockHeader} {header anchor : BlockHeader} {a : Admission}

theorem checkCheckpoint_ok {height : Nat} {hash expected : String} {u : Unit}
    (h : checkCheckpoint params height hash = .ok u)
    (hcp : params.checkpointAt height = some expected) :
    eqIgnoreAsciiCase expected hash = true := by
  unfold checkCheckpoint at h
  rw [hcp] at h
  dsimp only at h
  split at h
  · assumption
  · cases h

theorem checkpointAt_mem {height : Nat} {hash : String}
    (h : params.checkpointAt height = some hash) : (height, hash) ∈ params.checkpoints := by
  obtain ⟨c, hc, rfl⟩ := Option.map_eq_some_iff.mp h
  have hh := List.find?_some hc
  rw [← beq_iff_eq.mp hh]
  exact List.mem_of_find?_eq_some hc

/-- The list of checkpoints has one a height. -/
theorem checkpointAt_of_mem {height : Nat} {hash : String}
    (h : (height, hash) ∈ params.checkpoints) : params.checkpointAt height = some hash := by
  have hsome : (params.checkpointAt height).isSome = true := by
    rw [ChainParams.checkpointAt, Option.isSome_map, List.find?_isSome]
    exact ⟨_, h, beq_self_eq_true _⟩
  obtain ⟨other, ho⟩ := Option.isSome_iff_exists.mp hsome
  have hnodup : (params.checkpoints.map (·.1)).Nodup :=
    List.pairwise_map.mpr (params.ascending.imp Nat.ne_of_lt)
  have := List.inj_on_of_nodup_map hnodup h (checkpointAt_mem ho) rfl
  cases this
  exact ho

/-- A header of the tree that answers to a checkpoint carries its hash. -/
theorem checkpoint_hash (tree : HeaderTree params offered) (hoffered : offered header)
    {hash : String}
    {u : Unit} (hcheck : checkCheckpoint params header.height header.hash = .ok u)
    (hcp : (header.height, hash) ∈ params.checkpoints) : header.hash = hash :=
  (eq_of_eqIgnoreAsciiCase (checkCheckpoint_ok hcheck (checkpointAt_of_mem hcp))
    (params.lowercase _ hcp)
    (tree.lowercase _ hoffered (.inr (by rw [checkpointAt_of_mem hcp]; rfl)))).symm

/-- Every admitted header answers to the checkpoint at its height. -/
theorem Admitted.checkpoint (h : Admitted params t.rows header a) :
    checkCheckpoint params header.height header.hash = .ok () := by
  cases hp : previousOf t.rows header with
  | some parent => exact (checkContext_ok (h.onParent parent hp).2.1).1
  | none => exact (checkUnlinked_ok (h.unlinked hp)).checkpoint

/-- An admitted header at height zero is the genesis. -/
theorem Admitted.genesis (h : Admitted params t.rows header a) (hz : header.height = 0) :
    eqIgnoreAsciiCase header.hash params.genesisHash = true := by
  cases hp : previousOf t.rows header with
  | some parent =>
    have := (h.onParent parent hp).1
    omega
  | none => exact ((checkUnlinked_ok (h.unlinked hp)).genesis (.inl hz)).2.2

theorem Admitted.rooted (h : Admitted params t.rows header a)
    (hz : header.previousHash = zeroHash) : header.height = 0 := by
  have hp : previousOf t.rows header = none := by
    rw [previousOf, if_neg (not_not_intro hz)]
  exact ((checkUnlinked_ok (h.unlinked hp)).genesis (.inr hz)).2.1

theorem Admitted.link (h : Admitted params t.rows header a) {id : Nat}
    (hid : a.previous.map (·.headerId) = some id) :
    ∃ p ∈ t.rows, p.headerId = id ∧ p.hash = header.previousHash := by
  obtain ⟨p, hp, rfl⟩ := Option.map_eq_some_iff.mp hid
  have hfind := previousOf_some (h.previous ▸ hp)
  exact ⟨p, headerForHash_mem hfind, rfl, headerForHash_hash hfind⟩

/-- The first header of a store is an anchor. -/
theorem Admitted.anchor_of_empty (h : Admitted params t.rows header a)
    (tree : HeaderTree params offered)
    (hoffered : offered header) (hempty : t.rows = []) : Anchor params header := by
  have hp : previousOf t.rows header = none := by
    rw [previousOf, hempty]
    split <;> rfl
  have hu := h.unlinked hp
  rw [hempty] at hu
  have hu' := checkUnlinked_ok hu
  have htrue := hu'.anchored_of_empty
  rw [htrue] at hu'
  rcases hu'.anchor with hg | hcp
  · exact .inl hg
  · obtain ⟨hash, hh⟩ := Option.isSome_iff_exists.mp hcp
    have hmem := checkpointAt_mem hh
    rw [← checkpoint_hash tree hoffered hu'.checkpoint hmem] at hmem
    exact .inr hmem

theorem mem_takeWhile_above {cps : List (Nat × String)} {c : Nat × String} {height : Nat}
    (hsorted : cps.Pairwise fun a b => b.1 < a.1) (hc : c ∈ cps) (hlt : height < c.1) :
    c ∈ cps.takeWhile fun c => height < c.1 := by
  induction cps with
  | nil => cases hc
  | cons x xs ih =>
    obtain ⟨hx, hxs⟩ := List.pairwise_cons.mp hsorted
    rcases List.mem_cons.mp hc with rfl | hc
    · rw [List.takeWhile_cons, if_pos (decide_eq_true hlt)]
      exact List.mem_cons_self
    · have := hx c hc
      rw [List.takeWhile_cons, if_pos (decide_eq_true (by omega))]
      exact List.mem_cons_of_mem _ (ih hxs hc)

/-- **No header is let in below the anchor**, nor beside it. -/
theorem Admitted.above_anchor (had : Admitted params t.rows header a)
    (h : Live params offered t chain) (tree : HeaderTree params offered) (hoffered : offered header)
    (hfresh : headerForHash t.rows header.hash = none) (hlast : chain.getLast? = some anchor) :
    anchor.height < header.height := by
  have hmem : anchor ∈ chain := List.mem_of_getLast? hlast
  obtain ⟨row, hrow, rfl⟩ := h.stored anchor hmem
  have hne : header.hash ≠ row.hash := fun he => headerForHash_eq_none.mp hfresh row hrow he.symm
  by_contra hge
  rcases (h.anchored _ hlast).1 with ⟨hz, hg⟩ | hcp
  · -- below the genesis there is nothing, and beside it only itself
    have hheight : header.height = 0 := by omega
    refine hne (eq_of_eqIgnoreAsciiCase ?_ (tree.lowercase _ hoffered (.inl hheight))
      (tree.lowercase _ (h.given row hrow) (.inl hz)))
    have hg' := had.genesis hheight
    rw [eqIgnoreAsciiCase, beq_iff_eq] at hg hg' ⊢
    exact hg'.trans hg.symm
  · by_cases heq : header.height = row.height
    · exact hne (checkpoint_hash tree hoffered had.checkpoint (heq ▸ hcp))
    · -- the checkpoint is held at or below the tip: no header below it is let in
      obtain ⟨head, hhead⟩ : ∃ head, chain.head? = some head := by
        cases chain with
        | nil => cases hmem
        | cons x xs => exact ⟨x, rfl⟩
      obtain ⟨tip, htip, rfl⟩ := h.exists_chainTip hhead
      have hle := chain_le_head h.linked hhead _ hmem
      have hnone := had.noCheckpointAbove
      rw [htip, storedCheckpointAbove, Option.map_eq_none_iff, List.find?_eq_none] at hnone
      have hsorted : params.checkpoints.reverse.Pairwise fun a b => b.1 < a.1 :=
        List.pairwise_reverse.mpr params.ascending
      have hlt : header.height < row.height := by omega
      have hin := mem_takeWhile_above hsorted (List.mem_reverse.mpr hcp) hlt
      refine hnone _ hin ?_
      rw [Bool.and_eq_true, decide_eq_true_eq, headerForHash_eq_some t.uniqueHash hrow]
      exact ⟨hle, rfl⟩

end Admitted

/-! ### A transaction on a live store -/

section Frame

variable {params : ChainParams} {offered : BlockHeader → Prop} {t : HeaderTable}
  {chain chain' : List BlockHeader} {header : BlockHeader} {txn : List Stmt}
  {anchor : Option BlockHeader}

/-- What holds of all rows holds after a transaction that inserts none and sets no link
but to the parent named. -/
theorem Stocked.after (h : Stocked params offered t anchor)
    (hback : ∀ row ∈ (onHeadersAll txn t).rows, ∃ r ∈ t.rows,
      row.toBlockHeader = r.toBlockHeader ∧ row.headerId = r.headerId ∧
        (row.previousHeaderId = r.previousHeaderId ∨
          ∃ p ∈ t.rows, row.previousHeaderId = some p.headerId ∧ p.hash = r.previousHash)) :
    Stocked params offered (onHeadersAll txn t) anchor where
  given row hrow := by
    obtain ⟨r, hr, he, -⟩ := hback row hrow
    exact he ▸ h.given r hr
  links row hrow id hid := by
    obtain ⟨r, hr, he, -, hlink⟩ := hback row hrow
    have hprev : row.previousHash = r.previousHash := congrArg BlockHeader.previousHash he
    obtain ⟨p, hp, hpid, hph⟩ : ∃ p ∈ t.rows, p.headerId = id ∧ p.hash = r.previousHash := by
      rcases hlink with hlink | ⟨p, hp, hlink, hph⟩
      · exact h.links r hr id (hlink ▸ hid)
      · exact ⟨p, hp, Option.some_inj.mp (hlink.symm.trans hid), hph⟩
    obtain ⟨p', hp', he', hi'⟩ := onHeadersAll_keeps txn hp
    have hph' : p'.hash = p.hash := congrArg BlockHeader.hash he'
    exact ⟨p', hp', hi'.trans hpid, hph'.trans (hph.trans hprev.symm)⟩
  rooted row hrow hz := by
    obtain ⟨r, hr, he, -⟩ := hback row hrow
    have hprev : row.previousHash = r.previousHash := congrArg BlockHeader.previousHash he
    have hheight : row.height = r.height := congrArg BlockHeader.height he
    exact hheight ▸ h.rooted r hr (hprev ▸ hz)
  anchored a ha := by
    refine ⟨(h.anchored a ha).1, fun row hrow hne => ?_⟩
    obtain ⟨r, hr, he, -⟩ := hback row hrow
    have hheight : row.height = r.height := congrArg BlockHeader.height he
    exact hheight ▸ (h.anchored a ha).2 r hr (he ▸ hne)

/-- A chain is the active chain after a transaction that inserts no row and leaves active
what is on it and flagged what is its head. -/
theorem ActiveChain.after (linked : chain'.IsChain ChildOf)
    (stored : ∀ x ∈ chain', ∃ row ∈ t.rows, row.toBlockHeader = x)
    (hback : ∀ row ∈ (onHeadersAll txn t).rows, ∃ r ∈ t.rows,
      row.toBlockHeader = r.toBlockHeader ∧ (row.isActive = true ↔ r.toBlockHeader ∈ chain') ∧
        (row.isChainTip = true ↔ chain'.head? = some r.toBlockHeader)) :
    ActiveChain (onHeadersAll txn t) chain' where
  linked := linked
  stored x hx := by
    obtain ⟨row, hrow, rfl⟩ := stored x hx
    obtain ⟨r, hr, he, -⟩ := onHeadersAll_keeps txn hrow
    exact ⟨r, hr, he⟩
  active row hrow := by
    obtain ⟨r, -, he, hact, -⟩ := hback row hrow
    rw [hact, he]
  flagged row hrow := by
    obtain ⟨r, -, he, -, hflag⟩ := hback row hrow
    rw [hflag, he]

theorem Stocked.insert (h : Stocked params offered t anchor) {cells : RowCells}
    (given : offered header)
    (link : ∀ id, cells.previousHeaderId = some id →
      ∃ p ∈ t.rows, p.headerId = id ∧ p.hash = header.previousHash)
    (rooted : header.previousHash = zeroHash → header.height = 0)
    (above : ∀ a, anchor = some a → header ≠ a → a.height < header.height) :
    Stocked params offered (t.insert header cells) anchor where
  given row hrow := by
    rcases HeaderTable.mem_insert hrow with hrow | ⟨rfl, -⟩
    · exact h.given row hrow
    · exact given
  links row hrow id hid := by
    obtain ⟨p, hp, hpid, hph⟩ : ∃ p ∈ t.rows, p.headerId = id ∧ p.hash = row.previousHash := by
      rcases HeaderTable.mem_insert hrow with hrow | ⟨rfl, -⟩
      · exact h.links row hrow id hid
      · exact link id hid
    exact ⟨p, HeaderTable.mem_insert_of_mem hp, hpid, hph⟩
  rooted row hrow hz := by
    rcases HeaderTable.mem_insert hrow with hrow | ⟨rfl, -⟩
    · exact h.rooted row hrow hz
    · exact rooted hz
  anchored a ha := by
    refine ⟨(h.anchored a ha).1, fun row hrow hne => ?_⟩
    rcases HeaderTable.mem_insert hrow with hrow | ⟨rfl, -⟩
    · exact (h.anchored a ha).2 row hrow hne
    · exact above a ha hne

/-- A header inserted inactive leaves the chain as it is. -/
theorem ActiveChain.insert (h : ActiveChain t chain)
    (hfresh : headerForHash t.rows header.hash = none) (prev : Option Nat) (work : Nat) :
    ActiveChain (t.insert header ⟨prev, false, false, work⟩) chain where
  linked := h.linked
  stored x hx := by
    obtain ⟨row, hrow, rfl⟩ := h.stored x hx
    exact ⟨row, HeaderTable.mem_insert_of_mem hrow, rfl⟩
  active row hrow := by
    rcases HeaderTable.mem_insert hrow with hrow | ⟨rfl, -⟩
    · exact h.active row hrow
    · refine iff_of_false Bool.false_ne_true fun hmem => ?_
      obtain ⟨row, hrow, he⟩ := h.stored _ hmem
      exact headerForHash_eq_none.mp hfresh row hrow (congrArg BlockHeader.hash he)
  flagged row hrow := by
    rcases HeaderTable.mem_insert hrow with hrow | ⟨rfl, -⟩
    · exact h.flagged row hrow
    · refine iff_of_false Bool.false_ne_true fun hhead => ?_
      obtain ⟨row, hrow, he⟩ := h.stored _ (List.mem_of_head? hhead)
      exact headerForHash_eq_none.mp hfresh row hrow (congrArg BlockHeader.hash he)

end Frame

/-! ### The moves of the live path, on the chain -/

section Moves

variable {params : ChainParams} {offered : BlockHeader → Prop} {t : HeaderTable}
  {chain : List BlockHeader} {header : BlockHeader} {a : Admission} {row tip : HeaderRow}

/-- A row that stands on the chain's head goes on top of it. -/
theorem Live.linked_cons (h : Live params offered t chain) (tree : HeaderTree params offered)
    (hoffered : offered header) (htip : chainTip t.rows = some tip)
    (hprev : header.previousHash = tip.hash) : (header :: chain).IsChain ChildOf := by
  have hhead := h.chainTip_eq htip
  have hheight := tree.heights header tip.toBlockHeader hoffered
    (h.given tip (chainTip_mem htip)) hprev
  refine List.isChain_cons.mpr ⟨fun x hx => ?_, h.linked⟩
  rw [Option.mem_def, hhead, Option.some_inj] at hx
  exact hx ▸ ⟨hheight, hprev⟩

/-- The flag is at the chain's head, so a chain with a flagged row has one. -/
theorem Live.getLast?_cons (h : Live params offered t chain) (htip : chainTip t.rows = some tip) :
    (header :: chain).getLast? = chain.getLast? := by
  have hhead := h.chainTip_eq htip
  cases chain with
  | nil => cases hhead
  | cons x xs => rw [List.getLast?_cons_cons]

/-- **A tip move on a row standing on the tip** puts that row on the chain. -/
theorem Live.moveTip (h : Live params offered t chain) (tree : HeaderTree params offered)
    (hrow : row ∈ t.rows) (htip : chainTip t.rows = some tip)
    (hprev : row.previousHash = tip.hash) :
    Live params offered (onHeadersAll (moveTipTxn row.hash) t) (row.toBlockHeader :: chain) where
  toActiveChain := by
    refine .after (h.linked_cons tree (h.given row hrow) htip hprev) ?_ ?_
    · intro x hx
      rcases List.mem_cons.mp hx with rfl | hx
      · exact ⟨row, hrow, rfl⟩
      · exact h.stored x hx
    · intro r' hr'
      obtain ⟨r, hr, he, -, hc⟩ := moveTip_row hr'
      have hact : r'.isActive = (r.hash == row.hash || r.isActive) := congrArg RowCells.isActive hc
      have hflag : r'.isChainTip = (r.hash == row.hash) := congrArg RowCells.isChainTip hc
      have hsame : r.hash = row.hash ↔ r.toBlockHeader = row.toBlockHeader :=
        ⟨fun hh => by rw [HeaderTable.eq_of_hash hr hrow hh], congrArg BlockHeader.hash⟩
      refine ⟨r, hr, he, ?_, ?_⟩
      · rw [hact, Bool.or_eq_true, beq_iff_eq, hsame, h.active r hr, List.mem_cons]
      · rw [hflag, beq_iff_eq, hsame, List.head?_cons, Option.some_inj, eq_comm]
  toStocked := by
    rw [h.getLast?_cons htip]
    refine h.toStocked.after fun r' hr' => ?_
    obtain ⟨r, hr, he, hi, hc⟩ := moveTip_row hr'
    have hlink : r'.previousHeaderId = r.previousHeaderId := by rw [hc]
    exact ⟨r, hr, he, hi, .inl hlink⟩
  held := nofun

/-- A tip move on the flagged row leaves the chain as it is. -/
theorem Live.moveTip_same (h : Live params offered t chain) (hrow : row ∈ t.rows)
    (hflagged : row.isChainTip = true) :
    Live params offered (onHeadersAll (moveTipTxn row.hash) t) chain := by
  have hhead := (h.flagged row hrow).mp hflagged
  refine ⟨.after h.linked h.stored fun r' hr' => ?_, h.toStocked.after fun r' hr' => ?_, ?_⟩
  · obtain ⟨r, hr, he, -, hc⟩ := moveTip_row hr'
    have hact : r'.isActive = (r.hash == row.hash || r.isActive) := congrArg RowCells.isActive hc
    have hflag : r'.isChainTip = (r.hash == row.hash) := congrArg RowCells.isChainTip hc
    refine ⟨r, hr, he, ?_, ?_⟩
    · rw [hact, Bool.or_eq_true, beq_iff_eq, h.active r hr]
      refine ⟨fun hor => hor.elim (fun hh => ?_) id, .inr⟩
      rw [HeaderTable.eq_of_hash hr hrow hh]
      exact List.mem_of_head? hhead
    · rw [hflag, beq_iff_eq, hhead, Option.some_inj]
      exact ⟨fun hh => by rw [HeaderTable.eq_of_hash hr hrow hh],
        fun hh => (congrArg BlockHeader.hash hh).symm⟩
  · obtain ⟨r, hr, he, hi, hc⟩ := moveTip_row hr'
    have hlink : r'.previousHeaderId = r.previousHeaderId := by rw [hc]
    exact ⟨r, hr, he, hi, .inl hlink⟩
  · rintro rfl
    cases hhead

/-- A relink leaves the chain as it is. -/
theorem Live.relink (h : Live params offered t chain) {stored parent : HeaderRow}
    (hstored : stored ∈ t.rows) (hparent : parent ∈ t.rows)
    (hprev : parent.hash = stored.previousHash) (work : Nat) :
    Live params offered (onHeadersAll [.relinkHeader (some parent.headerId) work stored.headerId] t)
      chain := by
  refine ⟨.after h.linked h.stored fun r' hr' => ?_, h.toStocked.after fun r' hr' => ?_, ?_⟩
  · obtain ⟨r, hr, he, -, hc⟩ := HeaderTable.of_mem_update hr'
    refine ⟨r, hr, he, ?_, ?_⟩
    · rw [← h.active r hr, hc]
      split <;> rfl
    · rw [← h.flagged r hr, hc]
      split <;> rfl
  · obtain ⟨r, hr, he, hi, hc⟩ := HeaderTable.of_mem_update hr'
    refine ⟨r, hr, he, hi, ?_⟩
    split at hc
    · rename_i hid
      have : r = stored := HeaderTable.eq_of_headerId hr hstored (beq_iff_eq.mp hid)
      exact .inr ⟨parent, hparent, congrArg RowCells.previousHeaderId hc, this ▸ hprev⟩
    · exact .inl (congrArg RowCells.previousHeaderId hc)
  · intro hnil
    rw [h.held hnil] at hstored
    cases hstored

/-- **A reorg** puts its branch on the ancestor, in the place of what stood above it. -/
theorem Live.reorg (h : Live params offered t chain) (hrow : row ∈ t.rows) {plan : ReorgPlan}
    {above below path : List BlockHeader} {ancestor : BlockHeader}
    (hspec : PlanSpec t chain row.toBlockHeader plan above ancestor below path) :
    Live params offered (onHeadersAll (plan.txn row.hash) t) (path ++ ancestor :: below) := by
  have hlinked := h.linked
  rw [hspec.chain_eq] at hlinked
  have hlast : (path ++ ancestor :: below).getLast? = chain.getLast? := by
    rw [hspec.chain_eq, List.getLast?_append, List.getLast?_append]
    cases hb : (ancestor :: below).getLast? with
    | none => cases List.getLast?_eq_none_iff.mp hb
    | some last => rfl
  have hhead : (path ++ ancestor :: below).head? = some row.toBlockHeader := by
    rw [← hspec.head]
    cases path <;> rfl
  -- a row of one of these hashes is the header's own
  have hmem : ∀ r ∈ t.rows, ∀ x, (∃ row ∈ t.rows, row.toBlockHeader = x) →
      (r.hash = x.hash ↔ r.toBlockHeader = x) := by
    rintro r hr x ⟨row, hrow, rfl⟩
    exact ⟨fun hh => by rw [HeaderTable.eq_of_hash hr hrow hh], congrArg BlockHeader.hash⟩
  refine ⟨.after ?_ ?_ fun r' hr' => ?_, ?_, ?_⟩
  · rw [List.append_cons]
    exact hspec.linked.append_overlap (List.isChain_append.mp hlinked).2.1 (List.cons_ne_nil _ _)
  · intro x hx
    rcases List.mem_append.mp hx with hx | hx
    · exact hspec.stored x hx
    · exact h.stored x (hspec.chain_eq ▸ List.mem_append_right _ hx)
  · obtain ⟨r, hr, he, -, hc⟩ := reorg_rows hr'
    have hact : r'.isActive = (r.hash == row.hash || (plan.branch.contains r.hash ||
        (r.isActive && decide (r.height ≤ plan.ancestorHeight)))) := congrArg RowCells.isActive hc
    have hflag : r'.isChainTip = (r.hash == row.hash) := congrArg RowCells.isChainTip hc
    have hself := hmem r hr _ ⟨row, hrow, rfl⟩
    refine ⟨r, hr, he, ?_, ?_⟩
    · rw [hact, hspec.branch, hspec.height, Bool.or_eq_true, Bool.or_eq_true, Bool.and_eq_true,
        beq_iff_eq, decide_eq_true_eq, List.contains_iff_mem, List.mem_map, h.active r hr,
        List.mem_append]
      constructor
      · rintro (hh | ⟨p, hp, hh⟩ | ⟨hc, hle⟩)
        · rw [hself.mp hh]
          exact List.mem_append.mp (List.mem_of_head? hhead)
        · exact .inl ((hmem r hr p (hspec.stored p hp)).mp hh.symm ▸ hp)
        · rw [hspec.chain_eq, List.mem_append] at hc
          refine .inr (hc.resolve_left fun habove => ?_)
          have := chain_height_above hlinked _ habove
          omega
      · rintro (hp | hbelow)
        · exact .inr (.inl ⟨_, hp, rfl⟩)
        · refine .inr (.inr ⟨hspec.chain_eq ▸ List.mem_append_right _ hbelow, ?_⟩)
          rcases List.mem_cons.mp hbelow with heq | hbelow
          · rw [heq]
          · exact Nat.le_of_lt (chain_height_below hlinked _ hbelow)
    · rw [hflag, beq_iff_eq, hself, hhead, Option.some_inj, eq_comm]
  · rw [hlast]
    refine h.toStocked.after fun r' hr' => ?_
    obtain ⟨r, hr, he, hi, hc⟩ := reorg_rows hr'
    have hlink : r'.previousHeaderId = r.previousHeaderId := by rw [hc]
    exact ⟨r, hr, he, hi, .inl hlink⟩
  · intro hnil
    cases path <;> cases hnil

/-- The chain with the inserted header on top, as the insertion and the tip's move leave
it. -/
theorem ActiveChain.extend (h : ActiveChain t chain)
    (hfresh : headerForHash t.rows header.hash = none)
    (linked : (header :: chain).IsChain ChildOf) (prev : Option Nat) (work : Nat) :
    ActiveChain (onHeadersAll (moveTipTxn header.hash) (t.insert header ⟨prev, true, false, work⟩))
      (header :: chain) := by
  have hnew : (t.insert header ⟨prev, true, false, work⟩).rows = t.rows ++ [t.newRow header _] :=
    HeaderTable.insert_rows (headerForHash_eq_none.mp hfresh)
  refine .after linked (fun x hx => ?_) fun r' hr' => ?_
  · rcases List.mem_cons.mp hx with rfl | hx
    · refine ⟨t.newRow x ⟨prev, true, false, work⟩, ?_, rfl⟩
      rw [hnew]
      exact List.mem_append_right _ (List.mem_singleton_self _)
    · obtain ⟨row, hrow, rfl⟩ := h.stored x hx
      exact ⟨row, HeaderTable.mem_insert_of_mem hrow, rfl⟩
  · obtain ⟨r, hr, he, -, hc⟩ := moveTip_row hr'
    have hact : r'.isActive = (r.hash == header.hash || r.isActive) := by rw [hc]
    have hflag : r'.isChainTip = (r.hash == header.hash) := by rw [hc]
    refine ⟨r, hr, he, ?_, ?_⟩
    · rw [hact, Bool.or_eq_true, beq_iff_eq, List.mem_cons]
      rcases HeaderTable.mem_insert hr with hr | ⟨rfl, -⟩
      · rw [h.active r hr]
        refine or_congr_left (iff_of_false (headerForHash_eq_none.mp hfresh r hr) fun hh => ?_)
        exact headerForHash_eq_none.mp hfresh r hr (congrArg BlockHeader.hash hh)
      · exact iff_of_true (.inl rfl) (.inl rfl)
    · rw [hflag, beq_iff_eq, List.head?_cons, Option.some_inj]
      rcases HeaderTable.mem_insert hr with hr | ⟨rfl, -⟩
      · refine iff_of_false (headerForHash_eq_none.mp hfresh r hr) fun hh => ?_
        exact headerForHash_eq_none.mp hfresh r hr (congrArg BlockHeader.hash hh.symm)
      · exact iff_of_true rfl rfl

theorem Stocked.of_empty (hempty : t.rows = []) {x : BlockHeader} (hanchor : Anchor params x) :
    Stocked params offered t (some x) := by
  refine ⟨?_, ?_, ?_, fun a ha => ⟨Option.some_inj.mp ha ▸ hanchor, ?_⟩⟩ <;>
    (rw [hempty]; exact List.forall_mem_nil _)

/-- **An insertion**: the header goes on top of the chain where it is let in active, and
beside it otherwise. -/
theorem Live.insertion (h : Live params offered t chain) (tree : HeaderTree params offered)
    (hoffered : offered header) (hfresh : headerForHash t.rows header.hash = none)
    (had : Admitted params t.rows header a) :
    Live params offered (onHeadersAll (a.txn header) t)
      (if a.isActive header then header :: chain else chain) := by
  have hstocked : ∀ {anchor : Option BlockHeader} (act : Bool),
      Stocked params offered t anchor →
      (∀ x, anchor = some x → header ≠ x → x.height < header.height) →
      Stocked params offered
        (t.insert header ⟨a.previous.map (·.headerId), act, false, a.chainWork⟩) anchor :=
    fun act hs habove => hs.insert hoffered (fun id hid => had.link hid) had.rooted habove
  have habove : ∀ x, chain.getLast? = some x → header ≠ x → x.height < header.height :=
    fun x hx _ => had.above_anchor h tree hoffered hfresh hx
  unfold Admission.txn Admission.insertion
  cases hact : a.isActive header with
  | false =>
    refine ⟨h.toActiveChain.insert hfresh _ _, hstocked false h.toStocked habove, ?_⟩
    -- a header let in beside the chain found a tip
    intro hnil
    have htip : a.tip = none := by
      rw [had.tip, h.held hnil]
      rfl
    rw [Admission.isActive, Admission.becomesTip, Admission.extendsTip, htip] at hact
    cases hact
  | true =>
    rw [if_pos rfl, if_pos rfl, onHeadersAll_cons]
    have hmoved : ∀ {u : HeaderTable} {anchor : Option BlockHeader},
        Stocked params offered u anchor →
        Stocked params offered (onHeadersAll (moveTipTxn header.hash) u) anchor := by
      refine fun hu => hu.after fun r' hr' => ?_
      obtain ⟨r, hr, he, hi, hc⟩ := moveTip_row hr'
      have hlink : r'.previousHeaderId = r.previousHeaderId := by rw [hc]
      exact ⟨r, hr, he, hi, .inl hlink⟩
    cases htip : chainTip t.rows with
    | none =>
      -- the first header of the store
      obtain ⟨hempty, rfl⟩ := h.empty_of_chainTip htip
      refine ⟨h.toActiveChain.extend hfresh (List.isChain_singleton _) _ _, hmoved ?_,
        fun hnil => absurd hnil (List.cons_ne_nil _ _)⟩
      exact hstocked true (.of_empty hempty (had.anchor_of_empty tree hoffered hempty))
        fun x hx hne => absurd (Option.some_inj.mp hx) hne
    | some tip =>
      have hprev : header.previousHash = tip.hash := by
        have hext := (Bool.and_eq_true_iff.mp hact).2
        rw [Admission.extendsTip, had.tip, htip] at hext
        exact beq_iff_eq.mp hext
      refine ⟨h.toActiveChain.extend hfresh (h.linked_cons tree hoffered htip hprev) _ _,
        hmoved ?_, fun hnil => absurd hnil (List.cons_ne_nil _ _)⟩
      rw [h.getLast?_cons htip]
      exact hstocked true h.toStocked habove

/-- **Every move of the live path keeps a live store.** -/
theorem Live.move {w : World} {txn : List Stmt} (h : Live params offered w.db.headers chain)
    (tree : HeaderTree params offered) (hmove : LiveMove params offered w txn) :
    ∃ chain', Live params offered (onHeadersAll txn w.db.headers) chain' := by
  cases hmove with
  | insertion header a given pow fresh admitted noted =>
    exact ⟨_, h.insertion tree given fresh (admission_ok admitted)⟩
  | reorg new row tip plan stored same link flagged apart outworks cleared planned =>
    obtain ⟨above, ancestor, below, path, hspec⟩ :=
      h.plan_spec tree ⟨row, stored, same, link⟩ flagged planned
    rw [← same] at hspec
    rw [show new.hash = row.hash from (congrArg BlockHeader.hash same).symm]
    exact ⟨_, h.reorg stored hspec⟩
  | moveTip row stored cleared stands =>
    rcases stands with ⟨-, hflag⟩ | hstands
    · exact ⟨_, h.moveTip_same stored hflag⟩
    · cases htip : chainTip w.db.rows with
      | none =>
        have hempty : w.db.rows = [] := (h.empty_of_chainTip htip).1
        rw [hempty] at stored
        cases stored
      | some tip => exact ⟨_, h.moveTip tree stored htip (hstands tip htip).1⟩
  | relink hash stored parent chainWork planned cleared =>
    have hlink := planRelink_link planned
    exact ⟨chain, h.relink (headerForHash_mem hlink.found) (headerForHash_mem hlink.foundParent)
      (headerForHash_hash hlink.foundParent) chainWork⟩

end Moves

/-! ### Runs of the live path -/

/-- A call of the live path, on headers of a set. -/
def LiveCall (offered : BlockHeader → Prop) : Call → Prop
  | .insertHeader header | .insertWithParentBackfill header => offered header
  | .relinkOrphanAndReevaluate _ => True
  | _ => False

section Runs

variable {env : Env} {params : ChainParams} {offered : BlockHeader → Prop} {calls : List Call}
  {w : World}

theorem via_liveCall {call : Call} (hserves : env.Serves offered) (h : LiveCall offered call)
    (w : World) :
    Relation.ReflTransGen (Step params (LiveMove params offered)) w (call.run env params w) := by
  cases call with
  | insertHeader header => exact via_insertHeader env params h w
  | insertWithParentBackfill header => exact via_backfill env params hserves h w
  | relinkOrphanAndReevaluate hash => exact via_relink env params hash w
  | _ => exact absurd h id

/-- A run of live calls makes only live moves. -/
theorem via_liveRun (hserves : env.Serves offered) (h : ∀ call ∈ calls, LiveCall offered call)
    (w : World) :
    Relation.ReflTransGen (Step params (LiveMove params offered)) w
      (runAll env params calls w) := by
  induction calls generalizing w with
  | nil => exact Relation.ReflTransGen.refl
  | cons call calls ih =>
    exact (via_liveCall hserves (h call List.mem_cons_self) w).trans
      (ih (fun c hc => h c (List.mem_cons_of_mem _ hc)) _)

theorem Live.init : Live params offered World.init.db.headers [] := by
  refine ⟨⟨List.isChain_nil, ?_, ?_, ?_⟩, ⟨?_, ?_, ?_, nofun⟩, fun _ => rfl⟩ <;>
    simp [World.init, Store.fresh]

/-- **Every store the live path leaves is live.** -/
theorem live_steps (tree : HeaderTree params offered)
    (h : Relation.ReflTransGen (Step params (LiveMove params offered)) .init w) :
    (∃ chain, Live params offered w.db.headers chain) ∧
      EachCommit (fun _ _ _ after => ∃ chain, Live params offered after.headers chain)
        w.history := by
  refine steps_invariant (C := fun _ _ _ _ => True)
    (I := fun w => ∃ chain, Live params offered w.db.headers chain)
    (D := fun _ _ _ after => ∃ chain, Live params offered after.headers chain)
    (fun _ hw => hw) (fun _ _ _ _ hw => hw) ?_ ⟨[], .init⟩ h fun _ _ _ _ _ _ => trivial
  rintro w now txn hmove ⟨chain, hlive⟩ -
  have hafter : ∃ chain, Live params offered (execAll now txn w.db).headers chain := by
    rw [execAll_headers]
    exact hlive.move tree hmove
  exact ⟨hafter, hafter⟩

theorem live_run (tree : HeaderTree params offered) (hserves : env.Serves offered)
    (h : ∀ call ∈ calls, LiveCall offered call) :
    ∃ chain, Live params offered (runAll env params calls .init).db.headers chain :=
  (live_steps tree (via_liveRun hserves h .init)).1

end Runs

/-! ### The shape of the active chain -/

/-- **The shape of the rows**: at most one flagged row, active and highest; and unless the
store is empty, one active row a height from the anchor's to the flagged row's, each
standing on the one below. The anchor is the genesis or a checkpoint, and every other row
stands above it. -/
structure LiveShape (params : ChainParams) (rows : List HeaderRow) : Prop where
  oneTip : ∀ r ∈ rows, ∀ r' ∈ rows, r.isChainTip = true → r'.isChainTip = true → r = r'
  tipActive : ∀ tip ∈ rows, tip.isChainTip = true →
    tip.isActive = true ∧ ∀ r ∈ rows, r.isActive = true → r.height ≤ tip.height
  span : rows = [] ∨ ∃ anchor ∈ rows, ∃ tip ∈ rows,
    (Anchor params anchor.toBlockHeader ∧ anchor.isActive = true ∧
      ∀ r ∈ rows, r ≠ anchor → anchor.height < r.height) ∧
    tip.isChainTip = true ∧
    (∀ r ∈ rows, r.isActive = true → anchor.height ≤ r.height ∧ r.height ≤ tip.height) ∧
    (∀ height, anchor.height ≤ height → height ≤ tip.height →
      ∃! r, r ∈ rows ∧ r.isActive = true ∧ r.height = height) ∧
    ∀ r ∈ rows, ∀ below ∈ rows, r.isActive = true → below.isActive = true →
      r.height = below.height + 1 → r.previousHash = below.hash

section Shape

variable {params : ChainParams} {offered : BlockHeader → Prop} {t : HeaderTable}
  {chain : List BlockHeader} {a b : BlockHeader}

theorem chain_eq_of_height (hl : chain.IsChain ChildOf) (ha : a ∈ chain) (hb : b ∈ chain)
    (hh : a.height = b.height) : a = b := by
  obtain ⟨above, below, rfl⟩ := List.append_of_mem ha
  rcases List.mem_append.mp hb with hb | hb
  · have := chain_height_above hl b hb
    omega
  · rcases List.mem_cons.mp hb with rfl | hb
    · rfl
    · have := chain_height_below hl b hb
      omega

theorem chain_childOf (hl : chain.IsChain ChildOf) (ha : a ∈ chain) (hb : b ∈ chain)
    (hh : a.height = b.height + 1) : ChildOf a b := by
  obtain ⟨above, below, rfl⟩ := List.append_of_mem ha
  cases below with
  | nil =>
    have hlast : (above ++ [a]).getLast? = some a := by simp
    have := chain_last_le hl hlast b hb
    omega
  | cons y below =>
    have hay : ChildOf a y := (List.isChain_append.mp hl).2.1.rel
    have hby : b = y := chain_eq_of_height hl hb (by simp) (by have := hay.1; omega)
    exact hby ▸ hay

/-- A live store has the shape. -/
theorem LiveShape.of_live (h : Live params offered t chain) : LiveShape params t.rows := by
  have hsame : ∀ r ∈ t.rows, ∀ r' ∈ t.rows, r.toBlockHeader = r'.toBlockHeader → r = r' :=
    fun r hr r' hr' => eq_of_toBlockHeader hr hr'
  have hin : ∀ r ∈ t.rows, r.isActive = true → r.toBlockHeader ∈ chain := fun r hr =>
    (h.active r hr).mp
  refine ⟨?_, ?_, ?_⟩
  · intro r hr r' hr' hflag hflag'
    have hhead := (h.flagged r hr).mp hflag
    rw [(h.flagged r' hr').mp hflag', Option.some_inj] at hhead
    exact hsame r hr r' hr' hhead.symm
  · intro tip htip hflag
    have hhead := (h.flagged tip htip).mp hflag
    refine ⟨(h.active tip htip).mpr (List.mem_of_head? hhead), fun r hr hact => ?_⟩
    exact chain_le_head h.linked hhead _ (hin r hr hact)
  · by_cases hnil : chain = []
    · exact .inl (h.held hnil)
    · have hlast := List.getLast?_eq_some_getLast hnil
      have hhead := List.head?_eq_some_head hnil
      obtain ⟨anchor, hanchor, ha⟩ := h.stored _ (List.getLast_mem hnil)
      obtain ⟨tip, htip, ht⟩ := h.stored _ (List.head_mem hnil)
      rw [← ha] at hlast
      rw [← ht] at hhead
      refine .inr ⟨anchor, hanchor, tip, htip,
        ⟨(h.anchored _ hlast).1, (h.active anchor hanchor).mpr (List.mem_of_getLast? hlast), ?_⟩,
        (h.flagged tip htip).mpr hhead, ?_, ?_, ?_⟩
      · intro r hr hne
        exact (h.anchored _ hlast).2 r hr fun he => hne (hsame r hr anchor hanchor he)
      · intro r hr hact
        exact ⟨chain_last_le h.linked hlast _ (hin r hr hact),
          chain_le_head h.linked hhead _ (hin r hr hact)⟩
      · intro height hlo hhi
        obtain ⟨x, hx, hh⟩ := chain_exists_height h.linked hhead hlast hlo hhi
        obtain ⟨r, hr, rfl⟩ := h.stored x hx
        refine ⟨r, ⟨hr, (h.active r hr).mpr hx, hh⟩, ?_⟩
        rintro r' ⟨hr', hact', hh'⟩
        exact hsame r' hr' r hr
          (chain_eq_of_height h.linked (hin r' hr' hact') hx (hh'.trans hh.symm))
      · intro r hr below hbelow hact hact' hheight
        exact (chain_childOf h.linked (hin r hr hact) (hin below hbelow hact') hheight).2

/-- **On the live path the active rows are one chain from the anchor to the flagged tip**,
after every call of every run, and after every transaction of it: whatever the database
refused and wherever the couriers failed. -/
theorem liveShape_run (env : Env) (params : ChainParams) (calls : List Call)
    (tree : HeaderTree params offered) (hserves : env.Serves offered)
    (h : ∀ call ∈ calls, LiveCall offered call) :
    LiveShape params (runAll env params calls .init).db.rows ∧
      EachCommit (fun _ _ _ after => LiveShape params after.rows)
        (runAll env params calls .init).history := by
  obtain ⟨⟨chain, hlive⟩, heach⟩ := live_steps tree (via_liveRun hserves h .init)
  refine ⟨.of_live hlive, fun later before txn after earlier heq => ?_⟩
  obtain ⟨chain', hlive'⟩ := heach later before txn after earlier heq
  exact .of_live hlive'

open Regtest in
/-- The blocks mined for regtest are a tree. -/
theorem regtest_tree : HeaderTree params (· ∈ known) := by
  have hunique : ∀ a ∈ known, ∀ b ∈ known, a.hash = b.hash → a = b := by decide +kernel
  have hheights : ∀ child ∈ known, ∀ parent ∈ known, child.previousHash = parent.hash →
      child.height = parent.height + 1 := by decide +kernel
  have hlower : ∀ a ∈ known, toAsciiLowercase a.hash = asBytes a.hash := by decide +kernel
  exact ⟨fun a b ha hb => hunique a ha b hb, fun a b ha hb => hheights a ha b hb,
    fun a ha _ => hlower a ha⟩

theorem HeaderTree.mono {offered' : BlockHeader → Prop} (tree : HeaderTree params offered)
    (h : ∀ a, offered' a → offered a) : HeaderTree params offered' where
  unique a b ha hb := tree.unique a b (h a ha) (h b hb)
  heights a b ha hb := tree.heights a b (h a ha) (h b hb)
  lowercase a ha := tree.lowercase a (h a ha)

open Regtest in
theorem branches_tree : HeaderTree params (· ∈ branches) :=
  regtest_tree.mono fun a ha => by
    simp only [branches, List.mem_cons, List.not_mem_nil, or_false] at ha
    simp only [known, List.mem_cons, List.not_mem_nil, or_false]
    tauto

open Regtest in
/-- A rival branch arrives top first, its first walk is cut off, and the second completes it
against the active chain. -/
theorem liveShape_run_rival :
    LiveShape Regtest.params (runAll (courier (· == 5)) Regtest.params
      [.insertHeader genesis, .insertHeader a1, .insertHeader a2, .insertWithParentBackfill b3,
        .insertWithParentBackfill b3, .relinkOrphanAndReevaluate b3.hash] .init).db.rows :=
  (liveShape_run _ _ _ regtest_tree (courier_serves _) (by simp [LiveCall, known])).1

end Shape

end Chaintracks

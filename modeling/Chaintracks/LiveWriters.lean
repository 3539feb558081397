import Chaintracks.Moves
import Chaintracks.Outcomes

/-!
# The moves of the live path

`insert_header` makes one move for the header, a second for the reorg that follows
where the header outworks the tip and does not stand on it, and a third only where that
reorg took nothing off the chain. `relink_orphan_and_reevaluate` links first and then
moves the tip the same way, so both end in `Chaintracks.settleTip`, and the two main
results, `Chaintracks.via_insertHeader` and `Chaintracks.via_relink`, rest on
`Chaintracks.via_settleTip`.
-/

namespace Chaintracks

open HeaderRows

/-! ### The live path -/

section Live

variable {env : Env} {params : ChainParams} {offered : BlockHeader → Prop} {w : World}
  {rows : List HeaderRow} {header : BlockHeader} {a : Admission}

/-- The context check of a header on its stored parent, as the history keeps it. -/
theorem passed_of_parent {parent : HeaderRow} (hparent : parent ∈ rows)
    (hhash : parent.hash = header.previousHash) (hheight : header.height = parent.height + 1)
    (hctx : checkContext params (contextOf params rows parent) header = .ok ()) :
    Passed params rows ((loadChain rows parent (params.pow.windowDepth parent.height)).map
      (·.toBlockHeader)) [] header := by
  obtain ⟨hmem, hchain, hlast⟩ := loadChain_spec hparent (params.pow.windowDepth parent.height)
  refine ⟨?_, ?_, ?_, ?_⟩
  · rw [List.append_nil, List.map_map]
    exact hctx
  · rw [List.append_nil]
    intro hnil
    rw [List.map_eq_nil_iff.mp hnil] at hlast
    cases hlast
  · rw [LinkedRun, List.append_nil]
    refine List.isChain_append.mpr ⟨hchain, List.isChain_singleton _, ?_⟩
    intro x hx y hy
    rw [List.getLast?_map, hlast] at hx
    cases hx
    cases hy
    refine ⟨hheight, ?_⟩
    rw [hhash]
    exact eqIgnoreAsciiCase_self _
  · intro h hh
    obtain ⟨r, hr, rfl⟩ := List.mem_map.mp hh
    exact ⟨r, hmem r hr, rfl⟩

theorem previousOf_some {parent : HeaderRow} (h : previousOf rows header = some parent) :
    headerForHash rows header.previousHash = some parent := by
  unfold previousOf at h
  split at h
  · exact h
  · cases h

/-- A header let in as an anchor is the genesis or carries a checkpoint. -/
theorem vouched_of_unlinked {empty : Bool} (h : checkUnlinked params header empty = .ok true) :
    Vouched params header := by
  have hu := checkUnlinked_ok h
  refine ⟨hu.checkpoint, hu.anchor.imp_right fun hsome => ?_⟩
  exact ⟨[header], header, List.isChain_singleton _, List.mem_singleton_self _,
    List.mem_singleton_self _, Nat.le_refl _, hsome, hu.checkpoint⟩

/-- What `insert_header` notes holds. -/
theorem Admitted.entries_sound (h : Admitted params rows header a)
    (hpow : checkPow params header = .ok ()) :
    ∀ e ∈ a.entries params header rows, e.Sound params rows ∧ ∀ b txn s, e ≠ .commit b txn s := by
  intro e he
  unfold Admission.entries at he
  split at he
  · rename_i parent hp
    rw [List.mem_singleton] at he
    subst he
    rw [h.previous] at hp
    obtain ⟨hheight, hctx, -⟩ := h.onParent parent hp
    have hfind := previousOf_some hp
    exact ⟨⟨.inl hpow, passed_of_parent (headerForHash_mem hfind) (headerForHash_hash hfind)
      hheight hctx⟩, Entry.passed_ne_commit⟩
  · rename_i hp
    rw [h.previous] at hp
    split at he
    · rename_i hanch
      rw [List.mem_singleton] at he
      subst he
      exact ⟨⟨.inl hpow, vouched_of_unlinked (hanch ▸ h.unlinked hp)⟩,
        Entry.vouched_ne_commit⟩
    · cases he

/-- A header on a stored parent is noted as checked. -/
theorem Admission.cleared_of_previous {parent : HeaderRow} (h : a.previous = some parent) :
    Cleared (a.entries params header rows) header.hash header.height := by
  have hin : .passed ((loadChain rows parent (params.pow.windowDepth parent.height)).map
      (·.toBlockHeader)) [] header ∈ a.entries params header rows := by
    rw [Admission.entries, h]
    exact List.mem_singleton_self _
  exact ⟨header, rfl, rfl, .inr ⟨_, _, hin⟩⟩

/-- A header that takes the tip is noted as checked or vouched for. -/
theorem Admitted.cleared_of_becomesTip (h : Admitted params rows header a)
    (hb : a.becomesTip = true) : Cleared (a.entries params header rows) header.hash
      header.height := by
  cases hp : a.previous with
  | some parent => exact Admission.cleared_of_previous hp
  | none =>
    refine ⟨header, rfl, rfl, ?_⟩
    rw [Admission.entries, hp]
    have hu := h.unlinked (h.previous ▸ hp)
    suffices hanch : a.anchored = true by
      dsimp only
      rw [hanch]
      exact .inl (List.mem_singleton_self _)
    unfold Admission.becomesTip at hb
    rw [h.tip] at hb
    cases ht : chainTip rows with
    | some tip =>
      rw [ht] at hb
      simp only [Bool.and_eq_true] at hb
      exact hb.1
    | none =>
      rw [ht] at hu
      exact (checkUnlinked_ok hu).anchored_of_empty

theorem chainTip_insert {t : HeaderTable} {cells : RowCells} (hc : cells.isChainTip = false)
    (hfresh : headerForHash t.rows header.hash = none) :
    chainTip (t.insert header cells).rows = chainTip t.rows := by
  rw [HeaderTable.insert_rows (headerForHash_eq_none.mp hfresh)]
  unfold chainTip
  rw [List.filter_append]
  simp [HeaderTable.newRow, hc]

/-- After its transaction the row of a reorg is the active, flagged tip. -/
theorem reorg_row {t : HeaderTable} {row : HeaderRow} (plan : ReorgPlan) (h : row ∈ t.rows) :
    ∃ r ∈ (onHeadersAll (plan.txn row.hash) t).rows,
      r.toBlockHeader = row.toBlockHeader ∧ r.isActive = true ∧ r.isChainTip = true := by
  have := setChainTipActive_row
    (.deactivateAbove plan.ancestorHeight :: plan.branch.map .activateHash ++
      [.recordPendingReorg (plan.ancestorHeight + 1), .clearChainTip]) h
  simpa [ReorgPlan.txn] using this

/-- A reorg that answers has committed its transaction. -/
theorem handleReorg_ok {new oldTip : LinkedHeader} {depth : Nat} {w' : World}
    (h : handleReorg env new oldTip w = (.ok depth, w')) :
    ∃ plan, planReorg w.db.rows new oldTip = .ok plan ∧ depth = plan.deactivated ∧
      env.accepts w.asked = true ∧ commit env (plan.txn new.hash) w = (.ok (), w') := by
  unfold handleReorg readRows at h
  rw [Prog.read_bind_apply] at h
  cases hplan : planReorg w.db.rows new oldTip with
  | error e =>
    rw [hplan] at h
    cases h
  | ok plan =>
    rw [hplan, Prog.ofExcept_ok_bind_apply] at h
    cases hacc : env.accepts w.asked with
    | false =>
      rw [Prog.bind_error (commit_refused _ hacc)] at h
      cases h
    | true =>
      rw [Prog.bind_ok (commit_ok _ hacc)] at h
      cases h
      exact ⟨plan, rfl, rfl, rfl, commit_ok _ hacc⟩

/-- The tip's move after an insertion or a relink. -/
theorem via_settleTip {new : LinkedHeader} (row : HeaderRow) {tip : Option HeaderRow}
    {atomicExtension : Bool} (stored : row ∈ w.db.rows)
    (same : row.toBlockHeader = new.toBlockHeader)
    (link : new.previousHeaderId = none ∨ new.previousHeaderId = row.previousHeaderId)
    (flagged : tip = chainTip w.db.rows)
    (outworks : ∀ t, tip = some t → t.chainWork < row.chainWork)
    (cleared : Cleared w.history new.hash new.height) :
    Prog.Via (Step params (LiveMove params offered)) (settleTip env new tip atomicExtension) w := by
  have hhash : row.hash = new.hash := congrArg BlockHeader.hash same
  have hheight : row.height = new.height := congrArg BlockHeader.height same
  have hprev : row.previousHash = new.previousHash := congrArg BlockHeader.previousHash same
  unfold settleTip
  by_cases hreorg : ∃ t, tip = some t ∧ new.previousHash ≠ t.hash
  · -- the row does not stand on the tip: the reorg first
    obtain ⟨t, rfl, hne⟩ := hreorg
    have hdef : reorgOnto env new (some t) = handleReorg env new t.linked := if_pos hne
    rw [hdef]
    refine Prog.Via.bind ?_ fun depth w' hw' => Prog.Via.bind ?_ fun _ s _ => Prog.Via.pure _
    · unfold handleReorg readRows
      refine Prog.Via.read_bind ?_
      refine Prog.Via.ofExcept_bind fun plan hplan => ?_
      refine Prog.Via.bind (via_commit ?_) fun _ s _ => Prog.Via.pure _
      exact .reorg new row t plan stored same link flagged.symm hne (outworks t rfl) cleared
        hplan
    · unfold moveTipAlone
      split
      · -- a reorg that took nothing off: its row is the tip already
        obtain ⟨plan, -, -, hacc, hcommit⟩ := handleReorg_ok hw'
        rw [commit_ok _ hacc] at hcommit
        cases hcommit
        obtain ⟨r, hr, hrh, hra, hrt⟩ := reorg_row plan stored
        have hrhash : r.hash = new.hash := (congrArg BlockHeader.hash hrh).trans hhash
        have hrheight : r.height = new.height := (congrArg BlockHeader.height hrh).trans hheight
        refine via_commit ?_
        rw [hhash] at hr
        rw [← hrhash]
        refine .moveTip r ?_ ?_ (.inl ⟨hra, hrt⟩)
        · rw [Store.rows, execAll_headers, hrhash]
          exact hr
        · rw [hrhash, hrheight]
          exact cleared.mono (List.subset_cons_self _ _)
      · exact Prog.Via.pure _
  · -- the row stands on the tip, or there is none: the tip alone moves
    have hdef : reorgOnto env new tip = pure 0 := by
      unfold reorgOnto
      split
      · rename_i t
        refine if_neg (not_not_intro ?_)
        by_contra hne
        exact hreorg ⟨t, rfl, hne⟩
      · rfl
    rw [hdef]
    refine Prog.Via.pure_bind ?_
    refine Prog.Via.bind ?_ fun _ s _ => Prog.Via.pure _
    unfold moveTipAlone
    split
    · refine via_commit ?_
      rw [← hhash]
      refine .moveTip row stored ?_ (.inr fun t ht => ⟨?_, outworks t (flagged.trans ht)⟩)
      · rw [hhash, hheight]
        exact cleared
      · rw [hprev]
        by_contra hne
        exact hreorg ⟨t, flagged.trans ht, hne⟩
    · exact Prog.Via.pure _

/-- The insertion transaction stores the header's row, and where it does not carry the
tip's move it leaves the tip where it was. -/
theorem insertion_row {t : HeaderTable} (hfresh : headerForHash t.rows header.hash = none) :
    ∃ r ∈ (onHeadersAll (a.txn header) t).rows, r.toBlockHeader = header ∧
      (a.isActive header = false → r.chainWork = a.chainWork ∧
        r.previousHeaderId = a.previous.map (·.headerId) ∧
        chainTip (onHeadersAll (a.txn header) t).rows = chainTip t.rows) := by
  have hins : (t.insert header ⟨a.previous.map (·.headerId), a.isActive header, false,
      a.chainWork⟩).rows = t.rows ++ [t.newRow header _] :=
    HeaderTable.insert_rows (headerForHash_eq_none.mp hfresh)
  have hnew : t.newRow header ⟨a.previous.map (·.headerId), a.isActive header, false, a.chainWork⟩ ∈
      (t.insert header ⟨a.previous.map (·.headerId), a.isActive header, false, a.chainWork⟩).rows := by
    rw [hins]
    exact List.mem_append_right _ (List.mem_singleton_self _)
  unfold Admission.txn
  split
  · rename_i hact
    obtain ⟨r, hr, hh, -⟩ := onHeadersAll_keeps [.clearChainTip, .setChainTipActive header.hash]
      hnew
    refine ⟨r, hr, hh, fun hf => ?_⟩
    rw [hf] at hact
    cases hact
  · exact ⟨_, hnew, rfl, fun _ => ⟨rfl, rfl, chainTip_insert rfl hfresh⟩⟩

/-- **The moves of `insert_header`.** -/
theorem via_insertHeader (env : Env) (params : ChainParams) (given : offered header) (w : World) :
    Prog.Via (Step params (LiveMove params offered)) (insertHeader env params header) w := by
  unfold insertHeader readRows
  refine Prog.Via.ofExcept_bind fun _ hpow => Prog.Via.read_bind ?_
  have hpow' : checkPow params header = .ok () := Except.mapError_eq_ok.mp hpow
  split
  · exact Prog.Via.pure _
  · rename_i hdupe
    rw [Bool.not_eq_true, Option.isSome_eq_false_iff, Option.isNone_iff_eq_none] at hdupe
    refine Prog.Via.ofExcept_bind fun a hadm => ?_
    have had := admission_ok hadm
    refine Prog.Via.bind (via_notes (had.entries_sound hpow')) fun _ w₁ hw₁ => ?_
    rw [each_note_apply] at hw₁
    cases hw₁
    have hmove : LiveMove params offered { w with
        history := (a.entries params header w.db.rows).reverse ++ w.history } (a.txn header) := by
      refine .insertion header a given hpow' hdupe hadm fun e he => ?_
      exact List.mem_append_left _ (List.mem_reverse.mpr he)
    refine Prog.Via.bind (via_commit hmove) fun _ w₂ hw₂ => ?_
    obtain ⟨-, rfl⟩ := commit_eq_ok hw₂
    split
    · rename_i hb
      refine Prog.Via.bind ?_ fun _ s _ => Prog.Via.pure _
      cases hact : a.isActive header with
      | true =>
        -- an extension has moved the tip already
        rw [settleTip_of_extends hact]
        exact Prog.Via.pure _
      | false =>
        obtain ⟨r, hr, hrh, hrest⟩ := insertion_row (a := a) (t := w.db.headers) hdupe
        obtain ⟨hwork, -, htip⟩ := hrest hact
        refine via_settleTip r ?_ hrh (.inl rfl) ?_ ?_ ?_
        · rw [Store.rows, execAll_headers]
          exact hr
        · rw [Store.rows, execAll_headers]
          exact had.tip.trans htip.symm
        · intro t ht
          rw [hwork]
          unfold Admission.becomesTip at hb
          rw [ht] at hb
          simp only [Bool.and_eq_true, decide_eq_true_eq] at hb
          exact hb.2
        · refine (had.cleared_of_becomesTip hb).mono ?_
          intro e he
          exact List.mem_cons_of_mem _ (List.mem_append_left _ (List.mem_reverse.mpr he))
    · exact Prog.Via.pure _

/-- **The moves of `relink_orphan_and_reevaluate`.** -/
theorem via_relink (env : Env) (params : ChainParams) (hash : String) (w : World) :
    Prog.Via (Step params (LiveMove params offered)) (relinkOrphanAndReevaluate env params hash) w := by
  unfold relinkOrphanAndReevaluate readRows
  refine Prog.Via.read_bind ?_
  refine Prog.Via.ofExcept_bind fun plan hplan => ?_
  cases plan with
  | unknown => exact Prog.Via.pure _
  | noParent => exact Prog.Via.pure _
  | link stored parent chainWork =>
    have hlink := planRelink_link hplan
    have hstored : stored ∈ w.db.rows := headerForHash_mem hlink.found
    have hpassed : Passed params w.db.rows _ [] stored.toBlockHeader :=
      passed_of_parent (headerForHash_mem hlink.foundParent)
        (headerForHash_hash hlink.foundParent) hlink.onParent hlink.context
    refine Prog.Via.bind (Prog.Via.step (.noted w (.passed _ [] stored.toBlockHeader)
      Entry.passed_ne_commit ⟨.inr ⟨stored, hstored, rfl⟩, hpassed⟩)) fun _ w₁ hw₁ => ?_
    cases hw₁
    have hcleared : ∀ history : List Entry, Cleared (.passed ((loadChain w.db.rows parent
        (params.pow.windowDepth parent.height)).map (·.toBlockHeader)) [] stored.toBlockHeader ::
        history) stored.hash stored.height := fun history =>
      ⟨stored.toBlockHeader, rfl, rfl, .inr ⟨_, _, List.mem_cons_self⟩⟩
    refine Prog.Via.bind (via_commit (.relink hash stored parent chainWork hplan
      (hcleared _))) fun _ w₂ hw₂ => ?_
    obtain ⟨-, rfl⟩ := commit_eq_ok hw₂
    refine Prog.Via.read_bind ?_
    dsimp only
    split
    · rename_i htakes
      refine Prog.Via.bind ?_ fun _ s _ => Prog.Via.pure _
      -- the relinked row carries its link and the work the decision is on
      have hrow : { stored with
          toRowCells := { stored.toRowCells with
            previousHeaderId := some parent.headerId, chainWork } } ∈
          (onHeadersAll [.relinkHeader (some parent.headerId) chainWork stored.headerId]
            w.db.headers).rows :=
        HeaderTable.mem_update.mpr ⟨stored, hstored, by rw [if_pos (beq_self_eq_true _)]⟩
      refine via_settleTip { stored with
        toRowCells := { stored.toRowCells with
          previousHeaderId := some parent.headerId, chainWork } } ?_ rfl (.inr rfl) rfl ?_ ?_
      · rw [Store.rows, execAll_headers]
        exact hrow
      · intro t ht
        rw [ht] at htakes
        exact of_decide_eq_true htakes
      · exact (hcleared w.history).mono (List.subset_cons_self _ _)
    · exact Prog.Via.pure _

theorem via_backfillWalk {M : World → List Stmt → Prop} (env : Env) (params : ChainParams)
    (fuel : Nat) (want : String) (w : World) :
    Prog.Via (Step params M) (backfillWalk env fuel want) w := by
  induction fuel generalizing want w with
  | zero => exact Prog.Via.pure _
  | succ fuel ih =>
    unfold backfillWalk readRows
    refine Prog.Via.read_bind ?_
    split
    · exact Prog.Via.pure _
    · refine Prog.Via.bind (via_askCourier _) fun parent s _ => ?_
      exact Prog.Via.bind (ih _ s) fun _ s' _ => Prog.Via.pure _

/-- A walk fetches what the couriers serve. -/
theorem backfillWalk_offered (hserves : env.Serves offered) {fuel : Nat} {want : String}
    {branch : List BlockHeader} {w' : World}
    (h : backfillWalk env fuel want w = (.ok branch, w')) : ∀ x ∈ branch, offered x := by
  induction fuel generalizing want w branch with
  | zero =>
    cases h
    exact List.forall_mem_nil _
  | succ fuel ih =>
    unfold backfillWalk readRows at h
    rw [Prog.read_bind_apply] at h
    split at h
    · cases h
      exact List.forall_mem_nil _
    · obtain ⟨parent, w₁, hask, h⟩ := Prog.bind_eq_ok h
      obtain ⟨rest, w₂, hrest, h⟩ := Prog.bind_eq_ok h
      cases h
      have hparent : env.headerByHash w.asked want = .ok parent :=
        Except.mapError_eq_ok.mp (congrArg Prod.fst hask)
      exact List.forall_mem_cons.mpr ⟨hserves _ _ _ hparent, ih hrest⟩

/-- **The moves of `insert_with_parent_backfill`.** -/
theorem via_backfill (env : Env) (params : ChainParams) (hserves : env.Serves offered)
    (given : offered header) (w : World) :
    Prog.Via (Step params (LiveMove params offered))
      (insertWithParentBackfill env params header) w := by
  unfold insertWithParentBackfill readRows
  refine Prog.Via.bind (via_insertHeader env params given w) fun result s _ => ?_
  refine Prog.Via.read_bind ?_
  split
  · exact Prog.Via.pure _
  · refine Prog.Via.bind (via_backfillWalk env params _ _ s) fun branch s₁ hbranch => ?_
    have hoffered := backfillWalk_offered hserves hbranch
    refine Prog.Via.bind (Prog.Via.each (fun parent hparent s₂ => ?_) s₁) fun _ s₂ _ => ?_
    · refine Prog.Via.bind (via_insertHeader env params ?_ s₂) fun _ s₃ _ => Prog.Via.pure _
      exact hoffered parent (List.mem_reverse.mp hparent)
    · exact via_relink env params header.hash s₂

end Live

end Chaintracks

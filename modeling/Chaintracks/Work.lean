import Chaintracks.LiveShape
import Chaintracks.Publication

/-!
# The tip's work

The work of a header is the sum of the proofs from the anchor up to it
(`Chaintracks.TrueWork`). What a row stores is that sum only where its parent's row stood
with its own when it was computed: an orphan stores its proof alone, and what was put on
the orphan before it was linked stores a sum on that. A stored work is never more than
the true one (`Chaintracks.Weighs`), so a row that outworks the tip's stored work has more
true work than that; and where the tip's stored work is true, the tip goes to more true
work (`Chaintracks.takesMoreWork_of_tipWeighed`). A tip with a stale work loses to a
branch of less (`Chaintracks.stale_tip_loses`).
-/

namespace Chaintracks

open HeaderRows

/-! ### True work -/

/-- **The work of a header of a tree**: the proofs of the headers from the anchor to it. -/
inductive TrueWork (params : ChainParams) (offered : BlockHeader → Prop) (anchor : BlockHeader) :
    BlockHeader → Nat → Prop
  | anchor : TrueWork params offered anchor anchor (params.bsv.workFromBits anchor.bits)
  | child {parent header : BlockHeader} {work : Nat} (given : offered header)
      (stands : header.previousHash = parent.hash)
      (below : TrueWork params offered anchor parent work) :
      TrueWork params offered anchor header (work + params.bsv.workFromBits header.bits)

/-- The lowest header of a store, where its chain is anchored. -/
def Lowest (rows : List HeaderRow) (anchor : BlockHeader) : Prop :=
  (∃ row ∈ rows, row.toBlockHeader = anchor) ∧
    ∀ row ∈ rows, row.toBlockHeader ≠ anchor → anchor.height < row.height

section TrueWork

variable {params : ChainParams} {offered : BlockHeader → Prop} {anchor header : BlockHeader}
  {chain : List BlockHeader} {t : HeaderTable} {n m : Nat}

theorem TrueWork.mem (h : TrueWork params offered anchor header n) (ha : offered anchor) :
    offered header := by
  cases h with
  | anchor => exact ha
  | child given => exact given

theorem TrueWork.height_le (tree : HeaderTree params offered) (ha : offered anchor)
    (h : TrueWork params offered anchor header n) : anchor.height ≤ header.height := by
  induction h with
  | anchor => exact Nat.le_refl _
  | child given stands below ih =>
    have := tree.heights _ _ given (below.mem ha) stands
    omega

/-- A header has one work. -/
theorem TrueWork.unique (tree : HeaderTree params offered) (ha : offered anchor)
    (h : TrueWork params offered anchor header n) (h' : TrueWork params offered anchor header m) :
    n = m := by
  induction h generalizing m with
  | anchor =>
    cases h' with
    | anchor => rfl
    | child given stands below =>
      -- the anchor does not stand on a header above it
      have := tree.heights _ _ given (below.mem ha) stands
      have := below.height_le tree ha
      omega
  | child given stands below ih =>
    cases h' with
    | anchor =>
      have := tree.heights _ _ given (below.mem ha) stands
      have := below.height_le tree ha
      omega
    | child given' stands' below' =>
      have := tree.unique _ _ (below.mem ha) (below'.mem ha) (stands.symm.trans stands')
      subst this
      rw [ih below']

/-- The proof of a header is part of its work. -/
theorem TrueWork.proof_le (h : TrueWork params offered anchor header n) :
    params.bsv.workFromBits header.bits ≤ n := by
  cases h with
  | anchor => exact Nat.le_refl _
  | child => exact Nat.le_add_left _ _

/-- The headers of a chain have a work, from its last. -/
theorem TrueWork.of_chain (hl : chain.IsChain ChildOf) (hoffered : ∀ x ∈ chain, offered x)
    (hlast : chain.getLast? = some anchor) :
    ∀ x ∈ chain, ∃ n, TrueWork params offered anchor x n := by
  induction chain with
  | nil => exact List.forall_mem_nil _
  | cons y ys ih =>
    cases ys with
    | nil =>
      rw [List.getLast?_singleton, Option.some_inj] at hlast
      intro x hx
      rw [List.mem_singleton.mp hx, hlast]
      exact ⟨_, .anchor⟩
    | cons z zs =>
      obtain ⟨hyz, hl'⟩ := List.isChain_cons_cons.mp hl
      have ih' := ih hl' (fun x hx => hoffered x (List.mem_cons_of_mem _ hx))
        (by rwa [List.getLast?_cons_cons] at hlast)
      intro x hx
      rcases List.mem_cons.mp hx with rfl | hx
      · obtain ⟨n, hn⟩ := ih' z List.mem_cons_self
        exact ⟨_, .child (hoffered x List.mem_cons_self) hyz.2 hn⟩
      · exact ih' x hx

/-- The lowest header of a live store is its chain's last. -/
theorem Live.getLast?_of_lowest (h : Live params offered t chain) (hlow : Lowest t.rows anchor) :
    chain.getLast? = some anchor := by
  obtain ⟨⟨row, hrow, rfl⟩, hbelow⟩ := hlow
  cases hlast : chain.getLast? with
  | none =>
    rw [h.held (List.getLast?_eq_none_iff.mp hlast)] at hrow
    cases hrow
  | some last =>
    obtain ⟨r, hr, rfl⟩ := h.stored last (List.mem_of_getLast? hlast)
    by_contra hne
    have hne' : row.toBlockHeader ≠ r.toBlockHeader := fun he => hne (by rw [he])
    have := (h.anchored _ hlast).2 row hrow hne'
    have := hbelow r hr hne'.symm
    omega

end TrueWork

/-! ### Stored work -/

/-- **No row stores more than its true work.** -/
def Weighs (params : ChainParams) (offered : BlockHeader → Prop) (rows : List HeaderRow)
    (chain : List BlockHeader) : Prop :=
  ∀ anchor, chain.getLast? = some anchor → ∀ row ∈ rows, ∀ n,
    TrueWork params offered anchor row.toBlockHeader n → row.chainWork ≤ n

section Weighs

variable {params : ChainParams} {offered : BlockHeader → Prop} {t t' : HeaderTable}
  {chain chain' : List BlockHeader} {header : BlockHeader} {a : Admission}

/-- A transaction that changes no work. -/
theorem Weighs.same (h : Weighs params offered t.rows chain)
    (hlast : ∀ anchor, chain'.getLast? = some anchor → chain.getLast? = some anchor)
    (hback : ∀ row ∈ t'.rows, ∃ r ∈ t.rows, row.toBlockHeader = r.toBlockHeader ∧
      row.chainWork = r.chainWork) : Weighs params offered t'.rows chain' := by
  intro anchor ha row hrow n hn
  obtain ⟨r, hr, he, hw⟩ := hback row hrow
  rw [hw]
  exact h anchor (hlast anchor ha) r hr n (he ▸ hn)

/-- The sum a row stores on its parent's is no more than its true work. -/
theorem Weighs.add_le (h : Weighs params offered t.rows chain) (hlive : Live params offered t chain)
    (tree : HeaderTree params offered) {anchor : BlockHeader} (hlast : chain.getLast? = some anchor)
    {parent : HeaderRow} (hparent : parent ∈ t.rows) (hprev : parent.hash = header.previousHash)
    (hheight : header.height = parent.height + 1) {n : Nat}
    (hn : TrueWork params offered anchor header n) :
    addWork parent.chainWork (params.bsv.workFromBits header.bits) ≤ n := by
  have hanchor : offered anchor := by
    obtain ⟨r, hr, rfl⟩ := hlive.stored _ (List.mem_of_getLast? hlast)
    exact hlive.given r hr
  cases hn with
  | anchor =>
    -- no row stands below the anchor
    have hne : parent.toBlockHeader ≠ header := fun he => by
      have hsame : parent.height = header.height := congrArg BlockHeader.height he
      omega
    have := (hlive.anchored _ hlast).2 parent hparent hne
    omega
  | child given stands below =>
    have := tree.unique _ _ (below.mem hanchor) (hlive.given parent hparent)
      (stands.symm.trans hprev.symm)
    subst this
    exact (Nat.mod_le _ _).trans (Nat.add_le_add_right (h anchor hlast parent hparent _ below) _)

/-! ### The tip's moves -/

/-- **The flagged tip goes to more true work**, where it goes to another header. -/
def TakesMoreWork (params : ChainParams) (offered : BlockHeader → Prop) (before after : Store) :
    Prop :=
  ∀ old new anchor, chainTip before.rows = some old → chainTip after.rows = some new →
    old.hash ≠ new.hash → Lowest before.rows anchor →
    ∃ n m, TrueWork params offered anchor old.toBlockHeader n ∧
      TrueWork params offered anchor new.toBlockHeader m ∧ n < m

/-- **The condition on a transaction**: if it moves the flag, the work stored with the
flagged tip before it is the tip's true work. -/
def TipWeighed (params : ChainParams) (offered : BlockHeader → Prop) (before : Store)
    (txn : List Stmt) : Prop :=
  (∃ stmt ∈ txn, stmt.Flags) → ∀ old anchor, chainTip before.rows = some old →
    Lowest before.rows anchor → TrueWork params offered anchor old.toBlockHeader old.chainWork

theorem takesMoreWork_of_row {before after : Store}
    (h : Live params offered before.headers chain)
    (h' : Live params offered after.headers chain') (hw : Weighs params offered after.rows chain')
    (hlast : ∀ anchor, chain.getLast? = some anchor → chain'.getLast? = some anchor)
    (htrue : ∀ old anchor, chainTip before.rows = some old → Lowest before.rows anchor →
      TrueWork params offered anchor old.toBlockHeader old.chainWork)
    (houtworks : ∀ old new, chainTip before.rows = some old → chainTip after.rows = some new →
      old.chainWork < new.chainWork) :
    TakesMoreWork params offered before after := by
  intro old new anchor hold hnew _ hlow
  have hanchor := hlast _ (h.getLast?_of_lowest hlow)
  have hmem := List.mem_of_head? (h'.chainTip_eq hnew)
  obtain ⟨m, hm⟩ := TrueWork.of_chain h'.linked (fun x hx => by
    obtain ⟨r, hr, rfl⟩ := h'.stored x hx
    exact h'.given r hr) hanchor _ hmem
  refine ⟨_, m, htrue old anchor hold hlow, hm, ?_⟩
  exact (houtworks old new hold hnew).trans_le (hw anchor hanchor new (chainTip_mem hnew) m hm)

theorem takesMoreWork_of_same {before after : Store}
    (h : ∀ old new, chainTip before.rows = some old → chainTip after.rows = some new →
      old.hash = new.hash) : TakesMoreWork params offered before after :=
  fun old new _ hold hnew hne _ => absurd (h old new hold hnew) hne

end Weighs

/-! ### Each move of the live path -/

section Moves

variable {params : ChainParams} {offered : BlockHeader → Prop} {t : HeaderTable}
  {chain : List BlockHeader} {header : BlockHeader} {a : Admission} {w : World}

/-- An inserted row stores the sum on its parent's, or its proof alone. -/
theorem Weighs.insert (h : Weighs params offered t.rows chain) (hlive : Live params offered t chain)
    (tree : HeaderTree params offered) (had : Admitted params t.rows header a) {chain' : List BlockHeader}
    (hlast : ∀ anchor, chain'.getLast? = some anchor → chain.getLast? = some anchor ∨ t.rows = [])
    (prev : Option Nat) (act : Bool) :
    Weighs params offered (t.insert header ⟨prev, act, false, a.chainWork⟩).rows chain' := by
  intro anchor ha row hrow n hn
  rcases HeaderTable.mem_insert hrow with hrow | ⟨rfl, -⟩
  · rcases hlast anchor ha with ha | hempty
    · exact h anchor ha row hrow n hn
    · rw [hempty] at hrow
      cases hrow
  · change a.chainWork ≤ n
    change TrueWork params offered anchor header n at hn
    rw [had.chainWork]
    cases hp : previousOf t.rows header with
    | none => exact hn.proof_le
    | some parent =>
      have hfind := previousOf_some hp
      have hmem := headerForHash_mem hfind
      rcases hlast anchor ha with ha | hempty
      · exact h.add_le hlive tree ha hmem (headerForHash_hash hfind) (had.onParent parent hp).1 hn
      · rw [hempty] at hmem
        cases hmem

/-- A row after a tip move stores the work it stored. -/
theorem moveTip_work {row : HeaderRow} {hash : String}
    (h : row ∈ (onHeadersAll (moveTipTxn hash) t).rows) :
    ∃ r ∈ t.rows, row.toBlockHeader = r.toBlockHeader ∧ row.chainWork = r.chainWork := by
  obtain ⟨r, hr, he, -, hc⟩ := moveTip_row h
  have hwork : row.chainWork = r.chainWork := by rw [hc]
  exact ⟨r, hr, he, hwork⟩

/-- A row after a reorg stores the work it stored. -/
theorem reorg_work {row : HeaderRow} {hash : String} {plan : ReorgPlan}
    (h : row ∈ (onHeadersAll (plan.txn hash) t).rows) :
    ∃ r ∈ t.rows, row.toBlockHeader = r.toBlockHeader ∧ row.chainWork = r.chainWork := by
  obtain ⟨r, hr, he, -, hc⟩ := reorg_rows h
  have hwork : row.chainWork = r.chainWork := by rw [hc]
  exact ⟨r, hr, he, hwork⟩

theorem Live.insertion_weighs {now : Nat} (h : Live params offered w.db.headers chain)
    (tree : HeaderTree params offered) (hw : Weighs params offered w.db.rows chain)
    (hcond : TipWeighed params offered w.db (a.txn header)) (hoffered : offered header)
    (hfresh : headerForHash w.db.rows header.hash = none)
    (had : Admitted params w.db.rows header a) :
    ∃ chain', Live params offered (execAll now (a.txn header) w.db).headers chain' ∧
      Weighs params offered (execAll now (a.txn header) w.db).rows chain' ∧
      TakesMoreWork params offered w.db (execAll now (a.txn header) w.db) := by
  have hlive := h.insertion tree hoffered hfresh had
  rw [← execAll_headers now] at hlive
  refine ⟨_, hlive, ?_⟩
  cases hact : a.isActive header with
  | false =>
    have htxn : a.txn header = [a.insertion header] := by
      rw [Admission.txn, hact]
      rfl
    have hheaders : (execAll now (a.txn header) w.db).headers = w.db.headers.insert header
        ⟨a.previous.map (·.headerId), a.isActive header, false, a.chainWork⟩ := by
      rw [execAll_headers, htxn]
      rfl
    refine ⟨?_, takesMoreWork_of_same fun old new hold hnew => ?_⟩
    · rw [Store.rows, hheaders]
      exact hw.insert h tree had (fun anchor ha => .inl ha) _ _
    · rw [Store.rows, hheaders, chainTip_insert rfl hfresh] at hnew
      rw [Option.some_inj.mp (hold.symm.trans hnew)]
  | true =>
    rw [hact, if_pos rfl] at hlive
    have htxn : a.txn header = a.insertion header :: moveTipTxn header.hash := if_pos hact
    have hheaders : (execAll now (a.txn header) w.db).headers = onHeadersAll (moveTipTxn header.hash)
        (w.db.headers.insert header
          ⟨a.previous.map (·.headerId), a.isActive header, false, a.chainWork⟩) := by
      rw [execAll_headers, htxn]
      rfl
    have hlast : ∀ anchor, (header :: chain).getLast? = some anchor →
        chain.getLast? = some anchor ∨ w.db.rows = [] := by
      intro anchor ha
      cases hc : chain with
      | nil => exact .inr (h.held hc)
      | cons x xs => exact .inl (by rwa [hc, List.getLast?_cons_cons] at ha)
    have hweighs : Weighs params offered (execAll now (a.txn header) w.db).rows
        (header :: chain) := by
      intro anchor ha row hrow n hn
      rw [Store.rows, hheaders] at hrow
      obtain ⟨r, hr, he, hwork⟩ := moveTip_work hrow
      rw [hwork]
      exact hw.insert h tree had hlast _ _ anchor ha r hr n (he ▸ hn)
    refine ⟨hweighs, takesMoreWork_of_row h hlive hweighs ?_ (hcond ?_) fun old new hold hnew => ?_⟩
    · intro anchor ha
      cases hc : chain with
      | nil => rw [hc] at ha; cases ha
      | cons x xs => rwa [List.getLast?_cons_cons, ← hc]
    · refine ⟨.setChainTipActive header.hash, ?_, trivial⟩
      rw [htxn]
      simp [moveTipTxn]
    · -- the new tip is the inserted row
      have hhead : header = new.toBlockHeader := Option.some_inj.mp (hlive.chainTip_eq hnew)
      have hmem := chainTip_mem hnew
      rw [Store.rows, hheaders] at hmem
      obtain ⟨r, hr, he, hwork⟩ := moveTip_work hmem
      have hrh : r.hash = header.hash := by rw [hhead, he]
      rcases HeaderTable.mem_insert hr with hr | ⟨rfl, -⟩
      · exact absurd hrh (headerForHash_eq_none.mp hfresh r hr)
      · rw [hwork]
        have htakes := (Bool.and_eq_true_iff.mp hact).1
        unfold Admission.becomesTip at htakes
        rw [had.tip, hold] at htakes
        exact of_decide_eq_true (Bool.and_eq_true_iff.mp htakes).2

theorem Live.reorg_weighs {now : Nat} (h : Live params offered w.db.headers chain)
    (hw : Weighs params offered w.db.rows chain) {row tip : HeaderRow} {plan : ReorgPlan}
    (hcond : TipWeighed params offered w.db (plan.txn row.hash)) (hrow : row ∈ w.db.rows)
    (htip : chainTip w.db.rows = some tip) (houtworks : tip.chainWork < row.chainWork)
    {above below path : List BlockHeader} {ancestor : BlockHeader}
    (hspec : PlanSpec w.db.headers chain row.toBlockHeader plan above ancestor below path) :
    ∃ chain', Live params offered (execAll now (plan.txn row.hash) w.db).headers chain' ∧
      Weighs params offered (execAll now (plan.txn row.hash) w.db).rows chain' ∧
      TakesMoreWork params offered w.db (execAll now (plan.txn row.hash) w.db) := by
  have hlive := h.reorg hrow hspec
  have hlast : (path ++ ancestor :: below).getLast? = chain.getLast? := by
    rw [hspec.chain_eq, List.getLast?_append, List.getLast?_append]
    cases hb : (ancestor :: below).getLast? with
    | none => cases List.getLast?_eq_none_iff.mp hb
    | some last => rfl
  have hhead : (path ++ ancestor :: below).head? = some row.toBlockHeader := by
    rw [← hspec.head]
    cases path <;> rfl
  have hweighs : Weighs params offered (onHeadersAll (plan.txn row.hash) w.db.headers).rows
      (path ++ ancestor :: below) :=
    hw.same (fun anchor ha => hlast ▸ ha) fun r hr => reorg_work hr
  rw [← execAll_headers now] at hlive hweighs
  refine ⟨_, hlive, hweighs, takesMoreWork_of_row h hlive hweighs (fun anchor ha => hlast ▸ ha)
    (hcond ⟨.setChainTipActive row.hash, by simp [ReorgPlan.txn], trivial⟩) fun old new hold hnew => ?_⟩
  have hmem := chainTip_mem hnew
  rw [Store.rows, execAll_headers] at hmem
  obtain ⟨r, hr, he, hwork⟩ := reorg_work hmem
  have hsame : row.toBlockHeader = r.toBlockHeader :=
    (Option.some_inj.mp (hhead.symm.trans (hlive.chainTip_eq hnew))).trans he
  rw [hwork, ← eq_of_toBlockHeader hrow hr hsame]
  rw [htip, Option.some_inj] at hold
  exact hold ▸ houtworks

/-- A tip move, on the row flagged or on a row standing on it. -/
theorem Live.moveTip_weighs {now : Nat} (h : Live params offered w.db.headers chain)
    (hw : Weighs params offered w.db.rows chain) {row : HeaderRow}
    (hcond : TipWeighed params offered w.db (moveTipTxn row.hash)) (hrow : row ∈ w.db.rows)
    {chain' : List BlockHeader}
    (hlive : Live params offered (onHeadersAll (moveTipTxn row.hash) w.db.headers) chain')
    (hhead : chain'.head? = some row.toBlockHeader)
    (hlast : chain'.getLast? = chain.getLast?)
    (houtworks : row.isChainTip = true ∨
      ∀ tip, chainTip w.db.rows = some tip → tip.chainWork < row.chainWork) :
    ∃ chain', Live params offered (execAll now (moveTipTxn row.hash) w.db).headers chain' ∧
      Weighs params offered (execAll now (moveTipTxn row.hash) w.db).rows chain' ∧
      TakesMoreWork params offered w.db (execAll now (moveTipTxn row.hash) w.db) := by
  have hweighs : Weighs params offered (onHeadersAll (moveTipTxn row.hash) w.db.headers).rows
      chain' :=
    hw.same (fun anchor ha => hlast ▸ ha) fun r hr => moveTip_work hr
  rw [← execAll_headers now] at hlive hweighs
  refine ⟨chain', hlive, hweighs, ?_⟩
  have hnewest : ∀ new, chainTip (execAll now (moveTipTxn row.hash) w.db).rows = some new →
      new.toBlockHeader = row.toBlockHeader ∧ new.chainWork = row.chainWork := by
    intro new hnew
    have hmem := chainTip_mem hnew
    rw [Store.rows, execAll_headers] at hmem
    obtain ⟨r, hr, he, hwork⟩ := moveTip_work hmem
    have hsame := Option.some_inj.mp (hhead.symm.trans (hlive.chainTip_eq hnew))
    have hr' := eq_of_toBlockHeader hrow hr (hsame.trans he)
    exact ⟨hsame.symm, hwork.trans (by rw [hr'])⟩
  rcases houtworks with hflag | houtworks
  · refine takesMoreWork_of_same fun old new hold hnew => ?_
    have hold' : old.toBlockHeader = row.toBlockHeader := by
      have := (h.flagged row hrow).mp hflag
      rw [h.chainTip_eq hold] at this
      exact Option.some_inj.mp this
    exact congrArg BlockHeader.hash (hold'.trans (hnewest new hnew).1.symm)
  · refine takesMoreWork_of_row h hlive hweighs (fun anchor ha => hlast ▸ ha)
      (hcond ⟨.setChainTipActive row.hash, by simp [moveTipTxn], trivial⟩) fun old new hold hnew => ?_
    rw [(hnewest new hnew).2]
    exact houtworks old hold

theorem Live.relink_weighs {now : Nat} (h : Live params offered w.db.headers chain)
    (tree : HeaderTree params offered) (hw : Weighs params offered w.db.rows chain)
    {stored parent : HeaderRow} (hstored : stored ∈ w.db.rows) (hparent : parent ∈ w.db.rows)
    (hprev : parent.hash = stored.previousHash) (hheight : stored.height = parent.height + 1)
    {work : Nat} (hwork : work = addWork parent.chainWork (params.bsv.workFromBits stored.bits)) :
    ∃ chain', Live params offered (execAll now
        [.relinkHeader (some parent.headerId) work stored.headerId] w.db).headers chain' ∧
      Weighs params offered (execAll now
        [.relinkHeader (some parent.headerId) work stored.headerId] w.db).rows chain' ∧
      TakesMoreWork params offered w.db (execAll now
        [.relinkHeader (some parent.headerId) work stored.headerId] w.db) := by
  have hlive := h.relink hstored hparent hprev work
  rw [← execAll_headers now] at hlive
  refine ⟨chain, hlive, ?_, takesMoreWork_of_same fun old new hold hnew => ?_⟩
  · intro anchor ha row hrow n hn
    rw [Store.rows, execAll_headers] at hrow
    obtain ⟨r, hr, he, -, hc⟩ := HeaderTable.of_mem_update hrow
    split at hc
    · rename_i hid
      have hrs : r = stored := HeaderTable.eq_of_headerId hr hstored (beq_iff_eq.mp hid)
      have hrow' : row.chainWork = work := by rw [hc]
      rw [hrow', hwork]
      rw [he, hrs] at hn
      exact hw.add_le h tree ha hparent hprev hheight hn
    · have hrow' : row.chainWork = r.chainWork := by rw [hc]
      rw [hrow']
      exact hw anchor ha r hr n (he ▸ hn)
  · have := hlive.chainTip_eq hnew
    rw [h.chainTip_eq hold, Option.some_inj] at this
    exact congrArg BlockHeader.hash this

/-- **Every move of the live path takes the tip to more true work**, where the tip it moves
is weighed. -/
theorem Live.move_weighs {now : Nat} {txn : List Stmt}
    (h : Live params offered w.db.headers chain) (tree : HeaderTree params offered)
    (hw : Weighs params offered w.db.rows chain) (hcond : TipWeighed params offered w.db txn)
    (hmove : LiveMove params offered w txn) :
    ∃ chain', Live params offered (execAll now txn w.db).headers chain' ∧
      Weighs params offered (execAll now txn w.db).rows chain' ∧
      TakesMoreWork params offered w.db (execAll now txn w.db) := by
  cases hmove with
  | insertion header a given pow fresh admitted noted =>
    exact h.insertion_weighs tree hw hcond given fresh (admission_ok admitted)
  | reorg new row tip plan stored same link flagged apart outworks cleared planned =>
    obtain ⟨above, ancestor, below, path, hspec⟩ :=
      h.plan_spec tree ⟨row, stored, same, link⟩ flagged planned
    have hhash : new.hash = row.hash := (congrArg BlockHeader.hash same).symm
    rw [← same] at hspec
    rw [hhash] at hcond ⊢
    exact h.reorg_weighs hw hcond stored flagged outworks hspec
  | moveTip row stored cleared stands =>
    rcases stands with ⟨-, hflag⟩ | hstands
    · exact h.moveTip_weighs hw hcond stored (h.moveTip_same stored hflag)
        ((h.flagged row stored).mp hflag) rfl (.inl hflag)
    · cases htip : chainTip w.db.rows with
      | none =>
        have hempty : w.db.rows = [] := (h.empty_of_chainTip htip).1
        rw [hempty] at stored
        cases stored
      | some tip =>
        exact h.moveTip_weighs hw hcond stored (h.moveTip tree stored htip (hstands tip htip).1) rfl
          (h.getLast?_cons htip) (.inr fun old hold => (hstands old hold).2)
  | relink hash stored parent chainWork planned cleared =>
    have hlink := planRelink_link planned
    exact h.relink_weighs tree hw (headerForHash_mem hlink.found)
      (headerForHash_mem hlink.foundParent) (headerForHash_hash hlink.foundParent) hlink.onParent
      hlink.work

end Moves

/-! ### Runs -/

section Runs

variable {offered : BlockHeader → Prop}

/-- **The tip goes to strictly more true work**, in every transaction of every run of the
live path whose moves of the flag all find the flagged tip's stored work true. -/
theorem takesMoreWork_of_tipWeighed (env : Env) (params : ChainParams) (calls : List Call)
    (tree : HeaderTree params offered) (hserves : env.Serves offered)
    (hcalls : ∀ call ∈ calls, LiveCall offered call)
    (h : EachCommit (fun _ before txn _ => TipWeighed params offered before txn)
      (runAll env params calls .init).history) :
    EachCommit (fun _ before _ after => TakesMoreWork params offered before after)
      (runAll env params calls .init).history := by
  refine (steps_invariant
    (I := fun w => ∃ chain, Live params offered w.db.headers chain ∧
      Weighs params offered w.db.rows chain)
    (D := fun _ before _ after => TakesMoreWork params offered before after)
    (fun _ hw => hw) (fun _ _ _ _ hw => hw) ?_ ⟨[], .init, nofun⟩
    (via_liveRun hserves hcalls .init) h).2
  rintro w now txn hmove ⟨chain, hlive, hweighs⟩ hcond
  obtain ⟨chain', hlive', hweighs', htakes⟩ := hlive.move_weighs tree hweighs hcond hmove
  exact ⟨⟨chain', hlive', hweighs'⟩, htakes⟩

/-- The true work of a header of a list of headers. -/
def totalWork (params : ChainParams) (tree : List BlockHeader) (anchor : BlockHeader) :
    Nat → BlockHeader → Option Nat
  | fuel, header =>
    if header = anchor then some (params.bsv.workFromBits anchor.bits)
    else match fuel with
      | 0 => none
      | fuel + 1 =>
        match tree.find? fun parent => header.previousHash == parent.hash with
        | some parent =>
          (totalWork params tree anchor fuel parent).map (· + params.bsv.workFromBits header.bits)
        | none => none

theorem TrueWork.of_totalWork {params : ChainParams} {tree : List BlockHeader}
    {anchor header : BlockHeader} {fuel n : Nat} (hmem : header ∈ tree)
    (h : totalWork params tree anchor fuel header = some n) :
    TrueWork params (· ∈ tree) anchor header n := by
  induction fuel generalizing header n with
  | zero =>
    unfold totalWork at h
    split at h
    · rename_i heq
      cases h
      exact heq ▸ .anchor
    · cases h
  | succ fuel ih =>
    unfold totalWork at h
    split at h
    · rename_i heq
      cases h
      exact heq ▸ .anchor
    · dsimp only at h
      split at h
      · rename_i parent hp
        obtain ⟨m, hm, rfl⟩ := Option.map_eq_some_iff.mp h
        have hprev := List.find?_some hp
        exact .child hmem (beq_iff_eq.mp hprev) (ih (List.mem_of_find?_eq_some hp) hm)
      · cases h

/-- `Chaintracks.TipWeighed` over a list of headers, as a check. -/
def tipWeighed (params : ChainParams) (tree : List BlockHeader) (before : Store)
    (txn : List Stmt) : Bool :=
  (txn.all fun stmt => match stmt with
    | .setChainTipActive _ | .setChainTip _ => false
    | _ => true) ||
  match chainTip before.rows with
  | none => true
  | some old => before.rows.all fun a =>
      before.rows.any (fun r => r.toBlockHeader != a.toBlockHeader && r.height ≤ a.height) ||
        (tree.contains old.toBlockHeader &&
          totalWork params tree a.toBlockHeader tree.length old.toBlockHeader == some old.chainWork)

theorem TipWeighed.of_tipWeighed {params : ChainParams} {tree : List BlockHeader} {before : Store}
    {txn : List Stmt} (h : tipWeighed params tree before txn = true) :
    TipWeighed params (· ∈ tree) before txn := by
  rintro ⟨stmt, hstmt, hflags⟩ old anchor hold ⟨⟨a, ha, rfl⟩, hlow⟩
  rcases Bool.or_eq_true_iff.mp h with hquiet | h
  · have := List.all_eq_true.mp hquiet stmt hstmt
    cases stmt <;> first | exact absurd hflags id | cases this
  · rw [hold] at h
    rcases Bool.or_eq_true_iff.mp (List.all_eq_true.mp h a ha) with hany | htrue
    · obtain ⟨r, hr, hc⟩ := List.any_eq_true.mp hany
      rw [Bool.and_eq_true, bne_iff_ne, decide_eq_true_eq] at hc
      have := hlow r hr hc.1
      omega
    · rw [Bool.and_eq_true, List.contains_iff_mem, beq_iff_eq] at htrue
      exact .of_totalWork htrue.1 htrue.2

open Regtest in
/-- A reorg to a branch of more work, every tip weighed. -/
theorem takesMoreWork_of_tipWeighed_reorg :
    EachCommit (fun _ before _ after => TakesMoreWork Regtest.params (· ∈ branches) before after)
      (runAll host Regtest.params [.insertHeader genesis, .insertHeader a1, .insertHeader b1,
        .insertHeader b2] .init).history := by
  have hcond : EachCommit (fun _ before txn _ => tipWeighed Regtest.params branches before txn = true)
      (runAll host Regtest.params [.insertHeader genesis, .insertHeader a1, .insertHeader b1,
        .insertHeader b2] .init).history := .of_eachCommit (by decide +kernel)
  refine takesMoreWork_of_tipWeighed host Regtest.params _ branches_tree (fun _ _ _ h => nomatch h)
    (by simp [LiveCall, branches]) fun later before txn after earlier heq => ?_
  exact .of_tipWeighed (hcond later before txn after earlier heq)

open Regtest in
/-- A transaction over the genesis block that takes the tip from `b4` to `a3`. -/
def fromB4ToA3 : Entry → Bool
  | .commit before _ after =>
    (chainTip before.rows).map (·.toBlockHeader) == some b4 &&
      ((chainTip after.rows).map (·.toBlockHeader) == some a3 &&
        (before.rows.any (·.toBlockHeader == genesis) &&
          before.rows.all fun r => r.toBlockHeader == genesis || decide (0 < r.height)))
  | _ => false

open Regtest in
/-- **A tip whose stored work is stale loses to a branch of less.** An orphan comes before
its parent and a header on it; with the parent stored the next header takes the tip, with a
work that leaves the parent's chain out; the other branch then outworks it one header
short. -/
theorem stale_tip_loses :
    ¬EachCommit (fun _ before _ after => TakesMoreWork Regtest.params (· ∈ branches) before after)
      (runAll host Regtest.params [.insertHeader genesis, .insertHeader a1, .insertHeader b2,
        .insertHeader b3, .insertHeader b1, .insertHeader b4, .insertHeader a2, .insertHeader a3]
        .init).history := by
  intro h
  -- one transaction is the reorg from `b4` to `a3`
  have hany : (runAll host Regtest.params [.insertHeader genesis, .insertHeader a1, .insertHeader b2,
      .insertHeader b3, .insertHeader b1, .insertHeader b4, .insertHeader a2, .insertHeader a3]
      .init).history.any fromB4ToA3 = true := by decide +kernel
  obtain ⟨entry, hentry, hc⟩ := List.any_eq_true.mp hany
  obtain ⟨later, earlier, heq⟩ := List.append_of_mem hentry
  cases entry with
  | passed => cases hc
  | vouched => cases hc
  | commit before txn after =>
    simp only [fromB4ToA3, Bool.and_eq_true, beq_iff_eq] at hc
    obtain ⟨hold, hnew, hgen, hlow⟩ := hc
    obtain ⟨old, hold, hb4⟩ := Option.map_eq_some_iff.mp hold
    obtain ⟨new, hnew, ha3⟩ := Option.map_eq_some_iff.mp hnew
    obtain ⟨g, hg, hgh⟩ := List.any_eq_true.mp hgen
    have hlowest : Lowest before.rows genesis := by
      refine ⟨⟨g, hg, beq_iff_eq.mp hgh⟩, fun r hr hne => ?_⟩
      have := List.all_eq_true.mp hlow r hr
      rw [Bool.or_eq_true, beq_iff_eq, decide_eq_true_eq] at this
      exact this.resolve_left hne
    have hne : old.hash ≠ new.hash := by
      rw [hb4, ha3]
      decide
    obtain ⟨n, m, hn, hm, hlt⟩ := h later before txn after earlier heq old new genesis hold hnew hne
      hlowest
    rw [hb4] at hn
    rw [ha3] at hm
    have hn' : TrueWork Regtest.params (· ∈ branches) genesis b4 10 :=
      .of_totalWork (by simp [branches]) (by decide +kernel : totalWork _ branches genesis 4 b4 = _)
    have hm' : TrueWork Regtest.params (· ∈ branches) genesis a3 8 :=
      .of_totalWork (by simp [branches]) (by decide +kernel : totalWork _ branches genesis 3 a3 = _)
    have hgiven : genesis ∈ branches := List.mem_cons_self
    rw [hn.unique branches_tree hgiven hn', hm.unique branches_tree hgiven hm'] at hlt
    exact absurd hlt (by decide)

end Runs

end Chaintracks

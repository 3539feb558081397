import Chaintracks.Publication
import Chaintracks.Revalidation
import Chaintracks.TipFlag

/-!
# The two selections of the served tip

The routes take the served tip from `served_tip` (`Chaintracks.storageServedTip`), the
settled line and the journal from the view of the migrations (`Chaintracks.servedTip`),
and the two are written to be one selection. They differ in a filter: the view wants the
flagged row active, the routes do not ask.

In every store the service reaches there is at most one flagged row, since each
transaction that sets the flag takes it off every row first (`Chaintracks.OneFlag`). On
such a store the two agree exactly where the flagged row, if the ceiling admits it, is
active (`Chaintracks.storageServedTip_eq_iff`). The writers that strand the flag on an
inactive row part the two: the routes go on serving it and the journal serves nothing
(`Chaintracks.selections_part`).
-/

namespace Chaintracks

open HeaderRows

/-- `served_tip`: the flagged row where the ceiling admits it, and under a ceiling below
it the active row at the ceiling. -/
def storageServedTip (db : Store) : Option HeaderRow :=
  match servedCeiling db.sync with
  | .all => chainTip db.rows
  | .upTo c =>
    match chainTip db.rows with
    | some t => if t.height ≤ c then some t else headerForHeight db.rows c
    | none => headerForHeight db.rows c
  | .nothing => none

/-- The flagged row, where the ceiling admits it, is active. -/
def AdmittedActive (db : Store) : Prop :=
  ∀ tip, chainTip db.rows = some tip → (servedCeiling db.sync).admits tip.height = true →
    tip.isActive = true

/-- At most one row carries the flag. -/
def OneFlag (t : HeaderTable) : Prop :=
  ∀ r ∈ t.rows, ∀ r' ∈ t.rows, r.isChainTip = true → r'.isChainTip = true → r.hash = r'.hash

/-! ### One flag -/

section Flag

variable {t : HeaderTable} {params : ChainParams} {w : World}

/-- A statement that sets no flag leaves a flag only where one was. -/
theorem flagged_before {stmt : Stmt} (h : ¬stmt.Flags) {row : HeaderRow}
    (hrow : row ∈ (stmt.onHeaders t).rows) (hflag : row.isChainTip = true) :
    ∃ r ∈ t.rows, r.isChainTip = true ∧ r.hash = row.hash := by
  have hupdate : ∀ cond (set : HeaderRow → RowCells), row ∈ (t.update cond set).rows →
      (∀ r, (set r).isChainTip = true → r.isChainTip = true) →
      ∃ r ∈ t.rows, r.isChainTip = true ∧ r.hash = row.hash := by
    intro cond set hrow hset
    obtain ⟨r, hr, rfl⟩ := HeaderTable.mem_update.mp hrow
    refine ⟨r, hr, ?_, ?_⟩
    · split at hflag
      · exact hset r hflag
      · exact hflag
    · split <;> rfl
  cases stmt with
  | insertHeader prev header act work =>
    rcases HeaderTable.mem_insert hrow with hrow | ⟨rfl, -⟩
    · exact ⟨row, hrow, hflag, rfl⟩
    · cases hflag
  | setChainTipActive | setChainTip => exact absurd trivial h
  | recordPendingReorg => exact ⟨row, hrow, hflag, rfl⟩
  | clearChainTip | deactivateAbove => exact hupdate _ _ hrow nofun
  | _ => exact hupdate _ _ hrow fun _ hr => hr

theorem OneFlag.quiet {stmts : List Stmt} (hone : OneFlag t) (h : ∀ stmt ∈ stmts, ¬stmt.Flags) :
    OneFlag (onHeadersAll stmts t) := by
  induction stmts generalizing t with
  | nil => exact hone
  | cons stmt stmts ih =>
    obtain ⟨hstmt, hstmts⟩ := List.forall_mem_cons.mp h
    refine ih ?_ hstmts
    intro r hr r' hr' hflag hflag'
    obtain ⟨q, hq, hqflag, hqhash⟩ := flagged_before hstmt hr hflag
    obtain ⟨q', hq', hqflag', hqhash'⟩ := flagged_before hstmt hr' hflag'
    exact hqhash.symm.trans ((hone q hq q' hq' hqflag hqflag').trans hqhash')

/-- A flag set after every flag was cleared is the only one. -/
theorem OneFlag.set (t : HeaderTable) {stmt : Stmt} {hash : String}
    (h : stmt = .setChainTipActive hash ∨ stmt = .setChainTip hash) :
    OneFlag (stmt.onHeaders (Stmt.clearChainTip.onHeaders t)) := by
  have hclear : ∀ r ∈ (Stmt.clearChainTip.onHeaders t).rows, r.isChainTip = false := by
    intro r hr
    obtain ⟨q, -, rfl⟩ := HeaderTable.mem_update.mp hr
    by_cases hq : q.isChainTip = true
    · rw [if_pos hq]
    · rw [if_neg hq]
      exact Bool.not_eq_true _ ▸ hq
  have hset : ∀ r ∈ (stmt.onHeaders (Stmt.clearChainTip.onHeaders t)).rows,
      r.isChainTip = true → r.hash = hash := by
    intro r hr hflag
    rcases h with rfl | rfl <;>
    · obtain ⟨q, hq, rfl⟩ := HeaderTable.mem_update.mp hr
      by_cases hqh : (q.hash == hash) = true
      · rw [if_pos hqh]
        exact beq_iff_eq.mp hqh
      · rw [if_neg hqh, hclear q hq] at hflag
        cases hflag
  intro r hr r' hr' hflag hflag'
  rw [hset r hr hflag, hset r' hr' hflag']

/-- **The transactions and the flag**: a transaction sets no flag, or it ends in clearing
every flag and setting one. -/
theorem Move.flags {txn : List Stmt} (h : Move params w txn) :
    (∀ stmt ∈ txn, ¬stmt.Flags) ∨
      ∃ quiet flag hash, txn = quiet ++ [.clearChainTip, flag] ∧ (∀ stmt ∈ quiet, ¬stmt.Flags) ∧
        (flag = .setChainTipActive hash ∨ flag = .setChainTip hash) := by
  cases h with
  | live hlive =>
    cases hlive with
    | insertion header a =>
      unfold Admission.txn
      split
      · exact .inr ⟨[a.insertion header], _, _, rfl,
          List.forall_mem_singleton.mpr (by simp [Admission.insertion, Stmt.Flags]), .inl rfl⟩
      · exact .inl (List.forall_mem_singleton.mpr (by simp [Admission.insertion, Stmt.Flags]))
    | reorg new row tip plan =>
      refine .inr ⟨.deactivateAbove plan.ancestorHeight :: plan.branch.map .activateHash ++
        [.recordPendingReorg (plan.ancestorHeight + 1)], _, new.hash, ?_, ?_, .inl rfl⟩
      · simp [ReorgPlan.txn]
      · intro stmt hstmt
        simp only [List.cons_append, List.mem_cons, List.mem_append, List.mem_map,
          List.not_mem_nil, or_false] at hstmt
        rcases hstmt with rfl | ⟨_, -, rfl⟩ | rfl <;> exact id
    | moveTip row => exact .inr ⟨[], _, row.hash, rfl, List.forall_mem_nil _, .inl rfl⟩
    | relink => exact .inl (List.forall_mem_singleton.mpr id)
  | flagTip top => exact .inr ⟨[], _, top.hash, rfl, List.forall_mem_nil _, .inr rfl⟩
  | bulk headers _ linked pow cleared writes =>
    refine .inl fun stmt hstmt => ?_
    obtain ⟨x, -, work, rfl | rfl⟩ := writes stmt hstmt <;> exact id
  | progress _ writes =>
    refine .inl fun stmt hstmt => ?_
    obtain ⟨x, work, rfl, -⟩ := writes stmt hstmt
    exact id
  | linkSpan => exact .inl (List.forall_mem_singleton.mpr id)
  | activation headers last child lowest =>
    refine .inl fun stmt hstmt => ?_
    rcases List.mem_append.mp hstmt with hstmt | hstmt
    · obtain ⟨x, -, rfl⟩ := List.mem_map.mp hstmt
      exact id
    · rcases List.mem_cons.mp hstmt with rfl | hstmt
      · exact id
      · obtain ⟨v, -, rfl⟩ := Option.mem_toList.mp hstmt |> Option.map_eq_some_iff.mp
        exact id
  | dedupe => exact .inl (List.forall_mem_singleton.mpr id)
  | repair _ writes =>
    refine .inl fun stmt hstmt => ?_
    obtain ⟨work, i, rfl⟩ := writes stmt hstmt
    exact id

/-- **Every transaction leaves at most one flag.** -/
theorem OneFlag.move {txn : List Stmt} (hone : OneFlag w.db.headers) (h : Move params w txn) :
    OneFlag (onHeadersAll txn w.db.headers) := by
  rcases h.flags with hquiet | ⟨quiet, flag, hash, rfl, -, hflag⟩
  · exact hone.quiet hquiet
  · rw [onHeadersAll_append]
    exact OneFlag.set _ hflag

/-- The flagged row of a store with one flag. -/
theorem OneFlag.chainTip_eq {row : HeaderRow} (hone : OneFlag t) (hrow : row ∈ t.rows)
    (hflag : row.isChainTip = true) : chainTip t.rows = some row := by
  refine topmost_eq_of_forall (List.mem_filter.mpr ⟨hrow, hflag⟩) fun r hr => ?_
  obtain ⟨hr, hrflag⟩ := List.mem_filter.mp hr
  exact HeaderTable.eq_of_hash hr hrow (hone r hr row hrow hrflag hflag)

end Flag

/-! ### The two selections on one store -/

section Selections

variable {db : Store} {tip : HeaderRow}

/-- The view's row where the flagged row is admitted. -/
theorem servedTip_admitted (hone : OneFlag db.headers) (htip : chainTip db.rows = some tip)
    (hadm : (servedCeiling db.sync).admits tip.height = true) :
    servedTip db = if tip.isActive then some tip else none := by
  -- the view filters by a predicate that only the flagged row meets
  obtain ⟨serves, hview, hserves⟩ : ∃ serves : HeaderRow → Bool,
      servedTip db = topmost (db.rows.filter serves) ∧
        ∀ r ∈ db.rows, serves r = true ↔ r = tip ∧ tip.isActive = true := by
    refine ⟨_, rfl, fun r hr => ?_⟩
    have hflagged : r.isChainTip = true ↔ r = tip := by
      refine ⟨fun h => ?_, fun h => h ▸ chainTip_isChainTip htip⟩
      exact Option.some_inj.mp ((hone.chainTip_eq hr h).symm.trans htip)
    unfold servedCeiling at hadm
    by_cases hcomplete : db.sync.validationComplete = true
    · rw [if_pos hcomplete, Bool.and_eq_true, hflagged]
      constructor
      · rintro ⟨ha, hr⟩
        exact ⟨hr, hr ▸ ha⟩
      · rintro ⟨hr, ha⟩
        exact ⟨hr ▸ ha, hr⟩
    · rw [if_neg hcomplete] at hadm ⊢
      cases hv : db.sync.validatedHeight with
      | none =>
        rw [hv] at hadm
        cases hadm
      | some v =>
        rw [hv] at hadm
        have hle : tip.height ≤ v := of_decide_eq_true hadm
        have hany : (db.rows.any fun t => t.isChainTip && t.height ≤ v) = true :=
          List.any_eq_true.mpr ⟨tip, chainTip_mem htip, by
            rw [chainTip_isChainTip htip, Bool.true_and]
            exact decide_eq_true hle⟩
        dsimp only
        rw [hany, Bool.not_true, Bool.and_false, Bool.or_false, Bool.and_eq_true,
          Bool.and_eq_true, hflagged, decide_eq_true_eq]
        constructor
        · rintro ⟨ha, hr, -⟩
          exact ⟨hr, hr ▸ ha⟩
        · rintro ⟨hr, ha⟩
          exact ⟨hr ▸ ha, hr, hr ▸ hle⟩
  rw [hview]
  by_cases hact : tip.isActive = true
  · rw [if_pos hact]
    refine topmost_eq_of_forall ?_ fun r hr => ?_
    · exact List.mem_filter.mpr ⟨chainTip_mem htip, (hserves tip (chainTip_mem htip)).mpr ⟨rfl, hact⟩⟩
    · obtain ⟨hr, hs⟩ := List.mem_filter.mp hr
      exact ((hserves r hr).mp hs).1
  · rw [if_neg hact]
    refine topmost_eq_none.mpr (List.filter_eq_nil_iff.mpr fun r hr hs => ?_)
    exact hact ((hserves r hr).mp hs).2

/-- The view's row where no flagged row is admitted: the routes' row. -/
theorem servedTip_unadmitted (hone : OneFlag db.headers)
    (h : ∀ tip, chainTip db.rows = some tip → (servedCeiling db.sync).admits tip.height = false) :
    servedTip db = storageServedTip db := by
  unfold storageServedTip
  cases hc : servedCeiling db.sync with
  | all =>
    rw [hc] at h
    dsimp only
    cases htip : chainTip db.rows with
    | some tip => cases h tip htip
    | none =>
      have hnone := chainTip_eq_none.mp htip
      unfold servedCeiling at hc
      refine topmost_eq_none.mpr (List.filter_eq_nil_iff.mpr fun r hr => ?_)
      split at hc
      · rename_i hcomplete
        rw [if_pos hcomplete, hnone r hr, Bool.and_false]
        exact Bool.false_ne_true
      · split at hc <;> cases hc
  | nothing =>
    unfold servedCeiling at hc
    refine topmost_eq_none.mpr (List.filter_eq_nil_iff.mpr fun r hr => ?_)
    by_cases hcomplete : db.sync.validationComplete = true
    · rw [if_pos hcomplete] at hc
      cases hc
    · rw [if_neg hcomplete] at hc ⊢
      cases hv : db.sync.validatedHeight with
      | some v =>
        rw [hv] at hc
        cases hc
      | none =>
        dsimp only
        rw [Bool.and_false]
        exact Bool.false_ne_true
  | upTo c =>
    rw [hc] at h
    have hroutes : (match chainTip db.rows with
        | some t => if t.height ≤ c then some t else headerForHeight db.rows c
        | none => headerForHeight db.rows c) = headerForHeight db.rows c := by
      split
      · rename_i t ht
        exact if_neg (of_decide_eq_false (h t ht))
      · rfl
    dsimp only
    rw [hroutes]
    have habove : ∀ r ∈ db.rows, r.isChainTip = true → ¬r.height ≤ c := fun r hr hflag =>
      of_decide_eq_false (h r (hone.chainTip_eq hr hflag))
    unfold servedCeiling at hc
    split at hc
    · cases hc
    · rename_i hcomplete
      split at hc
      · rename_i v hv
        have hvc : v = c := Ceiling.upTo.inj hc
        subst hvc
        have hany : (db.rows.any fun t => t.isChainTip && t.height ≤ v) = false := by
          refine List.any_eq_false.mpr fun r hr => ?_
          rw [Bool.and_eq_true, decide_eq_true_eq]
          rintro ⟨hflag, hle⟩
          exact habove r hr hflag hle
        unfold servedTip headerForHeight
        dsimp only
        congr 1
        refine List.filter_congr fun r hr => ?_
        have hlow : (r.isChainTip && decide (r.height ≤ v)) = false :=
          Bool.eq_false_iff.mpr fun hb => by
            rw [Bool.and_eq_true, decide_eq_true_eq] at hb
            exact habove r hr hb.1 hb.2
        rw [if_neg hcomplete, hv]
        dsimp only
        rw [hlow, hany, Bool.false_or, Bool.not_false, Bool.and_true]
      · cases hc

/-- **The two selections agree on a store of one flag** exactly where the flagged row, if
the ceiling admits it, is active. -/
theorem storageServedTip_eq_iff (hone : OneFlag db.headers) :
    storageServedTip db = servedTip db ↔ AdmittedActive db := by
  by_cases hadm : ∃ tip, chainTip db.rows = some tip ∧
      (servedCeiling db.sync).admits tip.height = true
  · obtain ⟨tip, htip, hadm⟩ := hadm
    have hroutes : storageServedTip db = some tip := by
      unfold storageServedTip
      cases hc : servedCeiling db.sync with
      | all => exact htip
      | nothing => rw [hc] at hadm; cases hadm
      | upTo c =>
        rw [hc] at hadm
        dsimp only
        rw [htip]
        exact if_pos (of_decide_eq_true hadm)
    rw [hroutes, servedTip_admitted hone htip hadm]
    constructor
    · intro heq tip' htip' _
      rw [htip, Option.some_inj] at htip'
      by_contra hact
      rw [← htip', Bool.not_eq_true] at hact
      rw [hact] at heq
      cases heq
    · intro hact
      rw [if_pos (hact tip htip hadm)]
  · have hnone : ∀ tip, chainTip db.rows = some tip →
        (servedCeiling db.sync).admits tip.height = false := fun tip htip =>
      Bool.eq_false_iff.mpr fun h => hadm ⟨tip, htip, h⟩
    rw [servedTip_unadmitted hone hnone]
    refine ⟨fun _ tip htip h => ?_, fun _ => rfl⟩
    rw [hnone tip htip] at h
    cases h

end Selections

/-! ### The runs of the service -/

section Runs

variable (env : Env) (params : ChainParams)

/-- **At most one flag in every run of the service.** -/
theorem oneFlag_run (calls : List ServiceCall) :
    OneFlag (runService env params calls .init).db.headers := by
  refine service_invariant (C := fun _ _ _ _ => True) (I := fun w => OneFlag w.db.headers)
    (fun _ hw => hw) (fun _ _ _ _ hw => hw) ?_ ?_ (by simp [OneFlag, World.init, Store.fresh])
    (via_runService env params calls .init) fun _ _ _ _ _ _ => trivial
  · intro w now txn hmove hw _
    dsimp only
    rw [execAll_headers]
    exact hw.move hmove
  · intro w now write hw
    dsimp only
    rw [SyncWrite.exec_headers]
    exact hw

/-- **The two selections of the served tip**, in every store a run of the service
reaches: they agree exactly where the flagged row, if the ceiling admits it, is active;
and so they do in every run whose activations and sweeps spare the flagged row. -/
theorem selections_agree (calls : List ServiceCall) :
    (storageServedTip (runService env params calls .init).db =
        servedTip (runService env params calls .init).db ↔
      AdmittedActive (runService env params calls .init).db) ∧
    (EachCommit (fun _ before txn _ => sparesTip before txn = true)
        (runService env params calls .init).history →
      storageServedTip (runService env params calls .init).db =
        servedTip (runService env params calls .init).db) := by
  have hiff := storageServedTip_eq_iff (oneFlag_run env params calls)
  refine ⟨hiff, fun hspares => hiff.mpr fun tip htip _ => ?_⟩
  have hactive : FlaggedActive (runService env params calls .init).db.headers := by
    refine service_invariant (I := fun w => FlaggedActive w.db.headers) (fun _ hw => hw)
      (fun _ _ _ _ hw => hw) ?_ ?_ (by simp [FlaggedActive, World.init, Store.fresh])
      (via_runService env params calls .init) hspares
    · intro w now txn hmove hw hcond
      dsimp only
      rw [execAll_headers]
      exact hw.move hmove hcond
    · intro w now write hw
      dsimp only
      rw [SyncWrite.exec_headers]
      exact hw
  exact hactive tip (chainTip_mem htip) (chainTip_isChainTip htip)

end Runs

open Regtest in
/-- A live chain, a restart of the validation and one of its steps. -/
theorem selections_agree_restart :
    storageServedTip (runService host Regtest.params
        [.headers (.insertHeader genesis), .headers (.insertHeader a1), .restartValidation,
          .revalidateStep 1, .headers (.insertHeader a2)] .init).db =
      servedTip (runService host Regtest.params
        [.headers (.insertHeader genesis), .headers (.insertHeader a1), .restartValidation,
          .revalidateStep 1, .headers (.insertHeader a2)] .init).db :=
  (selections_agree host Regtest.params _).2 (.of_eachCommit (by decide +kernel))

open Regtest in
/-- **The two selections part.** An activation strands the flag on an inactive row: the
routes serve that row and the journal's view serves nothing. -/
theorem selections_part :
    storageServedTip (runService host Regtest.params
        [.headers (.insertHeader genesis), .headers (.backfillWrite [a1, a2]),
          .headers (.insertHeader b1), .headers (.ingestPushed [a1])] .init).db ≠
      servedTip (runService host Regtest.params
        [.headers (.insertHeader genesis), .headers (.backfillWrite [a1, a2]),
          .headers (.insertHeader b1), .headers (.ingestPushed [a1])] .init).db := by
  decide +kernel

end Chaintracks

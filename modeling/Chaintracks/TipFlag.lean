import Chaintracks.Runs
import Chaintracks.Regtest

/-!
# The flagged tip is an active row

The flag and the activity bit are two columns, and most writers set them together: the
move of the tip sets both, a reorg clears both, and the flag is put alone only on a row
read as the highest active one. Two statements touch the activity alone: the activation
of a push, which makes its row the one active row of its height, and the sweep, which
keeps one row a height. Neither looks at the flag.

So the flag stays on an active row as long as neither takes the flagged row off the
active chain (`Chaintracks.sparesTip`, `Chaintracks.flaggedActive_of_sparesTip`), and an
activation against a flagged rival breaks it (`Chaintracks.activation_strands_flag`).
-/

namespace Chaintracks

open HeaderRows

/-- No flagged row is inactive. -/
def FlaggedActive (t : HeaderTable) : Prop :=
  ∀ row ∈ t.rows, row.isChainTip = true → row.isActive = true

/-- **The condition on a transaction**: an activation at the flagged row's height is of
the flagged row's own hash, and a sweep at its height keeps it. -/
def sparesTip (before : Store) (txn : List Stmt) : Bool :=
  txn.all fun stmt => match stmt with
    | .canonicalizeHeight hash height => before.rows.all fun row =>
        !(row.isChainTip && row.height == height) || row.hash == hash
    | .dedupeHeight height => before.rows.all fun row =>
        !(row.isChainTip && row.height == height) ||
          some row.headerId == (dedupeKept before.rows height).map (·.headerId)
    | _ => true

section Statements

variable {t : HeaderTable}

theorem FlaggedActive.update {cond : HeaderRow → Bool} {set : HeaderRow → RowCells}
    (hf : FlaggedActive t)
    (h : ∀ r ∈ t.rows, cond r = true → (set r).isChainTip = true → (set r).isActive = true) :
    FlaggedActive (t.update cond set) := by
  intro row hrow hflag
  obtain ⟨r, hr, rfl⟩ := HeaderTable.mem_update.mp hrow
  by_cases hc : cond r = true
  · rw [if_pos hc] at hflag ⊢
    exact h r hr hc hflag
  · rw [if_neg hc] at hflag ⊢
    exact hf r hr hflag

/-- A statement that looks at no height of the flag keeps the flag on an active row. -/
theorem FlaggedActive.exec {stmt : Stmt} (hf : FlaggedActive t)
    (hset : ∀ hash, stmt = .setChainTip hash → ∀ row ∈ t.rows, row.hash = hash → row.isActive = true)
    (hcanon : ∀ hash height, stmt = .canonicalizeHeight hash height →
      ∀ row ∈ t.rows, row.isChainTip = true → row.height = height → row.hash = hash)
    (hsweep : ∀ height, stmt = .dedupeHeight height → ∀ row ∈ t.rows, row.isChainTip = true →
      row.height = height → some row.headerId = (dedupeKept t.rows height).map (·.headerId)) :
    FlaggedActive (stmt.onHeaders t) := by
  cases stmt with
  | insertHeader prev header act work =>
    intro row hrow hflag
    rcases HeaderTable.mem_insert hrow with hrow | ⟨rfl, -⟩
    · exact hf row hrow hflag
    · cases hflag
  | clearChainTip => exact hf.update fun r hr _ hflag => nomatch hflag
  | setChainTipActive hash => exact hf.update fun r hr _ _ => rfl
  | setChainTip hash =>
    exact hf.update fun r hr hc _ => hset hash rfl r hr (beq_iff_eq.mp hc)
  | deactivateAbove height => exact hf.update fun r hr _ hflag => nomatch hflag
  | activateHash hash => exact hf.update fun r hr _ _ => rfl
  | relinkHeader => exact hf.update fun r hr _ hflag => hf r hr hflag
  | setChainWork work id => exact hf.update fun r hr _ hflag => hf r hr hflag
  | activateStored work hash height => exact hf.update fun r hr _ _ => rfl
  | linkChild parent child => exact hf.update fun r hr _ hflag => hf r hr hflag
  | linkSpan lo hi => exact hf.update fun r hr _ hflag => hf r hr hflag
  | canonicalizeHeight hash height =>
    refine hf.update fun r hr hc hflag => ?_
    exact beq_iff_eq.mpr (hcanon hash height rfl r hr hflag (beq_iff_eq.mp hc))
  | dedupeHeight height =>
    -- the sweep takes no flagged row: it keeps the one at its height
    refine hf.update fun r hr hc hflag => ?_
    rw [Bool.and_eq_true, Bool.and_eq_true, beq_iff_eq, bne_iff_ne] at hc
    exact absurd (hsweep height rfl r hr hflag hc.1.1) hc.2
  | recordPendingReorg => exact hf

/-- A transaction without any of the three statements that look at the activity. -/
theorem FlaggedActive.txn {txn : List Stmt} (hf : FlaggedActive t)
    (hset : ∀ hash, .setChainTip hash ∉ txn) (hcanon : ∀ hash height, .canonicalizeHeight hash height ∉ txn)
    (hsweep : ∀ height, .dedupeHeight height ∉ txn) : FlaggedActive (onHeadersAll txn t) := by
  induction txn generalizing t with
  | nil => exact hf
  | cons stmt txn ih =>
    refine ih (hf.exec ?_ ?_ ?_) (fun hash hm => hset hash (List.mem_cons_of_mem _ hm))
      (fun hash height hm => hcanon hash height (List.mem_cons_of_mem _ hm))
      (fun height hm => hsweep height (List.mem_cons_of_mem _ hm))
    · rintro hash rfl
      exact absurd List.mem_cons_self (hset hash)
    · rintro hash height rfl
      exact absurd List.mem_cons_self (hcanon hash height)
    · rintro height rfl
      exact absurd List.mem_cons_self (hsweep height)

/-- The activations of a push, one height after the other, where none is against a
flagged rival. -/
theorem FlaggedActive.canonicalize {headers : List BlockHeader} (hf : FlaggedActive t)
    (h : ∀ x ∈ headers, ∀ row ∈ t.rows, row.isChainTip = true → row.height = x.height →
      row.hash = x.hash) :
    FlaggedActive (onHeadersAll (headers.map fun x => .canonicalizeHeight x.hash x.height) t) := by
  induction headers generalizing t with
  | nil => exact hf
  | cons x xs ih =>
    refine ih (hf.exec nofun ?_ nofun) ?_
    · rintro hash height hs row hrow hflag hheight
      cases hs
      exact h x List.mem_cons_self row hrow hflag hheight
    · -- an activation changes neither flags nor hashes nor heights
      intro y hy row hrow hflag hheight
      obtain ⟨r, hr, rfl⟩ := HeaderTable.mem_update.mp hrow
      have hsame := h y (List.mem_cons_of_mem _ hy) r hr
      split at hflag <;> split at hheight <;> split <;> exact hsame hflag hheight

end Statements

section Runs

variable {env : Env} {params : ChainParams} {w : World}

/-- A move of the live path keeps the flag on an active row. -/
theorem FlaggedActive.live {offered : BlockHeader → Prop} {txn : List Stmt}
    (hf : FlaggedActive w.db.headers) (hmove : LiveMove params offered w txn) :
    FlaggedActive (onHeadersAll txn w.db.headers) := by
  cases hmove with
  | insertion header a =>
    apply hf.txn <;> unfold Admission.txn Admission.insertion <;> split <;> simp
  | reorg new row tip plan => apply hf.txn <;> simp [ReorgPlan.txn]
  | moveTip row => apply hf.txn <;> simp [moveTipTxn]
  | relink => apply hf.txn <;> simp

/-- **A move that spares the tip keeps the flag on an active row.** -/
theorem FlaggedActive.move {txn : List Stmt} (hf : FlaggedActive w.db.headers)
    (hmove : Move params w txn) (hcond : sparesTip w.db txn = true) :
    FlaggedActive (onHeadersAll txn w.db.headers) := by
  cases hmove with
  | live hlive => exact hf.live hlive
  | flagTip top highest =>
    -- the flag goes to a row that was read active, and clearing it elsewhere changes no activity
    have hcleared : FlaggedActive (Stmt.clearChainTip.onHeaders w.db.headers) :=
      hf.update fun _ _ _ hflag => nomatch hflag
    change FlaggedActive ((Stmt.setChainTip top.hash).onHeaders _)
    refine hcleared.exec ?_ nofun nofun
    intro hash hs row hrow hhash
    cases hs
    obtain ⟨r, hr, rfl⟩ := HeaderTable.mem_update.mp hrow
    have hrtop : r.hash = top.hash := by
      split at hhash <;> exact hhash
    have hact : r.isActive = true := by
      rw [HeaderTable.eq_of_hash hr (highestActive_mem highest) hrtop]
      exact highestActive_isActive highest
    split <;> exact hact
  | bulk headers _ linked pow cleared writes =>
    refine hf.txn ?_ ?_ ?_ <;> intros <;> intro hm <;> obtain ⟨x, -, work, hw | hw⟩ := writes _ hm <;>
      cases hw
  | progress _ writes =>
    refine hf.txn ?_ ?_ ?_ <;> intros <;> intro hm <;> obtain ⟨x, work, hw, -⟩ := writes _ hm <;>
      cases hw
  | linkSpan => apply hf.txn <;> simp
  | activation headers last child lowest =>
    rw [activationTxn, onHeadersAll_append]
    refine FlaggedActive.txn (hf.canonicalize ?_) ?_ ?_ ?_
    · intro x hx row hrow hflag hheight
      have hstmt := List.all_eq_true.mp hcond (.canonicalizeHeight x.hash x.height) (by
        rw [activationTxn]
        exact List.mem_append_left _ (List.mem_map.mpr ⟨x, hx, rfl⟩))
      have hr := List.all_eq_true.mp hstmt row hrow
      rw [hflag, hheight] at hr
      simpa using hr
    · simp
    · simp
    · simp
  | dedupe height =>
    change FlaggedActive ((Stmt.dedupeHeight height).onHeaders _)
    refine hf.exec nofun nofun ?_
    rintro height' hs row hrow hflag hheight
    cases hs
    have hr := List.all_eq_true.mp (List.all_eq_true.mp hcond _ List.mem_cons_self) row hrow
    rw [hflag, hheight] at hr
    simpa using hr
  | repair _ writes =>
    refine hf.txn ?_ ?_ ?_ <;> intros <;> intro hm <;> obtain ⟨work, id, hw⟩ := writes _ hm <;>
      cases hw

/-- **In every run whose transactions spare the tip, the flagged row is active**, after
the run and after each of its transactions. -/
theorem flaggedActive_of_sparesTip (env : Env) (params : ChainParams) (calls : List Call)
    (h : EachCommit (fun _ before txn _ => sparesTip before txn = true)
      (runAll env params calls .init).history) :
    FlaggedActive (runAll env params calls .init).db.headers ∧
      EachCommit (fun _ _ _ after => FlaggedActive after.headers)
        (runAll env params calls .init).history := by
  refine steps_invariant (I := fun w => FlaggedActive w.db.headers)
    (D := fun _ _ _ after => FlaggedActive after.headers) (fun _ hw => hw) (fun _ _ _ _ hw => hw)
    ?_ (by simp [FlaggedActive, World.init, Store.fresh]) (via_runAll env params calls .init) h
  intro w now txn hmove hw hcond
  have hafter : FlaggedActive (execAll now txn w.db).headers := by
    rw [execAll_headers]
    exact hw.move hmove hcond
  exact ⟨hafter, hafter⟩

open Regtest in
/-- A bulk write, a push below the tip and a rival's insertion. -/
theorem flaggedActive_of_sparesTip_push :
    FlaggedActive (runAll host Regtest.params
      [.insertHeader genesis, .bulkWrite [a1, a2], .insertHeader b1, .ingestPushed [a1]]
      .init).db.headers :=
  (flaggedActive_of_sparesTip _ _ _ (.of_eachCommit (by decide +kernel))).1

open Regtest in
/-- **An activation against a flagged rival leaves the flag on an inactive row.** A
backfill leaves two rows active above the flag; a rival of the first takes the flag; the
push of the first activates it, its child standing active above it. -/
theorem activation_strands_flag :
    ¬FlaggedActive (runAll host Regtest.params
      [.insertHeader genesis, .backfillWrite [a1, a2], .insertHeader b1, .ingestPushed [a1]]
      .init).db.headers := by
  intro h
  have hstranded : ∃ row ∈ (runAll host Regtest.params
      [.insertHeader genesis, .backfillWrite [a1, a2], .insertHeader b1, .ingestPushed [a1]]
      .init).db.rows, row.isChainTip = true ∧ row.isActive = false := by decide +kernel
  obtain ⟨row, hrow, hflag, hact⟩ := hstranded
  rw [h row hrow hflag] at hact
  cases hact

end Runs

end Chaintracks

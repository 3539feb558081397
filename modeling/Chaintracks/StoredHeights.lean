import Chaintracks.Couriers
import Chaintracks.LiveShape

/-!
# The heights of the stored rows

A stored row stands one above the row it names as its parent: the writers read the tree
of the rows by that, and so do the walks. A header that arrives on its parent is held to
it (`Chaintracks.checkExtends`). A header that arrives before its parent is stored at the
height it was served with, and no one looks at the rows that wait for a header when it
comes.

So the heights agree in a run exactly as long as every header finds the rows that name it
one above itself (`Chaintracks.FitsIn`); and where they agree, a row that tells the truth
of its block is never kept from its parent (`Chaintracks.Unobstructed`).
-/

namespace Chaintracks

open HeaderRows

/-! ### Heights that agree -/

/-- **The heights agree**: a row that names another stands one above it. -/
def HeightsAgree (rows : List HeaderRow) : Prop :=
  ∀ r ∈ rows, ∀ p ∈ rows, r.previousHash = p.hash → r.height = p.height + 1

instance (rows : List HeaderRow) : Decidable (HeightsAgree rows) :=
  inferInstanceAs (Decidable (∀ r ∈ rows, ∀ p ∈ rows, r.previousHash = p.hash → r.height = p.height + 1))

/-- **A header fits** where it arrives: the rows that wait for it stand one above it, its
texts are in lower case, and it meets no hash that no frame has – neither its own as its
parent's, nor the zero hash as a row's. -/
structure FitsIn (rows : List HeaderRow) (header : BlockHeader) : Prop where
  waited : ∀ r ∈ rows, r.previousHash = header.hash → r.height = header.height + 1
  lowercase : toAsciiLowercase header.previousHash = asBytes header.previousHash ∧
    toAsciiLowercase header.hash = asBytes header.hash
  notSelf : header.previousHash ≠ header.hash
  notZero : header.previousHash = zeroHash → ∀ r ∈ rows, r.hash ≠ zeroHash

/-- The header a statement inserts, if it does, fits in the rows. -/
def Stmt.Fits (rows : List HeaderRow) : Stmt → Prop
  | insertHeader _ header _ _ => FitsIn rows header
  | _ => True

/-- Every header a transaction inserts fits in the rows it finds. -/
def Fits (before : Store) (txn : List Stmt) : Prop := ∀ stmt ∈ txn, stmt.Fits before.rows

section Decidable

variable (rows : List HeaderRow) (header : BlockHeader)

instance : Decidable (FitsIn rows header) :=
  decidable_of_iff
    ((∀ r ∈ rows, r.previousHash = header.hash → r.height = header.height + 1) ∧
      (toAsciiLowercase header.previousHash = asBytes header.previousHash ∧
        toAsciiLowercase header.hash = asBytes header.hash) ∧
      header.previousHash ≠ header.hash ∧
      (header.previousHash = zeroHash → ∀ r ∈ rows, r.hash ≠ zeroHash))
    ⟨fun ⟨waited, lowercase, notSelf, notZero⟩ => ⟨waited, lowercase, notSelf, notZero⟩,
      fun h => ⟨h.waited, h.lowercase, h.notSelf, h.notZero⟩⟩

instance (stmt : Stmt) : Decidable (stmt.Fits rows) :=
  match stmt with
  | .insertHeader _ header _ _ => inferInstanceAs (Decidable (FitsIn rows header))
  | .clearChainTip | .setChainTipActive _ | .setChainTip _ | .deactivateAbove _ | .activateHash _
  | .relinkHeader .. | .setChainWork .. | .activateStored .. | .linkChild .. | .linkSpan ..
  | .canonicalizeHeight .. | .dedupeHeight _ | .recordPendingReorg _ =>
    inferInstanceAs (Decidable True)

instance (before : Store) (txn : List Stmt) : Decidable (Fits before txn) :=
  inferInstanceAs (Decidable (∀ stmt ∈ txn, stmt.Fits before.rows))

end Decidable

/-- The row is the header but for what its hash does not hold it to: its height, and the
letters of its texts. -/
structure SameBlock (row : HeaderRow) (header : BlockHeader) : Prop where
  hash : row.hash = header.hash
  previousHash : eqIgnoreAsciiCase row.previousHash header.previousHash = true
  time : row.time = header.time
  bits : row.bits = header.bits

/-- **An honest header on a stored parent**: it stands one above it and the rules let it
in. -/
structure Honest (params : ChainParams) (rows : List HeaderRow) (parent : HeaderRow)
    (header : BlockHeader) : Prop where
  stored : parent ∈ rows
  named : header.previousHash = parent.hash
  notZero : header.previousHash ≠ zeroHash
  onParent : header.height = parent.height + 1
  context : checkContext params (contextOf params rows parent) header = .ok ()
  noCheckpointAbove : storedCheckpointAbove rows params header.height (chainTip rows) = none

/-- **Nothing stored keeps an honest header from its parent**: not stored yet it is let in
on it, and its row, where it is stored, is linked to it. -/
def Unobstructed (params : ChainParams) (rows : List HeaderRow) : Prop :=
  ∀ parent header, Honest params rows parent header →
    (headerForHash rows header.hash = none →
      ∃ a, admission params rows header = .ok a ∧ a.previous = some parent) ∧
    ∀ row ∈ rows, SameBlock row header →
      ∃ work, planRelink params rows header.hash = .ok (.link row parent work)

section Agreement

variable {params : ChainParams} {t : HeaderTable} {header : BlockHeader} {parent row : HeaderRow}

theorem checkExtends_of_eq {writer : String} (h : header.height = parent.height + 1) :
    checkExtends writer header parent = .ok () := if_pos h

/-- The context check reads the height, the hash, the time and the bits. -/
theorem checkContext_congr {header' : BlockHeader} {w : Window} (hheight : header'.height = header.height)
    (hhash : header'.hash = header.hash) (htime : header'.time = header.time)
    (hbits : header'.bits = header.bits) :
    checkContext params w header' = checkContext params w header := by
  unfold checkContext
  rw [hheight, hhash, htime, hbits]

theorem Honest.admitted (h : Honest params t.rows parent header) :
    ∃ a, admission params t.rows header = .ok a ∧ a.previous = some parent := by
  have hprevious : previousOf t.rows header = some parent := by
    rw [previousOf, if_pos h.notZero, h.named, headerForHash_eq_some t.uniqueHash h.stored]
  refine ⟨⟨previousOf t.rows header, cumulativeWork params (previousOf t.rows header) header,
    chainTip t.rows, true⟩, ?_, hprevious⟩
  unfold admission
  rw [hprevious]
  refine Except.bind_eq_ok.mpr ⟨(), checkExtends_of_eq h.onParent, Except.bind_eq_ok.mpr ⟨(), ?_,
    Except.bind_eq_ok.mpr ⟨true, ?_, rfl⟩⟩⟩
  · unfold checkForkPriorToCheckpoint
    rw [h.noCheckpointAbove]
    rfl
  · exact Except.bind_eq_ok.mpr ⟨(), Except.mapError_eq_ok.mpr h.context, rfl⟩

/-- **Where the heights agree and the texts are in lower case**, nothing stored keeps an
honest header from its parent. -/
theorem HeightsAgree.unobstructed (h : HeightsAgree t.rows)
    (hlower : ∀ r ∈ t.rows, toAsciiLowercase r.previousHash = asBytes r.previousHash ∧
      toAsciiLowercase r.hash = asBytes r.hash) : Unobstructed params t.rows := by
  intro parent header honest
  refine ⟨fun _ => honest.admitted, fun row hrow same => ?_⟩
  have hnamed : row.previousHash = parent.hash := by
    refine eq_of_eqIgnoreAsciiCase ?_ (hlower row hrow).1 (hlower parent honest.stored).2
    rw [← honest.named]
    exact same.previousHash
  have hheight : row.height = parent.height + 1 := h row hrow parent honest.stored hnamed
  have hcontext : checkContext params (contextOf params t.rows parent) row.toBlockHeader = .ok () :=
    (checkContext_congr (hheight.trans honest.onParent.symm) same.hash same.time same.bits).trans
      honest.context
  refine ⟨addWork parent.chainWork (params.bsv.workFromBits row.bits), ?_⟩
  rw [planRelink, ← same.hash, headerForHash_eq_some t.uniqueHash hrow]
  dsimp only
  rw [hnamed, headerForHash_eq_some t.uniqueHash honest.stored]
  exact Except.bind_eq_ok.mpr ⟨(), checkExtends_of_eq hheight,
    Except.bind_eq_ok.mpr ⟨(), Except.mapError_eq_ok.mpr hcontext, rfl⟩⟩

end Agreement

/-! ### What a transaction keeps -/

section Steps

variable {params : ChainParams} {offered : BlockHeader → Prop} {w : World} {txn : List Stmt}

/-- The rows as a run keeps them: their heights agree, their texts are in lower case. -/
structure Ordered (rows : List HeaderRow) : Prop where
  agree : HeightsAgree rows
  lowercase : ∀ r ∈ rows, toAsciiLowercase r.previousHash = asBytes r.previousHash ∧
    toAsciiLowercase r.hash = asBytes r.hash

/-- A transaction that inserts no header keeps the rows in order. -/
theorem Ordered.of_no_insertion {t : HeaderTable} (h : Ordered t.rows)
    (hnone : ∀ prev header act work, .insertHeader prev header act work ∉ txn) :
    Ordered (onHeadersAll txn t).rows := by
  have hold : ∀ row ∈ (onHeadersAll txn t).rows, ∃ r ∈ t.rows, row.toBlockHeader = r.toBlockHeader := by
    intro row hrow
    rcases mem_onHeadersAll hrow with ⟨r, hr, hh, -⟩ | ⟨prev, act, work, hins⟩
    · exact ⟨r, hr, hh⟩
    · exact absurd hins (hnone _ _ _ _)
  refine ⟨fun row hrow parent hparent hnamed => ?_, fun row hrow => ?_⟩
  · obtain ⟨r, hr, hh⟩ := hold row hrow
    obtain ⟨p, hp, hhp⟩ := hold parent hparent
    rw [hh, hhp] at hnamed ⊢
    exact h.agree r hr p hp hnamed
  · obtain ⟨r, hr, hh⟩ := hold row hrow
    rw [hh]
    exact h.lowercase r hr

/-- **A header let in and fitting** keeps the rows in order. -/
theorem Ordered.insertion {t : HeaderTable} (h : Ordered t.rows) {header : BlockHeader} {a : Admission}
    (hadm : admission params t.rows header = .ok a) (hfits : FitsIn t.rows header) :
    Ordered (onHeadersAll (a.txn header) t).rows := by
  have had := admission_ok hadm
  have hrows : ∀ row ∈ (onHeadersAll (a.txn header) t).rows,
      (∃ r ∈ t.rows, row.toBlockHeader = r.toBlockHeader) ∨ row.toBlockHeader = header := by
    intro row hrow
    rcases mem_onHeadersAll hrow with ⟨r, hr, hh, -⟩ | ⟨prev, act, work, hins⟩
    · exact .inl ⟨r, hr, hh⟩
    · refine .inr ?_
      unfold Admission.txn Admission.insertion at hins
      split at hins <;> simp only [List.mem_cons, reduceCtorEq, List.not_mem_nil, or_false,
        Stmt.insertHeader.injEq] at hins <;> exact hins.2.1
  have hextends : ∀ p ∈ t.rows, header.previousHash = p.hash → header.height = p.height + 1 := by
    intro p hp hnamed
    have hne : header.previousHash ≠ zeroHash :=
      fun hzero => hfits.notZero hzero p hp (hnamed.symm.trans hzero)
    refine (had.onParent p ?_).1
    rw [previousOf, if_pos hne, hnamed, headerForHash_eq_some t.uniqueHash hp]
  refine ⟨fun row hrow parent hparent hnamed => ?_, fun row hrow => ?_⟩
  · rcases hrows row hrow with ⟨r, hr, hh⟩ | hh <;> rcases hrows parent hparent with ⟨p, hp, hhp⟩ | hhp <;>
      rw [hh, hhp] at hnamed ⊢
    · exact h.agree r hr p hp hnamed
    · exact hfits.waited r hr hnamed
    · exact hextends p hp hnamed
    · exact absurd hnamed hfits.notSelf
  · rcases hrows row hrow with ⟨r, hr, hh⟩ | hh
    · rw [hh]
      exact h.lowercase r hr
    · rw [hh]
      exact hfits.lowercase

/-- **One transaction of the live path** keeps the rows in order where its header fits. -/
theorem Ordered.move (h : Ordered w.db.headers.rows) (hmove : LiveMove params offered w txn)
    (hfits : Fits w.db txn) : Ordered (onHeadersAll txn w.db.headers).rows := by
  cases hmove with
  | insertion header a _ _ _ admitted _ =>
    refine h.insertion admitted
      (hfits (.insertHeader (a.previous.map (·.headerId)) header (a.isActive header) a.chainWork) ?_)
    unfold Admission.txn Admission.insertion
    split <;> exact List.mem_cons_self
  | reorg new row tip plan =>
    refine h.of_no_insertion fun prev header act work hins => ?_
    simp [ReorgPlan.txn] at hins
  | moveTip row =>
    refine h.of_no_insertion fun prev header act work hins => ?_
    simp [moveTipTxn] at hins
  | relink hash stored parent chainWork =>
    refine h.of_no_insertion fun prev header act work hins => ?_
    simp at hins

end Steps

/-! ### Runs -/

/-- The stored heights agree with the chain, and nothing stored is in an honest header's
way. -/
def InOrder (params : ChainParams) (db : Store) : Prop :=
  HeightsAgree db.rows ∧ Unobstructed params db.rows

section Runs

variable {params : ChainParams} {env : Env} {calls : List Call}

/-- **Stored heights agree with the chain**, in every state of every run of the live path
on what the couriers serve, as long as every header that is stored fits. -/
theorem inOrder_of_fits (hserves : env.Serves (Fetched params))
    (h : ∀ call ∈ calls, LiveCall (Fetched params) call)
    (hfits : EachCommit (fun _ before txn _ => Fits before txn)
      (runAll env params calls .init).history) :
    InOrder params (runAll env params calls .init).db ∧
      EachCommit (fun _ _ _ after => InOrder params after) (runAll env params calls .init).history := by
  have hgood : ∀ db : Store, Ordered db.headers.rows → InOrder params db :=
    fun db hdb => ⟨hdb.agree, hdb.agree.unobstructed hdb.lowercase⟩
  obtain ⟨hlast, heach⟩ := steps_invariant (I := fun w => Ordered w.db.headers.rows)
    (D := fun _ _ _ after => InOrder params after) (fun _ hw => hw) (fun _ _ _ _ hw => hw)
    (fun w now txn hmove hw hfit => by
      have hafter : Ordered (execAll now txn w.db).headers.rows := by
        rw [execAll_headers]
        exact hw.move hmove hfit
      exact ⟨hafter, hgood _ hafter⟩)
    ⟨nofun, nofun⟩ (via_liveRun hserves h .init) hfits
  exact ⟨hgood _ hlast, heach⟩

end Runs

section Regtest

open Regtest

theorem known_fetched : ∀ h ∈ known, Fetched params h := by
  have hpow : ∀ h ∈ known, checkPow params h = .ok () := by decide +kernel
  exact fun h hh => .of_checkPow (hpow h hh)

theorem courier_fetched (fails : Nat → Bool) : (courier fails).Serves (Fetched params) :=
  fun asked hash header h => known_fetched header (courier_serves fails asked hash header h)

/-- A block of a branch, its parent fetched after it. -/
theorem inOrder_of_fits_orphan :
    InOrder params (runAll (courier fun _ => false) params
      [.insertWithParentBackfill genesis, .insertWithParentBackfill a1,
        .insertWithParentBackfill b2] .init).db := by
  have hcalls : ∀ call ∈ [.insertWithParentBackfill genesis, .insertWithParentBackfill a1,
      .insertWithParentBackfill b2], LiveCall (Fetched params) call := by
    simp only [List.mem_cons, List.not_mem_nil, or_false]
    rintro call (rfl | rfl | rfl) <;> exact known_fetched _ (by simp [known])
  have hfits : EachCommit (fun _ before txn _ => decide (Fits before txn) = true)
      (runAll (courier fun _ => false) params [.insertWithParentBackfill genesis,
        .insertWithParentBackfill a1, .insertWithParentBackfill b2] .init).history :=
    .of_eachCommit (by decide +kernel)
  exact (inOrder_of_fits (courier_fetched _) hcalls fun later before txn after earlier heq =>
    of_decide_eq_true (hfits later before txn after earlier heq)).1

/-- The second block of the branch `a`, as an answer by height 7 serves it. -/
def a2At7 : BlockHeader := { a2 with height := 7 }

/-- The genesis, then the block at the wrong height; its parent comes by hash. -/
def misplaced : List Call := [.insertWithParentBackfill genesis, .insertWithParentBackfill a2At7]

/-- **A height no proof covers**: the answer passes every check of the ladder, the block is
stored before its parent, and when its parent comes no one looks. Served as it should be, it
is a duplicate, and its row is never linked. -/
theorem a2At7_misplaced :
    (courier fun _ => false).Serves (Fetched params) ∧
      (∀ call ∈ misplaced, LiveCall (Fetched params) call) ∧
      ¬HeightsAgree (runAll (courier fun _ => false) params misplaced .init).db.rows ∧
      ¬Unobstructed params (runAll (courier fun _ => false) params misplaced .init).db.rows := by
  have hpow : checkPow params a2At7 = .ok () := by decide +kernel
  refine ⟨courier_fetched _, ?_, by decide +kernel, fun h => ?_⟩
  · simp only [misplaced, List.mem_cons, List.not_mem_nil, or_false]
    rintro call (rfl | rfl)
    · exact known_fetched _ (by simp [known])
    · exact .of_checkPow hpow
  · obtain ⟨parent, hparent, hnamed, hzero, hheight, hcontext, habove⟩ :
        ∃ parent ∈ (runAll (courier fun _ => false) params misplaced .init).db.rows,
          a2.previousHash = parent.hash ∧ a2.previousHash ≠ zeroHash ∧ a2.height = parent.height + 1 ∧
          checkContext params (contextOf params
            (runAll (courier fun _ => false) params misplaced .init).db.rows parent) a2 = .ok () ∧
          storedCheckpointAbove (runAll (courier fun _ => false) params misplaced .init).db.rows params
            a2.height (chainTip (runAll (courier fun _ => false) params misplaced .init).db.rows) =
            none := by
      decide +kernel
    obtain ⟨row, hrow, hhash, hprev, htime, hbits, hrefused⟩ :
        ∃ row ∈ (runAll (courier fun _ => false) params misplaced .init).db.rows,
          row.hash = a2.hash ∧ eqIgnoreAsciiCase row.previousHash a2.previousHash = true ∧
          row.time = a2.time ∧ row.bits = a2.bits ∧
          (planRelink params (runAll (courier fun _ => false) params misplaced .init).db.rows
            a2.hash).isOk = false := by
      decide +kernel
    obtain ⟨work, hplan⟩ := (h parent a2 ⟨hparent, hnamed, hzero, hheight, hcontext, habove⟩).2 row hrow
      ⟨hhash, hprev, htime, hbits⟩
    rw [hplan] at hrefused
    cases hrefused

end Regtest

end Chaintracks

import Chaintracks.BulkWriters

/-!
# The runs of the service

The service is its writers called one after the other, each under the lease: from the
doors, from the cron, from the operator's routes. A call is a value
(`Chaintracks.Call`), a run a list of calls (`Chaintracks.runAll`), and a call cut short
by a refused transaction leaves the next one to start from what it committed.

The passes of `Chaintracks.Sync` make no move of their own: every one is made by a
writer they call. So `Chaintracks.via_call` closes the account of the writers, and
`Chaintracks.via_runAll` reads a whole run as a chain of steps.
-/

namespace Chaintracks

section Passes

variable {env : Env} {params : ChainParams}

/-! ### The moves of the heal -/

theorem via_healLook {M : World → List Stmt → Prop} (clock : HealClock) (w : World) :
    Prog.Via (Step params M) (healLook env clock) w := by
  unfold healLook
  split
  · refine Prog.Via.bind (via_ask _) fun now s _ => ?_
    exact Prog.Via.bind (via_ask _) fun left s' _ => Prog.Via.pure _
  · exact Prog.Via.pure _

theorem via_healWalk {M : World → List Stmt → Prop} (fuel : Nat) (clock : HealClock) (height : Nat)
    (want : String) (run read : List BlockHeader) (w : World) :
    Prog.Via (Step params M) (healWalk env fuel clock height want run read) w := by
  induction fuel generalizing clock height want run read w with
  | zero => exact Prog.Via.pure _
  | succ fuel ih =>
    unfold healWalk readRows
    refine Prog.Via.read_bind ?_
    split
    · split
      · exact Prog.Via.pure _
      · split
        · exact Prog.Via.pure _
        · exact ih ..
    · split
      · exact Prog.Via.pure _
      · refine Prog.Via.bind (via_healLook clock w) fun look s _ => ?_
        dsimp only
        split
        · exact Prog.Via.pure _
        · refine Prog.Via.bind (via_ask _) fun answer s' _ => ?_
          split
          · split
            · split
              · exact Prog.Via.pure _
              · exact ih ..
            · exact Prog.Via.pure _
          · exact Prog.Via.pure _

/-- The transactions of `heal_links`: those of the pushes it hands over, of the rows it
keeps, and the span it links. -/
theorem via_heal {M : World → List Stmt → Prop} (report : LinkReport)
    (hingest : ∀ run w, Prog.Via (Step params M) (ingestPushed env params run) w)
    (hkeep : ∀ read w, Prog.Via (Step params M) (storeHealProgress env params read) w)
    (hspan : ∀ w lo hi, M w [.linkSpan lo hi]) (w : World) :
    Prog.Via (Step params M) (healLinks env params report) w := by
  have hbreaks : ∀ broken clock healed w,
      Prog.Via (Step params M) (healBreaks env params clock healed broken) w := by
    intro broken
    induction broken with
    | nil => exact fun _ _ w => Prog.Via.pure _
    | cons link rest ih =>
      intro clock healed w
      unfold healBreaks
      refine Prog.Via.bind (via_healWalk ..) fun walk s _ => ?_
      refine Prog.Via.bind (via_ask _) fun left s₁ _ => ?_
      split
      · exact Prog.Via.pure _
      · split
        · split
          · exact ih ..
          · unfold healIngest
            refine Prog.Via.bind ?_ fun landed s₂ _ => ih ..
            refine Prog.Via.bind (Prog.Via.attempt (hingest _ s₁)) fun out s _ => ?_
            split <;> exact Prog.Via.pure _
        · refine Prog.Via.bind ?_ fun kept s₂ _ => ?_
          · unfold healKeep
            split
            · exact Prog.Via.pure _
            · refine Prog.Via.bind (Prog.Via.attempt (hkeep _ s₁)) fun kept s _ => ?_
              split <;> exact Prog.Via.pure _
          · split
            · exact ih ..
            · exact Prog.Via.pure _
  unfold healLinks
  refine Prog.Via.bind (via_ask _) fun now s _ => ?_
  refine Prog.Via.bind (hbreaks ..) fun healed s₁ _ => ?_
  split
  · refine Prog.Via.bind (Prog.Via.attempt ?_) fun _ s₂ _ => Prog.Via.pure _
    exact via_commit (hspan _ _ _)
  · exact Prog.Via.pure _

/-- **The moves of `heal_links`.** -/
theorem via_healLinks (report : LinkReport) (w : World) :
    Prog.Via (Step params (Move params)) (healLinks env params report) w :=
  via_heal report (via_ingestPushed env params) (via_storeHealProgress env params)
    (fun _ lo hi => .linkSpan lo hi) w

theorem via_linkLeg (tip : Option HeaderRow) (w : World) :
    Prog.Via (Step params (Move params)) (linkLeg env params tip) w := by
  unfold linkLeg readRows
  split
  · exact Prog.Via.pure _
  · refine Prog.Via.read_bind ?_
    dsimp only
    split
    · exact Prog.Via.pure _
    · exact via_healLinks _ w

/-! ### The moves of the cron -/

theorem via_anyBackfill (env : Env) (params : ChainParams) (header : BlockHeader) (w : World) :
    Prog.Via (Step params (Move params)) (insertWithParentBackfill env params header) w :=
  via_live (via_backfill env params (fun _ _ _ _ => trivial) trivial w)

theorem via_ingestHeights (heights : List Nat) (w : World) :
    Prog.Via (Step params (Move params)) (ingestHeights env params heights) w := by
  induction heights generalizing w with
  | nil => exact Prog.Via.pure _
  | cons height heights ih =>
    unfold ingestHeights
    refine Prog.Via.bind (via_ask _) fun answer s _ => ?_
    split
    · exact Prog.Via.pure _
    · refine Prog.Via.bind (Prog.Via.attempt (via_anyBackfill env params _ s)) fun out s' _ => ?_
      split
      · exact Prog.Via.pure _
      · exact ih s'

theorem via_askUpstream (upstream : Bool) (height count : Nat) (anchor : Option String) (w : World) :
    Prog.Via (Step params (Move params)) (askUpstream env upstream height count anchor) w := by
  unfold askUpstream
  split
  · exact via_ask _
  · exact Prog.Via.pure _

theorem via_writeUpstream (fetched : Except String (List BlockHeader)) (w : World) :
    Prog.Via (Step params (Move params)) (writeUpstream env params fetched) w := by
  unfold writeUpstream
  split
  · exact Prog.Via.pure _
  · exact Prog.Via.pure _
  · refine Prog.Via.bind (Prog.Via.attempt (via_insertHeadersBatch env params _ w)) fun out s _ => ?_
    split <;> exact Prog.Via.pure _

theorem via_catchUpLoop (upstream : Bool) (endHeight fuel height : Nat) (w : World) :
    Prog.Via (Step params (Move params)) (catchUpLoop env params upstream endHeight fuel height) w := by
  induction fuel generalizing height w with
  | zero => exact Prog.Via.pure _
  | succ fuel ih =>
    unfold catchUpLoop readRows
    split
    · exact Prog.Via.pure _
    · refine Prog.Via.read_bind ?_
      refine Prog.Via.bind (via_askUpstream ..) fun fetched s _ => ?_
      refine Prog.Via.bind (via_writeUpstream ..) fun written s₁ _ => ?_
      split
      · exact Prog.Via.pure _
      · exact ih ..
      · refine Prog.Via.bind (via_ingestHeights ..) fun all s₂ _ => ?_
        split
        · exact ih ..
        · exact Prog.Via.pure _

theorem via_catchUpLeg (upstream : Bool) (ourHeight wocHeight : Nat) (w : World) :
    Prog.Via (Step params (Move params)) (catchUpLeg env params upstream ourHeight wocHeight) w := by
  unfold catchUpLeg
  refine Prog.Via.bind (via_catchUpLoop ..) fun _ s _ => ?_
  refine Prog.Via.bind (via_dedupeActiveHeights env params s) fun _ s₁ _ => ?_
  exact Prog.Via.bind (via_updateChainTipToHighest env params s₁) fun _ s₂ _ => Prog.Via.pure _

theorem via_syncLeg (upstream : Bool) (ourHeight wocHeight : Nat) (w : World) :
    Prog.Via (Step params (Move params)) (syncLeg env params upstream ourHeight wocHeight) w := by
  unfold syncLeg
  split
  · exact via_catchUpLeg ..
  · exact Prog.Via.bind (via_ingestHeights ..) fun _ s _ => Prog.Via.pure _

theorem via_idleLeg (tip : Option HeaderRow) (wocHeight : Nat) (best : Option String) (w : World) :
    Prog.Via (Step params (Move params)) (idleLeg env params tip wocHeight best) w := by
  unfold idleLeg
  split
  · split
    · unfold competitorLeg
      refine Prog.Via.bind (via_ask _) fun answer s _ => ?_
      split
      · exact Prog.Via.pure _
      · refine Prog.Via.bind (Prog.Via.attempt (via_anyBackfill env params _ s)) fun out s' _ => ?_
        split <;> exact Prog.Via.pure _
    · exact Prog.Via.pure _
  · exact Prog.Via.pure _

/-- **The moves of `run_cron_inner`.** -/
theorem via_cronPass (upstream : Bool) (wocHeight : Nat) (best : Option String) (w : World) :
    Prog.Via (Step params (Move params)) (cronPass env params upstream wocHeight best) w := by
  unfold cronPass readRows
  refine Prog.Via.read_bind ?_
  dsimp only
  split
  · refine Prog.Via.bind (via_idleLeg ..) fun landed s _ => Prog.Via.read_bind ?_
    exact Prog.Via.bind (via_linkLeg ..) fun _ s₁ _ => Prog.Via.pure _
  · refine Prog.Via.bind (via_syncLeg ..) fun _ s _ => Prog.Via.read_bind ?_
    refine Prog.Via.bind (via_linkLeg ..) fun _ s₁ _ => ?_
    refine Prog.Via.bind (Prog.Via.attempt ?_) fun _ s₂ _ => Prog.Via.pure _
    exact via_repairCumulativeWork env params _ s₁

/-! ### The moves of the doors -/

theorem via_pushWalk (pushed : BlockHeader) (fuel : Nat) (run : List BlockHeader) (w : World) :
    Prog.Via (Step params (Move params)) (pushWalk env pushed fuel run) w := by
  induction fuel generalizing run w with
  | zero =>
    unfold pushWalk readRows
    refine Prog.Via.read_bind ?_
    split
    · exact Prog.Via.pure _
    · exact Prog.Via.fail _
  | succ fuel ih =>
    unfold pushWalk readRows
    refine Prog.Via.read_bind ?_
    split
    · exact Prog.Via.pure _
    · exact Prog.Via.bind (via_askCourier _) fun parent s _ => ih ..

theorem via_ingestHeld (header : BlockHeader) (w : World) :
    Prog.Via (Step params (Move params)) (ingestHeld env params header) w :=
  Prog.Via.bind (via_pushWalk ..) fun run s _ => via_ingestPushed env params run s

theorem via_bulkWrite (headers : List BlockHeader) (w : World) :
    Prog.Via (Step params (Move params)) (bulkWrite env params headers) w := by
  unfold bulkWrite
  refine Prog.Via.bind (via_insertHeadersBatch env params headers w) fun inserted s _ => ?_
  refine Prog.Via.bind (via_dedupeActiveHeights env params s) fun _ s₁ _ => ?_
  exact Prog.Via.bind (via_updateChainTipToHighest env params s₁) fun _ s₂ _ => Prog.Via.pure _

end Passes

/-! ### Calls and runs -/

/-- A call of a writer. -/
inductive Call
  | insertHeader (header : BlockHeader)
  | insertWithParentBackfill (header : BlockHeader)
  | relinkOrphanAndReevaluate (hash : String)
  | insertHeadersBatch (headers : List BlockHeader)
  | updateChainTipToHighest
  | dedupeActiveHeights
  | ingestPushed (headers : List BlockHeader)
  | storeHealProgress (headers : List BlockHeader)
  | healLinks (report : LinkReport)
  | repairCumulativeWork (window : Nat)
  | catchUpLeg (upstream : Bool) (ourHeight wocHeight : Nat)
  | liveLeg (ourHeight wocHeight : Nat)
  | cronPass (upstream : Bool) (wocHeight : Nat) (bestHash : Option String)
  | ingestHeld (header : BlockHeader)
  | bulkWrite (headers : List BlockHeader)
  | backfillWrite (headers : List BlockHeader)

section Runs

variable (env : Env) (params : ChainParams)

/-- The world a call leaves, whether it answered or failed. -/
def Call.run (call : Call) (w : World) : World :=
  match call with
  | insertHeader header => (Chaintracks.insertHeader env params header w).2
  | insertWithParentBackfill header =>
    (Chaintracks.insertWithParentBackfill env params header w).2
  | relinkOrphanAndReevaluate hash =>
    (Chaintracks.relinkOrphanAndReevaluate env params hash w).2
  | insertHeadersBatch headers => (Chaintracks.insertHeadersBatch env params headers w).2
  | updateChainTipToHighest => (Chaintracks.updateChainTipToHighest env w).2
  | dedupeActiveHeights => (Chaintracks.dedupeActiveHeights env w).2
  | ingestPushed headers => (Chaintracks.ingestPushed env params headers w).2
  | storeHealProgress headers => (Chaintracks.storeHealProgress env params headers w).2
  | healLinks report => (Chaintracks.healLinks env params report w).2
  | repairCumulativeWork window => (Chaintracks.repairCumulativeWork env params window w).2
  | catchUpLeg upstream ourHeight wocHeight =>
    (Chaintracks.catchUpLeg env params upstream ourHeight wocHeight w).2
  | liveLeg ourHeight wocHeight => (Chaintracks.liveLeg env params ourHeight wocHeight w).2
  | cronPass upstream wocHeight bestHash =>
    (Chaintracks.cronPass env params upstream wocHeight bestHash w).2
  | ingestHeld header => (Chaintracks.ingestHeld env params header w).2
  | bulkWrite headers => (Chaintracks.bulkWrite env params headers w).2
  | backfillWrite headers => (Chaintracks.backfillWrite env params headers w).2

/-- The world a run of calls leaves. -/
def runAll (calls : List Call) (w : World) : World :=
  calls.foldl (fun w call => call.run env params w) w

variable {env params}

@[simp] theorem runAll_nil (w : World) : runAll env params [] w = w := rfl

@[simp] theorem runAll_cons (call : Call) (calls : List Call) (w : World) :
    runAll env params (call :: calls) w = runAll env params calls (call.run env params w) := rfl

theorem runAll_append (calls calls' : List Call) (w : World) :
    runAll env params (calls ++ calls') w = runAll env params calls' (runAll env params calls w) :=
  List.foldl_append

/-- **Every writer makes only the steps of `Chaintracks.Step`.** -/
theorem via_call (call : Call) (w : World) :
    Relation.ReflTransGen (Step params (Move params)) w (call.run env params w) := by
  cases call with
  | insertHeader header => exact via_live (via_insertHeader env params trivial w)
  | insertWithParentBackfill header => exact via_anyBackfill env params header w
  | relinkOrphanAndReevaluate hash => exact via_live (via_relink env params hash w)
  | insertHeadersBatch headers => exact via_insertHeadersBatch env params headers w
  | updateChainTipToHighest => exact via_updateChainTipToHighest env params w
  | dedupeActiveHeights => exact via_dedupeActiveHeights env params w
  | ingestPushed headers => exact via_ingestPushed env params headers w
  | storeHealProgress headers => exact via_storeHealProgress env params headers w
  | healLinks report => exact via_healLinks report w
  | repairCumulativeWork window => exact via_repairCumulativeWork env params window w
  | catchUpLeg upstream ourHeight wocHeight => exact via_catchUpLeg ..
  | liveLeg ourHeight wocHeight =>
    exact Prog.Via.bind (via_ingestHeights ..) fun _ s _ => Prog.Via.pure _
  | cronPass upstream wocHeight bestHash => exact via_cronPass ..
  | ingestHeld header => exact via_ingestHeld ..
  | bulkWrite headers => exact via_bulkWrite ..
  | backfillWrite headers => exact via_insertHeadersBatch env params headers w

/-- **A run is a chain of steps.** -/
theorem via_runAll (env : Env) (params : ChainParams) (calls : List Call) (w : World) :
    Relation.ReflTransGen (Step params (Move params)) w (runAll env params calls w) := by
  induction calls generalizing w with
  | nil => exact Relation.ReflTransGen.refl
  | cons call calls ih => exact (via_call call w).trans (ih _)

/-- A condition on every transaction of a history, given what was before it. -/
def EachCommit (C : List Entry → Store → List Stmt → Store → Prop) (history : List Entry) : Prop :=
  ∀ later before txn after earlier,
    history = later ++ .commit before txn after :: earlier → C earlier before txn after

section EachCommit

variable {C D : List Entry → Store → List Stmt → Store → Prop} {history history' : List Entry}

theorem EachCommit.suffix (h : EachCommit C history) (hs : history' <:+ history) :
    EachCommit C history' := by
  obtain ⟨new, rfl⟩ := hs
  rintro later before txn after earlier rfl
  exact h (new ++ later) before txn after earlier (List.append_assoc ..).symm

theorem EachCommit.nil : EachCommit C [] := by
  intro later before txn after earlier h
  cases later <;> cases h

theorem EachCommit.cons {entry : Entry} (h : EachCommit C history)
    (hc : ∀ before txn after, entry = .commit before txn after → C history before txn after) :
    EachCommit C (entry :: history) := by
  intro later before txn after earlier heq
  cases later with
  | nil =>
    cases heq
    exact hc _ _ _ rfl
  | cons e later =>
    cases heq
    exact h _ _ _ _ _ rfl

theorem EachCommit.head {before after : Store} {txn : List Stmt}
    (h : EachCommit C (.commit before txn after :: history)) : C history before txn after :=
  h [] before txn after history rfl

/-- `Chaintracks.EachCommit` of a condition that computes. -/
def eachCommit (c : List Entry → Store → List Stmt → Store → Bool) : List Entry → Bool
  | [] => true
  | .commit before txn after :: earlier => c earlier before txn after && eachCommit c earlier
  | _ :: earlier => eachCommit c earlier

theorem EachCommit.of_eachCommit {c : List Entry → Store → List Stmt → Store → Bool}
    (h : eachCommit c history = true) :
    EachCommit (fun earlier before txn after => c earlier before txn after = true) history := by
  induction history with
  | nil => exact .nil
  | cons entry history ih =>
    cases entry with
    | commit before txn after =>
      obtain ⟨hc, h⟩ := Bool.and_eq_true_iff.mp h
      exact (ih h).cons fun b t a he => by cases he; exact hc
    | passed => exact (ih h).cons fun b t a he => absurd he (Entry.passed_ne_commit b t a)
    | vouched => exact (ih h).cons fun b t a he => absurd he (Entry.vouched_ne_commit b t a)

end EachCommit

/-- **An invariant under a condition on the transactions.** What every step keeps whose
transaction meets the condition, every chain of steps keeps whose transactions all do;
and what the invariant gives of one such transaction, it gives of each. -/
theorem steps_invariant {M : World → List Stmt → Prop}
    {C D : List Entry → Store → List Stmt → Store → Prop} {I : World → Prop}
    (hasked : ∀ w, I w → I { w with asked := w.asked + 1 })
    (hnoted : ∀ w entry, (∀ b txn a, entry ≠ .commit b txn a) → entry.Sound params w.db.rows →
      I w → I { w with history := entry :: w.history })
    (hcommitted : ∀ w now txn, M w txn → I w → C w.history w.db txn (execAll now txn w.db) →
      I ⟨execAll now txn w.db, w.asked + 1,
        .commit w.db txn (execAll now txn w.db) :: w.history⟩ ∧
      D w.history w.db txn (execAll now txn w.db))
    (hinit : I .init) {w : World} (h : Relation.ReflTransGen (Step params M) .init w)
    (hC : EachCommit C w.history) : I w ∧ EachCommit D w.history := by
  induction h with
  | refl => exact ⟨hinit, EachCommit.nil⟩
  | tail _ hs ih =>
    obtain ⟨hI, hD⟩ := ih (hC.suffix hs.history_suffix)
    cases hs with
    | asked => exact ⟨hasked _ hI, hD⟩
    | noted entry hcheck hsound =>
      exact ⟨hnoted _ _ hcheck hsound hI, hD.cons fun b txn a he => absurd he (hcheck b txn a)⟩
    | committed now txn hmove =>
      obtain ⟨hI', hD'⟩ := hcommitted _ now txn hmove hI hC.head
      exact ⟨hI', hD.cons fun b t a he => by cases he; exact hD'⟩

/-- What a run has put into the history. -/
def World.since (w' w : World) : List Entry :=
  w'.history.take (w'.history.length - w.history.length)

theorem since_eq {w w' : World} {new : List Entry} (h : w'.history = new ++ w.history) :
    w'.since w = new := by
  rw [World.since, h, List.length_append, Nat.add_sub_cancel, List.take_left]

/-- `Chaintracks.steps_invariant` of a run that goes on from any world. -/
theorem steps_since {M : World → List Stmt → Prop} {C D : Store → List Stmt → Store → Prop}
    {I : World → Prop}
    (hasked : ∀ w, I w → I { w with asked := w.asked + 1 })
    (hnoted : ∀ w entry, (∀ b txn a, entry ≠ .commit b txn a) → entry.Sound params w.db.rows →
      I w → I { w with history := entry :: w.history })
    (hcommitted : ∀ w now txn, M w txn → I w → C w.db txn (execAll now txn w.db) →
      I ⟨execAll now txn w.db, w.asked + 1,
        .commit w.db txn (execAll now txn w.db) :: w.history⟩ ∧ D w.db txn (execAll now txn w.db))
    {w w' : World} (hinit : I w) (h : Relation.ReflTransGen (Step params M) w w')
    (hC : EachCommit (fun _ => C) (w'.since w)) :
    I w' ∧ EachCommit (fun _ => D) (w'.since w) := by
  suffices hnew : ∃ new, w'.history = new ++ w.history ∧
      (EachCommit (fun _ => C) new → I w' ∧ EachCommit (fun _ => D) new) by
    obtain ⟨new, heq, hnew⟩ := hnew
    rw [since_eq heq] at hC ⊢
    exact hnew hC
  clear hC
  induction h with
  | refl => exact ⟨[], rfl, fun _ => ⟨hinit, EachCommit.nil⟩⟩
  | tail _ hs ih =>
    obtain ⟨new, heq, ih⟩ := ih
    cases hs with
    | asked =>
      exact ⟨new, heq, fun hC => ⟨hasked _ (ih hC).1, (ih hC).2⟩⟩
    | noted entry hcheck hsound =>
      refine ⟨entry :: new, congrArg (entry :: ·) heq, fun hC => ?_⟩
      obtain ⟨hI, hD⟩ := ih (hC.suffix (List.suffix_cons _ _))
      exact ⟨hnoted _ _ hcheck hsound hI, hD.cons fun b txn a he => absurd he (hcheck b txn a)⟩
    | committed now txn hmove =>
      refine ⟨_ :: new, congrArg (_ :: ·) heq, fun hC => ?_⟩
      obtain ⟨hI, hD⟩ := ih (hC.suffix (List.suffix_cons _ _))
      obtain ⟨hI', hD'⟩ := hcommitted _ now txn hmove hI hC.head
      exact ⟨hI', hD.cons fun b t a he => by cases he; exact hD'⟩

end Runs

end Chaintracks

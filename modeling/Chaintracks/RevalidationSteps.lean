import Chaintracks.Revalidation
import Chaintracks.WindowReads
import Chaintracks.Regtest
import Chaintracks.Library.StagedPass

/-!
# The re-validation, cut into steps

A step of the re-validation reads the window of its cursor and grows it over the rows it
checks: a row far above the cursor is judged against the ancestors the *cursor* needed and
the rows between, not against the ones the rule asks for at its own height. Where the rule
asks for as many everywhere this is more than enough; at a height where it asks for more –
the last of a retarget's interval – the window may be too short, and a row that is right is
refused for an ancestor the store holds.

A run of steps is therefore the pass over the rows with the verdict of each row's own step
(`Chaintracks.StagedPass.run_eq`), and it ends where the checks of the rows against their
ancestors end exactly where the two windows give one verdict, up to the first row that fails
(`Chaintracks.revalidation_right_iff`). The batch insertion, which grows a window in the same
way, asks for the deepest of its run.
-/

namespace Chaintracks

open HeaderRows

/-! ### The rows of a chain -/

/-- **A hash-linked chain of active rows**, one a height, from the bottom to a top. -/
structure HeldChain (rows : List HeaderRow) (c : Nat → HeaderRow) (top : Nat) : Prop where
  mem : ∀ h ≤ top, c h ∈ rows
  height : ∀ h ≤ top, (c h).height = h
  active : ∀ h ≤ top, (c h).isActive = true
  only : ∀ row ∈ rows, row.isActive = true → row.height ≤ top → row = c row.height
  linked : ∀ h < top, eqIgnoreAsciiCase (c (h + 1)).previousHash (c h).hash = true

/-- The rows of the heights from one up to, and without, another. -/
def span (c : Nat → HeaderRow) (lo hi : Nat) : List HeaderRow := (List.range' lo (hi - lo)).map c

theorem span_succ (c : Nat → HeaderRow) {lo hi : Nat} (h : lo ≤ hi) :
    span c lo (hi + 1) = span c lo hi ++ [c hi] := by
  rw [span, span, Nat.succ_sub h, List.range'_concat, List.map_append, Nat.one_mul,
    Nat.add_sub_cancel' h]
  rfl

/-- The height a window that ends at another begins at. -/
def windowBase (params : ChainParams) (h : Nat) : Nat := h + 1 - max (params.pow.windowDepth h) 1

theorem windowBase_le (params : ChainParams) (h : Nat) : windowBase params h ≤ h := by
  unfold windowBase
  omega

/-- The window of the rows from a height up to, and without, another. -/
def windowOf (params : ChainParams) (c : Nat → HeaderRow) (lo hi : Nat) : Window :=
  Window.new params.bsv ((span c lo hi).map (·.link))

theorem windowOf_succ (params : ChainParams) (c : Nat → HeaderRow) {lo hi : Nat} (h : lo ≤ hi) :
    (windowOf params c lo hi).push params.bsv (c hi).link = windowOf params c lo (hi + 1) := by
  rw [windowOf, windowOf, span_succ c h, List.map_append, List.map_singleton, Window.new_append]

section Reading

variable {params : ChainParams} {rows : List HeaderRow} {c : Nat → HeaderRow} {top lo hi h k : Nat}

/-- A read of the chain finds the row of a height. -/
theorem HeldChain.find?_read (hchain : HeldChain rows c top) {p : HeaderRow → Bool} (hlo : lo ≤ h)
    (hhi : h ≤ hi) (htop : h ≤ top) (hp : p (c h) = true) :
    (activeHeadersBetween rows lo hi).find? (fun r => r.height == h && p r) = some (c h) := by
  have hheight := hchain.height h htop
  cases hfind : (activeHeadersBetween rows lo hi).find? (fun r => r.height == h && p r) with
  | none =>
    have hmem : c h ∈ activeHeadersBetween rows lo hi :=
      mem_activeHeadersBetween.mpr ⟨hchain.mem h htop, hchain.active h htop, by omega, by omega⟩
    have hnot := List.find?_eq_none.mp hfind _ hmem
    rw [hheight, beq_self_eq_true, hp] at hnot
    exact absurd rfl hnot
  | some r =>
    obtain ⟨hr, hact, -⟩ := mem_activeHeadersBetween.mp (List.mem_of_find?_eq_some hfind)
    have hfound : (r.height == h && p r) = true := by
      have := List.find?_some hfind
      exact this
    have hrh : r.height = h := beq_iff_eq.mp (Bool.and_eq_true_iff.mp hfound).1
    rw [hchain.only r hr hact (by omega), hrh]

/-- **The run below a row**, read back off the chain. -/
theorem HeldChain.runBelow_eq (hchain : HeldChain rows c top) (hhi : lo + k ≤ hi + 1)
    (htop : lo + k ≤ top + 1) {want : String}
    (hwant : 0 < k → eqIgnoreAsciiCase (c (lo + k - 1)).hash want = true) :
    runBelow (activeHeadersBetween rows lo hi) want (List.range' lo k).reverse =
      ((List.range' lo k).map c).reverse := by
  induction k generalizing want with
  | zero => rfl
  | succ k ih =>
    have hfound := hchain.find?_read (p := fun r => eqIgnoreAsciiCase r.hash want)
      (show lo ≤ lo + k by omega) (show lo + k ≤ hi by omega) (by omega) (hwant (Nat.succ_pos k))
    rw [List.range'_concat, Nat.one_mul, List.reverse_append, List.map_append, List.reverse_append]
    change runBelow _ want ((lo + k) :: (List.range' lo k).reverse) = c (lo + k) :: _
    rw [runBelow, hfound]
    refine congrArg (c (lo + k) :: ·) (ih (by omega) (by omega) fun hpos => ?_)
    have hlinked := hchain.linked (lo + k - 1) (by omega)
    rw [show lo + k - 1 + 1 = lo + k by omega] at hlinked
    exact eqIgnoreAsciiCase_comm hlinked

/-- The walk of the rule's ancestry on rows read. -/
theorem HeldChain.follow_eq (hchain : HeldChain rows c top) (hlo : lo ≤ h - k) (hhi : h ≤ hi + 1)
    (htop : h ≤ top) : Forest.follow (stepOnChain (activeHeadersBetween rows lo hi)) k (c h) =
      (span c (h - k) h).reverse := by
  induction k generalizing h with
  | zero =>
    rw [span, Nat.sub_zero, Nat.sub_self]
    rfl
  | succ k ih =>
    have hheight := hchain.height h htop
    rw [Forest.follow]
    cases h with
    | zero =>
      have hnone : stepOnChain (activeHeadersBetween rows lo hi) (c 0) = none := by
        unfold stepOnChain
        rw [hheight, if_neg (Nat.lt_irrefl 0)]
      rw [hnone, span, Nat.zero_sub]
      rfl
    | succ h =>
      have hstep : stepOnChain (activeHeadersBetween rows lo hi) (c (h + 1)) = some (c h) := by
        unfold stepOnChain
        rw [hheight, if_pos (Nat.succ_pos h), Nat.add_sub_cancel]
        exact hchain.find?_read (by omega) (by omega) (by omega)
          (eqIgnoreAsciiCase_comm (hchain.linked h (by omega)))
      rw [hstep, show h + 1 - (k + 1) = h - k by omega, span_succ c (Nat.sub_le h k),
        List.reverse_append]
      exact congrArg (c h :: ·) (ih (by omega) (by omega) (by omega))

/-- **The ancestry of a row of the chain** is the chain below it, as deep as the rule asks. -/
theorem HeldChain.contextOf_eq (hchain : HeldChain rows c top) (htop : h ≤ top) :
    contextOf params rows (c h) = windowOf params c (windowBase params h) (h + 1) := by
  have hheight := hchain.height h htop
  have hact := hchain.active h htop
  have hoff : ∀ k, Forest.follow (stepOffChain rows) k (c h) = [] := by
    intro k
    cases k with
    | zero => rfl
    | succ k =>
      have hnone : stepOffChain rows (c h) = none := by
        unfold stepOffChain
        rw [hact]
        rfl
      rw [Forest.follow, hnone]
  have hload : loadChain rows (c h) (params.pow.windowDepth h) =
      span c (windowBase params h) (h + 1) := by
    unfold loadChain
    rw [hoff]
    simp only [List.getLast?_nil, Option.getD_none, List.length_nil, hheight, hact, Bool.and_true,
      Nat.add_zero]
    have hbase : windowBase params h = h - (params.pow.windowDepth h - 1) := by
      unfold windowBase
      omega
    rw [hbase, span_succ c (Nat.sub_le h _)]
    split
    · rename_i hsome
      simp only [Bool.and_eq_true, decide_eq_true_eq] at hsome
      rw [hchain.follow_eq (Nat.le_refl _) (by omega) htop,
        List.singleton_append, List.reverse_cons, List.reverse_reverse]
    · rename_i hnone
      have hempty : h - (params.pow.windowDepth h - 1) = h := by
        simp only [Bool.and_eq_true, decide_eq_true_eq] at hnone
        omega
      rw [hempty, span, Nat.sub_self]
      rfl
  rw [contextOf, loadWindow, hheight, hload]
  rfl

end Reading

/-! ### What a step checks -/

/-- A header passes the checks of the re-validation against a window. -/
def Passes (params : ChainParams) (window : Window) (header : BlockHeader) : Prop :=
  checkPow params header = .ok () ∧ checkContext params window header = .ok ()

instance (params : ChainParams) (window : Window) (header : BlockHeader) :
    Decidable (Passes params window header) := inferInstanceAs (Decidable (_ ∧ _))

theorem passes_iff {params : ChainParams} {window : Window} {header : BlockHeader} :
    Passes params window header ↔ (do
      checkPow params header
      checkContext params window header : Except HeaderFault Unit) = .ok () := by
  unfold Passes
  cases checkPow params header with
  | error fault =>
    constructor
    · rintro ⟨h, -⟩
      cases h
    · rintro h
      cases h
  | ok u => exact ⟨fun h => h.2, fun h => ⟨rfl, h⟩⟩

/-- **A row is sound**: it passes the checks against its own ancestors, those a header on its
parent is judged against. -/
def Sound (params : ChainParams) (rows : List HeaderRow) (c : Nat → HeaderRow) (h : Nat) : Prop :=
  Passes params (contextOf params rows (c (h - 1))) (c h).toBlockHeader

instance (params : ChainParams) (rows : List HeaderRow) (c : Nat → HeaderRow) (h : Nat) :
    Decidable (Sound params rows c h) := inferInstanceAs (Decidable (Passes ..))

/-- The verdict on a height of the step whose cursor stands at another. -/
def stepVerdict (params : ChainParams) (c : Nat → HeaderRow) (cursor h : Nat) : Bool :=
  decide (Passes params (windowOf params c (windowBase params cursor) h) (c h).toBlockHeader)

section Checking

variable {params : ChainParams} {rows : List HeaderRow} {c : Nat → HeaderRow}
  {top lo base n k cursor budget : Nat}

/-- The checks of the rows above one are a pass with the verdicts of a window grown over
them. -/
theorem HeldChain.revalidateRows_eq (hchain : HeldChain rows c top) {hi : Nat} (hlo : lo ≤ n + 1)
    (hhi : n + k ≤ hi) (htop : n + k ≤ top) (hbase : base ≤ n) :
    ∃ fault, revalidateRows params (activeHeadersBetween rows lo hi) (List.range' (n + 1) k)
        (windowOf params c base (n + 1)) (c n) =
      (c (StagedPass.advance (fun h => decide (Passes params (windowOf params c base h)
        (c h).toBlockHeader)) n k).reached, fault) ∧
      fault.isSome = (StagedPass.advance (fun h => decide (Passes params (windowOf params c base h)
        (c h).toBlockHeader)) n k).stopped := by
  induction k generalizing n with
  | zero => exact ⟨none, rfl, rfl⟩
  | succ k ih =>
    have hfound := hchain.find?_read
      (p := fun r => eqIgnoreAsciiCase r.previousHash (c n).hash) (h := n + 1) hlo
      (show n + 1 ≤ hi by omega) (by omega) (hchain.linked n (by omega))
    rw [List.range'_succ, revalidateRows, hfound, StagedPass.advance]
    dsimp only
    have hpasses := @passes_iff params (windowOf params c base (n + 1)) (c (n + 1)).toBlockHeader
    generalize (do
      checkPow params (c (n + 1)).toBlockHeader
      checkContext params (windowOf params c base (n + 1)) (c (n + 1)).toBlockHeader :
        Except HeaderFault Unit) = verdict at hpasses ⊢
    cases verdict with
    | error fault =>
      have hfails : ¬Passes params (windowOf params c base (n + 1)) (c (n + 1)).toBlockHeader :=
        fun h => by cases hpasses.mp h
      rw [if_neg (by rwa [decide_eq_true_eq])]
      exact ⟨_, rfl, rfl⟩
    | ok u =>
      rw [if_pos (decide_eq_true (hpasses.mpr rfl)), windowOf_succ params c (by omega)]
      exact ih (by omega) (by omega) (by omega) (by omega)

/-- **What one read checks**: a stage of the pass, its verdicts those of the cursor. -/
theorem HeldChain.revalidateAbove_eq (hchain : HeldChain rows c top) (hcursor : cursor ≤ top) :
    ∃ fault, revalidateAbove params rows (c cursor) (c top) budget =
        (c (StagedPass.advance (stepVerdict params c cursor) cursor
          (min top (cursor + budget) - cursor)).reached, fault) ∧
      fault.isSome = (StagedPass.advance (stepVerdict params c cursor) cursor
        (min top (cursor + budget) - cursor)).stopped := by
  have hbase := windowBase_le params cursor
  have hbelow := @HeldChain.runBelow_eq _ _ _ (windowBase params cursor)
    (min top (cursor + budget)) (cursor + 1 - windowBase params cursor) hchain (by omega)
    (by omega) (c cursor).hash fun _ => by
      rw [show windowBase params cursor + (cursor + 1 - windowBase params cursor) - 1 = cursor by omega]
      exact eqIgnoreAsciiCase_self _
  unfold revalidateAbove
  rw [hchain.height cursor hcursor, hchain.height top (Nat.le_refl _)]
  dsimp only
  rw [show cursor + 1 - max (params.pow.windowDepth cursor) 1 = windowBase params cursor from rfl,
    hbelow, List.reverse_reverse]
  exact hchain.revalidateRows_eq (by omega) (by omega) (by omega) hbase

end Checking

/-! ### One step -/

/-- **The anchor of a chain**: the highest checkpoint at or below its tip, whose hash the row
there carries. -/
structure Anchored (params : ChainParams) (rows : List HeaderRow) (c : Nat → HeaderRow)
    (anchor tip : Nat) : Prop where
  le : anchor ≤ tip
  listed : ∃ hash, (anchor, hash) ∈ params.checkpoints ∧
    eqIgnoreAsciiCase (c anchor).hash hash = true
  highest : ∀ cp ∈ params.checkpoints, cp.1 ≤ tip → cp.1 ≤ anchor
  flagged : chainTip rows = some (c tip)

/-- Where a run of steps stands, as the sync row tells it. -/
structure StandsAt (c : Nat → HeaderRow) (anchor tip : Nat) (sync : SyncState) (p : StagedPass) :
    Prop where
  above : anchor ≤ p.reached
  below : p.reached ≤ tip
  running : p.stopped = false → sync.validationFault = none ∧
    (sync.validatedHeight = none ∧ p.reached = anchor ∧ sync.validationComplete = false ∨
      sync.validatedHeight = some p.reached ∧ sync.validatedHash = some (c p.reached).hash ∧
        (sync.validationComplete = true → p.reached = tip))
  stopped : p.stopped = true → sync.validationFault.isSome = true ∧
    sync.validatedHeight = some p.reached ∧ sync.validationComplete = false

/-- What a step answers, and leaves in the sync row, by where its pass stands after it. -/
structure StepAnswers (c : Nat → HeaderRow) (tip : Nat) (answer : Revalidation) (sync : SyncState)
    (p : StagedPass) : Prop where
  running : p.stopped = false →
    answer = (if p.reached = tip then .complete else .advanced p.reached) ∧
      sync.validatedHeight = some p.reached ∧ sync.validatedHash = some (c p.reached).hash ∧
      sync.validationFault = none ∧ sync.validationComplete = decide (p.reached = tip)
  stopped : p.stopped = true → ∃ fault, answer = .faulted fault ∧
    sync.validatedHeight = some p.reached ∧ sync.validationFault = some fault ∧
    sync.validationComplete = false

section Step

variable {env : Env} {params : ChainParams} {w : World} {c : Nat → HeaderRow}
  {anchor tip budget : Nat} {p : StagedPass}

theorem writeSync_ok (hacc : ∀ n, env.accepts n = true) (write : SyncWrite) (w : World) :
    ∃ w', writeSync env write w = (.ok (), w') ∧ w'.db.headers = w.db.headers ∧
      w'.db.sync = write.onSync w.db.sync :=
  ⟨_, if_pos (hacc _), SyncWrite.exec_headers _ _ _, SyncWrite.exec_sync _ _ _⟩

/-- The row of a checkpoint's height is found where a chain is held. -/
theorem HeldChain.headerForHeight_eq {rows : List HeaderRow} (hchain : HeldChain rows c tip) {h : Nat}
    (hle : h ≤ tip) : headerForHeight rows h = some (c h) := by
  refine topmost_eq_of_forall ?_ fun r hr => ?_
  · rw [List.mem_filter, Bool.and_eq_true, beq_iff_eq]
    exact ⟨hchain.mem h hle, hchain.active h hle, hchain.height h hle⟩
  · rw [List.mem_filter, Bool.and_eq_true, beq_iff_eq] at hr
    obtain ⟨hr, hact, hheight⟩ := hr
    rw [hchain.only r hr hact (by omega), hheight]

/-- The step anchors at the highest checkpoint. -/
theorem Anchored.findAnchor_eq {rows : List HeaderRow} (h : Anchored params rows c anchor tip)
    (hchain : HeldChain rows c tip) :
    findAnchor rows tip params.checkpoints.reverse = .ok (some (c anchor)) := by
  obtain ⟨hash, hlisted, hmatch⟩ := h.listed
  have hhighest := h.highest
  have hascending := params.ascending
  rw [← List.pairwise_reverse] at hascending
  have hmem : (anchor, hash) ∈ params.checkpoints.reverse := List.mem_reverse.mpr hlisted
  have hbound : ∀ cp ∈ params.checkpoints.reverse, cp.1 ≤ tip → cp.1 ≤ anchor :=
    fun cp hcp => hhighest cp (List.mem_reverse.mp hcp)
  clear hhighest hlisted
  generalize params.checkpoints.reverse = checkpoints at hascending hmem hbound ⊢
  induction checkpoints with
  | nil => cases hmem
  | cons first rest ih =>
    obtain ⟨height, text⟩ := first
    rw [findAnchor]
    obtain ⟨hfirst, hrest⟩ := List.pairwise_cons.mp hascending
    rcases List.mem_cons.mp hmem with heq | hmem
    · obtain ⟨rfl, rfl⟩ := Prod.mk.inj heq
      rw [if_neg (Nat.not_lt.mpr h.le), hchain.headerForHeight_eq h.le]
      exact if_pos hmatch
    · have hlt : anchor < height := hfirst _ hmem
      have habove : tip < height := by
        by_contra hle
        have := hbound (height, text) List.mem_cons_self (by omega)
        omega
      rw [if_pos habove]
      exact ih hrest hmem fun cp hcp => hbound cp (List.mem_cons_of_mem _ hcp)

/-- The step resumes where the run stands. -/
theorem StandsAt.resumeAt_eq (h : StandsAt c anchor tip w.db.sync p) (hrunning : p.stopped = false)
    (hchain : HeldChain w.db.rows c tip) : resumeAt w.db.rows w.db.sync (c anchor) = c p.reached := by
  have hanchor := hchain.height anchor (h.above.trans h.below)
  unfold resumeAt
  rcases (h.running hrunning).2 with ⟨hnone, hreached, -⟩ | ⟨hsome, hhash, -⟩
  · rw [hnone, hreached]
  · rw [hsome, hhash]
    dsimp only
    rw [hanchor]
    have hfound : headerForHash w.db.rows (c p.reached).hash = some (c p.reached) :=
      headerForHash_eq_some w.db.headers.uniqueHash (hchain.mem _ h.below)
    split
    · rw [hfound]
      exact if_pos (hchain.active _ h.below)
    · rw [show anchor = p.reached from Nat.le_antisymm h.above (by omega)]

/-- The cursor is written where it is not the stored one. -/
theorem keepCursor_ok (hacc : ∀ n, env.accepts n = true) (cursor : HeaderRow) :
    ∃ w', keepCursor env w.db.sync cursor w = (.ok (), w') ∧ w'.db.headers = w.db.headers ∧
      w'.db.sync.validationFault = w.db.sync.validationFault := by
  unfold keepCursor
  split
  · obtain ⟨w', hok, hheaders, hsync⟩ := writeSync_ok hacc
      (.setValidated (some cursor.toBlockHeader) false) w
    exact ⟨w', hok, hheaders, by rw [hsync]; rfl⟩
  · exact ⟨w, rfl, rfl, rfl⟩

theorem StepAnswers.standsAt {answer : Revalidation} {sync : SyncState} (h : StepAnswers c tip answer sync p)
    (habove : anchor ≤ p.reached) (hbelow : p.reached ≤ tip) : StandsAt c anchor tip sync p where
  above := habove
  below := hbelow
  running hrunning := by
    obtain ⟨-, hheight, hhash, hfault, hcomplete⟩ := h.running hrunning
    refine ⟨hfault, .inr ⟨hheight, hhash, fun htrue => ?_⟩⟩
    rw [hcomplete] at htrue
    exact of_decide_eq_true htrue
  stopped hstopped := by
    obtain ⟨fault, -, hheight, hfault, hcomplete⟩ := h.stopped hstopped
    exact ⟨by rw [hfault]; rfl, hheight, hcomplete⟩

/-- A running pass ends as its last write says. -/
theorem stepAnswers_running {sync : SyncState} {n : Nat} (hfault : sync.validationFault = none)
    (hn : (c n).height = n) :
    StepAnswers c tip (if decide (n = tip) = true then .complete else .advanced n)
      (SyncWrite.onSync sync (.setValidated (some (c n).toBlockHeader) (decide (n = tip))))
      ⟨n, false⟩ where
  running _ := ⟨by simp only [decide_eq_true_eq], congrArg some hn, rfl, hfault, rfl⟩
  stopped h := absurd h Bool.false_ne_true

/-- A stopped pass ends as its last write says. -/
theorem stepAnswers_stopped {sync : SyncState} {n : Nat} (fault : String) (hn : (c n).height = n) :
    StepAnswers c tip (.faulted fault)
      (SyncWrite.onSync sync (.setValidationFault fault (some (c n).toBlockHeader))) ⟨n, true⟩ where
  running h := absurd h.symm Bool.false_ne_true
  stopped _ := ⟨fault, rfl, congrArg some hn, rfl, rfl⟩

/-- The step above the cursor, below the tip. -/
theorem revalidateFrom_below (hacc : ∀ n, env.accepts n = true)
    (hchain : HeldChain w.db.rows c tip) (hstands : StandsAt c anchor tip w.db.sync p)
    (hrunning : p.stopped = false) (hlt : p.reached < tip) :
    ∃ answer w', revalidateFrom env params (c anchor) (c tip) budget w = (.ok answer, w') ∧
      w'.db.headers = w.db.headers ∧
      StepAnswers c tip answer w'.db.sync (StagedPass.stage (stepVerdict params c) tip p budget) := by
  obtain ⟨v, stopped⟩ := p
  obtain rfl : stopped = false := hrunning
  obtain ⟨w₁, hkeep, hheaders₁, hfault₁⟩ := keepCursor_ok hacc (w := w) (c v)
  have hnofault := hfault₁.trans (hstands.running rfl).1
  obtain ⟨fault, habove, hstopped⟩ := @HeldChain.revalidateAbove_eq params _ _ _ _ budget
    hchain hstands.below
  have hreached := StagedPass.le_reached (stepVerdict params c v) v (min tip (v + budget) - v)
  change ∃ answer, ∃ w' : World, _ ∧ _ ∧ StepAnswers c tip answer w'.db.sync
    (StagedPass.advance (stepVerdict params c v) v (min tip (v + budget) - v))
  generalize hpass : StagedPass.advance (stepVerdict params c v) v (min tip (v + budget) - v) = pass
    at habove hstopped hreached ⊢
  obtain ⟨n, stopped⟩ := pass
  have hn : (c n).height = n := hchain.height n (by dsimp only at hreached hlt; omega)
  have htop := hchain.height tip (Nat.le_refl _)
  have hv := hchain.height v hstands.below
  rw [revalidateFrom, Prog.read_bind_apply, hstands.resumeAt_eq rfl hchain]
  cases fault with
  | some fault =>
    obtain rfl : true = stopped := hstopped
    obtain ⟨w₂, hwrite, hheaders₂, hsync₂⟩ := writeSync_ok hacc
      (.setValidationFault fault (some (c n).toBlockHeader)) w₁
    refine ⟨.faulted fault, w₂, ?_, hheaders₂.trans hheaders₁, hsync₂ ▸ stepAnswers_stopped fault hn⟩
    refine (Prog.bind_ok hkeep).trans ?_
    rw [htop, hv, if_neg (Nat.not_le.mpr hlt), habove]
    exact Prog.bind_ok hwrite
  | none =>
    obtain rfl : false = stopped := hstopped
    obtain ⟨w₂, hwrite, hheaders₂, hsync₂⟩ := writeSync_ok hacc
      (.setValidated (some (c n).toBlockHeader) (decide (n = tip))) w₁
    refine ⟨_, w₂, ?_, hheaders₂.trans hheaders₁, hsync₂ ▸ stepAnswers_running hnofault hn⟩
    refine (Prog.bind_ok hkeep).trans ?_
    rw [htop, hv, if_neg (Nat.not_le.mpr hlt), habove]
    dsimp only
    rw [hn, show decide (tip ≤ n) = decide (n = tip) from by
      rw [decide_eq_decide]
      dsimp only at hreached hlt
      omega]
    exact Prog.bind_ok hwrite

/-- **One step** is a stage of the pass. -/
theorem revalidateStep_eq (hacc : ∀ n, env.accepts n = true)
    (hchain : HeldChain w.db.rows c tip) (hanchor : Anchored params w.db.rows c anchor tip)
    (hstands : StandsAt c anchor tip w.db.sync p) :
    ∃ answer w', revalidateStep env params budget w = (.ok answer, w') ∧
      w'.db.headers = w.db.headers ∧
      StepAnswers c tip answer w'.db.sync (StagedPass.stage (stepVerdict params c) tip p budget) := by
  obtain ⟨v, stopped⟩ := p
  cases stopped with
  | true =>
    obtain ⟨hfault, hheight, hnot⟩ := hstands.stopped rfl
    obtain ⟨fault, hfault⟩ := Option.isSome_iff_exists.mp hfault
    refine ⟨.faulted fault, w, ?_, rfl, ⟨fun h => absurd h.symm Bool.false_ne_true, fun _ =>
      ⟨fault, rfl, hheight, hfault, hnot⟩⟩⟩
    rw [revalidateStep, Prog.read_bind_apply, hnot, if_neg Bool.false_ne_true, hfault]
    rfl
  | false =>
    obtain ⟨hfault, hcursor⟩ := hstands.running rfl
    cases hcomplete : w.db.sync.validationComplete with
    | true =>
      rcases hcursor with ⟨-, -, hnot⟩ | ⟨hheight, hhash, hreached⟩
      · rw [hcomplete] at hnot
        cases hnot
      · obtain rfl : v = tip := hreached hcomplete
        have hstage : StagedPass.stage (stepVerdict params c) v ⟨v, false⟩ budget = ⟨v, false⟩ := by
          change StagedPass.advance _ v (min v (v + budget) - v) = _
          rw [Nat.min_eq_left (by omega), Nat.sub_self]
          rfl
        refine ⟨.complete, w, ?_, rfl, ?_⟩
        · rw [revalidateStep, Prog.read_bind_apply, hcomplete, if_pos rfl]
          rfl
        · rw [hstage]
          exact ⟨fun _ => ⟨(if_pos rfl).symm, hheight, hhash, hfault,
            hcomplete.trans (decide_eq_true rfl).symm⟩, fun h => absurd h Bool.false_ne_true⟩
    | false =>
      have hrun : revalidateStep env params budget w =
          revalidateFrom env params (c anchor) (c tip) budget w := by
        rw [revalidateStep, Prog.read_bind_apply, hcomplete, if_neg Bool.false_ne_true, hfault]
        dsimp only
        rw [hanchor.flagged]
        dsimp only
        rw [revalidateUnder, hchain.height tip (Nat.le_refl _), hanchor.findAnchor_eq hchain]
      rw [hrun]
      rcases Nat.lt_or_eq_of_le hstands.below with hlt | heq
      · exact revalidateFrom_below hacc hchain hstands rfl hlt
      · obtain rfl : v = tip := heq
        obtain ⟨w₁, hkeep, hheaders₁, hfault₁⟩ := keepCursor_ok hacc (w := w) (c v)
        obtain ⟨w₂, hwrite, hheaders₂, hsync₂⟩ := writeSync_ok hacc
          (.setValidated (some (c v).toBlockHeader) true) w₁
        have hstage : StagedPass.stage (stepVerdict params c) v ⟨v, false⟩ budget = ⟨v, false⟩ := by
          change StagedPass.advance _ v (min v (v + budget) - v) = _
          rw [Nat.min_eq_left (by omega), Nat.sub_self]
          rfl
        have hv := hchain.height v (Nat.le_refl _)
        have hanswers := @stepAnswers_running c v _ _ (hfault₁.trans hfault) hv
        rw [decide_eq_true rfl, if_pos rfl, ← hsync₂, ← hstage] at hanswers
        refine ⟨.complete, w₂, ?_, hheaders₂.trans hheaders₁, hanswers⟩
        rw [revalidateFrom, Prog.read_bind_apply, hstands.resumeAt_eq rfl hchain]
        refine (Prog.bind_ok hkeep).trans ?_
        rw [if_pos (Nat.le_refl _)]
        exact Prog.bind_ok hwrite

end Step

/-! ### A run of steps -/

/-- A re-validation that begins: nothing is validated, and no fault recorded. -/
structure Restarted (sync : SyncState) : Prop where
  height : sync.validatedHeight = none
  fault : sync.validationFault = none
  complete : sync.validationComplete = false

/-- The answer of the last of a run of steps, and the world it leaves. -/
def stepsEnd (env : Env) (params : ChainParams) (budgets : List Nat) (b : Nat) (w : World) :
    Except Fault Revalidation × World :=
  revalidateStep env params b (runService env params (budgets.map .revalidateStep) w)

/-- **The steps end right** at the height their budgets reach: where every row above the
anchor is sound they come to it, and report the tip complete; else they stop, for good, at the
lowest row that is not. -/
structure RevalidatesRight (params : ChainParams) (rows : List HeaderRow) (c : Nat → HeaderRow)
    (anchor tip reached : Nat) (out : Except Fault Revalidation × World) : Prop where
  through : (∀ h, anchor < h → h ≤ reached → Sound params rows c h) →
    out.1 = .ok (if reached = tip then .complete else .advanced reached) ∧
      out.2.db.sync.validatedHeight = some reached ∧ out.2.db.sync.validationFault = none ∧
      out.2.db.sync.validationComplete = decide (reached = tip)
  stops : ∀ r, anchor < r → r ≤ reached → ¬Sound params rows c r →
    (∀ h, anchor < h → h < r → Sound params rows c h) →
      ∃ fault, out.1 = .ok (.faulted fault) ∧ out.2.db.sync.validatedHeight = some (r - 1) ∧
        out.2.db.sync.validationFault = some fault ∧ out.2.db.sync.validationComplete = false

/-- **The windows of the steps suffice**: up to the first row that is not sound, the window a
row's step has for it – from the depth of the step's cursor – gives the verdict of the row's
own ancestors. -/
def WindowsSuffice (params : ChainParams) (rows : List HeaderRow) (c : Nat → HeaderRow)
    (anchor reached : Nat) (budgets : List Nat) : Prop :=
  ∀ h, anchor < h → h ≤ reached → (∀ i, anchor < i → i < h → Sound params rows c i) →
    (Passes params (windowOf params c (windowBase params (StagedPass.startOf anchor budgets h)) h)
      (c h).toBlockHeader ↔ Sound params rows c h)

section Run

variable {env : Env} {params : ChainParams} {w : World} {c : Nat → HeaderRow}
  {anchor tip : Nat} {p : StagedPass}

/-- **A run of steps** is a run of stages. -/
theorem runSteps_eq (hacc : ∀ n, env.accepts n = true) (hchain : HeldChain w.db.rows c tip)
    (hanchor : Anchored params w.db.rows c anchor tip)
    (hstands : StandsAt c anchor tip w.db.sync p) (budgets : List Nat) :
    (runService env params (budgets.map .revalidateStep) w).db.headers = w.db.headers ∧
      StandsAt c anchor tip (runService env params (budgets.map .revalidateStep) w).db.sync
        (StagedPass.run (stepVerdict params c) tip budgets p) := by
  induction budgets generalizing w p with
  | nil => exact ⟨rfl, hstands⟩
  | cons b budgets ih =>
    obtain ⟨answer, w', hok, hheaders, hanswers⟩ :=
      @revalidateStep_eq _ _ _ _ _ _ b _ hacc hchain hanchor hstands
    have hrun : runService env params ((b :: budgets).map .revalidateStep) w =
        runService env params (budgets.map .revalidateStep) w' :=
      congrArg (runService env params (budgets.map .revalidateStep)) (congrArg Prod.snd hok)
    have hrows : w'.db.rows = w.db.rows := congrArg HeaderTable.rows hheaders
    obtain ⟨hlow, hhigh⟩ := StagedPass.le_stage (stepVerdict params c) hstands.below b
    obtain ⟨hheaders', hstands'⟩ := ih (by rwa [hrows]) (by rwa [hrows])
      (hanswers.standsAt (hstands.above.trans hlow) hhigh)
    rw [hrun]
    exact ⟨hheaders'.trans hheaders, hstands'⟩

/-- A run that begins stands at the anchor. -/
theorem Restarted.standsAt (h : Restarted w.db.sync) (hle : anchor ≤ tip) :
    StandsAt c anchor tip w.db.sync ⟨anchor, false⟩ where
  above := Nat.le_refl _
  below := hle
  running _ := ⟨h.fault, .inl ⟨h.height, rfl, h.complete⟩⟩
  stopped h := absurd h Bool.false_ne_true

/-- The steps end right where their pass is the one of the rows' own ancestors. -/
theorem revalidatesRight_iff {rows : List HeaderRow} {reached : Nat} {answer : Revalidation}
    {w' : World} (hle : anchor ≤ reached) (hanswers : StepAnswers c tip answer w'.db.sync p) :
    RevalidatesRight params rows c anchor tip reached (.ok answer, w') ↔
      p = StagedPass.advance (fun h => decide (Sound params rows c h)) anchor (reached - anchor) := by
  obtain ⟨m, stopped⟩ := p
  have htop : anchor + (reached - anchor) = reached := Nat.add_sub_cancel' hle
  constructor
  · rintro h
    generalize hown : StagedPass.advance (fun h => decide (Sound params rows c h)) anchor
      (reached - anchor) = own
    obtain ⟨n, ownStopped⟩ := own
    cases ownStopped with
    | false =>
      obtain rfl : n = reached := by
        have := StagedPass.reached_of_running (congrArg StagedPass.stopped hown)
        rw [hown, htop] at this
        exact this
      have hall := StagedPass.advance_eq_running.mp
        (hown.trans (show (⟨n, false⟩ : StagedPass) = ⟨anchor + (n - anchor), false⟩ by rw [htop]))
      obtain ⟨-, hheight, hfault, -⟩ := h.through fun i hlo hhi =>
        of_decide_eq_true (hall i hlo (by omega))
      cases stopped with
      | false =>
        have hm : m = n := Option.some_inj.mp ((hanswers.running rfl).2.1.symm.trans hheight)
        rw [hm]
      | true =>
        obtain ⟨fault, -, -, hsome, -⟩ := hanswers.stopped rfl
        rw [hfault] at hsome
        cases hsome
    | true =>
      obtain ⟨hlow, hhigh, hpass, hfail⟩ := StagedPass.advance_eq_stopped.mp hown
      obtain ⟨fault, -, hheight, hsome, -⟩ := h.stops (n + 1) (by omega) (by omega)
        (of_decide_eq_false hfail) fun i hlo hlt => of_decide_eq_true (hpass i hlo (by omega))
      cases stopped with
      | false =>
        rw [(hanswers.running rfl).2.2.2.1] at hsome
        cases hsome
      | true =>
        obtain ⟨fault, -, hheight', -⟩ := hanswers.stopped rfl
        have hm : m = n + 1 - 1 := Option.some_inj.mp (hheight'.symm.trans hheight)
        rw [hm, Nat.add_sub_cancel]
  · rintro heq
    refine ⟨fun hall => ?_, fun r hlo hhi hfails hpass => ?_⟩
    · have hown := @StagedPass.advance_eq_running (fun h => decide (Sound params rows c h))
        (reached - anchor) anchor
      rw [htop] at hown
      obtain ⟨rfl, rfl⟩ : m = reached ∧ stopped = false := by
        have := heq.trans (hown.mpr fun i hlo hhi => decide_eq_true (hall i hlo hhi))
        exact ⟨congrArg StagedPass.reached this, congrArg StagedPass.stopped this⟩
      obtain ⟨hanswer, hheight, -, hfault, hcomplete⟩ := hanswers.running rfl
      exact ⟨congrArg Except.ok hanswer, hheight, hfault, hcomplete⟩
    · obtain ⟨rfl, rfl⟩ : m = r - 1 ∧ stopped = true := by
        have := heq.trans (StagedPass.advance_eq_stopped.mpr ⟨show anchor ≤ r - 1 by omega, by omega,
          fun i hi hle => decide_eq_true (hpass i hi (by omega)), by
            rw [Nat.sub_add_cancel (by omega)]
            exact decide_eq_false hfails⟩)
        exact ⟨congrArg StagedPass.reached this, congrArg StagedPass.stopped this⟩
      obtain ⟨fault, hanswer, hrest⟩ := hanswers.stopped rfl
      exact ⟨fault, congrArg Except.ok hanswer, hrest⟩

end Run

/-- **The re-validation, cut into steps**, ends right exactly where the windows of its steps
suffice. -/
theorem revalidation_right_iff (env : Env) (params : ChainParams) (w : World)
    (c : Nat → HeaderRow) (anchor tip : Nat) (budgets : List Nat) (b : Nat)
    (hacc : ∀ n, env.accepts n = true) (hchain : HeldChain w.db.rows c tip)
    (hanchor : Anchored params w.db.rows c anchor tip) (hbegins : Restarted w.db.sync) :
    RevalidatesRight params w.db.rows c anchor tip (min tip (anchor + (budgets ++ [b]).sum))
        (stepsEnd env params budgets b w) ↔
      WindowsSuffice params w.db.rows c anchor (min tip (anchor + (budgets ++ [b]).sum))
        (budgets ++ [b]) := by
  have hle := hanchor.le
  obtain ⟨hheaders, hstands⟩ := runSteps_eq hacc hchain hanchor (hbegins.standsAt hle) budgets
  have hrows : (runService env params (budgets.map .revalidateStep) w).db.rows = w.db.rows :=
    congrArg HeaderTable.rows hheaders
  obtain ⟨answer, w', hok, -, hanswers⟩ := @revalidateStep_eq _ _ _ _ _ _ b _ hacc
    (by rwa [hrows]) (by rwa [hrows]) hstands
  rw [← StagedPass.run_concat] at hanswers
  rw [stepsEnd, hok, revalidatesRight_iff (by omega) hanswers, StagedPass.run_eq_iff hle]
  refine forall_congr' fun h => forall_congr' fun hlo => forall_congr' fun hhi => ?_
  rw [stepVerdict, decide_eq_decide]
  simp only [decide_eq_true_eq]

/-! ### Windows deep enough -/

section Deep

variable {params : ChainParams} {rows : List HeaderRow} {c : Nat → HeaderRow}
  {anchor reached top lo mid hi : Nat} {budgets : List Nat}

theorem span_append (c : Nat → HeaderRow) (hlo : lo ≤ mid) (hhi : mid ≤ hi) :
    span c lo hi = span c lo mid ++ span c mid hi := by
  have hsum : hi - lo = mid - lo + (hi - mid) := by omega
  rw [span, span, span, ← List.map_append, hsum, ← List.range'_append_1, Nat.add_sub_cancel' hlo]

theorem HeldChain.span_isChain (hchain : HeldChain rows c top) (hhi : hi ≤ top + 1) :
    ((span c lo hi).map fun r => r.link).IsChain fun a b => b.height = a.height + 1 := by
  rw [span, List.map_map, List.isChain_map]
  refine List.isChain_iff_getElem.mpr fun i hi' => ?_
  rw [List.length_range'] at hi'
  rw [List.getElem_range', List.getElem_range', Nat.one_mul, Nat.one_mul]
  change (c (lo + (i + 1))).height = (c (lo + i)).height + 1
  rw [hchain.height _ (by omega), hchain.height _ (by omega)]
  rfl

/-- **Where no row of a step needs a deeper window than the step's cursor gave it**, the
windows suffice. -/
theorem windowsSuffice_of_deep (hreads : ReadsWindow params.pow) (hchain : HeldChain rows c top)
    (hreached : reached ≤ top) (hdeep : ∀ h, anchor < h → h ≤ reached →
      windowBase params (StagedPass.startOf anchor budgets h) ≤ windowBase params (h - 1)) :
    WindowsSuffice params rows c anchor reached budgets := by
  rintro h hlo hhi -
  have hbase := windowBase_le params (h - 1)
  have hheight := hchain.height h (by omega)
  have hown : Sound params rows c h ↔ Passes params (windowOf params c (windowBase params (h - 1)) h)
      (c h).toBlockHeader := by
    rw [Sound, hchain.contextOf_eq (by omega), Nat.sub_add_cancel (by omega)]
  have hcheck : checkContext params
      (windowOf params c (windowBase params (StagedPass.startOf anchor budgets h)) h)
      (c h).toBlockHeader =
      checkContext params (windowOf params c (windowBase params (h - 1)) h) (c h).toBlockHeader := by
    have hall := @HeldChain.span_isChain _ _ _
      (windowBase params (StagedPass.startOf anchor budgets h)) h hchain (by omega)
    rw [windowOf, span_append c (hdeep h hlo hhi) (by omega), List.map_append] at *
    refine hreads.checkContext_append hall fun k hlow hhigh => ?_
    change (c h).height - 1 + 1 - max (params.pow.windowDepth ((c h).height - 1)) 1 ≤ k at hlow
    change k ≤ (c h).height - 1 at hhigh
    rw [hheight] at hlow hhigh
    refine ⟨(c k).link, List.mem_map.mpr ⟨c k, List.mem_map.mpr ⟨k, ?_, rfl⟩, rfl⟩,
      hchain.height k (by omega)⟩
    rw [List.mem_range'_1]
    unfold windowBase
    omega
  rw [hown, Passes, Passes, hcheck]

end Deep

/-! ### A window too short -/

namespace Regtest

/-- A rule that looks three blocks back at every third height, as the legacy retarget looks two
thousand and sixteen back. -/
def retargetPow : PowParams where
  powLimit := pow.powLimit
  windowDepth h := if (h + 1) % 3 = 0 then 3 else 1
  nextWorkRequired ancestry prevHeight _ :=
    (ancestry.linkAt (if (prevHeight + 1) % 3 = 0 then prevHeight - 2 else prevHeight)).elim
      (throw (.missingAncestor (prevHeight - 2))) fun link => pure link.bits

/-- The checkpoints of the first two blocks. -/
def firstCheckpoints : List (Nat × String) := [(0, genesis.hash), (1, a1.hash)]

theorem firstCheckpoints_ascending : firstCheckpoints.Pairwise fun a b => a.1 < b.1 :=
  List.pairwise_pair.mpr Nat.zero_lt_one

theorem firstCheckpoints_lowercase :
    ∀ c ∈ firstCheckpoints, toAsciiLowercase c.2 = asBytes c.2 := by
  simp only [firstCheckpoints, List.mem_cons, List.not_mem_nil, or_false, forall_eq_or_imp,
    forall_eq]
  decide +kernel

/-- The network with that rule. -/
def retargetParams : ChainParams where
  network := params.network
  bsv := bsv
  pow := retargetPow
  genesisHash := genesis.hash
  checkpoints := firstCheckpoints
  ascending := firstCheckpoints_ascending
  lowercase := firstCheckpoints_lowercase

/-- Four blocks inserted, and the re-validation restarted. -/
def restarted : World :=
  runService host retargetParams [.headers (.insertHeader genesis), .headers (.insertHeader a1),
    .headers (.insertHeader a2), .headers (.insertHeader a3), .restartValidation] .init

/-- The active rows by height. -/
def restartedRow (h : Nat) : HeaderRow :=
  (headerForHeight restarted.db.rows h).getD ⟨genesis, ⟨none, false, false, 0⟩, 0⟩

theorem restarted_chain : HeldChain restarted.db.rows restartedRow 3 where
  mem := by decide +kernel
  height := by decide +kernel
  active := by decide +kernel
  only := by decide +kernel
  linked := by decide +kernel

theorem restarted_anchored : Anchored retargetParams restarted.db.rows restartedRow 1 3 where
  le := Nat.le_add_left 1 2
  listed := ⟨a1.hash, List.mem_cons_of_mem _ List.mem_cons_self, by decide +kernel⟩
  highest := by
    rintro cp hcp -
    simp only [retargetParams, firstCheckpoints, List.mem_cons, List.not_mem_nil, or_false] at hcp
    rcases hcp with rfl | rfl
    · exact Nat.zero_le 1
    · exact Nat.le_refl 1
  flagged := by decide +kernel

theorem restarted_begins : Restarted restarted.db.sync := ⟨rfl, rfl, rfl⟩

/-- Every row above the anchor is sound. -/
theorem restarted_sound : ∀ h, 1 < h → h ≤ 3 →
    Sound retargetParams restarted.db.rows restartedRow h := by
  have hall : ∀ h ≤ 3, 1 < h → Sound retargetParams restarted.db.rows restartedRow h := by
    decide +kernel
  exact fun h hlo hhi => hall h hhi hlo

end Regtest

open Regtest in
/-- **A right row refused**: of three rows above the first the second step of one row each finds
the third in order, and one step of both refuses it for an ancestor the store holds. -/
theorem right_row_refused : ¬∀ (env : Env) (params : ChainParams) (w : World)
    (c : Nat → HeaderRow) (anchor tip : Nat) (budgets : List Nat) (b : Nat),
    (∀ n, env.accepts n = true) → HeldChain w.db.rows c tip →
    Anchored params w.db.rows c anchor tip → Restarted w.db.sync →
    (∀ budget ∈ budgets ++ [b], 0 < budget) →
    RevalidatesRight params w.db.rows c anchor tip (min tip (anchor + (budgets ++ [b]).sum))
      (stepsEnd env params budgets b w) := by
  intro h
  have hright := h host retargetParams restarted restartedRow 1 3 [] 2 (fun _ => rfl)
    restarted_chain restarted_anchored restarted_begins (by decide)
  have hfault : (stepsEnd host retargetParams [] 2 restarted).2.db.sync.validationFault ≠ none := by
    decide +kernel
  exact hfault (hright.through restarted_sound).2.2.1

open Regtest in
/-- `Chaintracks.revalidation_right_iff` of two steps of one row each, whose windows suffice. -/
theorem revalidation_right_single :
    RevalidatesRight retargetParams restarted.db.rows restartedRow 1 3
        (min 3 (1 + ([1] ++ [1]).sum)) (stepsEnd host retargetParams [1] 1 restarted) ↔
      WindowsSuffice retargetParams restarted.db.rows restartedRow 1
        (min 3 (1 + ([1] ++ [1]).sum)) ([1] ++ [1]) :=
  revalidation_right_iff host retargetParams restarted restartedRow 1 3 [1] 1 (fun _ => rfl)
    restarted_chain restarted_anchored restarted_begins

end Chaintracks

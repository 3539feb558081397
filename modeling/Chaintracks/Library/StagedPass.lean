import Mathlib

/-!
# A pass cut into stages

A pass over the numbers above a start checks them one by one, up to a top, and stops below
the first that fails. Cut into stages it goes on from where the stage before it ended, and
what a stage makes of a number may depend on where the stage began. The cut pass is the
uncut one with the verdict of each number's own stage
(`Chaintracks.StagedPass.run_eq`), so it ends where a pass with another verdict ends
exactly where the two agree up to the first failure (`Chaintracks.StagedPass.run_eq_iff`).
-/

namespace Chaintracks

/-- How far a pass has come, and whether it was stopped there. -/
@[ext] structure StagedPass where
  reached : Nat
  stopped : Bool
  deriving DecidableEq

namespace StagedPass

variable {verdict own : Nat → Bool} {staged : Nat → Nat → Bool} {a b k n top : Nat}
  {budgets : List Nat}

/-! ### One stage -/

/-- The numbers above one, some of them, as long as they pass. -/
def advance (verdict : Nat → Bool) : Nat → Nat → StagedPass
  | n, 0 => ⟨n, false⟩
  | n, k + 1 => if verdict (n + 1) then advance verdict (n + 1) k else ⟨n, true⟩

/-- A pass goes on, or stays where it was stopped. -/
def next (verdict : Nat → Bool) (p : StagedPass) (k : Nat) : StagedPass :=
  if p.stopped then p else advance verdict p.reached k

@[simp] theorem next_running (verdict : Nat → Bool) (n k : Nat) :
    next verdict ⟨n, false⟩ k = advance verdict n k := rfl

/-- What a pass looks at is what it depends on. -/
theorem advance_congr (h : ∀ m, n < m → m ≤ n + k → verdict m = own m) :
    advance verdict n k = advance own n k := by
  induction k generalizing n with
  | zero => rfl
  | succ k ih =>
    rw [advance, advance, h (n + 1) (by omega) (by omega),
      ih fun m hlo hhi => h m (by omega) (by omega)]

/-- **A pass of two lengths** is the pass of the one and then of the other. -/
theorem advance_add (verdict : Nat → Bool) (n j k : Nat) :
    advance verdict n (j + k) = next verdict (advance verdict n j) k := by
  induction j generalizing n with
  | zero => rw [Nat.zero_add]; rfl
  | succ j ih =>
    rw [Nat.add_right_comm, advance, advance]
    split
    · exact ih (n + 1)
    · rfl

/-- **A pass that ends running** is one whose numbers all pass. -/
theorem advance_eq_running : advance verdict n k = ⟨n + k, false⟩ ↔
    ∀ m, n < m → m ≤ n + k → verdict m = true := by
  induction k generalizing n with
  | zero => exact ⟨fun _ m hlo hhi => by omega, fun _ => rfl⟩
  | succ k ih =>
    rw [advance]
    constructor
    · rintro h m hlo hhi
      split at h
      · rename_i hnext
        rw [show n + (k + 1) = n + 1 + k by omega, ih] at h
        rcases Nat.lt_or_ge (n + 1) m with hlt | hle
        · exact h m hlt (by omega)
        · rwa [show m = n + 1 by omega]
      · exact absurd (congrArg stopped h).symm Bool.false_ne_true
    · rintro h
      rw [if_pos (h (n + 1) (by omega) (by omega)), show n + (k + 1) = n + 1 + k by omega, ih]
      exact fun m hlo hhi => h m (by omega) (by omega)

/-- **A pass that ends stopped** ends below the first number that fails. -/
theorem advance_eq_stopped {m : Nat} : advance verdict n k = ⟨m, true⟩ ↔
    n ≤ m ∧ m < n + k ∧ (∀ i, n < i → i ≤ m → verdict i = true) ∧ verdict (m + 1) = false := by
  induction k generalizing n with
  | zero =>
    refine ⟨fun h => absurd (congrArg stopped h) Bool.false_ne_true, ?_⟩
    rintro ⟨hle, hlt, -⟩
    omega
  | succ k ih =>
    rw [advance]
    split
    · rename_i hnext
      rw [ih]
      constructor
      · rintro ⟨hle, hlt, hpass, hfail⟩
        refine ⟨by omega, by omega, fun i hlo hhi => ?_, hfail⟩
        rcases Nat.lt_or_ge (n + 1) i with hlt' | hle'
        · exact hpass i hlt' hhi
        · rwa [show i = n + 1 by omega]
      · rintro ⟨hle, hlt, hpass, hfail⟩
        have hne : n ≠ m := by
          rintro rfl
          rw [hnext] at hfail
          cases hfail
        exact ⟨by omega, by omega, fun i hlo hhi => hpass i (by omega) hhi, hfail⟩
    · rename_i hnext
      rw [Bool.not_eq_true] at hnext
      constructor
      · rintro h
        obtain rfl : n = m := congrArg reached h
        exact ⟨Nat.le_refl n, by omega, fun i hlo hhi => by omega, hnext⟩
      · rintro ⟨hle, -, hpass, hfail⟩
        rcases Nat.lt_or_ge n m with hlt | hge
        · rw [hpass (n + 1) (by omega) hlt] at hnext
          cases hnext
        · rw [Nat.le_antisymm hle hge]

/-- A pass that was not stopped came all the way. -/
theorem reached_of_running (h : (advance verdict n k).stopped = false) :
    (advance verdict n k).reached = n + k := by
  induction k generalizing n with
  | zero => rfl
  | succ k ih =>
    rw [advance] at h ⊢
    split at h
    · rename_i hnext
      rw [if_pos hnext, ih h]
      omega
    · cases h

/-- A pass stays in its range. -/
theorem le_reached (verdict : Nat → Bool) (n k : Nat) : n ≤ (advance verdict n k).reached ∧
    (advance verdict n k).reached ≤ n + k := by
  induction k generalizing n with
  | zero => exact ⟨Nat.le_refl n, Nat.le_refl n⟩
  | succ k ih =>
    rw [advance]
    split
    · have := ih (n + 1)
      omega
    · exact ⟨Nat.le_refl n, Nat.le_add_right n _⟩

/-- **Two passes end alike** exactly where they agree up to the first failure of one. -/
theorem advance_eq_iff : advance verdict n k = advance own n k ↔
    ∀ m, n < m → m ≤ n + k → (∀ i, n < i → i < m → own i = true) → verdict m = own m := by
  induction k generalizing n with
  | zero => exact ⟨fun _ m hlo hhi => by omega, fun _ => rfl⟩
  | succ k ih =>
    have hbelow : (∀ m, n < m → m ≤ n + (k + 1) → (∀ i, n < i → i < m → own i = true) →
        verdict m = own m) ↔ verdict (n + 1) = own (n + 1) ∧ (own (n + 1) = true →
          ∀ m, n + 1 < m → m ≤ n + 1 + k → (∀ i, n + 1 < i → i < m → own i = true) →
            verdict m = own m) := by
      constructor
      · rintro h
        refine ⟨h (n + 1) (by omega) (by omega) fun i hlo hhi => by omega, ?_⟩
        rintro hown m hlo hhi hpass
        refine h m (by omega) (by omega) fun i hi him => ?_
        rcases Nat.lt_or_ge (n + 1) i with hlt | hle
        · exact hpass i hlt him
        · rwa [show i = n + 1 by omega]
      · rintro ⟨hfirst, hrest⟩ m hlo hhi hpass
        rcases Nat.lt_or_ge (n + 1) m with hlt | hle
        · exact hrest (hpass (n + 1) (by omega) hlt) m hlt (by omega)
            fun i hi him => hpass i (by omega) him
        · rwa [show m = n + 1 by omega]
    rw [hbelow, advance, advance]
    cases hv : verdict (n + 1) <;> cases ho : own (n + 1)
    · exact ⟨fun _ => ⟨rfl, fun h => absurd h Bool.false_ne_true⟩, fun _ => rfl⟩
    · refine ⟨fun h => ?_, fun h => absurd h.1 Bool.false_ne_true⟩
      -- one stops where the other goes on
      rw [if_neg Bool.false_ne_true, if_pos rfl] at h
      obtain ⟨hle, -⟩ := advance_eq_stopped.mp h.symm
      omega
    · refine ⟨fun h => ?_, fun h => absurd h.1.symm Bool.false_ne_true⟩
      rw [if_neg Bool.false_ne_true, if_pos rfl] at h
      obtain ⟨hle, -⟩ := advance_eq_stopped.mp h
      omega
    · rw [if_pos rfl, if_pos rfl, ih]
      exact ⟨fun h => ⟨rfl, fun _ => h⟩, fun h => h.2 rfl⟩

/-! ### Stage after stage -/

/-- One stage, whose verdicts are those of where it begins. -/
def stage (staged : Nat → Nat → Bool) (top : Nat) (p : StagedPass) (budget : Nat) : StagedPass :=
  next (staged p.reached) p (min top (p.reached + budget) - p.reached)

/-- Stages one after the other. -/
def run (staged : Nat → Nat → Bool) (top : Nat) (budgets : List Nat) (p : StagedPass) : StagedPass :=
  budgets.foldl (stage staged top) p

/-- Where the stage of a number begins. -/
def startOf : Nat → List Nat → Nat → Nat
  | a, [], _ => a
  | a, b :: budgets, m => if m ≤ a + b then a else startOf (a + b) budgets m

theorem run_concat (staged : Nat → Nat → Bool) (top : Nat) (budgets : List Nat) (b : Nat)
    (p : StagedPass) : run staged top (budgets ++ [b]) p = stage staged top (run staged top budgets p) b :=
  List.foldl_concat _ _ _ _

/-- A stage goes up, and not above the top. -/
theorem le_stage (staged : Nat → Nat → Bool) {p : StagedPass} (h : p.reached ≤ top) (b : Nat) :
    p.reached ≤ (stage staged top p b).reached ∧ (stage staged top p b).reached ≤ top := by
  unfold stage next
  split
  · exact ⟨Nat.le_refl _, h⟩
  · have := le_reached (staged p.reached) p.reached (min top (p.reached + b) - p.reached)
    omega

/-- A stopped pass stays where it is. -/
theorem run_stopped (n : Nat) : run staged top budgets ⟨n, true⟩ = ⟨n, true⟩ := by
  induction budgets with
  | nil => rfl
  | cons b budgets ih => exact ih

/-- **A pass cut into stages** is the uncut pass with the verdict of each number's stage. -/
theorem run_eq (h : a ≤ top) : run staged top budgets ⟨a, false⟩ =
    advance (fun m => staged (startOf a budgets m) m) a (min top (a + budgets.sum) - a) := by
  induction budgets generalizing a with
  | nil =>
    rw [List.sum_nil, Nat.add_zero, Nat.min_eq_right h, Nat.sub_self]
    rfl
  | cons b budgets ih =>
    obtain ⟨j, hj⟩ : ∃ j, j = min top (a + b) - a := ⟨_, rfl⟩
    obtain ⟨k, hk⟩ : ∃ k, k = min top (a + j + budgets.sum) - (a + j) := ⟨_, rfl⟩
    have hsplit : min top (a + (b :: budgets).sum) - a = j + k := by
      rw [List.sum_cons]
      omega
    have hfirst : advance (fun m => staged (startOf a (b :: budgets) m) m) a j =
        advance (staged a) a j := by
      refine advance_congr fun m hlo hhi => ?_
      rw [startOf, if_pos (by omega)]
    have hstage : stage staged top ⟨a, false⟩ b = advance (staged a) a j := by
      rw [hj]
      rfl
    rw [run, List.foldl_cons, hstage, hsplit, advance_add, hfirst]
    change run staged top budgets _ = _
    cases hstopped : (advance (staged a) a j).stopped with
    | true =>
      rw [next, if_pos hstopped, show advance (staged a) a j =
        ⟨(advance (staged a) a j).reached, true⟩ from StagedPass.ext rfl hstopped, run_stopped]
    | false =>
      rw [show advance (staged a) a j = ⟨a + j, false⟩ from
        StagedPass.ext (reached_of_running hstopped) hstopped, ih (by omega), next_running, ← hk]
      refine advance_congr fun m hlo hhi => ?_
      -- what is left lies above the first stage, which then had its whole budget
      rw [startOf, if_neg (by omega), show a + b = a + j by omega]

/-- **A cut pass ends where an uncut one does** exactly where the verdicts agree up to the
first failure. -/
theorem run_eq_iff (h : a ≤ top) :
    run staged top budgets ⟨a, false⟩ = advance own a (min top (a + budgets.sum) - a) ↔
      ∀ m, a < m → m ≤ min top (a + budgets.sum) → (∀ i, a < i → i < m → own i = true) →
        staged (startOf a budgets m) m = own m := by
  rw [run_eq h, advance_eq_iff, Nat.add_sub_cancel' (by omega)]

end StagedPass

end Chaintracks

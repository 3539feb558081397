import Mathlib.Data.List.Basic
import Mathlib.Data.List.Nodup
import Mathlib.Data.Nat.Notation

/-!
# Asking one after the other

Several sources stand in for each other: they are asked in an order until one answers, and
the question fails only when none is left (`FailOver.ask`). The sources asked are a prefix of
the order (`FailOver.tried`), the whole of it where the question fails.

Where every source is asked and the highest answer taken (`FailOver.best`), what is taken is
one of the answers and none is higher.
-/

namespace FailOver

variable {ι ε α : Type}

/-! ### The first answer -/

/-- The first answer of the sources in order. -/
def ask (answers : ι → Except ε α) : List ι → Option α
  | [] => none
  | i :: is =>
    match answers i with
    | .ok a => some a
    | .error _ => ask answers is

/-- The sources asked for it. -/
def tried (answers : ι → Except ε α) : List ι → List ι
  | [] => []
  | i :: is =>
    i :: match answers i with
      | .ok _ => []
      | .error _ => tried answers is

section First

variable {answers : ι → Except ε α} {order : List ι} {i : ι} {is : List ι} {a : α} {e : ε}

theorem ask_cons_ok (h : answers i = .ok a) : ask answers (i :: is) = some a := by
  rw [ask, h]

theorem ask_cons_error (h : answers i = .error e) : ask answers (i :: is) = ask answers is := by
  rw [ask, h]

theorem tried_cons_ok (h : answers i = .ok a) : tried answers (i :: is) = [i] := by
  rw [tried, h]

theorem tried_cons_error (h : answers i = .error e) :
    tried answers (i :: is) = i :: tried answers is := by
  rw [tried, h]

/-- The sources asked are the first of the order. -/
theorem tried_prefix : tried answers order <+: order := by
  induction order with
  | nil => exact List.prefix_rfl
  | cons i is ih =>
    cases h : answers i with
    | ok a =>
      rw [tried_cons_ok h]
      exact ⟨is, rfl⟩
    | error e =>
      rw [tried_cons_error h]
      exact (List.prefix_cons_inj i).mpr ih

/-- No source is asked twice. -/
theorem tried_nodup (h : order.Nodup) : (tried answers order).Nodup :=
  h.sublist tried_prefix.sublist

/-- **A question fails only once everyone was asked, and nobody answered.** -/
theorem tried_of_ask_eq_none (h : ask answers order = none) :
    tried answers order = order ∧ ∀ i ∈ order, ∃ e, answers i = .error e := by
  induction order with
  | nil => exact ⟨rfl, List.forall_mem_nil _⟩
  | cons i is ih =>
    cases hi : answers i with
    | ok a =>
      rw [ask_cons_ok hi] at h
      exact absurd h (Option.some_ne_none a)
    | error e =>
      rw [ask_cons_error hi] at h
      obtain ⟨htried, hall⟩ := ih h
      rw [tried_cons_error hi, htried]
      exact ⟨rfl, List.forall_mem_cons.mpr ⟨⟨e, hi⟩, hall⟩⟩

end First

/-! ### The highest answer -/

/-- The best of some answers: a later one only where it is higher. -/
def best (height : α → ℕ) (answers : ι → Except ε α) : List ι → Option (ι × α) → Option (ι × α)
  | [], top => top
  | i :: is, top =>
    match answers i with
    | .ok a => best height answers is <|
        if top.all fun b => height b.2 < height a then some (i, a) else top
    | .error _ => best height answers is top

section Best

variable {height : α → ℕ} {answers : ι → Except ε α} {order : List ι} {top : Option (ι × α)}

/-- The best was there before, or is an answer. -/
theorem best_mem {i : ι} {a : α} (h : best height answers order top = some (i, a)) :
    top = some (i, a) ∨ i ∈ order ∧ answers i = .ok a := by
  induction order generalizing top with
  | nil => exact .inl h
  | cons j js ih =>
    rw [best] at h
    split at h
    · rename_i b hj
      rcases ih h with htop | ⟨hi, ha⟩
      · split at htop
        · cases htop
          exact .inr ⟨List.mem_cons_self, hj⟩
        · exact .inl htop
      · exact .inr ⟨List.mem_cons_of_mem _ hi, ha⟩
    · rcases ih h with htop | ⟨hi, ha⟩
      · exact .inl htop
      · exact .inr ⟨List.mem_cons_of_mem _ hi, ha⟩

/-- Nothing seen is higher than the best. -/
theorem le_best {i : ι} {a : α} (h : best height answers order top = some (i, a)) :
    (∀ b ∈ top, height b.2 ≤ height a) ∧
      ∀ j ∈ order, ∀ b, answers j = .ok b → height b ≤ height a := by
  induction order generalizing top with
  | nil =>
    refine ⟨fun b hb => ?_, List.forall_mem_nil _⟩
    cases hb.symm.trans h
    exact Nat.le_refl _
  | cons j js ih =>
    rw [best] at h
    split at h
    · rename_i c hj
      obtain ⟨htop, hrest⟩ := ih h
      have hboth : height c ≤ height a ∧ ∀ b ∈ top, height b.2 ≤ height a := by
        split at htop
        · rename_i hlow
          have hc : height c ≤ height a := htop (j, c) rfl
          refine ⟨hc, fun b hb => ?_⟩
          cases hb
          rw [Option.all_some, decide_eq_true_eq] at hlow
          omega
        · rename_i hlow
          refine ⟨?_, htop⟩
          cases top with
          | none => exact absurd rfl hlow
          | some b =>
            have hb := htop b rfl
            rw [Option.all_some, decide_eq_true_eq] at hlow
            omega
      refine ⟨hboth.2, List.forall_mem_cons.mpr ⟨fun b hb => ?_, hrest⟩⟩
      rw [hj] at hb
      cases hb
      exact hboth.1
    · rename_i e hj
      obtain ⟨htop, hrest⟩ := ih h
      refine ⟨htop, List.forall_mem_cons.mpr ⟨fun b hb => ?_, hrest⟩⟩
      rw [hj] at hb
      cases hb

/-- There is a best wherever somebody answers. -/
theorem best_eq_none (h : best height answers order top = none) :
    top = none ∧ ∀ i ∈ order, ∃ e, answers i = .error e := by
  induction order generalizing top with
  | nil => exact ⟨h, List.forall_mem_nil _⟩
  | cons j js ih =>
    rw [best] at h
    split at h
    · obtain ⟨htop, -⟩ := ih h
      split at htop
      · exact absurd htop (Option.some_ne_none _)
      · rename_i hlow
        rw [htop] at hlow
        exact absurd rfl hlow
    · rename_i e hj
      obtain ⟨htop, hall⟩ := ih h
      exact ⟨htop, List.forall_mem_cons.mpr ⟨⟨e, hj⟩, hall⟩⟩

end Best

end FailOver

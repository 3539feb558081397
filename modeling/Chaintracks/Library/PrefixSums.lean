import Mathlib

/-!
# Prefix sums that wrap

A list of naturals is summed from the left modulo `m`, and every intermediate sum is
kept: `PrefixSums.sums`. Each sum has lost how often it wrapped, yet the difference of
two of them, taken modulo `m` again, is the sum of what stands between the two places
(`PrefixSums.diff_sums`): the number of times either wrapped cancels.

`PrefixSums.filter_between` says what stands between two places of a list counted by
consecutive numbers: what the numbers say lies between.
-/

namespace PrefixSums

variable {α : Type}

/-- The sums of the first parts of a list, modulo `m`, the empty part first. -/
def sums (m : Nat) (weights : List Nat) : List Nat := weights.scanl (fun a b => (a + b) % m) 0

@[simp] theorem length_sums (m : Nat) (weights : List Nat) :
    (sums m weights).length = weights.length + 1 := List.length_scanl

/-- Wrapping at every step is wrapping once. -/
theorem foldl_wrap (m : Nat) (weights : List Nat) (a : Nat) :
    weights.foldl (fun a b => (a + b) % m) (a % m) = (a + weights.sum) % m := by
  induction weights generalizing a with
  | nil => rw [List.foldl_nil, List.sum_nil, Nat.add_zero]
  | cons b weights ih =>
    rw [List.foldl_cons, List.sum_cons, Nat.mod_add_mod, ih, Nat.add_assoc]

/-- The last sum is the whole sum, wrapped. -/
theorem getLast?_sums (m : Nat) (weights : List Nat) :
    (sums m weights).getLast? = some (weights.sum % m) := by
  have h := foldl_wrap m weights 0
  rw [Nat.zero_mod, Nat.zero_add] at h
  rw [sums, List.getLast?_scanl, h]

/-- The sum at a place is the sum of the part before it, wrapped. -/
theorem getElem?_sums (m : Nat) (weights : List Nat) (i : Nat) :
    (sums m weights)[i]? = if i ≤ weights.length then some ((weights.take i).sum % m) else none := by
  have h := foldl_wrap m (weights.take i) 0
  rw [Nat.zero_mod, Nat.zero_add] at h
  rw [sums, List.getElem?_scanl, h]

/-- One more weight is one more sum. -/
theorem sums_append (m : Nat) (weights : List Nat) (b : Nat) :
    sums m (weights ++ [b]) = sums m weights ++ [(weights.sum % m + b) % m] := by
  have h := foldl_wrap m weights 0
  rw [Nat.zero_mod, Nat.zero_add] at h
  rw [sums, List.scanl_append, List.scanl_singleton, h]
  rfl

/-- **The wrapped difference of two wrapped sums** is the sum of what stands between,
wrapped. -/
theorem diff_sums {m : Nat} (hm : 0 < m) (weights : List Nat) {i j : Nat} (hij : i ≤ j) :
    ((weights.take j).sum % m + m - (weights.take i).sum % m) % m =
      ((weights.take j).drop i).sum % m := by
  have hsum : (weights.take j).sum = (weights.take i).sum + ((weights.take j).drop i).sum := by
    conv_lhs => rw [← List.take_append_drop i (weights.take j)]
    rw [List.sum_append, List.take_take, Nat.min_eq_left hij]
  have hlt : (weights.take i).sum % m < m := Nat.mod_lt _ hm
  rw [Nat.add_sub_assoc hlt.le, hsum]
  -- modulo `m`, what is added back is the opposite of the first sum
  have hback : (weights.take i).sum + (m - (weights.take i).sum % m) ≡ 0 [MOD m] := by
    have h := Nat.ModEq.add_right (m - (weights.take i).sum % m)
      (Nat.mod_modEq (weights.take i).sum m).symm
    rw [Nat.add_sub_cancel' hlt.le] at h
    exact h.trans (Nat.modEq_zero_iff_dvd.mpr dvd_rfl)
  have h := Nat.ModEq.add_right ((weights.take j).drop i).sum hback
  rw [Nat.mod_add_mod, Nat.add_right_comm]
  rwa [Nat.zero_add] at h

/-- **What stands between two places**: of a list counted by consecutive numbers, the
elements whose number lies between those of two places. -/
theorem filter_between {l : List α} {number : α → Nat} {a : Nat}
    (hcount : ∀ k (hk : k < l.length), number l[k] = a + k) {i j : Nat} (hij : i ≤ j) :
    l.filter (fun x => a + i < number x ∧ number x ≤ a + j) = (l.take (j + 1)).drop (i + 1) := by
  have hhead : (l.take (i + 1)).filter (fun x => a + i < number x ∧ number x ≤ a + j) = [] := by
    rw [List.filter_eq_nil_iff]
    rintro x hx
    obtain ⟨k, hk, rfl⟩ := List.mem_iff_getElem.mp hx
    rw [List.length_take] at hk
    rw [List.getElem_take, hcount k (by omega), decide_eq_true_eq]
    omega
  have hmid : ((l.take (j + 1)).drop (i + 1)).filter
      (fun x => a + i < number x ∧ number x ≤ a + j) = (l.take (j + 1)).drop (i + 1) := by
    rw [List.filter_eq_self]
    rintro x hx
    obtain ⟨k, hk, rfl⟩ := List.mem_iff_getElem.mp hx
    rw [List.length_drop, List.length_take] at hk
    rw [List.getElem_drop, List.getElem_take, hcount (i + 1 + k) (by omega), decide_eq_true_eq]
    omega
  have htail : (l.drop (j + 1)).filter (fun x => a + i < number x ∧ number x ≤ a + j) = [] := by
    rw [List.filter_eq_nil_iff]
    rintro x hx
    obtain ⟨k, hk, rfl⟩ := List.mem_iff_getElem.mp hx
    rw [List.length_drop] at hk
    rw [List.getElem_drop, hcount (j + 1 + k) (by omega), decide_eq_true_eq]
    omega
  have hsplit : l = l.take (i + 1) ++ ((l.take (j + 1)).drop (i + 1) ++ l.drop (j + 1)) := by
    conv_lhs => rw [← List.take_append_drop (j + 1) l, ← List.take_append_drop (i + 1) (l.take (j + 1))]
    rw [List.append_assoc, List.take_take, Nat.min_eq_left (by omega)]
  conv_lhs => rw [hsplit]
  rw [List.filter_append, List.filter_append, hhead, hmid, htail, List.nil_append, List.append_nil]

end PrefixSums

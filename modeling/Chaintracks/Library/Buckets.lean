import Mathlib

/-!
# Sorting by a number, bucket by bucket

A list sorted by a number, stably, is its elements of each number in turn, each group in
the order it had (`Buckets.insertionSort_eq`). What a sorted list says of an interval of
numbers can then be read off one number at a time, and two neighbouring intervals are
sorted by sorting each (`Buckets.flatMap_append`).
-/

namespace Buckets

variable {α β : Type} {key : α → Nat}

/-- The numbers of an interval that begins above `lo` and ends with `hi`, in two parts. -/
theorem range'_append {lo mid hi : Nat} (hlo : lo ≤ mid) (hhi : mid ≤ hi) :
    List.range' (lo + 1) (hi - lo) =
      List.range' (lo + 1) (mid - lo) ++ List.range' (mid + 1) (hi - mid) := by
  have h := @List.range'_append (lo + 1) (mid - lo) (hi - mid) 1
  rw [Nat.one_mul, show lo + 1 + (mid - lo) = mid + 1 by omega,
    show mid - lo + (hi - mid) = hi - lo by omega] at h
  exact h.symm

/-- A list made number by number, in two parts. -/
theorem flatMap_append (f : Nat → List β) {lo mid hi : Nat} (hlo : lo ≤ mid) (hhi : mid ≤ hi) :
    (List.range' (lo + 1) (hi - lo)).flatMap f =
      (List.range' (lo + 1) (mid - lo)).flatMap f ++
        (List.range' (mid + 1) (hi - mid)).flatMap f := by
  rw [range'_append hlo hhi, List.flatMap_append]

/-- An element goes in before those of its number, and after those below. -/
theorem orderedInsert_append {x : α} {front back : List α} (hfront : ∀ a ∈ front, key a < key x)
    (hback : ∀ b ∈ back, key x ≤ key b) :
    (front ++ back).orderedInsert (fun a b => key a ≤ key b) x = front ++ x :: back := by
  induction front with
  | nil =>
    cases back with
    | nil => rfl
    | cons b back => exact List.orderedInsert_cons_of_le _ back (hback b List.mem_cons_self)
  | cons a front ih =>
    have ha : ¬key x ≤ key a := Nat.not_le.mpr (hfront a List.mem_cons_self)
    rw [List.cons_append, List.cons_append, List.orderedInsert_cons, if_neg ha,
      ih fun b hb => hfront b (List.mem_cons_of_mem _ hb)]

/-- The buckets of numbers other than that of `x` do not see it. -/
theorem flatMap_cons_of_ne {x : α} {l : List α} {ks : List Nat} (h : ∀ k ∈ ks, key x ≠ k) :
    (ks.flatMap fun k => (x :: l).filter fun y => key y = k) =
      ks.flatMap fun k => l.filter fun y => key y = k := by
  refine List.flatMap_congr fun k hk => ?_
  exact List.filter_cons_of_neg (by rw [decide_eq_true_eq]; exact h k hk)

theorem mem_flatMap_buckets {y : α} {l : List α} {ks : List Nat}
    (h : y ∈ ks.flatMap fun k => l.filter fun y => key y = k) : key y ∈ ks := by
  obtain ⟨k, hk, hy⟩ := List.mem_flatMap.mp h
  rw [List.mem_filter, decide_eq_true_eq] at hy
  exact hy.2 ▸ hk

/-- **Sorting by a number is going through the numbers.** -/
theorem insertionSort_eq {l : List α} {lo n : Nat} (h : ∀ x ∈ l, lo ≤ key x ∧ key x < lo + n) :
    l.insertionSort (fun a b => key a ≤ key b) =
      (List.range' lo n).flatMap fun k => l.filter fun x => key x = k := by
  induction l with
  | nil => simp
  | cons x l ih =>
    obtain ⟨hx, hl⟩ := List.forall_mem_cons.mp h
    -- the numbers below that of `x`, its own, and those above
    have hsplit : List.range' lo n =
        List.range' lo (key x - lo) ++ key x :: List.range' (key x + 1) (lo + n - (key x + 1)) := by
      have happend := @List.range'_append lo (key x - lo) (lo + n - key x) 1
      rw [Nat.one_mul, show lo + (key x - lo) = key x by omega,
        show key x - lo + (lo + n - key x) = n by omega,
        show lo + n - key x = lo + n - (key x + 1) + 1 by omega, List.range'_succ] at happend
      exact happend.symm
    have hown : (x :: l).filter (fun y => key y = key x) =
        x :: l.filter fun y => key y = key x := List.filter_cons_of_pos (by simp)
    have hbelow : ∀ k ∈ List.range' lo (key x - lo), key x ≠ k := by
      rintro k hk
      rw [List.mem_range'_1] at hk
      omega
    have habove : ∀ k ∈ List.range' (key x + 1) (lo + n - (key x + 1)), key x ≠ k := by
      rintro k hk
      rw [List.mem_range'_1] at hk
      omega
    rw [List.insertionSort_cons, ih hl, hsplit, List.flatMap_append, List.flatMap_append,
      List.flatMap_cons, List.flatMap_cons, hown, flatMap_cons_of_ne hbelow,
      flatMap_cons_of_ne habove, orderedInsert_append]
    · rfl
    · rintro y hy
      have hmem := mem_flatMap_buckets hy
      rw [List.mem_range'_1] at hmem
      omega
    · rintro y hy
      rcases List.mem_append.mp hy with hy | hy
      · rw [List.mem_filter, decide_eq_true_eq] at hy
        omega
      · have hmem := mem_flatMap_buckets hy
        rw [List.mem_range'_1] at hmem
        omega

end Buckets

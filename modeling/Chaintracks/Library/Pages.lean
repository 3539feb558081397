import Mathlib

/-!
# A numbered list, read page by page

A list whose elements carry ascending numbers is read in pages: each page begins above a
number, takes so many elements, and the next begins above the last number taken
(`Pages.bound`). A page is then what stands between the two numbers
(`Pages.take_eq_between`), and pages that follow each other are one
(`Pages.between_append`). Elements added at the end change nothing of what was read
(`Pages.between_grown`).
-/

namespace Pages

variable {α : Type} {number : α → Nat} {l : List α} {a b c : Nat}

/-- What stands above one number and not above another. -/
def between (number : α → Nat) (l : List α) (a b : Nat) : List α :=
  l.filter fun x => a < number x ∧ number x ≤ b

/-- What stands above a number. -/
def above (number : α → Nat) (l : List α) (a : Nat) : List α := l.filter fun x => a < number x

/-- The last number of a page, or the number it was read from. -/
def bound (number : α → Nat) (a : Nat) (page : List α) : Nat := (page.getLast?.map number).getD a

theorem mem_between {x : α} : x ∈ between number l a b ↔ x ∈ l ∧ a < number x ∧ number x ≤ b := by
  rw [between, List.mem_filter, decide_eq_true_eq]

theorem mem_above {x : α} : x ∈ above number l a ↔ x ∈ l ∧ a < number x := by
  rw [above, List.mem_filter, decide_eq_true_eq]

/-- Where nothing stands above a number, what is between is what is above. -/
theorem between_eq_above (h : ∀ x ∈ l, number x ≤ b) : between number l a b = above number l a := by
  refine List.filter_congr fun x hx => ?_
  rw [decide_eq_decide]
  exact and_iff_left (h x hx)

theorem between_eq_filter :
    between number l a b = (above number l a).filter fun x => number x ≤ b := by
  rw [between, above, List.filter_filter]
  refine List.filter_congr fun x _ => ?_
  rw [Bool.decide_and, Bool.and_comm]

variable (number l) in
theorem length_between_le (a b : Nat) :
    (between number l a b).length ≤ (above number l a).length := by
  rw [between_eq_filter]
  exact List.length_filter_le _ _

theorem between_self (a : Nat) : between number l a a = [] := by
  rw [between, List.filter_eq_nil_iff]
  rintro x -
  rw [decide_eq_true_eq]
  omega

/-- What was read is not touched by what is added above it. -/
theorem between_grown {new : List α} (h : ∀ x ∈ new, b < number x) :
    between number (l ++ new) a b = between number l a b := by
  have hnone : between number new a b = [] := by
    rw [between, List.filter_eq_nil_iff]
    rintro x hx
    have := h x hx
    rw [decide_eq_true_eq]
    omega
  rw [between, List.filter_append]
  change between number l a b ++ between number new a b = _
  rw [hnone, List.append_nil]

section Ascending

variable (hasc : l.Pairwise fun x y => number x < number y)
include hasc

/-- **Pages that follow each other are one.** -/
theorem between_append (hab : a ≤ b) (hbc : b ≤ c) :
    between number l a b ++ between number l b c = between number l a c := by
  induction l with
  | nil => rfl
  | cons x l ih =>
    obtain ⟨hx, hl⟩ := List.pairwise_cons.mp hasc
    by_cases hle : number x ≤ b
    · have hskip : between number (x :: l) b c = between number l b c :=
        List.filter_cons_of_neg (by rw [decide_eq_true_eq]; omega)
      rw [hskip]
      by_cases ha : a < number x
      · have hfirst : between number (x :: l) a b = x :: between number l a b :=
          List.filter_cons_of_pos (by rw [decide_eq_true_eq]; omega)
        have hwhole : between number (x :: l) a c = x :: between number l a c :=
          List.filter_cons_of_pos (by rw [decide_eq_true_eq]; omega)
        rw [hfirst, hwhole, List.cons_append, ih hl]
      · have hfirst : between number (x :: l) a b = between number l a b :=
          List.filter_cons_of_neg (by rw [decide_eq_true_eq]; omega)
        have hwhole : between number (x :: l) a c = between number l a c :=
          List.filter_cons_of_neg (by rw [decide_eq_true_eq]; omega)
        rw [hfirst, hwhole, ih hl]
    · -- everything from here on is above `b`
      have hnone : between number (x :: l) a b = [] := by
        rw [between, List.filter_eq_nil_iff]
        rintro y hy
        rw [decide_eq_true_eq]
        rcases List.mem_cons.mp hy with rfl | hy
        · omega
        · have := hx y hy
          omega
      rw [hnone, List.nil_append]
      refine List.filter_congr fun y hy => ?_
      rw [decide_eq_decide]
      rcases List.mem_cons.mp hy with rfl | hy
      · omega
      · have := hx y hy
        omega

/-- The elements of a page and those left, told apart by its last number. -/
theorem le_bound_iff {n : Nat} (ha : ∀ x ∈ l, a < number x) :
    (∀ x ∈ l.take n, number x ≤ bound number a (l.take n)) ∧
      ∀ x ∈ l.drop n, bound number a (l.take n) < number x := by
  cases hlast : (l.take n).getLast? with
  | none =>
    rw [List.getLast?_eq_none_iff] at hlast
    rw [hlast]
    exact ⟨fun x hx => absurd hx List.not_mem_nil, fun x hx => ha x (List.mem_of_mem_drop hx)⟩
  | some last =>
    have hbound : bound number a (l.take n) = number last := by rw [bound, hlast]; rfl
    obtain ⟨front, hfront⟩ := List.getLast?_eq_some_iff.mp hlast
    rw [hbound]
    rw [← List.take_append_drop n l, List.pairwise_append] at hasc
    obtain ⟨htaken, -, hcross⟩ := hasc
    refine ⟨?_, fun x hx => hcross last (List.mem_of_getLast? hlast) x hx⟩
    rintro x hx
    rw [hfront, List.mem_append, List.mem_singleton] at hx
    rw [hfront, List.pairwise_append] at htaken
    rcases hx with hx | rfl
    · exact (htaken.2.2 x hx last (List.mem_singleton_self _)).le
    · exact le_rfl

/-- **A page is what stands between** the number it was read from and its last. -/
theorem take_eq_between (n : Nat) :
    (above number l a).take n = between number l a (bound number a ((above number l a).take n)) := by
  have habove : (above number l a).Pairwise fun x y => number x < number y := hasc.filter _
  obtain ⟨htaken, hleft⟩ := le_bound_iff (n := n) habove fun x hx => (mem_above.mp hx).2
  generalize bound number a ((above number l a).take n) = last at htaken hleft ⊢
  have hpart : ((above number l a).take n ++ (above number l a).drop n).filter
      (fun x => number x ≤ last) = (above number l a).take n := by
    rw [List.filter_append, List.filter_eq_self.mpr, List.filter_eq_nil_iff.mpr, List.append_nil]
    · rintro x hx hle
      rw [decide_eq_true_eq] at hle
      exact absurd (hleft x hx) (Nat.not_lt.mpr hle)
    · rintro x hx
      rw [decide_eq_true_eq]
      exact htaken x hx
  rw [between_eq_filter, ← hpart, List.take_append_drop]

/-- A page that was not filled has nothing above it. -/
theorem le_bound_of_short {n : Nat} (h : (above number l a).length ≤ n) :
    ∀ x ∈ l, a < number x → number x ≤ bound number a ((above number l a).take n) := by
  rintro x hx hax
  have habove : (above number l a).Pairwise fun x y => number x < number y := hasc.filter _
  refine (le_bound_iff (n := n) habove fun x hx => (mem_above.mp hx).2).1 x ?_
  rw [List.take_of_length_le h]
  exact mem_above.mpr ⟨hx, hax⟩

end Ascending

/-- A page does not go back. -/
theorem le_bound {n : Nat} : a ≤ bound number a ((above number l a).take n) := by
  rw [bound]
  cases hlast : ((above number l a).take n).getLast? with
  | none => exact le_rfl
  | some last =>
    have hmem := List.mem_of_mem_take (List.mem_of_getLast? hlast)
    exact (mem_above.mp hmem).2.le

/-- **A page that is not empty goes on.** -/
theorem lt_bound {n : Nat} (h : 0 < ((above number l a).take n).length) :
    a < bound number a ((above number l a).take n) := by
  have hlast := List.getLast?_eq_some_getLast (List.ne_nil_of_length_pos h)
  rw [bound, hlast]
  exact (mem_above.mp (List.mem_of_mem_take (List.mem_of_getLast? hlast))).2

/-- The last number of a page is that of an element, or the page is empty. -/
theorem bound_cases {page : List α} :
    bound number a page = a ∨ ∃ x ∈ page, number x = bound number a page := by
  rw [bound]
  cases hlast : page.getLast? with
  | none => exact .inl rfl
  | some last => exact .inr ⟨last, List.mem_of_getLast? hlast, rfl⟩

end Pages

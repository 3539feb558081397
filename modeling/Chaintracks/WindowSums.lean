import Chaintracks.Regtest
import Chaintracks.Window
import Chaintracks.Library.PrefixSums

/-!
# The window's prefix sums are the chain's work

A window pushed link by link keeps one sum a link, each wrapped at `2 ^ 256`, and the
first link's own proof is in none of them. `Chaintracks.Window.new_work` identifies the
sums with those of `PrefixSums`; the work between two heights, their wrapped difference,
is then the sum of the proofs of what stands between.

Where the heights are consecutive the window is a table by height:
`Chaintracks.Window.index_eq_some` says which place a height has, and everything the
difficulty rule can ask is answered from it (`Chaintracks.window_sums`).
-/

namespace Chaintracks

namespace Window

variable {bsv : BsvRs} {links : List Link}

/-- The proofs of a run of links. -/
def proofs (bsv : BsvRs) (links : List Link) : List Nat :=
  links.map fun link => bsv.workFromBits link.bits

/-- The proofs of the links that stand above one height and not above another. -/
def workOf (bsv : BsvRs) (links : List Link) (first last : Nat) : Nat :=
  (proofs bsv (links.filter fun link => first < link.height ∧ link.height ≤ last)).sum

/-- The sum a link adds to a window that has one. -/
theorem push_work {w : Window} {link : Link} {last : Nat} (h : w.work.getLast? = some last) :
    (push bsv w link).work = w.work ++ [addWork last (bsv.workFromBits link.bits)] := by
  rw [push]
  dsimp only
  rw [h]

/-- **The sums of a window** are the prefix sums of its links after the first. -/
theorem new_work (bsv : BsvRs) (first : Link) (links : List Link) :
    (new bsv (first :: links)).work = PrefixSums.sums workModulus (proofs bsv links) := by
  induction links using List.reverseRecOn with
  | nil => rfl
  | append_singleton links link ih =>
    have hlast : (new bsv (first :: links)).work.getLast? = some _ :=
      (congrArg List.getLast? ih).trans (PrefixSums.getLast?_sums _ _)
    rw [← List.cons_append, new_append, push_work hlast, ih, proofs, proofs, List.map_append,
      List.map_singleton, PrefixSums.sums_append]
    rfl

/-! ### The two places of a difference -/

/-- The prefix sum of a height, where it has one. -/
def sumAt (w : Window) (height : Nat) : Option Nat := (w.index height).bind fun i => w.work[i]?

theorem workBetween_some {w : Window} {first last a b : Nat} (ha : w.sumAt first = some a)
    (hb : w.sumAt last = some b) :
    w.workBetween first last = .ok ((b + workModulus - a) % workModulus) := by
  rw [sumAt] at ha hb
  simp only [workBetween, ha, hb]
  rfl

theorem workBetween_none_left {w : Window} {first : Nat} (ha : w.sumAt first = none)
    (last : Nat) : w.workBetween first last = .error (.missingAncestor first) := by
  rw [sumAt] at ha
  simp only [workBetween, ha]
  rfl

theorem workBetween_none_right {w : Window} {first last a : Nat} (ha : w.sumAt first = some a)
    (hb : w.sumAt last = none) : w.workBetween first last = .error (.missingAncestor last) := by
  rw [sumAt] at ha hb
  simp only [workBetween, ha, hb]
  rfl

/-! ### Consecutive heights -/

section Consecutive

variable (hchain : links.IsChain fun a b => b.height = a.height + 1)

include hchain in
/-- Consecutive heights count up from the first. -/
theorem height_getElem {first : Link} (hfirst : links.head? = some first) (k : Nat)
    (hk : k < links.length) : links[k].height = first.height + k := by
  induction k with
  | zero =>
    rw [List.head?_eq_getElem?, List.getElem?_eq_getElem hk, Option.some_inj] at hfirst
    rw [hfirst, Nat.add_zero]
  | succ k ih =>
    rw [List.isChain_iff_getElem.mp hchain k hk, ih (Nat.lt_of_succ_lt hk), Nat.add_assoc]

include hchain in
/-- **The place of a height** is that of the one link of this height. -/
theorem index_eq_some {h i : Nat} :
    (new bsv links).index h = some i ↔ ∃ hi : i < links.length, links[i].height = h := by
  rw [index, new_links]
  cases hfirst : links.head? with
  | none =>
    obtain rfl := List.head?_eq_none_iff.mp hfirst
    exact ⟨fun h => absurd h (by simp), by rintro ⟨hi, -⟩; exact absurd hi (Nat.not_lt_zero i)⟩
  | some first =>
    dsimp only
    have hheight := height_getElem hchain hfirst
    constructor
    · rintro h
      split at h
      · rename_i hin
        obtain rfl := Option.some_inj.mp h
        exact ⟨hin.2, by rw [hheight _ hin.2]; omega⟩
      · exact absurd h (by simp)
    · rintro ⟨hi, rfl⟩
      rw [hheight i hi, if_pos (by omega), Nat.add_sub_cancel_left]

include hchain in
/-- No place, no link of this height. -/
theorem index_eq_none {h : Nat} :
    (new bsv links).index h = none ↔ ∀ link ∈ links, link.height ≠ h := by
  rw [Option.eq_none_iff_forall_ne_some]
  constructor
  · rintro hnone link hlink rfl
    obtain ⟨i, hi, rfl⟩ := List.mem_iff_getElem.mp hlink
    exact hnone i ((index_eq_some hchain).mpr ⟨hi, rfl⟩)
  · rintro hno i hi
    obtain ⟨hi, hheight⟩ := (index_eq_some hchain).mp hi
    exact hno _ (List.getElem_mem hi) hheight

include hchain in
/-- `Window::link_at`, as a window of consecutive heights answers it. -/
theorem linkAt_eq_some {h : Nat} {link : Link} :
    (new bsv links).linkAt h = some link ↔ link ∈ links ∧ link.height = h := by
  rw [linkAt, Option.bind_eq_some_iff, new_links]
  constructor
  · rintro ⟨i, hindex, hlink⟩
    obtain ⟨hi, rfl⟩ := (index_eq_some hchain).mp hindex
    rw [List.getElem?_eq_getElem hi, Option.some_inj] at hlink
    subst hlink
    exact ⟨List.getElem_mem hi, rfl⟩
  · rintro ⟨hlink, rfl⟩
    obtain ⟨i, hi, rfl⟩ := List.mem_iff_getElem.mp hlink
    exact ⟨i, (index_eq_some hchain).mpr ⟨hi, rfl⟩, List.getElem?_eq_getElem hi⟩

include hchain in
theorem linkAt_eq_none {h : Nat} :
    (new bsv links).linkAt h = none ↔ ∀ link ∈ links, link.height ≠ h := by
  rw [Option.eq_none_iff_forall_ne_some]
  constructor
  · rintro hnone link hlink hheight
    exact hnone link ((linkAt_eq_some hchain).mpr ⟨hlink, hheight⟩)
  · rintro hno link hlink
    obtain ⟨hlink, hheight⟩ := (linkAt_eq_some hchain).mp hlink
    exact hno link hlink hheight

include hchain in
/-- The prefix sum of a place. -/
theorem sumAt_getElem {i : Nat} (hi : i < links.length) :
    (new bsv links).sumAt links[i].height =
      some (((proofs bsv links.tail).take i).sum % workModulus) := by
  rw [sumAt, (index_eq_some hchain).mpr ⟨hi, rfl⟩, Option.bind_some]
  cases links with
  | nil => exact absurd hi (Nat.not_lt_zero i)
  | cons first links =>
    rw [new_work, PrefixSums.getElem?_sums, if_pos]
    · rfl
    · rw [proofs, List.length_map]
      exact Nat.le_of_lt_succ hi

include hchain in
theorem sumAt_eq_none {h : Nat} :
    (new bsv links).sumAt h = none ↔ ∀ link ∈ links, link.height ≠ h := by
  constructor
  · rintro hnone link hlink rfl
    obtain ⟨i, hi, rfl⟩ := List.mem_iff_getElem.mp hlink
    rw [sumAt_getElem hchain hi] at hnone
    exact absurd hnone (by simp)
  · rintro hno
    rw [sumAt, (index_eq_none hchain).mpr hno, Option.bind_none]

include hchain in
/-- **The work between two places** is the sum of the proofs of the links between. -/
theorem workBetween_getElem {i j : Nat} (hi : i < links.length) (hj : j < links.length)
    (hij : i ≤ j) : (new bsv links).workBetween links[i].height links[j].height =
      .ok (workOf bsv links links[i].height links[j].height % workModulus) := by
  have hcut : ((proofs bsv links.tail).take j).drop i =
      proofs bsv ((links.take (j + 1)).drop (i + 1)) := by
    cases links with
    | nil => exact absurd hi (Nat.not_lt_zero i)
    | cons first links =>
      rw [List.take_succ_cons, List.drop_succ_cons, List.tail_cons, proofs, proofs,
        List.map_drop, List.map_take]
  have hbetween : workOf bsv links links[i].height links[j].height =
      (((proofs bsv links.tail).take j).drop i).sum := by
    obtain ⟨first, hfirst⟩ : ∃ first, links.head? = some first := by
      cases links with
      | nil => exact absurd hi (Nat.not_lt_zero i)
      | cons first links => exact ⟨first, rfl⟩
    have hheight := height_getElem hchain hfirst
    rw [workOf, hheight i hi, hheight j hj, PrefixSums.filter_between hheight hij, hcut]
  rw [workBetween_some (sumAt_getElem hchain hi) (sumAt_getElem hchain hj), hbetween,
    PrefixSums.diff_sums (by decide) _ hij]

include hchain in
/-- `Window::work_between` answers whenever both heights are in the window, whichever is
the larger. -/
theorem workBetween_ok {first last : Nat} (hfirst : ∃ a ∈ links, a.height = first)
    (hlast : ∃ b ∈ links, b.height = last) :
    ∃ sum, (new bsv links).workBetween first last = .ok sum := by
  obtain ⟨a, ha, rfl⟩ := hfirst
  obtain ⟨b, hb, rfl⟩ := hlast
  obtain ⟨i, hi, rfl⟩ := List.mem_iff_getElem.mp ha
  obtain ⟨j, hj, rfl⟩ := List.mem_iff_getElem.mp hb
  exact ⟨_, workBetween_some (sumAt_getElem hchain hi) (sumAt_getElem hchain hj)⟩

include hchain in
/-- The error names the first of the two heights that is outside. -/
theorem workBetween_error {first last : Nat} {e : DifficultyError} :
    (new bsv links).workBetween first last = .error e ↔
      (∀ a ∈ links, a.height ≠ first) ∧ e = .missingAncestor first ∨
        (∃ a ∈ links, a.height = first) ∧ (∀ b ∈ links, b.height ≠ last) ∧
          e = .missingAncestor last := by
  by_cases hfirst : ∃ a ∈ links, a.height = first
  · by_cases hlast : ∃ b ∈ links, b.height = last
    · obtain ⟨sum, hsum⟩ := @workBetween_ok bsv _ hchain _ _ hfirst hlast
      rw [hsum]
      constructor
      · rintro h
        exact absurd h (by simp)
      · rintro (⟨hno, -⟩ | ⟨-, hno, -⟩)
        · obtain ⟨a, ha, hheight⟩ := hfirst
          exact absurd hheight (hno a ha)
        · obtain ⟨b, hb, hheight⟩ := hlast
          exact absurd hheight (hno b hb)
    · have hno : ∀ b ∈ links, b.height ≠ last := fun b hb h => hlast ⟨b, hb, h⟩
      obtain ⟨a, ha, rfl⟩ := hfirst
      obtain ⟨i, hi, rfl⟩ := List.mem_iff_getElem.mp ha
      rw [workBetween_none_right (sumAt_getElem hchain hi) ((sumAt_eq_none hchain).mpr hno)]
      constructor
      · rintro h
        exact .inr ⟨⟨_, ha, rfl⟩, hno, (Except.error.inj h).symm⟩
      · rintro (⟨hno, -⟩ | ⟨-, -, rfl⟩)
        · exact absurd rfl (hno _ ha)
        · rfl
  · have hno : ∀ a ∈ links, a.height ≠ first := fun a ha h => hfirst ⟨a, ha, h⟩
    rw [workBetween_none_left ((sumAt_eq_none hchain).mpr hno)]
    constructor
    · rintro h
      exact .inl ⟨hno, (Except.error.inj h).symm⟩
    · rintro (⟨-, rfl⟩ | ⟨h, -⟩)
      · rfl
      · exact absurd h hfirst

end Consecutive

end Window

/-- **The window's prefix sums are the chain's work.** Of a window into which links of
consecutive heights were pushed, for every two heights: a height is answered by the one
link that has it, and by none where no link has it; the work between two heights of the
window, the first not above the last, is the sum of the proofs of the links above the
first and not above the last, modulo `2 ^ 256`; and the answer is an error exactly when
one of the two heights is outside. -/
theorem window_sums (bsv : BsvRs) {links : List Link}
    (hchain : links.IsChain fun a b => b.height = a.height + 1) (first last : Nat) :
    (∀ link, (Window.new bsv links).linkAt first = some link ↔
        link ∈ links ∧ link.height = first) ∧
      ((Window.new bsv links).linkAt first = none ↔ ∀ link ∈ links, link.height ≠ first) ∧
      ((∃ a ∈ links, a.height = first) → (∃ b ∈ links, b.height = last) → first ≤ last →
        (Window.new bsv links).workBetween first last =
          .ok (Window.workOf bsv links first last % workModulus)) ∧
      ((∃ e, (Window.new bsv links).workBetween first last = .error e) ↔
        (∀ a ∈ links, a.height ≠ first) ∨ ∀ b ∈ links, b.height ≠ last) := by
  refine ⟨fun link => Window.linkAt_eq_some hchain, Window.linkAt_eq_none hchain, ?_, ?_⟩
  · rintro ⟨a, ha, rfl⟩ ⟨b, hb, rfl⟩ hle
    obtain ⟨i, hi, rfl⟩ := List.mem_iff_getElem.mp ha
    obtain ⟨j, hj, rfl⟩ := List.mem_iff_getElem.mp hb
    obtain ⟨c, hc⟩ : ∃ c, links.head? = some c := by
      rw [← Option.isSome_iff_exists, List.isSome_head?, List.ne_nil_iff_length_pos]
      omega
    have hheight := Window.height_getElem hchain hc
    rw [hheight i hi, hheight j hj] at hle
    exact Window.workBetween_getElem hchain hi hj (by omega)
  · constructor
    · rintro ⟨e, he⟩
      rcases (Window.workBetween_error hchain).mp he with ⟨hno, -⟩ | ⟨-, hno, -⟩
      · exact .inl hno
      · exact .inr hno
    · rintro hno
      by_cases hfirst : ∃ a ∈ links, a.height = first
      · rcases hno with hno | hno
        · obtain ⟨a, ha, hheight⟩ := hfirst
          exact absurd hheight (hno a ha)
        · exact ⟨_, (Window.workBetween_error hchain).mpr (.inr ⟨hfirst, hno, rfl⟩)⟩
      · exact ⟨_, (Window.workBetween_error hchain).mpr
          (.inl ⟨fun a ha h => hfirst ⟨a, ha, h⟩, rfl⟩)⟩

/-- A run of links whose proofs are half the modulus each, from height 7 on. -/
def halves : List Link := (List.range 4).map fun k => ⟨7 + k, 1296688602, 0x03000001⟩

/-- The sums of `halves` wrap at every second link, and the difference borrows. -/
theorem window_sums_halves :
    (Window.new Regtest.bsv halves).workBetween 8 9 = .ok (2 ^ 255) ∧
      (Window.new Regtest.bsv halves).work = [0, 2 ^ 255, 0, 2 ^ 255] ∧
      ∃ e, (Window.new Regtest.bsv halves).workBetween 8 11 = .error e := by
  have hchain : halves.IsChain fun a b => b.height = a.height + 1 := by decide
  refine ⟨?_, by decide +kernel, (window_sums Regtest.bsv hchain 8 11).2.2.2.mpr (.inr ?_)⟩
  · rw [(window_sums Regtest.bsv hchain 8 9).2.2.1 (by decide) (by decide) (by decide)]
    decide +kernel
  · decide

end Chaintracks

import Mathlib

/-!
# Records of one size, laid end to end

A flat file of records of one size has no delimiters: what stands where is read off
the offset alone. `Records.chunks` cuts such a file back into pieces of the size, the
last of them maybe shorter, and `Records.chunks_flatMap` says that records laid end to
end come back; `Records.slice_flatMap` is the same of one record, read at its offset.

Whether the record at offset `size * k` is the `k`-th of something is a matter of the
list alone: a sorted list of naturals that holds every number below its length is the
list of these numbers (`Records.eq_range_of_cover`).
-/

namespace Records

variable {α β : Type} {size : Nat}

/-! ### Chunks -/

/-- The pieces, with a bound on how many. -/
def cut (size : Nat) : Nat → List α → List (List α)
  | 0, _ => []
  | _ + 1, [] => []
  | n + 1, a :: as => (a :: as).take size :: cut size n ((a :: as).drop size)

/-- The pieces of `size` elements, in order; the last may be shorter. -/
def chunks (size : Nat) (bytes : List α) : List (List α) := cut size bytes.length bytes

/-- A bound that suffices does not show. -/
theorem cut_eq (hsize : 0 < size) {n m : Nat} {bytes : List α} (hn : bytes.length ≤ n)
    (hm : bytes.length ≤ m) : cut size n bytes = cut size m bytes := by
  induction n generalizing m bytes with
  | zero =>
    obtain rfl := List.length_eq_zero_iff.mp (Nat.le_zero.mp hn)
    cases m <;> rfl
  | succ n ih =>
    cases bytes with
    | nil => cases m <;> rfl
    | cons a as =>
      rw [List.length_cons] at hn hm
      obtain ⟨m, rfl⟩ : ∃ k, m = k + 1 := ⟨m - 1, by omega⟩
      rw [cut, cut, ih] <;> simp only [List.length_drop, List.length_cons] <;> omega

/-- A piece of the size in front comes first. -/
theorem chunks_append (hsize : 0 < size) {piece : List α} (hpiece : piece.length = size)
    (rest : List α) : chunks size (piece ++ rest) = piece :: chunks size rest := by
  cases piece with
  | nil => exact absurd hpiece (by simpa using hsize.ne)
  | cons a as =>
    rw [chunks, List.cons_append, List.length_cons, cut, ← List.cons_append,
      List.take_left' hpiece, List.drop_left' hpiece]
    rw [chunks, cut_eq hsize (m := rest.length) (by rw [List.length_append]; omega) le_rfl]

theorem flatten_cut (hsize : 0 < size) {n : Nat} {bytes : List α} (hn : bytes.length ≤ n) :
    (cut size n bytes).flatten = bytes := by
  induction n generalizing bytes with
  | zero =>
    obtain rfl := List.length_eq_zero_iff.mp (Nat.le_zero.mp hn)
    rfl
  | succ n ih =>
    cases bytes with
    | nil => rfl
    | cons a as =>
      have hrest : ((a :: as).drop size).length ≤ n := by
        rw [List.length_drop]
        rw [List.length_cons] at *
        omega
      rw [cut, List.flatten_cons, ih hrest, List.take_append_drop]

/-- **The pieces end to end are the whole.** -/
theorem flatten_chunks (hsize : 0 < size) {bytes : List α} :
    (chunks size bytes).flatten = bytes := flatten_cut hsize le_rfl

/-- **Records laid end to end come back as they were.** -/
theorem chunks_flatMap (hsize : 0 < size) {f : β → List α} {l : List β}
    (hf : ∀ x ∈ l, (f x).length = size) : chunks size (l.flatMap f) = l.map f := by
  induction l with
  | nil => rfl
  | cons x xs ih =>
    rw [List.flatMap_cons, chunks_append hsize (hf x List.mem_cons_self),
      ih fun y hy => hf y (List.mem_cons_of_mem _ hy), List.map_cons]

theorem length_flatMap {f : β → List α} {l : List β} (hf : ∀ x ∈ l, (f x).length = size) :
    (l.flatMap f).length = size * l.length := by
  rw [List.length_flatMap, List.map_congr_left hf, List.map_const', List.sum_replicate,
    smul_eq_mul, Nat.mul_comm]

/-- **The record of an offset.** -/
theorem slice_flatMap {f : β → List α} {l : List β} (hf : ∀ x ∈ l, (f x).length = size) {k : Nat}
    (hk : k < l.length) : ((l.flatMap f).drop (size * k)).take size = f l[k] := by
  induction l generalizing k with
  | nil => exact absurd hk (Nat.not_lt_zero k)
  | cons x xs ih =>
    have hx := hf x List.mem_cons_self
    cases k with
    | zero => rw [Nat.mul_zero, List.drop_zero, List.flatMap_cons, List.take_left' hx]; rfl
    | succ k =>
      rw [List.flatMap_cons, Nat.mul_succ, Nat.add_comm, ← List.drop_drop, List.drop_left' hx,
        ih (fun y hy => hf y (List.mem_cons_of_mem _ hy)) (Nat.lt_of_succ_lt_succ hk)]
      rfl

/-! ### Positions -/

/-- **A sorted list that holds every number below its length is these numbers.** -/
theorem eq_range_of_cover {l : List Nat} (hsorted : l.Pairwise (· ≤ ·))
    (hcover : ∀ k < l.length, k ∈ l) : l = List.range l.length := by
  have hsub : List.range l.length ⊆ l := fun k hk => hcover k (List.mem_range.mp hk)
  have hperm : (List.range l.length).Perm l :=
    (List.subperm_of_subset List.nodup_range hsub).perm_of_length_le (by rw [List.length_range])
  exact hperm.symm.eq_of_pairwise (fun a b _ _ => Nat.le_antisymm) hsorted
    (List.pairwise_le_range)

/-- A list whose every element is one above the one before it counts up from its first. -/
theorem eq_range'_of_steps {a : Nat} {l : List Nat}
    (h : (a :: l).IsChain fun x y => y = x + 1) : a :: l = List.range' a (l.length + 1) := by
  induction l generalizing a with
  | nil => rfl
  | cons b l ih =>
    rw [List.isChain_cons_cons] at h
    obtain ⟨rfl, h⟩ := h
    rw [List.length_cons, List.range'_succ, ih h]

/-- An ascending list of numbers from `a` on that holds every such number below any of its
own counts up from `a`. -/
theorem eq_range'_of_down {a : Nat} {l : List Nat} (hsorted : l.Pairwise (· < ·))
    (hfrom : ∀ x ∈ l, a ≤ x) (hdown : ∀ x ∈ l, ∀ y, a ≤ y → y < x → y ∈ l) :
    l = List.range' a l.length := by
  induction l generalizing a with
  | nil => rfl
  | cons x l ih =>
    obtain ⟨hx, hl⟩ := List.pairwise_cons.mp hsorted
    -- the first is `a`: it would otherwise stand below the first
    have hxa : x = a := by
      by_contra hne
      have hlt : a < x := Nat.lt_of_le_of_ne (hfrom x List.mem_cons_self) (Ne.symm hne)
      rcases List.mem_cons.mp (hdown x List.mem_cons_self a le_rfl hlt) with heq | hmem
      · exact hne heq.symm
      · exact absurd (hx a hmem) (Nat.not_lt.mpr hlt.le)
    subst hxa
    rw [List.length_cons, List.range'_succ, ← ih hl (fun y hy => hx y hy)]
    rintro y hy z hz hzy
    rcases List.mem_cons.mp (hdown y (List.mem_cons_of_mem _ hy) z (Nat.le_of_succ_le hz) hzy) with
      heq | hmem
    · omega
    · exact hmem

/-- Of the numbers below a bound, those of a property that goes down are an initial part. -/
theorem filter_range_of_down {p : Nat → Bool} {n : Nat}
    (hdown : ∀ i < n, p i = true → ∀ j < i, p j = true) :
    ∃ k ≤ n, (List.range n).filter p = List.range k := by
  induction n with
  | zero => exact ⟨0, le_rfl, rfl⟩
  | succ n ih =>
    rw [List.range_succ, List.filter_append, List.filter_singleton]
    by_cases hn : p n = true
    · refine ⟨n + 1, le_rfl, ?_⟩
      rw [List.filter_eq_self.mpr fun j hj =>
        hdown n (Nat.lt_succ_self n) hn j (List.mem_range.mp hj), hn, cond_true, ← List.range_succ]
    · obtain ⟨k, hk, heq⟩ := ih fun i hi => hdown i (Nat.lt_succ_of_lt hi)
      exact ⟨k, Nat.le_succ_of_le hk, by
        rw [heq, Bool.eq_false_iff.mpr hn, cond_false, List.append_nil]⟩

end Records

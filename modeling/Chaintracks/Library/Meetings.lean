import Chaintracks.Library.Forest

/-!
# Where walkers meet

Several walkers stand on nodes of a forest and each looks up its ancestors, a bounded
number of steps (`Forest.trail`). Two of them meet where their trails first have a node
in common (`Forest.meeting`). Where every parent stands one rank below its child a
trail has one node a rank, so the first node in common is the highest one, whichever of
the two trails is read (`Forest.meeting_eq_some_iff`), and it is an ancestor of both
(`Forest.mem_trail_iff`).

A program that asks whether *all* of them meet may count the meetings instead of naming
the pairs: of walkers listed in a strict order there are half as many pairs as there are
walkers times the others, and as many meetings exactly if every pair meets
(`Forest.length_pairsOf_eq_iff`).
-/

namespace Forest

variable {α β κ : Type}

/-! ### Trails -/

section Trail

variable {parent : α → Option α} {rank : α → Nat} {fuel : Nat} {x y : α}

/-- A node and the nodes above it, nearest first, at most `fuel` of them. -/
def trail (parent : α → Option α) (fuel : Nat) (x : α) : List α := x :: follow parent fuel x

theorem self_mem_trail : x ∈ trail parent fuel x := List.mem_cons_self

theorem up_of_mem_trail (h : y ∈ trail parent fuel x) : Up parent x y := by
  induction fuel generalizing x with
  | zero =>
    rw [trail, follow, List.mem_singleton] at h
    rw [h]
    exact .refl x
  | succ fuel ih =>
    rcases List.mem_cons.mp h with rfl | h
    · exact .refl y
    · rw [follow] at h
      split at h
      · rename_i z hz
        exact .head hz (ih h)
      · cases h

variable (hrank : ∀ a b, parent a = some b → rank a = rank b + 1)
include hrank

/-- **A trail is the ancestors within its steps.** -/
theorem mem_trail_iff : y ∈ trail parent fuel x ↔ Up parent x y ∧ rank x ≤ rank y + fuel := by
  constructor
  · intro h
    refine ⟨up_of_mem_trail h, ?_⟩
    induction fuel generalizing x with
    | zero =>
      rw [trail, follow, List.mem_singleton] at h
      rw [h]
      exact Nat.le_refl _
    | succ fuel ih =>
      rcases List.mem_cons.mp h with rfl | h
      · exact Nat.le_add_right _ _
      · rw [follow] at h
        split at h
        · rename_i z hz
          have := hrank _ _ hz
          have := ih h
          omega
        · cases h
  · rintro ⟨hup, hle⟩
    induction fuel generalizing x with
    | zero => exact hup.eq_of_rank_le hrank hle ▸ self_mem_trail
    | succ fuel ih =>
      rcases hup.cases_head with rfl | ⟨z, hz, hzy⟩
      · exact self_mem_trail
      · have := hrank _ _ hz
        refine List.mem_cons_of_mem _ ?_
        rw [follow, hz]
        exact ih hzy (by omega)

/-- A trail goes down rank by rank. -/
theorem trail_pairwise : (trail parent fuel x).Pairwise fun a b => rank b < rank a := by
  have hchain : (trail parent fuel x).IsChain fun a b => rank b < rank a :=
    follow_isChain (fun a b hab => by rw [hrank a b hab]; exact Nat.lt_succ_self _) fuel x
  have : IsTrans α fun a b => rank b < rank a := ⟨fun _ _ _ h h' => Nat.lt_trans h' h⟩
  exact hchain.pairwise

end Trail

/-! ### Meetings -/

section Meeting

variable [DecidableEq κ] {rank : α → Nat} {key : α → κ} {xs ys : List α} {m : α}

/-- The first node of one trail that the other has too, as far as the key tells. -/
def meeting (key : α → κ) (xs ys : List α) : Option α :=
  xs.find? fun x => ys.any fun y => key y = key x

/-- The node is on both trails, and no node above it is. -/
structure Highest (rank : α → Nat) (key : α → κ) (xs ys : List α) (m : α) : Prop where
  left : m ∈ xs
  right : ∃ y ∈ ys, key y = key m
  top : ∀ x ∈ xs, (∃ y ∈ ys, key y = key x) → rank x ≤ rank m

omit [DecidableEq κ] in
/-- A trail has one highest node in common with another. -/
theorem Highest.unique {n : α} (hxs : xs.Pairwise fun a b => rank b < rank a)
    (hm : Highest rank key xs ys m) (hn : Highest rank key xs ys n) : m = n := by
  have hnd : (xs.map rank).Nodup :=
    List.pairwise_map.mpr (hxs.imp fun h => (Nat.ne_of_lt h).symm)
  exact List.inj_on_of_nodup_map hnd hm.left hn.left
    (Nat.le_antisymm (hn.top m hm.left hm.right) (hm.top n hn.left hn.right))

theorem meeting_eq_none_iff : meeting key xs ys = none ↔ ∀ x ∈ xs, ∀ y ∈ ys, key y ≠ key x := by
  simp [meeting, List.find?_eq_none]

/-- **Two trails meet at the highest node they have in common.** -/
theorem meeting_eq_some_iff (hxs : xs.Pairwise fun a b => rank b < rank a) :
    meeting key xs ys = some m ↔ Highest rank key xs ys m := by
  have hsound : ∀ {n : α}, meeting key xs ys = some n → Highest rank key xs ys n := by
    intro n hn
    rw [meeting, List.find?_eq_some_iff_append] at hn
    obtain ⟨hy, as, bs, rfl, has⟩ := hn
    rw [List.pairwise_append, List.pairwise_cons] at hxs
    refine ⟨by simp, by simpa using hy, ?_⟩
    rintro x hx ⟨y, hy, hkey⟩
    rcases List.mem_append.mp hx with hx | hx
    · -- a node before the first one in common is on one trail only
      have hnone : ∀ y ∈ ys, ¬key y = key x := by simpa using has x hx
      exact absurd hkey (hnone y hy)
    · rcases List.mem_cons.mp hx with rfl | hx
      · exact Nat.le_refl _
      · exact Nat.le_of_lt (hxs.2.1.1 x hx)
  refine ⟨hsound, fun hm => ?_⟩
  cases hn : meeting key xs ys with
  | none =>
    obtain ⟨y, hy, hkey⟩ := hm.right
    exact absurd hkey (meeting_eq_none_iff.mp hn m hm.left y hy)
  | some n => rw [(hsound hn).unique hxs hm]

end Meeting

/-! ### Counting the meetings -/

section Pairs

variable (lt : α → α → Bool) (f : α → α → Option β)

/-- What the pairs of a list give, each pair in order. -/
def pairsOf (xs zs : List α) : List β :=
  xs.flatMap fun x => zs.filterMap fun z => if lt x z then f x z else none

variable {lt f} {xs zs : List α} {b : β}

theorem mem_pairsOf : b ∈ pairsOf lt f xs zs ↔
    ∃ x ∈ xs, ∃ z ∈ zs, lt x z = true ∧ f x z = some b := by
  simp [pairsOf, List.mem_flatMap, List.mem_filterMap]

/-- An element below none of a list adds nothing as the upper of a pair. -/
theorem pairsOf_cons_right {z : α} (h : ∀ x ∈ xs, lt x z = false) :
    pairsOf lt f xs (z :: zs) = pairsOf lt f xs zs := by
  refine List.flatMap_congr fun x hx => ?_
  rw [List.filterMap_cons, h x hx]
  rfl

/-- **As many pairs as there can be: every pair gives something.** -/
theorem length_pairsOf (hxs : xs.Pairwise fun x z => lt x z = true)
    (hasymm : ∀ x z, lt x z = true → lt z x = false) (hirrefl : ∀ x, lt x x = false) :
    (pairsOf lt f xs xs).length ≤ xs.length * (xs.length - 1) / 2 ∧
      ((pairsOf lt f xs xs).length = xs.length * (xs.length - 1) / 2 ↔
        ∀ x ∈ xs, ∀ z ∈ xs, lt x z = true → (f x z).isSome = true) := by
  induction xs with
  | nil => simp [pairsOf]
  | cons x xs ih =>
    obtain ⟨hx, hxs⟩ := List.pairwise_cons.mp hxs
    obtain ⟨hle, heq⟩ := ih hxs
    -- the pairs of the head, each with an element after it, and the pairs among these
    have hlen : (pairsOf lt f (x :: xs) (x :: xs)).length =
        (xs.filterMap (f x)).length + (pairsOf lt f xs xs).length := by
      have hhead : ((x :: xs).filterMap fun z => if lt x z then f x z else none) =
          xs.filterMap (f x) := by
        rw [List.filterMap_cons, hirrefl x]
        exact List.filterMap_congr fun z hz => if_pos (hx z hz)
      have htail : pairsOf lt f xs (x :: xs) = pairsOf lt f xs xs :=
        pairsOf_cons_right fun z hz => hasymm x z (hx z hz)
      rw [pairsOf, List.flatMap_cons, List.length_append, hhead]
      exact congrArg (fun l => _ + List.length l) htail
    have hfirst : (xs.filterMap (f x)).length ≤ xs.length := List.length_filterMap_le _ _
    have hall : (xs.filterMap (f x)).length = xs.length ↔ ∀ z ∈ xs, (f x z).isSome = true :=
      List.filterMap_length_eq_length
    have hnum : (xs.length + 1) * (xs.length + 1 - 1) / 2 =
        xs.length * (xs.length - 1) / 2 + xs.length := Nat.triangle_succ xs.length
    rw [hlen, List.length_cons, hnum]
    refine ⟨by omega, ?_⟩
    constructor
    · intro h
      have hrest := heq.mp (by omega)
      have hown := hall.mp (by omega)
      intro a ha z hz hlt
      rcases List.mem_cons.mp ha with rfl | ha'
      · rcases List.mem_cons.mp hz with rfl | hz'
        · rw [hirrefl] at hlt
          cases hlt
        · exact hown z hz'
      · rcases List.mem_cons.mp hz with rfl | hz'
        · rw [hasymm _ _ (hx a ha')] at hlt
          cases hlt
        · exact hrest a ha' z hz' hlt
    · intro h
      have hown := hall.mpr fun z hz =>
        h x List.mem_cons_self z (List.mem_cons_of_mem _ hz) (hx z hz)
      have hrest := heq.mpr fun a ha z hz hlt =>
        h a (List.mem_cons_of_mem _ ha) z (List.mem_cons_of_mem _ hz) hlt
      omega

end Pairs

end Forest

import Mathlib

/-!
# Walks up a forest

A forest is a partial parent map. Two things are done with one: a walk from a node
upwards for a bounded number of steps (`Forest.follow`), and the search for the node
two nodes first have in common (`Forest.meet`), which steps the lower of the two, or
both where they stand at one rank.

Where every parent stands one rank below its child the ancestors of a node are a chain
with one node a rank (`Forest.Up.eq_of_rank`), and the search is exact: what it answers
is an ancestor of both (`Forest.meet_some`), no other common ancestor is nearer
(`Forest.meet_nearest`), and one within its budget of steps is found
(`Forest.meet_complete`).

The search compares nodes by a key, since programs hold copies of the nodes rather
than the nodes themselves.
-/

namespace Forest

variable {α κ : Type}

/-! ### The bounded walk -/

/-- The nodes above `x`, nearest first, at most `fuel` of them. -/
def follow (parent : α → Option α) : Nat → α → List α
  | 0, _ => []
  | fuel + 1, x =>
    match parent x with
    | some y => y :: follow parent fuel y
    | none => []

section Follow

variable {parent : α → Option α}

theorem follow_length_le (fuel : Nat) (x : α) : (follow parent fuel x).length ≤ fuel := by
  induction fuel generalizing x with
  | zero => exact Nat.le_refl 0
  | succ fuel ih =>
    rw [follow]
    split
    · exact Nat.succ_le_succ (ih _)
    · exact Nat.zero_le _

/-- A walk is a chain of whatever holds from each node to its parent. -/
theorem follow_isChain {R : α → α → Prop} (hR : ∀ a b, parent a = some b → R a b) (fuel : Nat)
    (x : α) : (x :: follow parent fuel x).IsChain R := by
  induction fuel generalizing x with
  | zero => exact List.isChain_singleton x
  | succ fuel ih =>
    rw [follow]
    split
    · rename_i y hy
      exact List.IsChain.cons_cons (hR x y hy) (ih y)
    · exact List.isChain_singleton x

/-- A walk along a line of parents is the line, as far as its steps go and it does. -/
theorem follow_eq_take {fuel : Nat} {x : α} {line : List α}
    (hline : (x :: line).IsChain fun a b => parent a = some b)
    (hend : line.length < fuel → ∀ last ∈ (x :: line).getLast?, parent last = none) :
    follow parent fuel x = line.take fuel := by
  induction fuel generalizing x line with
  | zero => rfl
  | succ fuel ih =>
    cases line with
    | nil =>
      have hnone : parent x = none := hend (Nat.succ_pos fuel) x rfl
      rw [follow, hnone]
      rfl
    | cons y line =>
      obtain ⟨hxy, hline'⟩ := List.isChain_cons_cons.mp hline
      rw [follow, hxy, List.take_succ_cons]
      refine congrArg (y :: ·) (ih hline' fun hlt last hlast => ?_)
      refine hend (Nat.succ_lt_succ hlt) last ?_
      rwa [List.getLast?_cons_cons]

/-- A set closed under parents holds the whole walk. -/
theorem follow_forall {P : α → Prop} (hP : ∀ a b, parent a = some b → P b) (fuel : Nat) (x : α) :
    ∀ y ∈ follow parent fuel x, P y := by
  induction fuel generalizing x with
  | zero => intro y hy; cases hy
  | succ fuel ih =>
    rw [follow]
    split
    · rename_i z hz
      intro y hy
      rcases List.mem_cons.mp hy with rfl | hy
      · exact hP x y hz
      · exact ih z y hy
    · intro y hy
      cases hy

end Follow

/-! ### Ancestry -/

section Up

variable {parent : α → Option α} {rank : α → Nat} {x y z : α}

/-- `y` is `x` or an ancestor of it. -/
def Up (parent : α → Option α) (x y : α) : Prop :=
  Relation.ReflTransGen (fun a b => parent a = some b) x y

theorem Up.refl (x : α) : Up parent x x := Relation.ReflTransGen.refl

theorem Up.trans (h : Up parent x y) (h' : Up parent y z) : Up parent x z :=
  Relation.ReflTransGen.trans h h'

theorem Up.head (h : parent x = some y) (h' : Up parent y z) : Up parent x z :=
  Relation.ReflTransGen.head h h'

/-- An ancestor is the node itself, or an ancestor of its parent. -/
theorem Up.cases_head (h : Up parent x z) : x = z ∨ ∃ y, parent x = some y ∧ Up parent y z :=
  Relation.ReflTransGen.cases_head h

/-- A set closed under parents holds the ancestors of its nodes. -/
theorem Up.closed {P : α → Prop} (h : Up parent x y) (hP : ∀ a b, P a → parent a = some b → P b)
    (hx : P x) : P y := by
  induction h with
  | refl => exact hx
  | tail _ hab ih => exact hP _ _ ih hab

/-- Of two ancestors of a node one is an ancestor of the other. -/
theorem Up.linear (h : Up parent x y) (h' : Up parent x z) : Up parent y z ∨ Up parent z y := by
  refine Relation.ReflTransGen.total_of_right_unique ?_ h h'
  intro a b c hab hac
  exact Option.some_inj.mp (hab.symm.trans hac)

/-- A proper ancestor is an ancestor of the parent. -/
theorem Up.of_ne (h : Up parent x z) (hne : x ≠ z) : ∃ y, parent x = some y ∧ Up parent y z :=
  h.cases_head.resolve_left hne

variable (hrank : ∀ a b, parent a = some b → rank a = rank b + 1)
include hrank

theorem Up.rank_le (h : Up parent x y) : rank y ≤ rank x := by
  induction h with
  | refl => exact Nat.le_refl _
  | tail _ hab ih =>
    have := hrank _ _ hab
    omega

/-- An ancestor at the rank of the node is the node. -/
theorem Up.eq_of_rank_le (h : Up parent x y) (hle : rank x ≤ rank y) : x = y := by
  rcases h.cases_head with rfl | ⟨z, hz, hzy⟩
  · rfl
  · have := hrank _ _ hz
    have := hzy.rank_le hrank
    omega

/-- The ancestors of a node have one node a rank. -/
theorem Up.eq_of_rank (h : Up parent x y) (h' : Up parent x z) (heq : rank y = rank z) :
    y = z := by
  rcases h.linear h' with hyz | hzy
  · exact hyz.eq_of_rank_le hrank (by omega)
  · exact (hzy.eq_of_rank_le hrank (by omega)).symm

/-- A common ancestor of two nodes is one of the pair the search goes on with. -/
theorem Up.next_pair {a b d : α} (hne : a ≠ b) (ha : Up parent a d) (hb : Up parent b d) :
    (rank b < rank a → ∃ a', parent a = some a' ∧ Up parent a' d) ∧
      (rank a < rank b → ∃ b', parent b = some b' ∧ Up parent b' d) ∧
      (rank a = rank b → ∃ a' b', parent a = some a' ∧ parent b = some b' ∧
        Up parent a' d ∧ Up parent b' d) := by
  have hra := ha.rank_le hrank
  have hrb := hb.rank_le hrank
  have happ : ∀ {x y : α}, rank y < rank x → x ≠ y := fun hlt he => by
    rw [he] at hlt
    exact Nat.lt_irrefl _ hlt
  refine ⟨fun hlt => ha.of_ne (happ (by omega)), fun hlt => hb.of_ne (happ (by omega)), ?_⟩
  intro heq
  have hlt : rank d < rank a := by
    by_contra hge
    have had := ha.eq_of_rank_le hrank (by omega)
    have hbd := hb.eq_of_rank_le hrank (by omega)
    exact hne (had.trans hbd.symm)
  obtain ⟨a', ha', hup⟩ := ha.of_ne (happ hlt)
  obtain ⟨b', hb', hup'⟩ := hb.of_ne (happ (heq ▸ hlt))
  exact ⟨a', b', ha', hb', hup, hup'⟩

end Up

/-! ### The search for a common ancestor -/

section Meet

variable [DecidableEq κ] (parent : α → Option α) (rank : α → Nat) (key : α → κ)

/-- The first node two nodes have in common: the higher-ranked of the two steps up, or
both where they stand at one rank, at most `fuel` times. -/
def meet : Nat → Option α → Option α → Option α
  | fuel, some a, some b =>
    if key a = key b then some a
    else match fuel with
      | 0 => none
      | fuel + 1 =>
        if rank a > rank b then meet fuel (parent a) (some b)
        else if rank a < rank b then meet fuel (some a) (parent b)
        else meet fuel (parent a) (parent b)
  | _, _, _ => none

variable {parent rank key} {fuel : Nat} {a b c d : α}

theorem meet_none_left (fuel : Nat) (b : Option α) : meet parent rank key fuel none b = none := by
  cases fuel <;> rfl

theorem meet_none_right (fuel : Nat) (a : Option α) : meet parent rank key fuel a none = none := by
  cases fuel <;> cases a <;> rfl

/-- What the search answers is an ancestor of both, as far as the key tells. -/
theorem meet_some (h : meet parent rank key fuel (some a) (some b) = some c) :
    Up parent a c ∧ ∃ c', Up parent b c' ∧ key c = key c' := by
  induction fuel generalizing a b with
  | zero =>
    unfold meet at h
    split at h
    · rename_i heq
      cases h
      exact ⟨.refl _, b, .refl _, heq⟩
    · cases h
  | succ fuel ih =>
    unfold meet at h
    split at h
    · rename_i heq
      cases h
      exact ⟨.refl _, b, .refl _, heq⟩
    · -- the steps of the three cases end where a node has no parent
      dsimp only at h
      split at h
      · cases ha : parent a with
        | none => rw [ha, meet_none_left] at h; cases h
        | some a' =>
          rw [ha] at h
          obtain ⟨hac, hb⟩ := ih h
          exact ⟨.head ha hac, hb⟩
      · split at h
        · cases hb : parent b with
          | none => rw [hb, meet_none_right] at h; cases h
          | some b' =>
            rw [hb] at h
            obtain ⟨hac, c', hbc, hkey⟩ := ih h
            exact ⟨hac, c', .head hb hbc, hkey⟩
        · cases ha : parent a with
          | none => rw [ha, meet_none_left] at h; cases h
          | some a' =>
            cases hb : parent b with
            | none => rw [hb, meet_none_right] at h; cases h
            | some b' =>
              rw [ha, hb] at h
              obtain ⟨hac, c', hbc, hkey⟩ := ih h
              exact ⟨.head ha hac, c', .head hb hbc, hkey⟩

variable (hrank : ∀ a b, parent a = some b → rank a = rank b + 1)
include hrank

/-- **No common ancestor stands below the one the search answers.** -/
theorem meet_nearest (h : meet parent rank key fuel (some a) (some b) = some c)
    (ha : Up parent a d) (hb : Up parent b d) : rank d ≤ rank c := by
  induction fuel generalizing a b with
  | zero =>
    unfold meet at h
    split at h
    · cases h
      exact ha.rank_le hrank
    · cases h
  | succ fuel ih =>
    unfold meet at h
    split at h
    · cases h
      exact ha.rank_le hrank
    · rename_i hne
      obtain ⟨hleft, hright, hboth⟩ := Up.next_pair hrank (fun he => hne (congrArg key he)) ha hb
      dsimp only at h
      split at h
      · rename_i hgt
        obtain ⟨a', ha', hup⟩ := hleft hgt
        rw [ha'] at h
        exact ih h hup hb
      · split at h
        · rename_i hlt
          obtain ⟨b', hb', hup⟩ := hright hlt
          rw [hb'] at h
          exact ih h ha hup
        · obtain ⟨a', b', ha', hb', hup, hup'⟩ := hboth (by omega)
          rw [ha', hb'] at h
          exact ih h hup hup'

/-- The search goes no further up than it has steps. -/
theorem meet_within (h : meet parent rank key fuel (some a) (some b) = some c) :
    rank a ≤ rank c + fuel ∧ ∃ c', Up parent b c' ∧ key c = key c' ∧ rank b ≤ rank c' + fuel := by
  induction fuel generalizing a b with
  | zero =>
    unfold meet at h
    split at h
    · rename_i heq
      cases h
      exact ⟨Nat.le_refl _, b, .refl _, heq, Nat.le_refl _⟩
    · cases h
  | succ fuel ih =>
    unfold meet at h
    split at h
    · rename_i heq
      cases h
      exact ⟨Nat.le_add_right _ _, b, .refl _, heq, Nat.le_add_right _ _⟩
    · dsimp only at h
      split at h
      · cases ha : parent a with
        | none => rw [ha, meet_none_left] at h; cases h
        | some a' =>
          have := hrank _ _ ha
          rw [ha] at h
          obtain ⟨hac, c', hbc, hkey, hle⟩ := ih h
          exact ⟨by omega, c', hbc, hkey, by omega⟩
      · split at h
        · cases hb : parent b with
          | none => rw [hb, meet_none_right] at h; cases h
          | some b' =>
            have := hrank _ _ hb
            rw [hb] at h
            obtain ⟨hac, c', hbc, hkey, hle⟩ := ih h
            exact ⟨by omega, c', .head hb hbc, hkey, by omega⟩
        · cases ha : parent a with
          | none => rw [ha, meet_none_left] at h; cases h
          | some a' =>
            cases hb : parent b with
            | none => rw [hb, meet_none_right] at h; cases h
            | some b' =>
              have := hrank _ _ ha
              have := hrank _ _ hb
              rw [ha, hb] at h
              obtain ⟨hac, c', hbc, hkey, hle⟩ := ih h
              exact ⟨by omega, c', .head hb hbc, hkey, by omega⟩

/-- **A common ancestor within the budget of steps is found.** -/
theorem meet_complete (ha : Up parent a d) (hb : Up parent b d) (hfa : rank a ≤ rank d + fuel)
    (hfb : rank b ≤ rank d + fuel) :
    ∃ c, meet parent rank key fuel (some a) (some b) = some c := by
  induction fuel generalizing a b with
  | zero =>
    have had := ha.eq_of_rank_le hrank (by omega)
    have hbd := hb.eq_of_rank_le hrank (by omega)
    refine ⟨a, ?_⟩
    unfold meet
    rw [if_pos (by rw [had, hbd])]
  | succ fuel ih =>
    unfold meet
    split
    · exact ⟨a, rfl⟩
    · rename_i hne
      obtain ⟨hleft, hright, hboth⟩ := Up.next_pair hrank (fun he => hne (congrArg key he)) ha hb
      have hra := ha.rank_le hrank
      have hrb := hb.rank_le hrank
      dsimp only
      split
      · rename_i hgt
        obtain ⟨a', ha', hup⟩ := hleft hgt
        have := hrank _ _ ha'
        rw [ha']
        exact ih hup hb (by omega) (by omega)
      · split
        · rename_i hlt
          obtain ⟨b', hb', hup⟩ := hright hlt
          have := hrank _ _ hb'
          rw [hb']
          exact ih ha hup (by omega) (by omega)
        · obtain ⟨a', b', ha', hb', hup, hup'⟩ := hboth (by omega)
          have := hrank _ _ ha'
          have := hrank _ _ hb'
          rw [ha', hb']
          exact ih hup hup' (by omega) (by omega)

end Meet

end Forest

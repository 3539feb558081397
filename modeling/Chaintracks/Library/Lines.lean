import Chaintracks.Library.Forest

/-!
# Lines of ancestors

Between a node of a forest and one of its ancestors there is one line of parents, and the
nodes of the line are exactly those that lie between (`Forest.Line.mem_iff`). The search
for a common ancestor, with its budget of steps, answers the lowest one exactly where the
lines from both nodes down to it fit the budget (`Forest.meet_eq_some_iff`).

The last part is on walks made in two phases. A walk that may stop early and is then
continued by another goes as far as one walk that never stops early
(`Forest.follow_append`), and two walks that agree as long as they run agree
(`Forest.follow_congr`).
-/

namespace Forest

variable {α κ : Type} {parent : α → Option α} {rank : α → Nat} {a b c d x y : α}

/-! ### The line down to an ancestor -/

/-- The nodes from `x` down to its ancestor `c`, which is not one of them. -/
def Line (parent : α → Option α) (x c : α) (line : List α) : Prop :=
  (line ++ [c]).IsChain (fun a b => parent a = some b) ∧ (line ++ [c]).head? = some x

theorem Line.nil (c : α) : Line parent c c [] := ⟨List.isChain_singleton c, rfl⟩

theorem Line.cons {line : List α} (hp : parent x = some y) (h : Line parent y c line) :
    Line parent x c (x :: line) := by
  refine ⟨List.isChain_cons.mpr ⟨?_, h.1⟩, rfl⟩
  rintro z hz
  change z ∈ (line ++ [c]).head? at hz
  rw [h.2, Option.mem_def, Option.some_inj] at hz
  rw [← hz, hp]

/-- **A line leads down to every ancestor.** -/
theorem Up.exists_line (h : Up parent x c) : ∃ line, Line parent x c line := by
  induction h using Relation.ReflTransGen.head_induction_on with
  | refl => exact ⟨[], .nil c⟩
  | head hab _ ih =>
    obtain ⟨line, hline⟩ := ih
    exact ⟨_, hline.cons hab⟩

/-- What a line begins with, and how it goes on. -/
theorem Line.cases {line : List α} (h : Line parent x c line) :
    line = [] ∧ x = c ∨ ∃ y rest, line = x :: rest ∧ parent x = some y ∧ Line parent y c rest := by
  obtain ⟨hchain, hhead⟩ := h
  cases line with
  | nil => exact .inl ⟨rfl, (Option.some_inj.mp hhead).symm⟩
  | cons z rest =>
    obtain rfl := Option.some_inj.mp hhead
    rw [List.cons_append, List.isChain_cons] at hchain
    cases hrest : (rest ++ [c]).head? with
    | none => exact absurd (List.head?_eq_none_iff.mp hrest) (by simp)
    | some y => exact .inr ⟨y, rest, rfl, hchain.1 y hrest, hchain.2, hrest⟩

/-- The ancestor at the end of a line is one. -/
theorem Line.up {line : List α} (h : Line parent x c line) : Up parent x c := by
  induction line generalizing x with
  | nil =>
    rcases h.cases with ⟨-, rfl⟩ | ⟨y, rest, hnil, -⟩
    · exact .refl _
    · exact absurd hnil (by simp)
  | cons z line ih =>
    rcases h.cases with ⟨hnil, -⟩ | ⟨y, rest, heq, hp, hrest⟩
    · exact absurd hnil (by simp)
    · obtain ⟨-, rfl⟩ := List.cons.inj heq
      exact .head hp (ih hrest)

section Ranked

variable (hrank : ∀ a b, parent a = some b → rank a = rank b + 1)
include hrank

/-- A line is as long as it is high. -/
theorem Line.rank_eq {line : List α} (h : Line parent x c line) :
    rank x = rank c + line.length := by
  induction line generalizing x with
  | nil =>
    rcases h.cases with ⟨-, rfl⟩ | ⟨y, rest, hnil, -⟩
    · rfl
    · exact absurd hnil (by simp)
  | cons z line ih =>
    rcases h.cases with ⟨hnil, -⟩ | ⟨y, rest, heq, hp, hrest⟩
    · exact absurd hnil (by simp)
    · obtain ⟨-, rfl⟩ := List.cons.inj heq
      rw [hrank x y hp, ih hrest, List.length_cons]
      omega

/-- **The nodes of a line are those between**: the ancestors of its beginning that the end
is a proper ancestor of. -/
theorem Line.mem_iff {line : List α} (h : Line parent x c line) :
    y ∈ line ↔ Up parent x y ∧ Up parent y c ∧ y ≠ c := by
  induction line generalizing x with
  | nil =>
    rcases h.cases with ⟨-, rfl⟩ | ⟨z, rest, hnil, -⟩
    · constructor
      · rintro hy
        exact absurd hy List.not_mem_nil
      · rintro ⟨hxy, hyc, hne⟩
        refine absurd ?_ hne
        exact (hxy.eq_of_rank_le hrank (hyc.rank_le hrank)).symm
    · exact absurd hnil (by simp)
  | cons z line ih =>
    rcases h.cases with ⟨hnil, -⟩ | ⟨z', rest, heq, hp, hrest⟩
    · exact absurd hnil (by simp)
    · obtain ⟨rfl, rfl⟩ := List.cons.inj heq
      have hxc := h.rank_eq hrank
      rw [List.mem_cons, ih hrest]
      constructor
      · rintro (rfl | ⟨hzy, hyc, hne⟩)
        · refine ⟨.refl _, h.up, ?_⟩
          rintro rfl
          rw [List.length_cons] at hxc
          omega
        · exact ⟨.head hp hzy, hyc, hne⟩
      · rintro ⟨hxy, hyc, hne⟩
        rcases hxy.cases_head with rfl | ⟨z', hz', hup⟩
        · exact .inl rfl
        · obtain rfl := Option.some_inj.mp (hp.symm.trans hz')
          exact .inr ⟨hup, hyc, hne⟩

/-- No node stands twice on a line. -/
theorem Line.nodup {line : List α} (h : Line parent x c line) : line.Nodup := by
  induction line generalizing x with
  | nil => exact List.nodup_nil
  | cons z line ih =>
    rcases h.cases with ⟨hnil, -⟩ | ⟨y, rest, heq, hp, hrest⟩
    · exact absurd hnil (by simp)
    · obtain ⟨rfl, rfl⟩ := List.cons.inj heq
      refine List.nodup_cons.mpr ⟨?_, ih hrest⟩
      rintro hmem
      have hle := ((hrest.mem_iff hrank).mp hmem).1.rank_le hrank
      have := hrank _ y hp
      omega

/-! ### The lowest common ancestor -/

omit hrank in
/-- `c` is an ancestor of both, and every ancestor of both is one of it. -/
def LowestCommon (parent : α → Option α) (a b c : α) : Prop :=
  Up parent a c ∧ Up parent b c ∧ ∀ d, Up parent a d → Up parent b d → Up parent c d

/-- Two nodes have one lowest common ancestor at most. -/
theorem LowestCommon.unique (h : LowestCommon parent a b c) (h' : LowestCommon parent a b d) :
    c = d :=
  (h.2.2 d h'.1 h'.2.1).eq_of_rank_le hrank ((h'.2.2 c h.1 h.2.1).rank_le hrank)

variable [DecidableEq κ] {key : α → κ} {fuel : Nat}

/-- **The search is exact**: where the key tells the ancestors of the two nodes apart, it
answers the lowest common ancestor, if both nodes stand within its budget of it. -/
theorem meet_eq_some_iff
    (hkey : ∀ c c', Up parent a c → Up parent b c' → key c = key c' → c = c') :
    meet parent rank key fuel (some a) (some b) = some c ↔
      LowestCommon parent a b c ∧ rank a ≤ rank c + fuel ∧ rank b ≤ rank c + fuel := by
  have hanswer : ∀ c, meet parent rank key fuel (some a) (some b) = some c →
      LowestCommon parent a b c ∧ rank a ≤ rank c + fuel ∧ rank b ≤ rank c + fuel := by
    rintro c h
    obtain ⟨hac, -⟩ := meet_some h
    obtain ⟨hfa, c', hbc, hc, hfb⟩ := meet_within hrank h
    obtain rfl := hkey c c' hac hbc hc
    refine ⟨⟨hac, hbc, fun d hda hdb => ?_⟩, hfa, hfb⟩
    rcases hac.linear hda with hcd | hdc
    · exact hcd
    · rw [hdc.eq_of_rank_le hrank (meet_nearest hrank h hda hdb)]
      exact .refl _
  constructor
  · exact hanswer c
  · rintro ⟨hlow, hfa, hfb⟩
    obtain ⟨d, hd⟩ := @meet_complete _ _ _ _ _ key _ _ _ _ hrank hlow.1 hlow.2.1 hfa hfb
    rw [hd, (hanswer d hd).1.unique hrank hlow]

end Ranked

/-! ### Walks in two phases -/

/-- **A walk continued**: where one step function answers only what another does, its walk
is the beginning of the other's, which goes on from where the first stopped. -/
theorem follow_append {f g : α → Option α} {P : α → Prop}
    (hfg : ∀ a b, P a → f a = some b → g a = some b ∧ P b) (fuel : Nat) (hx : P x) :
    follow g fuel x = follow f fuel x ++
      follow g (fuel - (follow f fuel x).length) ((follow f fuel x).getLast?.getD x) := by
  induction fuel generalizing x with
  | zero => rfl
  | succ fuel ih =>
    cases hf : f x with
    | none =>
      have hstop : follow f (fuel + 1) x = [] := by rw [follow, hf]
      rw [hstop]
      rfl
    | some y =>
      obtain ⟨hg, hy⟩ := hfg x y hx hf
      have hstep : follow f (fuel + 1) x = y :: follow f fuel y := by rw [follow, hf]
      have hstep' : follow g (fuel + 1) x = y :: follow g fuel y := by rw [follow, hg]
      rw [hstep', hstep, List.length_cons, List.getLast?_cons, Nat.add_sub_add_right,
        Option.getD_some, List.cons_append, ← ih hy]

/-- Where a walk stands at its end, it has kept what its steps keep. -/
theorem follow_last {f : α → Option α} {P : α → Prop} (hP : ∀ a b, P a → f a = some b → P b)
    (fuel : Nat) (hx : P x) : P ((follow f fuel x).getLast?.getD x) := by
  induction fuel generalizing x with
  | zero => exact hx
  | succ fuel ih =>
    cases hf : f x with
    | none =>
      have hstop : follow f (fuel + 1) x = [] := by rw [follow, hf]
      rw [hstop]
      exact hx
    | some y =>
      have hstep : follow f (fuel + 1) x = y :: follow f fuel y := by rw [follow, hf]
      rw [hstep, List.getLast?_cons, Option.getD_some]
      exact ih (hP x y hx hf)

/-- Two walks that agree as long as they run are one. -/
theorem follow_congr {f g : α → Option α} {P : Nat → α → Prop}
    (hfg : ∀ fuel a, P (fuel + 1) a → f a = g a)
    (hstep : ∀ fuel a b, P (fuel + 1) a → g a = some b → P fuel b) {fuel : Nat} (hx : P fuel x) :
    follow f fuel x = follow g fuel x := by
  induction fuel generalizing x with
  | zero => rfl
  | succ fuel ih =>
    rw [follow, follow, hfg fuel x hx]
    cases hg : g x with
    | none => rfl
    | some y => exact congrArg (y :: ·) (ih (hstep fuel x y hx hg))

/-- A walk that ends before its steps do has come to a node without a parent. -/
theorem follow_stops {f : α → Option α} {fuel : Nat} (h : (follow f fuel x).length < fuel) :
    f ((follow f fuel x).getLast?.getD x) = none := by
  induction fuel generalizing x with
  | zero => exact absurd h (Nat.not_lt_zero _)
  | succ fuel ih =>
    cases hf : f x with
    | none =>
      have hstop : follow f (fuel + 1) x = [] := by rw [follow, hf]
      rw [hstop]
      exact hf
    | some y =>
      have hstep : follow f (fuel + 1) x = y :: follow f fuel y := by rw [follow, hf]
      rw [hstep, List.length_cons] at h
      rw [hstep, List.getLast?_cons, Option.getD_some]
      exact ih (Nat.lt_of_succ_lt_succ h)

end Forest

import Mathlib

/-!
# Agents over a shared state

Any number of agents act on one shared state, one step at a time and in any order: the
isolates of a service on its database, with posts under way between them. Each agent
has a state of its own, what it has read and where it stands in its program, and
something outside of all of them may change the shared state too.

An invariant of such a system has two parts: what holds of the shared state, and what an
agent knows of it while the others go on. The second must survive the others' steps, and
the one question worth asking of those is what they can do at all. `Agents.Inductive`
packs the three: the shared invariant, the agent's knowledge, and the relation that every
step stays within and that no agent's knowledge minds.
-/

namespace Agents

variable {σ α : Type}

/-- The shared state and the agents, by number. -/
structure Config (σ α : Type) where
  shared : σ
  agent : Nat → α

/-- One step: an agent acts, or the outside does. -/
inductive Step (act : σ → α → σ → α → Prop) (outside : σ → σ → Prop) :
    Config σ α → Config σ α → Prop
  | act (c : Config σ α) (i : Nat) {s : σ} {a : α} (h : act c.shared (c.agent i) s a) :
      Step act outside c ⟨s, Function.update c.agent i a⟩
  | outside (c : Config σ α) {s : σ} (h : outside c.shared s) : Step act outside c ⟨s, c.agent⟩

/-- A run: steps in any order. -/
def Runs (act : σ → α → σ → α → Prop) (outside : σ → σ → Prop) :
    Config σ α → Config σ α → Prop :=
  Relation.ReflTransGen (Step act outside)

/-- **An inductive invariant**: `S` of the shared state, `K` an agent's knowledge of it,
`R` what a step can do to it. -/
structure Inductive (act : σ → α → σ → α → Prop) (outside : σ → σ → Prop) (S : σ → Prop)
    (K : σ → α → Prop) (R : σ → σ → Prop) : Prop where
  acts : ∀ {s a s' a'}, S s → K s a → act s a s' a' → S s' ∧ K s' a' ∧ R s s'
  outsides : ∀ {s s'}, S s → outside s s' → S s' ∧ R s s'
  stable : ∀ {s s' a}, S s → R s s' → K s a → K s' a

section Rules

variable {act : σ → α → σ → α → Prop} {outside : σ → σ → Prop} {S : σ → Prop} {K : σ → α → Prop}
  {R : σ → σ → Prop} {c c' : Config σ α}

/-- The invariant holds of a configuration. -/
def Holds (S : σ → Prop) (K : σ → α → Prop) (c : Config σ α) : Prop :=
  S c.shared ∧ ∀ i, K c.shared (c.agent i)

/-- **One step keeps the invariant**, and stays within the relation. -/
theorem Inductive.step (hI : Inductive act outside S K R) (h : Step act outside c c')
    (hc : Holds S K c) : Holds S K c' ∧ R c.shared c'.shared := by
  obtain ⟨hS, hK⟩ := hc
  cases h with
  | act i h =>
    obtain ⟨hS', hKi, hR⟩ := hI.acts hS (hK i) h
    refine ⟨⟨hS', fun j => ?_⟩, hR⟩
    dsimp only
    by_cases hj : j = i
    · rw [hj, Function.update_self]
      exact hKi
    · rw [Function.update_of_ne hj]
      exact hI.stable hS hR (hK j)
  | outside h =>
    obtain ⟨hS', hR⟩ := hI.outsides hS h
    exact ⟨⟨hS', fun j => hI.stable hS hR (hK j)⟩, hR⟩

/-- **Every run keeps the invariant.** -/
theorem Inductive.runs (hI : Inductive act outside S K R) (h : Runs act outside c c')
    (hc : Holds S K c) : Holds S K c' := by
  induction h with
  | refl => exact hc
  | tail _ hs ih => exact (hI.step hs ih).1

/-- **What a run can do to the shared state**, where the steps' relation composes. -/
theorem Inductive.runs_rel (hI : Inductive act outside S K R) (hrefl : ∀ s, R s s)
    (htrans : ∀ {s s' s''}, R s s' → R s' s'' → R s s'') (h : Runs act outside c c')
    (hc : Holds S K c) : R c.shared c'.shared := by
  induction h with
  | refl => exact hrefl _
  | tail hr hs ih => exact htrans ih (hI.step hs (hI.runs hr hc)).2

end Rules

/-! ### Runs of finitely many agents -/

section Finite

variable {act : σ → α → σ → α → Prop} {outside : σ → σ → Prop} {c : Config σ α} {idle : α}
  {s s' : σ} {agents : List α}

/-- The configuration of finitely many agents, the others idle. -/
def Config.ofList (idle : α) (s : σ) (agents : List α) : Config σ α :=
  ⟨s, fun i => agents.getD i idle⟩

theorem Config.ofList_idle (s : σ) (n : Nat) :
    Config.ofList idle s (List.replicate n idle) = ⟨s, fun _ => idle⟩ := by
  have hagents : (fun i => (List.replicate n idle).getD i idle) = fun _ => idle := by
    funext i
    rw [List.getD_eq_getElem?_getD, List.getElem?_replicate]
    split <;> rfl
  rw [ofList, hagents]

/-- A run goes on with an agent's step. -/
theorem Runs.acts {a' : α} (h : Runs act outside c (.ofList idle s agents)) (i : Nat)
    (hi : i < agents.length) (hact : act s (agents.getD i idle) s' a') :
    Runs act outside c (.ofList idle s' (agents.set i a')) := by
  have hstep : Step act outside (.ofList idle s agents)
      ⟨s', Function.update (fun i => agents.getD i idle) i a'⟩ := .act _ i hact
  have hagents : Function.update (fun i => agents.getD i idle) i a' =
      fun j => (agents.set i a').getD j idle := by
    funext j
    by_cases hj : j = i
    · subst hj
      simp [List.getD_eq_getElem?_getD, hi]
    · rw [Function.update_of_ne hj]
      simp [List.getD_eq_getElem?_getD, List.getElem?_set_ne (Ne.symm hj)]
  rw [hagents] at hstep
  exact h.tail hstep

/-- The steps of one agent alone, with the shared state. -/
def Alone (act : σ → α → σ → α → Prop) : σ × α → σ × α → Prop :=
  Relation.ReflTransGen fun p q => act p.1 p.2 q.1 q.2

theorem Alone.refl (p : σ × α) : Alone act p p := Relation.ReflTransGen.refl

theorem Alone.andThen {p : σ × α} {a' : α} (h : Alone act p (s, a')) {s' : σ} {a'' : α}
    (hact : act s a' s' a'') : Alone act p (s', a'') := h.tail hact

/-- A run goes on with the steps of one agent alone. -/
theorem Runs.alone {a' : α} (h : Runs act outside c (.ofList idle s agents)) (i : Nat)
    (hi : i < agents.length) (halone : Alone act (s, agents.getD i idle) (s', a')) :
    Runs act outside c (.ofList idle s' (agents.set i a')) := by
  generalize hq : (s', a') = q at halone
  induction halone generalizing s' a' with
  | refl =>
    cases hq
    have hsame : agents.set i (agents.getD i idle) = agents := by
      rw [List.getD_eq_getElem?_getD, List.getElem?_eq_getElem hi, Option.getD_some]
      exact List.set_getElem_self hi
    rw [hsame]
    exact h
  | @tail q _ _ hact ih =>
    subst hq
    have hlast : Runs act outside c (.ofList idle q.1 (agents.set i q.2)) := ih rfl
    have hact' : act q.1 ((agents.set i q.2).getD i idle) s' a' := by
      simpa [List.getD_eq_getElem?_getD, hi] using hact
    have hgo := hlast.acts i (by rw [List.length_set]; exact hi) hact'
    rwa [List.set_set] at hgo

/-- A run goes on with a step of the outside. -/
theorem Runs.outsides (h : Runs act outside c (.ofList idle s agents)) (hout : outside s s') :
    Runs act outside c (.ofList idle s' agents) :=
  h.tail (.outside (.ofList idle s agents) hout)

end Finite

end Agents

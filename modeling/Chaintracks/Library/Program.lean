import Mathlib

/-!
# Programs over a state that may fail

A writer of a database reads, decides, hands over a transaction, reads again; any
of its transactions may be refused, and a refusal ends it with what was committed
before still standing. `Prog σ ε α` is that shape: a function of the state which
answers a value or an error *and the state it leaves in either case*.

What one wants of such a program is seldom its result and nearly always the path
it took: every state between two of its transactions is a state somebody can read.
`Prog.Via` says it: the state a program leaves is reached from the state it was
started in by a chain of steps of a given relation. The relation is proved once for
the atomic steps, `Prog.Via.bind` and its companions carry it through the program
text, and `Prog.Via.invariant` turns it into an invariant of every run.
-/

/-- A program over a state: the answer (or the error) and the state it leaves. -/
def Prog (σ ε α : Type) : Type := σ → Except ε α × σ

/-- A sequence of checks answers only where each of them does. -/
theorem Except.bind_eq_ok {ε α β : Type} {x : Except ε α} {f : α → Except ε β} {b : β} :
    (x >>= f) = .ok b ↔ ∃ a, x = .ok a ∧ f a = .ok b := by
  cases x with
  | error e => exact ⟨nofun, fun ⟨_, h, _⟩ => nomatch h⟩
  | ok a =>
    refine ⟨fun h => ⟨a, rfl, h⟩, ?_⟩
    rintro ⟨_, ⟨⟩, h⟩
    exact h

theorem Except.mapError_eq_ok {ε ε' α : Type} {x : Except ε α} {f : ε → ε'} {a : α} :
    x.mapError f = .ok a ↔ x = .ok a := by
  cases x <;> simp [Except.mapError]

namespace Prog

variable {σ ε α β : Type}

/-! ### The programs -/

/-- Answer a value, touching nothing. -/
protected def pure (a : α) : Prog σ ε α := fun s => (.ok a, s)

/-- Run `m`, then `f` on its answer; an error of `m` ends the run. -/
protected def bind (m : Prog σ ε α) (f : α → Prog σ ε β) : Prog σ ε β := fun s =>
  match m s with
  | (.ok a, s') => f a s'
  | (.error e, s') => (.error e, s')

instance : Monad (Prog σ ε) where
  pure := Prog.pure
  bind := Prog.bind

/-- Fail, touching nothing. -/
def fail (e : ε) : Prog σ ε α := fun s => (.error e, s)

/-- Read the state. -/
def read (f : σ → α) : Prog σ ε α := fun s => (.ok (f s), s)

/-- Change the state. -/
def update (f : σ → σ) : Prog σ ε Unit := fun s => (.ok (), f s)

/-- A computation that needs no state. -/
def ofExcept (x : Except ε α) : Prog σ ε α := fun s => (x, s)

/-- Run `m` and hand its error over as a value. -/
def attempt (m : Prog σ ε α) : Prog σ ε (Except ε α) := fun s => (.ok (m s).1, (m s).2)

/-- Run a program for each element of a list, in order. -/
def each (f : β → Prog σ ε Unit) : List β → Prog σ ε Unit
  | [] => pure ()
  | x :: xs => do f x; each f xs

/-! ### How they run -/

@[simp] theorem pure_apply (a : α) (s : σ) : (pure a : Prog σ ε α) s = (.ok a, s) := rfl

theorem bind_apply (m : Prog σ ε α) (f : α → Prog σ ε β) (s : σ) :
    (m >>= f) s = match m s with
      | (.ok a, s') => f a s'
      | (.error e, s') => (.error e, s') := rfl

theorem bind_ok {m : Prog σ ε α} {f : α → Prog σ ε β} {s s' : σ} {a : α}
    (h : m s = (.ok a, s')) : (m >>= f) s = f a s' := by
  rw [bind_apply, h]

theorem bind_error {m : Prog σ ε α} {f : α → Prog σ ε β} {s s' : σ} {e : ε}
    (h : m s = (.error e, s')) : (m >>= f) s = (.error e, s') := by
  rw [bind_apply, h]

/-- A sequence that answers is its first part answering, then the rest. -/
theorem bind_eq_ok {m : Prog σ ε α} {f : α → Prog σ ε β} {s s' : σ} {b : β}
    (h : (m >>= f) s = (.ok b, s')) : ∃ a s₁, m s = (.ok a, s₁) ∧ f a s₁ = (.ok b, s') := by
  rw [bind_apply] at h
  rcases hm : m s with ⟨e | a, s₁⟩
  · rw [hm] at h
    cases h
  · rw [hm] at h
    exact ⟨a, s₁, rfl, h⟩

/-- A sequence fails in its first part, or goes on from its answer. -/
theorem bind_cases {m : Prog σ ε α} {f : α → Prog σ ε β} {s s' : σ} {x : Except ε β}
    (h : (m >>= f) s = (x, s')) :
    (∃ e, m s = (.error e, s') ∧ x = .error e) ∨ ∃ a s₁, m s = (.ok a, s₁) ∧ f a s₁ = (x, s') := by
  rw [bind_apply] at h
  rcases hm : m s with ⟨e | a, s₁⟩
  · rw [hm] at h
    cases h
    exact .inl ⟨e, rfl, rfl⟩
  · rw [hm] at h
    exact .inr ⟨a, s₁, rfl, h⟩

@[simp] theorem pure_bind_apply (a : α) (f : α → Prog σ ε β) (s : σ) :
    ((pure a : Prog σ ε α) >>= f) s = f a s := rfl

@[simp] theorem read_apply (f : σ → α) (s : σ) : (read f : Prog σ ε α) s = (.ok (f s), s) := rfl

@[simp] theorem read_bind_apply (g : σ → α) (f : α → Prog σ ε β) (s : σ) :
    ((read g : Prog σ ε α) >>= f) s = f (g s) s := rfl

@[simp] theorem fail_apply (e : ε) (s : σ) : (fail e : Prog σ ε α) s = (.error e, s) := rfl

@[simp] theorem fail_bind_apply (e : ε) (f : α → Prog σ ε β) (s : σ) :
    ((fail e : Prog σ ε α) >>= f) s = (.error e, s) := rfl

@[simp] theorem update_apply (f : σ → σ) (s : σ) :
    (update f : Prog σ ε Unit) s = (.ok (), f s) := rfl

@[simp] theorem update_bind_apply (g : σ → σ) (f : Unit → Prog σ ε β) (s : σ) :
    ((update g : Prog σ ε Unit) >>= f) s = f () (g s) := rfl

@[simp] theorem ofExcept_apply (x : Except ε α) (s : σ) : ofExcept x s = (x, s) := rfl

@[simp] theorem ofExcept_ok_bind_apply (a : α) (f : α → Prog σ ε β) (s : σ) :
    ((ofExcept (.ok a) : Prog σ ε α) >>= f) s = f a s := rfl

@[simp] theorem ofExcept_error_bind_apply (e : ε) (f : α → Prog σ ε β) (s : σ) :
    ((ofExcept (.error e) : Prog σ ε α) >>= f) s = (.error e, s) := rfl

@[simp] theorem attempt_apply (m : Prog σ ε α) (s : σ) :
    attempt m s = (.ok (m s).1, (m s).2) := rfl

@[simp] theorem attempt_bind_apply (m : Prog σ ε α) (f : Except ε α → Prog σ ε β) (s : σ) :
    (attempt m >>= f) s = f (m s).1 (m s).2 := rfl

@[simp] theorem each_nil (f : β → Prog σ ε Unit) (s : σ) : each f [] s = (.ok (), s) := rfl

theorem each_cons (f : β → Prog σ ε Unit) (x : β) (xs : List β) :
    each f (x :: xs) = (f x >>= fun _ => each f xs) := rfl

/-- A value added at the end changes no error. -/
theorem bind_pure_eq_error {m : Prog σ ε α} {f : α → β} {s s' : σ} {e : ε} :
    (m >>= fun a => pure (f a)) s = (.error e, s') ↔ m s = (.error e, s') := by
  rw [bind_apply]
  rcases m s with ⟨e' | a, s₁⟩
  · rw [Prod.mk.injEq, Prod.mk.injEq, Except.error.injEq, Except.error.injEq]
  · exact ⟨fun h => absurd (congrArg Prod.fst h) nofun, fun h => absurd (congrArg Prod.fst h) nofun⟩

/-- A program with its errors renamed. -/
def mapError {ε' : Type} (g : ε → ε') (m : Prog σ ε α) : Prog σ ε' α :=
  fun s => ((m s).1.mapError g, (m s).2)

theorem mapError_bind {ε' : Type} (g : ε → ε') (m : Prog σ ε α) (f : α → Prog σ ε β) :
    mapError g (m >>= f) = (mapError g m >>= fun a => mapError g (f a)) := by
  funext s
  simp only [mapError, bind_apply]
  rcases m s with ⟨e | a, s'⟩ <;> rfl

theorem mapError_mapError {ε' ε'' : Type} (g : ε → ε') (g' : ε' → ε'') (m : Prog σ ε α) :
    mapError g' (mapError g m) = mapError (g' ∘ g) m := by
  funext s
  simp only [mapError]
  rcases m s with ⟨e | a, s'⟩ <;> rfl

theorem mapError_id (m : Prog σ ε α) : mapError id m = m := by
  funext s
  simp only [mapError]
  rcases m s with ⟨e | a, s'⟩ <;> rfl

/-- The program answers, when it is started in `s`. -/
def Answers (m : Prog σ ε α) (s : σ) : Prop := ∃ a s', m s = (.ok a, s')

theorem answers_pure (a : α) (s : σ) : Answers (pure a : Prog σ ε α) s := ⟨a, s, rfl⟩

/-- A sequence answers where its first part does, and the rest from there. -/
theorem answers_bind {m : Prog σ ε α} {f : α → Prog σ ε β} {s : σ} :
    Answers (m >>= f) s ↔ ∃ a s', m s = (.ok a, s') ∧ Answers (f a) s' := by
  constructor
  · rintro ⟨b, s', h⟩
    obtain ⟨a, s₁, hm, hf⟩ := bind_eq_ok h
    exact ⟨a, s₁, hm, b, s', hf⟩
  · rintro ⟨a, s₁, hm, b, s', hf⟩
    exact ⟨b, s', (bind_ok hm).trans hf⟩

/-! ### The chain of steps a run makes -/

/-- **The path of a run**: the state `m` leaves is reached from `s` by steps of `R`,
whether `m` answers or fails. -/
def Via (R : σ → σ → Prop) (m : Prog σ ε α) (s : σ) : Prop :=
  Relation.ReflTransGen R s (m s).2

namespace Via

variable {R : σ → σ → Prop} {m : Prog σ ε α} {f : α → Prog σ ε β} {s : σ}

theorem refl_of_eq (h : (m s).2 = s) : Via R m s := by
  rw [Via, h]

theorem pure (a : α) : Via R (Pure.pure a : Prog σ ε α) s := refl_of_eq rfl

theorem fail (e : ε) : Via R (Prog.fail e : Prog σ ε α) s := refl_of_eq rfl

theorem read (g : σ → α) : Via R (Prog.read g : Prog σ ε α) s := refl_of_eq rfl

theorem ofExcept (x : Except ε α) : Via R (Prog.ofExcept x) s := refl_of_eq rfl

theorem step (h : R s (m s).2) : Via R m s := Relation.ReflTransGen.single h

/-- A run of a sequence is the run of its first part, then of the rest from the
state and with the answer the first part left. -/
theorem bind (hm : Via R m s) (hf : ∀ a s', m s = (.ok a, s') → Via R (f a) s') :
    Via R (m >>= f) s := by
  rw [Via, bind_apply]
  rcases hms : m s with ⟨_ | a, s'⟩
  · have : (m s).2 = s' := by rw [hms]
    exact this ▸ hm
  · have : (m s).2 = s' := by rw [hms]
    exact (this ▸ hm : Relation.ReflTransGen R s s').trans (hf a s' hms)

theorem pure_bind {a : α} (h : Via R (f a) s) : Via R ((Pure.pure a : Prog σ ε α) >>= f) s := h

theorem read_bind {g : σ → α} (h : Via R (f (g s)) s) : Via R (Prog.read g >>= f) s := h

/-- A computation without the state ends the run where it fails. -/
theorem ofExcept_bind {x : Except ε α} (h : ∀ a, x = .ok a → Via R (f a) s) :
    Via R (Prog.ofExcept x >>= f) s := by
  cases x with
  | error e => exact refl_of_eq rfl
  | ok a => exact h a rfl

theorem attempt (hm : Via R m s) : Via R (Prog.attempt m) s := hm

theorem each {g : β → Prog σ ε Unit} {xs : List β} (h : ∀ x ∈ xs, ∀ s, Via R (g x) s) (s : σ) :
    Via R (Prog.each g xs) s := by
  induction xs generalizing s with
  | nil => exact pure ()
  | cons x xs ih =>
    refine bind (h x List.mem_cons_self s) fun _ s' _ => ?_
    exact ih (fun y hy => h y (List.mem_cons_of_mem x hy)) s'

theorem mono {S : σ → σ → Prop} (h : Via R m s) (hRS : ∀ s s', R s s' → S s s') : Via S m s :=
  Relation.ReflTransGen.mono hRS _ _ h

/-- **An invariant of the steps is an invariant of the run.** -/
theorem invariant {I : σ → Prop} (h : Via R m s) (hI : ∀ s s', R s s' → I s → I s') (hs : I s) :
    I (m s).2 := by
  unfold Via at h
  generalize (m s).2 = t at h
  induction h with
  | refl => exact hs
  | tail _ hstep ih => exact hI _ _ hstep ih

end Via

end Prog

import Chaintracks.Header

/-!
# The window the difficulty rule reads

The rule asks for ancestors by height and for the work between two of them. The store
hands it a `Chaintracks.Window`: a run of consecutive ancestors, ascending, with the
running sum of their proofs, so that the work between two heights is one difference of
prefix sums rather than a walk.

`Chaintracks.checkContext` is the check every linked header must pass: the checkpoint
at its height first, then the bits against the rule's answer for its parent.
-/

namespace Chaintracks

/-- Chain work is kept modulo `2 ^ 256`. -/
def workModulus : Nat := 2 ^ 256

/-- `ChainWork::wrapping_add`. -/
def addWork (a b : Nat) : Nat := (a + b) % workModulus

theorem addWork_of_lt {a b : Nat} (h : a + b < workModulus) : addWork a b = a + b :=
  Nat.mod_eq_of_lt h

/-- A run of consecutive ancestors, ascending by height, with its prefix sums:
`work[i]` is the sum of the proofs of `links[1..=i]`. -/
structure Window where
  links : List Link
  work : List Nat
  sized : work.length = links.length

namespace Window

/-- The window before any link is pushed. -/
def empty : Window := ⟨[], [], rfl⟩

/-- `Window::push`. -/
def push (bsv : BsvRs) (w : Window) (link : Link) : Window where
  links := w.links ++ [link]
  work := w.work ++
    [match w.work.getLast? with
      | some last => addWork last (bsv.workFromBits link.bits)
      | none => 0]
  sized := by simp [w.sized]

/-- `Window::new`. -/
def new (bsv : BsvRs) (links : List Link) : Window := links.foldl (push bsv) empty

/-- `Window::index`. -/
def index (w : Window) (height : Nat) : Option Nat :=
  match w.links.head? with
  | some first =>
    if first.height ≤ height ∧ height - first.height < w.links.length then
      some (height - first.height)
    else none
  | none => none

/-- `Window::link_at`. -/
def linkAt (w : Window) (height : Nat) : Option Link :=
  (w.index height).bind fun i => w.links[i]?

/-- `Window::work_between`: the difference of two prefix sums, modulo `2 ^ 256`. -/
def workBetween (w : Window) (first last : Nat) : Except DifficultyError Nat :=
  let prefixAt (height : Nat) : Except DifficultyError Nat :=
    match (w.index height).bind fun i => w.work[i]? with
    | some sum => .ok sum
    | none => .error (.missingAncestor height)
  do
    let a ← prefixAt first
    let b ← prefixAt last
    pure ((b + workModulus - a) % workModulus)

/-- The window as the ancestry the rule reads. -/
def ancestry (w : Window) : HeaderAncestry := ⟨w.linkAt, w.workBetween⟩

@[simp] theorem push_links (bsv : BsvRs) (w : Window) (link : Link) :
    (w.push bsv link).links = w.links ++ [link] := rfl

theorem foldl_push_links (bsv : BsvRs) (links : List Link) (w : Window) :
    (links.foldl (push bsv) w).links = w.links ++ links := by
  induction links generalizing w with
  | nil => simp
  | cons link links ih => rw [List.foldl_cons, ih, push_links, List.append_assoc]; rfl

@[simp] theorem new_links (bsv : BsvRs) (links : List Link) : (new bsv links).links = links := by
  rw [new, foldl_push_links]
  rfl

/-- Pushing is what `new` does with one more link. -/
theorem new_append (bsv : BsvRs) (links : List Link) (link : Link) :
    new bsv (links ++ [link]) = (new bsv links).push bsv link := by
  simp [new, List.foldl_append]

end Window

/-- `next_work_required`: the rule's answer for a header of the given time whose parent
stands at `prevHeight` in the window. -/
def nextWorkRequired (params : ChainParams) (w : Window) (prevHeight : Nat) (newTime : UInt32) :
    Except HeaderFault UInt32 :=
  (params.pow.nextWorkRequired w.ancestry prevHeight newTime).mapError difficultyFault

/-- `check_context`: the checkpoint, then the bits. -/
def checkContext (params : ChainParams) (w : Window) (header : BlockHeader) :
    Except HeaderFault Unit := do
  checkCheckpoint params header.height header.hash
  let expected ← nextWorkRequired params w (header.height - 1) header.time
  if header.bits = expected then pure () else throw (.badDiffBits expected header.bits)

/-- **A header that passes the context check** carries the checkpoint at its height and
exactly the bits the rule answers for its parent. -/
theorem checkContext_ok {params : ChainParams} {w : Window} {header : BlockHeader}
    (h : checkContext params w header = .ok ()) :
    checkCheckpoint params header.height header.hash = .ok () ∧
      nextWorkRequired params w (header.height - 1) header.time = .ok header.bits := by
  unfold checkContext at h
  cases hc : checkCheckpoint params header.height header.hash with
  | error e => rw [hc] at h; cases h
  | ok u =>
    rw [hc] at h
    cases hn : nextWorkRequired params w (header.height - 1) header.time with
    | error e => rw [hn] at h; cases h
    | ok expected =>
      rw [hn] at h
      change (if _ then _ else _ : Except HeaderFault Unit) = _ at h
      split at h
      · rename_i hbits
        exact ⟨rfl, by rw [hbits]⟩
      · cases h

end Chaintracks

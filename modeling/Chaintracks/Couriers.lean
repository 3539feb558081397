import Chaintracks.World

/-!
# The courier ladder

The live path's headers come from outside, through a ladder of couriers that stand in
for each other. For the length of a tick it asks its rungs in an order – the one whose
tip was highest first, then in rotation, a rung that has faulted three times no more –
and takes the first answer that passes its checks.

What it checks is small, and it is all that binds a header before the store sees it:
the height or the hash that was asked for, and the header's own proof of work. A height
is in none of the bytes the proof covers. An answer by hash may claim any height, and
an answer by height may be the header of another (`Chaintracks.Fetched`).
-/

namespace Chaintracks

/-- `RUNG_FAULT_CAP`. -/
def rungFaultCap : Nat := 3

/-- `Rung`: its name, and its answers and faults of this tick. -/
structure Rung where
  name : String
  ok : Nat := 0
  faults : Nat := 0
  deriving DecidableEq

/-- A rung that has faulted too often in this tick. -/
def Rung.skipped (rung : Rung) : Bool := decide (rungFaultCap ≤ rung.faults)

/-- `CourierLadder`, as one tick's questions change it. -/
structure CourierLadder where
  rungs : List Rung
  start : Nat
  preferred : Option Nat := none
  faults : List String := []
  deriving DecidableEq

/-- What a rung answers to one question, by its place on the ladder. -/
abbrev CourierAnswers : Type := Nat → Except String BlockHeader

namespace CourierLadder

variable (ladder : CourierLadder)

/-- The rung at a place is asked no more. -/
def skips (i : Nat) : Bool := (ladder.rungs[i]?).all (·.skipped)

/-- `order`: the rungs to ask. -/
def order : List Nat :=
  let n := ladder.rungs.length
  let first := ladder.preferred.toList.filter fun p => !ladder.skips p
  (List.range n).foldl
    (fun out k =>
      let i := (ladder.start + k) % n
      if i ∉ out ∧ ladder.skips i = false then out ++ [i] else out) first

/-- The name of the rung at a place. -/
def nameOf (i : Nat) : String := ((ladder.rungs[i]?).map (·.name)).getD ""

/-- `note_ok`. -/
def noteOk (i : Nat) : CourierLadder :=
  { ladder with rungs := ladder.rungs.modify i fun r => { r with ok := r.ok + 1 } }

/-- `note_fault`. -/
def noteFault (i : Nat) (what e : String) : CourierLadder :=
  { ladder with
    rungs := ladder.rungs.modify i fun r => { r with faults := r.faults + 1 }
    faults := ladder.faults ++ [ladder.nameOf i ++ ": " ++ what ++ ": " ++ e] }

/-- `all_faulted`. -/
def allFaulted (what : String) : String :=
  what ++ ": every courier faulted: " ++ "; ".intercalate ladder.faults

/-- The first answer of the rungs in an order; each that faults is noted. -/
def firstAnswer (what : String) (answers : CourierAnswers) :
    List Nat → CourierLadder → Except String BlockHeader × CourierLadder
  | [], ladder => (.error (ladder.allFaulted what), ladder)
  | i :: is, ladder =>
    match answers i with
    | .ok header => (.ok header, ladder.noteOk i)
    | .error e => firstAnswer what answers is (ladder.noteFault i what e)

end CourierLadder

section Ladder

variable (params : ChainParams)

/-- `bind`: an answer that fails its own proof of work is a fault of its rung. -/
def bindAnswer (name : String) (header : BlockHeader) (how : String) : Except String BlockHeader :=
  match checkPow params header with
  | .ok () => pure header
  | .error fault =>
    throw (name ++ " served header " ++ header.hash ++ " at " ++ toString header.height ++ " (" ++ how ++
      ") that fails its own proof of work: " ++ fault.text)

/-- The check of an answer by height. -/
def boundByHeight (name : String) (height : Nat) (header : BlockHeader) :
    Except String BlockHeader :=
  if header.height ≠ height then
    throw (name ++ " answered height " ++ toString header.height ++ " for height " ++ toString height)
  else bindAnswer params name header "by height"

/-- The check of an answer by hash. -/
def boundByHash (name hash : String) (header : BlockHeader) : Except String BlockHeader :=
  if eqIgnoreAsciiCase header.hash hash = false then
    throw (name ++ " answered hash " ++ header.hash ++ " for hash " ++ hash)
  else bindAnswer params name header "by hash"

/-- The check of the header of a tip a rung has announced. -/
def boundByTip (name : String) (height : Nat) (hash : Option String) (header : BlockHeader) :
    Except String BlockHeader :=
  if header.height ≠ height ∨ hash.any (fun want => !eqIgnoreAsciiCase header.hash want) = true then
    throw "tip header does not match the rung's announcement"
  else bindAnswer params name header "advertised tip"

namespace CourierLadder

variable (ladder : CourierLadder)

/-- `header_by_height`. -/
def headerByHeight (answers : CourierAnswers) (height : Nat) : Except String BlockHeader × CourierLadder :=
  firstAnswer ("header by height " ++ toString height)
    (fun i => answers i >>= boundByHeight params (ladder.nameOf i) height) ladder.order ladder

/-- `header_by_hash`. -/
def headerByHash (answers : CourierAnswers) (hash : String) : Except String BlockHeader × CourierLadder :=
  firstAnswer ("header by hash " ++ hash)
    (fun i => answers i >>= boundByHash params (ladder.nameOf i) hash) ladder.order ladder

/-- `finish_observations`: the header of a rung's announced tip, asked of that rung alone. -/
def advertisedTip (answers : CourierAnswers) (i height : Nat) (hash : Option String) :
    Except String BlockHeader :=
  answers i >>= boundByTip params (ladder.nameOf i) height hash

end CourierLadder

/-- **What the live path is handed**: a header some ladder's questions were answered with. -/
inductive Fetched (header : BlockHeader) : Prop
  | byHeight (ladder : CourierLadder) (answers : CourierAnswers) (height : Nat)
      (answered : (ladder.headerByHeight params answers height).1 = .ok header)
  | byHash (ladder : CourierLadder) (answers : CourierAnswers) (hash : String)
      (answered : (ladder.headerByHash params answers hash).1 = .ok header)
  | advertised (ladder : CourierLadder) (answers : CourierAnswers) (i height : Nat) (hash : Option String)
      (answered : ladder.advertisedTip params answers i height hash = .ok header)

end Ladder

section Lemmas

variable {params : ChainParams} {ladder : CourierLadder} {answers : CourierAnswers} {header : BlockHeader}

/-- The ladder answers what one of its rungs answered. -/
theorem CourierLadder.firstAnswer_ok {what : String} {order : List Nat}
    (h : (firstAnswer what answers order ladder).1 = .ok header) :
    ∃ i ∈ order, answers i = .ok header := by
  induction order generalizing ladder with
  | nil => cases h
  | cons i is ih =>
    rw [firstAnswer] at h
    cases hi : answers i with
    | ok answer =>
      rw [hi] at h
      cases h
      exact ⟨i, List.mem_cons_self, hi⟩
    | error e =>
      rw [hi] at h
      obtain ⟨j, hj, hanswer⟩ := ih h
      exact ⟨j, List.mem_cons_of_mem _ hj, hanswer⟩

theorem bindAnswer_ok {name how : String} {served : BlockHeader}
    (h : bindAnswer params name served how = .ok header) :
    header = served ∧ checkPow params header = .ok () := by
  unfold bindAnswer at h
  split at h
  · rename_i hpow
    cases h
    exact ⟨rfl, hpow⟩
  · cases h

theorem boundByHeight_ok {name : String} {height : Nat} {served : BlockHeader}
    (h : boundByHeight params name height served = .ok header) :
    header.height = height ∧ checkPow params header = .ok () := by
  unfold boundByHeight at h
  split at h
  · cases h
  · rename_i hheight
    obtain ⟨rfl, hpow⟩ := bindAnswer_ok h
    exact ⟨not_not.mp hheight, hpow⟩

theorem boundByHash_ok {name hash : String} {served : BlockHeader}
    (h : boundByHash params name hash served = .ok header) :
    eqIgnoreAsciiCase header.hash hash = true ∧ checkPow params header = .ok () := by
  unfold boundByHash at h
  split at h
  · cases h
  · rename_i hhash
    obtain ⟨rfl, hpow⟩ := bindAnswer_ok h
    exact ⟨Bool.not_eq_false _ ▸ hhash, hpow⟩

/-- An answer by height stands at the height asked for, and proves its work. -/
theorem CourierLadder.headerByHeight_ok {height : Nat}
    (h : (ladder.headerByHeight params answers height).1 = .ok header) :
    header.height = height ∧ checkPow params header = .ok () := by
  obtain ⟨i, -, hi⟩ := firstAnswer_ok h
  obtain ⟨served, -, hbound⟩ := Except.bind_eq_ok.mp hi
  exact boundByHeight_ok hbound

/-- An answer by hash carries the hash asked for, and proves its work. -/
theorem CourierLadder.headerByHash_ok {hash : String}
    (h : (ladder.headerByHash params answers hash).1 = .ok header) :
    eqIgnoreAsciiCase header.hash hash = true ∧ checkPow params header = .ok () := by
  obtain ⟨i, -, hi⟩ := firstAnswer_ok h
  obtain ⟨served, -, hbound⟩ := Except.bind_eq_ok.mp hi
  exact boundByHash_ok hbound

theorem CourierLadder.advertisedTip_ok {i height : Nat} {hash : Option String}
    (h : ladder.advertisedTip params answers i height hash = .ok header) :
    header.height = height ∧ checkPow params header = .ok () := by
  obtain ⟨served, -, hbound⟩ := Except.bind_eq_ok.mp h
  unfold boundByTip at hbound
  split at hbound
  · cases hbound
  · rename_i hmatch
    obtain ⟨rfl, hpow⟩ := bindAnswer_ok hbound
    exact ⟨not_not.mp (not_or.mp hmatch).1, hpow⟩

/-- A courier that proves its work and answers at the height asked for is believed. -/
theorem Fetched.of_checkPow (hpow : checkPow params header = .ok ()) : Fetched params header := by
  refine .byHeight ⟨[⟨"woc", 0, 0⟩], 0, none, []⟩ (fun _ => .ok header) header.height ?_
  have hbound : boundByHeight params "woc" header.height header = .ok header := by
    rw [boundByHeight, if_neg (not_not.mpr rfl), bindAnswer, hpow]
    rfl
  change (match boundByHeight params "woc" header.height header with
    | .ok answer => (Except.ok answer, _)
    | .error e => _ : Except String BlockHeader × CourierLadder).1 = _
  rw [hbound]

/-- **What the ladder promises of a header**: its proof of work, and nothing of where it
stands. -/
theorem fetched_iff : Fetched params header ↔ checkPow params header = .ok () := by
  refine ⟨?_, .of_checkPow⟩
  rintro (⟨_, _, _, h⟩ | ⟨_, _, _, h⟩ | ⟨_, _, _, _, _, h⟩)
  · exact (CourierLadder.headerByHeight_ok h).2
  · exact (CourierLadder.headerByHash_ok h).2
  · exact (CourierLadder.advertisedTip_ok h).2

end Lemmas

end Chaintracks

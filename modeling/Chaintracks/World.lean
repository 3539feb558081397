import Chaintracks.Statement
import Chaintracks.Library.Program

/-!
# The writers' world

A writer runs against a database it does not own and couriers it does not trust. The
world of a run (`Chaintracks.World`) is the database, the number of times anything
outside has been asked, and the history: every transaction that committed, with the
store on either side of it, and every header whose context check passed or whose hash
was vouched for. The history is kept for the statements proved about runs; no writer
reads it.

What the outside answers is an environment (`Chaintracks.Env`), each answer a function
of how often something was asked before. In particular the database may refuse any
transaction, whole: a fault of the database, or the fence of a lease that lapsed. A run
under some environment is therefore a run with its writers cut at any of their
transactions.
-/

namespace Chaintracks

/-! ### Faults -/

/-- The errors a writer ends in. -/
inductive Fault
  /-- A header refused by the rules. -/
  | refused (header : BlockHeader) (fault : HeaderFault)
  /-- A height that does not sit one above its stored parent; `writer` says who found it. -/
  | badPrev (writer : String) (height : Nat) (parentHash : String) (parentHeight : Nat)
  /-- No common ancestor within the walk's limit. -/
  | noCommonAncestor (new old : String)
  /-- The database refused a transaction, or did not answer a read. -/
  | database
  /-- A courier did not answer. -/
  | courier (why : String)
  /-- The parent walk of a pushed header met its limit. -/
  | walkTooDeep (hash : String) (height : Nat) (want : String)
  /-- A walk over the rows that comes round to itself: it never answers. -/
  | diverged
  deriving DecidableEq

/-- The text of a fault, where the source writes one. -/
def Fault.text : Fault → String
  | refused header fault =>
    "refused header " ++ header.hash ++ " at " ++ toString header.height ++ ": " ++ fault.text
  | badPrev writer height parentHash parentHeight =>
    writer ++ ": height " ++ toString height ++ " does not extend parent " ++ parentHash ++
      " at height " ++ toString parentHeight ++ " (badPrev)"
  | noCommonAncestor new old =>
    "reorg: no common ancestor within limit (new=" ++ new ++ " old=" ++ old ++
      ") ; refusing (TS reference parity)"
  | database => "the transaction was refused"
  | courier why => why
  | walkTooDeep hash height want =>
    "pushed header " ++ hash ++ " at " ++ toString height ++
      " stands on no stored row within 36 ancestors (still missing " ++ want ++
      "); the poll's catch-up covers it"
  | diverged => ""

/-! ### The environment and the world -/

/-- What the outside answers, by how often it was asked before. -/
structure Env where
  /-- Whether the database takes the transaction. -/
  accepts : Nat → Bool
  /-- The database's clock, in seconds. -/
  unixepoch : Nat → Nat
  /-- The couriers' header for a hash. -/
  headerByHash : Nat → String → Except String BlockHeader
  /-- The couriers' header for a height. -/
  headerByHeight : Nat → Nat → Except String BlockHeader
  /-- The upstream's headers from a height on, above an anchor. -/
  upstream : Nat → Nat → Nat → Option String → Except String (List BlockHeader)
  /-- What is left of the writer's lease, in milliseconds; none runs unserialized. -/
  leaseLeftMs : Nat → Option Int
  /-- The writer's own clock, in milliseconds. -/
  clockMs : Nat → Nat

/-- The couriers answer for a hash with headers of a set, or not at all. -/
def Env.Serves (env : Env) (offered : BlockHeader → Prop) : Prop :=
  ∀ n want header, env.headerByHash n want = .ok header → offered header

/-- One entry of a run's history. -/
inductive Entry
  /-- The context check passed on `header`, read against ancestors the store held and
  the headers of its own run below it. -/
  | passed (stored run : List BlockHeader) (header : BlockHeader)
  /-- The header's hash was taken as it is: an anchor, or a header below one. -/
  | vouched (header : BlockHeader)
  /-- A transaction committed. -/
  | commit (before : Store) (txn : List Stmt) (after : Store)

/-- The header an entry speaks of. -/
def Entry.subject : Entry → Option BlockHeader
  | passed _ _ header | vouched header => some header
  | commit .. => none

/-- A check is not a transaction. -/
theorem Entry.passed_ne_commit {stored run : List BlockHeader} {header : BlockHeader}
    (b : Store) (txn : List Stmt) (a : Store) : Entry.passed stored run header ≠ .commit b txn a :=
  fun h => Option.some_ne_none header (congrArg Entry.subject h)

/-- A hash taken as it is is not a transaction. -/
theorem Entry.vouched_ne_commit {header : BlockHeader} (b : Store) (txn : List Stmt) (a : Store) :
    Entry.vouched header ≠ .commit b txn a :=
  fun h => Option.some_ne_none header (congrArg Entry.subject h)

/-- The world of a run; the history is newest first. -/
structure World where
  db : Store
  asked : Nat
  history : List Entry

/-- The world before anything was written. -/
def World.init : World := ⟨.fresh, 0, []⟩

/-- A program of a writer. -/
abbrev Writer (α : Type) : Type := Prog World Fault α

section Asking

variable (env : Env)

/-- Put an entry into the history. -/
def note (entry : Entry) : Writer Unit :=
  Prog.update fun w => { w with history := entry :: w.history }

/-- Hand a transaction over: it commits whole or not at all. -/
def commit (txn : List Stmt) : Writer Unit := fun w =>
  if env.accepts w.asked then
    let after := execAll (env.unixepoch w.asked) txn w.db
    (.ok (), ⟨after, w.asked + 1, .commit w.db txn after :: w.history⟩)
  else (.error .database, { w with asked := w.asked + 1 })

/-- Ask the outside. -/
def ask {α : Type} (question : Nat → α) : Writer α := fun w =>
  (.ok (question w.asked), { w with asked := w.asked + 1 })

/-- Ask a courier, whose refusal ends the writer. -/
def askCourier {α : Type} (question : Nat → Except String α) : Writer α := fun w =>
  ((question w.asked).mapError .courier, { w with asked := w.asked + 1 })

/-- Read the header rows. -/
def readRows : Writer (List HeaderRow) := Prog.read (·.db.rows)

end Asking

section Lemmas

variable {env : Env} {w : World}

theorem commit_ok (txn : List Stmt) (h : env.accepts w.asked = true) :
    commit env txn w =
      (.ok (), ⟨execAll (env.unixepoch w.asked) txn w.db, w.asked + 1,
        .commit w.db txn (execAll (env.unixepoch w.asked) txn w.db) :: w.history⟩) := by
  rw [commit, if_pos h]

theorem commit_refused (txn : List Stmt) (h : env.accepts w.asked = false) :
    commit env txn w = (.error .database, { w with asked := w.asked + 1 }) := by
  rw [commit, if_neg (by rw [h]; exact Bool.false_ne_true)]

/-- A transaction handed over is refused whole, or executed. -/
theorem commit_cases {txn : List Stmt} {x : Except Fault Unit} {w' : World}
    (h : commit env txn w = (x, w')) :
    env.accepts w.asked = false ∧ x = .error .database ∧ w'.db = w.db ∨
      env.accepts w.asked = true ∧ x = .ok () ∧
        w'.db = execAll (env.unixepoch w.asked) txn w.db := by
  cases hacc : env.accepts w.asked with
  | true =>
    rw [commit_ok txn hacc] at h
    cases h
    exact .inr ⟨rfl, rfl, rfl⟩
  | false =>
    rw [commit_refused txn hacc] at h
    cases h
    exact .inl ⟨rfl, rfl, rfl⟩

/-- A transaction that is answered for has been executed. -/
theorem commit_eq_ok {txn : List Stmt} {u : Unit} {w' : World}
    (h : commit env txn w = (.ok u, w')) :
    env.accepts w.asked = true ∧
      w' = ⟨execAll (env.unixepoch w.asked) txn w.db, w.asked + 1,
        .commit w.db txn (execAll (env.unixepoch w.asked) txn w.db) :: w.history⟩ := by
  cases hacc : env.accepts w.asked with
  | true =>
    rw [commit_ok txn hacc] at h
    cases h
    exact ⟨rfl, rfl⟩
  | false =>
    rw [commit_refused txn hacc] at h
    cases h

theorem each_note_apply (entries : List Entry) (w : World) :
    Prog.each note entries w = (.ok (), { w with history := entries.reverse ++ w.history }) := by
  induction entries generalizing w with
  | nil => rfl
  | cons e es ih =>
    rw [Prog.each_cons]
    change Prog.each note es { w with history := e :: w.history } = _
    rw [ih]
    simp

end Lemmas

end Chaintracks

import Chaintracks.Sync

/-!
# What a writer can do to the store

However long a pass is and wherever it is cut, the database sees a chain of committed
transactions. There are eleven forms of them, four on the live path
(`Chaintracks.LiveMove`) and seven beside it (`Chaintracks.Move`), and each comes with
what its writer had read, checked and decided when it handed it over. A step of the
world (`Chaintracks.Step`) is such a transaction, a question to the outside, or a check
that passed, noted in the history.

That every writer of the source makes only such steps is proved in
`Chaintracks.LiveWriters` and `Chaintracks.BulkWriters`; the invariants of the chain are
proved of the steps, once each, and hold of every run of every writer.

A writer's knowledge is of the store it read. Between its reads and its transaction it
holds the lease, and no other transaction commits; that is why a move may speak of the
rows it is made on.
-/

namespace Chaintracks

open HeaderRows

section Moves

variable (params : ChainParams)

/-! ### The history's word on a header -/

/-- A linked run: each header stands on the one before it. -/
def LinkedRun (headers : List BlockHeader) : Prop := headers.IsChain StandsOn

/-- **The context check a header passed**: the checkpoint at its height, then its bits,
against ancestors that are linked down from its own parent, those read from the store
among them stored. -/
structure Passed (rows : List HeaderRow) (stored run : List BlockHeader) (header : BlockHeader) :
    Prop where
  context : checkContext params (Window.new params.bsv ((stored ++ run).map (·.link))) header =
    .ok ()
  ancestry : stored ++ run ≠ []
  linked : LinkedRun (stored ++ run ++ [header])
  held : ∀ h ∈ stored, ∃ row ∈ rows, row.toBlockHeader = h

/-- **A header taken at its hash**: the chain's genesis, or a header of a linked run up
to one that carries a checkpoint of the chain, itself included. -/
structure Vouched (header : BlockHeader) : Prop where
  checkpoint : checkCheckpoint params header.height header.hash = .ok ()
  anchor : (header.height = 0 ∧ eqIgnoreAsciiCase header.hash params.genesisHash = true) ∨
    ∃ run top, LinkedRun run ∧ header ∈ run ∧ top ∈ run ∧ header.height ≤ top.height ∧
      (params.checkpointAt top.height).isSome = true ∧
      checkCheckpoint params top.height top.hash = .ok ()

/-- A header whose own proof of work was checked: just now, or when its row was stored. -/
def Weighed (rows : List HeaderRow) (header : BlockHeader) : Prop :=
  checkPow params header = .ok () ∨ ∃ row ∈ rows, row.toBlockHeader = header

/-- What an entry of the history asserts of the rows it was made on. -/
def Entry.Sound (rows : List HeaderRow) : Entry → Prop
  | passed stored run header =>
    Weighed params rows header ∧ Passed params rows stored run header
  | vouched header => Weighed params rows header ∧ Vouched params header
  | commit .. => True

/-- The history has a header of this hash and height checked or vouched for. -/
def Cleared (history : List Entry) (hash : String) (height : Nat) : Prop :=
  ∃ header, header.hash = hash ∧ header.height = height ∧
    (.vouched header ∈ history ∨ ∃ stored run, .passed stored run header ∈ history)

/-! ### The moves -/

/-- **The transactions of the live path**, each with what its writer knows when it hands
it over to the database; the headers it was offered are of some set. -/
inductive LiveMove (offered : BlockHeader → Prop) (w : World) : List Stmt → Prop
  /-- `insert_header`: a header let in, active only as an extension of the tip. -/
  | insertion (header : BlockHeader) (a : Admission)
      (given : offered header)
      (pow : checkPow params header = .ok ())
      (fresh : headerForHash w.db.rows header.hash = none)
      (admitted : admission params w.db.rows header = .ok a)
      (noted : ∀ e ∈ a.entries params header w.db.rows, e ∈ w.history) :
      LiveMove offered w (a.txn header)
  /-- `handle_reorg`: a stored row that outworks the tip takes it, with its branch. -/
  | reorg (new : LinkedHeader) (row tip : HeaderRow) (plan : ReorgPlan)
      (stored : row ∈ w.db.rows) (same : row.toBlockHeader = new.toBlockHeader)
      (link : new.previousHeaderId = none ∨ new.previousHeaderId = row.previousHeaderId)
      (flagged : chainTip w.db.rows = some tip)
      (apart : new.previousHash ≠ tip.hash)
      (outworks : tip.chainWork < row.chainWork)
      (cleared : Cleared w.history new.hash new.height)
      (planned : planReorg w.db.rows new tip.linked = .ok plan) :
      LiveMove offered w (plan.txn new.hash)
  /-- `update_chain_tip`: on a row that already is the tip, or that stands on it. -/
  | moveTip (row : HeaderRow) (stored : row ∈ w.db.rows)
      (cleared : Cleared w.history row.hash row.height)
      (stands : row.isActive = true ∧ row.isChainTip = true ∨
        ∀ tip, chainTip w.db.rows = some tip →
          row.previousHash = tip.hash ∧ tip.chainWork < row.chainWork) :
      LiveMove offered w (moveTipTxn row.hash)
  /-- The link of `relink_orphan_and_reevaluate`. -/
  | relink (hash : String) (stored parent : HeaderRow) (chainWork : Nat)
      (planned : planRelink params w.db.rows hash = .ok (.link stored parent chainWork))
      (cleared : Cleared w.history stored.hash stored.height) :
      LiveMove offered w [.relinkHeader (some parent.headerId) chainWork stored.headerId]

/-- **The transactions of all writers**, each with what its writer knows. -/
inductive Move (w : World) : List Stmt → Prop
  | live {txn : List Stmt} (move : LiveMove params (fun _ => True) w txn) : Move w txn
  /-- `update_chain_tip_to_highest`. -/
  | flagTip (top : HeaderRow) (highest : highestActive w.db.rows = some top) :
      Move w (flagTipTxn top.hash)
  /-- A chunk of `insert_headers_batch`. -/
  | bulk (headers : List BlockHeader) (chunk : List Stmt)
      (linked : LinkedRun headers) (pow : ∀ h ∈ headers, checkPow params h = .ok ())
      (cleared : ∀ h ∈ headers, Cleared w.history h.hash h.height)
      (writes : ∀ stmt ∈ chunk, ∃ h ∈ headers, ∃ work,
        stmt = .activateStored work h.hash h.height ∨ stmt = .insertHeader none h true work) :
      Move w chunk
  /-- A chunk of `store_heal_progress`. -/
  | progress (chunk : List Stmt)
      (writes : ∀ stmt ∈ chunk, ∃ h work, stmt = .insertHeader none h false work ∧
        checkPow params h = .ok ()) :
      Move w chunk
  /-- `SQL_LINK_SPAN`, from the push and from the heal. -/
  | linkSpan (lo hi : Nat) : Move w [.linkSpan lo hi]
  /-- The activation of `canonicalize_pushed`. -/
  | activation (headers : List BlockHeader) (last : BlockHeader) (child : HeaderRow)
      (lowest : Option Nat)
      (cleared : ∀ h ∈ headers, Cleared w.history h.hash h.height)
      (held : child ∈ w.db.rows) (active : child.isActive = true)
      (above : ∀ h ∈ headers, h.height < child.height) :
      Move w (activationTxn headers last child.hash lowest)
  /-- One height of the sweep. -/
  | dedupe (height : Nat) : Move w [.dedupeHeight height]
  /-- A chunk of `repair_cumulative_work`. -/
  | repair (chunk : List Stmt)
      (writes : ∀ stmt ∈ chunk, ∃ work id, stmt = .setChainWork work id) :
      Move w chunk

/-- **One step of a writer** whose transactions are of a kind: a question to the outside,
a check that passed, or a committed transaction. -/
inductive Step (M : World → List Stmt → Prop) : World → World → Prop
  | asked (w : World) : Step M w { w with asked := w.asked + 1 }
  | noted (w : World) (entry : Entry) (check : ∀ b txn a, entry ≠ .commit b txn a)
      (sound : entry.Sound params w.db.rows) :
      Step M w { w with history := entry :: w.history }
  | committed (w : World) (now : Nat) (txn : List Stmt) (move : M w txn) :
      Step M w ⟨execAll now txn w.db, w.asked + 1,
        .commit w.db txn (execAll now txn w.db) :: w.history⟩

end Moves

section Atoms

variable {env : Env} {params : ChainParams} {M : World → List Stmt → Prop} {w : World}

theorem Step.mono {M' : World → List Stmt → Prop} {w' : World} (h : Step params M w w')
    (hM : ∀ w txn, M w txn → M' w txn) : Step params M' w w' := by
  cases h with
  | asked => exact .asked w
  | noted entry check sound => exact .noted w entry check sound
  | committed now txn move => exact .committed w now txn (hM w txn move)

theorem LiveMove.mono {offered offered' : BlockHeader → Prop} {txn : List Stmt}
    (h : LiveMove params offered w txn) (ho : ∀ header, offered header → offered' header) :
    LiveMove params offered' w txn := by
  cases h with
  | insertion header a given pow fresh admitted noted =>
    exact .insertion header a (ho header given) pow fresh admitted noted
  | reorg new row tip plan stored same link flagged apart outworks cleared planned =>
    exact .reorg new row tip plan stored same link flagged apart outworks cleared planned
  | moveTip row stored cleared stands => exact .moveTip row stored cleared stands
  | relink hash stored parent chainWork planned cleared =>
    exact .relink hash stored parent chainWork planned cleared

theorem via_commit {txn : List Stmt} (h : M w txn) :
    Prog.Via (Step params M) (commit env txn) w := by
  refine Prog.Via.step ?_
  cases hacc : env.accepts w.asked with
  | true =>
    rw [commit_ok txn hacc]
    exact .committed w _ txn h
  | false =>
    rw [commit_refused txn hacc]
    exact .asked w

theorem via_ask {α : Type} (question : Nat → α) : Prog.Via (Step params M) (ask question) w :=
  Prog.Via.step (.asked w)

theorem via_askCourier {α : Type} (question : Nat → Except String α) :
    Prog.Via (Step params M) (askCourier question) w :=
  Prog.Via.step (.asked w)

theorem via_notes {entries : List Entry}
    (h : ∀ e ∈ entries, e.Sound params w.db.rows ∧ ∀ b txn a, e ≠ .commit b txn a) :
    Prog.Via (Step params M) (Prog.each note entries) w := by
  induction entries generalizing w with
  | nil => exact Prog.Via.pure ()
  | cons e es ih =>
    obtain ⟨hs, hc⟩ := h e List.mem_cons_self
    refine Prog.Via.bind (Prog.Via.step (.noted w e hc hs)) fun _ w' hw' => ?_
    cases hw'
    exact ih fun e' he' => h e' (List.mem_cons_of_mem e he')

theorem Cleared.mono {history history' : List Entry} {hash : String} {height : Nat}
    (h : Cleared history hash height) (hsub : history ⊆ history') :
    Cleared history' hash height := by
  obtain ⟨header, hh, hht, hv⟩ := h
  refine ⟨header, hh, hht, hv.imp (fun hm => hsub hm) ?_⟩
  rintro ⟨stored, run, hm⟩
  exact ⟨stored, run, hsub hm⟩

/-- The history only grows. -/
theorem Step.history_suffix {w' : World} (h : Step params M w w') : w.history <:+ w'.history := by
  cases h with
  | asked => exact List.suffix_rfl
  | noted => exact List.suffix_cons _ _
  | committed => exact List.suffix_cons _ _

/-- No step deletes a row, or changes its header. -/
theorem Step.keeps {w' : World} (h : Step params M w w') {row : HeaderRow} (hrow : row ∈ w.db.rows) :
    ∃ r ∈ w'.db.rows, r.toBlockHeader = row.toBlockHeader := by
  cases h with
  | asked => exact ⟨row, hrow, rfl⟩
  | noted => exact ⟨row, hrow, rfl⟩
  | committed now txn move =>
    obtain ⟨r, hr, he, -⟩ := onHeadersAll_keeps txn hrow
    rw [← execAll_headers now] at hr
    exact ⟨r, hr, he⟩

/-- No run deletes a row, or changes its header. -/
theorem steps_keep {w' : World} (h : Relation.ReflTransGen (Step params M) w w') {row : HeaderRow}
    (hrow : row ∈ w.db.rows) : ∃ r ∈ w'.db.rows, r.toBlockHeader = row.toBlockHeader := by
  induction h with
  | refl => exact ⟨row, hrow, rfl⟩
  | tail _ hstep ih =>
    obtain ⟨r, hr, he⟩ := ih
    obtain ⟨r', hr', he'⟩ := hstep.keeps hr
    exact ⟨r', hr', he'.trans he⟩

/-- The history of a run is a suffix of the history it leaves. -/
theorem history_suffix {α : Type} {m : Writer α} (h : Prog.Via (Step params M) m w) :
    w.history <:+ (m w).2.history :=
  h.invariant (I := fun w' => w.history <:+ w'.history)
    (fun _ _ hstep hs => hs.trans hstep.history_suffix) List.suffix_rfl

end Atoms

end Chaintracks

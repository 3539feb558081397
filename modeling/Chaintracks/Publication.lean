import Chaintracks.Statement

/-!
# What the triggers publish

Of the statements of the writers only the two that set the flag publish a tip
(`Chaintracks.Stmt.Flags`), and what they publish depends on the header rows as the
statement leaves them and on the hash published last (`Chaintracks.Store.published`). The
journal is read here by its moves, the reorgs and tips in the order they were written
(`Chaintracks.Journal.moves`): a transaction that flags no row adds none
(`Chaintracks.execAll_moves_of_quiet`), and one that ends in the flag adds what its rows
publish (`Chaintracks.execAll_moves_of_flags`).
-/

namespace Chaintracks

open HeaderRows

/-! ### The moves of a journal -/

/-- A reorg or a tip. -/
def ChainEvent.isMove : ChainEvent → Bool
  | reorg .. | tip .. => true
  | _ => false

def ChainEvent.isReorg : ChainEvent → Bool
  | reorg .. => true
  | _ => false

/-- The height and hash a tip announces. -/
def ChainEvent.announces : ChainEvent → Option (Nat × String)
  | tip height hash _ _ => some (height, hash)
  | _ => none

/-- The reorgs and tips of a journal, in the order written. -/
def Journal.moves (j : Journal) : List ChainEvent := (j.rows.map (·.event)).filter (·.isMove)

/-- The height and hash of the newest tip event. -/
def Journal.newestTip (j : Journal) : Option (Nat × String) :=
  (j.moves.filterMap (·.announces)).getLast?

/-- What the served tip publishes of the moves: the reorg if the branch last published has
left the active chain, then the tip. -/
def movesTo (db : Store) (t : HeaderRow) : List ChainEvent :=
  if db.journal.tipHash = some t.hash then []
  else
    (if (oldBranch db).isEmpty then []
      else [.reorg (((oldBranch db).map (·.height)).min?.getD 0) (oldBranch db).length
        ((oldBranch db).map (·.payload)) t.payload]) ++
    [.tip t.height t.hash t.time t.payload]

/-- The moves a store publishes. -/
def Store.published (db : Store) : List ChainEvent :=
  match servedTip db with
  | none => []
  | some t => movesTo db t

/-- The statement sets the flag of a row. -/
def Stmt.Flags : Stmt → Prop
  | setChainTipActive _ | setChainTip _ => True
  | _ => False

section Publication

variable {now : Nat} {db : Store} {j : Journal} {row : JournalRow} {n t : HeaderRow}

/-- A row with a key is no move, so that a move is never left out. -/
theorem Journal.moves_append (h : row.eventKey = none ∨ row.event.isMove = false) :
    (j.append row).moves = j.moves ++ [row.event].filter (·.isMove) := by
  unfold Journal.append
  split
  · rename_i hdup
    rcases h with hkey | hmove
    · rw [hkey] at hdup
      cases hdup.1
    · simp [hmove]
  · simp [Journal.moves]

theorem Journal.tipHash_append : (j.append row).tipHash = j.tipHash := by
  unfold Journal.append
  split <;> rfl

theorem Journal.moves_appendAll {rows : List JournalRow}
    (h : ∀ row ∈ rows, row.eventKey = none ∨ row.event.isMove = false) :
    (rows.foldl Journal.append j).moves = j.moves ++ (rows.map (·.event)).filter (·.isMove) := by
  induction rows generalizing j with
  | nil => simp
  | cons row rows ih =>
    obtain ⟨hrow, hrows⟩ := List.forall_mem_cons.mp h
    rw [List.foldl_cons, ih hrows, Journal.moves_append hrow, List.append_assoc,
      ← List.filter_append, List.map_cons, List.singleton_append]

theorem publications_moves (now : Nat) :
    ((publications now db t).map (·.event)).filter (·.isMove) = movesTo db t := by
  unfold publications movesTo
  split
  · rfl
  · dsimp only
    split <;> rfl

theorem publish_moves :
    (publish now db).journal.moves = db.journal.moves ++ db.published := by
  unfold publish Store.published
  cases servedTip db with
  | none => exact (List.append_nil _).symm
  | some t =>
    have hkey : ∀ row ∈ publications now db t, row.eventKey = none ∨ row.event.isMove = false := by
      unfold publications
      split
      · exact List.forall_mem_nil _
      · dsimp only
        split <;> simp [ChainEvent.isMove]
    dsimp only
    rw [← publications_moves now, ← Journal.moves_appendAll hkey]
    rfl

theorem publish_tipHash : (publish now db).journal.tipHash =
    ((servedTip db).map (·.hash)).or db.journal.tipHash := by
  unfold publish
  split <;> rename_i h <;> rw [h] <;> rfl

theorem publishFork_journal : (publishFork n db).journal.moves = db.journal.moves ∧
    (publishFork n db).journal.tipHash = db.journal.tipHash := by
  unfold publishFork
  split
  · exact ⟨rfl, rfl⟩
  · split
    · dsimp only
      split
      · refine ⟨?_, Journal.tipHash_append⟩
        dsimp only
        rw [Journal.moves_append (.inr rfl)]
        exact List.append_nil _
      · exact ⟨rfl, rfl⟩
    · exact ⟨rfl, rfl⟩

/-- A statement that sets no flag moves nothing in the journal. -/
theorem exec_journal_of_quiet (now : Nat) (db : Store) {stmt : Stmt} (h : ¬stmt.Flags) :
    (stmt.exec now db).journal.moves = db.journal.moves ∧
      (stmt.exec now db).journal.tipHash = db.journal.tipHash := by
  unfold Stmt.exec
  cases stmt with
  | setChainTipActive => exact absurd trivial h
  | setChainTip => exact absurd trivial h
  | insertHeader =>
    unfold Stmt.trigger
    dsimp only
    split
    · exact ⟨rfl, rfl⟩
    · split
      · exact publishFork_journal
      · exact ⟨rfl, rfl⟩
  | relinkHeader | setChainWork | linkChild =>
    unfold Stmt.trigger
    dsimp only
    split
    · exact publishFork_journal
    · exact ⟨rfl, rfl⟩
  | _ => exact ⟨rfl, rfl⟩

/-- **A transaction that flags no row moves nothing in the journal.** -/
theorem execAll_moves_of_quiet (now : Nat) (db : Store) {txn : List Stmt}
    (h : ∀ stmt ∈ txn, ¬stmt.Flags) :
    (execAll now txn db).journal.moves = db.journal.moves ∧
      (execAll now txn db).journal.tipHash = db.journal.tipHash := by
  induction txn generalizing db with
  | nil => exact ⟨rfl, rfl⟩
  | cons stmt txn ih =>
    obtain ⟨hstmt, htxn⟩ := List.forall_mem_cons.mp h
    obtain ⟨hm, ht⟩ := ih (stmt.exec now db) htxn
    obtain ⟨hm', ht'⟩ := exec_journal_of_quiet now db hstmt
    exact ⟨hm.trans hm', ht.trans ht'⟩

/-- The served tip is a matter of the rows and the validation alone. -/
theorem servedTip_congr {db' : Store} (hh : db'.headers = db.headers) (hs : db'.sync = db.sync) :
    servedTip db' = servedTip db := by
  unfold servedTip
  rw [Store.rows, Store.rows, hh, hs]

theorem oldBranch_congr {db' : Store} (hh : db'.headers = db.headers)
    (ht : db'.journal.tipHash = db.journal.tipHash) : oldBranch db' = oldBranch db := by
  unfold oldBranch
  rw [Store.rows, Store.rows, hh, ht]

theorem published_congr {db' : Store} (hh : db'.headers = db.headers) (hs : db'.sync = db.sync)
    (ht : db'.journal.tipHash = db.journal.tipHash) : db'.published = db.published := by
  unfold Store.published movesTo
  rw [servedTip_congr hh hs, oldBranch_congr hh ht, ht]

/-- **A transaction that ends in the flag** publishes what its rows publish, against the
hash published before it. -/
theorem execAll_moves_of_flags (now : Nat) (db : Store) {txn : List Stmt} {hash : String}
    (h : ∀ stmt ∈ txn, ¬stmt.Flags)
    (hrow : ∃ r ∈ (onHeadersAll (txn ++ [.setChainTipActive hash]) db.headers).rows, r.hash = hash) :
    (execAll now (txn ++ [.setChainTipActive hash]) db).journal.moves = db.journal.moves ++
        Store.published { execAll now (txn ++ [.setChainTipActive hash]) db with
          journal := db.journal } ∧
      (execAll now (txn ++ [.setChainTipActive hash]) db).journal.tipHash =
        ((servedTip (execAll now (txn ++ [.setChainTipActive hash]) db)).map (·.hash)).or
          db.journal.tipHash := by
  obtain ⟨hm, ht⟩ := execAll_moves_of_quiet now db h
  rw [execAll_append, execAll_cons, execAll_nil]
  generalize hdb : execAll now txn db = db₁ at hm ht
  rw [onHeadersAll_append, ← execAll_headers now, hdb] at hrow
  obtain ⟨r, hr, hhash⟩ := hrow
  have hexec : (Stmt.setChainTipActive hash).exec now db₁ =
      publish now { headers := (Stmt.setChainTipActive hash).onHeaders db₁.headers
                    sync := db₁.sync, journal := db₁.journal } := by
    have hfind := headerForHash_eq_some (HeaderTable.uniqueHash _) hr
    rw [hhash] at hfind
    exact if_pos (Option.isSome_iff_exists.mpr ⟨r, hfind⟩)
  rw [hexec, publish_moves, publish_tipHash, hm, ht]
  refine ⟨?_, ?_⟩
  · congr 1
    refine (published_congr ?_ ?_ ?_).symm
    · exact publish_headers _ _
    · exact publish_sync _ _
    · exact ht.symm
  · rw [servedTip_congr (publish_headers _ _) (publish_sync _ _)]

end Publication

end Chaintracks

import Chaintracks.Store

/-!
# The statements of the writers, and what the database does behind them

Every write of the `headers` table is one of the statements below, named as the source
names its text (`Chaintracks.Stmt.sql`). A statement changes the header rows
(`Chaintracks.Stmt.onHeaders`) and the sync row (`Chaintracks.Stmt.onSync`), and may
fire a trigger, which writes to the journal alone (`Chaintracks.Stmt.trigger`): the
header rows after a transaction never depend on the journal, and the invariants of the
chain are proved without it.

The journal's triggers read the rows as they stand when the statement has run – inside
a transaction, before its later statements. That is why `Chaintracks.publish` takes
the store as it is at that moment.
-/

namespace Chaintracks

open HeaderRows

/-! ### The statements -/

/-- The statements of the writers, each under the name of its text in the source. -/
inductive Stmt
  /-- An insertion; every caller binds the tip flag to 0. -/
  | insertHeader (previousHeaderId : Option Nat) (header : BlockHeader) (isActive : Bool)
      (chainWork : Nat)
  | clearChainTip
  | setChainTipActive (hash : String)
  | setChainTip (hash : String)
  | deactivateAbove (height : Nat)
  | activateHash (hash : String)
  | relinkHeader (previousHeaderId : Option Nat) (chainWork headerId : Nat)
  | setChainWork (chainWork headerId : Nat)
  | activateStored (chainWork : Nat) (hash : String) (height : Nat)
  | linkChild (parentHash childHash : String)
  | linkSpan (lo hi : Nat)
  | canonicalizeHeight (hash : String) (height : Nat)
  | dedupeHeight (height : Nat)
  | recordPendingReorg (height : Nat)
  deriving DecidableEq

/-- The text of each statement. -/
def Stmt.sql : Stmt → String
  | insertHeader .. =>
    "INSERT OR IGNORE INTO headers (previous_header_id, previous_hash, height, is_active, " ++
    "is_chain_tip, hash, chain_work, version, merkle_root, time, bits, nonce) " ++
    "VALUES (?, ?, ?, ?, ?, ?, ?, ?, ?, ?, ?, ?)"
  | clearChainTip => "UPDATE headers SET is_chain_tip = 0 WHERE is_chain_tip = 1"
  | setChainTipActive _ => "UPDATE headers SET is_chain_tip = 1, is_active = 1 WHERE hash = ?"
  | setChainTip _ => "UPDATE headers SET is_chain_tip = 1 WHERE hash = ?"
  | deactivateAbove _ =>
    "UPDATE headers SET is_active = 0, is_chain_tip = 0 WHERE height > ? AND is_active = 1"
  | activateHash _ => "UPDATE headers SET is_active = 1 WHERE hash = ?"
  | relinkHeader .. =>
    "UPDATE headers SET previous_header_id = ?, chain_work = ? WHERE header_id = ?"
  | setChainWork .. => "UPDATE headers SET chain_work = ? WHERE header_id = ?"
  | activateStored .. =>
    "UPDATE headers SET is_active = 1, chain_work = ?1 WHERE hash = ?2 AND is_active = 0 " ++
    "AND NOT EXISTS (SELECT 1 FROM headers o WHERE o.height = ?3 AND o.is_active = 1)"
  | linkChild .. =>
    "UPDATE headers SET previous_header_id = (SELECT header_id FROM headers WHERE hash = ?1) " ++
    "WHERE hash = ?2"
  | linkSpan .. =>
    "UPDATE headers SET previous_header_id = (SELECT p.header_id FROM headers p " ++
    "WHERE p.hash = headers.previous_hash) " ++
    "WHERE is_active = 1 AND previous_header_id IS NULL AND height >= ?1 AND height <= ?2"
  | canonicalizeHeight .. =>
    "UPDATE headers SET is_active = CASE WHEN hash = ? THEN 1 ELSE 0 END WHERE height = ?"
  | dedupeHeight _ =>
    "UPDATE headers SET is_active = 0 WHERE height = ?1 AND is_active = 1 AND header_id != " ++
    "COALESCE((SELECT MAX(e.header_id) FROM headers e WHERE e.height = ?1 AND e.is_active = 1 " ++
    "AND EXISTS (SELECT 1 FROM headers c WHERE c.height = ?1 + 1 AND c.is_active = 1 " ++
    "AND c.previous_hash = e.hash)), " ++
    "(SELECT MAX(n.header_id) FROM headers n WHERE n.height = ?1 AND n.is_active = 1))"
  | recordPendingReorg _ =>
    "UPDATE sync_state SET pending_reorg_from = CASE WHEN pending_reorg_from IS NULL " ++
    "OR pending_reorg_from > ?1 THEN ?1 ELSE pending_reorg_from END WHERE id = 1"

/-- The row a sweep keeps at a height: the newest of those an active row at the next
height names as its parent, and only where there is none, the newest of all. -/
def dedupeKept (rows : List HeaderRow) (height : Nat) : Option HeaderRow :=
  let active := rows.filter fun r => r.isActive && r.height == height
  let extended := active.filter fun e =>
    rows.any fun c => c.isActive && c.height == height + 1 && c.previousHash == e.hash
  (topmost extended).or (topmost active)

/-- What a statement does to the header rows. -/
def Stmt.onHeaders (t : HeaderTable) : Stmt → HeaderTable
  | insertHeader previousHeaderId header isActive chainWork =>
    t.insert header
      { previousHeaderId, isActive, isChainTip := false, chainWork }
  | clearChainTip =>
    t.update (·.isChainTip) fun r => { r.toRowCells with isChainTip := false }
  | setChainTipActive hash =>
    t.update (·.hash == hash) fun r => { r.toRowCells with isChainTip := true, isActive := true }
  | setChainTip hash =>
    t.update (·.hash == hash) fun r => { r.toRowCells with isChainTip := true }
  | deactivateAbove height =>
    t.update (fun r => height < r.height && r.isActive)
      fun r => { r.toRowCells with isActive := false, isChainTip := false }
  | activateHash hash =>
    t.update (·.hash == hash) fun r => { r.toRowCells with isActive := true }
  | relinkHeader previousHeaderId chainWork headerId =>
    t.update (·.headerId == headerId) fun r => { r.toRowCells with previousHeaderId, chainWork }
  | setChainWork chainWork headerId =>
    t.update (·.headerId == headerId) fun r => { r.toRowCells with chainWork }
  | activateStored chainWork hash height =>
    t.update
      (fun r => r.hash == hash && !r.isActive &&
        !t.rows.any fun o => o.height == height && o.isActive)
      fun r => { r.toRowCells with isActive := true, chainWork }
  | linkChild parentHash childHash =>
    t.update (·.hash == childHash) fun r =>
      { r.toRowCells with previousHeaderId := (headerForHash t.rows parentHash).map (·.headerId) }
  | linkSpan lo hi =>
    t.update
      (fun r => r.isActive && r.previousHeaderId.isNone && (lo ≤ r.height && r.height ≤ hi))
      fun r =>
        { r.toRowCells with
          previousHeaderId := (headerForHash t.rows r.previousHash).map (·.headerId) }
  | canonicalizeHeight hash height =>
    t.update (·.height == height) fun r => { r.toRowCells with isActive := r.hash == hash }
  | dedupeHeight height =>
    t.update
      (fun r => r.height == height && r.isActive &&
        some r.headerId != (dedupeKept t.rows height).map (·.headerId))
      fun r => { r.toRowCells with isActive := false }
  | recordPendingReorg _ => t

/-- What a statement does to the sync row. -/
def Stmt.onSync (sync : SyncState) : Stmt → SyncState
  | recordPendingReorg height =>
    { sync with
      pendingReorgFrom := some <| match sync.pendingReorgFrom with
        | some pending => min pending height
        | none => height }
  | _ => sync

/-! ### The journal's views -/

/-- `chain_event_served_tip`: the flagged active row where the validation is complete;
below the validated height otherwise. -/
def servedTip (db : Store) : Option HeaderRow :=
  let serves (r : HeaderRow) : Bool :=
    r.isActive &&
      if db.sync.validationComplete then r.isChainTip
      else match db.sync.validatedHeight with
        | some v => (r.isChainTip && r.height ≤ v) ||
            (r.height == v && !db.rows.any fun t => t.isChainTip && t.height ≤ v)
        | none => false
  topmost (db.rows.filter serves)

/-- The rows from `row` down by `previous_hash`, through inactive rows only, at most
`fuel` steps. -/
def inactiveBranch (rows : List HeaderRow) : Nat → HeaderRow → List HeaderRow
  | fuel, row =>
    if row.isActive then []
    else row :: match fuel with
      | 0 => []
      | fuel + 1 =>
        match headerForHash rows row.previousHash with
        | some parent => inactiveBranch rows fuel parent
        | none => []

/-- The length the views walk. -/
def branchLimit : Nat := 400

/-- `chain_event_old_branch`: the branch last published, tip first, as far as it has
left the active chain. -/
def oldBranch (db : Store) : List HeaderRow :=
  match db.journal.tipHash.bind (headerForHash db.rows) with
  | some tip => inactiveBranch db.rows branchLimit tip
  | none => []

/-- The nearest active row from `row` down by `previous_hash`, at most `fuel` steps. -/
def nearestActive (rows : List HeaderRow) : Nat → HeaderRow → Option HeaderRow
  | fuel, row =>
    if row.isActive then some row
    else match fuel with
      | 0 => none
      | fuel + 1 => (headerForHash rows row.previousHash).bind (nearestActive rows fuel)

/-! ### The triggers -/

/-- `INSERT INTO chain_events`; a key already in the journal makes it nothing. -/
def Journal.append (j : Journal) (row : JournalRow) : Journal :=
  if row.eventKey.isSome ∧ row.eventKey ∈ j.rows.map (·.eventKey) then j
  else { j with rows := j.rows ++ [row] }

/-- The envelopes a publication writes for the served tip `t`: the reorg if the branch
last published has left the active chain, the tip, and its age. -/
def publications (now : Nat) (db : Store) (t : HeaderRow) : List JournalRow :=
  if db.journal.tipHash = some t.hash then []
  else
    let old := oldBranch db
    (if old.isEmpty then []
      else [⟨.reorg ((old.map (·.height)).min?.getD 0) old.length (old.map (·.payload)) t.payload,
        none⟩]) ++
    [⟨.tip t.height t.hash t.time t.payload, none⟩,
      ⟨.tipAge (now - t.time.toNat) t.payload,
        some ("tipAge:" ++ t.hash ++ ":" ++ toString (now / 60))⟩]

/-- `chain_event_publish`: nothing where no tip is served; otherwise the envelopes, and
the served tip's hash kept as the one last published. -/
def publish (now : Nat) (db : Store) : Store :=
  match servedTip db with
  | none => db
  | some t =>
    { db with
      journal :=
        { ((publications now db t).foldl Journal.append db.journal) with tipHash := some t.hash } }

/-- `chain_event_fork_insert` and `chain_event_fork_relink`: an inactive row whose
parent is stored competes with the served tip from its nearest active ancestor. -/
def publishFork (n : HeaderRow) (db : Store) : Store :=
  if n.isActive || !db.rows.any fun p => p.hash == n.previousHash then db
  else
    match servedTip db, nearestActive db.rows branchLimit n with
    | some t, some a =>
      let validated := db.sync.validationComplete || db.sync.validatedHeight.any (n.height ≤ ·)
      if n.previousHash ≠ t.hash ∧ validated = true ∧ a.height < t.height then
        { db with
          journal := db.journal.append
            ⟨.fork (a.height + 1) (t.height - a.height) [t.payload, n.payload],
              some ("fork:" ++ n.hash ++ ":" ++ t.hash)⟩ }
      else db
    | _, _ => db

/-- The trigger a statement fires, on the store its rows and sync row already stand in;
`old` is the table before it. -/
def Stmt.trigger (now : Nat) (old : HeaderTable) (db : Store) : Stmt → Store
  | insertHeader _ header _ _ =>
    if (headerForHash old.rows header.hash).isSome then db
    else match headerForHash db.rows header.hash with
      | some n => publishFork n db
      | none => db
  | setChainTipActive hash | setChainTip hash =>
    if (headerForHash db.rows hash).isSome then publish now db else db
  | relinkHeader _ _ headerId | setChainWork _ headerId =>
    match headerForId db.rows headerId with
    | some n => publishFork n db
    | none => db
  | linkChild _ childHash =>
    match headerForHash db.rows childHash with
    | some n => publishFork n db
    | none => db
  | _ => db

/-! ### Execution -/

/-- One statement: its rows, its sync row, then its trigger. -/
def Stmt.exec (now : Nat) (db : Store) (stmt : Stmt) : Store :=
  stmt.trigger now db.headers
    { headers := stmt.onHeaders db.headers, sync := stmt.onSync db.sync, journal := db.journal }

/-- A transaction: its statements in order. -/
def execAll (now : Nat) (txn : List Stmt) (db : Store) : Store := txn.foldl (Stmt.exec now) db

/-- What a transaction does to the header rows. -/
def onHeadersAll (txn : List Stmt) (t : HeaderTable) : HeaderTable := txn.foldl Stmt.onHeaders t

section Frame

variable (now : Nat) (db : Store)

@[simp] theorem publish_headers : (publish now db).headers = db.headers := by
  unfold publish
  split <;> rfl

@[simp] theorem publish_sync : (publish now db).sync = db.sync := by
  unfold publish
  split <;> rfl

@[simp] theorem publishFork_headers (n : HeaderRow) : (publishFork n db).headers = db.headers := by
  unfold publishFork
  split
  · rfl
  · split
    · dsimp only
      split <;> rfl
    · rfl

@[simp] theorem publishFork_sync (n : HeaderRow) : (publishFork n db).sync = db.sync := by
  unfold publishFork
  split
  · rfl
  · split
    · dsimp only
      split <;> rfl
    · rfl

/-- **A trigger writes to the journal alone.** -/
theorem trigger_frame (old : HeaderTable) (stmt : Stmt) :
    (stmt.trigger now old db).headers = db.headers ∧
      (stmt.trigger now old db).sync = db.sync := by
  cases stmt <;> simp only [Stmt.trigger] <;>
    (try split) <;> (try split) <;> simp

@[simp] theorem exec_headers (stmt : Stmt) :
    (stmt.exec now db).headers = stmt.onHeaders db.headers :=
  (trigger_frame now _ _ stmt).1

@[simp] theorem exec_sync (stmt : Stmt) : (stmt.exec now db).sync = stmt.onSync db.sync :=
  (trigger_frame now _ _ stmt).2

@[simp] theorem execAll_nil : execAll now [] db = db := rfl

@[simp] theorem execAll_cons (stmt : Stmt) (txn : List Stmt) :
    execAll now (stmt :: txn) db = execAll now txn (stmt.exec now db) := rfl

theorem execAll_append (txn txn' : List Stmt) :
    execAll now (txn ++ txn') db = execAll now txn' (execAll now txn db) :=
  List.foldl_append

@[simp] theorem onHeadersAll_nil (t : HeaderTable) : onHeadersAll [] t = t := rfl

@[simp] theorem onHeadersAll_cons (stmt : Stmt) (txn : List Stmt) (t : HeaderTable) :
    onHeadersAll (stmt :: txn) t = onHeadersAll txn (stmt.onHeaders t) := rfl

theorem onHeadersAll_append (txn txn' : List Stmt) (t : HeaderTable) :
    onHeadersAll (txn ++ txn') t = onHeadersAll txn' (onHeadersAll txn t) :=
  List.foldl_append

/-- The header rows after a transaction do not depend on the journal. -/
@[simp] theorem execAll_headers (txn : List Stmt) :
    (execAll now txn db).headers = onHeadersAll txn db.headers := by
  induction txn generalizing db with
  | nil => rfl
  | cons stmt txn ih => rw [execAll_cons, ih, exec_headers, onHeadersAll_cons]

/-- No statement of the writers changes the validation columns. -/
theorem execAll_validation (txn : List Stmt) :
    (execAll now txn db).sync.validationComplete = db.sync.validationComplete ∧
      (execAll now txn db).sync.validatedHeight = db.sync.validatedHeight := by
  induction txn generalizing db with
  | nil => exact ⟨rfl, rfl⟩
  | cons stmt txn ih =>
    have hstmt : (stmt.exec now db).sync.validationComplete = db.sync.validationComplete ∧
        (stmt.exec now db).sync.validatedHeight = db.sync.validatedHeight := by
      rw [exec_sync]
      cases stmt <;> exact ⟨rfl, rfl⟩
    obtain ⟨h₁, h₂⟩ := ih (stmt.exec now db)
    exact ⟨h₁.trans hstmt.1, h₂.trans hstmt.2⟩

end Frame

/-! ### What a statement keeps -/

section Keeps

variable {t : HeaderTable} {row : HeaderRow}

theorem HeaderTable.update_keeps (cond : HeaderRow → Bool) (set : HeaderRow → RowCells)
    (h : row ∈ t.rows) :
    ∃ r ∈ (t.update cond set).rows, r.toBlockHeader = row.toBlockHeader ∧
      r.headerId = row.headerId := by
  refine ⟨_, HeaderTable.mem_update.mpr ⟨row, h, rfl⟩, ?_⟩
  split <;> exact ⟨rfl, rfl⟩

/-- No statement deletes a row, or changes its header or its id. -/
theorem Stmt.onHeaders_keeps (stmt : Stmt) (h : row ∈ t.rows) :
    ∃ r ∈ (stmt.onHeaders t).rows, r.toBlockHeader = row.toBlockHeader ∧
      r.headerId = row.headerId := by
  cases stmt with
  | insertHeader => exact ⟨row, HeaderTable.mem_insert_of_mem h, rfl, rfl⟩
  | recordPendingReorg => exact ⟨row, h, rfl, rfl⟩
  | _ => exact HeaderTable.update_keeps _ _ h

/-- No transaction deletes a row, or changes its header or its id. -/
theorem onHeadersAll_keeps (txn : List Stmt) (h : row ∈ t.rows) :
    ∃ r ∈ (onHeadersAll txn t).rows, r.toBlockHeader = row.toBlockHeader ∧
      r.headerId = row.headerId := by
  induction txn generalizing t row with
  | nil => exact ⟨row, h, rfl, rfl⟩
  | cons stmt txn ih =>
    obtain ⟨r, hr, hh, hi⟩ := stmt.onHeaders_keeps h
    obtain ⟨r', hr', hh', hi'⟩ := ih hr
    exact ⟨r', hr', hh'.trans hh, hi'.trans hi⟩

/-- A row after a statement was there before, or is the row the statement inserted. -/
theorem Stmt.mem_onHeaders {stmt : Stmt} (h : row ∈ (stmt.onHeaders t).rows) :
    (∃ r ∈ t.rows, row.toBlockHeader = r.toBlockHeader ∧ row.headerId = r.headerId) ∨
      ∃ prev act work, stmt = .insertHeader prev row.toBlockHeader act work := by
  have hupdate : ∀ cond set, row ∈ (t.update cond set).rows →
      ∃ r ∈ t.rows, row.toBlockHeader = r.toBlockHeader ∧ row.headerId = r.headerId := by
    intro cond set hrow
    obtain ⟨r, hr, rfl⟩ := HeaderTable.mem_update.mp hrow
    refine ⟨r, hr, ?_⟩
    split <;> exact ⟨rfl, rfl⟩
  cases stmt with
  | insertHeader prev header act work =>
    rcases HeaderTable.mem_insert h with h | ⟨rfl, -⟩
    · exact .inl ⟨row, h, rfl, rfl⟩
    · exact .inr ⟨prev, act, work, rfl⟩
  | recordPendingReorg => exact .inl ⟨row, h, rfl, rfl⟩
  | _ => exact .inl (hupdate _ _ h)

/-- A row after a transaction was there before, or was inserted by it. -/
theorem mem_onHeadersAll {txn : List Stmt} (h : row ∈ (onHeadersAll txn t).rows) :
    (∃ r ∈ t.rows, row.toBlockHeader = r.toBlockHeader ∧ row.headerId = r.headerId) ∨
      ∃ prev act work, .insertHeader prev row.toBlockHeader act work ∈ txn := by
  induction txn generalizing t with
  | nil => exact .inl ⟨row, h, rfl, rfl⟩
  | cons stmt txn ih =>
    rcases ih h with ⟨r, hr, hh, hi⟩ | ⟨prev, act, work, hins⟩
    · rcases Stmt.mem_onHeaders hr with ⟨r', hr', hh', hi'⟩ | ⟨prev, act, work, rfl⟩
      · exact .inl ⟨r', hr', hh.trans hh', hi.trans hi'⟩
      · exact .inr ⟨prev, act, work, hh ▸ List.mem_cons_self⟩
    · exact .inr ⟨prev, act, work, List.mem_cons_of_mem _ hins⟩

/-- After a tip move the row it names, where it is stored, is active and flagged. -/
theorem setChainTipActive_row (txn : List Stmt) (h : row ∈ t.rows) :
    ∃ r ∈ (onHeadersAll (txn ++ [.setChainTipActive row.hash]) t).rows,
      r.toBlockHeader = row.toBlockHeader ∧ r.isActive = true ∧ r.isChainTip = true := by
  obtain ⟨r, hr, hh, -⟩ := onHeadersAll_keeps txn h
  rw [onHeadersAll_append]
  refine ⟨_, HeaderTable.mem_update.mpr ⟨r, hr, rfl⟩, ?_⟩
  have hhash : r.hash = row.hash := congrArg BlockHeader.hash hh
  rw [if_pos (beq_iff_eq.mpr hhash)]
  exact ⟨hh, rfl, rfl⟩

end Keeps

end Chaintracks

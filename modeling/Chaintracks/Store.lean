import Chaintracks.Window

/-!
# The store: header rows, the sync row and the event journal

One database holds three tables the writers meet: the header rows, the single row of
`sync_state`, and the journal of chain events with the hash of the tip last published.
A row is a header with what the store adds to it: its own id, the id of its parent row
where it has been linked, whether it is active, whether it carries the tip flag, and
its cumulative work.

The reads are functions of the rows alone, one per named query of the source. The two
that answer at most one row out of several – the flagged tip and the highest active
row – order by height and then by id, which is `Chaintracks.topmost`.
-/

namespace Chaintracks

/-! ### Rows -/

/-- The columns of a row an `UPDATE` may set. The chain work, stored as sixty-four hex
digits, is kept as its value. -/
@[ext]
structure RowCells where
  previousHeaderId : Option Nat
  isActive : Bool
  isChainTip : Bool
  chainWork : Nat
  deriving DecidableEq

/-- A row of the `headers` table: the header as it was offered, the row's id, and the
columns that change. -/
structure HeaderRow extends BlockHeader, RowCells where
  headerId : Nat
  deriving DecidableEq

/-- A header with the id of its parent's row, as the walks go back from it; an offered
header has none. -/
structure LinkedHeader extends BlockHeader where
  previousHeaderId : Option Nat
  deriving DecidableEq

/-- An offered header as the walks take it. -/
def BlockHeader.linked (header : BlockHeader) : LinkedHeader := ⟨header, none⟩

/-- A stored row as the walks take it. -/
def HeaderRow.linked (row : HeaderRow) : LinkedHeader := ⟨row.toBlockHeader, row.previousHeaderId⟩

/-- What an envelope publishes of a row: the header and its cumulative work. -/
structure EnvelopeHeader extends BlockHeader where
  chainWork : Nat
  deriving DecidableEq

/-- The `payload` of `chain_event_headers`. -/
def HeaderRow.payload (row : HeaderRow) : EnvelopeHeader := ⟨row.toBlockHeader, row.chainWork⟩

/-- An envelope of the journal. -/
inductive ChainEvent
  | reorg (forkHeight depth : Nat) (deactivatedHeaders : List EnvelopeHeader)
      (newTip : EnvelopeHeader)
  | tip (height : Nat) (hash : String) (time : UInt32) (header : EnvelopeHeader)
  | tipAge (seconds : Nat) (tip : EnvelopeHeader)
  | fork (height depth : Nat) (competingTips : List EnvelopeHeader)
  deriving DecidableEq

/-- A row of `chain_events`; its cursor is its place in the journal. -/
structure JournalRow where
  event : ChainEvent
  eventKey : Option String
  deriving DecidableEq

/-- The tables `chain_events` and `chain_event_state`. -/
structure Journal where
  rows : List JournalRow
  tipHash : Option String
  deriving DecidableEq

/-- The columns of `sync_state` the headers' writers, the re-validation and the journal's
views read. -/
structure SyncState where
  pendingReorgFrom : Option Nat
  validatedHeight : Option Nat
  validatedHash : Option String
  validationFault : Option String
  validationComplete : Bool
  deriving DecidableEq

/-- The `headers` table. The hash is `UNIQUE` and the id the primary key: no table
breaks either, so both are part of the type. -/
structure HeaderTable where
  rows : List HeaderRow
  uniqueHash : (rows.map (·.hash)).Nodup
  uniqueId : (rows.map (·.headerId)).Nodup
  deriving DecidableEq

/-- The database. -/
structure Store where
  headers : HeaderTable
  sync : SyncState
  journal : Journal
  deriving DecidableEq

/-- The header rows. -/
abbrev Store.rows (db : Store) : List HeaderRow := db.headers.rows

/-- The store as the migrations leave it where no header was ever written: there is
nothing to re-validate, so the validation is complete. -/
def Store.fresh : Store where
  headers := { rows := [], uniqueHash := List.nodup_nil, uniqueId := List.nodup_nil }
  sync :=
    { pendingReorgFrom := none, validatedHeight := none, validatedHash := none
      validationFault := none, validationComplete := true }
  journal := { rows := [], tipHash := none }

/-! ### The topmost of several rows -/

/-- `ORDER BY height DESC, header_id DESC LIMIT 1`. -/
def topmost : List HeaderRow → Option HeaderRow
  | [] => none
  | row :: rows =>
    match topmost rows with
    | none => some row
    | some top =>
      if top.height < row.height ∨ top.height = row.height ∧ top.headerId ≤ row.headerId then
        some row
      else some top

theorem topmost_mem {rows : List HeaderRow} {top : HeaderRow} (h : topmost rows = some top) :
    top ∈ rows := by
  induction rows generalizing top with
  | nil => cases h
  | cons row rows ih =>
    rw [topmost] at h
    split at h
    · cases h
      exact List.mem_cons_self
    · rename_i t ht
      split at h
      · cases h
        exact List.mem_cons_self
      · cases h
        exact List.mem_cons_of_mem _ (ih ht)

theorem topmost_eq_none {rows : List HeaderRow} : topmost rows = none ↔ rows = [] := by
  cases rows with
  | nil => simp [topmost]
  | cons row rows =>
    simp only [topmost, reduceCtorEq, iff_false]
    split
    · simp
    · split <;> simp

/-- The topmost row is no lower than any other. -/
theorem height_le_topmost {rows : List HeaderRow} {top row : HeaderRow}
    (h : topmost rows = some top) (hrow : row ∈ rows) : row.height ≤ top.height := by
  induction rows generalizing top with
  | nil => cases hrow
  | cons head rows ih =>
    rw [topmost] at h
    split at h
    · rename_i hnone
      cases h
      rw [topmost_eq_none.mp hnone, List.mem_singleton] at hrow
      rw [hrow]
    · rename_i t ht
      rcases List.mem_cons.mp hrow with rfl | hrow
      · split at h <;> cases h <;> omega
      · have := ih ht hrow
        split at h <;> cases h <;> omega

/-- A row that stands alone is the topmost. -/
theorem topmost_eq_of_forall {rows : List HeaderRow} {row : HeaderRow} (hrow : row ∈ rows)
    (h : ∀ r ∈ rows, r = row) : topmost rows = some row := by
  cases ht : topmost rows with
  | none =>
    rw [topmost_eq_none.mp ht] at hrow
    cases hrow
  | some top => rw [h top (topmost_mem ht)]

/-! ### The reads -/

namespace HeaderRows

variable (rows : List HeaderRow)

/-- `find_header_for_hash`: any row by hash. -/
def headerForHash (hash : String) : Option HeaderRow := rows.find? fun r => r.hash == hash

/-- The row of an id. -/
def headerForId (id : Nat) : Option HeaderRow := rows.find? fun r => r.headerId == id

/-- `find_chain_tip`: the flagged row. -/
def chainTip : Option HeaderRow := topmost (rows.filter (·.isChainTip))

/-- The highest active row. -/
def highestActive : Option HeaderRow := topmost (rows.filter (·.isActive))

/-- `find_header_for_height`: the active row at a height, the newest where two stand. -/
def headerForHeight (height : Nat) : Option HeaderRow :=
  topmost (rows.filter fun r => r.isActive && r.height == height)

/-- The active rows of `[lo, hi]`, ascending. -/
def activeHeadersBetween (lo hi : Nat) : List HeaderRow :=
  (rows.filter fun r => r.isActive && (lo ≤ r.height && r.height ≤ hi)).insertionSort
    fun a b => a.height ≤ b.height

/-- How many active rows stand above a height. -/
def countActiveAbove (height : Nat) : Nat :=
  (rows.filter fun r => r.isActive && height < r.height).length

/-- The hashes stored inactive in `[lo, hi]`. -/
def inactiveHashesBetween (lo hi : Nat) : List String :=
  (rows.filter fun r => !r.isActive && (lo ≤ r.height && r.height ≤ hi)).map (·.hash)

/-- The rowid an insertion gives: one above the largest. -/
def nextId : Nat := (rows.map (·.headerId)).foldr max 0 + 1

end HeaderRows

section Reads

open HeaderRows

variable {rows : List HeaderRow} {row : HeaderRow} {hash : String}

theorem headerForHash_mem (h : headerForHash rows hash = some row) : row ∈ rows :=
  List.mem_of_find?_eq_some h

theorem headerForHash_hash (h : headerForHash rows hash = some row) : row.hash = hash := by
  simpa using List.find?_some h

theorem headerForHash_eq_none : headerForHash rows hash = none ↔ ∀ r ∈ rows, r.hash ≠ hash := by
  simp [headerForHash, List.find?_eq_none]

theorem headerForId_mem {id : Nat} (h : headerForId rows id = some row) : row ∈ rows :=
  List.mem_of_find?_eq_some h

theorem headerForId_id {id : Nat} (h : headerForId rows id = some row) : row.headerId = id := by
  simpa using List.find?_some h

theorem chainTip_mem (h : chainTip rows = some row) : row ∈ rows :=
  (List.mem_filter.mp (topmost_mem h)).1

theorem chainTip_isChainTip (h : chainTip rows = some row) : row.isChainTip = true :=
  (List.mem_filter.mp (topmost_mem h)).2

theorem chainTip_eq_none : chainTip rows = none ↔ ∀ r ∈ rows, r.isChainTip = false := by
  simp [chainTip, topmost_eq_none, List.filter_eq_nil_iff]

theorem highestActive_mem (h : highestActive rows = some row) : row ∈ rows :=
  (List.mem_filter.mp (topmost_mem h)).1

theorem highestActive_isActive (h : highestActive rows = some row) : row.isActive = true :=
  (List.mem_filter.mp (topmost_mem h)).2

theorem mem_activeHeadersBetween {lo hi : Nat} :
    row ∈ activeHeadersBetween rows lo hi ↔
      row ∈ rows ∧ row.isActive = true ∧ lo ≤ row.height ∧ row.height ≤ hi := by
  simp [activeHeadersBetween, List.mem_insertionSort, List.mem_filter]

theorem headerId_lt_nextId (h : row ∈ rows) : row.headerId < nextId rows := by
  induction rows with
  | nil => cases h
  | cons head rows ih =>
    rcases List.mem_cons.mp h with rfl | h
    · simp only [nextId, List.map_cons, List.foldr_cons]
      omega
    · have := ih h
      simp only [nextId, List.map_cons, List.foldr_cons] at this ⊢
      omega

/-- Where hashes are not repeated, a row is the one its hash finds. -/
theorem headerForHash_eq_some (hnd : (rows.map (·.hash)).Nodup) (h : row ∈ rows) :
    headerForHash rows row.hash = some row := by
  cases hf : headerForHash rows row.hash with
  | none => exact absurd rfl (headerForHash_eq_none.mp hf row h)
  | some r =>
    have := List.inj_on_of_nodup_map hnd (headerForHash_mem hf) h (headerForHash_hash hf)
    rw [this]

/-- Where ids are not repeated, a row is the one its id finds. -/
theorem headerForId_eq_some (hnd : (rows.map (·.headerId)).Nodup) (h : row ∈ rows) :
    headerForId rows row.headerId = some row := by
  cases hf : headerForId rows row.headerId with
  | none =>
    simp only [headerForId, List.find?_eq_none] at hf
    simpa using hf row h
  | some r =>
    have := List.inj_on_of_nodup_map hnd (headerForId_mem hf) h (headerForId_id hf)
    rw [this]

end Reads

/-! ### The two writes of the table -/

namespace HeaderTable

/-- `UPDATE headers SET set WHERE cond`. -/
def update (t : HeaderTable) (cond : HeaderRow → Bool) (set : HeaderRow → RowCells) :
    HeaderTable where
  rows := t.rows.map fun r => if cond r then { r with toRowCells := set r } else r
  uniqueHash := by
    have h : ∀ r : HeaderRow,
        (if cond r then { r with toRowCells := set r } else r).hash = r.hash := by
      intro r
      split <;> rfl
    simpa only [List.map_map, Function.comp_def, h] using t.uniqueHash
  uniqueId := by
    have h : ∀ r : HeaderRow,
        (if cond r then { r with toRowCells := set r } else r).headerId = r.headerId := by
      intro r
      split <;> rfl
    simpa only [List.map_map, Function.comp_def, h] using t.uniqueId

/-- The row an insertion would write. -/
def newRow (t : HeaderTable) (header : BlockHeader) (cells : RowCells) : HeaderRow where
  toBlockHeader := header
  toRowCells := cells
  headerId := HeaderRows.nextId t.rows

/-- `INSERT OR IGNORE INTO headers`: a stored hash makes it nothing. -/
def insert (t : HeaderTable) (header : BlockHeader) (cells : RowCells) : HeaderTable :=
  if h : (HeaderRows.headerForHash t.rows header.hash).isNone then
    { rows := t.rows ++ [t.newRow header cells]
      uniqueHash := by
        have hnone := headerForHash_eq_none.mp (Option.isNone_iff_eq_none.mp h)
        rw [List.map_append, List.nodup_append]
        refine ⟨t.uniqueHash, by simp, ?_⟩
        intro a ha b hb hab
        obtain ⟨r, hr, rfl⟩ := List.mem_map.mp ha
        rw [List.map_singleton, List.mem_singleton] at hb
        exact hnone r hr (hab.trans hb)
      uniqueId := by
        rw [List.map_append, List.nodup_append]
        refine ⟨t.uniqueId, by simp, ?_⟩
        intro a ha b hb hab
        obtain ⟨r, hr, rfl⟩ := List.mem_map.mp ha
        rw [List.map_singleton, List.mem_singleton] at hb
        exact absurd (hab.trans hb) (Nat.ne_of_lt (headerId_lt_nextId hr)) }
  else t

section Writes

variable {t : HeaderTable} {row : HeaderRow}

theorem mem_update {cond : HeaderRow → Bool} {set : HeaderRow → RowCells} :
    row ∈ (t.update cond set).rows ↔
      ∃ r ∈ t.rows, row = if cond r then { r with toRowCells := set r } else r := by
  simp only [update, List.mem_map, eq_comm]

/-- A row after an update, by its header and its cells. -/
theorem of_mem_update {cond : HeaderRow → Bool} {set : HeaderRow → RowCells}
    (h : row ∈ (t.update cond set).rows) :
    ∃ r ∈ t.rows, row.toBlockHeader = r.toBlockHeader ∧ row.headerId = r.headerId ∧
      row.toRowCells = if cond r then set r else r.toRowCells := by
  obtain ⟨r, hr, rfl⟩ := mem_update.mp h
  refine ⟨r, hr, ?_⟩
  split <;> exact ⟨rfl, rfl, rfl⟩

theorem insert_of_stored {header : BlockHeader} {cells : RowCells}
    (h : ∃ r ∈ t.rows, r.hash = header.hash) : t.insert header cells = t := by
  unfold insert
  split
  · rename_i hnone
    obtain ⟨r, hr, hh⟩ := h
    exact absurd hh (headerForHash_eq_none.mp (Option.isNone_iff_eq_none.mp hnone) r hr)
  · rfl

theorem insert_rows {header : BlockHeader} {cells : RowCells}
    (h : ∀ r ∈ t.rows, r.hash ≠ header.hash) :
    (t.insert header cells).rows = t.rows ++ [t.newRow header cells] := by
  unfold insert
  rw [dif_pos (by rw [headerForHash_eq_none.mpr h]; rfl)]

/-- A row after an insertion was there before, or is the new row. -/
theorem mem_insert {header : BlockHeader} {cells : RowCells}
    (h : row ∈ (t.insert header cells).rows) :
    row ∈ t.rows ∨ row = t.newRow header cells ∧ ∀ r ∈ t.rows, r.hash ≠ header.hash := by
  by_cases hs : ∃ r ∈ t.rows, r.hash = header.hash
  · exact .inl (insert_of_stored hs ▸ h)
  · have hs' : ∀ r ∈ t.rows, r.hash ≠ header.hash := by
      intro r hr hh
      exact hs ⟨r, hr, hh⟩
    rw [insert_rows hs', List.mem_append, List.mem_singleton] at h
    exact h.imp_right fun h => ⟨h, hs'⟩

theorem mem_insert_of_mem {header : BlockHeader} {cells : RowCells} (h : row ∈ t.rows) :
    row ∈ (t.insert header cells).rows := by
  by_cases hs : ∃ r ∈ t.rows, r.hash = header.hash
  · rwa [insert_of_stored hs]
  · rw [insert_rows (fun r hr hh => hs ⟨r, hr, hh⟩)]
    exact List.mem_append_left _ h

/-- Two rows of one hash are one row. -/
theorem eq_of_hash {r : HeaderRow} (h : row ∈ t.rows) (hr : r ∈ t.rows)
    (hh : row.hash = r.hash) : row = r :=
  List.inj_on_of_nodup_map t.uniqueHash h hr hh

/-- Two rows of one id are one row. -/
theorem eq_of_headerId {r : HeaderRow} (h : row ∈ t.rows) (hr : r ∈ t.rows)
    (hi : row.headerId = r.headerId) : row = r :=
  List.inj_on_of_nodup_map t.uniqueId h hr hi

/-- A table is its rows. -/
theorem eq_of_rows {t' : HeaderTable} (h : t.rows = t'.rows) : t = t' := by
  cases t
  cases h
  rfl

/-- An update of no row is none. -/
theorem update_of_none {cond : HeaderRow → Bool} {set : HeaderRow → RowCells}
    (h : ∀ r ∈ t.rows, cond r = false) : t.update cond set = t := by
  refine eq_of_rows ((List.map_congr_left fun r hr => ?_).trans (List.map_id _))
  rw [h r hr]
  rfl

end Writes

end HeaderTable

end Chaintracks

import Chaintracks.Retention
import Chaintracks.Library.Pages

/-!
# The two readers of the journal

A page of the journal is read in two ways. `Chaintracks.readPage` asks for the head first
and then for the rows above the cursor, one more than the page holds.
`Chaintracks.readWake` asks once: the head, the floor and the served tip stand on every row
the query answers, and on one row with neither cursor nor payload where there is no row
above the cursor.

Both cut the same rows to the same page (`Chaintracks.readWake_page`). A reader that goes
on from the cursor of each page, by either way, while rows are appended, is then at every
moment exactly as far as its cursor says (`Chaintracks.follow_delivers`): a row is
delivered once, in its place, readable or not. And it gets to the end: a page that says
there is more holds a row, so there are no more such pages than rows
(`Chaintracks.paging_whole`).
-/

namespace Chaintracks

/-- `ServedTip`. -/
structure ServedTip where
  height : UInt32
  hash : String
  time : UInt32
  deriving DecidableEq

/-- The `json_object` of the served tip's three columns, and what reads it back. -/
structure TipJson where
  write : ServedTip → String
  read : String → Except String ServedTip
  read_write : ∀ tip, read (write tip) = .ok tip

/-- `Page`. -/
structure Page where
  cursor : Nat
  events : List JournalEvent
  hasMore : Bool
  deriving DecidableEq

/-- `Wake`: a page, with the journal's head, its floor and the served tip. -/
structure Wake where
  page : Page
  head : Nat
  floor : Nat
  tip : Option ServedTip
  deriving DecidableEq

/-- A row `SQL_WAKE` answers. -/
structure WakeRow where
  head : Nat
  floor : Option Nat
  tip : Option String
  cursor : Option Nat
  payload : Option String
  deriving DecidableEq

section Readers

variable (reader : PayloadReader) (json : TipJson)

/-- The page both readers make of what they read: the cursor it was read from, the events
and how many of them fit. -/
def Page.of (since limit : Nat) (events : List JournalEvent) : Page where
  cursor := ((events.take limit).getLast?.map (·.cursor)).getD since
  events := events.take limit
  hasMore := limit < events.length

/-- `head`, with the bound on what a cursor may be. -/
def EventJournal.checkedHead (j : EventJournal) : Except String Nat :=
  if maxCursor < j.head then .error "event cursor exhausted" else .ok j.head

/-- What both readers refuse. -/
def badRead (since limit : Nat) : Bool := maxCursor < since || !(1 ≤ limit && limit ≤ pageSize)

/-- `read_page`: the head is read from one journal, the rows from the journal as it is
then. -/
def readPage (j j' : EventJournal) (since limit : Nat) : Except String Page :=
  if badRead since limit then .error "invalid event cursor or page size"
  else do
    let head ← j.checkedHead
    if head < since then throw "cursorAhead: cursor belongs to another journal"
    let rows := (Pages.above EventRow.cursor j'.rows since).take (limit + 1)
    pure (.of since limit (rows.map (journalEvent reader)))

/-- `SQL_WAKE`: the anchor's columns beside every row of the page, or beside none. -/
def sqlWake (j : EventJournal) (tip : Option ServedTip) (since limit : Nat) : List WakeRow :=
  let anchor := fun cursor payload => ⟨j.head, some j.floor, tip.map json.write, cursor, payload⟩
  match (Pages.above EventRow.cursor j.rows since).take limit with
  | [] => [anchor none none]
  | rows => rows.map fun r => anchor (some r.cursor) (some r.payload)

/-- The event of a row of the left join, where it has one. -/
def WakeRow.event (row : WakeRow) : Option JournalEvent := do
  let cursor ← row.cursor
  let payload ← row.payload
  pure (journalEvent reader ⟨cursor, payload, none, 0⟩)

/-- The served tip of the anchor's column. -/
def readTip : Option String → Except String (Option ServedTip)
  | none => .ok none
  | some raw =>
    match json.read raw with
    | .ok tip => .ok (some tip)
    | .error e => .error s!"served tip unreadable: {e}"

/-- `read_wake`. -/
def readWake (j : EventJournal) (tip : Option ServedTip) (since limit : Nat) :
    Except String Wake :=
  if badRead since limit then .error "invalid event cursor or page size"
  else
    let rows := sqlWake json j tip since (limit + 1)
    match rows with
    | [] => .error "event journal unavailable"
    | anchor :: _ =>
      if maxCursor < anchor.head then .error "event cursor exhausted"
      else match anchor.floor with
        | none => .error "chain_event_state row 1 is missing (migration 0012?)"
        | some floor => (readTip json anchor.tip).map fun tip =>
            ⟨.of since limit (rows.filterMap (WakeRow.event reader)), anchor.head, floor, tip⟩

end Readers

section Reads

variable {reader : PayloadReader} {json : TipJson} {j j' : EventJournal} {since limit : Nat}
  {tip : Option ServedTip} {page : Page}

/-! ### One page, two queries -/

theorem readTip_write (tip : Option ServedTip) : readTip json (tip.map json.write) = .ok tip := by
  cases tip with
  | none => rfl
  | some tip => rw [Option.map_some, readTip, json.read_write]

/-- The first row of the query carries the anchor, whether a row of the page or none. -/
theorem sqlWake_anchor (json : TipJson) (j : EventJournal) (tip : Option ServedTip)
    (since limit : Nat) :
    ∃ anchor rest, sqlWake json j tip since limit = anchor :: rest ∧ anchor.head = j.head ∧
      anchor.floor = some j.floor ∧ anchor.tip = tip.map json.write := by
  rw [sqlWake]
  cases (Pages.above EventRow.cursor j.rows since).take limit with
  | nil => exact ⟨_, _, rfl, rfl, rfl, rfl⟩
  | cons r rows => exact ⟨_, _, rfl, rfl, rfl, rfl⟩

/-- The rows of the left join that have an event are the page's, in its order. -/
theorem sqlWake_events (reader : PayloadReader) (json : TipJson) (j : EventJournal)
    (tip : Option ServedTip) (since limit : Nat) :
    (sqlWake json j tip since limit).filterMap (WakeRow.event reader) =
      ((Pages.above EventRow.cursor j.rows since).take limit).map (journalEvent reader) := by
  rw [sqlWake]
  cases (Pages.above EventRow.cursor j.rows since).take limit with
  | nil => rfl
  | cons r rows =>
    dsimp only
    rw [List.filterMap_map]
    exact List.filterMap_eq_map_iff_forall_eq_some.mpr fun r _ => rfl

/-- What `read_page` answers at a cursor the journal has. -/
theorem readPage_eq (hsince : since ≤ j.head) :
    readPage reader j j' since limit =
      if badRead since limit then .error "invalid event cursor or page size"
      else if maxCursor < j.head then .error "event cursor exhausted"
      else .ok (.of since limit (((Pages.above EventRow.cursor j'.rows since).take (limit + 1)).map
        (journalEvent reader))) := by
  rw [readPage, EventJournal.checkedHead]
  split
  · rfl
  · split
    · rfl
    · change (if j.head < since then _ else _ : Except String Page) = _
      rw [if_neg (Nat.not_lt.mpr hsince)]
      rfl

/-- What `read_wake` answers. -/
theorem readWake_eq :
    readWake reader json j tip since limit =
      if badRead since limit then .error "invalid event cursor or page size"
      else if maxCursor < j.head then .error "event cursor exhausted"
      else .ok ⟨.of since limit (((Pages.above EventRow.cursor j.rows since).take (limit + 1)).map
        (journalEvent reader)), j.head, j.floor, tip⟩ := by
  obtain ⟨anchor, rest, hrows, hhead, hfloor, htip⟩ :=
    sqlWake_anchor json j tip since (limit + 1)
  have hevents := sqlWake_events reader json j tip since (limit + 1)
  rw [readWake]
  dsimp only
  rw [hrows] at hevents ⊢
  dsimp only
  rw [hhead, hfloor, htip, readTip_write, hevents]
  rfl

/-- **Both readers return the same page.** -/
theorem readWake_page (hsince : since ≤ j.head) :
    (readWake reader json j tip since limit).map (·.page) = readPage reader j j since limit := by
  rw [readWake_eq, readPage_eq hsince]
  split
  · rfl
  · split <;> rfl

/-- A page that was read, of the rows as they were then. -/
theorem readPage_ok (hsince : since ≤ j.head) (h : readPage reader j j' since limit = .ok page) :
    page = .of since limit (((Pages.above EventRow.cursor j'.rows since).take (limit + 1)).map
      (journalEvent reader)) := by
  rw [readPage_eq hsince] at h
  split at h
  · exact absurd h (by simp)
  · split at h
    · exact absurd h (by simp)
    · exact (Except.ok.inj h).symm

/-- The page's cursor is that of its last row. -/
theorem Page.of_cursor (reader : PayloadReader) (since limit : Nat) (rows : List EventRow) :
    (Page.of since limit ((rows.take (limit + 1)).map (journalEvent reader))).events =
        (rows.take limit).map (journalEvent reader) ∧
      (Page.of since limit ((rows.take (limit + 1)).map (journalEvent reader))).cursor =
        Pages.bound EventRow.cursor since (rows.take limit) := by
  have hevents : ((rows.take (limit + 1)).map (journalEvent reader)).take limit =
      (rows.take limit).map (journalEvent reader) := by
    rw [← List.map_take, List.take_take, Nat.min_eq_left (Nat.le_succ limit)]
  refine ⟨hevents, ?_⟩
  rw [Page.of, hevents, List.getLast?_map, Option.map_map, Pages.bound]
  exact congrArg (fun f => (Option.map f (rows.take limit).getLast?).getD since)
    (funext fun r => journalEvent_cursor reader r)

/-- **What a page is**: the events of the rows between the cursor it was read from and its
own, which the journal has reached; and nothing is left above its cursor unless it says
so. -/
theorem page_of_rows (reader : PayloadReader) (j : EventJournal) (since : Nat) {limit : Nat}
    (h : page = .of since limit (((Pages.above EventRow.cursor j.rows since).take (limit + 1)).map
      (journalEvent reader))) :
    since ≤ page.cursor ∧ (page.cursor = since ∨ ∃ r ∈ j.rows, r.cursor = page.cursor) ∧
      page.events =
        (Pages.between EventRow.cursor j.rows since page.cursor).map (journalEvent reader) ∧
      (page.hasMore = false ↔ ∀ r ∈ j.rows, r.cursor ≤ page.cursor) := by
  obtain ⟨hevents, hcursor⟩ :=
    Page.of_cursor reader since limit (Pages.above EventRow.cursor j.rows since)
  rw [← h] at hevents hcursor
  have hle := @Pages.le_bound _ EventRow.cursor j.rows since limit
  rw [hcursor, hevents]
  refine ⟨hle, ?_, ?_, ?_⟩
  · rcases Pages.bound_cases with hsame | ⟨r, hr, hlast⟩
    · exact .inl hsame
    · exact .inr ⟨r, (Pages.mem_above.mp (List.mem_of_mem_take hr)).1, hlast⟩
  · rw [← Pages.take_eq_between j.ascending]
  · have habove : (Pages.above EventRow.cursor j.rows since).Pairwise
        fun r r' => r.cursor < r'.cursor := j.ascending.filter _
    have hmore : page.hasMore = false ↔
        (Pages.above EventRow.cursor j.rows since).length ≤ limit := by
      rw [h, Page.of, decide_eq_false_iff_not, List.length_map, List.length_take]
      omega
    rw [hmore]
    constructor
    · rintro hshort r hr
      by_cases hsince : since < r.cursor
      · exact Pages.le_bound_of_short j.ascending hshort r hr hsince
      · omega
    · rintro hall
      have hleft := (Pages.le_bound_iff (n := limit) habove
        fun r hr => (Pages.mem_above.mp hr).2).2
      by_contra hlong
      have hin : ((Pages.above EventRow.cursor j.rows since)[limit]) ∈
          (Pages.above EventRow.cursor j.rows since).drop limit := by
        rw [List.drop_eq_getElem_cons (Nat.not_le.mp hlong)]
        exact List.mem_cons_self
      have hmem := (Pages.mem_above.mp (List.mem_of_mem_drop hin)).1
      exact absurd (hleft _ hin) (Nat.not_lt.mpr (hall _ hmem))

/-- **A page that says there is more moves the cursor**: it is full, and its last row stands
above the cursor it was read from. -/
theorem page_moves (reader : PayloadReader) (j : EventJournal) (since : Nat) {limit : Nat}
    (h : page = .of since limit (((Pages.above EventRow.cursor j.rows since).take (limit + 1)).map
      (journalEvent reader))) (hpos : 1 ≤ limit) (hmore : page.hasMore = true) :
    page.events.length = limit ∧ since < page.cursor := by
  obtain ⟨hevents, hcursor⟩ :=
    Page.of_cursor reader since limit (Pages.above EventRow.cursor j.rows since)
  rw [← h] at hevents hcursor
  have hlong : limit < (Pages.above EventRow.cursor j.rows since).length := by
    rw [h, Page.of, decide_eq_true_eq, List.length_map, List.length_take] at hmore
    omega
  have hfull : ((Pages.above EventRow.cursor j.rows since).take limit).length = limit := by
    rw [List.length_take]
    omega
  exact ⟨by rw [hevents, List.length_map, hfull], hcursor ▸ Pages.lt_bound (by omega)⟩

/-- A read within a page's limits is refused where the journal has run past the last cursor, and
answered otherwise. -/
theorem readPage_spec (hsince : since ≤ j.head) (hlimit : 1 ≤ limit ∧ limit ≤ pageSize) :
    (∃ e, readPage reader j j' since limit = .error e ∧ maxCursor < j.head) ∨
      readPage reader j j' since limit =
        .ok (.of since limit (((Pages.above EventRow.cursor j'.rows since).take (limit + 1)).map
          (journalEvent reader))) := by
  rw [readPage_eq hsince]
  rcases Nat.lt_or_ge maxCursor j.head with hpast | hhead
  · left
    split
    · exact ⟨_, rfl, hpast⟩
    · exact ⟨_, rfl, hpast⟩
  · right
    have hgood : badRead since limit = false := by
      rw [badRead, Bool.or_eq_false_iff, decide_eq_false_iff_not, Bool.not_eq_false',
        Bool.and_eq_true, decide_eq_true_eq, decide_eq_true_eq]
      exact ⟨Nat.not_lt.mpr (hsince.trans hhead), hlimit⟩
    rw [hgood, if_neg Bool.false_ne_true, if_neg (Nat.not_lt.mpr hhead)]

end Reads

/-! ### Following the cursor -/

/-- A journal to which rows were appended. -/
def Appended : EventJournal → EventJournal → Prop :=
  Relation.ReflTransGen fun j j' => ∃ payload eventKey createdAt,
    j' = j.append payload eventKey createdAt

theorem EventJournal.head_le_sequence (j : EventJournal) : j.head ≤ j.sequence := by
  rw [EventJournal.head]
  cases hm : (j.rows.map (·.cursor)).max? with
  | none => exact Nat.zero_le _
  | some c =>
    obtain ⟨r, hr, rfl⟩ := List.mem_map.mp (List.max?_mem hm)
    exact j.numbered r hr

/-- What was appended stands above every cursor there was. -/
theorem Appended.rows {j j' : EventJournal} (h : Appended j j') :
    (∃ new, j'.rows = j.rows ++ new ∧ ∀ r ∈ new, j.sequence < r.cursor) ∧
      j.sequence ≤ j'.sequence := by
  induction h with
  | refl => exact ⟨⟨[], (List.append_nil _).symm, List.forall_mem_nil _⟩, le_rfl⟩
  | @tail j₁ j₂ _ happend ih =>
    obtain ⟨⟨new, hrows, hnew⟩, hle⟩ := ih
    obtain ⟨payload, eventKey, createdAt, rfl⟩ := happend
    rw [EventJournal.append]
    split
    · exact ⟨⟨new, hrows, hnew⟩, hle⟩
    · refine ⟨⟨new ++ [⟨j₁.sequence + 1, payload, eventKey, createdAt⟩], ?_, ?_⟩,
        Nat.le_succ_of_le hle⟩
      · rw [← List.append_assoc, ← hrows]
      · rintro r hr
        rcases List.mem_append.mp hr with hr | hr
        · exact hnew r hr
        · rw [List.mem_singleton.mp hr]
          exact Nat.lt_succ_of_le hle

/-- Appending does not lower the head. -/
theorem Appended.head_le {j j' : EventJournal} (h : Appended j j') : j.head ≤ j'.head := by
  obtain ⟨⟨new, hrows, -⟩, -⟩ := h.rows
  cases hm : (j.rows.map (·.cursor)).max? with
  | none =>
    rw [EventJournal.head, hm]
    exact Nat.zero_le _
  | some c =>
    obtain ⟨r, hr, rfl⟩ := List.mem_map.mp (List.max?_mem hm)
    rw [EventJournal.head, hm]
    exact EventJournal.cursor_le_head (hrows ▸ List.mem_append_left _ hr)

/-- What one page is asked of: the journal as its head is read and as its rows are, where rows
may be appended between the two by `read_page`, and the served tip; and how it is asked. -/
structure PageAsk where
  headAt : EventJournal
  rowsAt : EventJournal
  tip : Option ServedTip
  wake : Bool
  limit : Nat

/-- What following the cursor has come to: the journal as the last page was read, that page's
cursor, what was delivered and whether there is more. -/
structure Followed where
  journal : EventJournal
  cursor : Nat
  events : List JournalEvent
  hasMore : Bool

section Following

variable (reader : PayloadReader) (json : TipJson)

/-- One page from a cursor, by the reader that is asked. -/
def PageAsk.read (ask : PageAsk) (since : Nat) : Except String Page :=
  if ask.wake then (readWake reader json ask.rowsAt ask.tip since ask.limit).map (·.page)
  else readPage reader ask.headAt ask.rowsAt since ask.limit

/-- **Following the cursor**: a page from where the one before ended, while there is more. -/
def followPages : EventJournal → Nat → List PageAsk → Except String Followed
  | j, since, [] => .ok ⟨j, since, [], true⟩
  | _, since, ask :: asks => do
    let page ← ask.read reader json since
    if page.hasMore then
      let rest ← followPages ask.rowsAt page.cursor asks
      pure { rest with events := page.events ++ rest.events }
    else pure ⟨ask.rowsAt, page.cursor, page.events, false⟩

end Following

/-- Nothing but appending happens to the journal between the pages and inside one, and the
limits are those a page may have. -/
def Asked : EventJournal → List PageAsk → Prop
  | _, [] => True
  | j, ask :: asks => Appended j ask.headAt ∧ Appended ask.headAt ask.rowsAt ∧
      1 ≤ ask.limit ∧ ask.limit ≤ pageSize ∧ Asked ask.rowsAt asks

section Delivered

variable (reader : PayloadReader) (json : TipJson) {j : EventJournal} {since : Nat}
  {ask : PageAsk} {asks : List PageAsk}

/-- **What one page does**, by whichever reader: where it is answered it holds the rows between
the two cursors, of the journal as it was read. -/
theorem PageAsk.read_spec (hsince : since ≤ j.head) (hhead : Appended j ask.headAt)
    (hrows : Appended ask.headAt ask.rowsAt) (hlimit : 1 ≤ ask.limit ∧ ask.limit ≤ pageSize) :
    (∃ e, ask.read reader json since = .error e ∧ maxCursor < ask.rowsAt.head) ∨
      ask.read reader json since = .ok (.of since ask.limit
        (((Pages.above EventRow.cursor ask.rowsAt.rows since).take (ask.limit + 1)).map
          (journalEvent reader))) := by
  have hsinceHead := hsince.trans hhead.head_le
  rw [PageAsk.read]
  split
  · rw [readWake_page (hsinceHead.trans hrows.head_le)]
    exact readPage_spec (hsinceHead.trans hrows.head_le) hlimit
  · exact (readPage_spec hsinceHead hlimit).imp_left
      fun ⟨e, herr, hpast⟩ => ⟨e, herr, hpast.trans_le hrows.head_le⟩

/-- **As far as its cursor says**: a reader that follows the cursor has been delivered the rows
from its start up to there. While there is more it was given a row for each page; where there
is no more it was given every row. It is refused only by a journal past the last cursor. -/
theorem follow_delivers (hsince : since ≤ j.head) (hasked : Asked j asks) :
    (∃ e, followPages reader json j since asks = .error e ∧
        ∃ ask ∈ asks, maxCursor < ask.rowsAt.head) ∨
      ∃ got, followPages reader json j since asks = .ok got ∧ Appended j got.journal ∧
        since ≤ got.cursor ∧
        got.events =
          (Pages.between EventRow.cursor got.journal.rows since got.cursor).map
            (journalEvent reader) ∧
        (got.hasMore = false → ∀ r ∈ got.journal.rows, r.cursor ≤ got.cursor) ∧
        (got.hasMore = true → asks.length ≤ got.events.length) := by
  induction asks generalizing j since with
  | nil =>
    exact .inr ⟨_, rfl, .refl, le_rfl, by rw [Pages.between_self, List.map_nil], nofun,
      fun _ => Nat.le_refl _⟩
  | cons ask asks ih =>
    obtain ⟨hhead, hrows, hpos, hsize, hrest⟩ := hasked
    -- the invariant is the cursor's: it stays at or below the head of the journal as it was read
    rcases PageAsk.read_spec reader json hsince hhead hrows ⟨hpos, hsize⟩ with
      ⟨e, herr, hpast⟩ | hread
    · refine .inl ⟨e, ?_, ask, List.mem_cons_self, hpast⟩
      rw [followPages, herr]
      rfl
    generalize hpage : Page.of since ask.limit _ = page at hread
    have hgrown : Appended j ask.rowsAt := hhead.trans hrows
    obtain ⟨hle, hreached, hevents, hmore⟩ := page_of_rows reader ask.rowsAt since hpage.symm
    have hcursor : page.cursor ≤ ask.rowsAt.head := by
      rcases hreached with hsame | ⟨r, hr, hsame⟩
      · exact hsame ▸ hsince.trans hgrown.head_le
      · exact hsame ▸ EventJournal.cursor_le_head hr
    cases hany : page.hasMore with
    | false =>
      refine .inr ⟨⟨ask.rowsAt, page.cursor, page.events, false⟩, ?_, hgrown, hle, hevents,
        fun _ => hmore.mp hany, nofun⟩
      rw [followPages, hread]
      change (if page.hasMore = true then _ else _ : Except String Followed) = _
      rw [hany]
      rfl
    | true =>
      have hstep : followPages reader json j since (ask :: asks) =
          (followPages reader json ask.rowsAt page.cursor asks).map
            fun rest => { rest with events := page.events ++ rest.events } := by
        rw [followPages, hread]
        change (if page.hasMore = true then _ else _ : Except String Followed) = _
        rw [hany, if_pos rfl]
        cases followPages reader json ask.rowsAt page.cursor asks <;> rfl
      rcases ih hcursor hrest with ⟨e, herr, late, hlate, hpast⟩ |
        ⟨rest, hfollow, happended, hon, hlater, hend, hcount⟩
      · refine .inl ⟨e, ?_, late, List.mem_cons_of_mem _ hlate, hpast⟩
        rw [hstep, herr]
        rfl
      obtain ⟨hfull, hmoves⟩ := page_moves reader ask.rowsAt since hpage.symm hpos hany
      obtain ⟨⟨new, hnew, hfresh⟩, -⟩ := happended.rows
      -- what is appended later stands above the page
      have hold : Pages.between EventRow.cursor rest.journal.rows since page.cursor =
          Pages.between EventRow.cursor ask.rowsAt.rows since page.cursor := by
        rw [hnew]
        exact Pages.between_grown fun r hr =>
          (hcursor.trans ask.rowsAt.head_le_sequence).trans_lt (hfresh r hr)
      refine .inr ⟨{ rest with events := page.events ++ rest.events }, ?_,
        hgrown.trans happended, hle.trans hon, ?_, hend, fun hmore => ?_⟩
      · rw [hstep, hfollow]
        rfl
      · dsimp only
        rw [hevents, hlater, ← List.map_append, ← hold,
          Pages.between_append rest.journal.ascending hle hon]
      · rw [List.length_cons, List.length_append, hfull]
        have := hcount hmore
        omega

end Delivered

/-- **Paging loses and repeats nothing.** A reader that follows the cursor from any start the
journal has, by either reader or by both, whatever the limits, while rows are appended between
the pages and inside one, is refused only by a journal that has run past the last cursor. Else
it is answered every time. It has been delivered the events of exactly
the rows between its start and its cursor, in their order and each once; when there is no more,
of exactly the rows above its start that were there when it read the last page; and there is no
more once it has asked for more pages than there are such rows. Both readers return the same
page for the same journal. A page says there is no more only where no row stands above it, and
one that says there is more moves the cursor. -/
theorem paging_whole (reader : PayloadReader) (json : TipJson) :
    (∀ start (j : EventJournal) asks, start ≤ j.head → Asked j asks →
      (∃ e, followPages reader json j start asks = .error e ∧
          ∃ ask ∈ asks, maxCursor < ask.rowsAt.head) ∨
        ∃ got, followPages reader json j start asks = .ok got ∧
          got.events = (Pages.between EventRow.cursor got.journal.rows start got.cursor).map
            (journalEvent reader) ∧
          (got.hasMore = false →
            got.events = (Pages.above EventRow.cursor got.journal.rows start).map
              (journalEvent reader)) ∧
          (got.events.Pairwise fun e e' => e.cursor < e'.cursor) ∧
          ((Pages.above EventRow.cursor got.journal.rows start).length < asks.length →
            got.hasMore = false)) ∧
      (∀ (j : EventJournal) tip since limit, since ≤ j.head →
        (readWake reader json j tip since limit).map (·.page) =
          readPage reader j j since limit) ∧
      ∀ (j j' : EventJournal) since limit page, since ≤ j.head →
        readPage reader j j' since limit = .ok page →
        (page.hasMore = false ↔ ∀ r ∈ j'.rows, r.cursor ≤ page.cursor) ∧
          (page.hasMore = true → since < page.cursor) := by
  refine ⟨?_, fun j tip since limit hsince => readWake_page hsince, ?_⟩
  · rintro start j asks hstart hasked
    refine (follow_delivers reader json hstart hasked).imp_right ?_
    rintro ⟨got, hfollow, -, -, hevents, hend, hcount⟩
    refine ⟨got, hfollow, hevents, fun hmore => ?_, ?_, fun hmany => ?_⟩
    · rw [hevents, Pages.between_eq_above (hend hmore)]
    · rw [hevents, List.pairwise_map]
      refine (got.journal.ascending.filter _).imp fun hlt => ?_
      rwa [journalEvent_cursor, journalEvent_cursor]
    · by_contra hmore
      have hlength := hcount (Bool.not_eq_false _ ▸ hmore)
      rw [hevents, List.length_map] at hlength
      have := Pages.length_between_le EventRow.cursor got.journal.rows start got.cursor
      omega
  · rintro j j' since limit page hsince h
    have hpage := readPage_ok hsince h
    refine ⟨(page_of_rows reader j' since hpage).2.2.2, fun hmore => ?_⟩
    have hgood : badRead since limit = false := by
      rw [readPage_eq hsince] at h
      exact Bool.eq_false_iff.mpr fun hbad => by rw [hbad] at h; cases h
    rw [badRead, Bool.or_eq_false_iff, Bool.not_eq_false', Bool.and_eq_true, decide_eq_true_eq]
      at hgood
    exact (page_moves reader j' since hpage hgood.2.1 hmore).2

/-! ### A reader at work -/

/-- Only digits write a number. -/
theorem isDigit_of_mem_toString {n : Nat} {c : Char} (h : c ∈ (toString n).toList) :
    c.isDigit = true := by
  change c ∈ (Nat.repr n).toList at h
  rw [Nat.toList_repr] at h
  exact Nat.isDigit_of_mem_toDigits (by decide) (by decide) h

/-- The digits of a number are read as the number. -/
theorem ofDigitChars_toString (n : Nat) : Nat.ofDigitChars 10 (toString n).toList 0 = n := by
  change Nat.ofDigitChars 10 (Nat.repr n).toList 0 = n
  rw [Nat.toList_repr, Nat.ofDigitChars_ten_toDigits]

/-- What stands before the first slash of a text, and what stands after it. -/
def slashed (text : List Char) : List Char × List Char :=
  (text.takeWhile (· != '/'), (text.dropWhile (· != '/')).drop 1)

theorem slashed_append (n : Nat) (rest : List Char) :
    slashed ((toString n).toList ++ '/' :: rest) = ((toString n).toList, rest) := by
  have hdigits : ∀ c ∈ (toString n).toList, (c != '/') = true := fun c hc => by
    refine bne_iff_ne.mpr fun hslash => ?_
    have := isDigit_of_mem_toString (hslash ▸ hc)
    cases this
  rw [slashed, List.takeWhile_append_of_pos hdigits, List.dropWhile_append_of_pos hdigits]
  simp

/-- The served tip with a slash between its fields. -/
def plainTip : TipJson where
  write tip := String.ofList ((toString tip.height.toNat).toList ++
    '/' :: ((toString tip.time.toNat).toList ++ '/' :: tip.hash.toList))
  read text :=
    let height := slashed text.toList
    let time := slashed height.2
    .ok ⟨.ofNat (Nat.ofDigitChars 10 height.1 0), .ofList time.2,
      .ofNat (Nat.ofDigitChars 10 time.1 0)⟩
  read_write tip := by
    dsimp only
    rw [String.toList_ofList, slashed_append, slashed_append, ofDigitChars_toString,
      ofDigitChars_toString, String.ofList_toList, UInt32.ofNat_toNat, UInt32.ofNat_toNat]

/-- A journal of two rows. -/
def shortJournal : EventJournal := (EventJournal.fresh.append "tip" none 0).append "reorg" none 0

/-- A page of it by one reader; then a row is appended, and the rest goes by the other. -/
def shortAsks : List PageAsk :=
  [⟨shortJournal, shortJournal, none, false, 1⟩,
    ⟨shortJournal, shortJournal.append "tip" none 0, some ⟨7, "aa", 9⟩, true, 2⟩]

/-- `Chaintracks.paging_whole` of the two pages. -/
theorem paging_whole_mixed :
    ∃ got, followPages kindReader plainTip shortJournal 0 shortAsks = .ok got ∧
      got.events = (Pages.above EventRow.cursor got.journal.rows 0).map (journalEvent kindReader) ∧
      got.events.map (·.cursor) = [1, 2, 3] := by
  have hasked : Asked shortJournal shortAsks :=
    ⟨.refl, .refl, by decide, by decide, .refl, .single ⟨"tip", none, 0, rfl⟩, by decide,
      by decide, trivial⟩
  have hran : (followPages kindReader plainTip shortJournal 0 shortAsks).toOption.map
      (fun got => (got.events.map (·.cursor), got.hasMore)) = some ([1, 2, 3], false) := by
    decide +kernel
  rcases (paging_whole kindReader plainTip).1 0 shortJournal _ (Nat.zero_le _) hasked with
    ⟨e, herr, -⟩ | ⟨got, hfollow, -, hwhole, -⟩
  · rw [herr] at hran
    cases hran
  rw [hfollow] at hran
  obtain ⟨hevents, hmore⟩ := Prod.mk.inj (Option.some_inj.mp hran)
  exact ⟨got, hfollow, hwhole hmore, hevents⟩

end Chaintracks

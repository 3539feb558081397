import Chaintracks.StreamFrames
import Chaintracks.Library.Agents

/-!
# A reader of the feed across its sessions

A service whose peer is another one reads the peer's stream in sessions. The peer answers a
session from the cursor in `Last-Event-ID`, page after page, while its journal grows and its
retention deletes; after so many queries it ends the stream, and the reader connects again.
Either side may stop anywhere: the peer between two chunks, the network between two bytes,
the reader's object between two events, and then it goes on from the last id it had saved.

No chain row is missed for it. The id is taken from the event that is being handed on, and
saved at the earliest when it has been; the peer's page is whole above a cursor that its
floor has not passed. So whatever id a reader holds, in memory or in its storage, every chain
row above the cursor it began at and up to that id has been handed on
(`Chaintracks.reader_misses_nothing`).

What the reader cannot do is give its id up. Once the floor has passed it every session is
turned away, and no event comes any more (`Chaintracks.expired_reader_stays`).
-/

namespace Chaintracks

/-! ### The stream -/

/-- `STREAM_QUERY_BOUND`. -/
def streamQueryBound : Nat := 900

/-- `QueryBudget`. -/
structure QueryBudget where
  spent : Nat
  bound : Nat
  deriving DecidableEq

/-- `QueryBudget::new`. -/
def QueryBudget.new (spent bound : Nat) : QueryBudget := ⟨spent, min bound streamQueryBound⟩

/-- `QueryBudget::take`: one more query, where the bound leaves room for it. -/
def QueryBudget.take (b : QueryBudget) : Option QueryBudget :=
  if b.bound ≤ b.spent then none else some { b with spent := b.spent + 1 }

/-- What `stream_v2`'s body goes on from. -/
structure FeedStream where
  cursor : Nat
  ready : List Frame
  more : Bool
  budget : QueryBudget
  deriving DecidableEq

section Stream

variable (texts : FeedTexts) (view : View)

/-- The payload of `feed_unavailable`. -/
def unavailableText (description : String) : String :=
  "\x7b\"description\":" ++ texts.quote description ++ ",\"error\":\"feedUnavailable\",\"v\":1\x7d"

/-- `stream_v2`: the body at the open, from the route's own read. -/
def FeedStream.start (opening : Wake) (initial : List Frame) (budget : QueryBudget) (now : Nat) :
    Except String FeedStream :=
  (wakeFrames texts opening view now).map fun frames =>
    ⟨opening.page.cursor, initial ++ frames, opening.page.hasMore, budget⟩

/-- One turn of the body, with the answer `read_wake` has at its cursor: a chunk, and what it
goes on from. -/
def FeedStream.next (s : FeedStream) (read : Except String Wake) (now : Nat) :
    Except String (List Frame) × Option FeedStream :=
  if s.ready ≠ [] then (.ok s.ready, some { s with ready := [] })
  else
    match s.budget.take with
    | none => (.ok [.done], none)
    | some budget =>
      match read with
      | .error e => (.ok [.unavailable (unavailableText texts e)], none)
      | .ok wake =>
        if wake.head < s.cursor then
          (.ok [.unavailable (unavailableText texts
            "cursorAhead: cursor belongs to another journal")], none)
        else if s.cursor < wake.floor then (.ok [.done], none)
        else
          match wakeFrames texts wake view now with
          | .error e => (.error e, none)
          | .ok frames => (.ok frames, some ⟨wake.page.cursor, [], wake.page.hasMore, budget⟩)

/-- The cursor `event_response_v2` reads from. -/
def routeSince (cursor : Option Nat) (head : Nat) : Nat :=
  match cursor with
  | some cursor => cursor
  | none => if view = .envelope then 0 else head

/-- The queries `event_response_v2` has spent before its wake: the head, and for the tip's
view the three of the served tip. -/
def routeSpent (cursor : Option Nat) : Nat :=
  if cursor.isSome ∨ view = .envelope then 0 else if view = .tip then 4 else 1

end Stream

/-! ### The reader -/

/-- Where a session stands: between sessions, with the request sent, or reading: the peer's
body, the bytes under way, the parser, and the items it has completed. -/
inductive Session
  | idle
  | asked (since : Nat) (initial : List Frame) (spent : Nat)
  | reading (stream : Option FeedStream) (wire : List UInt8) (parser : Parser) (items : List Item)

/-- A reader: the id in its storage and the one in its memory, the events handed on to the
door with their ids, and the cursor it began at. -/
structure TipReader where
  saved : Option String
  lastEventId : Option String
  handed : List (Option String × String)
  start : Nat
  session : Session

/-- A reader before its first session. -/
def TipReader.fresh : TipReader := ⟨none, none, [], 0, .idle⟩

/-- `save`, which may fail. -/
def TipReader.save (r : TipReader) (kept : Bool) : TipReader :=
  { r with saved := if kept then r.lastEventId else r.saved }

/-- What `read` does with an item: the id is kept, and a tip's event is handed on. -/
def TipReader.take (r : TipReader) : Item → TipReader
  | .comment => r
  | .event id event data =>
    { r with
      lastEventId := id <|> r.lastEventId
      handed := if event = "message" ∨ event = "tip" then r.handed ++ [(id, data)] else r.handed }

section Steps

variable (texts : FeedTexts) (json : TipJson) (view : View)

/-- **The steps of a reader and of the body it reads**, on the peer's journal. -/
inductive ReaderStep (s : RetainedJournal) : TipReader → TipReader → Prop
  /-- A session begins: the request, and the cursor the route reads from. -/
  | ask (r : TipReader) (cursor : Option Nat) (initial : List Frame) (kept : Bool)
      (hidle : r.session = .idle) (hcursor : parseCursor [] r.lastEventId = .ok cursor)
      (hhead : cursor = none → view ≠ .envelope → s.journal.head ≤ maxCursor)
      (hinitial : initial = [] ∨ cursor = none ∧ view = .tip ∧
        ∃ tip, OneLine tip ∧ initial = [.initial tip]) :
      ReaderStep s r
        { r.save kept with
          start := if cursor = none then routeSince view cursor s.journal.head else r.start
          session := .asked (routeSince view cursor s.journal.head) initial
            (routeSpent view cursor) }
  /-- The route's wake: a stream is opened where the cursor is neither ahead nor expired. -/
  | opened (r : TipReader) (since : Nat) (initial : List Frame) (spent bound now : Nat)
      (tip : Option ServedTip) (wake : Wake) (stream : FeedStream)
      (hasked : r.session = .asked since initial spent)
      (hread : readWake texts.toPayloadReader json s.journal tip since pageSize = .ok wake)
      (hahead : since ≤ wake.head) (hfloor : wake.floor ≤ since)
      (hstart : FeedStream.start texts view wake initial (.new (spent + 1) bound) now =
        .ok stream) :
      ReaderStep s r { r with session := .reading (some stream) [] {} [] }
  /-- The request is turned away, or gets lost. -/
  | turnedAway (r : TipReader) (since : Nat) (initial : List Frame) (spent : Nat) (kept : Bool)
      (hasked : r.session = .asked since initial spent) :
      ReaderStep s r { r.save kept with session := .idle }
  /-- The body writes a chunk, with a wake of the journal as it is or a fault of the
  database. -/
  | write (r : TipReader) (stream : FeedStream) (wire : List UInt8) (parser : Parser)
      (items : List Item) (read : Except String Wake) (now : Nat)
      (frames : List Frame) (next : Option FeedStream)
      (hreading : r.session = .reading (some stream) wire parser items)
      (hread : (∃ tip, read = readWake texts.toPayloadReader json s.journal tip stream.cursor
        pageSize) ∨ ∃ e, read = .error e)
      (hnext : stream.next texts view read now = (.ok frames, next)) :
      ReaderStep s r { r with session := .reading next (wire ++ frameBytes frames) parser items }
  /-- A chunk arrives, of whatever bytes are under way. -/
  | feed (r : TipReader) (stream : Option FeedStream) (chunk wire : List UInt8)
      (parser parser' : Parser) (items : List Item)
      (hreading : r.session = .reading stream (chunk ++ wire) parser [])
      (hfeed : parser.feed chunk = (.ok items, parser')) :
      ReaderStep s r { r with session := .reading stream wire parser' items }
  /-- An item is taken; the state is saved when its tip has been handed on, or not. -/
  | item (r : TipReader) (stream : Option FeedStream) (wire : List UInt8) (parser : Parser)
      (item : Item) (items : List Item) (kept : Bool)
      (hreading : r.session = .reading stream wire parser (item :: items)) :
      ReaderStep s r { (r.take item).save kept with session := .reading stream wire parser items }
  /-- The session ends between two chunks: its time is up, the peer or the network is silent
  or gone, or a line is too long. -/
  | ends (r : TipReader) (stream : Option FeedStream) (wire : List UInt8) (parser : Parser)
      (kept : Bool) (hreading : r.session = .reading stream wire parser []) :
      ReaderStep s r { r.save kept with session := .idle }
  /-- The object is evicted, and loaded from its storage. -/
  | evicted (r : TipReader) :
      ReaderStep s r { r with lastEventId := r.saved, session := .idle }

/-- The ticks of the peer's retention, and the readers of its feed. -/
inductive FeedAgent
  | retention (tick : RetainTick)
  | reader (r : TipReader)

/-- A step of a tick or of a reader. -/
inductive FeedStep : RetainedJournal → FeedAgent → RetainedJournal → FeedAgent → Prop
  | retention {s s' : RetainedJournal} {tick tick' : RetainTick}
      (h : RetainStep texts.toPayloadReader s tick s' tick') :
      FeedStep s (.retention tick) s' (.retention tick')
  | reader {s : RetainedJournal} {r r' : TipReader} (h : ReaderStep texts json view s r r') :
      FeedStep s (.reader r) s (.reader r')

/-- An append, of a payload on one line. -/
inductive FeedAppend : RetainedJournal → RetainedJournal → Prop
  | append (s : RetainedJournal) (payload eventKey createdAt) (hline : OneLine payload)
    (keyed : ageKeyed eventKey = true → texts.kind payload = some "tipAge") :
    FeedAppend s (s.append payload eventKey createdAt)

/-- The runs of the feed: any number of ticks and readers, and appends, in any order. -/
def FeedRuns : Agents.Config RetainedJournal FeedAgent →
    Agents.Config RetainedJournal FeedAgent → Prop :=
  Agents.Runs (FeedStep texts json view) (FeedAppend texts)

end Steps

/-- An empty journal, idle ticks and readers that have read nothing. -/
def FeedFresh (c : Agents.Config RetainedJournal FeedAgent) : Prop :=
  c.shared = .fresh ∧ ∀ i, c.agent i = .retention .idle ∨ c.agent i = .reader .fresh

/-! ### What a reader knows -/

section Knowledge

variable (texts : FeedTexts) (view : View)

/-- A row as a reader hands it on. -/
def rowEvent (row : EventRow) : Option String × String :=
  (some (toString row.cursor), (rowData texts view row).getD "")

/-- The chain rows between two cursors have been handed on. -/
def HandedOn (s : RetainedJournal) (handed : List (Option String × String))
    (start n : Nat) : Prop :=
  ∀ row ∈ s.appended, row.isChain texts.toPayloadReader = true → start < row.cursor →
    row.cursor ≤ n → rowEvent texts view row ∈ handed

/-- An id the feed gave: a cursor, up to which the chain rows have been handed on. -/
def ToldId (s : RetainedJournal) (r : TipReader) (id : Option String) : Prop :=
  ∀ t, id = some t → ∃ n, t = toString n ∧ n ≤ maxCursor ∧ n ≤ s.journal.sequence ∧
    HandedOn texts view s r.handed r.start n

/-- Where a reader stands: at its start, or at the cursor of its id. -/
def ReaderAt (lastEventId : Option String) (start n : Nat) : Prop :=
  lastEventId = none ∧ n = start ∨ lastEventId = some (toString n) ∧ n ≤ maxCursor

/-- Whether an item carries an id. -/
def Item.hasId : Item → Bool
  | .event (some _) _ _ => true
  | _ => false

/-- **A stretch of the journal in frames**: rows between two cursors, in order and in range,
no chain row missing, and besides them only frames without an id. -/
structure Stretch (s : RetainedJournal) (since cursor : Nat) (frames : List Frame)
    (rows : List EventRow) : Prop where
  carried : ∀ frame ∈ frames, ∀ text ∈ frame.carried, OneLine text
  items : (frames.flatMap Frame.items).filter Item.hasId = rows.map (rowItem texts view)
  ascending : rows.Pairwise fun a b => a.cursor < b.cursor
  range : ∀ row ∈ rows, row ∈ s.appended ∧ since < row.cursor ∧ row.cursor ≤ cursor ∧
    row.cursor ≤ maxCursor
  whole : ∀ row ∈ s.appended, row.isChain texts.toPayloadReader = true → since < row.cursor →
    row.cursor ≤ cursor → row ∈ rows
  reached : since ≤ cursor ∧ cursor ≤ s.journal.sequence

/-- **What a reading session knows**: its bytes are those of a stretch's frames, a part of
them read; the rows read are handed on, and the reader stands at the last of them. -/
structure Reads (s : RetainedJournal) (id : Option String) (start : Nat)
    (stream : Option FeedStream) (wire : List UInt8) (parser : Parser) (items : List Item)
    (since cursor : Nat) (written ready : List Frame) (got : List UInt8) (done : List Item)
    (read left : List EventRow) : Prop where
  stretch : Stretch texts view s since cursor (written ++ ready) (read ++ left)
  bytes : got ++ wire = frameBytes written
  parsed : Transducer.run Parser.byte {} got = (done ++ items, parser)
  taken : done.filter Item.hasId = read.map (rowItem texts view)
  stands : ReaderAt id start (Pages.bound EventRow.cursor since read)
  body : ∀ st, stream = some st → st.cursor = cursor ∧ st.ready = ready ∧
    st.budget.spent ≤ streamQueryBound ∧ st.budget.bound ≤ streamQueryBound

/-- What a session knows. -/
def SessionKnows (s : RetainedJournal) (id : Option String) (start : Nat) : Session → Prop
  | .idle => True
  | .asked since initial spent => ReaderAt id start since ∧ since ≤ s.journal.sequence ∧ spent ≤ 4 ∧
      (∀ frame ∈ initial, ∃ tip, OneLine tip ∧ frame = .initial tip)
  | .reading stream wire parser items => ∃ since cursor written ready got done read left,
      Reads texts view s id start stream wire parser items since cursor written ready got done read
        left

/-- **What a reader knows of the journal.** -/
structure ReaderKnows (s : RetainedJournal) (r : TipReader) : Prop where
  started : r.start ≤ s.journal.sequence
  last : ToldId texts view s r r.lastEventId
  saved : ToldId texts view s r r.saved
  unsaved : r.lastEventId = none → r.saved = none
  real : ∀ p ∈ r.handed, p.1.isSome = true → ∃ row ∈ s.appended, p = rowEvent texts view row
  session : SessionKnows texts view s r.lastEventId r.start r.session

/-- What an agent knows. -/
def AgentKnows (s : RetainedJournal) : FeedAgent → Prop
  | .retention _ => True
  | .reader r => ReaderKnows texts view s r

/-- The journal is whole, and its payloads stay on one line. -/
structure FeedWhole (s : RetainedJournal) : Prop extends s.Whole texts.toPayloadReader where
  lines : ∀ row ∈ s.appended, OneLine row.payload

end Knowledge

/-- What a step does to the journal, as readers see it: rows are appended above every cursor
there was. -/
structure JournalGrows (s s' : RetainedJournal) : Prop where
  kept : ∀ row ∈ s.appended, row ∈ s'.appended
  above : ∀ row ∈ s'.appended, row ∈ s.appended ∨ s.journal.sequence < row.cursor
  sequence : s.journal.sequence ≤ s'.journal.sequence
  floor : s.journal.floor ≤ s'.journal.floor

section Growing

variable {texts : FeedTexts} {view : View} {s s' : RetainedJournal} {r : TipReader}
  {a b c start n since cursor : Nat} {handed : List (Option String × String)}
  {frames frames' : List Frame} {rows rows' : List EventRow}

theorem JournalGrows.refl (s : RetainedJournal) : JournalGrows s s :=
  ⟨fun _ h => h, fun _ h => .inl h, le_rfl, le_rfl⟩

/-- What was appended stands above a cursor that had been given. -/
theorem JournalGrows.old (hg : JournalGrows s s') (hn : n ≤ s.journal.sequence) {row : EventRow}
    (hrow : row ∈ s'.appended) (hle : row.cursor ≤ n) : row ∈ s.appended := by
  rcases hg.above row hrow with hold | hnew
  · exact hold
  · omega

theorem HandedOn.grows (h : HandedOn texts view s handed start n) (hn : n ≤ s.journal.sequence)
    (hg : JournalGrows s s') : HandedOn texts view s' handed start n :=
  fun row hrow hchain hlt hle => h row (hg.old hn hrow hle) hchain hlt hle

theorem ToldId.grows {id : Option String} (h : ToldId texts view s r id) (hg : JournalGrows s s') :
    ToldId texts view s' r id := by
  rintro t ht
  obtain ⟨n, rfl, hmax, hn, hon⟩ := h t ht
  exact ⟨n, rfl, hmax, hn.trans hg.sequence, hon.grows hn hg⟩

theorem Stretch.grows (h : Stretch texts view s since cursor frames rows)
    (hg : JournalGrows s s') : Stretch texts view s' since cursor frames rows where
  carried := h.carried
  items := h.items
  ascending := h.ascending
  range row hrow := ⟨hg.kept row (h.range row hrow).1, (h.range row hrow).2⟩
  whole row hrow hchain hlt hle := h.whole row (hg.old h.reached.2 hrow hle) hchain hlt hle
  reached := ⟨h.reached.1, h.reached.2.trans hg.sequence⟩

/-- What a reader knows survives what is appended. -/
theorem ReaderKnows.grows (h : ReaderKnows texts view s r) (hg : JournalGrows s s') :
    ReaderKnows texts view s' r where
  started := h.started.trans hg.sequence
  last := h.last.grows hg
  saved := h.saved.grows hg
  unsaved := h.unsaved
  real p hp hid := by
    obtain ⟨row, hrow, heq⟩ := h.real p hp hid
    exact ⟨row, hg.kept row hrow, heq⟩
  session := by
    have hsession := h.session
    revert hsession
    cases r.session with
    | idle => exact id
    | asked since initial spent =>
      rintro ⟨hat, hle, hspent, hinitial⟩
      exact ⟨hat, hle.trans hg.sequence, hspent, hinitial⟩
    | reading stream wire parser items =>
      rintro ⟨since, cursor, written, ready, got, done, read, left, hreads⟩
      exact ⟨since, cursor, written, ready, got, done, read, left,
        { hreads with stretch := hreads.stretch.grows hg }⟩

/-! ### Stretches -/

theorem Stretch.nil (h : a ≤ s.journal.sequence) : Stretch texts view s a a [] [] where
  carried := List.forall_mem_nil _
  items := rfl
  ascending := List.Pairwise.nil
  range := List.forall_mem_nil _
  whole _ _ _ hlt hle := absurd hlt (Nat.not_lt.mpr hle)
  reached := ⟨le_rfl, h⟩

/-- Stretches that follow each other are one. -/
theorem Stretch.append (h : Stretch texts view s a b frames rows)
    (h' : Stretch texts view s b c frames' rows') :
    Stretch texts view s a c (frames ++ frames') (rows ++ rows') where
  carried := List.forall_mem_append.mpr ⟨h.carried, h'.carried⟩
  items := by rw [List.flatMap_append, List.filter_append, h.items, h'.items, List.map_append]
  ascending := by
    refine List.pairwise_append.mpr ⟨h.ascending, h'.ascending, fun row hrow row' hrow' => ?_⟩
    have hle := (h.range row hrow).2.2.1
    have hlt := (h'.range row' hrow').2.1
    omega
  range := by
    refine List.forall_mem_append.mpr ⟨fun row hrow => ?_, fun row hrow => ?_⟩
    · obtain ⟨hmem, hlt, hle, hmax⟩ := h.range row hrow
      exact ⟨hmem, hlt, hle.trans h'.reached.1, hmax⟩
    · obtain ⟨hmem, hlt, hle, hmax⟩ := h'.range row hrow
      exact ⟨hmem, h.reached.1.trans_lt hlt, hle, hmax⟩
  whole row hrow hchain hlt hle := by
    rcases Nat.le_total row.cursor b with hb | hb
    · exact List.mem_append_left _ (h.whole row hrow hchain hlt hb)
    · rcases Nat.eq_or_lt_of_le hb with rfl | hb
      · exact List.mem_append_left _ (h.whole row hrow hchain hlt le_rfl)
      · exact List.mem_append_right _ (h'.whole row hrow hchain hb hle)
  reached := ⟨h.reached.1.trans h'.reached.1, h'.reached.2⟩

/-- A frame without an id adds nothing. -/
theorem Stretch.plain (h : a ≤ s.journal.sequence)
    (hplain : ∀ frame ∈ frames, (∀ text ∈ frame.carried, OneLine text) ∧
      frame.items.filter Item.hasId = []) : Stretch texts view s a a frames [] where
  carried frame hframe := (hplain frame hframe).1
  items := by
    rw [List.filter_flatMap,
      List.flatMap_eq_nil_iff.mpr fun frame hframe => (hplain frame hframe).2]
    rfl
  ascending := List.Pairwise.nil
  range := List.forall_mem_nil _
  whole _ _ _ hlt hle := absurd hlt (Nat.not_lt.mpr hle)
  reached := ⟨le_rfl, h⟩

/-- What a wake answers of its journal. -/
theorem readWake_reads {json : TipJson} {j : EventJournal} {tip : Option ServedTip} {wake : Wake}
    (hread : readWake texts.toPayloadReader json j tip a pageSize = .ok wake) :
    wake.head = j.head ∧ wake.floor = j.floor ∧ a ≤ wake.page.cursor ∧
      (wake.page.cursor = a ∨ ∃ row ∈ j.rows, row.cursor = wake.page.cursor) := by
  rw [readWake_eq] at hread
  split at hread
  · cases hread
  split at hread
  · cases hread
  obtain ⟨hle, hreached, -, -⟩ := @page_of_rows wake.page texts.toPayloadReader j a pageSize
    (by rw [← Except.ok.inj hread])
  rw [← Except.ok.inj hread]
  exact ⟨rfl, rfl, Except.ok.inj hread ▸ hle, Except.ok.inj hread ▸ hreached⟩

/-- **The frames of a wake are a stretch**, where its floor has not passed the cursor. -/
theorem Stretch.wake {json : TipJson} {tip : Option ServedTip} {wake : Wake} {now : Nat}
    (hS : FeedWhole texts s)
    (hread : readWake texts.toPayloadReader json s.journal tip a pageSize = .ok wake)
    (hfloor : wake.floor ≤ a) (ha : a ≤ s.journal.sequence)
    (hframes : wakeFrames texts wake view now = .ok frames) :
    Stretch texts view s a wake.page.cursor frames
      (Pages.between EventRow.cursor s.journal.rows a wake.page.cursor) := by
  have hlines : ∀ row ∈ s.journal.rows, OneLine row.payload := fun row hrow =>
    hS.lines row (hS.kept row hrow)
  obtain ⟨-, hjfloor, hle, hreached⟩ := readWake_reads hread
  have hwake : WakeOf texts json wake _ := ⟨s.journal, tip, a, pageSize, hread, hlines, rfl⟩
  obtain ⟨hevents, hrows⟩ := hwake.rows
  obtain ⟨frames', hok, hitems, hcarried⟩ := wakeFrames_ok view now hevents
  have hsame : frames' = frames := Except.ok.inj (hok.symm.trans hframes)
  subst hsame
  refine
    { carried := hcarried fun row hrow => (hrows row hrow).1
      items := ?_
      ascending := s.journal.ascending.filter _
      range := fun row hrow => ?_
      whole := fun row hrow hchain hlt hcursor => ?_
      reached := ⟨hle, ?_⟩ }
  · rw [hitems, wakeItems]
    split
    · rename_i hnone
      rw [hnone]
      rfl
    · refine List.filter_eq_self.mpr fun item hitem => ?_
      obtain ⟨row, -, rfl⟩ := List.mem_map.mp hitem
      rfl
  · obtain ⟨hmem, hlt, hcursor⟩ := Pages.mem_between.mp hrow
    exact ⟨hS.kept row hmem, hlt, hcursor, (hrows row hrow).2⟩
  · -- a chain row above the cursor is above the floor
    exact Pages.mem_between.mpr
      ⟨hS.above row hrow hchain (hjfloor ▸ hfloor.trans_lt hlt), hlt, hcursor⟩
  · rcases hreached with hsame | ⟨row, hrow, hsame⟩
    · exact hsame ▸ ha
    · exact hsame ▸ s.journal.numbered row hrow

end Growing

/-! ### The steps of a reader -/

section Taking

variable {texts : FeedTexts} {view : View} {json : TipJson} {s : RetainedJournal}
  {r r' : TipReader} {stream : Option FeedStream} {wire got : List UInt8}
  {parser parser' : Parser} {items : List Item} {since cursor n : Nat}
  {written ready : List Frame} {done : List Item} {read left : List EventRow}

/-- What a save leaves is what the reader knew. -/
theorem ReaderKnows.save (h : ReaderKnows texts view s r) (kept : Bool) (start : Nat)
    (hstart : start = r.start ∨ r.lastEventId = none ∧ start ≤ s.journal.sequence)
    (session : Session)
    (hsession : SessionKnows texts view s r.lastEventId start session) :
    ReaderKnows texts view s { r.save kept with start := start, session := session } := by
  have hsaved : (r.save kept).saved = r.lastEventId ∨ (r.save kept).saved = r.saved := by
    cases kept with
    | true => exact .inl rfl
    | false => exact .inr rfl
  have htold : ∀ id, id = r.lastEventId ∨ id = r.saved →
      ToldId texts view s { r.save kept with start := start, session := session } id := by
    rintro id hid t ht
    rcases hstart with rfl | ⟨hnone, -⟩
    · rcases hid with rfl | rfl
      · exact h.last t ht
      · exact h.saved t ht
    · rcases hid with rfl | rfl
      · rw [hnone] at ht
        cases ht
      · rw [h.unsaved hnone] at ht
        cases ht
  exact
    { started := hstart.elim (fun h' => h' ▸ h.started) And.right
      last := htold _ (.inl rfl)
      saved := htold _ hsaved
      unsaved := fun hnone => hsaved.elim (fun h' => h'.trans hnone) fun h' =>
        h'.trans (h.unsaved hnone)
      real := h.real
      session := hsession }

/-- Where the reader stands is where the feed told it. -/
theorem ReaderKnows.told (h : ReaderKnows texts view s r)
    (hat : ReaderAt r.lastEventId r.start n) :
    HandedOn texts view s r.handed r.start n ∧ n ≤ s.journal.sequence := by
  rcases hat with ⟨-, rfl⟩ | ⟨hid, -⟩
  · exact ⟨fun _ _ _ hlt hle => absurd hlt (Nat.not_lt.mpr hle), h.started⟩
  · obtain ⟨m, hm, -, hseq, hon⟩ := h.last _ hid
    rw [Nat.repr_injective hm]
    exact ⟨hon, hseq⟩

/-- An item without an id moves the reader nowhere. -/
theorem TipReader.take_plain (r : TipReader) {item : Item} (h : item.hasId = false) :
    (r.take item).lastEventId = r.lastEventId ∧ (r.take item).start = r.start ∧
      (r.take item).saved = r.saved ∧ (r.take item).session = r.session ∧
      ∃ more, (r.take item).handed = r.handed ++ more ∧ ∀ p ∈ more, p.1 = none := by
  cases item with
  | comment => exact ⟨rfl, rfl, rfl, rfl, [], (List.append_nil _).symm, List.forall_mem_nil _⟩
  | event id event data =>
    cases id with
    | some id => cases h
    | none =>
      refine ⟨rfl, rfl, rfl, rfl, if event = "message" ∨ event = "tip" then [(none, data)] else [],
        ?_, ?_⟩
      · rw [TipReader.take]
        split
        · rfl
        · exact (List.append_nil _).symm
      · split
        · exact List.forall_mem_singleton.mpr rfl
        · exact List.forall_mem_nil _

/-- What was read and handed on stays within the stretch that was written. -/
theorem Reads.front {id : Option String} {start : Nat}
    (h : Reads texts view s id start stream wire parser items since cursor written ready got done
      read left) :
    ∃ rest, (items ++ rest).filter Item.hasId = left.map (rowItem texts view) := by
  have hcarried : ∀ frame ∈ written, ∀ text ∈ frame.carried, OneLine text := fun frame hframe =>
    h.stretch.carried frame (List.mem_append_left _ hframe)
  have hwritten : (Transducer.run Parser.byte {} got).1 <+: written.flatMap Frame.items := by
    have hfront := @Transducer.run_front _ _ _ Parser.byte {} got wire
    rwa [h.bytes, run_frames hcarried] at hfront
  obtain ⟨rest, hrest⟩ := hwritten
  rw [h.parsed] at hrest
  refine ⟨rest ++ ready.flatMap Frame.items, ?_⟩
  have hall := h.stretch.items
  rw [List.flatMap_append, ← hrest, List.append_assoc, List.append_assoc, List.filter_append,
    h.taken, List.map_append] at hall
  exact List.append_cancel_left hall

/-- The rows read, and the last of them. -/
theorem Reads.bound {id : Option String} {start : Nat}
    (h : Reads texts view s id start stream wire parser items since cursor written ready got done
      read left) :
    since ≤ Pages.bound EventRow.cursor since read ∧
      ∀ row ∈ read, row.cursor ≤ Pages.bound EventRow.cursor since read := by
  have hread : ∀ row ∈ read, since < row.cursor := fun row hrow =>
    (h.stretch.range row (List.mem_append_left _ hrow)).2.1
  refine ⟨?_, ?_⟩
  · rcases @Pages.bound_cases _ EventRow.cursor since read with hsame | ⟨row, hrow, hsame⟩
    · exact hsame.ge
    · exact hsame ▸ (hread row hrow).le
  · have hle := (Pages.le_bound_iff (n := read.length)
      (List.pairwise_append.mp h.stretch.ascending).1 hread).1
    rwa [List.take_length] at hle

/-- **Taking an item** keeps what the reader knows: the id of a row is kept when its event is
handed on, and every chain row below it was handed on before. -/
theorem ReaderKnows.take {item : Item} (h : ReaderKnows texts view s r)
    (hsession : r.session = .reading stream wire parser (item :: items)) :
    ReaderKnows texts view s
      { r.take item with session := .reading stream wire parser items } := by
  have hknows := h.session
  rw [hsession] at hknows
  obtain ⟨since, cursor, written, ready, got, done, read, left, hreads⟩ := hknows
  have hparsed : Transducer.run Parser.byte {} got = ((done ++ [item]) ++ items, parser) := by
    rw [hreads.parsed, List.append_assoc]
    rfl
  by_cases hid : item.hasId = true
  · obtain ⟨rest, hrest⟩ := hreads.front
    rw [List.cons_append, List.filter_cons_of_pos hid] at hrest
    obtain ⟨row, left, rfl, hrow, -⟩ := List.map_eq_cons_iff.mp hrest.symm
    subst hrow
    obtain ⟨hsince, hbound⟩ := hreads.bound
    obtain ⟨hmem, hlt, hcursor, hmax⟩ :=
      hreads.stretch.range row (List.mem_append_right _ List.mem_cons_self)
    obtain ⟨hon, -⟩ := h.told hreads.stands
    have hlast : Pages.bound EventRow.cursor since (read ++ [row]) = row.cursor := by
      rw [Pages.bound, List.getLast?_concat]
      rfl
    have hhanded : HandedOn texts view s (r.handed ++ [rowEvent texts view row]) r.start
        row.cursor := by
      rintro x hx hchain hstart hle
      by_cases hbelow : x.cursor ≤ Pages.bound EventRow.cursor since read
      · exact List.mem_append_left _ (hon x hx hchain hstart hbelow)
      · -- above what was read and not above the row: the row itself
        have hin := hreads.stretch.whole x hx hchain (by omega) (hle.trans hcursor)
        obtain ⟨-, hafter, -⟩ := List.pairwise_append.mp hreads.stretch.ascending
        rcases List.mem_append.mp hin with hin | hin
        · exact absurd (hbound x hin) hbelow
        · rcases List.mem_cons.mp hin with rfl | hin
          · exact List.mem_append_right _ (List.mem_singleton_self _)
          · exact absurd hle (Nat.not_le.mpr ((List.pairwise_cons.mp hafter).1 x hin))
    have htold : ∀ {id}, ToldId texts view s r id → ToldId texts view s
        { r.take (rowItem texts view row) with
          session := .reading stream wire parser items } id := by
      rintro id hold t ht
      obtain ⟨n, hn, hnmax, hseq, hon⟩ := hold t ht
      exact ⟨n, hn, hnmax, hseq, fun x hx hchain hlt hle =>
        List.mem_append_left _ (hon x hx hchain hlt hle)⟩
    exact
      { started := h.started
        last := fun t ht => ⟨row.cursor, (Option.some_inj.mp ht).symm, hmax,
          hcursor.trans hreads.stretch.reached.2, hhanded⟩
        saved := htold h.saved
        unsaved := fun hnone => absurd hnone (Option.some_ne_none _)
        real := List.forall_mem_append.mpr ⟨h.real,
          List.forall_mem_singleton.mpr fun _ => ⟨row, hmem, rfl⟩⟩
        session := ⟨since, cursor, written, ready, got, done ++ [rowItem texts view row],
          read ++ [row], left,
          { stretch := by rw [List.append_assoc]; exact hreads.stretch
            bytes := hreads.bytes
            parsed := hparsed
            taken := by
              rw [List.filter_append, hreads.taken, List.map_append]
              rfl
            stands := .inr ⟨by rw [hlast]; rfl, by rw [hlast]; exact hmax⟩
            body := hreads.body }⟩ }
  · rw [Bool.not_eq_true] at hid
    obtain ⟨hlast, hstart, hsaved, -, more, hhanded, hmore⟩ := r.take_plain hid
    have htold : ∀ {id}, ToldId texts view s r id → ToldId texts view s
        { r.take item with session := .reading stream wire parser items } id := by
      rintro id hold t ht
      obtain ⟨n, hn, hnmax, hseq, hon⟩ := hold t ht
      refine ⟨n, hn, hnmax, hseq, fun x hx hchain hlt hle => ?_⟩
      change _ ∈ (r.take item).handed
      rw [hhanded]
      exact List.mem_append_left _ (hon x hx hchain (hstart ▸ hlt) hle)
    exact
      { started := hstart ▸ h.started
        last := by
          change ToldId _ _ _ _ (r.take item).lastEventId
          rw [hlast]
          exact htold h.last
        saved := by
          change ToldId _ _ _ _ (r.take item).saved
          rw [hsaved]
          exact htold h.saved
        unsaved := fun hnone => hsaved.trans (h.unsaved (hlast.symm.trans hnone))
        real := by
          rintro p hp hsome
          change p ∈ (r.take item).handed at hp
          rw [hhanded, List.mem_append] at hp
          rcases hp with hp | hp
          · exact h.real p hp hsome
          · rw [hmore p hp] at hsome
            cases hsome
        session := ⟨since, cursor, written, ready, got, done ++ [item], read, left,
          { stretch := hreads.stretch
            bytes := hreads.bytes
            parsed := hparsed
            taken := by
              rw [List.filter_append, hreads.taken, List.filter_cons_of_neg (by rw [hid]; decide),
                List.filter_nil, List.append_nil]
            stands := by
              change ReaderAt (r.take item).lastEventId (r.take item).start _
              rw [hlast, hstart]
              exact hreads.stands
            body := hreads.body }⟩ }

/-- A frame that carries no id. -/
theorem plain_frame {frame : Frame}
    (h : (∃ tip, OneLine tip ∧ frame = .initial tip) ∨
      (∃ payload, OneLine payload ∧ frame = .unavailable payload) ∨ frame = .done) :
    (∀ text ∈ frame.carried, OneLine text) ∧ frame.items.filter Item.hasId = [] := by
  rcases h with ⟨tip, htip, rfl⟩ | ⟨payload, hpayload, rfl⟩ | rfl
  · exact ⟨List.forall_mem_singleton.mpr htip, rfl⟩
  · exact ⟨List.forall_mem_singleton.mpr hpayload, rfl⟩
  · exact ⟨List.forall_mem_nil _, rfl⟩

theorem oneLine_unavailableText (texts : FeedTexts) (description : String) :
    OneLine (unavailableText texts description) := by
  refine OneLine.append (OneLine.append ?_ (texts.quote_line description)) ?_ <;> decide

/-- **The body at the open** is a stretch from the route's cursor. -/
theorem FeedStream.start_stretch {tip : Option ServedTip} {wake : Wake} {initial : List Frame}
    {spent bound now : Nat} {st : FeedStream} (hS : FeedWhole texts s)
    (hread : readWake texts.toPayloadReader json s.journal tip since pageSize = .ok wake)
    (hfloor : wake.floor ≤ since) (hsince : since ≤ s.journal.sequence)
    (hinitial : ∀ frame ∈ initial, ∃ tip, OneLine tip ∧ frame = .initial tip)
    (hspent : spent ≤ 4)
    (hstart : FeedStream.start texts view wake initial (.new (spent + 1) bound) now = .ok st) :
    (∃ rows, Stretch texts view s since st.cursor st.ready rows) ∧
      st.budget.spent ≤ streamQueryBound ∧ st.budget.bound ≤ streamQueryBound := by
  rw [FeedStream.start] at hstart
  cases hframes : wakeFrames texts wake view now with
  | error e =>
    rw [hframes] at hstart
    cases hstart
  | ok frames =>
    rw [hframes] at hstart
    cases hstart
    have hplain : Stretch texts view s since since initial [] :=
      Stretch.plain hsince fun frame hframe => plain_frame (.inl (hinitial frame hframe))
    refine ⟨⟨_, hplain.append (Stretch.wake hS hread hfloor hsince hframes)⟩, ?_, min_le_right _ _⟩
    change spent + 1 ≤ 900
    omega

/-- **One turn of the body** writes what was ready, or a stretch from its cursor on, or a last
frame without an id; it spends no query beyond its bound. -/
theorem FeedStream.next_stretch {st : FeedStream} {answer : Except String Wake} {now : Nat}
    {frames : List Frame} {next : Option FeedStream} (hS : FeedWhole texts s)
    (hread : (∃ tip,
      answer = readWake texts.toPayloadReader json s.journal tip st.cursor pageSize) ∨
      ∃ e, answer = .error e)
    (hcursor : st.cursor ≤ s.journal.sequence)
    (hspent : st.budget.spent ≤ streamQueryBound) (hbound : st.budget.bound ≤ streamQueryBound)
    (hnext : st.next texts view answer now = (.ok frames, next)) :
    ∃ cursor rows, Stretch texts view s st.cursor cursor (frames.drop st.ready.length) rows ∧
      st.ready <+: frames ∧
      ∀ st', next = some st' → st'.cursor = cursor ∧ st'.ready = [] ∧
        st'.budget.spent ≤ streamQueryBound ∧ st'.budget.bound ≤ streamQueryBound := by
  rw [FeedStream.next] at hnext
  split at hnext
  · -- what was ready
    obtain ⟨hframes, rfl⟩ := Prod.mk.inj hnext
    cases hframes
    refine ⟨st.cursor, [], ?_, List.prefix_rfl, ?_⟩
    · rw [List.drop_length]
      exact Stretch.nil hcursor
    · rintro st' hst'
      cases hst'
      exact ⟨rfl, rfl, hspent, hbound⟩
  · rename_i hready
    rw [ne_eq, Decidable.not_not] at hready
    rw [hready]
    have hlast : ∀ frame : Frame,
        (∃ payload, OneLine payload ∧ frame = .unavailable payload) ∨ frame = .done →
        frames = [frame] → next = none →
        ∃ cursor rows, Stretch texts view s st.cursor cursor (frames.drop 0) rows ∧
          [] <+: frames ∧ ∀ st', next = some st' → st'.cursor = cursor ∧ st'.ready = [] ∧
            st'.budget.spent ≤ streamQueryBound ∧ st'.budget.bound ≤ streamQueryBound := by
      rintro frame hframe rfl rfl
      exact ⟨st.cursor, [], Stretch.plain hcursor
        (List.forall_mem_singleton.mpr (plain_frame (.inr hframe))), List.nil_prefix,
        fun _ hnone => by cases hnone⟩
    split at hnext
    · obtain ⟨hframes, rfl⟩ := Prod.mk.inj hnext
      cases hframes
      exact hlast _ (.inr rfl) rfl rfl
    · rename_i budget htake
      split at hnext
      · obtain ⟨hframes, rfl⟩ := Prod.mk.inj hnext
        cases hframes
        exact hlast _ (.inl ⟨_, oneLine_unavailableText texts _, rfl⟩) rfl rfl
      · rename_i wake
        split at hnext
        · obtain ⟨hframes, rfl⟩ := Prod.mk.inj hnext
          cases hframes
          exact hlast _ (.inl ⟨_, oneLine_unavailableText texts _, rfl⟩) rfl rfl
        split at hnext
        · obtain ⟨hframes, rfl⟩ := Prod.mk.inj hnext
          cases hframes
          exact hlast _ (.inr rfl) rfl rfl
        rename_i hfloor
        split at hnext
        · exact absurd (Prod.mk.inj hnext).1 (by simp)
        rename_i hframes
        obtain ⟨heq, rfl⟩ := Prod.mk.inj hnext
        cases heq
        rcases hread with ⟨tip, hread⟩ | ⟨e, he⟩
        · refine ⟨wake.page.cursor, _, Stretch.wake hS hread.symm (Nat.not_lt.mp hfloor) hcursor
            hframes, List.nil_prefix, ?_⟩
          rintro st' hst'
          cases hst'
          rw [QueryBudget.take] at htake
          split at htake
          · cases htake
          · rename_i hroom
            cases htake
            exact ⟨rfl, rfl, by change st.budget.spent + 1 ≤ _; omega, hbound⟩
        · cases he

/-- What a reader knows, with another session. -/
theorem ReaderKnows.session_with (h : ReaderKnows texts view s r) (session : Session)
    (hsession : SessionKnows texts view s r.lastEventId r.start session) :
    ReaderKnows texts view s { r with session := session } where
  started := h.started
  last := h.last
  saved := h.saved
  unsaved := h.unsaved
  real := h.real
  session := hsession

/-- **A step of a reader** keeps what it knows of the journal. -/
theorem ReaderKnows.step (hS : FeedWhole texts s) (h : ReaderKnows texts view s r)
    (hs : ReaderStep texts json view s r r') : ReaderKnows texts view s r' := by
  have hsession := h.session
  cases hs with
  | ask cursor initial kept hidle hcursor hhead hinitial =>
    have hplain : ∀ frame ∈ initial, ∃ tip, OneLine tip ∧ frame = .initial tip := by
      rcases hinitial with rfl | ⟨-, -, tip, htip, rfl⟩
      · exact List.forall_mem_nil _
      · exact List.forall_mem_singleton.mpr ⟨tip, htip, rfl⟩
    have hspent : routeSpent view cursor ≤ 4 := by
      rw [routeSpent]
      split
      · omega
      · split <;> omega
    cases hlast : r.lastEventId with
    | none =>
      -- the reader begins at the head, or at nothing
      rw [hlast] at hcursor
      cases hcursor
      have hle : routeSince view none s.journal.head ≤ s.journal.sequence := by
        rw [routeSince]
        split
        · exact Nat.zero_le _
        · exact s.journal.head_le_sequence
      rw [if_pos rfl]
      exact h.save kept _ (.inr ⟨hlast, hle⟩) _ ⟨.inl ⟨hlast, rfl⟩, hle, hspent, hplain⟩
    | some t =>
      obtain ⟨n, rfl, hmax, hseq, -⟩ := h.last t hlast
      rw [hlast, @parseCursor_toString [] (Nat.zero_le 1) n hmax] at hcursor
      cases hcursor
      rw [if_neg (Option.some_ne_none n)]
      exact h.save kept _ (.inl rfl) _ ⟨.inr ⟨hlast, hmax⟩, hseq, hspent, hplain⟩
  | opened since initial spent bound now tip wake stream hasked hread hahead hfloor hstart =>
    rw [hasked] at hsession
    obtain ⟨hat, hle, hspent, hplain⟩ := hsession
    obtain ⟨⟨rows, hstretch⟩, hbudget, hbound⟩ :=
      FeedStream.start_stretch hS hread hfloor hle hplain hspent hstart
    refine h.session_with _ ⟨since, stream.cursor, [], stream.ready, [], [], [], rows, ?_⟩
    exact
      { stretch := hstretch
        bytes := rfl
        parsed := rfl
        taken := rfl
        stands := hat
        body := fun st hst => by cases hst; exact ⟨rfl, rfl, hbudget, hbound⟩ }
  | turnedAway since initial spent kept hasked => exact h.save kept _ (.inl rfl) _ trivial
  | write stream wire parser items answer now frames next hreading hread hnext =>
    rw [hreading] at hsession
    obtain ⟨since, cursor, written, ready, got, done, read, left, hreads⟩ := hsession
    obtain ⟨rfl, rfl, hspent, hbound⟩ := hreads.body stream rfl
    obtain ⟨cursor, rows, hnew, ⟨new, rfl⟩, hbody⟩ :=
      FeedStream.next_stretch hS hread hreads.stretch.reached.2 hspent hbound hnext
    rw [List.drop_left] at hnew
    refine h.session_with _
      ⟨since, cursor, written ++ (stream.ready ++ new), [], got, done, read, left ++ rows, ?_⟩
    exact
      { stretch := by
          rw [List.append_nil, ← List.append_assoc, ← List.append_assoc]
          exact hreads.stretch.append hnew
        bytes := by rw [frameBytes_append written, ← hreads.bytes, List.append_assoc]
        parsed := hreads.parsed
        taken := hreads.taken
        stands := hreads.stands
        body := hbody }
  | feed stream chunk wire parser parser' items hreading hfeed =>
    rw [hreading] at hsession
    obtain ⟨since, cursor, written, ready, got, done, read, left, hreads⟩ := hsession
    have hpending : lineFeed ∉ parser.pending := by
      have hline := run_pending_line (p := {}) List.not_mem_nil got
      rwa [hreads.parsed] at hline
    refine h.session_with _
      ⟨since, cursor, written, ready, got ++ chunk, done, read, left, ?_⟩
    exact
      { stretch := hreads.stretch
        bytes := by rw [List.append_assoc]; exact hreads.bytes
        parsed := by
          rw [Transducer.run_append, hreads.parsed, List.append_nil]
          dsimp only
          rw [run_of_feed hpending hfeed]
        taken := hreads.taken
        stands := hreads.stands
        body := hreads.body }
  | item stream wire parser item items kept hreading =>
    have htaken := h.take hreading
    exact htaken.save kept _ (.inl rfl) _ htaken.session
  | ends stream wire parser kept hreading => exact h.save kept _ (.inl rfl) _ trivial
  | evicted =>
    exact
      { started := h.started
        last := h.saved
        saved := h.saved
        unsaved := id
        real := h.real
        session := trivial }

end Taking

/-! ### The runs -/

section Runs

variable {texts : FeedTexts} {json : TipJson} {view : View}
  {c : Agents.Config RetainedJournal FeedAgent}

/-- An append keeps the feed whole, and stands above every cursor. -/
theorem FeedWhole.append {s : RetainedJournal} (hS : FeedWhole texts s) {payload : String}
    {eventKey : Option String} {createdAt : Nat} (hline : OneLine payload)
    (keyed : ageKeyed eventKey = true → texts.kind payload = some "tipAge") :
    FeedWhole texts (s.append payload eventKey createdAt) ∧
      JournalGrows s (s.append payload eventKey createdAt) := by
  obtain ⟨hwhole, hfloor⟩ :=
    @RetainedJournal.Whole.append _ _ hS.toWhole payload eventKey createdAt keyed
  have hrows : ∀ row ∈ (s.append payload eventKey createdAt).appended,
      row ∈ s.appended ∨ row = ⟨s.journal.sequence + 1, payload, eventKey, createdAt⟩ := by
    rintro row hrow
    rw [RetainedJournal.append] at hrow
    dsimp only at hrow
    split at hrow
    · exact .inl hrow
    · rwa [List.mem_append, List.mem_singleton] at hrow
  refine ⟨{ hwhole with lines := fun row hrow => ?_ },
    { kept := fun row hrow => ?_, above := fun row hrow => ?_, sequence := ?_, floor := hfloor.ge }⟩
  · rcases hrows row hrow with hold | rfl
    · exact hS.lines row hold
    · exact hline
  · rw [RetainedJournal.append]
    dsimp only
    split
    · exact hrow
    · exact List.mem_append_left _ hrow
  · rcases hrows row hrow with hold | rfl
    · exact .inl hold
    · exact .inr (Nat.lt_succ_self _)
  · rw [RetainedJournal.append, EventJournal.append]
    split
    · exact le_rfl
    · exact Nat.le_succ _

/-- **The feed under any number of ticks and readers.** -/
theorem feed_inductive (texts : FeedTexts) (json : TipJson) (view : View) :
    Agents.Inductive (FeedStep texts json view) (FeedAppend texts) (FeedWhole texts)
      (AgentKnows texts view) JournalGrows where
  acts hS hK hs := by
    cases hs with
    | reader h => exact ⟨hS, hK.step hS h, JournalGrows.refl _⟩
    | retention h =>
      cases h with
      | readFloor | cut => exact ⟨hS, trivial, JournalGrows.refl _⟩
      | batch floor now =>
        exact ⟨{ hS.toWhole.retain _ _ _ with lines := hS.lines }, trivial,
          ⟨fun _ h => h, fun _ h => .inl h, le_rfl, EventJournal.floor_le_retained⟩⟩
  outsides hS hs := by
    cases hs with
    | append payload eventKey createdAt hline keyed => exact hS.append hline keyed
  stable := by
    rintro s s' (tick | r) _ hg hK
    · trivial
    · exact ReaderKnows.grows hK hg

theorem feed_holds {c₀ : Agents.Config RetainedJournal FeedAgent} (hfresh : FeedFresh c₀)
    (h : FeedRuns texts json view c₀ c) :
    Agents.Holds (FeedWhole texts) (AgentKnows texts view) c := by
  refine (feed_inductive texts json view).runs h ?_
  obtain ⟨hshared, hagents⟩ := hfresh
  rw [Agents.Holds, hshared]
  have hnone : ∀ row ∈ RetainedJournal.fresh.appended, False := fun _ hrow =>
    List.not_mem_nil hrow
  refine ⟨?_, fun i => ?_⟩
  · exact
      { kept := fun r hr => (hnone r hr).elim
        numbered := fun r hr => (hnone r hr).elim
        keyed := fun r hr => (hnone r hr).elim
        above := fun r hr => (hnone r hr).elim
        reached := .inl rfl
        others := fun r hr => (hnone r hr).elim
        newest := fun r hr => (hnone r hr).elim
        lines := fun r hr => (hnone r hr).elim }
  · rcases hagents i with hi | hi
    · rw [hi]
      trivial
    · rw [hi]
      have htold : ToldId texts view .fresh .fresh none := fun t ht =>
        absurd ht.symm (Option.some_ne_none t)
      exact ⟨Nat.zero_le _, htold, htold, fun _ => rfl, List.forall_mem_nil _, trivial⟩

/-- **A reader of the feed misses no row.** Over every interleaving of appends, of any number
of ticks of the retention whatever their clocks, and of any number of readers – whose
sessions end anywhere, by the peer's bound on its queries, by a fault of the database or of
the network, whose bytes arrive in whatever chunks, and whose objects are evicted between any
two steps, with saves that fail: whatever id a reader holds in its memory or in its storage,
it is a cursor, and every chain row ever appended above the cursor it began at and not above
that id has been handed on, readable or not, though the retention may since have deleted it;
what is handed on with an id is a row; and no stream spends more queries than its bound. -/
theorem reader_misses_nothing {c₀ : Agents.Config RetainedJournal FeedAgent}
    (hfresh : FeedFresh c₀) (h : FeedRuns texts json view c₀ c) (i : Nat) (r : TipReader)
    (hr : c.agent i = .reader r) :
    (∀ t, r.lastEventId = some t ∨ r.saved = some t → ∃ n, t = toString n ∧
        parseCursor [] (some t) = .ok (some n) ∧
        ∀ row ∈ c.shared.appended, row.isChain texts.toPayloadReader = true →
          r.start < row.cursor → row.cursor ≤ n → rowEvent texts view row ∈ r.handed) ∧
      (∀ p ∈ r.handed, p.1.isSome = true →
        ∃ row ∈ c.shared.appended, p = rowEvent texts view row) ∧
      ∀ stream wire parser items, r.session = .reading (some stream) wire parser items →
        stream.budget.spent ≤ streamQueryBound := by
  have hknows := (feed_holds hfresh h).2 i
  rw [hr] at hknows
  have hknows : ReaderKnows texts view c.shared r := hknows
  refine ⟨fun t ht => ?_, hknows.real, fun stream wire parser items hreading => ?_⟩
  · obtain ⟨n, rfl, hmax, -, hon⟩ := ht.elim (hknows.last t) (hknows.saved t)
    exact ⟨n, rfl, @parseCursor_toString [] (Nat.zero_le 1) n hmax, hon⟩
  · have hsession := hknows.session
    rw [hreading] at hsession
    obtain ⟨since, cursor, written, ready, got, done, read, left, hreads⟩ := hsession
    exact (hreads.body stream rfl).2.2.1

/-- An id below the floor. -/
def Expired (j : EventJournal) (id : Option String) : Prop :=
  ∃ n, id = some (toString n) ∧ n ≤ maxCursor ∧ n < j.floor

/-- A reader that has been turned away for good: both its ids are expired, and it is not
reading. -/
structure StaysOut (j : EventJournal) (r r' : TipReader) : Prop where
  last : Expired j r'.lastEventId
  saved : Expired j r'.saved
  handed : r'.handed = r.handed
  session : r'.session = .idle ∨
    ∃ since initial spent, r'.session = .asked since initial spent ∧ since < j.floor

theorem StaysOut.step {s : RetainedJournal} {r r' r'' : TipReader} (h : StaysOut s.journal r r')
    (hs : ReaderStep texts json view s r' r'') : StaysOut s.journal r r'' := by
  have hsaved (kept : Bool) : Expired s.journal (r'.save kept).saved := by
    cases kept with
    | true => exact h.last
    | false => exact h.saved
  have hout {stream : Option FeedStream} {wire : List UInt8} {parser : Parser} {items : List Item}
      (hreading : r'.session = .reading stream wire parser items) : False := by
    rcases h.session with hidle | ⟨since, initial, spent, hasked, -⟩
    · rw [hidle] at hreading
      cases hreading
    · rw [hasked] at hreading
      cases hreading
  cases hs with
  | ask cursor initial kept hidle hcursor hhead hinitial =>
    obtain ⟨n, hlast, hmax, hfloor⟩ := h.last
    rw [hlast, @parseCursor_toString [] (Nat.zero_le 1) n hmax] at hcursor
    cases hcursor
    exact ⟨h.last, hsaved kept, h.handed, .inr ⟨n, initial, _, rfl, hfloor⟩⟩
  | opened since initial spent bound now tip wake stream hasked hread hahead hfloor hstart =>
    -- the wake's floor is the journal's
    rcases h.session with hidle | ⟨since', initial', spent', hasked', hbelow⟩
    · rw [hidle] at hasked
      cases hasked
    · rw [hasked] at hasked'
      cases hasked'
      exact absurd hbelow (Nat.not_lt.mpr ((readWake_reads hread).2.1 ▸ hfloor))
  | turnedAway since initial spent kept hasked =>
    exact ⟨h.last, hsaved kept, h.handed, .inl rfl⟩
  | write stream wire parser items answer now frames next hreading hread hnext =>
    exact (hout hreading).elim
  | feed stream chunk wire parser parser' items hreading hfeed => exact (hout hreading).elim
  | item stream wire parser item items kept hreading => exact (hout hreading).elim
  | ends stream wire parser kept hreading => exact (hout hreading).elim
  | evicted => exact ⟨h.saved, h.saved, h.handed, .inl rfl⟩

/-- A higher floor keeps an id expired. -/
theorem StaysOut.floor {j j' : EventJournal} {r r' : TipReader} (h : StaysOut j r r')
    (hfloor : j.floor ≤ j'.floor) : StaysOut j' r r' where
  last := by
    obtain ⟨n, hn, hmax, hlt⟩ := h.last
    exact ⟨n, hn, hmax, hlt.trans_le hfloor⟩
  saved := by
    obtain ⟨n, hn, hmax, hlt⟩ := h.saved
    exact ⟨n, hn, hmax, hlt.trans_le hfloor⟩
  handed := h.handed
  session := h.session.imp_right fun ⟨since, initial, spent, hasked, hlt⟩ =>
    ⟨since, initial, spent, hasked, hlt.trans_le hfloor⟩

/-- No step lowers the floor. -/
theorem FeedStep.floor_le {s s' : RetainedJournal} {a a' : FeedAgent}
    (h : FeedStep texts json view s a s' a') : s.journal.floor ≤ s'.journal.floor := by
  cases h with
  | reader h => exact le_rfl
  | retention h =>
    cases h with
    | readFloor | cut => exact le_rfl
    | batch floor now => exact EventJournal.floor_le_retained

/-- **A reader whose id has expired stays out.** Once the floor has passed the ids a reader
holds between two sessions, it is handed nothing more, whatever is appended, whatever the
retention does and however often it asks: every session is turned away, and nothing takes
its ids from it. -/
theorem expired_reader_stays {c' : Agents.Config RetainedJournal FeedAgent}
    (h : FeedRuns texts json view c c') (i : Nat) (r : TipReader) (hr : c.agent i = .reader r)
    (hidle : r.session = .idle) (hlast : Expired c.shared.journal r.lastEventId)
    (hsaved : Expired c.shared.journal r.saved) :
    ∃ r', c'.agent i = .reader r' ∧ r'.handed = r.handed ∧
      Expired c'.shared.journal r'.lastEventId ∧
      ∀ stream wire parser items, r'.session ≠ .reading stream wire parser items := by
  obtain ⟨r', hr', hout⟩ : ∃ r', c'.agent i = .reader r' ∧ StaysOut c'.shared.journal r r' := by
    induction h with
    | refl => exact ⟨r, hr, hlast, hsaved, rfl, .inl hidle⟩
    | tail _ hs ih =>
      obtain ⟨r', hr', hout⟩ := ih
      cases hs with
      | outside hs =>
        refine ⟨r', hr', hout.floor ?_⟩
        cases hs with
        | append payload eventKey createdAt hline keyed =>
          rw [RetainedJournal.append, EventJournal.append]
          split <;> exact le_rfl
      | act j hs =>
        by_cases hj : j = i
        · subst hj
          rw [hr'] at hs
          cases hs with
          | reader hs => exact ⟨_, Function.update_self .., hout.step hs⟩
        · refine ⟨r', (Function.update_of_ne (Ne.symm hj) ..).trans hr', hout.floor ?_⟩
          exact hs.floor_le
  refine ⟨r', hr', hout.handed, hout.last, fun stream wire parser items hreading => ?_⟩
  rcases hout.session with hidle | ⟨since, initial, spent, hasked, -⟩
  · rw [hidle] at hreading
    cases hreading
  · rw [hasked] at hreading
    cases hreading

end Runs

/-! ### A reader left behind -/

/-- The reader that was handed the first row and has saved its id. -/
def firstRead : TipReader :=
  ⟨some "1", some "1", [(some "1", frozenText)], 0, .idle⟩

/-- The journal of three rows whose first two were deleted. -/
def thirdLeft : RetainedJournal where
  journal := (((EventJournal.fresh.append frozenText none 1).append frozenText none 2).append
    frozenText none 9000000).retain emptyTexts.toPayloadReader 0 1224000 8913600
  appended := [⟨1, frozenText, none, 1⟩, ⟨2, frozenText, none, 2⟩, ⟨3, frozenText, none, 9000000⟩]

/-- A reader reads the first row to its end, two more rows are appended, and the retention
deletes the first two. -/
theorem leftBehind_runs : ∃ c₀, FeedFresh c₀ ∧ FeedRuns emptyTexts commaJson .envelope c₀
    (.ofList (.retention .idle) thirdLeft [.retention .idle, .reader firstRead]) := by
  refine ⟨.ofList (.retention .idle) .fresh [.retention .idle, .reader .fresh], ⟨rfl, ?_⟩, ?_⟩
  · rintro (_ | _ | i)
    · exact .inl rfl
    · exact .inr rfl
    · exact .inl rfl
  · have h₀ : FeedRuns emptyTexts commaJson .envelope
        (.ofList (.retention .idle) .fresh [.retention .idle, .reader .fresh])
        (.ofList (.retention .idle) .fresh [.retention .idle, .reader .fresh]) := .refl
    have h₁ := h₀.outsides (.append _ frozenText none 1 (by decide +kernel) (fun h => by cases h))
    have h₂ := h₁.acts 1 (by decide) (.reader (.ask TipReader.fresh none [] false rfl rfl
      (fun _ h => absurd rfl h) (.inl rfl)))
    have h₃ := h₂.acts 1 (by decide) (.reader (.opened _ 0 [] 0 900 0 none
      ⟨⟨1, [⟨1, frozenText, none⟩], false⟩, 1, 0, none⟩
      ⟨1, [.row 1 (some frozenText)], false, ⟨1, 900⟩⟩ rfl rfl (by decide) (by decide) rfl))
    have h₄ := h₃.acts 1 (by decide) (.reader (.write _
      ⟨1, [.row 1 (some frozenText)], false, ⟨1, 900⟩⟩ [] {} [] (.error "") 0 _ _ rfl
      (.inr ⟨_, rfl⟩) rfl))
    have h₅ := h₄.acts 1 (by decide) (.reader (.feed _ (some ⟨1, [], false, ⟨1, 900⟩⟩)
      ([] ++ frameBytes [.row 1 (some frozenText)]) [] {} {}
      [.event (some "1") "message" frozenText]
      (congrArg (fun wire => Session.reading _ wire _ _) (List.append_nil _).symm)
      (by decide +kernel)))
    have h₆ := h₅.acts 1 (by decide) (.reader (.item _ _ _ _ _ _ true rfl))
    have h₇ := h₆.acts 1 (by decide) (.reader (.ends _ _ _ _ true rfl))
    have h₈ := h₇.outsides (.append _ frozenText none 2 (by decide +kernel) (fun h => by cases h))
    have h₉ := h₈.outsides
      (.append _ frozenText none 9000000 (by decide +kernel) (fun h => by cases h))
    have h₁₀ := h₉.acts 0 (by decide) (.retention (.readFloor _))
    exact h₁₀.acts 0 (by decide) (.retention (.batch _ 0 9000000))

theorem reader_misses_nothing_deleted : ∃ row ∈ thirdLeft.appended,
    row ∉ thirdLeft.journal.rows ∧ rowEvent emptyTexts .envelope row ∈ firstRead.handed := by
  obtain ⟨c₀, hfresh, hrun⟩ := leftBehind_runs
  obtain ⟨n, -, hparse, hon⟩ :=
    (reader_misses_nothing hfresh hrun 1 firstRead rfl).1 "1" (.inl rfl)
  have hn : n = 1 := by
    have hone : parseCursor [] (some "1") = .ok (some 1) := by decide +kernel
    exact Option.some_inj.mp (Except.ok.inj (hparse.symm.trans hone))
  refine ⟨⟨1, frozenText, none, 1⟩, List.mem_cons_self, by decide +kernel, ?_⟩
  exact hon _ List.mem_cons_self (by decide +kernel) (by decide) hn.ge

theorem expired_reader_stays_asking : ∃ r' : TipReader, r'.handed = firstRead.handed ∧
    r'.session = .asked 1 [] 0 := by
  have h₀ : FeedRuns emptyTexts commaJson .envelope
      (.ofList (.retention .idle) thirdLeft [.retention .idle, .reader firstRead])
      (.ofList (.retention .idle) thirdLeft [.retention .idle, .reader firstRead]) := .refl
  have h₁ := h₀.acts 1 (by decide) (.reader (.ask firstRead (some 1) [] true rfl
    (by decide +kernel) (fun h => by cases h) (.inl rfl)))
  obtain ⟨r', hr', hhanded, -⟩ := expired_reader_stays h₁ 1 firstRead rfl rfl
    ⟨1, rfl, by decide, by decide +kernel⟩ ⟨1, rfl, by decide, by decide +kernel⟩
  refine ⟨r', hhanded, ?_⟩
  rw [← FeedAgent.reader.inj hr']
  rfl

end Chaintracks

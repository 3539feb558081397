import Chaintracks.Header
import Chaintracks.Webhooks
import Chaintracks.Library.Agents

/-!
# The chain-event outbox

The journal's rows go out to every target in cursor order, one post at a time, and a
target's stored cursor moves with each row it answers for. Nothing keeps two ticks apart:
the cron's and a stream's own may read the same cursor, post different prefixes of the
same rows and write their cursors back in either order, and each may be cut off between
an acceptance and its record. Meanwhile rows are appended and retention deletes old ones.

So a tick is an agent over the shared outbox (`Chaintracks.Outbox`), its state where it
stands in its loops (`Chaintracks.Tick`), and a post is a message: once handed over it may
be answered at any time, also when the tick that sent it is long gone. What each target
has answered for is kept with the outbox, in the order it came.

The whole argument is in what a tick knows while it waits
(`Chaintracks.Outbox.Pending`): every row of the journal up to the last of its page is
answered for or still in its hands. The cursors need no lock for that to last, since the
journal only grows above every cursor there is.
-/

namespace Chaintracks

/-! ### The journal as the outbox reads it -/

/-- A row of `chain_events`. -/
structure EventRow where
  cursor : Nat
  payload : String
  eventKey : Option String
  createdAt : Nat
  deriving DecidableEq

/-- `chain_events` with the sequence its cursors come from, and the retention's floor. The
cursor is the primary key and is never used twice. -/
structure EventJournal where
  rows : List EventRow
  sequence : Nat
  floor : Nat
  ascending : rows.Pairwise fun a b => a.cursor < b.cursor
  numbered : ∀ r ∈ rows, r.cursor ≤ sequence

/-- The journal before any event. -/
def EventJournal.fresh : EventJournal := ⟨[], 0, 0, List.Pairwise.nil, List.forall_mem_nil _⟩

/-- What reads a payload: the decoder, whose refusal is a text, the kind SQLite extracts
and a text as a JSON string. -/
structure PayloadReader where
  decode : String → Except String Unit
  kind : String → Option String
  quote : String → String

/-- `JournalEvent`. -/
structure JournalEvent where
  cursor : Nat
  payload : String
  fault : Option String
  deriving DecidableEq

/-- `MAX_CURSOR`. -/
def maxCursor : Nat := 9007199254740991

/-- `PAGE_SIZE`. -/
def pageSize : Nat := 100

section Journal

variable (reader : PayloadReader) (j : EventJournal)

/-- `unreadable`. -/
def unreadable (cursor : Nat) (fault : String) : String :=
  "\x7b\"v\":1,\"kind\":\"unreadable\",\"cursor\":" ++ toString cursor ++ ",\"fault\":" ++
    reader.quote fault ++ "\x7d"

/-- `journal_event`: the row's payload, or the unreadable form in its place. -/
def journalEvent (row : EventRow) : JournalEvent :=
  match reader.decode row.payload with
  | .ok _ => ⟨row.cursor, row.payload, none⟩
  | .error fault => ⟨row.cursor, unreadable reader row.cursor fault, some fault⟩

@[simp] theorem journalEvent_cursor (row : EventRow) :
    (journalEvent reader row).cursor = row.cursor := by
  unfold journalEvent
  split <;> rfl

namespace EventJournal

/-- `head`. -/
def head : Nat := (j.rows.map (·.cursor)).max?.getD 0

/-- The rows above a cursor, at most so many. -/
def page (since limit : Nat) : List JournalEvent :=
  ((j.rows.filter fun r => since < r.cursor).take limit).map (journalEvent reader)

/-- `INSERT OR IGNORE INTO chain_events`: a key already there makes it nothing. -/
def append (payload : String) (eventKey : Option String) (createdAt : Nat) : EventJournal :=
  if eventKey.isSome ∧ eventKey ∈ j.rows.map (·.eventKey) then j
  else
    { j with
      rows := j.rows ++ [⟨j.sequence + 1, payload, eventKey, createdAt⟩]
      sequence := j.sequence + 1
      ascending := List.pairwise_append.mpr ⟨j.ascending, List.pairwise_singleton _ _, by
        intro a ha b hb
        rw [List.mem_singleton.mp hb]
        exact Nat.lt_succ_of_le (j.numbered a ha)⟩
      numbered := by
        intro r hr
        rcases List.mem_append.mp hr with hr | hr
        · exact Nat.le_succ_of_le (j.numbered r hr)
        · rw [List.mem_singleton.mp hr] }

/-- The kinds of a chain row. -/
def chainKinds : List String :=
  ["tip", "fork", "reorg", "invalidated", "frozen", "split", "splitResolved"]

/-- `RETAIN_PICKED`: what one tick of the retention deletes, each with whether it is a
chain row. -/
def retainPicked (floor chainCutoff tipAgeCutoff : Nat) : List (Nat × Bool) :=
  let young := ((j.rows.find? fun r => floor < r.cursor && chainCutoff ≤ r.createdAt).map
    (·.cursor)).getD j.head
  (j.rows.flatMap fun r =>
    (if floor < r.cursor ∧ r.cursor < young ∧
        (reader.kind r.payload).any (chainKinds.contains ·) then [(r.cursor, true)] else []) ++
    (if r.eventKey.any (fun k => "tipAge:" ≤ k && k < "tipAge;") ∧ r.createdAt < tipAgeCutoff ∧
        r.cursor < j.head then [(r.cursor, false)] else [])).take 1000

/-- `retain`'s transaction: the floor rises to the highest chain row picked, and the
picked rows go. -/
def retain (floor chainCutoff tipAgeCutoff : Nat) : EventJournal :=
  let picked := j.retainPicked reader floor chainCutoff tipAgeCutoff
  { j with
    rows := j.rows.filter fun r => !(picked.map (·.1)).contains r.cursor
    floor := max j.floor (((picked.filter (·.2)).map (·.1)).max?.getD 0)
    ascending := j.ascending.filter _
    numbered := fun r hr => j.numbered r (List.mem_of_mem_filter hr) }

end EventJournal

end Journal

/-! ### The ticks -/

/-- The two feeds. -/
inductive Feed
  | v1
  | v2
  deriving DecidableEq

/-- What `SQL_OUTBOX` reads: the head, the floor and every stored cursor. -/
structure OutboxRead where
  head : Nat
  floor : Nat
  stored : String → Option Nat

/-- What a tick goes on with when it is done with a target: its budget, under feed 2 what
it read of the outbox, and the targets left. -/
structure TickPlan where
  budget : Nat
  outbox : Option OutboxRead
  rest : List WebhookTarget

/-- Where a tick of `deliver` stands. -/
inductive Tick
  /-- Not running. -/
  | idle
  /-- Under feed 2, before the read of the outbox. -/
  | starting (budget : Nat) (targets : List WebhookTarget)
  /-- Between two targets. -/
  | choosing (plan : TickPlan)
  /-- `read_page`, before the read of the head. -/
  | heading (target : WebhookTarget) (since : Nat) (plan : TickPlan)
  /-- Before the read of the rows. -/
  | paging (target : WebhookTarget) (since : Nat) (plan : TickPlan)
  /-- `post_events`, before the next row's post. -/
  | posting (target : WebhookTarget) (events : List JournalEvent) (plan : TickPlan)
  /-- A post is under way. -/
  | awaiting (target : WebhookTarget) (event : JournalEvent) (events : List JournalEvent)
      (plan : TickPlan)
  /-- The post was accepted, its record is not written yet. -/
  | recording (target : WebhookTarget) (event : JournalEvent) (events : List JournalEvent)
      (plan : TickPlan)

/-- `deliver`, up to its first read: the guards on the targets and the bearer. -/
def deliver (feed : Feed) (targets : List WebhookTarget) (token : String) : Tick :=
  if targets.isEmpty ∨ 32 < targets.length ∨ token.isEmpty then .idle
  else match feed with
    | .v1 => .choosing ⟨32 / targets.length, none, targets⟩
    | .v2 => .starting (32 / targets.length) targets

/-- Where `deliver_v2` starts a target from: its stored cursor, else the floor; nothing
where it stands at the head, ahead of the journal or below the floor. -/
def OutboxRead.since (read : OutboxRead) (target : WebhookTarget) : Option Nat :=
  let since := (read.stored (targetKey target)).getD read.floor
  if since = read.head ∨ read.head < since ∨ since < read.floor then none else some since

/-- A post to a target: a row of the journal. -/
structure EventPost where
  target : WebhookTarget
  event : JournalEvent
  deriving DecidableEq

/-- The shared state: the journal, the stored cursors, the posts handed over and those
answered with a 2xx, oldest first; and for each target the greatest floor a tick has
started it from. -/
structure Outbox where
  journal : EventJournal
  cursors : String → Option Nat
  posted : List EventPost
  accepted : List EventPost
  startedAt : WebhookTarget → Nat

/-- The outbox before any event. -/
def Outbox.fresh : Outbox := ⟨.fresh, fun _ => none, [], [], fun _ => 0⟩

/-- The upsert of a delivery's cursor: the larger of the two. -/
def Outbox.record (s : Outbox) (target : WebhookTarget) (cursor : Nat) : Outbox :=
  { s with
    cursors := Function.update s.cursors (targetKey target)
      (some (max ((s.cursors (targetKey target)).getD 0) cursor)) }

/-- A tick starts a target: from the floor, where the target has no stored cursor. -/
def Outbox.start (s : Outbox) (read : OutboxRead) (target : WebhookTarget) (since : Nat) : Outbox :=
  if (read.stored (targetKey target)).isNone then
    { s with startedAt := Function.update s.startedAt target (max (s.startedAt target) since) }
  else s

section Steps

variable (reader : PayloadReader)

/-- **The steps of a tick.** A read or a write of the database is one step, and so is
handing a post over; the tick may be cut off anywhere. -/
inductive TickStep : Outbox → Tick → Outbox → Tick → Prop
  | deliver (s) (feed) (targets) (token) : TickStep s .idle s (deliver feed targets token)
  /-- `SQL_OUTBOX`. -/
  | readOutbox (s) (budget) (targets) :
    TickStep s (.starting budget targets) s
      (.choosing ⟨budget, some ⟨s.journal.head, s.journal.floor, s.cursors⟩, targets⟩)
  | done (s) (budget) (outbox) : TickStep s (.choosing ⟨budget, outbox, []⟩) s .idle
  /-- Feed 1: the target's stored cursor, 0 where there is none. -/
  | readCursor (s) (budget) (target) (rest) :
    TickStep s (.choosing ⟨budget, none, target :: rest⟩) s
      (.heading target ((s.cursors (targetKey target)).getD 0) ⟨budget, none, rest⟩)
  | skip (s) (budget) (read : OutboxRead) (target) (rest) (h : read.since target = none) :
    TickStep s (.choosing ⟨budget, some read, target :: rest⟩) s (.choosing ⟨budget, some read, rest⟩)
  | start (s) (budget) (read : OutboxRead) (target) (rest) (since)
    (h : read.since target = some since) :
    TickStep s (.choosing ⟨budget, some read, target :: rest⟩) (s.start read target since)
      (.paging target since ⟨budget, some read, rest⟩)
  /-- Feed 1: the guards of `read_page`; a fault ends the tick. -/
  | readHead (s : Outbox) (target) (since) (plan : TickPlan) (hsince : since ≤ maxCursor)
    (hlimit : 1 ≤ plan.budget ∧ plan.budget ≤ pageSize) (hhead : s.journal.head ≤ maxCursor)
    (h : since ≤ s.journal.head) :
    TickStep s (.heading target since plan) s (.paging target since plan)
  | readRows (s) (target) (since) (plan : TickPlan) :
    TickStep s (.paging target since plan) s
      (.posting target (s.journal.page reader since plan.budget) plan)
  | post (s) (target) (event) (events) (plan) :
    TickStep s (.posting target (event :: events) plan)
      { s with posted := ⟨target, event⟩ :: s.posted } (.awaiting target event events plan)
  | next (s) (target) (plan) : TickStep s (.posting target [] plan) s (.choosing plan)
  /-- The post was answered with a 2xx. -/
  | accepted (s : Outbox) (target) (event) (events) (plan) (h : ⟨target, event⟩ ∈ s.accepted) :
    TickStep s (.awaiting target event events plan) s (.recording target event events plan)
  /-- The post failed, or seems to have: this target waits for the next tick. -/
  | refused (s) (target) (event) (events) (plan) :
    TickStep s (.awaiting target event events plan) s (.choosing plan)
  | record (s : Outbox) (target) (event) (events) (plan) :
    TickStep s (.recording target event events plan) (s.record target event.cursor)
      (.posting target events plan)
  /-- A fault of the database, an eviction. -/
  | cut (s) (tick) : TickStep s tick s .idle

/-- What happens outside the ticks: rows are appended, the retention deletes some, and a
target answers a post handed over, whoever still waits for it. -/
inductive OutboxStep : Outbox → Outbox → Prop
  | append (s : Outbox) (payload eventKey createdAt) :
    OutboxStep s { s with journal := s.journal.append payload eventKey createdAt }
  | retain (s : Outbox) (floor chainCutoff tipAgeCutoff) :
    OutboxStep s { s with journal := s.journal.retain reader floor chainCutoff tipAgeCutoff }
  | answer (s : Outbox) (post : EventPost) (h : post ∈ s.posted) :
    OutboxStep s { s with accepted := s.accepted ++ [post] }

end Steps

end Chaintracks

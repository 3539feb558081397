import Chaintracks.PushHint
import Chaintracks.Refusal

/-!
# The hand-off of a read-through

A read-through that fetched a run of headers hands it to the push's door off the request's
life, where the platform gives it thirty seconds. `hand_over` offers the headers from the
lowest on, asks a busy door again, and stops at the first header that does not land. It has
one budget for all of it: every courier read and every webhook goes through `Budgeted::timed`,
which cuts it where the budget ends, and nothing is begun once it is spent.

The outside is whatever it is (`Chaintracks.Outside`): the time each read and write of the store
takes, who holds the lease, what the couriers serve and when, what the ingest decides, how
many consumers are owed the tip. A sleep ends when it is due. What is begun and when it ended
is kept in the log of the run (`Chaintracks.HandOffEvent`), which no code reads.

The asks of a run are told by the answers they got (`Chaintracks.Hands`): which comes first,
which comes next and when, and where they end. From that the budget is kept whatever the outside
does, and nothing is left out that the budget allows (`Chaintracks.handOver_keeps_budget`).
-/

namespace Chaintracks

/-- `HAND_OVER_BUDGET_MS`. -/
def handOverBudgetMs : Nat := 20000

/-- `SEND_TIMEOUT_MS`. -/
def sendTimeoutMs : Nat := 5000

/-- `BUSY_WAIT_MS`. -/
def busyWaitMs : Nat := 2000

/-! ### The run and its outside -/

/-- A door asked: the header's place in the run, the header, when it was asked and when it had
answered, and the outcome; none where the door answered with an error. -/
structure DoorAsk where
  place : Nat
  header : BlockHeader
  start : Nat
  answered : Nat
  outcome : Option DoorOutcome

/-- What a hand-off begins. -/
inductive HandOffEvent
  | ask (asked : DoorAsk)
  | wait (start stop : Nat)
  | send (start stop : Nat)

/-- When an event began. -/
def HandOffEvent.start : HandOffEvent → Nat
  | ask asked => asked.start
  | wait start _ | send start _ => start

/-- When a wait ended or a send was closed. -/
def HandOffEvent.stop : HandOffEvent → Nat
  | ask asked => asked.start
  | wait _ stop | send _ stop => stop

/-- The clock of a hand-off, how often the outside was met, the faults recorded and the log,
oldest first. -/
structure HandOff where
  now : Nat
  met : Nat
  faults : List String
  log : List HandOffEvent

/-- What the outside does, by how often it was met before. -/
structure Outside where
  /-- The time a read or a write of the store takes. -/
  storeMs : Nat → Nat
  /-- `find_header_for_hash`: whether a stored row is active. -/
  stored : Nat → String → Except Fault (Option Bool)
  /-- `find_chain_tip`. -/
  chainTip : Nat → Except Fault (Option (Nat × String))
  /-- The writer lease is held elsewhere. -/
  leaseBusy : Nat → Bool
  /-- `storage::ingest_pushed`. -/
  ingest : Nat → List BlockHeader → Except IngestError DoorOutcome
  /-- The consumers owed the tip. -/
  owed : Nat → Nat
  /-- The couriers' answer for a hash. -/
  headerByHash : Nat → String → Except String BlockHeader
  /-- When a send would be answered, if ever. -/
  sendMs : Nat → Option Nat

/-- A part of a hand-off: its answer, or the door's error. -/
abbrev HandingOff (α : Type) : Type := Prog HandOff IngestError α

namespace HandOff

/-- What is left of the budget that ends at `deadline`. -/
def left (s : HandOff) (deadline : Nat) : Nat := deadline - s.now

/-- Keep an event. -/
def logging (s : HandOff) (event : HandOffEvent) : HandOff := { s with log := s.log ++ [event] }

end HandOff

namespace Door

variable (out : Outside) (params : ChainParams) (deadline : Nat)

/-- Meet the store. -/
def storeAnswer {α : Type} (answer : Nat → Except IngestError α) : HandingOff α := fun s =>
  (answer s.met, { s with now := s.now + out.storeMs s.met, met := s.met + 1 })

/-- `record_fault`. -/
def recordFault (text : String) : HandingOff Unit := fun s =>
  (.ok (), { s with
    now := s.now + out.storeMs s.met
    met := s.met + 1
    faults := s.faults ++ [text] })

/-- `Clock::sleep`, on time, between two asks. -/
def sleep (ms : Nat) : HandingOff Unit := fun s =>
  (.ok (), { s.logging (.wait s.now (s.now + ms)) with now := s.now + ms })

/-- `Budgeted::timed`: the send's answer where it comes within its time and the budget's; not
sent where the budget is spent. -/
def timed {α : Type} (answer : Nat → α) : HandingOff (Except String α) := fun s =>
  let ms := min sendTimeoutMs (s.left deadline)
  if ms = 0 then
    (.ok (.error ("the hand-off's " ++ toString handOverBudgetMs ++ " ms are spent; not sent")), s)
  else match out.sendMs s.met with
    | some took =>
      if took ≤ ms then
        (.ok (.ok (answer s.met)),
          { s.logging (.send s.now (s.now + took)) with now := s.now + took, met := s.met + 1 })
      else
        (.ok (.error ("no answer within " ++ toString ms ++ " ms")),
          { s.logging (.send s.now (s.now + ms)) with now := s.now + ms, met := s.met + 1 })
    | none =>
      (.ok (.error ("no answer within " ++ toString ms ++ " ms")),
        { s.logging (.send s.now (s.now + ms)) with now := s.now + ms, met := s.met + 1 })

/-- `push::Announced`, but for the reason it is stored inactive. -/
structure PushAnnounced where
  outcome : DoorOutcome
  walked : Nat
  tipHeight : Nat
  tipHash : String

/-- `answer`. -/
def answerDoor (outcome : DoorOutcome) (walked : Nat) : HandingOff PushAnnounced := do
  let tip ← storeAnswer out fun n => (out.chainTip n).mapError .store
  pure ⟨outcome, walked, (tip.map (·.1)).getD 0, (tip.map (·.2)).getD ""⟩

/-- `refuse`: recorded, then the door's error. -/
def refusePush {α : Type} (pushed : BlockHeader) (fault : Fault) : HandingOff α := do
  recordFault out
    ("push: " ++ pushed.hash ++ " at " ++ toString pushed.height ++ ": " ++ fault.text)
  Prog.fail (.refused fault)

/-- The parents of a pushed header down to a stored row, oldest first, as
`Chaintracks.pushWalk` walks them; `first` is the oldest fetched, and `left` more may be. -/
def parentWalk (pushed : BlockHeader) :
    Nat → BlockHeader → List BlockHeader → HandingOff (List BlockHeader)
  | left, first, rest =>
    if first.previousHash = zeroHash then pure (first :: rest)
    else do
      let stored ← storeAnswer out fun n => (out.stored n first.previousHash).mapError .store
      if stored.isSome then pure (first :: rest)
      else match left with
        | 0 => refusePush out pushed (.walkTooDeep pushed.hash pushed.height first.previousHash)
        | left + 1 => do
          match ← timed out deadline fun n => out.headerByHash n first.previousHash with
          | .ok (.ok parent) => parentWalk pushed left parent (first :: rest)
          | .ok (.error why) | .error why =>
            refusePush out pushed (.courier ("the parent " ++ first.previousHash ++
              " of a pushed header could not be had: " ++ why))

/-- `ingest_held`. -/
def ingestHeld (header : BlockHeader) : HandingOff PushAnnounced := do
  let run ← parentWalk out deadline header parentWalkLimit header []
  let outcome ← Prog.attempt (storeAnswer out fun n => out.ingest n run)
  match outcome with
  | .ok outcome => answerDoor out outcome (run.length - 1)
  | .error (.refused fault) => refusePush out header fault
  | .error (.store fault) => Prog.fail (.store fault)

/-- `announce_tip`: the store is read, and the consumers owed the tip are sent it in turn. -/
def announceTip : HandingOff Unit := do
  let owed ← storeAnswer out fun n => .ok (out.owed n)
  Prog.each (fun _ => timed out deadline (fun _ => ()) >>= fun _ => pure ()) (List.range owed)
  storeAnswer out fun _ => .ok ()

/-- **The door**, `ingest_announced`. -/
def ingestAnnounced (header : BlockHeader) : HandingOff PushAnnounced := do
  match checkPow params header with
  | .error fault => refusePush out header (.refused header fault)
  | .ok () =>
    let stored ← storeAnswer out fun n => (out.stored n header.hash).mapError .store
    if stored = some true then answerDoor out .known 0
    else
      let busy ← storeAnswer out fun n => .ok (out.leaseBusy n)
      if busy then answerDoor out .busy 0
      else
        let result ← Prog.attempt (ingestHeld out deadline header)
        storeAnswer out fun _ => .ok ()
        if result.isOk then
          storeAnswer out fun _ => .ok ()
          announceTip out deadline
        Prog.ofExcept result

end Door

/-! ### The hand-off -/

/-- The outcomes that let the hand-off go on to the next header. -/
def DoorOutcome.landed : DoorOutcome → Bool
  | .known | .active | .activated => true
  | .busy | .storedInactive => false

namespace DoorAsk

/-- The header landed, or was already served. -/
def landed (asked : DoorAsk) : Bool := asked.outcome.any (·.landed)

/-- The lease was held elsewhere. -/
def busy (asked : DoorAsk) : Bool := asked.outcome == some .busy

end DoorAsk

/-- How one header of a hand-off ended. -/
inductive Offered
  | landed
  /-- Refused or stored inactive, as the door recorded. -/
  | lost
  /-- Not asked, or not asked again, and why. -/
  | dropped (why : String)
  deriving DecidableEq

section HandOver

variable (out : Outside) (params : ChainParams) (deadline tries : Nat)

/-- One ask of the door, unless the budget is spent: how it ended the header, and nothing where
the door was busy. -/
def askDoor (place : Nat) (header : BlockHeader) : HandingOff (Option Offered) := do
  let start ← Prog.read (·.now)
  if deadline - start = 0 then
    pure (some (.dropped ("its " ++ toString handOverBudgetMs ++ " ms are spent")))
  else
    let answer ← Prog.attempt (Door.ingestAnnounced out params deadline header)
    Prog.update fun s => s.logging
      (.ask ⟨place, header, start, s.now, (answer.toOption).map (·.outcome)⟩)
    match answer with
    | .error _ => pure (some .lost)
    | .ok announced =>
      if announced.outcome = .busy then pure none
      else if announced.outcome.landed then pure (some .landed)
      else pure (some .lost)

/-- One header to the door until it is answered otherwise than busy, so many more times at
most: how it ended, and the times left. -/
def offer (place : Nat) (header : BlockHeader) : Nat → HandingOff (Offered × Nat)
  | 0 => do
    match ← askDoor out params deadline place header with
    | some ended => pure (ended, 0)
    | none =>
      pure (.dropped ("the writer lease stayed held through " ++ toString (tries + 1) ++
        " asks " ++ toString busyWaitMs ++ " ms apart"), 0)
  | again + 1 => do
    match ← askDoor out params deadline place header with
    | some ended => pure (ended, again + 1)
    | none =>
      let remaining ← Prog.read (·.left deadline)
      if remaining ≤ busyWaitMs then
        pure (.dropped ("the writer lease was held with " ++ toString remaining ++
          " ms of its " ++ toString handOverBudgetMs ++ " ms left"), again + 1)
      else
        Door.sleep busyWaitMs
        offer place header again

/-- The text of a hand-off dropped at a header. -/
def droppedRun (header : BlockHeader) (rest : List BlockHeader) (why : String) : String :=
  "read-through: DROPPED the hand-off at " ++ header.hash ++ " (" ++ toString header.height ++
    "..=" ++ toString ((header :: rest).getLast (List.cons_ne_nil _ _)).height ++ ", " ++
    toString (rest.length + 1) ++ " header(s)): " ++ why ++ "; the poll covers it"

/-- The headers from a place on, `left` more asks after a busy answer, `landed` so far. -/
def handRun : Nat → List BlockHeader → Nat → Nat → HandingOff Nat
  | _, [], _, landed => pure landed
  | place, header :: rest, left, landed => do
    let (ended, left) ← offer out params deadline tries place header left
    match ended with
    | .landed => handRun (place + 1) rest left (landed + 1)
    | .lost => pure landed
    | .dropped why =>
      Door.recordFault out (droppedRun header rest why)
      pure landed

/-- When the budget of a hand-off ends that starts then. -/
def handOverDeadline (start : Nat) : Nat := min (start + handOverBudgetMs) (2 ^ 64 - 1)

/-- **`hand_over`.** -/
def handOver (run : List BlockHeader) : HandingOff Nat := do
  let start ← Prog.read (·.now)
  handRun out params (handOverDeadline start) tries 0 run tries 0

end HandOver

/-! ### What the door adds to the log -/

/-- The asks of a log. -/
def asksOf (log : List HandOffEvent) : List DoorAsk :=
  log.filterMap fun
    | .ask asked => some asked
    | _ => none

/-- The log has grown by these asks and by what else is within the budget. -/
def Grows (deadline : Nat) (s s' : HandOff) (asks : List DoorAsk) : Prop :=
  ∃ events, s'.log = s.log ++ events ∧ asksOf events = asks ∧
    ∀ e ∈ events, e.start < deadline ∧ e.stop ≤ deadline

section Grows

variable {deadline : Nat} {s s' s'' : HandOff} {asks asks' : List DoorAsk} {event : HandOffEvent}

theorem Grows.refl (h : s'.log = s.log) : Grows deadline s s' [] :=
  ⟨[], by rw [h, List.append_nil], rfl, List.forall_mem_nil _⟩

theorem Grows.trans (h : Grows deadline s s' asks) (h' : Grows deadline s' s'' asks') :
    Grows deadline s s'' (asks ++ asks') := by
  obtain ⟨events, hlog, hasks, htime⟩ := h
  obtain ⟨events', hlog', hasks', htime'⟩ := h'
  refine ⟨events ++ events', by rw [hlog', hlog, List.append_assoc], ?_, ?_⟩
  · rw [asksOf, List.filterMap_append, ← hasks, ← hasks']
    rfl
  · exact List.forall_mem_append.mpr ⟨htime, htime'⟩

/-- One event within the budget. -/
theorem Grows.one (hlog : s'.log = s.log ++ [event]) (hstart : event.start < deadline)
    (hstop : event.stop ≤ deadline) : Grows deadline s s' (asksOf [event]) :=
  ⟨[event], hlog, rfl, List.forall_mem_singleton.mpr ⟨hstart, hstop⟩⟩

end Grows

/-- **What a part of the door does to a run**: it may take time, record faults, and send within
the budget; it asks nothing and waits for nothing. -/
def DoorStep (deadline : Nat) (s s' : HandOff) : Prop := Grows deadline s s' []

namespace Door

variable {out : Outside} {params : ChainParams} {deadline : Nat} {α : Type}

theorem via_storeAnswer (answer : Nat → Except IngestError α) (s : HandOff) :
    Prog.Via (DoorStep deadline) (storeAnswer out answer) s :=
  .step (.refl rfl)

theorem via_recordFault (text : String) (s : HandOff) :
    Prog.Via (DoorStep deadline) (recordFault out text) s :=
  .step (.refl rfl)

/-- **A budgeted send begins before the budget ends, and is closed by then.** -/
theorem via_timed (answer : Nat → α) (s : HandOff) :
    Prog.Via (DoorStep deadline) (timed out deadline answer) s := by
  refine .step ?_
  have hsend : ∀ took, took ≤ min sendTimeoutMs (s.left deadline) →
      min sendTimeoutMs (s.left deadline) ≠ 0 →
        DoorStep deadline s { s.logging (.send s.now (s.now + took)) with
          now := s.now + took, met := s.met + 1 } := by
    rintro took htook hsome
    have hleft : took ≤ deadline - s.now ∧ deadline - s.now ≠ 0 := by
      rw [HandOff.left] at htook hsome
      omega
    exact @Grows.one _ _ _ (.send s.now (s.now + took)) rfl
      (show s.now < deadline by omega) (show s.now + took ≤ deadline by omega)
  rw [timed]
  dsimp only
  split
  · exact .refl rfl
  · rename_i hsome
    split
    · split
      · rename_i hin
        exact hsend _ hin hsome
      · exact hsend _ le_rfl hsome
    · exact hsend _ le_rfl hsome

theorem via_refusePush (pushed : BlockHeader) (fault : Fault) (s : HandOff) :
    Prog.Via (DoorStep deadline) (refusePush (α := α) out pushed fault) s :=
  .bind (via_recordFault _ s) fun _ _ _ => .fail _

theorem via_answerDoor (outcome : DoorOutcome) (walked : Nat) (s : HandOff) :
    Prog.Via (DoorStep deadline) (answerDoor out outcome walked) s :=
  .bind (via_storeAnswer _ s) fun _ _ _ => .pure _

theorem via_parentWalk (pushed : BlockHeader) (left : Nat) (first : BlockHeader)
    (rest : List BlockHeader) (s : HandOff) :
    Prog.Via (DoorStep deadline) (parentWalk out deadline pushed left first rest) s := by
  induction left generalizing first rest s with
  | zero =>
    rw [parentWalk]
    split
    · exact .pure _
    · refine .bind (via_storeAnswer _ s) fun stored s₁ _ => ?_
      split
      · exact .pure _
      · exact via_refusePush _ _ s₁
  | succ left ih =>
    rw [parentWalk]
    split
    · exact .pure _
    · refine .bind (via_storeAnswer _ s) fun stored s₁ _ => ?_
      split
      · exact .pure _
      · refine .bind (via_timed _ s₁) fun answer s₂ _ => ?_
        split
        · exact ih _ _ s₂
        · exact via_refusePush _ _ s₂
        · exact via_refusePush _ _ s₂

theorem via_ingestHeld (header : BlockHeader) (s : HandOff) :
    Prog.Via (DoorStep deadline) (ingestHeld out deadline header) s := by
  refine .bind (via_parentWalk _ _ _ _ s) fun run s₁ _ => ?_
  refine .bind (.attempt (via_storeAnswer _ s₁)) fun outcome s₂ _ => ?_
  split
  · exact via_answerDoor _ _ s₂
  · exact via_refusePush _ _ s₂
  · exact .fail _

theorem via_announceTip (s : HandOff) :
    Prog.Via (DoorStep deadline) (announceTip out deadline) s := by
  refine .bind (via_storeAnswer _ s) fun owed s₁ _ => ?_
  refine .bind (.each (fun _ _ s' => ?_) s₁) fun _ s₂ _ => via_storeAnswer _ s₂
  exact .bind (via_timed _ s') fun _ _ _ => .pure _

/-- Every part of the door is such. -/
theorem via_ingestAnnounced (header : BlockHeader) (s : HandOff) :
    Prog.Via (DoorStep deadline) (ingestAnnounced out params deadline header) s := by
  rw [ingestAnnounced]
  split
  · exact via_refusePush _ _ s
  · refine .bind (via_storeAnswer _ s) fun stored s₁ _ => ?_
    split
    · exact via_answerDoor _ _ s₁
    · refine .bind (via_storeAnswer _ s₁) fun busy s₂ _ => ?_
      split
      · exact via_answerDoor _ _ s₂
      · refine .bind (.attempt (via_ingestHeld _ s₂)) fun result s₃ _ => ?_
        refine .bind (via_storeAnswer _ s₃) fun _ s₄ _ => ?_
        split
        · refine .bind (via_storeAnswer _ s₄) fun _ s₅ _ => ?_
          exact .bind (via_announceTip s₅) fun _ _ _ => .ofExcept _
        · exact .ofExcept _

/-- The whole of it. -/
theorem ingestAnnounced_grows (header : BlockHeader) (s : HandOff) :
    Grows deadline s (ingestAnnounced out params deadline header s).2 [] :=
  (via_ingestAnnounced header s).invariant (I := fun s' => Grows deadline s s' [])
    (fun _ _ hstep h => h.trans hstep) (.refl rfl)

end Door

/-! ### The asks of a run -/

/-- One ask follows another: of the same header while the door is busy, of the next once it
landed. -/
def DoorAsk.Then (a b : DoorAsk) : Prop :=
  b.place = a.place ∧ a.busy = true ∨ b.place = a.place + 1 ∧ a.landed = true

/-- A busy door has landed nothing. -/
theorem DoorAsk.landed_of_busy {a : DoorAsk} (h : a.busy = true) : a.landed = false := by
  rw [DoorAsk.busy, beq_iff_eq] at h
  rw [DoorAsk.landed, h]
  rfl

/-- How an answer of the door ends a header; a busy one does not. -/
def DoorAsk.ended (a : DoorAsk) : Option Offered :=
  match a.outcome with
  | none => some .lost
  | some outcome =>
    if outcome = .busy then none else if outcome.landed then some .landed else some .lost

theorem DoorAsk.ended_eq_none {a : DoorAsk} : a.ended = none ↔ a.busy = true := by
  rw [DoorAsk.ended, DoorAsk.busy]
  cases a.outcome with
  | none => simp
  | some outcome => cases outcome <;> simp [DoorOutcome.landed]

theorem DoorAsk.ended_eq_landed {a : DoorAsk} : a.ended = some .landed ↔ a.landed = true := by
  rw [DoorAsk.ended, DoorAsk.landed]
  cases a.outcome with
  | none => simp
  | some outcome => cases outcome <;> simp [DoorOutcome.landed]

/-- **An ask of the door**, begun before the budget ends: what it was answered is the door's
answer. -/
structure DoorAsk.Made (out : Outside) (params : ChainParams) (deadline place : Nat)
    (header : BlockHeader) (now : Nat) (a : DoorAsk) : Prop where
  place_eq : a.place = place
  header_eq : a.header = header
  start_eq : a.start = now
  begun : now < deadline
  door : ∃ s : HandOff, s.now = now ∧
    a.answered = (Door.ingestAnnounced out params deadline header s).2.now ∧
    a.outcome = (Door.ingestAnnounced out params deadline header s).1.toOption.map (·.outcome)

section Hands

variable (out : Outside) (params : ChainParams) (deadline : Nat)

/-- **The asks of a run** from a place on, with so many asks again left, from a time on; and how
many headers landed. -/
inductive Hands : List BlockHeader → Nat → Nat → Nat → List DoorAsk → Nat → Prop
  /-- Every header is through. -/
  | done (place left now : Nat) : Hands [] place left now [] 0
  /-- The budget is spent. -/
  | spent (header : BlockHeader) (run : List BlockHeader) (place left now : Nat)
      (h : deadline ≤ now) : Hands (header :: run) place left now [] 0
  /-- The header landed: the next one is asked at once. -/
  | next (header : BlockHeader) (run : List BlockHeader) (place left now : Nat) (a : DoorAsk)
      (asks : List DoorAsk) (landed : Nat) (hmade : a.Made out params deadline place header now)
      (h : a.landed = true) (hrest : Hands run (place + 1) left a.answered asks landed) :
      Hands (header :: run) place left now (a :: asks) (landed + 1)
  /-- The door was busy: it is asked again after the wait. -/
  | again (header : BlockHeader) (run : List BlockHeader) (place left now : Nat) (a : DoorAsk)
      (asks : List DoorAsk) (landed : Nat) (hmade : a.Made out params deadline place header now)
      (h : a.busy = true) (htime : a.answered + busyWaitMs < deadline)
      (hrest : Hands (header :: run) place left (a.answered + busyWaitMs) asks landed) :
      Hands (header :: run) place (left + 1) now (a :: asks) landed
  /-- The door was busy, and no ask again is left, or no time for it. -/
  | dropped (header : BlockHeader) (run : List BlockHeader) (place left now : Nat) (a : DoorAsk)
      (hmade : a.Made out params deadline place header now) (h : a.busy = true)
      (hlast : left = 0 ∨ deadline ≤ a.answered + busyWaitMs) :
      Hands (header :: run) place left now [a] 0
  /-- The header is refused or stored inactive. -/
  | lost (header : BlockHeader) (run : List BlockHeader) (place left now : Nat) (a : DoorAsk)
      (hmade : a.Made out params deadline place header now) (h : a.landed = false)
      (hbusy : a.busy = false) : Hands (header :: run) place left now [a] 0

/-- **The asks of one header**: with those of the run after it they are the run's, where it
landed, and by themselves where it did not. -/
structure HeaderAsks (place : Nat) (header : BlockHeader) (left now left' stop : Nat)
    (ended : Offered) (asks : List DoorAsk) : Prop where
  lands : ended = .landed → ∀ run rest n,
    Hands out params deadline run (place + 1) left' stop rest n →
      Hands out params deadline (header :: run) place left now (asks ++ rest) (n + 1)
  loses : ended ≠ .landed → ∀ run, Hands out params deadline (header :: run) place left now asks 0

end Hands

/-! ### The code asks so -/

section Run

variable {out : Outside} {params : ChainParams} {deadline tries place left landed now : Nat}
  {header : BlockHeader} {run : List BlockHeader} {s : HandOff} {a : DoorAsk}
  {asks : List DoorAsk}

/-- **One ask of the door**: not begun once the budget is spent. -/
theorem askDoor_spec :
    deadline ≤ s.now ∧
        (∃ why, askDoor out params deadline place header s = (.ok (some (.dropped why)), s)) ∨
      ∃ a s', askDoor out params deadline place header s = (.ok a.ended, s') ∧
        Grows deadline s s' [a] ∧ a.Made out params deadline place header s.now ∧
          a.answered = s'.now := by
  by_cases hspent : deadline - s.now = 0
  · refine .inl ⟨by omega, "its " ++ toString handOverBudgetMs ++ " ms are spent", ?_⟩
    rw [askDoor, Prog.read_bind_apply, if_pos hspent]
    rfl
  · have hgrows := @Door.ingestAnnounced_grows out params deadline header s
    generalize hdoor : Door.ingestAnnounced out params deadline header s = answer at hgrows
    obtain ⟨result, s'⟩ := answer
    have hone : Grows deadline s
        (s'.logging (.ask ⟨place, header, s.now, s'.now, result.toOption.map (·.outcome)⟩))
        [⟨place, header, s.now, s'.now, result.toOption.map (·.outcome)⟩] :=
      hgrows.trans (@Grows.one _ _ _ (.ask _) rfl (show s.now < deadline by omega)
        (show s.now ≤ deadline by omega))
    refine .inr ⟨_, _, ?_, hone, ⟨rfl, rfl, rfl, by omega, s, rfl, ?_, ?_⟩, rfl⟩
    · rw [askDoor, Prog.read_bind_apply, if_neg hspent, Prog.attempt_bind_apply, hdoor,
        Prog.update_bind_apply, DoorAsk.ended]
      cases result with
      | error e => rfl
      | ok announced =>
        dsimp only [Except.toOption, Option.map_some]
        split
        · rfl
        · split <;> rfl
    · rw [hdoor]
    · rw [hdoor]

/-- The ask that ends a header, however many are left. -/
theorem HeaderAsks.last {ended : Offered} (hmade : a.Made out params deadline place header now)
    (h : a.ended = some ended) :
    HeaderAsks out params deadline place header left now left a.answered ended [a] where
  lands := by
    rintro rfl run rest n hrest
    exact .next header run place left now a rest n hmade (DoorAsk.ended_eq_landed.mp h) hrest
  loses := by
    rintro hne run
    refine .lost header run place left now a hmade (Bool.eq_false_iff.mpr fun hland => hne ?_)
      (Bool.eq_false_iff.mpr fun hbusy => ?_)
    · exact (Option.some_inj.mp ((DoorAsk.ended_eq_landed.mpr hland).symm.trans h)).symm
    · rw [DoorAsk.ended_eq_none.mpr hbusy] at h
      cases h

/-- An ask of a busy door, the wait, and the asks after it. -/
theorem HeaderAsks.again {left' stop : Nat} {ended : Offered}
    (hmade : a.Made out params deadline place header now) (hbusy : a.busy = true)
    (htime : a.answered + busyWaitMs < deadline)
    (hrest : HeaderAsks out params deadline place header left (a.answered + busyWaitMs) left' stop
      ended asks) :
    HeaderAsks out params deadline place header (left + 1) now left' stop ended (a :: asks) where
  lands := fun hended run rest n h =>
    .again header run place left now a (asks ++ rest) (n + 1) hmade hbusy htime
      (hrest.lands hended run rest n h)
  loses := fun hne run =>
    .again header run place left now a asks 0 hmade hbusy htime (hrest.loses hne run)

/-- **One header**: its asks, and the asks again they leave. -/
theorem offer_spec : ∃ ended left' s' asks,
    offer out params deadline tries place header left s = (.ok (ended, left'), s') ∧
      Grows deadline s s' asks ∧
      HeaderAsks out params deadline place header left s.now left' s'.now ended asks := by
  induction left generalizing s with
  | zero =>
    rcases @askDoor_spec out params deadline place header s with
      ⟨hspent, why, hask⟩ | ⟨a, s', hask, hgrows, hmade, htime⟩
    · exact ⟨.dropped why, 0, s, [], Prog.bind_ok hask, .refl rfl, nofun,
        fun _ run => .spent header run place 0 s.now hspent⟩
    · cases hended : a.ended with
      | none =>
        rw [hended] at hask
        exact ⟨_, 0, s', [a], Prog.bind_ok hask, hgrows, nofun, fun _ run =>
          .dropped header run place 0 s.now a hmade (DoorAsk.ended_eq_none.mp hended) (.inl rfl)⟩
      | some ended =>
        rw [hended] at hask
        exact ⟨ended, 0, s', [a], Prog.bind_ok hask, hgrows, htime ▸ .last hmade hended⟩
  | succ again ih =>
    rcases @askDoor_spec out params deadline place header s with
      ⟨hspent, why, hask⟩ | ⟨a, s', hask, hgrows, hmade, htime⟩
    · exact ⟨.dropped why, again + 1, s, [], Prog.bind_ok hask, .refl rfl, nofun,
        fun _ run => .spent header run place (again + 1) s.now hspent⟩
    · cases hended : a.ended with
      | some ended =>
        rw [hended] at hask
        exact ⟨ended, again + 1, s', [a], Prog.bind_ok hask, hgrows, htime ▸ .last hmade hended⟩
      | none =>
        rw [hended] at hask
        have hbusy := DoorAsk.ended_eq_none.mp hended
        by_cases hlate : s'.left deadline ≤ busyWaitMs
        · refine ⟨.dropped ("the writer lease was held with " ++ toString (s'.left deadline) ++
            " ms of its " ++ toString handOverBudgetMs ++ " ms left"), again + 1, s', [a],
            (Prog.bind_ok hask).trans ?_, hgrows, nofun, fun _ run =>
              .dropped header run place (again + 1) s.now a hmade hbusy (.inr ?_)⟩
          · dsimp only
            rw [Prog.read_bind_apply, if_pos hlate]
            rfl
          · rw [HandOff.left] at hlate
            omega
        · -- the wait ends before the budget does
          have hearly : s'.now + busyWaitMs < deadline := by
            rw [HandOff.left] at hlate
            omega
          have hwait : Grows deadline s'
              { s'.logging (.wait s'.now (s'.now + busyWaitMs)) with now := s'.now + busyWaitMs }
              [] :=
            @Grows.one _ _ _ (.wait s'.now (s'.now + busyWaitMs)) rfl
              (show s'.now < deadline by omega) (show s'.now + busyWaitMs ≤ deadline by omega)
          obtain ⟨ended, left', s'', asks, hrun, hgrows', hasks⟩ := @ih
            { s'.logging (.wait s'.now (s'.now + busyWaitMs)) with now := s'.now + busyWaitMs }
          rw [← htime] at hearly hasks
          refine ⟨ended, left', s'', a :: asks, (Prog.bind_ok hask).trans ?_,
            hgrows.trans (hwait.trans hgrows'), hasks.again hmade hbusy hearly⟩
          dsimp only
          rw [Prog.read_bind_apply, if_neg hlate]
          exact (Prog.bind_ok rfl).trans hrun

/-- **The run**: every header until one does not land. -/
theorem handRun_spec : ∃ n s' asks,
    handRun out params deadline tries place run left landed s = (.ok (landed + n), s') ∧
      Grows deadline s s' asks ∧ Hands out params deadline run place left s.now asks n := by
  induction run generalizing place left landed s with
  | nil => exact ⟨0, s, [], rfl, .refl rfl, .done place left s.now⟩
  | cons header run ih =>
    obtain ⟨ended, left', s', asks, hoffer, hgrows, hheader⟩ :=
      @offer_spec out params deadline tries place left header s
    cases hended : ended with
    | landed =>
      -- the asks again that are left go on to the rest of the run
      rw [hended] at hoffer
      obtain ⟨n, s'', asks', hrun, hgrows', hrest⟩ := @ih (place + 1) left' (landed + 1) s'
      refine ⟨n + 1, s'', asks ++ asks', (Prog.bind_ok hoffer).trans ?_, hgrows.trans hgrows',
        hheader.lands hended run asks' n hrest⟩
      rw [show landed + (n + 1) = landed + 1 + n by omega]
      exact hrun
    | lost =>
      rw [hended] at hoffer
      exact ⟨0, s', asks, Prog.bind_ok hoffer, hgrows, hheader.loses (by simp [hended]) run⟩
    | dropped why =>
      rw [hended] at hoffer
      have hrecord : Grows deadline s' (Door.recordFault out (droppedRun header run why) s').2 [] :=
        .refl rfl
      refine ⟨0, (Door.recordFault out (droppedRun header run why) s').2, asks,
        (Prog.bind_ok hoffer).trans rfl, ?_, hheader.loses (by simp [hended]) run⟩
      exact List.append_nil asks ▸ hgrows.trans hrecord

end Run

/-! ### What such asks are -/

section Hands

variable {out : Outside} {params : ChainParams} {deadline place left landed now : Nat}
  {run : List BlockHeader} {asks : List DoorAsk}

theorem DoorAsk.busy_of_landed {a : DoorAsk} (h : a.landed = true) : a.busy = false := by
  cases hb : a.busy with
  | false => rfl
  | true =>
    rw [DoorAsk.landed_of_busy hb] at h
    cases h

/-- Every ask is the door's. -/
theorem Hands.made (h : Hands out params deadline run place left now asks landed) :
    ∀ a ∈ asks, a.Made out params deadline a.place a.header a.start := by
  have hself : ∀ {place now : Nat} {header : BlockHeader} {a : DoorAsk},
      a.Made out params deadline place header now →
        a.Made out params deadline a.place a.header a.start := by
    rintro place now header a hmade
    obtain ⟨rfl, rfl, rfl, hbegun, hdoor⟩ := hmade
    exact ⟨rfl, rfl, rfl, hbegun, hdoor⟩
  induction h with
  | done | spent => exact List.forall_mem_nil _
  | next _ _ _ _ _ _ _ _ hmade _ _ ih | again _ _ _ _ _ _ _ _ hmade _ _ _ ih =>
    exact List.forall_mem_cons.mpr ⟨hself hmade, ih⟩
  | dropped _ _ _ _ _ _ hmade | lost _ _ _ _ _ _ hmade =>
    exact List.forall_mem_singleton.mpr (hself hmade)

/-- The first ask is of the first header, at the start. -/
theorem Hands.first (h : Hands out params deadline run place left now asks landed) :
    ∀ a ∈ asks.head?, a.place = place ∧ a.start = now := by
  rintro a ha
  cases h with
  | done | spent => cases ha
  | next _ _ _ _ _ _ _ _ hmade | again _ _ _ _ _ _ _ _ hmade | dropped _ _ _ _ _ _ hmade
  | lost _ _ _ _ _ _ hmade =>
    obtain rfl := Option.some_inj.mp ha
    exact ⟨hmade.place_eq, hmade.start_eq⟩

/-- There is one, where there is a header and the budget is not spent. -/
theorem Hands.opens (h : Hands out params deadline run place left now asks landed)
    (hrun : run ≠ []) (hnow : now < deadline) :
    ∃ a ∈ asks.head?, a.place = place ∧ a.start = now := by
  have hfirst := h.first
  cases h with
  | done => exact absurd rfl hrun
  | spent _ _ _ _ _ hspent => exact absurd hnow (Nat.not_lt.mpr hspent)
  | next | again | dropped | lost => exact ⟨_, rfl, hfirst _ rfl⟩

theorem Hands.chain (h : Hands out params deadline run place left now asks landed) :
    asks.IsChain DoorAsk.Then := by
  induction h with
  | done | spent => exact .nil
  | dropped | lost => exact .singleton _
  | next header run place left now a asks n hmade hland hrest ih =>
    refine List.isChain_cons.mpr ⟨fun b hb => .inr ⟨?_, hland⟩, ih⟩
    rw [(hrest.first b hb).1, hmade.place_eq]
  | again header run place left now a asks n hmade hbusy htime hrest ih =>
    refine List.isChain_cons.mpr ⟨fun b hb => .inl ⟨?_, hbusy⟩, ih⟩
    rw [(hrest.first b hb).1, hmade.place_eq]

theorem Hands.headers (h : Hands out params deadline run place left now asks landed) :
    ∀ a ∈ asks, place ≤ a.place ∧ run[a.place - place]? = some a.header := by
  have hself : ∀ {place now : Nat} {header : BlockHeader} {run : List BlockHeader} {a : DoorAsk},
      a.Made out params deadline place header now →
        place ≤ a.place ∧ (header :: run)[a.place - place]? = some a.header := by
    rintro place now header run a hmade
    refine ⟨hmade.place_eq.ge, ?_⟩
    rw [hmade.place_eq, Nat.sub_self, hmade.header_eq]
    rfl
  induction h with
  | done | spent => exact List.forall_mem_nil _
  | again _ _ _ _ _ _ _ _ hmade _ _ _ ih =>
    exact List.forall_mem_cons.mpr ⟨hself hmade, ih⟩
  | dropped _ _ _ _ _ _ hmade | lost _ _ _ _ _ _ hmade =>
    exact List.forall_mem_singleton.mpr (hself hmade)
  | next header run place left now a asks n hmade _ _ ih =>
    refine List.forall_mem_cons.mpr ⟨hself hmade, fun b hb => ?_⟩
    obtain ⟨hle, hat⟩ := ih b hb
    refine ⟨by omega, ?_⟩
    rw [show b.place - place = b.place - (place + 1) + 1 by omega, List.getElem?_cons_succ, hat]

/-- **A busy door is asked again so many times at most.** -/
theorem Hands.again_le (h : Hands out params deadline run place left now asks landed) :
    asks.dropLast.countP DoorAsk.busy ≤ left := by
  induction h with
  | done | spent | dropped | lost => exact Nat.zero_le _
  | next header run place left now a asks n hmade hland hrest ih =>
    cases asks with
    | nil => exact Nat.zero_le _
    | cons b bs =>
      rw [List.dropLast_cons_cons, List.countP_cons_of_neg (by
        rw [DoorAsk.busy_of_landed hland]
        exact Bool.false_ne_true)]
      exact ih
  | again header run place left now a asks n hmade hbusy htime hrest ih =>
    cases asks with
    | nil => exact Nat.zero_le _
    | cons b bs =>
      rw [List.dropLast_cons_cons, List.countP_cons_of_pos hbusy]
      exact Nat.succ_le_succ ih

/-- **The answer is the number of headers that landed**, those from the first on. -/
theorem Hands.landed_iff (h : Hands out params deadline run place left now asks landed) (k : Nat) :
    (∃ a ∈ asks, a.place = k ∧ a.landed = true) ↔ place ≤ k ∧ k < place + landed := by
  induction h with
  | done | spent => simp
  | dropped header run place left now a hmade hbusy =>
    simp [DoorAsk.landed_of_busy hbusy]
  | lost header run place left now a hmade hland => simp [hland]
  | again header run place left now a asks n hmade hbusy htime hrest ih =>
    rw [← ih]
    simp [DoorAsk.landed_of_busy hbusy]
  | next header run place left now a asks n hmade hland hrest ih =>
    rw [List.exists_mem_cons_iff, ih, hmade.place_eq]
    constructor
    · rintro (⟨rfl, -⟩ | ⟨hle, hlt⟩) <;> omega
    · rintro ⟨hle, hlt⟩
      rcases Nat.eq_or_lt_of_le hle with rfl | hgt
      · exact .inl ⟨rfl, hland⟩
      · exact .inr ⟨hgt, by omega⟩

/-- **Nothing is left out**: after a header that landed the next one is asked at once while the
budget lasts, and after a busy door the same one after the wait, while there are asks left and
the wait ends within the budget. -/
theorem Hands.goesOn (h : Hands out params deadline run place left now asks landed)
    {before after : List DoorAsk} {a : DoorAsk} (hasks : asks = before ++ a :: after) :
    (a.landed = true → a.place + 1 < place + run.length → a.answered < deadline →
        ∃ b ∈ after.head?, b.place = a.place + 1 ∧ b.start = a.answered) ∧
      (a.busy = true → before.countP DoorAsk.busy < left → a.answered + busyWaitMs < deadline →
        ∃ b ∈ after.head?, b.place = a.place ∧ b.start = a.answered + busyWaitMs) := by
  -- the ask stands first in the list, or among those the rest of the run makes
  induction h generalizing before with
  | done | spent => exact absurd hasks (by simp)
  | dropped header run place left now c hmade hbusy hlast =>
    cases before with
    | cons x xs => exact absurd hasks (by simp)
    | nil =>
      obtain ⟨rfl, rfl⟩ := List.cons.inj hasks
      refine ⟨fun hland => ?_, fun _ hleft htime => ?_⟩
      · rw [DoorAsk.landed_of_busy hbusy] at hland
        cases hland
      · rw [List.countP_nil] at hleft
        omega
  | lost header run place left now c hmade hland hbusy =>
    cases before with
    | cons x xs => exact absurd hasks (by simp)
    | nil =>
      obtain ⟨rfl, rfl⟩ := List.cons.inj hasks
      rw [hland, hbusy]
      exact ⟨nofun, nofun⟩
  | next header run place left now c asks n hmade hland hrest ih =>
    cases before with
    | nil =>
      obtain ⟨rfl, rfl⟩ := List.cons.inj hasks
      rw [DoorAsk.busy_of_landed hland, hmade.place_eq]
      refine ⟨fun _ hmore htime => hrest.opens ?_ htime, nofun⟩
      rintro rfl
      simp at hmore
    | cons x xs =>
      obtain ⟨rfl, hon⟩ := List.cons.inj hasks
      obtain ⟨hnext, hagain⟩ := ih hon
      rw [List.countP_cons_of_neg (by rw [DoorAsk.busy_of_landed hland]; exact Bool.false_ne_true),
        List.length_cons]
      exact ⟨fun hl hmore => hnext hl (by omega), hagain⟩
  | again header run place left now c asks n hmade hbusy htime hrest ih =>
    cases before with
    | nil =>
      obtain ⟨rfl, rfl⟩ := List.cons.inj hasks
      refine ⟨fun hland => ?_, fun _ _ _ => ?_⟩
      · rw [DoorAsk.landed_of_busy hbusy] at hland
        cases hland
      · rw [hmade.place_eq]
        exact hrest.opens (List.cons_ne_nil _ _) htime
    | cons x xs =>
      obtain ⟨rfl, hon⟩ := List.cons.inj hasks
      obtain ⟨hnext, hagain⟩ := ih hon
      rw [List.countP_cons_of_pos hbusy]
      exact ⟨hnext, fun hb hleft => hagain hb (Nat.lt_of_succ_lt_succ hleft)⟩

end Hands

/-! ### Headers that are served already -/

/-- A header whose row is active whenever the store is asked, and the store answers for its
tip. -/
structure AlreadyServed (out : Outside) (params : ChainParams) (header : BlockHeader) : Prop where
  pow : checkPow params header = .ok ()
  stored : ∀ n, out.stored n header.hash = .ok (some true)
  tip : ∀ n, ∃ tip, out.chainTip n = .ok tip

section Served

variable {out : Outside} {params : ChainParams} {deadline : Nat} {header : BlockHeader}

/-- The door answers for it that it is known. -/
theorem AlreadyServed.ingestAnnounced (h : AlreadyServed out params header) (s : HandOff) :
    ((Door.ingestAnnounced out params deadline header s).1.toOption.map (·.outcome)) =
      some .known := by
  obtain ⟨tip, htip⟩ := h.tip (s.met + 1)
  have hstored : Door.storeAnswer out (fun n => (out.stored n header.hash).mapError .store) s =
      (.ok (some true), { s with now := s.now + out.storeMs s.met, met := s.met + 1 }) := by
    rw [Door.storeAnswer, h.stored]
    rfl
  rw [Door.ingestAnnounced, h.pow]
  dsimp only
  rw [Prog.bind_ok hstored, if_pos rfl, Door.answerDoor, Prog.bind_apply, Door.storeAnswer]
  dsimp only
  rw [htip]
  rfl

theorem DoorAsk.Made.landed_of_served {a : DoorAsk} {place now : Nat}
    (h : a.Made out params deadline place header now) (hserved : AlreadyServed out params header) :
    a.landed = true := by
  obtain ⟨s, -, -, houtcome⟩ := h.door
  rw [DoorAsk.landed, houtcome, hserved.ingestAnnounced]
  rfl

end Served

/-! ### The budget -/

/-- **A hand-off keeps its budget**: nothing is begun when it is spent, and no wait or send lasts
past its end; a busy door is asked again so many times at most, in all; the headers are
offered in order, none after one that did not land, and the answer counts those that did.
And it uses it: the first header is asked at the start, the next one as soon as one landed, and a
busy door after each wait, as long as the budget and the asks again last. -/
structure KeepsBudget (out : Outside) (params : ChainParams) (run : List BlockHeader)
    (tries start landed : Nat) (log : List HandOffEvent) : Prop where
  begins : ∀ e ∈ log, e.start < start + handOverBudgetMs
  ends : ∀ e ∈ log, e.stop ≤ start + handOverBudgetMs
  again : (asksOf log).dropLast.countP DoorAsk.busy ≤ tries
  inOrder : (asksOf log).IsChain DoorAsk.Then ∧ ∀ a ∈ (asksOf log).head?, a.place = 0
  offered : ∀ a ∈ asksOf log, run[a.place]? = some a.header
  counted : ∀ k, k < landed ↔ ∃ a ∈ asksOf log, a.place = k ∧ a.landed = true
  door : ∀ a ∈ asksOf log,
    a.Made out params (handOverDeadline start) a.place a.header a.start
  opens : run ≠ [] → start < handOverDeadline start → ∃ a ∈ (asksOf log).head?, a.start = start
  next : ∀ before a after, asksOf log = before ++ a :: after → a.landed = true →
    a.place + 1 < run.length → a.answered < handOverDeadline start →
      ∃ b ∈ after.head?, b.place = a.place + 1 ∧ b.start = a.answered
  asksAgain : ∀ before a after, asksOf log = before ++ a :: after → a.busy = true →
    before.countP DoorAsk.busy < tries → a.answered + busyWaitMs < handOverDeadline start →
      ∃ b ∈ after.head?, b.place = a.place ∧ b.start = a.answered + busyWaitMs

section Budget

variable {out : Outside} {params : ChainParams} {run : List BlockHeader}
  {tries start landed : Nat} {log : List HandOffEvent}

/-- **Headers that are served already are counted**, as far as the budget lasts. -/
theorem KeepsBudget.served (h : KeepsBudget out params run tries start landed log) {k : Nat}
    (hk : k ≤ run.length) (hserved : ∀ header ∈ run.take k, AlreadyServed out params header)
    (hstart : start < handOverDeadline start)
    (htime : ∀ a ∈ asksOf log, a.place + 1 < k → a.answered < handOverDeadline start) :
    k ≤ landed := by
  induction k with
  | zero => exact Nat.zero_le _
  | succ k ih =>
    have hle := ih (by omega)
      (fun header hmem => hserved header (List.take_subset_take_left _ (Nat.le_succ k) hmem))
      (fun a ha hplace => htime a ha (by omega))
    -- the header at this place is asked: it is the first, or the one before it landed
    obtain ⟨a, ha, hplace⟩ : ∃ a ∈ asksOf log, a.place = k := by
      cases k with
      | zero =>
        obtain ⟨a, ha, -⟩ := h.opens (List.ne_nil_of_length_pos hk) hstart
        exact ⟨a, List.mem_of_mem_head? ha, h.inOrder.2 a ha⟩
      | succ k =>
        obtain ⟨a, ha, hplace, hland⟩ := (h.counted k).mp (by omega)
        obtain ⟨before, after, hasks⟩ := List.append_of_mem ha
        obtain ⟨b, hb, hnext, -⟩ := h.next before a after hasks hland (by omega)
          (htime a ha (by omega))
        refine ⟨b, ?_, by omega⟩
        rw [hasks]
        exact List.mem_append_right _ (List.mem_cons_of_mem _ (List.mem_of_mem_head? hb))
    have hheader := h.offered a ha
    rw [hplace] at hheader
    have hmem : a.header ∈ run.take (k + 1) :=
      List.mem_of_getElem? (List.getElem?_take_of_lt (Nat.lt_succ_self k) ▸ hheader)
    exact (h.counted k).mpr ⟨a, ha, hplace, (h.door a ha).landed_of_served (hserved _ hmem)⟩

end Budget

/-- **`hand_over` answers and keeps its budget**, for every run, every number of tries, whatever
the door meets outside and however long it takes there; and it answers at least the length of
the prefix that is served already, unless the budget was spent before it was through. -/
theorem handOver_keeps_budget (out : Outside) (params : ChainParams) (run : List BlockHeader)
    (tries now : Nat) : ∃ landed s,
      handOver out params tries run ⟨now, 0, [], []⟩ = (.ok landed, s) ∧
        KeepsBudget out params run tries now landed s.log ∧
        ∀ k ≤ run.length, (∀ header ∈ run.take k, AlreadyServed out params header) →
          now < handOverDeadline now →
          (∀ a ∈ asksOf s.log, a.place + 1 < k → a.answered < handOverDeadline now) →
            k ≤ landed := by
  obtain ⟨n, s, asks, hrun, ⟨events, hlog, hasks, htime⟩, hands⟩ :=
    @handRun_spec out params (handOverDeadline now) tries 0 tries 0 run ⟨now, 0, [], []⟩
  rw [Nat.zero_add] at hrun
  rw [List.nil_append] at hlog
  have hkeeps : KeepsBudget out params run tries now n s.log := by
    rw [hlog]
    refine
      { begins := fun e he => (htime e he).1.trans_le (Nat.min_le_left _ _)
        ends := fun e he => (htime e he).2.trans (Nat.min_le_left _ _)
        again := hasks ▸ hands.again_le
        inOrder := hasks ▸ ⟨hands.chain, fun a ha => (hands.first a ha).1⟩
        offered := fun a ha => (hands.headers a (hasks ▸ ha)).2
        counted := fun k => ?_
        door := hasks ▸ hands.made
        opens := fun hne hnow => ?_
        next := fun before a after hat hland hmore => ?_
        asksAgain := fun before a after hat => (hands.goesOn (hasks ▸ hat)).2 }
    · rw [hasks, hands.landed_iff k]
      omega
    · obtain ⟨a, ha, -, hstart⟩ := hands.opens hne hnow
      exact ⟨a, hasks ▸ ha, hstart⟩
    · exact (hands.goesOn (hasks ▸ hat)).1 hland (by omega)
  exact ⟨n, s, (Prog.read_bind_apply _ _ _).trans hrun, hkeeps,
    fun k hk hserved hnow htimes => hkeeps.served hk hserved hnow htimes⟩

section Regtest

open Regtest

/-- A lease held elsewhere at the first ask; the second block is served already. -/
def busyHost : Outside where
  storeMs _ := 10
  stored _ hash := .ok (if hash = a1.hash then none else some true)
  chainTip _ := .ok (some (2, a2.hash))
  leaseBusy met := met == 1
  ingest _ _ := .ok .active
  owed _ := 1
  headerByHash _ _ := .error "no courier"
  sendMs _ := some 500

/-- `Chaintracks.handOver_keeps_budget` where the door is asked again once: both blocks land. -/
theorem handOver_keeps_budget_busy : ∃ s,
    handOver busyHost params 3 [a1, a2] ⟨0, 0, [], []⟩ = (.ok 2, s) ∧
      KeepsBudget busyHost params [a1, a2] 3 0 2 s.log ∧
      (asksOf s.log).map (fun a => (a.place, a.start, a.outcome)) =
        [(0, 0, some .busy), (0, 2030, some .active), (1, 2620, some .known)] := by
  obtain ⟨landed, s, hrun, hkeeps, -⟩ := handOver_keeps_budget busyHost params [a1, a2] 3 0
  have hlanded : (handOver busyHost params 3 [a1, a2] ⟨0, 0, [], []⟩).1 = .ok 2 := by
    decide +kernel
  have hasks : (asksOf (handOver busyHost params 3 [a1, a2] ⟨0, 0, [], []⟩).2.log).map
      (fun a => (a.place, a.start, a.outcome)) =
        [(0, 0, some .busy), (0, 2030, some .active), (1, 2620, some .known)] := by
    decide +kernel
  rw [hrun] at hlanded hasks
  obtain rfl : landed = 2 := Except.ok.inj hlanded
  exact ⟨s, hrun, hkeeps, hasks⟩

end Regtest

end Chaintracks

import Chaintracks.Header

/-!
# The push's hint and the poll

The object that holds the peer's tip stream keeps two records. The session writes one
(`Chaintracks.StreamState`): what the peer sent, and the height of the last push that did
not land, a hint to poll. The cron writes the other (`Chaintracks.PollState`): when the
couriers were last asked, and for how many ticks in a row the store was behind. A tick polls
where the stream is down, where it has been behind for more than one tick, or where neither
a push nor a poll has been heard for the quiet interval (`Chaintracks.pollDue`).

There is one slot for the hint and one stamp for the last poll. The slot keeps the last
height and not the highest, and the stamp is written when a pass ends and not when it asks.
A hint therefore lasts as long as no later push is turned away at a height the stream has
already served, and no pass that ran before it reports after it
(`Chaintracks.PushHub.hint_kept`); either of these spends it unserved
(`Chaintracks.hint_spent`).
-/

namespace Chaintracks

/-! ### The door's answers -/

/-- `push::Announced::outcome`. -/
inductive DoorOutcome
  | known
  | busy
  | active
  | activated
  | storedInactive
  deriving DecidableEq

/-- What the door answers for one push: an announcement with the served tip after it, a
refusal, or a fault of the store. -/
inductive DoorAnswer
  | announced (outcome : DoorOutcome) (tipHeight : Nat) (tipHash : String)
  | refused (error : String)
  | store (error : String)

/-- The marks of a refusal that judged nothing of the header. -/
def unjudgedMarks : List String :=
  [": " ++ (HeaderFault.ancestryMissing 0).reason ++ ": ", "stands on no stored row within",
    "of a pushed header could not be had"]

/-- `push::unjudged`: the header's ancestry could not be had. -/
def DoorAnswer.unjudged : DoorAnswer → Bool
  | refused error => unjudgedMarks.any fun mark => decide (mark.toList <:+: error.toList)
  | _ => false

/-! ### The two records -/

/-- `StreamState`, the fields that its own functions and the poll rule read. -/
structure StreamState where
  lastTipHeight : Nat := 0
  lastTipHash : String := ""
  reading : Bool := false
  connectedAt : Nat := 0
  lastBeatAt : Nat := 0
  lastPushAt : Nat := 0
  dropsInRow : Nat := 0
  events : Nat := 0
  stored : Nat := 0
  known : Nat := 0
  refused : Nat := 0
  lastFault : Option String := none
  busy : Nat := 0
  hintHeight : Nat := 0
  hintAt : Nat := 0

namespace StreamState

variable (st : StreamState)

/-- `StreamState::live`. -/
def live (now heartbeatMs : Nat) : Bool := st.reading && decide (now - st.lastBeatAt ≤ heartbeatMs)

/-- `StreamState::ingested`. -/
def ingested (outcome : DoorOutcome) (now : Nat) : StreamState :=
  match outcome with
  | .known => { st with known := st.known + 1 }
  | .busy => { st with busy := st.busy + 1 }
  | .active | .activated => { st with stored := st.stored + 1, lastPushAt := now }
  | .storedInactive => { st with stored := st.stored + 1 }

/-- `StreamState::hint`. -/
def hint (height now : Nat) : StreamState := { st with hintHeight := height, hintAt := now }

end StreamState

/-- `PollState`. -/
structure PollState where
  lastPollAt : Nat := 0
  pollsRun : Nat := 0
  pollsSkipped : Nat := 0
  pollRequests : Nat := 0
  lastReason : Option String := none
  behindTicks : Nat := 0

namespace PollState

variable (poll : PollState)

/-- `PollState::woke`. -/
def woke (due : Option String) : PollState :=
  match due with
  | some why => { poll with pollsRun := poll.pollsRun + 1, lastReason := some why }
  | none => { poll with pollsSkipped := poll.pollsSkipped + 1 }

/-- `PollState::polled`. -/
def polled (requests : Nat) (ran : Bool) (now : Nat) : PollState :=
  { poll with
    pollRequests := poll.pollRequests + requests
    lastPollAt := if ran then now else poll.lastPollAt }

/-- `PollState::note_behind`; the count is a `u32` and saturates. -/
def noteBehind (behind : Bool) : PollState :=
  { poll with behindTicks := if behind then min (poll.behindTicks + 1) (2 ^ 32 - 1) else 0 }

/-- The hint stands: later than the last poll, above the tip last served. -/
def hinted (st : StreamState) : Bool :=
  decide (poll.lastPollAt < st.hintAt) && decide (st.lastTipHeight < st.hintHeight)

/-- `PollState::note_behind_or_hinted`. -/
def noteBehindOrHinted (behind : Bool) (st : StreamState) : PollState :=
  poll.noteBehind (behind || poll.hinted st)

end PollState

/-- The two intervals, in milliseconds. -/
structure StreamConfig where
  heartbeatMs : Nat
  quietMs : Nat

/-- `poll_due`. -/
def pollDue (st : StreamState) (poll : PollState) (now : Nat) (cfg : StreamConfig) : Option String :=
  if !st.live now cfg.heartbeatMs then some "the stream is down"
  else if 1 < poll.behindTicks then
    some "the store sat behind the seen tip for more than one tick"
  else if cfg.quietMs ≤ now - max st.lastPushAt poll.lastPollAt then
    some "the push was quiet for the interval"
  else none

/-! ### One push -/

/-- `BUSY_TRIES`. -/
def busyTries : Nat := 15

/-- The line of a push dropped. -/
def droppedLine (who hash : String) (height asks : Nat) : String :=
  who ++ ": DROPPED the push of " ++ hash ++ " at " ++ toString height ++
    ": the writer lease stayed held through " ++ toString asks ++
    " asks 2000 ms apart; the poll covers it"

/-- `through_the_lease`: the door is asked again while it is busy; a push dropped, or
refused unjudged, leaves its height as the hint. -/
def throughTheLease (who hash : String) (height : Nat) (answer : Nat → DoorAnswer) (now : Nat) :
    Nat → Nat → StreamState → StreamState × DoorAnswer
  | tries, asked, st =>
    match answer asked with
    | .announced .busy tipHeight tipHash =>
      let st := if asked = 0 then st.ingested .busy now else st
      match tries with
      | tries + 1 => throughTheLease who hash height answer now tries (asked + 1) st
      | 0 =>
        (({ st with lastFault := some (droppedLine who hash height (asked + 1)) }).hint height now,
          .announced .busy tipHeight tipHash)
    | other => (if other.unjudged then st.hint height now else st, other)

/-- `TipStream::tip`: one tip event through the door, by what the door answers each ask. -/
def tipEvent (hash : String) (height : Nat) (answer : Nat → DoorAnswer) (now : Nat)
    (st : StreamState) : StreamState :=
  match throughTheLease "tip stream" hash height answer now busyTries 0
    { st with events := st.events + 1 } with
  | (st, .announced outcome tipHeight tipHash) =>
    let st := { st with dropsInRow := 0, lastTipHeight := tipHeight, lastTipHash := tipHash }
    if outcome = .busy then st else st.ingested outcome now
  | (st, .refused error) => { st with refused := st.refused + 1, lastFault := some error }
  | (st, .store error) => { st with lastFault := some ("store: " ++ error) }

/-- The answer of a push that does not land: still busy, or an unjudged refusal. -/
def DoorAnswer.lost : DoorAnswer → Bool
  | announced outcome _ _ => decide (outcome = .busy)
  | other => other.unjudged

/-- The push does not land, by the door's last answer to it. -/
def notLanded (hash : String) (height : Nat) (answer : Nat → DoorAnswer) (now : Nat)
    (st : StreamState) : Bool :=
  (throughTheLease "tip stream" hash height answer now busyTries 0
    { st with events := st.events + 1 }).2.lost

/-! ### The object, the cron and its passes -/

/-- Where a poll pass stands. -/
inductive PassStage
  /-- The tick has asked to poll; the pass does not hold the lease yet. -/
  | started
  /-- It asks the couriers. -/
  | asking
  | reported
  deriving DecidableEq

/-- The object's two records, its clock in milliseconds, and the passes the cron has
started, by number. -/
structure PushHub where
  stream : StreamState := {}
  poll : PollState := {}
  now : Nat := 0
  passes : List PassStage := []

/-- What happens at the object. -/
inductive HubEvent
  | wait (ms : Nat)
  /-- A session begins to read. -/
  | connect
  /-- A byte from the peer. -/
  | beat
  /-- The session ends: its budget is spent, or it is dropped. -/
  | disconnect (dropped : Bool)
  | push (hash : String) (height : Nat) (answer : Nat → DoorAnswer)
  /-- `/wake`: a cron tick, with whether the store is behind. -/
  | wake (behind : Bool)
  /-- A pass takes the lease and goes on to ask the couriers. -/
  | lease (pass : Nat)
  /-- `/polled`: a pass reports, turned away where it never took the lease; `ok` is false
  where it ended in a fault. -/
  | polled (pass requests : Nat) (ok : Bool)

namespace PushHub

variable (cfg : StreamConfig) (s : PushHub)

/-- The answer of `poll_due` to a tick. -/
def due (behind : Bool) : Option String :=
  pollDue s.stream (s.poll.noteBehindOrHinted behind s.stream) s.now cfg

/-- One event. -/
def step : HubEvent → PushHub
  | .wait ms => { s with now := s.now + ms }
  | .connect =>
    { s with stream := { s.stream with connectedAt := s.now, lastBeatAt := s.now, reading := true } }
  | .beat => { s with stream := { s.stream with lastBeatAt := s.now } }
  | .disconnect dropped =>
    { s with
      stream :=
        { s.stream with
          reading := false
          dropsInRow := if dropped then s.stream.dropsInRow + 1 else s.stream.dropsInRow } }
  | .push hash height answer => { s with stream := tipEvent hash height answer s.now s.stream }
  | .wake behind =>
    { s with
      poll := (s.poll.noteBehindOrHinted behind s.stream).woke (s.due cfg behind)
      passes := if (s.due cfg behind).isSome then s.passes ++ [.started] else s.passes }
  | .lease pass =>
    if s.passes[pass]? = some .started then { s with passes := s.passes.set pass .asking } else s
  | .polled pass requests ok =>
    match s.passes[pass]? with
    | some .started =>
      { s with poll := s.poll.polled requests false s.now, passes := s.passes.set pass .reported }
    | some .asking =>
      { s with poll := s.poll.polled requests ok s.now, passes := s.passes.set pass .reported }
    | _ => s

/-- A run of events. -/
def run (events : List HubEvent) : PushHub := events.foldl (step cfg) s

@[simp] theorem run_nil : s.run cfg [] = s := rfl

theorem run_append (events events' : List HubEvent) :
    s.run cfg (events ++ events') = (s.run cfg events).run cfg events' := List.foldl_append

theorem run_concat (events : List HubEvent) (e : HubEvent) :
    s.run cfg (events ++ [e]) = (s.run cfg events).step cfg e := by
  rw [run_append]
  rfl

end PushHub

/-! ### What a push leaves -/

section Push

variable {who hash : String} {height now : Nat} {answer : Nat → DoorAnswer} {st : StreamState}

variable (who hash height now answer) in
/-- The hint after the door's asks: the push's, where its last answer is busy or unjudged. -/
theorem throughTheLease_hint (tries asked : Nat) (st : StreamState) :
    ((throughTheLease who hash height answer now tries asked st).1.hintHeight,
        (throughTheLease who hash height answer now tries asked st).1.hintAt) =
      if (throughTheLease who hash height answer now tries asked st).2.lost then (height, now)
      else (st.hintHeight, st.hintAt) := by
  induction tries generalizing asked st with
  | zero =>
    unfold throughTheLease
    cases answer asked with
    | announced outcome tipHeight tipHash => cases outcome <;> rfl
    | refused error =>
      by_cases hu : (DoorAnswer.refused error).unjudged = true <;>
        simp [DoorAnswer.lost, StreamState.hint, hu]
    | store error => rfl
  | succ tries ih =>
    unfold throughTheLease
    cases answer asked with
    | announced outcome tipHeight tipHash =>
      cases outcome with
      | busy =>
        -- asked again: what the first ask counts is not the hint
        dsimp only
        refine (ih (asked + 1) _).trans ?_
        split <;> split <;> rfl
      | _ => rfl
    | refused error =>
      by_cases hu : (DoorAnswer.refused error).unjudged = true <;>
        simp [DoorAnswer.lost, StreamState.hint, hu]
    | store error => rfl

variable (hash height answer now st) in
/-- **The hint after a push**: its own, where it does not land; else the one before. -/
theorem tipEvent_hint : ((tipEvent hash height answer now st).hintHeight,
      (tipEvent hash height answer now st).hintAt) =
    if notLanded hash height answer now st then (height, now) else (st.hintHeight, st.hintAt) := by
  have h := throughTheLease_hint "tip stream" hash height now answer busyTries 0
    { st with events := st.events + 1 }
  unfold tipEvent notLanded
  revert h
  generalize throughTheLease "tip stream" hash height answer now busyTries 0
    { st with events := st.events + 1 } = out
  obtain ⟨st', last⟩ := out
  intro h
  rw [← h]
  cases last with
  | announced outcome tipHeight tipHash => cases outcome <;> rfl
  | refused | store => rfl

end Push

/-! ### The hint while it stands -/

section Kept

variable {cfg : StreamConfig} {s s' : PushHub} {since first : Nat} {e : HubEvent}

/-- **What stands from a push on**: its hint, or a later one's, is later than the last poll,
and no pass that the cron has started since holds the lease. -/
structure PushHub.Standing (since first : Nat) (s : PushHub) : Prop where
  stamp : s.poll.lastPollAt < since
  hintAt : since ≤ s.stream.hintAt
  now : since ≤ s.now
  passes : first ≤ s.passes.length
  asking : ∀ i, first ≤ i → s.passes[i]? ≠ some .asking

/-- An event that lets it stand: no later pass takes the lease, no earlier one reports. -/
def HubEvent.Harmless (first : Nat) : HubEvent → Prop
  | lease pass => pass < first
  | polled pass _ ok => ok = true → first ≤ pass
  | _ => True

theorem PushHub.Standing.push (h : s.Standing since first) {hash : String} {height : Nat}
    {answer : Nat → DoorAnswer} :
    (s.step cfg (.push hash height answer)).Standing since first := by
  refine ⟨h.stamp, ?_, h.now, h.passes, h.asking⟩
  have hhint := congrArg Prod.snd (tipEvent_hint hash height s.now answer s.stream)
  change since ≤ (tipEvent hash height answer s.now s.stream).hintAt
  dsimp only at hhint
  rw [hhint]
  split
  · exact h.now
  · exact h.hintAt

theorem set_asking {passes : List PassStage} {i j : Nat} {stage : PassStage}
    (hne : stage = .asking → i ≠ j) (h : passes[j]? ≠ some .asking) :
    (passes.set i stage)[j]? ≠ some .asking := by
  rw [List.getElem?_set]
  split
  · rename_i heq
    split
    · intro hs
      exact hne (Option.some_inj.mp hs) heq
    · exact nofun
  · exact h

/-- **One event lets the hint stand**, where it is harmless. -/
theorem PushHub.Standing.step (h : s.Standing since first) (he : e.Harmless first) :
    (s.step cfg e).Standing since first := by
  cases e with
  | wait ms => exact ⟨h.stamp, h.hintAt, Nat.le_add_right_of_le h.now, h.passes, h.asking⟩
  | connect | beat | disconnect => exact ⟨h.stamp, h.hintAt, h.now, h.passes, h.asking⟩
  | push hash height answer => exact h.push
  | wake behind =>
    refine ⟨?_, h.hintAt, h.now, ?_, fun i hi => ?_⟩
    · change ((s.poll.noteBehindOrHinted behind s.stream).woke _).lastPollAt < since
      unfold PollState.woke
      split <;> exact h.stamp
    · dsimp only [PushHub.step]
      split
      · rw [List.length_append]
        exact Nat.le_add_right_of_le h.passes
      · exact h.passes
    · dsimp only [PushHub.step]
      split
      · rw [List.getElem?_append]
        split
        · exact h.asking i hi
        · intro hs
          have := List.mem_singleton.mp (List.mem_of_getElem? hs)
          cases this
      · exact h.asking i hi
  | lease pass =>
    dsimp only [PushHub.step]
    split
    · refine ⟨h.stamp, h.hintAt, h.now, by rw [List.length_set]; exact h.passes, fun i hi => ?_⟩
      exact set_asking (fun _ => Nat.ne_of_lt (Nat.lt_of_lt_of_le he hi)) (h.asking i hi)
    · exact h
  | polled pass requests ok =>
    dsimp only [PushHub.step]
    split
    · exact ⟨h.stamp, h.hintAt, h.now, by rw [List.length_set]; exact h.passes, fun i hi =>
        set_asking nofun (h.asking i hi)⟩
    · rename_i hasking
      -- a pass that reports having asked was running before
      refine ⟨?_, h.hintAt, h.now, by rw [List.length_set]; exact h.passes, fun i hi =>
        set_asking nofun (h.asking i hi)⟩
      cases ok with
      | false => exact h.stamp
      | true => exact absurd hasking (h.asking pass (he rfl))
    · exact h

theorem PushHub.Standing.run {events : List HubEvent} (h : s.Standing since first)
    (he : ∀ e ∈ events, e.Harmless first) : (s.run cfg events).Standing since first := by
  induction events generalizing s with
  | nil => exact h
  | cons e events ih =>
    exact ih (h.step (he e List.mem_cons_self)) fun e' he' => he e' (List.mem_cons_of_mem _ he')

/-- **Every later push that does not land names a height the stream does not serve**, up to
the end of the events. -/
def HintsAbove (cfg : StreamConfig) (s : PushHub) (events : List HubEvent) : Prop :=
  ∀ a hash height answer b, a ++ .push hash height answer :: b <+: events →
    notLanded hash height answer (s.run cfg a).now (s.run cfg a).stream = true →
    (s.run cfg (a ++ .push hash height answer :: b)).stream.lastTipHeight < height

variable (cfg) in
/-- Only a push moves the hint. -/
theorem PushHub.step_hintHeight (s : PushHub) (e : HubEvent) :
    (s.step cfg e).stream.hintHeight = s.stream.hintHeight ∨
      ∃ hash height answer, e = .push hash height answer ∧
        notLanded hash height answer s.now s.stream = true ∧
        (s.step cfg e).stream.hintHeight = height := by
  cases e with
  | push hash height answer =>
    have hhint := congrArg Prod.fst (tipEvent_hint hash height s.now answer s.stream)
    dsimp only at hhint
    by_cases hlost : notLanded hash height answer s.now s.stream = true
    · rw [if_pos hlost] at hhint
      exact .inr ⟨hash, height, answer, rfl, hlost, hhint⟩
    · rw [if_neg hlost] at hhint
      exact .inl hhint
  | lease | polled =>
    left
    dsimp only [PushHub.step]
    split <;> rfl
  | _ => exact .inl rfl

/-- The height in the slot is the push's, or a later push's that did not land. -/
theorem slot_above {height : Nat} {events : List HubEvent} (hslot : s.stream.hintHeight = height)
    (hserved : ∀ a, a <+: events → (s.run cfg a).stream.lastTipHeight < height)
    (hlater : HintsAbove cfg s events) {a : List HubEvent} (ha : a <+: events) :
    (s.run cfg a).stream.lastTipHeight < (s.run cfg a).stream.hintHeight := by
  suffices hwho : (s.run cfg a).stream.hintHeight = height ∨
      ∃ b hash height' answer c, a = b ++ .push hash height' answer :: c ∧
        notLanded hash height' answer (s.run cfg b).now (s.run cfg b).stream = true ∧
        (s.run cfg a).stream.hintHeight = height' by
    rcases hwho with hwho | ⟨b, hash, height', answer, c, rfl, hlost, hwho⟩
    · rw [hwho]
      exact hserved a ha
    · rw [hwho]
      exact hlater b hash height' answer c ha hlost
  clear hserved hlater ha
  induction a using List.reverseRecOn with
  | nil => exact .inl hslot
  | append_singleton a e ih =>
    rw [PushHub.run_concat]
    rcases PushHub.step_hintHeight cfg (s.run cfg a) e with hsame |
      ⟨hash, height', answer, rfl, hlost, hnew⟩
    · rw [hsame]
      refine ih.imp_right ?_
      rintro ⟨b, hash, height', answer, c, rfl, hlost, hh⟩
      exact ⟨b, hash, height', answer, c ++ [e], by rw [List.append_assoc, List.cons_append],
        hlost, hh⟩
    · exact .inr ⟨a, hash, height', answer, [], rfl, hlost, hnew⟩

/-- A tick that finds the hint standing counts. -/
theorem behindTicks_hinted {poll : PollState} {st : StreamState} {behind : Bool}
    (h : poll.hinted st = true) : (poll.noteBehindOrHinted behind st).behindTicks =
      min (poll.behindTicks + 1) (2 ^ 32 - 1) := by
  unfold PollState.noteBehindOrHinted PollState.noteBehind
  rw [h, Bool.or_true]
  rfl

/-- Only a tick moves the count. -/
theorem PushHub.step_behindTicks (h : ∀ behind, e ≠ .wake behind) :
    (s.step cfg e).poll.behindTicks = s.poll.behindTicks := by
  cases e with
  | wake behind => exact absurd rfl (h behind)
  | lease | polled =>
    dsimp only [PushHub.step]
    split <;> rfl
  | _ => rfl

theorem PollState.woke_behindTicks (poll : PollState) (due : Option String) :
    (poll.woke due).behindTicks = poll.behindTicks := by
  cases due <;> rfl

/-- **A hint that stands is counted** by the first tick after it, and the count stays. -/
theorem counted {events : List HubEvent}
    (hinted : ∀ a, a <+: events → (s.run cfg a).poll.hinted (s.run cfg a).stream = true)
    {behind : Bool} (hwake : .wake behind ∈ events) : 1 ≤ (s.run cfg events).poll.behindTicks := by
  induction events using List.reverseRecOn with
  | nil => cases hwake
  | append_singleton events e ih =>
    rw [PushHub.run_concat]
    by_cases he : ∃ behind', e = .wake behind'
    · obtain ⟨behind', rfl⟩ := he
      change 1 ≤ (((s.run cfg events).poll.noteBehindOrHinted behind' _).woke _).behindTicks
      rw [PollState.woke_behindTicks,
        behindTicks_hinted (hinted events (List.prefix_append _ _))]
      omega
    · rw [PushHub.step_behindTicks fun behind' heq => he ⟨behind', heq⟩]
      refine ih (fun a ha => hinted a (ha.trans (List.prefix_append _ _))) ?_
      refine (List.mem_append.mp hwake).resolve_right fun hm => he ⟨behind, ?_⟩
      exact (List.mem_singleton.mp hm).symm

end Kept

/-! ### The runs -/

section Runs

variable {cfg : StreamConfig} {before after : List HubEvent} {hash : String} {height : Nat}
  {answer : Nat → DoorAnswer}

/-- **A push that does not land and is not served**: from it on the served tip stays below
its height, and no pass that starts takes the lease. -/
structure Unserved (cfg : StreamConfig) (before : List HubEvent) (hash : String) (height : Nat)
    (answer : Nat → DoorAnswer) (after : List HubEvent) : Prop where
  lost : notLanded hash height answer (PushHub.run cfg {} before).now
    (PushHub.run cfg {} before).stream = true
  served : ∀ a, a <+: after →
    (PushHub.run cfg {} (before ++ .push hash height answer :: a)).stream.lastTipHeight < height
  passes : ∀ pass, .lease pass ∈ after → pass < (PushHub.run cfg {} before).passes.length

/-- **A push hint is kept.** After a push that did not land and was not served, every tick
from the second on has a poll due – where no pass had reported at that very millisecond, no
pass running at it reports after it, and every later push that does not land names a height
above the tips served after it. -/
theorem PushHub.hint_kept (h : Unserved cfg before hash height answer after)
    (hstamp : (PushHub.run cfg {} before).poll.lastPollAt < (PushHub.run cfg {} before).now)
    (hrunning : ∀ pass requests, .polled pass requests true ∈ after →
      (PushHub.run cfg {} before).passes.length ≤ pass)
    (hlater : HintsAbove cfg (PushHub.run cfg {} (before ++ [.push hash height answer])) after)
    {behind : Bool} (htick : .wake behind ∈ after) (behind' : Bool) :
    (PushHub.run cfg {} (before ++ .push hash height answer :: after)).due cfg behind' ≠ none := by
  obtain ⟨hlost, hserved, hpasses⟩ := h
  have hsplit : ∀ a, PushHub.run cfg {} (before ++ .push hash height answer :: a) =
      ((PushHub.run cfg {} before).step cfg (.push hash height answer)).run cfg a :=
    fun a => PushHub.run_append ..
  rw [PushHub.run_concat] at hlater
  rw [hsplit]
  generalize PushHub.run cfg {} before = s at *
  have hhint := tipEvent_hint hash height s.now answer s.stream
  rw [if_pos hlost, Prod.mk.injEq] at hhint
  -- the push's hint stands when it is made, and every event after it is harmless
  have hstanding : (s.step cfg (.push hash height answer)).Standing s.now s.passes.length := by
    refine ⟨hstamp, hhint.2.ge, le_rfl, le_rfl, fun i hi => ?_⟩
    change s.passes[i]? ≠ _
    rw [List.getElem?_eq_none hi]
    exact nofun
  have hharmless : ∀ e ∈ after, e.Harmless s.passes.length := by
    intro e he
    cases e with
    | lease pass => exact hpasses pass he
    | polled pass requests ok =>
      intro hok
      exact hrunning pass requests (hok ▸ he)
    | _ => trivial
  have hinted : ∀ a, a <+: after →
      (((s.step cfg (.push hash height answer)).run cfg a).poll.hinted
        ((s.step cfg (.push hash height answer)).run cfg a).stream) = true := by
    intro a ha
    have hs : ((s.step cfg (.push hash height answer)).run cfg a).Standing s.now s.passes.length :=
      hstanding.run fun e he => hharmless e (ha.subset he)
    rw [PollState.hinted, Bool.and_eq_true, decide_eq_true_iff, decide_eq_true_iff]
    refine ⟨hs.stamp.trans_le hs.hintAt, slot_above hhint.1 (fun b hb => ?_) hlater ha⟩
    rw [← hsplit]
    exact hserved b hb
  have hcount := counted hinted htick
  have hnow := hinted after (List.prefix_refl _)
  generalize (s.step cfg (.push hash height answer)).run cfg after = s' at *
  unfold PushHub.due pollDue
  rw [behindTicks_hinted hnow]
  split
  · exact nofun
  · rw [if_pos (by omega)]
    exact nofun

/-- The intervals as the deploy has them. -/
def defaultConfig : StreamConfig := ⟨45000, 600000⟩

/-- A busy door, which still serves a tip at 3. -/
def busyAt3 : Nat → DoorAnswer := fun _ => .announced .busy 3 "tip"

/-- A quiet stream over which a poll pass starts and asks. -/
def asking : List HubEvent := [.wait 700000, .connect, .wake false, .lease 0, .wait 1000]

/-- The pass reports, and then a push is turned away. -/
theorem unserved_reported : Unserved defaultConfig (asking ++ [.polled 0 4 true, .wait 1000]) "b5" 5
    busyAt3 [.beat, .wake false, .wait 1000] where
  lost := by decide +kernel
  served a ha := by
    have hall : ∀ a ∈ [HubEvent.beat, .wake false, .wait 1000].inits, (PushHub.run defaultConfig {}
        (asking ++ [.polled 0 4 true, .wait 1000] ++ .push "b5" 5 busyAt3 :: a)).stream.lastTipHeight <
          5 := by
      decide +kernel
    exact hall a ((List.mem_inits _ _).mpr ha)
  passes pass hm := by simp at hm

/-- The second tick after the push polls. -/
theorem hint_kept_reported :
    (PushHub.run defaultConfig {} (asking ++ [.polled 0 4 true, .wait 1000] ++
      .push "b5" 5 busyAt3 :: [.beat, .wake false, .wait 1000])).due defaultConfig false ≠ none := by
  refine PushHub.hint_kept unserved_reported (by decide +kernel) (fun pass requests hm => ?_) ?_
    (List.mem_cons_of_mem _ List.mem_cons_self) false
  · simp at hm
  · intro a hash height answer b hprefix
    have hm := hprefix.subset (List.mem_append_right a List.mem_cons_self)
    simp at hm

/-- **What spends a hint unserved.** A pass that was running when the push did not land
reports after it; or a later push is turned away at a height already served. No pass asked
the couriers after the push, and the second tick after it does not poll. -/
theorem hint_spent :
    (Unserved defaultConfig asking "b5" 5 busyAt3 [.wait 1000, .polled 0 4 true, .wake false, .wait 1000] ∧
      (PushHub.run defaultConfig {} (asking ++ .push "b5" 5 busyAt3 ::
        [.wait 1000, .polled 0 4 true, .wake false, .wait 1000])).due defaultConfig false = none) ∧
    (Unserved defaultConfig (asking ++ [.polled 0 4 true, .wait 1000]) "b5" 5 busyAt3
        [.push "a3" 3 busyAt3, .wake false, .wait 1000] ∧
      (PushHub.run defaultConfig {} (asking ++ [.polled 0 4 true, .wait 1000] ++
        .push "b5" 5 busyAt3 :: [.push "a3" 3 busyAt3, .wake false, .wait 1000])).due defaultConfig
          false = none) := by
  refine ⟨⟨⟨by decide +kernel, fun a ha => ?_, fun pass hm => by simp at hm⟩, by decide +kernel⟩,
    ⟨⟨by decide +kernel, fun a ha => ?_, fun pass hm => by simp at hm⟩, by decide +kernel⟩⟩
  · have hall : ∀ a ∈ [HubEvent.wait 1000, .polled 0 4 true, .wake false, .wait 1000].inits,
        (PushHub.run defaultConfig {} (asking ++ .push "b5" 5 busyAt3 :: a)).stream.lastTipHeight <
          5 := by
      decide +kernel
    exact hall a ((List.mem_inits _ _).mpr ha)
  · have hall : ∀ a ∈ [HubEvent.push "a3" 3 busyAt3, .wake false, .wait 1000].inits,
        (PushHub.run defaultConfig {} (asking ++ [.polled 0 4 true, .wait 1000] ++
          .push "b5" 5 busyAt3 :: a)).stream.lastTipHeight < 5 := by
      decide +kernel
    exact hall a ((List.mem_inits _ _).mpr ha)

end Runs

end Chaintracks

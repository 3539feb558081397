import Chaintracks.Webhooks
import Chaintracks.Clock
import Chaintracks.Library.Agents

/-!
# The tip announce

Any isolate that moved the tip runs a round of `notify_tip`: it reads the tip, the claim
and what each target has, claims the tip or claims it again, reads the fork of a pending
reorg, posts to the targets still owed, and only then writes what came of it: a record
for each target that accepted, the fork's marker cleared when every target has heard it,
and the run of failures. Three rows are shared, each written by its own statement, and
the posts between the statements are slow.

A round is an agent over the database (`Chaintracks.Round`), with one step for each
statement and for each post. The reorgs, the successive tips, the configuration and the
clock move on their own (`Chaintracks.AnnounceStep`). What the targets accepted, and the
reorgs among it, is kept as a log, newest first.
-/

namespace Chaintracks

/-! ### The shared state -/

/-- A tip, by height and hash. -/
structure TipKey where
  height : Nat
  hash : String
  deriving DecidableEq

/-- `tip.hash.trim().to_ascii_lowercase()`. -/
def announcedHash (hash : String) : String := String.ofList ((trim hash.toList).map Char.toLower)

/-- The tip as a round reads it. -/
def TipKey.announced (tip : TipKey) : TipKey := ⟨tip.height, announcedHash tip.hash⟩

/-- The body of a tip webhook. -/
structure TipBody where
  tip : TipKey
  reorgFrom : Option Nat
  deriving DecidableEq

/-- `tip_webhook_body`. -/
def TipBody.text (body : TipBody) : String :=
  "\x7b\"height\":" ++ toString body.tip.height ++ ",\"hash\":\"" ++ announcedHash body.tip.hash ++
    match body.reorgFrom with
    | some v => "\",\"reorgFrom\":" ++ toString v ++ "\x7d"
    | none => "\"\x7d"

/-- `Delivery`: the tip a target accepted last, and the fork it has been told about. -/
structure DeliveryRecord where
  tip : TipKey
  reorgFrom : Option Nat
  deriving DecidableEq

/-- What the log keeps. -/
inductive AnnounceEvent
  /-- A reorg was recorded at its lowest changed height. -/
  | reorg (height : Nat)
  /-- A target answered a body with a 2xx. -/
  | accepted (target : WebhookTarget) (body : TipBody)
  deriving DecidableEq

/-- The claim: the tip announced last and when it was claimed. -/
structure TipClaim where
  height : Nat
  hash : Option String
  claimedAt : Option Instant
  deriving DecidableEq

/-- The shared state: the tip, the claim, the records by URL, the marker, the run of
failures, the clock, the configuration, the posts handed over and the log. -/
structure AnnounceDb where
  tip : Option TipKey
  claim : TipClaim
  deliveries : String → Option DeliveryRecord
  pendingReorg : Option Nat
  failures : Nat
  stuck : Nat
  clock : Instant
  targets : List WebhookTarget
  token : String
  posted : List (WebhookTarget × TipBody)
  log : List AnnounceEvent

/-- Before any tip, with a configuration. -/
def AnnounceDb.fresh (targets : List WebhookTarget) (token : String) : AnnounceDb where
  tip := none
  claim := ⟨0, none, none⟩
  deliveries := fun _ => none
  pendingReorg := none
  failures := 0
  stuck := 0
  clock := .epoch
  targets := targets
  token := token
  posted := []
  log := []

/-! ### The statements -/

/-- `CLAIM_IN_FLIGHT_S`. -/
def claimInFlight : Nat := 45

/-- `ANNOUNCE_STUCK_AFTER`. -/
def announceStuckAfter : Nat := 5

/-- `tip_is_unannounced`, and the `WHERE` of `TIP_ANNOUNCE_SQL`. -/
def TipClaim.unannounced (claim : TipClaim) (tip : TipKey) : Bool :=
  claim.height < tip.height || (claim.height == tip.height && claim.hash != some tip.hash)

/-- The claim is of this tip. -/
def TipClaim.isTip (claim : TipClaim) (tip : TipKey) : Bool :=
  claim.height == tip.height && claim.hash == some tip.hash

/-- The age condition of `RECLAIM_ANNOUNCE_SQL`. -/
def TipClaim.aged (claim : TipClaim) (now : Instant) : Bool :=
  match claim.claimedAt with
  | none => true
  | some since => decide ((claimInFlight : ℚ) ≤ elapsedSeconds now since)

/-- `TIP_ANNOUNCE_SQL`: whether it changed the row, and the row. -/
def AnnounceDb.announce (s : AnnounceDb) (tip : TipKey) : Option AnnounceDb :=
  if s.claim.unannounced tip then
    some { s with claim := ⟨tip.height, some tip.hash, some s.clock.datetime⟩ }
  else none

/-- `RECLAIM_ANNOUNCE_SQL`: whether it changed the row, and the row. -/
def AnnounceDb.reclaim (s : AnnounceDb) (tip : TipKey) : Option AnnounceDb :=
  if s.claim.isTip tip && s.claim.aged s.clock then
    some { s with claim := { s.claim with claimedAt := some s.clock.datetime } }
  else none

/-- `RECORD_DELIVERY_SQL`: nothing where the claim is of another tip; a body without a
fork keeps the fork heard before. -/
def AnnounceDb.recordDelivery (s : AnnounceDb) (tip : TipKey) (url : String)
    (carried : Option Nat) : AnnounceDb :=
  if s.claim.isTip tip then
    { s with
      deliveries := Function.update s.deliveries url
        (some ⟨tip, carried.or ((s.deliveries url).bind (·.reorgFrom))⟩) }
  else s

/-- `CLEAR_PENDING_REORG_SQL`: only the value carried. -/
def AnnounceDb.clearPending (s : AnnounceDb) (carried : Nat) : AnnounceDb :=
  if s.pendingReorg = some carried then { s with pendingReorg := none } else s

/-- The bearer the posts go with; an empty one is none. -/
def AnnounceDb.bearer (s : AnnounceDb) : String := String.ofList (trim s.token.toList)

/-- `RECORD_PENDING_REORG_SQL`: the lower of the two. -/
def lowerReorg (pending : Option Nat) (height : Nat) : Nat :=
  match pending with
  | some m => min m height
  | none => height

/-- The writes on the run of failures. -/
def AnnounceDb.countFailures (s : AnnounceDb) (failuresRead failed : Nat) : AnnounceDb :=
  if failed = 0 then { s with failures := 0 }
  else
    { s with
      failures := failuresRead + 1
      stuck := if (failuresRead + 1) % announceStuckAfter = 0 then s.stuck + 1 else s.stuck }

/-! ### The rounds -/

/-- What a round has read when it claims: the tip, the claim with the run of failures, the
records, and the targets. -/
structure RoundRead where
  tip : TipKey
  announced : TipClaim
  failures : Nat
  delivered : String → Option DeliveryRecord
  targets : List WebhookTarget

/-- The targets a round owes the tip. -/
def RoundRead.owed (r : RoundRead) : List WebhookTarget :=
  r.targets.filter fun t => (r.delivered t.url).map (·.tip) != some r.tip

/-- The fork a target had heard when the round read. -/
def RoundRead.heardBefore (r : RoundRead) (url : String) : Option Nat :=
  (r.delivered url).bind (·.reorgFrom)

/-- The owed targets, each with the fork its body carries: none it has heard before. -/
def RoundRead.todo (r : RoundRead) (marker : Option Nat) : List (WebhookTarget × Option Nat) :=
  r.owed.map fun t => (t, marker.filter fun v => r.heardBefore t.url != some v)

/-- The claim statement of a round, where one runs and changes the row. -/
def RoundRead.claimIn (r : RoundRead) (s : AnnounceDb) : Option AnnounceDb :=
  if r.announced.unannounced r.tip then s.announce r.tip
  else if r.announced.isTip r.tip && !r.owed.isEmpty then s.reclaim r.tip
  else none

/-- What a round keeps from its claim on: its reads, the marker, the targets that accepted
with what each body carried, the failures, and the posts it handed over. -/
structure RoundPosts where
  read : RoundRead
  marker : Option Nat
  accepted : List (String × Option Nat)
  failed : Nat
  sent : List (WebhookTarget × TipBody)

/-- The body for a target of a round. -/
def RoundPosts.body (p : RoundPosts) (carry : Option Nat) : TipBody := ⟨p.read.tip, carry⟩

/-- Every configured target has heard the fork, in this round or before it. -/
def RoundPosts.heardByAll (p : RoundPosts) (carried : Nat) : Bool :=
  p.read.targets.all fun t =>
    (p.accepted.find? (·.1 == t.url)).bind (·.2) == some carried ||
      p.read.heardBefore t.url == some carried

/-- Where a round stands. -/
inductive Round
  | idle
  | tipRead (tip : TipKey)
  | claimRead (tip : TipKey) (announced : TipClaim) (failures : Nat)
  /-- Before its claim. -/
  | ready (read : RoundRead)
  /-- It claimed the tip, and has not read the marker. -/
  | claimed (read : RoundRead)
  /-- Before the next post. -/
  | posting (posts : RoundPosts) (todo : List (WebhookTarget × Option Nat))
  /-- A post is under way; whether the target has answered it with a 2xx. -/
  | awaiting (posts : RoundPosts) (target : WebhookTarget) (carry : Option Nat) (answered : Bool)
      (todo : List (WebhookTarget × Option Nat))
  /-- Before the records. -/
  | recording (posts : RoundPosts)
  /-- Before the marker is cleared. -/
  | clearing (posts : RoundPosts)
  /-- Before the run of failures is written. -/
  | counting (posts : RoundPosts)
  /-- The round went through: the tip it read, the targets, and what it sent. -/
  | finished (read : RoundRead) (sent : List (WebhookTarget × TipBody))
  /-- Cut off. -/
  | gone

/-- **The steps of a round.** -/
inductive RoundStep : AnnounceDb → Round → AnnounceDb → Round → Prop
  /-- The read of the tip, also where the caller hands over one it read before. -/
  | readTip (s : AnnounceDb) (tip : TipKey) (h : s.tip = some tip) :
    RoundStep s .idle s (.tipRead tip.announced)
  | readClaim (s : AnnounceDb) (tip : TipKey) :
    RoundStep s (.tipRead tip) s (.claimRead tip s.claim s.failures)
  | readDeliveries (s : AnnounceDb) (tip announced failures) :
    RoundStep s (.claimRead tip announced failures) s
      (.ready ⟨tip, announced, failures, s.deliveries, s.targets⟩)
  | claim (s s' : AnnounceDb) (r : RoundRead) (h : r.claimIn s = some s') :
    RoundStep s (.ready r) s' (.claimed r)
  /-- Another isolate has the claim, or nothing is owed. -/
  | unclaimed (s : AnnounceDb) (r : RoundRead) (h : r.claimIn s = none) :
    RoundStep s (.ready r) s (.finished r [])
  | readMarker (s : AnnounceDb) (r : RoundRead) (marker : Option Nat)
    (h : marker = s.pendingReorg ∨ marker = none) (bearer : s.bearer ≠ "") :
    RoundStep s (.claimed r) s (.posting ⟨r, marker, [], 0, []⟩ (r.todo marker))
  /-- No bearer is configured: every owed target counts as failed. -/
  | noBearer (s : AnnounceDb) (r : RoundRead) (marker : Option Nat)
    (h : marker = s.pendingReorg ∨ marker = none) (bearer : s.bearer = "") :
    RoundStep s (.claimed r) s (.recording ⟨r, marker, [], r.owed.length, []⟩)
  | post (s : AnnounceDb) (p : RoundPosts) (target carry todo) :
    RoundStep s (.posting p ((target, carry) :: todo))
      { s with posted := (target, p.body carry) :: s.posted }
      (.awaiting { p with sent := p.sent ++ [(target, p.body carry)] } target carry false todo)
  /-- The target answers with a 2xx. -/
  | answer (s : AnnounceDb) (p : RoundPosts) (target carry todo) :
    RoundStep s (.awaiting p target carry false todo)
      { s with log := .accepted target (p.body carry) :: s.log } (.awaiting p target carry true todo)
  | accepted (s : AnnounceDb) (p : RoundPosts) (target carry todo) :
    RoundStep s (.awaiting p target carry true todo) s
      (.posting { p with accepted := p.accepted ++ [(target.url, carry)] } todo)
  /-- Refused, failed, or accepted with the answer lost. -/
  | refused (s : AnnounceDb) (p : RoundPosts) (target carry answered todo) :
    RoundStep s (.awaiting p target carry answered todo) s
      (.posting { p with failed := p.failed + 1 } todo)
  | posted (s : AnnounceDb) (p : RoundPosts) : RoundStep s (.posting p []) s (.recording p)
  | record (s : AnnounceDb) (p : RoundPosts) :
    RoundStep s (.recording p)
      (p.accepted.foldl (fun s a => s.recordDelivery p.read.tip a.1 a.2) s) (.clearing p)
  | clear (s : AnnounceDb) (p : RoundPosts) (carried : Nat) (h : p.marker = some carried)
    (heard : p.heardByAll carried = true) :
    RoundStep s (.clearing p) (s.clearPending carried) (.counting p)
  /-- Nothing to clear, or the write failed. -/
  | keep (s : AnnounceDb) (p : RoundPosts) : RoundStep s (.clearing p) s (.counting p)
  | count (s : AnnounceDb) (p : RoundPosts) :
    RoundStep s (.counting p) (s.countFailures p.read.failures p.failed)
      (.finished p.read p.sent)
  /-- A fault of the database, an eviction. -/
  | cut (s : AnnounceDb) (round : Round) : RoundStep s round s .gone

/-- What happens outside the rounds. -/
inductive AnnounceStep : AnnounceDb → AnnounceDb → Prop
  /-- A reorg commits, with its lowest changed height. -/
  | reorg (s : AnnounceDb) (height : Nat) :
    AnnounceStep s
      { s with
        pendingReorg := some (lowerReorg s.pendingReorg height)
        log := .reorg height :: s.log }
  | tip (s : AnnounceDb) (tip : TipKey) : AnnounceStep s { s with tip := some tip }
  | configure (s : AnnounceDb) (targets : List WebhookTarget) (token : String) :
    AnnounceStep s { s with targets, token }
  | tick (s : AnnounceDb) (now : Instant) (later : s.clock.ms ≤ now.ms) :
    AnnounceStep s { s with clock := now }
  /-- A target answers a post whose round does not wait for it any more. -/
  | late (s : AnnounceDb) (target : WebhookTarget) (body : TipBody) (h : (target, body) ∈ s.posted) :
    AnnounceStep s { s with log := .accepted target body :: s.log }

/-- Any number of rounds. -/
def AnnounceRuns : Agents.Config AnnounceDb Round → Agents.Config AnnounceDb Round → Prop :=
  Agents.Runs RoundStep AnnounceStep

/-- No round yet. -/
def AnnounceDb.init (targets : List WebhookTarget) (token : String) :
    Agents.Config AnnounceDb Round := ⟨.fresh targets token, fun _ => .idle⟩

/-! ### What the statements leave alone -/

/-- A claim writes the claim. -/
theorem claimIn_eq {r : RoundRead} {s s' : AnnounceDb} (h : r.claimIn s = some s') :
    s' = { s with claim := s'.claim } := by
  unfold RoundRead.claimIn AnnounceDb.announce AnnounceDb.reclaim at h
  split at h
  · split at h
    · cases h
      rfl
    · cases h
  · split at h
    · split at h
      · cases h
        rfl
      · cases h
    · cases h

/-- The run of failures is no more than itself. -/
theorem countFailures_eq (s : AnnounceDb) (failuresRead failed : Nat) :
    s.countFailures failuresRead failed =
      { s with
        failures := (s.countFailures failuresRead failed).failures
        stuck := (s.countFailures failuresRead failed).stuck } := by
  unfold AnnounceDb.countFailures
  split <;> rfl

/-- The records are no more than themselves. -/
theorem recordDelivery_eq (s : AnnounceDb) (tip : TipKey) (url : String) (carried : Option Nat) :
    s.recordDelivery tip url carried =
      { s with deliveries := (s.recordDelivery tip url carried).deliveries } := by
  unfold AnnounceDb.recordDelivery
  split <;> rfl

theorem recordAll_eq (tip : TipKey) (accepted : List (String × Option Nat)) (s : AnnounceDb) :
    accepted.foldl (fun s a => s.recordDelivery tip a.1 a.2) s =
      { s with
        deliveries :=
          (accepted.foldl (fun s a => s.recordDelivery tip a.1 a.2) s).deliveries } := by
  induction accepted generalizing s with
  | nil => rfl
  | cons a accepted ih =>
    rw [List.foldl_cons, ih (s.recordDelivery tip a.1 a.2), recordDelivery_eq]

theorem clearPending_eq (s : AnnounceDb) (carried : Nat) :
    s.clearPending carried =
      { s with pendingReorg := (s.clearPending carried).pendingReorg } := by
  unfold AnnounceDb.clearPending
  split <;> rfl

/-- **What a round leaves alone**: the targets, the bearer and the clock; it makes no
reorg, and takes no post back. -/
theorem roundStep_frame {s s' : AnnounceDb} {round round' : Round}
    (h : RoundStep s round s' round') :
    s'.targets = s.targets ∧ s'.token = s.token ∧ s'.clock = s.clock ∧
      (∀ v, s'.log ≠ .reorg v :: s.log) ∧
      ∀ p ∈ s.posted, p ∈ s'.posted := by
  have hsame : ∀ {s' : AnnounceDb}, s'.log = s.log → ∀ v, s'.log ≠ .reorg v :: s.log :=
    fun hlog v h => absurd (congrArg List.length (hlog.symm.trans h)) (by simp)
  cases h with
  | claim _ r h =>
    have hs' := claimIn_eq h
    exact ⟨hs' ▸ rfl, hs' ▸ rfl, hs' ▸ rfl, hsame (hs' ▸ rfl), fun p hp => hs' ▸ hp⟩
  | answer p target carry todo => exact ⟨rfl, rfl, rfl, nofun, fun _ hp => hp⟩
  | post p target carry todo =>
    exact ⟨rfl, rfl, rfl, hsame rfl, fun _ hp => List.mem_cons_of_mem _ hp⟩
  | record p =>
    have hs' := recordAll_eq p.read.tip p.accepted s
    exact ⟨hs' ▸ rfl, hs' ▸ rfl, hs' ▸ rfl, hsame (hs' ▸ rfl), fun _ hp => hs' ▸ hp⟩
  | clear p carried h heard =>
    have hs' := clearPending_eq s carried
    exact ⟨hs' ▸ rfl, hs' ▸ rfl, hs' ▸ rfl, hsame (hs' ▸ rfl), fun _ hp => hs' ▸ hp⟩
  | count p =>
    have hs' := countFailures_eq s p.read.failures p.failed
    exact ⟨hs' ▸ rfl, hs' ▸ rfl, hs' ▸ rfl, hsame (hs' ▸ rfl), fun _ hp => hs' ▸ hp⟩
  | readTip | readClaim | readDeliveries | unclaimed | readMarker | noBearer | accepted |
    refused | posted | keep | cut => exact ⟨rfl, rfl, rfl, hsame rfl, fun _ hp => hp⟩

theorem lowerReorg_le (pending : Option Nat) (v : Nat) : lowerReorg pending v ≤ v := by
  cases pending with
  | none => exact Nat.le_refl v
  | some m => exact Nat.min_le_right m v

theorem lowerReorg_le_of_some (m v : Nat) : lowerReorg (some m) v ≤ m := Nat.min_le_left m v

/-! ### A round that goes through -/

section Alone

variable {s : AnnounceDb} {tip : TipKey} {target : WebhookTarget}

/-- The fork a round alone carries to its one target. -/
def AnnounceDb.carry (s : AnnounceDb) (target : WebhookTarget) : Option Nat :=
  s.pendingReorg.filter fun v => ((s.deliveries target.url).bind (·.reorgFrom)) != some v

/-- The database after a round alone that announced a new tip to its one target. -/
def AnnounceDb.afterRound (s : AnnounceDb) (tip : TipKey) (target : WebhookTarget) : AnnounceDb :=
  { s with
    claim := ⟨tip.height, some tip.hash, some s.clock.datetime⟩
    deliveries := Function.update s.deliveries target.url
      (some ⟨tip, (s.carry target).or ((s.deliveries target.url).bind (·.reorgFrom))⟩)
    pendingReorg := none
    failures := 0
    posted := (target, ⟨tip, s.carry target⟩) :: s.posted
    log := .accepted target ⟨tip, s.carry target⟩ :: s.log }

/-- **A round alone announces a new tip** to its one target, which accepts it. -/
theorem round_alone (htip : s.tip = some tip) (htargets : s.targets = [target])
    (hbearer : s.bearer ≠ "") (hclaim : s.claim.unannounced tip.announced = true)
    (howed : (s.deliveries target.url).map (·.tip) ≠ some tip.announced) :
    Agents.Alone RoundStep (s, .idle)
      (s.afterRound tip.announced target,
        .finished ⟨tip.announced, s.claim, s.failures, s.deliveries, [target]⟩
          [(target, ⟨tip.announced, s.carry target⟩)]) := by
  let r : RoundRead := ⟨tip.announced, s.claim, s.failures, s.deliveries, [target]⟩
  let body : TipBody := ⟨tip.announced, s.carry target⟩
  let p : RoundPosts := ⟨r, s.pendingReorg, [(target.url, s.carry target)], 0, [(target, body)]⟩
  let claim' : TipClaim := ⟨tip.height, some tip.announced.hash, some s.clock.datetime⟩
  have hread : Agents.Alone RoundStep (s, .idle) (s, .ready r) := by
    have h₁ := (Agents.Alone.refl (s, Round.idle)).andThen (RoundStep.readTip s tip htip)
    have h₂ := h₁.andThen (RoundStep.readClaim s tip.announced)
    have h₃ := h₂.andThen (RoundStep.readDeliveries s tip.announced s.claim s.failures)
    rwa [htargets] at h₃
  have hposted : Agents.Alone RoundStep (s, .idle)
      ({ s with
          claim := claim', posted := (target, body) :: s.posted
          log := .accepted target body :: s.log }, .recording p) := by
    have hclaimed := hread.andThen (RoundStep.claim s { s with claim := claim' } r (by
      rw [RoundRead.claimIn, if_pos hclaim, AnnounceDb.announce, if_pos hclaim]
      rfl))
    have hmarker := hclaimed.andThen (RoundStep.readMarker _ r s.pendingReorg (.inl rfl) hbearer)
    have howed' : r.owed = [target] := by
      simp [RoundRead.owed, r, howed]
    rw [RoundRead.todo, howed'] at hmarker
    have hpost := hmarker.andThen (RoundStep.post _ _ target (s.carry target) [])
    have hanswer := hpost.andThen (RoundStep.answer _ _ target (s.carry target) [])
    have haccepted := hanswer.andThen (RoundStep.accepted _ _ target (s.carry target) [])
    exact haccepted.andThen (RoundStep.posted _ _)
  have hrecorded : Agents.Alone RoundStep (s, .idle)
      ({ s.afterRound tip.announced target with
          pendingReorg := s.pendingReorg, failures := s.failures }, .clearing p) := by
    have hrecord := hposted.andThen (RoundStep.record _ p)
    have hfold : p.accepted.foldl (fun s a => s.recordDelivery p.read.tip a.1 a.2)
        { s with
          claim := claim', posted := (target, body) :: s.posted
          log := .accepted target body :: s.log } =
        { s.afterRound tip.announced target with
          pendingReorg := s.pendingReorg, failures := s.failures } := by
      change AnnounceDb.recordDelivery _ tip.announced target.url (s.carry target) = _
      rw [AnnounceDb.recordDelivery, if_pos (by simp [claim', TipClaim.isTip, TipKey.announced])]
      rfl
    rwa [hfold] at hrecord
  have hcleared : Agents.Alone RoundStep (s, .idle)
      ({ s.afterRound tip.announced target with failures := s.failures }, .counting p) := by
    cases hm : s.pendingReorg with
    | none =>
      have hkeep := hrecorded.andThen (RoundStep.keep _ p)
      rwa [hm] at hkeep
    | some carried =>
      have hheard : p.heardByAll carried = true := by
        by_cases hbefore : r.heardBefore target.url = some carried
        · simp [RoundPosts.heardByAll, p, r, hbefore]
        · have hcarry : s.carry target = some carried := by
            rw [AnnounceDb.carry, hm, Option.filter_some]
            exact if_pos (bne_iff_ne.mpr hbefore)
          simp [RoundPosts.heardByAll, p, r, hcarry]
      have hclear := hrecorded.andThen (RoundStep.clear _ p carried hm hheard)
      rwa [AnnounceDb.clearPending, if_pos hm] at hclear
  exact hcleared.andThen (RoundStep.count _ p)

end Alone

/-- The target of the runs of the announce. -/
def aTarget : WebhookTarget := ⟨none, "https://overlay.example/tip", unbound_named⟩

end Chaintracks

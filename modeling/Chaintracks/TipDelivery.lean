import Chaintracks.Announce

/-!
# The tip deliveries

Each URL has a record of the tip it accepted last, and a round posts the tip to the
targets whose URL has no record at it. Two facts make that a delivery: a record was
written for an acceptance (`Chaintracks.AnnounceDb.Recorded`), and a round that claims
the tip posts it to every target it owes (`Chaintracks.Posts`).

A record is by URL and a target is a binding and a URL, so a record speaks for every
target of its URL: where a binding is changed and the URL kept, the new target counts as
having accepted what the old one did (`Chaintracks.delivery_by_url`). A round claims the
tip unless another claims before it; it asks that the last claim be past its flight by
more than a millisecond, the part of a second that the age, computed in doubles, can
lose.
-/

namespace Chaintracks

/-! ### What a record is of -/

section Records

/-- An acceptance of a tip by a target of a URL. -/
def AnnounceDb.Accepted (s : AnnounceDb) (url : String) (tip : TipKey) : Prop :=
  ∃ target body, target.url = url ∧ body.tip = tip ∧ AnnounceEvent.accepted target body ∈ s.log

/-- **A record is of an acceptance**: some target of the URL accepted a body at the tip
recorded. -/
def AnnounceDb.Recorded (s : AnnounceDb) : Prop :=
  ∀ url record, s.deliveries url = some record → s.Accepted url record.tip

/-- The acceptances a round is to record. -/
def Round.Recorded (s : AnnounceDb) : Round → Prop
  | posting p _ | recording p => ∀ a ∈ p.accepted, s.Accepted a.1 p.read.tip
  | awaiting p target _ answered _ =>
    (∀ a ∈ p.accepted, s.Accepted a.1 p.read.tip) ∧
      (answered = true → s.Accepted target.url p.read.tip)
  | idle | tipRead _ | claimRead _ _ _ | ready _ | claimed _ | clearing _ | counting _
  | finished _ _ | gone => True

/-- The log only grows. -/
def AnnounceDb.Logged (s s' : AnnounceDb) : Prop := ∀ e ∈ s.log, e ∈ s'.log

variable {s s' : AnnounceDb} {url : String} {tip : TipKey}

theorem AnnounceDb.Accepted.logged (h : s.Accepted url tip) (hl : s.Logged s') :
    s'.Accepted url tip := by
  obtain ⟨target, body, hurl, htip, hmem⟩ := h
  exact ⟨target, body, hurl, htip, hl _ hmem⟩

theorem AnnounceDb.Logged.refl (s : AnnounceDb) : s.Logged s := fun _ h => h

theorem AnnounceDb.Logged.accept (s : AnnounceDb) (target : WebhookTarget) (body : TipBody) :
    s.Logged { s with log := .accepted target body :: s.log } := fun _ h => List.mem_cons_of_mem _ h

theorem Round.Recorded.logged {round : Round} (h : round.Recorded s) (hl : s.Logged s') :
    round.Recorded s' := by
  cases round with
  | posting p _ | recording p => exact fun a ha => (h a ha).logged hl
  | awaiting p target _ answered _ =>
    exact ⟨fun a ha => (h.1 a ha).logged hl, fun ha => (h.2 ha).logged hl⟩
  | idle | tipRead | claimRead | ready | claimed | clearing | counting | finished | gone => trivial

theorem AnnounceDb.Recorded.logged (h : s.Recorded) (hrecords : s'.deliveries = s.deliveries)
    (hl : s.Logged s') : s'.Recorded :=
  fun url record hrecord => (h url record (hrecords ▸ hrecord)).logged hl

theorem AnnounceDb.Recorded.record (h : s.Recorded) (haccepted : s.Accepted url tip)
    (carried : Option Nat) : (s.recordDelivery tip url carried).Recorded := by
  unfold AnnounceDb.recordDelivery
  split
  · intro url' record hrecord
    dsimp only at hrecord
    by_cases hurl : url' = url
    · rw [hurl, Function.update_self, Option.some_inj] at hrecord
      rw [hurl, ← hrecord]
      exact haccepted
    · rw [Function.update_of_ne hurl] at hrecord
      exact h url' record hrecord
  · exact h

/-- The records of a round's acceptances. -/
theorem AnnounceDb.Recorded.recordAll {accepted : List (String × Option Nat)} (h : s.Recorded)
    (haccepted : ∀ a ∈ accepted, s.Accepted a.1 tip) :
    (accepted.foldl (fun s a => s.recordDelivery tip a.1 a.2) s).Recorded := by
  induction accepted generalizing s with
  | nil => exact h
  | cons a accepted ih =>
    have hlog : (s.recordDelivery tip a.1 a.2).log = s.log := by
      rw [recordDelivery_eq]
    refine ih (h.record (haccepted a List.mem_cons_self) a.2) fun b hb => ?_
    exact (haccepted b (List.mem_cons_of_mem _ hb)).logged fun e he => hlog.symm ▸ he

/-- **The records under any number of rounds.** -/
theorem recorded_inductive :
    Agents.Inductive RoundStep AnnounceStep AnnounceDb.Recorded Round.Recorded
      AnnounceDb.Logged where
  acts := by
    intro s round s' round' hS hK hs
    cases hs with
    | claim _ r h =>
      have hs' := claimIn_eq h
      exact ⟨hs' ▸ hS, trivial, hs' ▸ .refl s⟩
    | readMarker | noBearer => exact ⟨hS, nofun, .refl s⟩
    | post p target carry todo => exact ⟨hS, ⟨hK, nofun⟩, .refl s⟩
    | answer p target carry todo =>
      have hl := AnnounceDb.Logged.accept s target (p.body carry)
      refine ⟨hS.logged rfl hl, ⟨fun a ha => (hK.1 a ha).logged hl, ?_⟩, hl⟩
      exact fun _ => ⟨target, p.body carry, rfl, rfl, List.mem_cons_self⟩
    | accepted p target carry todo =>
      refine ⟨hS, fun a ha => ?_, .refl s⟩
      rcases List.mem_append.mp ha with ha | ha
      · exact hK.1 a ha
      · obtain rfl := List.mem_singleton.mp ha
        exact hK.2 rfl
    | refused p target carry answered todo => exact ⟨hS, hK.1, .refl s⟩
    | posted p => exact ⟨hS, hK, .refl s⟩
    | record p =>
      exact ⟨hS.recordAll hK, trivial, fun e he => recordAll_eq p.read.tip p.accepted s ▸ he⟩
    | clear p carried h heard =>
      unfold AnnounceDb.clearPending
      split
      · exact ⟨hS, trivial, .refl s⟩
      · exact ⟨hS, trivial, .refl s⟩
    | count p =>
      have hs' := countFailures_eq s p.read.failures p.failed
      exact ⟨hs' ▸ hS, trivial, hs' ▸ .refl s⟩
    | readTip | readClaim | readDeliveries | unclaimed | keep | cut => exact ⟨hS, trivial, .refl s⟩
  outsides := by
    intro s s' hS hs
    cases hs with
    | reorg height =>
      have hl : s.Logged
          { s with
            pendingReorg := some (lowerReorg s.pendingReorg height)
            log := .reorg height :: s.log } := fun _ he => List.mem_cons_of_mem _ he
      exact ⟨hS.logged rfl hl, hl⟩
    | late target body h =>
      have hl := AnnounceDb.Logged.accept s target body
      exact ⟨hS.logged rfl hl, hl⟩
    | tip | configure | tick => exact ⟨hS, .refl s⟩
  stable := fun _ hl hK => hK.logged hl

end Records

/-! ### What a round posts -/

section Posts

/-- A round that has not asked for its claim. -/
def Round.reading : Round → Bool
  | idle | tipRead _ | claimRead _ _ _ | ready _ => true
  | claimed _ | posting _ _ | awaiting _ _ _ _ _ | recording _ | clearing _ | counting _
  | finished _ _ | gone => false

/-- A step with a bearer configured, where no other round claims or records before the
round has asked for its claim. -/
def Unrivalled (i : Nat) (c c' : Agents.Config AnnounceDb Round) : Prop :=
  Agents.Step RoundStep AnnounceStep c c' ∧ c.shared.bearer ≠ "" ∧
    ((c.agent i).reading = true → c'.agent i = c.agent i →
      c'.shared.claim = c.shared.claim ∧ c'.shared.deliveries = c.shared.deliveries)

/-- The runs of such steps. -/
def UnrivalledRuns (i : Nat) :
    Agents.Config AnnounceDb Round → Agents.Config AnnounceDb Round → Prop :=
  Relation.ReflTransGen (Unrivalled i)

/-- The tip a round may read. -/
def TipSeen (tip : TipKey) (s : AnnounceDb) : Prop := ∃ t, s.tip = some t ∧ tip = t.announced

/-- A configuration on the way. -/
def OnTheWay (i : Nat) (c c' : Agents.Config AnnounceDb Round) (P : AnnounceDb → Prop) : Prop :=
  ∃ d, UnrivalledRuns i c d ∧ UnrivalledRuns i d c' ∧ P d.shared

/-- **What a round reads**: the tip and the targets as they stood at its reads, the claim
and the records as they stood when it started. -/
structure ReadBetween (i : Nat) (c c' : Agents.Config AnnounceDb Round) (r : RoundRead) : Prop where
  tip : OnTheWay i c c' (TipSeen r.tip)
  targets : OnTheWay i c c' fun s => r.targets = s.targets
  announced : r.announced = c.shared.claim
  delivered : r.delivered = c.shared.deliveries

/-- **What a round posts**: the tip it read, to each target without a record at it and to
no other. -/
structure PostsOwed (i : Nat) (c c' : Agents.Config AnnounceDb Round) (r : RoundRead)
    (sent : List (WebhookTarget × TipBody)) : Prop where
  read : ReadBetween i c c' r
  posts : ∀ t ∈ r.targets,
    (∃ body, (t, body) ∈ sent) ↔ (c.shared.deliveries t.url).map (·.tip) ≠ some r.tip
  bodies : ∀ p ∈ sent, p.1 ∈ r.targets ∧ p.2.tip = r.tip ∧ p ∈ c'.shared.posted

/-- The posts made and those still to make. -/
structure PostsSoFar (i : Nat) (c c' : Agents.Config AnnounceDb Round) (p : RoundPosts)
    (todo : List (WebhookTarget × Option Nat)) : Prop where
  read : ReadBetween i c c' p.read
  owed : p.sent.map (·.1) ++ todo.map (·.1) = p.read.owed
  bodies : ∀ q ∈ p.sent, q.2.tip = p.read.tip ∧ q ∈ c'.shared.posted

/-- Where a round that started at a configuration stands. -/
def Round.Stage (i : Nat) (c c' : Agents.Config AnnounceDb Round) : Round → Prop
  | tipRead tip => OnTheWay i c c' (TipSeen tip)
  | claimRead tip announced _ =>
    OnTheWay i c c' (TipSeen tip) ∧ announced = c.shared.claim
  | ready r | claimed r => ReadBetween i c c' r
  | posting p todo | awaiting p _ _ _ todo => PostsSoFar i c c' p todo
  | recording p | clearing p | counting p => PostsSoFar i c c' p []
  | finished r sent => c.shared.claim.height ≤ r.tip.height → PostsOwed i c c' r sent
  | idle | gone => True

variable {i : Nat} {c b c' : Agents.Config AnnounceDb Round} {P : AnnounceDb → Prop}

theorem OnTheWay.tail (h : OnTheWay i c b P) (hs : Unrivalled i b c') : OnTheWay i c c' P := by
  obtain ⟨d, hcd, hdb, hd⟩ := h
  exact ⟨d, hcd, hdb.tail hs, hd⟩

theorem ReadBetween.tail {r : RoundRead} (h : ReadBetween i c b r) (hs : Unrivalled i b c') :
    ReadBetween i c c' r := ⟨h.tip.tail hs, h.targets.tail hs, h.announced, h.delivered⟩

theorem PostsSoFar.tail {p : RoundPosts} {todo : List (WebhookTarget × Option Nat)}
    (h : PostsSoFar i c b p todo) (hs : Unrivalled i b c')
    (hposted : ∀ q ∈ b.shared.posted, q ∈ c'.shared.posted) : PostsSoFar i c c' p todo :=
  ⟨h.read.tail hs, h.owed, fun q hq => ⟨(h.bodies q hq).1, hposted q (h.bodies q hq).2⟩⟩

/-- The stage of a round is kept by what the others do. -/
theorem Round.Stage.tail {round : Round} (h : round.Stage i c b) (hs : Unrivalled i b c')
    (hposted : ∀ q ∈ b.shared.posted, q ∈ c'.shared.posted) : round.Stage i c c' := by
  cases round with
  | tipRead tip => exact OnTheWay.tail h hs
  | claimRead tip announced failures => exact ⟨h.1.tail hs, h.2⟩
  | ready r | claimed r => exact ReadBetween.tail h hs
  | posting p todo | awaiting p target carry answered todo => exact PostsSoFar.tail h hs hposted
  | recording p | clearing p | counting p => exact PostsSoFar.tail h hs hposted
  | finished r sent =>
    intro hheight
    obtain ⟨hread, hposts, hbodies⟩ := h hheight
    exact ⟨hread.tail hs, hposts, fun q hq =>
      ⟨(hbodies q hq).1, (hbodies q hq).2.1, hposted q (hbodies q hq).2.2⟩⟩
  | idle | gone => trivial

/-- The targets owed are those without a record at the tip. -/
theorem RoundRead.mem_owed {r : RoundRead} {t : WebhookTarget} :
    t ∈ r.owed ↔ t ∈ r.targets ∧ (r.delivered t.url).map (·.tip) ≠ some r.tip := by
  rw [RoundRead.owed, List.mem_filter, bne_iff_ne]

/-- A round that went through its posts posted what it owed. -/
theorem PostsSoFar.owed_all {p : RoundPosts} (h : PostsSoFar i c c' p []) :
    PostsOwed i c c' p.read p.sent := by
  have howed : p.sent.map (·.1) = p.read.owed := by
    rw [← h.owed, List.map_nil, List.append_nil]
  refine ⟨h.read, fun t ht => ?_, fun q hq => ?_⟩
  · have hmem : (∃ body, (t, body) ∈ p.sent) ↔ t ∈ p.read.owed := by
      rw [← howed, List.mem_map]
      exact ⟨fun ⟨body, hb⟩ => ⟨_, hb, rfl⟩, fun ⟨q, hq, ht⟩ => ⟨q.2, ht ▸ hq⟩⟩
    rw [hmem, RoundRead.mem_owed, h.read.delivered]
    exact and_iff_right ht
  · have hq' : q.1 ∈ p.read.owed := howed ▸ List.mem_map_of_mem hq
    exact ⟨(RoundRead.mem_owed.mp hq').1, h.bodies q hq⟩

/-- **A claim past its flight does not keep a round from claiming**: a round without a
rival is turned away only where it owes nothing. -/
theorem owed_of_unclaimed {s : AnnounceDb} {r : RoundRead} (h : r.claimIn s = none)
    (hclaim : s.claim = r.announced) (hheight : r.announced.height ≤ r.tip.height)
    (haged : r.announced.aged s.clock = true) : r.owed = [] := by
  unfold RoundRead.claimIn at h
  split at h
  · rename_i hnew
    rw [AnnounceDb.announce, hclaim, if_pos hnew] at h
    cases h
  · rename_i hnew
    have htip : r.announced.isTip r.tip = true := by
      simp only [TipClaim.unannounced, Bool.or_eq_true, decide_eq_true_eq, Bool.and_eq_true,
        beq_iff_eq, bne_iff_ne, not_or, not_and, not_not] at hnew
      have hsame : r.announced.height = r.tip.height := by omega
      simp [TipClaim.isTip, hsame, hnew.2 hsame]
    by_contra hne
    rw [htip, Bool.true_and, if_pos (by simpa using hne), AnnounceDb.reclaim, hclaim, htip, haged] at h
    cases h

/-- A run without a rival, up to some configuration. -/
structure Going (i : Nat) (c b : Agents.Config AnnounceDb Round) : Prop where
  run : UnrivalledRuns i c b
  stage : (b.agent i).Stage i c b
  fresh : (b.agent i).reading = true →
    b.shared.claim = c.shared.claim ∧ b.shared.deliveries = c.shared.deliveries
  clock : c.shared.clock.ms ≤ b.shared.clock.ms

/-- A step that is not the round's own. -/
theorem Going.other (h : Going i c b) (hs : Unrivalled i b c') (hagent : c'.agent i = b.agent i)
    (hclock : b.shared.clock.ms ≤ c'.shared.clock.ms)
    (hposted : ∀ q ∈ b.shared.posted, q ∈ c'.shared.posted) : Going i c c' := by
  refine ⟨h.run.tail hs, hagent ▸ h.stage.tail hs hposted, fun hreading => ?_,
    h.clock.trans hclock⟩
  rw [hagent] at hreading
  obtain ⟨hclaim, hrecords⟩ := hs.2.2 hreading hagent
  exact ⟨hclaim.trans (h.fresh hreading).1, hrecords.trans (h.fresh hreading).2⟩

/-- **A round's own step.** -/
theorem Going.own {s : AnnounceDb} {round : Round}
    (hage : ∀ since, c.shared.claim.claimedAt = some since →
      since.ms + claimInFlight * 1000 + 1 ≤ c.shared.clock.ms)
    (h : Going i c b) (hact : RoundStep b.shared (b.agent i) s round)
    (hs : Unrivalled i b c') (hshared : c'.shared = s) :
    round.Stage i c c' ∧ (round.reading = true →
      s.claim = c.shared.claim ∧ s.deliveries = c.shared.deliveries) := by
  obtain ⟨hrun, hstage, hfresh, hclock⟩ := h
  have hposted : ∀ q ∈ b.shared.posted, q ∈ c'.shared.posted :=
    hshared ▸ (roundStep_frame hact).2.2.2.2
  have hon := hstage.tail hs hposted
  have hwriting : false = true →
      s.claim = c.shared.claim ∧ s.deliveries = c.shared.deliveries :=
    fun h => absurd h Bool.false_ne_true
  generalize b.agent i = before at hact hstage hfresh hon
  cases hact with
  | readTip tip htip => exact ⟨⟨b, hrun, .single hs, tip, htip, rfl⟩, fun _ => hfresh rfl⟩
  | readClaim tip => exact ⟨⟨hon, (hfresh rfl).1⟩, fun _ => hfresh rfl⟩
  | readDeliveries tip announced failures =>
    exact ⟨⟨hon.1, ⟨b, hrun, .single hs, rfl⟩, hon.2, (hfresh rfl).2⟩, fun _ => hfresh rfl⟩
  | claim _ r hclaim => exact ⟨hon, hwriting⟩
  | unclaimed r hclaim =>
    refine ⟨fun hheight => ?_, hwriting⟩
    have hread : ReadBetween i c c' r := hon
    have haged : r.announced.aged b.shared.clock = true := by
      rw [hread.announced, TipClaim.aged]
      split
      · rfl
      · rename_i since hsince
        exact decide_eq_true (le_elapsedSeconds (by decide) ((hage since hsince).trans hclock))
    have hnone := owed_of_unclaimed hclaim ((hfresh rfl).1.trans hread.announced.symm)
      (hread.announced ▸ hheight) haged
    exact PostsSoFar.owed_all (p := ⟨r, none, [], 0, []⟩) ⟨hread, hnone.symm, fun q hq => absurd hq List.not_mem_nil⟩
  | readMarker r marker hmarker bearer =>
    have hread : ReadBetween i c c' r := hon
    refine ⟨⟨hread, ?_, fun q hq => absurd hq List.not_mem_nil⟩, hwriting⟩
    rw [RoundRead.todo, List.map_map]
    exact List.map_id _
  | noBearer r marker hmarker bearer => exact absurd bearer hs.2.1
  | post p target carry todo =>
    have hposts : PostsSoFar i c c' p ((target, carry) :: todo) := hon
    refine ⟨⟨hposts.read, ?_, fun q hq => ?_⟩, hwriting⟩
    · have howed := hposts.owed
      simpa using howed
    · rcases List.mem_append.mp hq with hq | hq
      · exact hposts.bodies q hq
      · obtain rfl := List.mem_singleton.mp hq
        exact ⟨rfl, hshared ▸ List.mem_cons_self⟩
  | answer p target carry todo => exact ⟨hon, hwriting⟩
  | accepted p target carry todo =>
    have hposts : PostsSoFar i c c' p todo := hon
    exact ⟨⟨hposts.read, hposts.owed, hposts.bodies⟩, hwriting⟩
  | refused p target carry answered todo =>
    have hposts : PostsSoFar i c c' p todo := hon
    exact ⟨⟨hposts.read, hposts.owed, hposts.bodies⟩, hwriting⟩
  | posted p | record p | clear p carried hmarker heard | keep p => exact ⟨hon, hwriting⟩
  | count p => exact ⟨fun _ => PostsSoFar.owed_all hon, hwriting⟩
  | cut => exact ⟨trivial, hwriting⟩

/-- **One step of a run without a rival.** -/
theorem Going.step (hage : ∀ since, c.shared.claim.claimedAt = some since →
      since.ms + claimInFlight * 1000 + 1 ≤ c.shared.clock.ms)
    (h : Going i c b) (hs : Unrivalled i b c') : Going i c c' := by
  have hstep := hs.1
  cases hstep with
  | act j hact =>
    obtain ⟨-, -, hclock, -, hposted⟩ := roundStep_frame hact
    by_cases hj : i = j
    · subst hj
      obtain ⟨hstage, hfresh⟩ := h.own hage hact hs rfl
      refine ⟨h.run.tail hs, ?_, ?_, hclock ▸ h.clock⟩
      · dsimp only
        rw [Function.update_self]
        exact hstage
      · dsimp only
        rw [Function.update_self]
        exact hfresh
    · exact h.other hs (Function.update_of_ne hj _ _) (hclock ▸ Nat.le_refl _) hposted
  | outside hout =>
    refine h.other hs rfl ?_ ?_
    · cases hout with
      | tick now later => exact later
      | reorg | tip | configure | late => exact Nat.le_refl _
    · cases hout <;> exact fun _ hq => hq

/-- **Every run without a rival**, from a round that has not begun. -/
theorem going_of_runs (hage : ∀ since, c.shared.claim.claimedAt = some since →
      since.ms + claimInFlight * 1000 + 1 ≤ c.shared.clock.ms)
    (hidle : c.agent i = .idle) (hrun : UnrivalledRuns i c c') : Going i c c' := by
  induction hrun with
  | refl => exact ⟨.refl, hidle ▸ trivial, fun _ => ⟨rfl, rfl⟩, Nat.le_refl _⟩
  | tail _ hs ih => exact ih.step hage hs

/-- **No consumer is left behind.** A record at a tip is of an acceptance of that tip by a
target of its URL. And a round that goes through without a rival, of a tip not below the
last claim and past that claim's flight, posts its tip to each configured target whose
URL has no record at it, so to each of whose URL no target accepted it, and to no other. -/
theorem no_consumer_behind {targets : List WebhookTarget} {token : String}
    (h : AnnounceRuns (AnnounceDb.init targets token) c) :
    c.shared.Recorded ∧ ∀ i c' r sent, c.agent i = .idle → UnrivalledRuns i c c' →
      c'.agent i = .finished r sent →
      (∀ since, c.shared.claim.claimedAt = some since →
        since.ms + claimInFlight * 1000 + 1 ≤ c.shared.clock.ms) →
      c.shared.claim.height ≤ r.tip.height →
      PostsOwed i c c' r sent ∧
        ∀ t ∈ r.targets, ¬c.shared.Accepted t.url r.tip → ∃ body, (t, body) ∈ sent := by
  have hrecorded := (recorded_inductive.runs h ⟨nofun, fun _ => trivial⟩).1
  refine ⟨hrecorded, fun i c' r sent hidle hrun hend hage hheight => ?_⟩
  have hstage := (going_of_runs hage hidle hrun).stage
  rw [hend] at hstage
  have hposts : PostsOwed i c c' r sent := hstage hheight
  refine ⟨hposts, fun t ht hnone => (hposts.posts t ht).mpr fun hrecord => ?_⟩
  obtain ⟨record, hrecord, htip⟩ := Option.map_eq_some_iff.mp hrecord
  exact hnone (htip ▸ hrecorded t.url record hrecord)

end Posts

/-! ### Runs -/

section Runs

theorem reading_moves {s s' : AnnounceDb} {round round' : Round} (h : RoundStep s round s' round')
    (hreading : round.reading = true) : round' ≠ round := by
  cases h with
  | readTip | readClaim | readDeliveries | claim | unclaimed => nofun
  | readMarker | noBearer | post | answer | accepted | refused | posted | record | clear | keep |
    count => cases hreading
  | cut =>
    rintro rfl
    cases hreading

/-- A round alone has no rival. -/
theorem unrivalled_alone (i : Nat) (f : Nat → Round) {p q : AnnounceDb × Round}
    (h : Agents.Alone RoundStep p q) (hbearer : p.1.bearer ≠ "") :
    UnrivalledRuns i ⟨p.1, Function.update f i p.2⟩ ⟨q.1, Function.update f i q.2⟩ ∧
      q.1.bearer ≠ "" := by
  induction h with
  | refl => exact ⟨.refl, hbearer⟩
  | @tail q r _ hact ih =>
    obtain ⟨hrun, hb⟩ := ih
    have hstep : Agents.Step RoundStep AnnounceStep ⟨q.1, Function.update f i q.2⟩
        ⟨r.1, Function.update (Function.update f i q.2) i r.2⟩ :=
      .act _ i (by
        dsimp only
        rw [Function.update_self]
        exact hact)
    rw [Function.update_idem] at hstep
    refine ⟨hrun.tail ⟨hstep, hb, fun hreading hsame => ?_⟩, ?_⟩
    · dsimp only at hreading hsame
      rw [Function.update_self] at hreading hsame
      rw [Function.update_self] at hsame
      exact absurd hsame (reading_moves hact hreading)
    · rw [AnnounceDb.bearer, (roundStep_frame hact).2.1]
      exact hb

/-- Before any round, with a tip. -/
def AnnounceDb.withTip (targets : List WebhookTarget) : AnnounceDb :=
  { AnnounceDb.fresh targets "bearer" with tip := some ⟨9, "00a1"⟩ }

theorem withTip_run (targets : List WebhookTarget) :
    AnnounceRuns (AnnounceDb.init targets "bearer") ⟨.withTip targets, fun _ => .idle⟩ :=
  Relation.ReflTransGen.single (.outside _ (.tip _ ⟨9, "00a1"⟩))

/-- A first round: it posts the tip to its target, which had no record. -/
theorem no_consumer_behind_first : ∃ c c' r sent,
    AnnounceRuns (AnnounceDb.init [aTarget] "bearer") c ∧ UnrivalledRuns 0 c c' ∧
      c'.agent 0 = .finished r sent ∧ PostsOwed 0 c c' r sent ∧
      ∃ body, (aTarget, body) ∈ sent := by
  have hinit := withTip_run [aTarget]
  have halone := round_alone (s := .withTip [aTarget]) rfl rfl (by decide) rfl nofun
  obtain ⟨hrun, -⟩ := unrivalled_alone 0 (fun _ => .idle) halone (by decide)
  rw [Function.update_eq_self_iff.mpr rfl] at hrun
  obtain ⟨-, hround⟩ := no_consumer_behind hinit
  obtain ⟨hposts, hall⟩ := hround 0 _ _ _ rfl hrun rfl nofun (Nat.zero_le _)
  refine ⟨_, _, _, _, hinit, hrun, rfl, hposts,
    hall aTarget List.mem_cons_self ?_⟩
  rintro ⟨target, body, -, -, hmem⟩
  cases hmem

/-- The same URL, through a service binding. -/
def aBoundTarget : WebhookTarget :=
  ⟨some "OVERLAY", aTarget.url, by rintro b ⟨⟩; decide⟩

/-- **A record of another target's acceptance**: a target's binding is changed, its URL is
not, and the record at the URL is of a tip that the new target never accepted. -/
theorem delivery_by_url : ∃ c, AnnounceRuns (AnnounceDb.init [aTarget] "bearer") c ∧
    ¬∀ t ∈ c.shared.targets, ∀ record, c.shared.deliveries t.url = some record →
      ∃ body, body.tip = record.tip ∧ AnnounceEvent.accepted t body ∈ c.shared.log := by
  have halone := round_alone (s := .withTip [aTarget]) rfl rfl (by decide) rfl nofun
  have hinit : AnnounceRuns (AnnounceDb.init [aTarget] "bearer")
      (.ofList .idle (.withTip [aTarget]) (List.replicate 1 .idle)) := by
    rw [Agents.Config.ofList_idle]
    exact withTip_run [aTarget]
  have hrun := (Agents.Runs.alone hinit 0 Nat.one_pos halone).outsides
    (.configure _ [aBoundTarget] "bearer")
  refine ⟨_, hrun, fun h => ?_⟩
  obtain ⟨body, -, hmem⟩ := h aBoundTarget List.mem_cons_self _ rfl
  cases List.mem_singleton.mp hmem

end Runs

end Chaintracks

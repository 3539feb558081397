import Chaintracks.Announce

/-!
# The marker of a pending reorg

A reorg leaves its lowest changed height in the marker, merged by the lower one; the
rounds carry the marker to the targets, each until it has accepted a body with it, and
clear it by value when every target has heard it. A cleared marker is to mean that every
target accepted, after the reorg, a body that reaches down to it
(`Chaintracks.AnnounceDb.ReorgsTold`).

The marker is a height, and a height does not say which reorg it came from. What a target
heard of an earlier reorg stays in its record, and a round under way keeps the marker it
read: when a later reorg leaves the same height in the marker, either passes for the later
one. The first makes a round carry nothing and clear the marker
(`Chaintracks.reorg_untold`).

Where each reorg leaves a marker that no record holds and no round has read
(`Chaintracks.UnheardMarker`), the value does tell the reorgs apart, and every reorg is
told before its marker is cleared (`Chaintracks.reorgsTold_of_unheard`). The invariant
speaks of the marker's present value only: whoever holds that value holds it of an
acceptance since the last reorg (`Chaintracks.AnnounceDb.Told`).
-/

namespace Chaintracks

/-! ### What a cleared marker means -/

/-- A reorg of the log's. -/
def AnnounceEvent.isReorg : AnnounceEvent → Bool
  | reorg _ => true
  | accepted _ _ => false

/-- **Every reorg is told before its marker is cleared**: where the marker is clear of a
reorg, or above it, every target accepted since then a body that reaches down to it. -/
def AnnounceDb.ReorgsTold (s : AnnounceDb) : Prop :=
  ∀ later v earlier, s.log = later ++ .reorg v :: earlier → (∀ m, s.pendingReorg = some m → v < m) →
    ∀ t ∈ s.targets, ∃ tip r, r ≤ v ∧ AnnounceEvent.accepted t ⟨tip, some r⟩ ∈ later

/-- A target accepted a body with the fork since the last reorg. -/
def AnnounceDb.Told (s : AnnounceDb) (t : WebhookTarget) (m : Nat) : Prop :=
  ∃ tip, AnnounceEvent.accepted t ⟨tip, some m⟩ ∈ s.log.takeWhile fun e => !e.isReorg

/-- A round that may take the marker's value for heard. -/
def Round.knows (m : Nat) : Round → Prop
  | ready r | claimed r => ∃ t ∈ r.targets, r.heardBefore t.url = some m
  | posting p _ | awaiting p _ _ _ _ | recording p | clearing p => p.marker = some m
  | idle | tipRead _ | claimRead _ _ _ | counting _ | finished _ _ | gone => False

/-- No target's record holds the marker, and no round under way has read it. -/
def UnheardMarker (c : Agents.Config AnnounceDb Round) (m : Nat) : Prop :=
  (∀ t ∈ c.shared.targets, (c.shared.deliveries t.url).bind (·.reorgFrom) ≠ some m) ∧
    ∀ i, ¬(c.agent i).knows m

/-- A step under one configuration, where a reorg leaves a marker nobody holds. -/
def TellingStep (c c' : Agents.Config AnnounceDb Round) : Prop :=
  Agents.Step RoundStep AnnounceStep c c' ∧ c'.shared.targets = c.shared.targets ∧
    ∀ v, c'.shared.log = .reorg v :: c.shared.log →
      UnheardMarker c (lowerReorg c.shared.pendingReorg v)

/-! ### The invariant -/

section Invariant

/-- The steps outside the rounds, but for the reorgs and the configuration of targets. -/
inductive QuietStep : AnnounceDb → AnnounceDb → Prop
  | tip (s : AnnounceDb) (tip : TipKey) : QuietStep s { s with tip := some tip }
  | configure (s : AnnounceDb) (token : String) : QuietStep s { s with token }
  | tick (s : AnnounceDb) (now : Instant) : QuietStep s { s with clock := now }
  | late (s : AnnounceDb) (target : WebhookTarget) (body : TipBody) :
    QuietStep s { s with log := .accepted target body :: s.log }

/-- What a step other than a reorg can do to the marker and the log. -/
structure AnnounceDb.Quiet (s s' : AnnounceDb) : Prop where
  targets : s'.targets = s.targets
  marker : ∀ m, s'.pendingReorg = some m → s.pendingReorg = some m
  told : ∀ t m, s.Told t m → s'.Told t m

/-- The shared state: the reorgs are told, and a record that holds the marker holds it of
an acceptance since the last reorg. -/
structure AnnounceDb.Telling (targets : List WebhookTarget) (s : AnnounceDb) : Prop where
  targets_eq : s.targets = targets
  told : s.ReorgsTold
  records : ∀ t ∈ targets, ∀ m, (s.deliveries t.url).bind (·.reorgFrom) = some m →
    s.pendingReorg = some m → s.Told t m

/-- The reads of a round: a record that held the marker. -/
structure RoundRead.Telling (targets : List WebhookTarget) (s : AnnounceDb) (r : RoundRead) :
    Prop where
  targets_eq : r.targets = targets
  heard : ∀ t ∈ targets, ∀ m, r.heardBefore t.url = some m → s.pendingReorg = some m → s.Told t m

/-- The posts of a round: what was accepted carried the marker it read, or nothing. -/
structure RoundPosts.Telling (targets : List WebhookTarget) (s : AnnounceDb) (p : RoundPosts) :
    Prop where
  targets_eq : p.read.targets = targets
  heard : ∀ t ∈ targets, ∀ m, p.marker = some m → p.read.heardBefore t.url = some m →
    s.pendingReorg = some m → s.Told t m
  carried : ∀ a ∈ p.accepted, ∀ m, a.2 = some m → p.marker = some m
  accepted : ∀ a ∈ p.accepted, ∀ m, a.2 = some m → s.pendingReorg = some m →
    ∀ t ∈ targets, t.url = a.1 → s.Told t m

/-- The posts still to make are to configured targets, with the marker or nothing. -/
def RoundPosts.Todo (targets : List WebhookTarget) (p : RoundPosts)
    (todo : List (WebhookTarget × Option Nat)) : Prop :=
  ∀ a ∈ todo, a.1 ∈ targets ∧ ∀ m, a.2 = some m → p.marker = some m

/-- What a round knows of the marker. -/
def Round.Telling (targets : List WebhookTarget) (s : AnnounceDb) : Round → Prop
  | ready r | claimed r => r.Telling targets s
  | posting p todo => p.Telling targets s ∧ p.Todo targets todo
  | awaiting p target carry answered todo =>
    p.Telling targets s ∧ p.Todo targets ((target, carry) :: todo) ∧
      (answered = true → ∀ m, carry = some m → s.pendingReorg = some m → s.Told target m)
  | recording p | clearing p => p.Telling targets s
  | idle | tipRead _ | claimRead _ _ _ | counting _ | finished _ _ | gone => True

variable {targets : List WebhookTarget} {s s' : AnnounceDb} {t : WebhookTarget} {m : Nat}

theorem AnnounceDb.Told.accept (target : WebhookTarget) (body : TipBody) (h : s.Told t m) :
    AnnounceDb.Told { s with log := .accepted target body :: s.log } t m := by
  obtain ⟨tip, htip⟩ := h
  exact ⟨tip, List.mem_cons_of_mem _ htip⟩

theorem AnnounceDb.Quiet.refl (s : AnnounceDb) : s.Quiet s := ⟨rfl, fun _ h => h, fun _ _ h => h⟩

theorem AnnounceDb.Quiet.trans {s'' : AnnounceDb} (h : s.Quiet s') (h' : s'.Quiet s'') :
    s.Quiet s'' :=
  ⟨h'.targets.trans h.targets, fun m hm => h.marker m (h'.marker m hm),
    fun t m ht => h'.told t m (h.told t m ht)⟩

theorem AnnounceDb.Quiet.of_eq (htargets : s'.targets = s.targets)
    (hmarker : s'.pendingReorg = s.pendingReorg) (hlog : s'.log = s.log) : s.Quiet s' :=
  ⟨htargets, fun _ h => hmarker ▸ h, fun _ _ h => by
    rw [AnnounceDb.Told, hlog]
    exact h⟩

theorem AnnounceDb.Quiet.accept (s : AnnounceDb) (target : WebhookTarget) (body : TipBody) :
    s.Quiet { s with log := .accepted target body :: s.log } :=
  ⟨rfl, fun _ h => h, fun _ _ h => h.accept target body⟩

theorem RoundRead.Telling.quiet {r : RoundRead} (h : r.Telling targets s) (hq : s.Quiet s') :
    r.Telling targets s' :=
  ⟨h.targets_eq, fun t ht m hm hp => hq.told t m (h.heard t ht m hm (hq.marker m hp))⟩

theorem RoundPosts.Telling.quiet {p : RoundPosts} (h : p.Telling targets s) (hq : s.Quiet s') :
    p.Telling targets s' where
  targets_eq := h.targets_eq
  heard t ht m hm hb hp := hq.told t m (h.heard t ht m hm hb (hq.marker m hp))
  carried := h.carried
  accepted a ha m hm hp t ht hu := hq.told t m (h.accepted a ha m hm (hq.marker m hp) t ht hu)

theorem Round.Telling.quiet {round : Round} (h : round.Telling targets s) (hq : s.Quiet s') :
    round.Telling targets s' := by
  cases round with
  | ready r | claimed r => exact RoundRead.Telling.quiet h hq
  | posting p todo => exact ⟨h.1.quiet hq, h.2⟩
  | awaiting p target carry answered todo =>
    exact ⟨h.1.quiet hq, h.2.1,
      fun ha m hm hp => hq.told target m (h.2.2 ha m hm (hq.marker m hp))⟩
  | recording p | clearing p => exact RoundPosts.Telling.quiet h hq
  | idle | tipRead | claimRead | counting | finished | gone => trivial

/-- What the shared invariant minds. -/
theorem AnnounceDb.Telling.of_eq (h : s.Telling targets) (htargets : s'.targets = s.targets)
    (hmarker : s'.pendingReorg = s.pendingReorg) (hlog : s'.log = s.log)
    (hrecords : s'.deliveries = s.deliveries) : s'.Telling targets := by
  refine ⟨htargets.trans h.targets_eq, ?_, ?_⟩
  · rw [AnnounceDb.ReorgsTold, hlog, hmarker, htargets]
    exact h.told
  · rw [hrecords, hmarker]
    intro t ht m hm hp
    rw [AnnounceDb.Told, hlog]
    exact h.records t ht m hm hp

/-- An acceptance more. -/
theorem AnnounceDb.Telling.accept (h : s.Telling targets) (target : WebhookTarget)
    (body : TipBody) :
    AnnounceDb.Telling targets { s with log := .accepted target body :: s.log } := by
  refine ⟨h.targets_eq, ?_, fun t ht m hm hp => (h.records t ht m hm hp).accept target body⟩
  intro later v earlier hlog habove t ht
  cases later with
  | nil => cases hlog
  | cons e later =>
    obtain ⟨-, hlog⟩ := List.cons.inj hlog
    obtain ⟨tip, r, hr, hmem⟩ := h.told later v earlier hlog habove t ht
    exact ⟨tip, r, hr, List.mem_cons_of_mem _ hmem⟩

/-! ### The rounds -/

/-- A record written: the acceptance it is of is since the last reorg, if it is of the
marker. -/
theorem AnnounceDb.Telling.record (h : s.Telling targets) {url : String} {carried : Option Nat}
    {tip : TipKey} (hcarried : ∀ m, carried = some m → s.pendingReorg = some m →
      ∀ t ∈ targets, t.url = url → s.Told t m) :
    (s.recordDelivery tip url carried).Telling targets ∧
      s.Quiet (s.recordDelivery tip url carried) := by
  unfold AnnounceDb.recordDelivery
  split
  · refine ⟨⟨h.targets_eq, h.told, fun t ht m hm hp => ?_⟩, .of_eq rfl rfl rfl⟩
    dsimp only at hm hp
    by_cases hu : t.url = url
    · rw [hu, Function.update_self] at hm
      cases carried with
      | some m' =>
        obtain rfl : m' = m := Option.some_inj.mp hm
        exact hcarried m' rfl hp t ht hu
      | none => exact h.records t ht m (hu ▸ hm) hp
    · rw [Function.update_of_ne hu] at hm
      exact h.records t ht m hm hp
  · exact ⟨h, .refl s⟩

theorem AnnounceDb.Telling.recordAll (tip : TipKey) {accepted : List (String × Option Nat)}
    (h : s.Telling targets) (haccepted : ∀ a ∈ accepted, ∀ m, a.2 = some m →
      s.pendingReorg = some m → ∀ t ∈ targets, t.url = a.1 → s.Told t m) :
    (accepted.foldl (fun s a => s.recordDelivery tip a.1 a.2) s).Telling targets ∧
      s.Quiet (accepted.foldl (fun s a => s.recordDelivery tip a.1 a.2) s) := by
  induction accepted generalizing s with
  | nil => exact ⟨h, .refl s⟩
  | cons a accepted ih =>
    obtain ⟨h', hq⟩ := @AnnounceDb.Telling.record _ _ h a.1 a.2 tip (haccepted a List.mem_cons_self)
    obtain ⟨hrest, hqrest⟩ := ih h' fun b hb m hm hp t ht hu =>
      hq.told t m (haccepted b (List.mem_cons_of_mem _ hb) m hm (hq.marker m hp) t ht hu)
    exact ⟨hrest, hq.trans hqrest⟩

/-- **The marker cleared**: every target heard its present value since the last reorg. -/
theorem AnnounceDb.Telling.clear {p : RoundPosts} (h : s.Telling targets)
    (hp : p.Telling targets s) (hm : p.marker = some m) (hheard : p.heardByAll m = true) :
    (s.clearPending m).Telling targets ∧ s.Quiet (s.clearPending m) := by
  unfold AnnounceDb.clearPending
  split
  · rename_i hpending
    have htold : ∀ t ∈ targets, s.Told t m := by
      intro t ht
      have ht' := List.all_eq_true.mp hheard t (hp.targets_eq.symm ▸ ht)
      rw [Bool.or_eq_true, beq_iff_eq, beq_iff_eq] at ht'
      rcases ht' with hnow | hbefore
      · obtain ⟨a, ha, hcarry⟩ := Option.bind_eq_some_iff.mp hnow
        have hurl := List.find?_some ha
        exact hp.accepted a (List.mem_of_find?_eq_some ha) m hcarry hpending t ht
          (beq_iff_eq.mp hurl).symm
      · exact hp.heard t ht m hm hbefore hpending
    refine ⟨⟨h.targets_eq, ?_, fun _ _ _ _ hnone => nomatch hnone⟩, rfl, nofun, fun _ _ h => h⟩
    intro later v earlier hlog _ t ht
    by_cases hv : v < m
    · refine h.told later v earlier hlog (fun m' hm' => ?_) t ht
      rw [hpending, Option.some_inj] at hm'
      exact hm' ▸ hv
    · -- the marker reaches down to this reorg, and the acceptance is later than all of them
      obtain ⟨tip, hmem⟩ := htold t (h.targets_eq ▸ ht)
      refine ⟨tip, m, Nat.le_of_not_lt hv, ?_⟩
      have hlog : s.log = later ++ .reorg v :: earlier := hlog
      rw [hlog, List.takeWhile_append] at hmem
      split at hmem
      · rw [List.takeWhile_cons_of_neg (by simp [AnnounceEvent.isReorg]), List.append_nil] at hmem
        exact hmem
      · exact (List.takeWhile_prefix _).mem hmem
  · exact ⟨h, .refl s⟩

/-- The posts of a round that has made none. -/
theorem RoundRead.Telling.posts {r : RoundRead} (h : r.Telling targets s) (marker : Option Nat)
    (failed : Nat) : RoundPosts.Telling targets s ⟨r, marker, [], failed, []⟩ :=
  ⟨h.targets_eq, fun t ht m _ hb hp => h.heard t ht m hb hp, nofun, nofun⟩

theorem todo_of_read {r : RoundRead} (h : r.targets = targets) (marker : Option Nat)
    (failed : Nat) : RoundPosts.Todo targets ⟨r, marker, [], failed, []⟩ (r.todo marker) := by
  intro a ha
  obtain ⟨t, ht, rfl⟩ := List.mem_map.mp ha
  exact ⟨h ▸ List.mem_of_mem_filter ht, fun m hm => (Option.filter_eq_some_iff.mp hm).1⟩

/-- What a round's invariant minds of its posts. -/
theorem RoundPosts.Telling.of_eq {p p' : RoundPosts} (h : p.Telling targets s)
    (hread : p'.read = p.read) (hmarker : p'.marker = p.marker)
    (haccepted : p'.accepted = p.accepted) : p'.Telling targets s := by
  refine ⟨hread ▸ h.targets_eq, ?_, ?_, ?_⟩
  · rw [hread, hmarker]
    exact h.heard
  · rw [haccepted, hmarker]
    exact h.carried
  · rw [haccepted]
    exact h.accepted

/-- **The rounds and the marker**, between two reorgs. -/
theorem reorgMarker_inductive (hurls : (targets.map (·.url)).Nodup) :
    Agents.Inductive RoundStep QuietStep (AnnounceDb.Telling targets) (Round.Telling targets)
      AnnounceDb.Quiet where
  acts := by
    intro s round s' round' hS hK hs
    cases hs with
    | readTip | readClaim => exact ⟨hS, trivial, .refl s⟩
    | readDeliveries =>
      exact ⟨hS, ⟨hS.targets_eq, hS.records⟩, .refl s⟩
    | claim _ r h =>
      have hq := claimIn_eq h
      exact ⟨hq ▸ hS.of_eq rfl rfl rfl rfl,
        RoundRead.Telling.quiet hK (hq ▸ .of_eq rfl rfl rfl), hq ▸ .of_eq rfl rfl rfl⟩
    | unclaimed r h => exact ⟨hS, trivial, .refl s⟩
    | readMarker r marker h bearer =>
      exact ⟨hS, ⟨RoundRead.Telling.posts hK marker _, todo_of_read hK.targets_eq marker _⟩, .refl s⟩
    | noBearer r marker h bearer => exact ⟨hS, RoundRead.Telling.posts hK marker _, .refl s⟩
    | post p target carry todo =>
      obtain ⟨hp, htodo⟩ := hK
      have hq : s.Quiet { s with posted := (target, p.body carry) :: s.posted } :=
        .of_eq rfl rfl rfl
      exact ⟨hS.of_eq rfl rfl rfl rfl, ⟨(hp.quiet hq).of_eq rfl rfl rfl, htodo, nofun⟩, hq⟩
    | answer p target carry todo =>
      have hq := AnnounceDb.Quiet.accept s target (p.body carry)
      refine ⟨hS.accept target _, ⟨hK.1.quiet hq, hK.2.1, fun _ m hm _ => ?_⟩, hq⟩
      refine ⟨p.read.tip, ?_⟩
      rw [← hm]
      exact List.mem_cons_self
    | accepted p target carry todo =>
      obtain ⟨hp, htodo, hanswered⟩ := hK
      obtain ⟨htarget, hcarry⟩ := htodo _ List.mem_cons_self
      refine ⟨hS, ⟨⟨hp.targets_eq, hp.heard, fun a ha m hm => ?_, fun a ha m hm hpend t ht hu => ?_⟩,
        fun a ha => htodo a (List.mem_cons_of_mem _ ha)⟩, .refl s⟩
      · rcases List.mem_append.mp ha with ha | ha
        · exact hp.carried a ha m hm
        · obtain rfl := List.mem_singleton.mp ha
          exact hcarry m hm
      · rcases List.mem_append.mp ha with ha | ha
        · exact hp.accepted a ha m hm hpend t ht hu
        · obtain rfl := List.mem_singleton.mp ha
          obtain rfl := List.inj_on_of_nodup_map hurls ht htarget hu
          exact hanswered rfl m hm hpend
    | refused p target carry answered todo =>
      obtain ⟨hp, htodo, -⟩ := hK
      exact ⟨hS, ⟨hp.of_eq rfl rfl rfl, fun a ha => htodo a (List.mem_cons_of_mem _ ha)⟩, .refl s⟩
    | posted p => exact ⟨hS, hK.1, .refl s⟩
    | record p =>
      obtain ⟨hS', hq⟩ := hS.recordAll p.read.tip hK.accepted
      exact ⟨hS', hK.quiet hq, hq⟩
    | clear p carried h heard =>
      obtain ⟨hS', hq⟩ := hS.clear hK h heard
      exact ⟨hS', trivial, hq⟩
    | keep => exact ⟨hS, trivial, .refl s⟩
    | count p =>
      have hq := countFailures_eq s p.read.failures p.failed
      exact ⟨hq ▸ hS.of_eq rfl rfl rfl rfl, trivial, hq ▸ .of_eq rfl rfl rfl⟩
    | cut => exact ⟨hS, trivial, .refl s⟩
  outsides := by
    intro s s' hS hs
    cases hs with
    | tip | configure | tick =>
      exact ⟨hS.of_eq rfl rfl rfl rfl, .of_eq rfl rfl rfl⟩
    | late target body => exact ⟨hS.accept target body, .accept s target body⟩
  stable := fun _ hq hK => hK.quiet hq

end Invariant

/-! ### The reorgs -/

section Reorgs

variable {targets : List WebhookTarget} {c c' : Agents.Config AnnounceDb Round} {m v : Nat}

/-- What a round knows of a marker it does not hold is nothing. -/
theorem Round.Telling.reorg {s : AnnounceDb} {round : Round} (h : round.Telling targets s)
    (hm : ¬round.knows m) (log : List AnnounceEvent) :
    round.Telling targets { s with pendingReorg := some m, log } := by
  have hposts : ∀ p : RoundPosts, p.Telling targets s → p.marker ≠ some m →
      p.Telling targets { s with pendingReorg := some m, log } := by
    intro p hp hne
    refine ⟨hp.targets_eq, ?_, hp.carried, ?_⟩
    · rintro t ht m' hm' hb ⟨⟩
      exact absurd hm' hne
    · rintro a ha m' hm' ⟨⟩
      exact absurd (hp.carried a ha _ hm') hne
  cases round with
  | ready r | claimed r =>
    refine ⟨h.targets_eq, ?_⟩
    rintro t ht m' hm' ⟨⟩
    exact absurd ⟨t, h.targets_eq.symm ▸ ht, hm'⟩ hm
  | posting p todo => exact ⟨hposts p h.1 hm, h.2⟩
  | awaiting p target carry answered todo =>
    refine ⟨hposts p h.1 hm, h.2.1, ?_⟩
    rintro - m' hm' ⟨⟩
    exact absurd ((h.2.1 _ List.mem_cons_self).2 _ hm') hm
  | recording p | clearing p => exact hposts p h hm
  | idle | tipRead | claimRead | counting | finished | gone => trivial

/-- **A reorg whose marker nobody holds.** -/
theorem telling_reorg (h : Agents.Holds (AnnounceDb.Telling targets) (Round.Telling targets) c)
    (hunheard : UnheardMarker c (lowerReorg c.shared.pendingReorg v)) :
    Agents.Holds (AnnounceDb.Telling targets) (Round.Telling targets)
      ⟨{ c.shared with
          pendingReorg := some (lowerReorg c.shared.pendingReorg v)
          log := .reorg v :: c.shared.log }, c.agent⟩ := by
  obtain ⟨hS, hK⟩ := h
  refine ⟨⟨hS.targets_eq, ?_, ?_⟩, fun i => (hK i).reorg (hunheard.2 i) _⟩
  · intro later v' earlier hlog habove t ht
    have hbelow := habove _ rfl
    cases later with
    | nil =>
      -- the reorg itself is not below its own marker
      cases hlog
      exact absurd hbelow (Nat.not_lt.mpr (lowerReorg_le _ _))
    | cons e later =>
      obtain ⟨-, hlog⟩ := List.cons.inj hlog
      obtain ⟨tip, r, hr, hmem⟩ := hS.told later v' earlier hlog
        (fun m hm => hbelow.trans_le (hm ▸ lowerReorg_le_of_some m v)) t ht
      exact ⟨tip, r, hr, List.mem_cons_of_mem _ hmem⟩
  · rintro t ht m hm ⟨⟩
    exact absurd hm (hunheard.1 t (hS.targets_eq.symm ▸ ht))

/-- **One step keeps the invariant.** -/
theorem telling_step (hurls : (targets.map (·.url)).Nodup)
    (h : Agents.Holds (AnnounceDb.Telling targets) (Round.Telling targets) c)
    (hs : TellingStep c c') :
    Agents.Holds (AnnounceDb.Telling targets) (Round.Telling targets) c' := by
  obtain ⟨hstep, htargets, hunheard⟩ := hs
  have hI := reorgMarker_inductive hurls
  cases hstep with
  | act i hact => exact (hI.step (.act c i hact) h).1
  | outside hout =>
    cases hout with
    | reorg height => exact telling_reorg h (hunheard height rfl)
    | tip tip => exact (hI.step (.outside c (.tip _ tip)) h).1
    | configure targets' token =>
      have hquiet := (hI.step (.outside c (.configure _ token)) h).1
      rwa [← show targets' = c.shared.targets from htargets] at hquiet
    | tick now later => exact (hI.step (.outside c (.tick _ now)) h).1
    | late target body posted => exact (hI.step (.outside c (.late _ target body)) h).1

/-- **A reorg is told before its marker is cleared**, in every run of any number of rounds
where each reorg leaves a marker that no target's record holds and no round has read. -/
theorem reorgsTold_of_unheard (token : String) (hurls : (targets.map (·.url)).Nodup)
    (h : Relation.ReflTransGen TellingStep (AnnounceDb.init targets token) c) :
    c.shared.ReorgsTold := by
  suffices hholds : Agents.Holds (AnnounceDb.Telling targets) (Round.Telling targets) c from
    hholds.1.told
  induction h with
  | refl =>
    refine ⟨⟨rfl, ?_, nofun⟩, fun _ => trivial⟩
    intro later v earlier hlog
    cases later <;> cases hlog
  | tail _ hs ih => exact telling_step hurls ih hs

end Reorgs

/-! ### Runs -/

section Runs

/-- A round's own step is a step of a telling run. -/
theorem tellingStep_act {c c' : Agents.Config AnnounceDb Round}
    (hs : Agents.Step RoundStep (fun _ _ => False) c c') : TellingStep c c' := by
  cases hs with
  | outside h => exact h.elim
  | act i h =>
    refine ⟨.act c i h, ?_⟩
    obtain ⟨htargets, -, -, hlog, -⟩ := roundStep_frame h
    exact ⟨htargets, fun v h => absurd h (hlog v)⟩

/-- A tip and a reorg, before any round. -/
def AnnounceDb.reorged : AnnounceDb :=
  { AnnounceDb.fresh [aTarget] "bearer" with
    tip := some ⟨9, "00a1"⟩, pendingReorg := some 5, log := [.reorg 5] }

theorem reorged_run : Relation.ReflTransGen TellingStep (AnnounceDb.init [aTarget] "bearer")
    (.ofList .idle .reorged [.idle, .idle]) := by
  rw [show [Round.idle, .idle] = List.replicate 2 .idle from rfl, Agents.Config.ofList_idle]
  refine .tail (.tail .refl ⟨.outside _ (.tip _ ⟨9, "00a1"⟩), rfl, fun v h => ?_⟩)
    ⟨.outside _ (.reorg _ 5), rfl, fun v h => ⟨fun t _ => nofun, fun i => id⟩⟩
  cases h

theorem reorged_round : ∃ round, Agents.Alone RoundStep (AnnounceDb.reorged, .idle)
    (AnnounceDb.reorged.afterRound (TipKey.mk 9 "00a1").announced aTarget, round) :=
  ⟨_, round_alone rfl rfl (by decide) rfl nofun⟩

/-- The round told, a next tip, and a reorg at the same height. -/
def AnnounceDb.reorgedAgain : AnnounceDb :=
  { AnnounceDb.reorged.afterRound (TipKey.mk 9 "00a1").announced aTarget with
    tip := some ⟨10, "00b2"⟩, pendingReorg := some 5
    log := [.reorg 5, .accepted aTarget ⟨(TipKey.mk 9 "00a1").announced, some 5⟩, .reorg 5] }

/-- A reorg and a round that tells it: its target accepted a body with the fork, and the
marker is clear. -/
theorem reorgsTold_round : ∃ c, Relation.ReflTransGen TellingStep
    (AnnounceDb.init [aTarget] "bearer") c ∧ c.shared.pendingReorg = none ∧
    c.shared.log = [.accepted aTarget ⟨(TipKey.mk 9 "00a1").announced, some 5⟩, .reorg 5] ∧
    c.shared.ReorgsTold := by
  obtain ⟨round, halone⟩ := reorged_round
  have hround : Agents.Runs RoundStep (fun _ _ => False)
      (.ofList .idle .reorged [.idle, .idle]) _ :=
    Agents.Runs.alone .refl 0 (by decide) halone
  have htelling := reorged_run.trans
    (Relation.ReflTransGen.mono (fun _ _ => tellingStep_act) _ _ hround)
  exact ⟨_, htelling, rfl, rfl, reorgsTold_of_unheard "bearer" (by decide) htelling⟩

/-- **A reorg that no one is told of**: two reorgs at one height, a round after each. The
target has heard the fork of the first, so the second round carries nothing and clears
the marker. -/
theorem reorg_untold : ∃ c, AnnounceRuns (AnnounceDb.init [aTarget] "bearer") c ∧
    ¬c.shared.ReorgsTold := by
  have hrun : AnnounceRuns _ _ := Relation.ReflTransGen.mono (fun _ _ h => h.1) _ _ reorged_run
  obtain ⟨round, hfirst⟩ := reorged_round
  have htold := Agents.Runs.alone hrun 0 (by decide) hfirst
  have hreorg := (htold.outsides (.tip _ ⟨10, "00b2"⟩)).outsides (.reorg _ 5)
  have hsecond := round_alone (s := .reorgedAgain) rfl rfl (by decide) rfl (by decide)
  refine ⟨_, Agents.Runs.alone hreorg 1 Nat.one_lt_two hsecond, fun h => ?_⟩
  obtain ⟨tip, r, -, hmem⟩ := h [_] 5 _ rfl nofun aTarget List.mem_cons_self
  cases List.mem_singleton.mp hmem

end Runs

end Chaintracks

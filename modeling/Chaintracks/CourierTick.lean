import Chaintracks.Couriers
import Chaintracks.Regtest
import Chaintracks.Library.FailOver

/-!
# A tick on the courier ladder

In one tick the ladder is asked for the chain's tip, for headers by their height and by their
hash, and at its end for the headers of the tips its rungs announced; the parents of such a
header are asked for by hash before the next rung's turn (`Chaintracks.LadderTick.observeTip`,
`Chaintracks.Action.questions`). The questions share what each rung has faulted in the tick,
the rung preferred and the start of the rotation.

Whatever the rungs answer, an answer is bound to its question, no rung is asked after its third
fault, none is asked twice in one question, and a question put to the ladder fails only once
every rung not skipped was asked and faulted (`Chaintracks.ladder_fails_over`). The question for
an announced tip is put to the rung that announced it and to no other, so it fails with that
rung (`Chaintracks.announced_tip_asks_alone`).
-/

namespace Chaintracks

/-! ### The questions of a tick -/

/-- `WocChainInfo`. -/
structure WocChainInfo where
  blocks : Nat
  bestBlockHash : Option String

/-- A tip no chain has: above the heights of the store, or with a hash that is not sixty-four
hex digits. -/
def WocChainInfo.malformed (info : WocChainInfo) : Bool :=
  2 ^ 31 - 1 < info.blocks || !info.bestBlockHash.all fun hash =>
    (asBytes hash).length == 64 && (asBytes hash).all fun b => (Hash32.hexDigit b).isSome

/-- A ladder in its tick: with the tip each rung was last observed at. -/
structure LadderTick where
  ladder : CourierLadder
  observed : Nat → Option WocChainInfo

/-- `CourierLadder::new`. -/
def LadderTick.new (names : List String) (start : Nat) : LadderTick where
  ladder :=
    { rungs := names.map fun name => { name }
      start := start % names.length }
  observed _ := none

namespace LadderTick

variable (params : ChainParams) (tick : LadderTick)

/-- The tips of the rungs in an order, the highest so far kept. -/
def chainInfoLoop (answers : Nat → Except String WocChainInfo) :
    List Nat → Option (Nat × WocChainInfo) → LadderTick → Option (Nat × WocChainInfo) × LadderTick
  | [], best, tick => (best, tick)
  | i :: is, best, tick =>
    match answers i with
    | .ok info =>
      chainInfoLoop answers is
        (if best.all fun b => b.2.blocks < info.blocks then some (i, info) else best)
        { ladder := tick.ladder.noteOk i
          observed := fun j => if j = i then some info else tick.observed j }
    | .error e =>
      chainInfoLoop answers is best
        { tick with ladder := tick.ladder.noteFault i "chain info" e }

/-- `chain_info`: every rung is asked, the highest tip wins, and its rung is preferred. -/
def chainInfo (answers : Nat → Except String WocChainInfo) : Except String WocChainInfo × LadderTick :=
  match chainInfoLoop answers tick.ladder.order none tick with
  | (some (i, info), after) =>
    (.ok info, { after with ladder := { after.ladder with preferred := some i } })
  | (none, after) => (.error (after.ladder.allFaulted "chain info"), after)

/-- The turn of a rung in `finish_observations`: the header of the tip it announced, unless the
store holds it checked (`stored`) or the rung is skipped. A malformed tip is a fault. -/
def observeTip (i : Nat) (stored : Bool) (answers : CourierAnswers) :
    Option (Except String BlockHeader) × LadderTick :=
  match tick.observed i with
  | none => (none, tick)
  | some info =>
    if info.malformed then
      (none, { tick with ladder := tick.ladder.noteFault i "tip observation" "malformed tip" })
    else if stored || tick.ladder.skips i then (none, tick)
    else match tick.ladder.advertisedTip params answers i info.blocks info.bestBlockHash with
      | .ok header => (some (.ok header), { tick with ladder := tick.ladder.noteOk i })
      | .error e =>
        (some (.error e), { tick with ladder := tick.ladder.noteFault i "advertised tip" e })

end LadderTick

/-- A question of a tick, with what the rungs answer to it. -/
inductive Question
  | chainInfo (answers : Nat → Except String WocChainInfo)
  | byHeight (height : Nat) (answers : CourierAnswers)
  | byHash (hash : String) (answers : CourierAnswers)
  /-- The header of the tip a rung announced. -/
  | tip (rung : Nat) (stored : Bool) (answers : CourierAnswers)

/-- What a question is answered. -/
inductive Reply
  | info (answer : Except String WocChainInfo)
  | header (answer : Except String BlockHeader)
  /-- A tip that needs no question. -/
  | silent

/-- The reply is an error. -/
def Reply.failed : Reply → Bool
  | info (.error _) | header (.error _) => true
  | _ => false

namespace Question

variable (params : ChainParams) (tick : LadderTick)

/-- A question put in a tick. -/
def run : Question → Reply × LadderTick
  | chainInfo answers => let (answer, after) := tick.chainInfo answers; (.info answer, after)
  | byHeight height answers =>
    let (answer, ladder) := tick.ladder.headerByHeight params answers height
    (.header answer, { tick with ladder })
  | byHash hash answers =>
    let (answer, ladder) := tick.ladder.headerByHash params answers hash
    (.header answer, { tick with ladder })
  | tip rung stored answers =>
    match tick.observeTip params rung stored answers with
    | (some answer, after) => (.header answer, after)
    | (none, after) => (.silent, after)

/-- The questions put to the ladder, not to one rung of it. -/
def ofLadder : Question → Bool
  | tip .. => false
  | _ => true

/-- The ticks a run of questions is put in. -/
def askAll : LadderTick → List Question → List (Question × LadderTick)
  | _, [] => []
  | tick, q :: qs => (q, tick) :: askAll (q.run params tick).2 qs

/-- The tick after a run of questions. -/
def after (tick : LadderTick) (qs : List Question) : LadderTick :=
  qs.foldl (fun tick q => (q.run params tick).2) tick

end Question

/-! ### The end of a tick -/

/-- The turn of one rung in `finish_observations`: whether the store holds its tip checked, the
rungs' answers, and the parents the ingestion of its header walks through, with the answers
to each. -/
structure Turn where
  stored : Bool
  answers : CourierAnswers
  walk : List (String × CourierAnswers)

/-- What is done in a tick: a question to the ladder, or `finish_observations`. -/
inductive Action
  | chainInfo (answers : Nat → Except String WocChainInfo)
  | byHeight (height : Nat) (answers : CourierAnswers)
  | byHash (hash : String) (answers : CourierAnswers)
  | finishObservations (turns : Nat → Turn)

namespace Action

variable (params : ChainParams)

/-- The questions of the turns of some rungs: the tip's, and where it is answered with a header
the parents' of that header. -/
def turnQuestions (turns : Nat → Turn) : List Nat → LadderTick → List Question
  | [], _ => []
  | i :: is, tick =>
    let tip := Question.tip i (turns i).stored (turns i).answers
    let walk := match (tip.run params tick).1 with
      | .header (.ok _) => (turns i).walk.map fun asked => Question.byHash asked.1 asked.2
      | _ => []
    (tip :: walk) ++ turnQuestions turns is (Question.after params tick (tip :: walk))

/-- The questions of an action. -/
def questions (tick : LadderTick) : Action → List Question
  | chainInfo answers => [.chainInfo answers]
  | byHeight height answers => [.byHeight height answers]
  | byHash hash answers => [.byHash hash answers]
  | finishObservations turns =>
    turnQuestions params turns (List.range tick.ladder.rungs.length) tick

/-- The questions of a tick's actions, each with the tick it is put in. -/
def asked : LadderTick → List Action → List (Question × LadderTick)
  | _, [] => []
  | tick, act :: acts =>
    Question.askAll params tick (act.questions params tick) ++
      asked (Question.after params tick (act.questions params tick)) acts

end Action

/-! ### What a rung is asked -/

/-- What befalls a rung in a tick: it is asked, and faults or not, or its tip is malformed. -/
inductive RungEvent
  | asked (rung : Nat) (faulted : Bool)
  | malformed (rung : Nat)
  deriving DecidableEq

namespace RungEvent

/-- The rung of an event. -/
def rung : RungEvent → Nat
  | asked rung _ | malformed rung => rung

/-- The event is a fault of a rung. -/
def faultOf (i : Nat) : RungEvent → Bool
  | asked rung faulted => rung == i && faulted
  | malformed rung => rung == i

end RungEvent

/-- The rung faulted the question. -/
def faulted {α : Type} : Except String α → Bool
  | .ok _ => false
  | .error _ => true

/-- The rungs asked for a header, one after the other until one answers. -/
def askedInTurn (answers : CourierAnswers) (order : List Nat) : List RungEvent :=
  (FailOver.tried answers order).map fun i => .asked i (faulted (answers i))

/-- What befalls the rungs in a question. -/
def Question.events (params : ChainParams) (tick : LadderTick) : Question → List RungEvent
  | chainInfo answers => tick.ladder.order.map fun i => .asked i (faulted (answers i))
  | byHeight height answers =>
    askedInTurn (fun i => answers i >>= boundByHeight params (tick.ladder.nameOf i) height)
      tick.ladder.order
  | byHash hash answers =>
    askedInTurn (fun i => answers i >>= boundByHash params (tick.ladder.nameOf i) hash)
      tick.ladder.order
  | tip i stored answers =>
    match tick.observed i with
    | none => []
    | some info =>
      if info.malformed then [.malformed i]
      else if stored || tick.ladder.skips i then []
      else [.asked i (faulted
        (tick.ladder.advertisedTip params answers i info.blocks info.bestBlockHash))]

/-! ### The order of the rungs -/

namespace CourierLadder

section Order

variable {ladder : CourierLadder} {i j : Nat} {what e : String}

/-- How often a rung has faulted. -/
def faultsAt (ladder : CourierLadder) (i : Nat) : Nat :=
  ((ladder.rungs[i]?).map (·.faults)).getD 0

theorem skips_eq_false : ladder.skips i = false ↔
    i < ladder.rungs.length ∧ ladder.faultsAt i < rungFaultCap := by
  rw [skips, faultsAt]
  cases h : ladder.rungs[i]? with
  | none =>
    have := List.getElem?_eq_none_iff.mp h
    simp only [Option.all_none, Bool.true_eq_false, false_iff]
    omega
  | some rung =>
    have := (List.getElem?_eq_some_iff.mp h).1
    simp only [Option.all_some, Rung.skipped, Option.map_some, Option.getD_some,
      decide_eq_false_iff_not]
    omega

/-- The rotation adds the rungs that are not skipped, each once. -/
theorem mem_rotation {ks out : List Nat} {n : Nat} :
    i ∈ ks.foldl (fun out k =>
        let r := (ladder.start + k) % n
        if r ∉ out ∧ ladder.skips r = false then out ++ [r] else out) out ↔
      i ∈ out ∨ ladder.skips i = false ∧ ∃ k ∈ ks, (ladder.start + k) % n = i := by
  induction ks generalizing out with
  | nil => simp
  | cons k ks ih =>
    rw [List.foldl_cons, ih]
    dsimp only
    by_cases hk : (ladder.start + k) % n = i
    · subst hk
      by_cases hout : (ladder.start + k) % n ∈ out
      · simp [hout]
      · cases hskip : ladder.skips ((ladder.start + k) % n) <;> simp [hout]
    · split
      · simp [hk, Ne.symm hk]
      · simp [hk]

theorem nodup_rotation {ks out : List Nat} {n : Nat} (h : out.Nodup) :
    (ks.foldl (fun out k =>
        let r := (ladder.start + k) % n
        if r ∉ out ∧ ladder.skips r = false then out ++ [r] else out) out).Nodup := by
  induction ks generalizing out with
  | nil => exact h
  | cons k ks ih =>
    rw [List.foldl_cons]
    refine ih ?_
    dsimp only
    split
    · rename_i hnew
      rw [List.nodup_append]
      refine ⟨h, List.nodup_singleton _, ?_⟩
      rintro a ha b hb rfl
      rw [List.mem_singleton] at hb
      exact hnew.1 (hb ▸ ha)
    · exact h

/-- **The rungs asked are those not skipped.** -/
theorem mem_order : i ∈ ladder.order ↔ ladder.skips i = false := by
  rw [order, mem_rotation]
  constructor
  · rintro (hfirst | ⟨hskip, -⟩)
    · simpa using (List.mem_filter.mp hfirst).2
    · exact hskip
  · rintro hskip
    have hlt := (skips_eq_false.mp hskip).1
    refine .inr ⟨hskip, (i + (ladder.rungs.length - ladder.start % ladder.rungs.length)) %
      ladder.rungs.length, List.mem_range.mpr (Nat.mod_lt _ (by omega)), ?_⟩
    have hstart := Nat.mod_lt ladder.start (show 0 < ladder.rungs.length by omega)
    have hsum : ladder.start % ladder.rungs.length +
        (i + (ladder.rungs.length - ladder.start % ladder.rungs.length)) =
          i + ladder.rungs.length := by omega
    rw [Nat.add_mod_mod, ← Nat.mod_add_mod, hsum, Nat.add_mod_right, Nat.mod_eq_of_lt hlt]

/-- Each is asked once. -/
theorem nodup_order : ladder.order.Nodup := by
  refine nodup_rotation ?_
  cases ladder.preferred with
  | none => exact List.nodup_nil
  | some p => exact (List.nodup_singleton p).filter _

/-! ### The counts of faults -/

theorem faultsAt_noteOk : (ladder.noteOk i).faultsAt j = ladder.faultsAt j := by
  rw [faultsAt, faultsAt, noteOk, List.getElem?_modify]
  cases ladder.rungs[j]? with
  | none => rfl
  | some rung => by_cases hij : i = j <;> simp [hij]

theorem faultsAt_noteFault (hj : j < ladder.rungs.length) :
    (ladder.noteFault i what e).faultsAt j = ladder.faultsAt j + if i = j then 1 else 0 := by
  rw [faultsAt, faultsAt, noteFault, List.getElem?_modify, List.getElem?_eq_getElem hj]
  by_cases hij : i = j <;> simp [hij]

theorem length_noteOk : (ladder.noteOk i).rungs.length = ladder.rungs.length :=
  List.length_modify ..

theorem length_noteFault : (ladder.noteFault i what e).rungs.length = ladder.rungs.length :=
  List.length_modify ..

end Order

end CourierLadder

/-! ### One question -/

/-- What a question leaves of the rungs: as many, each with the faults that befell it. -/
structure Tracks (tick tick' : LadderTick) (events : List RungEvent) : Prop where
  length : tick'.ladder.rungs.length = tick.ladder.rungs.length
  faults : ∀ j < tick.ladder.rungs.length, tick'.ladder.faultsAt j =
    tick.ladder.faultsAt j + events.countP (RungEvent.faultOf j)

section Asking

variable {params : ChainParams} {tick tick' tick'' : LadderTick} {ladder : CourierLadder} {i j : Nat}
  {what : String} {answers : CourierAnswers} {order : List Nat} {header : BlockHeader}
  {events events' : List RungEvent}

theorem Tracks.refl : Tracks tick tick [] := ⟨rfl, fun _ _ => rfl⟩

theorem Tracks.trans (h : Tracks tick tick' events) (h' : Tracks tick' tick'' events') :
    Tracks tick tick'' (events ++ events') where
  length := h'.length.trans h.length
  faults j hj := by
    rw [h'.faults j (h.length ▸ hj), h.faults j hj, List.countP_append, Nat.add_assoc]

/-- The first answer of the ladder is the first answer of its rungs. -/
theorem firstAnswer_eq_ok : (CourierLadder.firstAnswer what answers order ladder).1 = .ok header ↔
    FailOver.ask answers order = some header := by
  induction order generalizing ladder with
  | nil => exact ⟨fun h => (by cases h), fun h => (by cases h)⟩
  | cons i is ih =>
    rw [CourierLadder.firstAnswer]
    cases h : answers i with
    | ok a =>
      rw [FailOver.ask_cons_ok h]
      exact ⟨fun h => (by cases h; rfl), fun h => (by cases h; rfl)⟩
    | error e =>
      rw [FailOver.ask_cons_error h]
      exact ih

/-- The rungs asked keep their count. -/
theorem firstAnswer_tracks {observed : Nat → Option WocChainInfo} :
    Tracks ⟨ladder, observed⟩
      ⟨(CourierLadder.firstAnswer what answers order ladder).2, observed⟩
      (askedInTurn answers order) := by
  induction order generalizing ladder with
  | nil => exact .refl
  | cons i is ih =>
    rw [CourierLadder.firstAnswer, askedInTurn]
    cases h : answers i with
    | ok a =>
      rw [FailOver.tried_cons_ok h]
      refine ⟨CourierLadder.length_noteOk, fun j _ => ?_⟩
      simp [CourierLadder.faultsAt_noteOk, h, faulted, RungEvent.faultOf]
    | error e =>
      rw [FailOver.tried_cons_error h, List.map_cons]
      have hfirst : Tracks ⟨ladder, observed⟩ ⟨ladder.noteFault i what e, observed⟩
          [.asked i (faulted (answers i))] := by
        have hfault : faulted (answers i) = true := by rw [h, faulted]
        refine ⟨CourierLadder.length_noteFault, fun j hj => ?_⟩
        rw [CourierLadder.faultsAt_noteFault hj, hfault]
        by_cases hij : i = j <;> simp [hij, RungEvent.faultOf]
      exact hfirst.trans ih

section Tips

variable {tips : Nat → Except String WocChainInfo} {best : Option (Nat × WocChainInfo)}
  {info : WocChainInfo}

/-- The tip kept is the highest of the rungs' tips. -/
theorem chainInfoLoop_best : (LadderTick.chainInfoLoop tips order best tick).1 =
    FailOver.best (·.blocks) tips order best := by
  induction order generalizing best tick with
  | nil => rfl
  | cons i is ih =>
    rw [LadderTick.chainInfoLoop, FailOver.best]
    cases tips i with
    | ok info => exact ih
    | error e => exact ih

theorem chainInfoLoop_tracks : Tracks tick (LadderTick.chainInfoLoop tips order best tick).2
    (order.map fun i => .asked i (faulted (tips i))) := by
  induction order generalizing best tick with
  | nil => exact .refl
  | cons i is ih =>
    rw [LadderTick.chainInfoLoop, List.map_cons]
    cases h : tips i with
    | ok info =>
      refine @Tracks.trans _ _ _ [.asked i false] _ ⟨CourierLadder.length_noteOk, fun j _ => ?_⟩ ih
      simp [CourierLadder.faultsAt_noteOk, RungEvent.faultOf]
    | error e =>
      refine @Tracks.trans _ _ _ [.asked i true] _
        ⟨CourierLadder.length_noteFault, fun j hj => ?_⟩ ih
      dsimp only
      rw [CourierLadder.faultsAt_noteFault hj]
      by_cases hij : i = j <;> simp [hij, RungEvent.faultOf]

/-- The tip answered is some rung's, and no rung's is higher. -/
theorem chainInfo_eq_ok (h : (tick.chainInfo tips).1 = .ok info) :
    (∃ i ∈ tick.ladder.order, tips i = .ok info) ∧
      ∀ i ∈ tick.ladder.order, ∀ other, tips i = .ok other → other.blocks ≤ info.blocks := by
  rw [LadderTick.chainInfo] at h
  split at h
  · rename_i i top after hloop
    cases h
    have hbest : FailOver.best (·.blocks) tips tick.ladder.order none = some (i, info) := by
      rw [← @chainInfoLoop_best tick, hloop]
    rcases FailOver.best_mem hbest with hnone | ⟨hi, hanswer⟩
    · cases hnone
    · exact ⟨⟨i, hi, hanswer⟩, (FailOver.le_best hbest).2⟩
  · cases h

/-- No tip is answered where every rung asked faulted. -/
theorem chainInfo_eq_error {e : String} (h : (tick.chainInfo tips).1 = .error e) :
    ∀ i ∈ tick.ladder.order, faulted (tips i) = true := by
  rw [LadderTick.chainInfo] at h
  split at h
  · cases h
  · rename_i after hloop
    have hbest : FailOver.best (·.blocks) tips tick.ladder.order none = none := by
      rw [← @chainInfoLoop_best tick, hloop]
    intro i hi
    obtain ⟨e, he⟩ := (FailOver.best_eq_none hbest).2 i hi
    rw [he, faulted]

theorem chainInfo_tracks : Tracks tick (tick.chainInfo tips).2
    (tick.ladder.order.map fun i => .asked i (faulted (tips i))) := by
  have h := @chainInfoLoop_tracks tick tick.ladder.order tips none
  rw [LadderTick.chainInfo]
  split
  · rename_i i info after hloop
    rw [hloop] at h
    exact ⟨h.length, h.faults⟩
  · rename_i after hloop
    rw [hloop] at h
    exact h

end Tips

/-- **A question notes the faults that befell in it**, and nothing else. -/
theorem Question.tracks (question : Question) :
    Tracks tick (question.run params tick).2 (question.events params tick) := by
  cases question with
  | chainInfo tips => exact chainInfo_tracks
  | byHeight height answers => exact firstAnswer_tracks
  | byHash hash answers => exact firstAnswer_tracks
  | tip i stored answers =>
    rw [Question.run, Question.events, LadderTick.observeTip]
    cases hobs : tick.observed i with
    | none => exact .refl
    | some info =>
      dsimp only
      by_cases hmal : info.malformed = true
      · rw [if_pos hmal, if_pos hmal]
        refine ⟨CourierLadder.length_noteFault, fun j hj => ?_⟩
        dsimp only
        rw [CourierLadder.faultsAt_noteFault hj]
        by_cases hij : i = j <;> simp [hij, RungEvent.faultOf]
      · rw [if_neg hmal, if_neg hmal]
        by_cases hskip : (stored || tick.ladder.skips i) = true
        · rw [if_pos hskip, if_pos hskip]
          exact .refl
        · rw [if_neg hskip, if_neg hskip]
          cases tick.ladder.advertisedTip params answers i info.blocks info.bestBlockHash with
          | ok header =>
            refine ⟨CourierLadder.length_noteOk, fun j _ => ?_⟩
            simp [CourierLadder.faultsAt_noteOk, faulted, RungEvent.faultOf]
          | error e =>
            refine ⟨CourierLadder.length_noteFault, fun j hj => ?_⟩
            dsimp only
            rw [CourierLadder.faultsAt_noteFault hj]
            by_cases hij : i = j <;> simp [hij, faulted, RungEvent.faultOf]

theorem rungs_askedInTurn :
    (askedInTurn answers order).map RungEvent.rung = FailOver.tried answers order := by
  rw [askedInTurn, List.map_map]
  exact List.map_id _

/-- In a question no rung is met twice. -/
theorem Question.once (question : Question) :
    ((question.events params tick).map RungEvent.rung).Nodup := by
  cases question with
  | chainInfo tips =>
    rw [Question.events, List.map_map]
    exact (List.map_id _).symm ▸ CourierLadder.nodup_order
  | byHeight height answers =>
    rw [Question.events, rungs_askedInTurn]
    exact FailOver.tried_nodup CourierLadder.nodup_order
  | byHash hash answers =>
    rw [Question.events, rungs_askedInTurn]
    exact FailOver.tried_nodup CourierLadder.nodup_order
  | tip i stored answers =>
    rw [Question.events]
    split
    · exact List.nodup_nil
    · split
      · exact List.nodup_singleton _
      · split
        · exact List.nodup_nil
        · exact List.nodup_singleton _

theorem of_mem_askedInTurn {f : Bool} (h : .asked i f ∈ askedInTurn answers order) : i ∈ order := by
  obtain ⟨j, hj, heq⟩ := List.mem_map.mp h
  cases heq
  exact FailOver.tried_prefix.subset hj

/-- Only rungs that are not skipped are asked. -/
theorem Question.unskipped {question : Question} {f : Bool}
    (h : .asked i f ∈ question.events params tick) : tick.ladder.skips i = false := by
  cases question with
  | chainInfo tips =>
    obtain ⟨j, hj, heq⟩ := List.mem_map.mp h
    cases heq
    exact CourierLadder.mem_order.mp hj
  | byHeight height answers => exact CourierLadder.mem_order.mp (of_mem_askedInTurn h)
  | byHash hash answers => exact CourierLadder.mem_order.mp (of_mem_askedInTurn h)
  | tip rung stored answers =>
    rw [Question.events] at h
    split at h
    · cases h
    · split at h
      · cases List.mem_singleton.mp h
      · split at h
        · cases h
        · rename_i hskip
          cases List.mem_singleton.mp h
          rw [Bool.or_eq_true, not_or] at hskip
          exact Bool.eq_false_iff.mpr hskip.2

/-- A question that goes from rung to rung fails only once it has met every one of them. -/
theorem askedInTurn_of_failed {e : String}
    (h : (CourierLadder.firstAnswer what answers order ladder).1 = .error e) (hi : i ∈ order) :
    .asked i true ∈ askedInTurn answers order := by
  have hnone : FailOver.ask answers order = none := by
    cases hask : FailOver.ask answers order with
    | none => rfl
    | some header =>
      rw [firstAnswer_eq_ok.mpr hask] at h
      cases h
  obtain ⟨htried, hall⟩ := FailOver.tried_of_ask_eq_none hnone
  obtain ⟨e', he'⟩ := hall i hi
  refine List.mem_map.mpr ⟨i, htried.symm ▸ hi, ?_⟩
  rw [he', faulted]

/-- The header a reply binds: at the height, or with the hash, that was asked for; a tip's as it
was announced. -/
def Question.Binds (tick : LadderTick) (header : BlockHeader) : Question → Prop
  | chainInfo _ => True
  | byHeight height _ => header.height = height
  | byHash hash _ => eqIgnoreAsciiCase header.hash hash = true
  | tip rung _ _ => ∀ info, tick.observed rung = some info → header.height = info.blocks ∧
      ∀ hash, info.bestBlockHash = some hash → eqIgnoreAsciiCase header.hash hash = true

theorem advertisedTip_binds {height : Nat} {hash : Option String}
    (h : ladder.advertisedTip params answers i height hash = .ok header) :
    (header.height = height ∧ ∀ want, hash = some want →
      eqIgnoreAsciiCase header.hash want = true) ∧ checkPow params header = .ok () := by
  obtain ⟨served, -, hbound⟩ := Except.bind_eq_ok.mp h
  rw [boundByTip] at hbound
  split at hbound
  · cases hbound
  · rename_i hmatch
    obtain ⟨rfl, hpow⟩ := bindAnswer_ok hbound
    rw [not_or, not_not] at hmatch
    refine ⟨⟨hmatch.1, ?_⟩, hpow⟩
    rintro want rfl
    simpa using hmatch.2

/-- **What holds of one question**, in any tick. -/
structure FailsOver (params : ChainParams) (question : Question) (tick : LadderTick) : Prop where
  /-- A header is bound to the question, and proves its work. -/
  bound : ∀ header, (question.run params tick).1 = .header (.ok header) →
    question.Binds tick header ∧ checkPow params header = .ok ()
  /-- No rung is asked twice. -/
  once : ((question.events params tick).map RungEvent.rung).Nodup
  /-- The ladder fails where every rung not skipped was asked and faulted. -/
  all : question.ofLadder = true → (question.run params tick).1.failed = true →
    ∀ i, tick.ladder.skips i = false → .asked i true ∈ question.events params tick
  /-- A tip's question fails where its own rung was asked and faulted. -/
  own : ∀ i stored answers, question = .tip i stored answers →
    (question.run params tick).1.failed = true → question.events params tick = [.asked i true]
  /-- The tip answered is the highest of those answered. -/
  highest : ∀ tips info, question = .chainInfo tips →
    (question.run params tick).1 = .info (.ok info) →
      (∃ i, .asked i false ∈ question.events params tick ∧ tips i = .ok info) ∧
        ∀ i, .asked i false ∈ question.events params tick → ∀ other, tips i = .ok other →
          other.blocks ≤ info.blocks

theorem Question.bound (question : Question)
    (h : (question.run params tick).1 = .header (.ok header)) :
    question.Binds tick header ∧ checkPow params header = .ok () := by
  cases question with
  | chainInfo tips => cases h
  | byHeight height answers => exact CourierLadder.headerByHeight_ok (Reply.header.inj h)
  | byHash hash answers => exact CourierLadder.headerByHash_ok (Reply.header.inj h)
  | tip i stored answers =>
    rw [Question.run, LadderTick.observeTip] at h
    cases hobs : tick.observed i with
    | none =>
      rw [hobs] at h
      cases h
    | some info =>
      rw [hobs] at h
      dsimp only at h
      split at h
      · rename_i answer after heq
        split at heq
        · cases heq
        · split at heq
          · cases heq
          · split at heq
            · rename_i served hserved
              cases heq
              cases h
              obtain ⟨hbinds, hpow⟩ := advertisedTip_binds hserved
              refine ⟨fun other hother => ?_, hpow⟩
              cases hobs.symm.trans hother
              exact hbinds
            · cases heq
              cases h
      · cases h

theorem Question.all (question : Question) (hladder : question.ofLadder = true)
    (hfailed : (question.run params tick).1.failed = true) (hi : tick.ladder.skips i = false) :
    .asked i true ∈ question.events params tick := by
  have horder := CourierLadder.mem_order.mpr hi
  cases question with
  | chainInfo tips =>
    cases hinfo : (tick.chainInfo tips).1 with
    | ok info =>
      rw [Question.run] at hfailed
      dsimp only at hfailed
      rw [hinfo] at hfailed
      cases hfailed
    | error e =>
      exact List.mem_map.mpr ⟨i, horder, by rw [chainInfo_eq_error hinfo i horder]⟩
  | byHeight height answers =>
    cases hanswer : (tick.ladder.headerByHeight params answers height).1 with
    | ok header =>
      rw [Question.run] at hfailed
      dsimp only at hfailed
      rw [hanswer] at hfailed
      cases hfailed
    | error e => exact askedInTurn_of_failed hanswer horder
  | byHash hash answers =>
    cases hanswer : (tick.ladder.headerByHash params answers hash).1 with
    | ok header =>
      rw [Question.run] at hfailed
      dsimp only at hfailed
      rw [hanswer] at hfailed
      cases hfailed
    | error e => exact askedInTurn_of_failed hanswer horder
  | tip => cases hladder

theorem Question.own {stored : Bool}
    (hfailed : ((Question.tip i stored answers).run params tick).1.failed = true) :
    (Question.tip i stored answers).events params tick = [.asked i true] := by
  rw [Question.run, LadderTick.observeTip] at hfailed
  rw [Question.events]
  cases hobs : tick.observed i with
  | none =>
    rw [hobs] at hfailed
    cases hfailed
  | some info =>
    rw [hobs] at hfailed
    dsimp only at hfailed ⊢
    by_cases hmal : info.malformed = true
    · rw [if_pos hmal] at hfailed
      cases hfailed
    · rw [if_neg hmal] at hfailed ⊢
      by_cases hskip : (stored || tick.ladder.skips i) = true
      · rw [if_pos hskip] at hfailed
        cases hfailed
      · rw [if_neg hskip] at hfailed ⊢
        cases hanswer : tick.ladder.advertisedTip params answers i info.blocks
            info.bestBlockHash with
        | ok header =>
          rw [hanswer] at hfailed
          cases hfailed
        | error e => rw [faulted]

/-- Every question of every tick fails over. -/
theorem failsOver (question : Question) : FailsOver params question tick where
  bound _ := question.bound
  once := question.once
  all hladder hfailed _ := question.all hladder hfailed
  own := by
    rintro i stored answers rfl hfailed
    exact Question.own hfailed
  highest := by
    rintro tips info rfl hinfo
    obtain ⟨⟨i, hi, htip⟩, hall⟩ := chainInfo_eq_ok (Reply.info.inj hinfo)
    refine ⟨⟨i, List.mem_map.mpr ⟨i, hi, by rw [htip, faulted]⟩, htip⟩, ?_⟩
    rintro j hj other hother
    have hskip := @Question.unskipped params tick j (.chainInfo tips) false hj
    exact hall j (CourierLadder.mem_order.mpr hskip) other hother

end Asking

/-! ### The whole tick -/

section Run

variable {params : ChainParams} {tick : LadderTick} {i : Nat} {f : Bool}

theorem askAll_append (qs qs' : List Question) : Question.askAll params tick (qs ++ qs') =
    Question.askAll params tick qs ++
      Question.askAll params (Question.after params tick qs) qs' := by
  induction qs generalizing tick with
  | nil => rfl
  | cons q qs ih =>
    rw [List.cons_append, Question.askAll, Question.askAll, ih]
    rfl

/-- The actions of a tick are questions one after the other, the parents' of an announced tip
between its own and the next rung's. -/
theorem asked_eq_askAll (acts : List Action) :
    ∃ qs, Action.asked params tick acts = Question.askAll params tick qs := by
  induction acts generalizing tick with
  | nil => exact ⟨[], rfl⟩
  | cons act acts ih =>
    obtain ⟨qs, hqs⟩ := @ih (Question.after params tick (act.questions params tick))
    exact ⟨act.questions params tick ++ qs, by rw [Action.asked, hqs, askAll_append]⟩

/-- A rung met once in a question was not met before it there. -/
theorem countP_eq_zero {before after : List RungEvent}
    (h : ((before ++ .asked i f :: after).map RungEvent.rung).Nodup) :
    before.countP (RungEvent.faultOf i) = 0 := by
  refine List.countP_eq_zero.mpr fun event hevent hfault => ?_
  have hrung : event.rung = i := by
    cases event <;> simp [RungEvent.faultOf] at hfault <;> simp [RungEvent.rung, hfault]
  rw [List.map_append, List.nodup_append] at h
  exact h.2.2 event.rung (List.mem_map_of_mem hevent) i List.mem_cons_self hrung

/-- **A rung is asked only while it has faults left**, counting those before the questions and
those among them. -/
theorem askAll_capped (qs : List Question) {before after : List RungEvent}
    (h : (Question.askAll params tick qs).flatMap (fun a => a.1.events params a.2) =
      before ++ .asked i f :: after) :
    i < tick.ladder.rungs.length ∧
      tick.ladder.faultsAt i + before.countP (RungEvent.faultOf i) < rungFaultCap := by
  induction qs generalizing tick before with
  | nil => cases before <;> cases h
  | cons q qs ih =>
    rw [Question.askAll, List.flatMap_cons] at h
    have htracks := @Question.tracks params tick q
    rcases List.append_eq_append_iff.mp h with ⟨mid, hbefore, hrest⟩ | ⟨mid, hevents, hrest⟩
    · -- the rung is asked in a later question
      obtain ⟨hlt, hcap⟩ := ih hrest
      rw [htracks.length] at hlt
      rw [htracks.faults i hlt] at hcap
      rw [hbefore, List.countP_append, ← Nat.add_assoc]
      exact ⟨hlt, hcap⟩
    · cases mid with
      | nil =>
        rw [List.append_nil] at hevents
        obtain ⟨hlt, hcap⟩ := @ih (q.run params tick).2 [] hrest.symm
        rw [htracks.length] at hlt
        rw [htracks.faults i hlt, hevents] at hcap
        exact ⟨hlt, by simpa using hcap⟩
      | cons event mid =>
        -- it is asked in this one, where nothing befell it before
        obtain rfl : RungEvent.asked i f = event := (List.cons.inj hrest).1
        have hskip := @Question.unskipped params tick i q f
          (by rw [hevents]; exact List.mem_append_right _ List.mem_cons_self)
        have hzero := @countP_eq_zero i f before mid (by rw [← hevents]; exact q.once)
        rw [hzero]
        exact CourierLadder.skips_eq_false.mp hskip

theorem faultsAt_new (names : List String) (start : Nat) :
    (LadderTick.new names start).ladder.faultsAt i = 0 := by
  rw [CourierLadder.faultsAt, LadderTick.new]
  dsimp only
  rw [List.getElem?_map]
  cases names[i]? <;> rfl

/-- **The ladder fails over, and its answers are bound**, in every tick: whatever rungs it has
and wherever it starts, whatever is asked and answered in between. A rung is asked while it
has faulted less than three times in the tick; and of each question
`Chaintracks.FailsOver` holds. -/
theorem ladder_fails_over (params : ChainParams) (names : List String) (start : Nat)
    (acts : List Action) :
    (∀ asked ∈ Action.asked params (LadderTick.new names start) acts,
        FailsOver params asked.1 asked.2) ∧
      ∀ before i f after,
        (Action.asked params (LadderTick.new names start) acts).flatMap
            (fun asked => asked.1.events params asked.2) = before ++ .asked i f :: after →
          before.countP (RungEvent.faultOf i) < rungFaultCap := by
  refine ⟨fun asked _ => failsOver asked.1, ?_⟩
  rintro before i f after h
  obtain ⟨qs, hqs⟩ := @asked_eq_askAll params (LadderTick.new names start) acts
  rw [hqs] at h
  have hcap := (askAll_capped qs h).2
  rwa [faultsAt_new, Nat.zero_add] at hcap

/-! ### An announced tip -/

/-- The announced tip of the first of two rungs, which does not serve its header. -/
def silentTip : List Action :=
  [.chainInfo fun _ => .ok ⟨7, none⟩,
    .finishObservations fun _ => ⟨false, fun _ => .error "HTTP 503", []⟩]

/-- **An announced tip is asked of its own rung alone**: it goes unanswered with another rung
neither skipped nor asked. -/
theorem announced_tip_asks_alone : ¬∀ (params : ChainParams) (names : List String) (start : Nat)
    (acts : List Action), ∀ asked ∈ Action.asked params (LadderTick.new names start) acts,
      (asked.1.run params asked.2).1.failed = true → ∀ i, asked.2.ladder.skips i = false →
        .asked i true ∈ asked.1.events params asked.2 := by
  rintro hall
  have hasked := hall Regtest.params ["woc", "arcade"] 0 silentTip _
    (List.mem_cons_of_mem _ List.mem_cons_self) rfl 1 rfl
  have halone : RungEvent.asked 1 true ∉ [RungEvent.asked 0 true] := by decide
  exact halone hasked

end Run

end Chaintracks

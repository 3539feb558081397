import Chaintracks.Runs
import Chaintracks.Regtest

/-!
# The judgment without a write

A request for a block above the tip reads the headers up to it from a courier and has
them judged on the stored chain (`judge_above`), without a write; only a run that
passed is handed on to a writer. The rules are the batch's, written a second time: the
proof of work of each header, the run linked, its first header on a stored parent, the
checkpoints and the bits against the stored ancestry and the run so far.

The two can only part where the batch knows more than the judgment: a run vouched for by
an anchor inside it, a checkpoint above it that the store holds, a rival of one of its
headers. A run whose first header stands one above the flagged tip meets none of them
(`Chaintracks.planBatch_of_judgeAbove`), so the batch refuses it exactly as it was judged
(`Chaintracks.judgment_agrees`).
-/

namespace Chaintracks

open HeaderRows

/-- `Judged`. -/
inductive Judged
  /-- Every header passed. -/
  | passed
  /-- A header failed a rule. -/
  | refused (fault : Fault)
  /-- The rules could not be read here. -/
  | unjudged (why : String)
  deriving DecidableEq

section Judgment

variable (params : ChainParams)

/-! ### The judgment -/

/-- The context rules on each header of a run, against the stored ancestry and the run so
far; an ancestor that is not stored leaves the run unjudged. -/
def judgeContext (stored : List BlockHeader) : List BlockHeader → List BlockHeader → Judged
  | _, [] => .passed
  | run, header :: headers =>
    match checkContext params (Window.new params.bsv ((stored ++ run).map (·.link))) header with
    | .ok () => judgeContext stored (run ++ [header]) headers
    | .error (.ancestryMissing height) =>
      .unjudged (Fault.refused header (.ancestryMissing height)).text
    | .error fault => .refused (.refused header fault)

/-- `judge_above`. -/
def judgeAbove (rows : List HeaderRow) : List BlockHeader → Judged
  | [] => .unjudged "nothing was fetched"
  | first :: rest =>
    match checkPowAll params (first :: rest) with
    | .error fault => .refused fault
    | .ok () =>
      match checkLinked (first :: rest) with
      | .error fault => .refused fault
      | .ok () =>
        match (headerForHash rows first.previousHash).filter fun p =>
          p.isActive && p.height + 1 == first.height with
        | none => .unjudged ("the header at " ++ toString first.height ++
            " does not stand on the active row below it")
        | some parent =>
          judgeContext params ((loadChain rows parent (batchDepth params first (first :: rest))).map
            (·.toBlockHeader)) [] (first :: rest)

/-! ### The read-through -/

/-- `Fetched`. -/
structure ReadThrough.Fetched where
  run : List BlockHeader := []
  answer : Option BlockHeader := none
  hand : Bool := false

/-- The headers of `n` heights from `height` on, up to the one no courier has. -/
def fetchRun (env : Env) : Nat → Nat → Writer (List BlockHeader)
  | 0, _ => pure []
  | n + 1, height => do
    match ← Prog.attempt (askCourier fun k => env.headerByHeight k height) with
    | .ok header => do
      let rest ← fetchRun env n (height + 1)
      pure (header :: rest)
    | .error _ => pure []

/-- `read_through`. -/
def readThrough (env : Env) (tip height : Nat) : Writer ReadThrough.Fetched := do
  let run ← fetchRun env (height - tip) (tip + 1)
  match run.getLast? with
  | none => pure {}
  | some last => do
    let rows ← readRows
    let answer := if last.height = height then some last else none
    pure (match judgeAbove params rows run with
      | .passed => { run, answer, hand := true }
      | .unjudged _ => { run }
      | .refused _ => { run })

end Judgment

section Lemmas

variable {params : ChainParams} {rows : List HeaderRow} {tip : HeaderRow} {first : BlockHeader}
  {rest : List BlockHeader} {env : Env} {w : World}

/-! ### What the batch makes of a judged run -/

/-- Above the flagged tip no held checkpoint stands. -/
theorem storedCheckpointAbove_of_tip_lt {height : Nat} (h : tip.height < height) :
    storedCheckpointAbove rows params height (some tip) = none := by
  rw [storedCheckpointAbove, Option.map_eq_none_iff, List.find?_eq_none]
  intro c hc hcond
  have habove := List.mem_takeWhile_imp hc
  rw [Bool.and_eq_true, decide_eq_true_eq] at hcond
  rw [decide_eq_true_eq] at habove
  omega

/-- **The context rules, twice**: on a run that nothing vouches for, below no held
checkpoint, the batch goes as the judgment does. -/
theorem judgeRun_of_judgeContext {lastHeight : Nat} {stored : List BlockHeader}
    (run headers : List BlockHeader) :
    (judgeContext params stored run headers = .passed →
      ∃ entries, judgeRun params rows first lastHeight none none stored run headers =
        .ok entries) ∧
    ∀ fault, judgeContext params stored run headers = .refused fault →
      judgeRun params rows first lastHeight none none stored run headers = .error fault := by
  induction headers generalizing run with
  | nil => exact ⟨fun _ => ⟨[], rfl⟩, fun fault h => by cases h⟩
  | cons header headers ih =>
    rw [judgeContext, judgeRun]
    cases hc : checkContext params
        (Window.new params.bsv ((stored ++ run).map (·.link))) header with
    | ok u =>
      -- both go on with the header in the window
      obtain ⟨hpassed, hrefused⟩ := ih (run ++ [header])
      have hentry : checkInRun params none stored run header =
          .ok (.passed stored run header) := by
        rw [checkInRun, hc]
        rfl
      rw [checkNotBelow, hentry]
      refine ⟨fun h => ?_, fun fault h => ?_⟩
      · obtain ⟨entries, he⟩ := hpassed h
        exact ⟨.passed stored run header :: entries, Except.bind_eq_ok.mpr ⟨(), rfl,
          Except.bind_eq_ok.mpr ⟨_, rfl, Except.bind_eq_ok.mpr ⟨entries, he, rfl⟩⟩⟩⟩
      · have he := hrefused fault h
        change (judgeRun params rows first lastHeight none none stored (run ++ [header]) headers >>=
          fun entries => pure (.passed stored run header :: entries)) = _
        rw [he]
        rfl
    | error f =>
      have hentry : checkInRun params none stored run header = .error (.refused header f) := by
        rw [checkInRun, hc]
        rfl
      rw [checkNotBelow, hentry]
      refine ⟨fun h => ?_, fun fault h => ?_⟩
      · cases f <;> cases h
      · cases f <;> cases h <;> rfl

/-- **A run judged above the tip**: passed, the batch writes it in bulk; refused, the batch
refuses it with the same fault. -/
theorem planBatch_of_judgeAbove (htip : chainTip rows = some tip)
    (hfirst : first.height = tip.height + 1) :
    (judgeAbove params rows (first :: rest) = .passed →
      ∃ entries chunks, planBatch params rows first (first :: rest) =
        .ok (entries, .bulk chunks)) ∧
    ∀ fault, judgeAbove params rows (first :: rest) = .refused fault →
      planBatch params rows first (first :: rest) = .error fault := by
  have hbelow : storedCheckpointAbove rows params first.height (chainTip rows) = none := by
    rw [htip]
    exact storedCheckpointAbove_of_tip_lt (by omega)
  rw [judgeAbove, planBatch]
  cases hpow : checkPowAll params (first :: rest) with
  | error e =>
    refine ⟨fun h => ?_, fun fault h => ?_⟩ <;> cases h
    rfl
  | ok u =>
    cases hlinked : checkLinked (first :: rest) with
    | error e =>
      refine ⟨fun h => ?_, fun fault h => ?_⟩ <;> cases h
      rfl
    | ok u' =>
      cases hparent : (headerForHash rows first.previousHash).filter fun p =>
          p.isActive && p.height + 1 == first.height with
      | none => refine ⟨fun h => ?_, fun fault h => ?_⟩ <;> cases h
      | some parent =>
        obtain ⟨hfound, hstands⟩ := Option.filter_eq_some_iff.mp hparent
        rw [Bool.and_eq_true, beq_iff_eq] at hstands
        obtain ⟨hactive, hheight⟩ := hstands
        have hground : batchGround params rows first (first :: rest)
            (((first :: rest).getLast?.map (·.height)).getD first.height) =
            .ok ((loadChain rows parent (batchDepth params first (first :: rest))).map
              (·.toBlockHeader), none) := by
          rw [batchGround, hfound]
          dsimp only
          rw [checkExtends, if_pos hheight.symm]
          rfl
        obtain ⟨hpassed, hrefused⟩ := @judgeRun_of_judgeContext params rows first
          (((first :: rest).getLast?.map (·.height)).getD first.height)
          ((loadChain rows parent (batchDepth params first (first :: rest))).map
            (·.toBlockHeader)) [] (first :: rest)
        change (_ → ∃ entries chunks, (batchGround params rows first (first :: rest) _ >>= _) = _) ∧
          ∀ fault, _ → (batchGround params rows first (first :: rest) _ >>= _) = _
        rw [hground, hbelow]
        -- nothing active stands where the run goes, so it is no rival's
        have hlive : ((headerForHash rows first.previousHash).any (fun p => !p.isActive) ||
            (chainTip rows).any fun t => decide (first.height ≤ t.height)) = false := by
          rw [hfound, htip]
          simp [hactive, hfirst]
        refine ⟨fun h => ?_, fun fault h => ?_⟩
        · obtain ⟨entries, he⟩ := hpassed h
          refine ⟨entries, packGroups ((runWork params
              (((headerForHash rows first.previousHash).map (·.chainWork)).getD 0) none
              (first :: rest)).map fun w => headerStmts ((inactiveHashesBetween rows first.height
                (((first :: rest).getLast?.map (·.height)).getD first.height)).map
                  toAsciiLowercase) w.1 w.2) [], ?_⟩
          change (judgeRun params rows first _ none none _ [] (first :: rest) >>= _) = _
          rw [he]
          change Except.ok (entries, if (_ && _) = true then BatchPlan.live else _) = _
          rw [hlive]
          rfl
        · change (judgeRun params rows first _ none none _ [] (first :: rest) >>= _) = _
          rw [hrefused fault h]
          rfl

theorem checkPowAll_error {headers : List BlockHeader} {fault : Fault}
    (h : checkPowAll params headers = .error fault) :
    ∃ header ∈ headers, ∃ rule, fault = .refused header rule := by
  induction headers with
  | nil => cases h
  | cons header headers ih =>
    rw [checkPowAll] at h
    cases hc : checkPow params header with
    | error rule =>
      rw [hc] at h
      cases h
      exact ⟨header, List.mem_cons_self, rule, rfl⟩
    | ok u =>
      rw [hc] at h
      obtain ⟨x, hx, rule, he⟩ := ih h
      exact ⟨x, List.mem_cons_of_mem _ hx, rule, he⟩

theorem checkLinked_error {headers : List BlockHeader} {fault : Fault}
    (h : checkLinked headers = .error fault) :
    ∃ header ∈ headers, ∃ rule, fault = .refused header rule := by
  induction headers using checkLinked.induct with
  | case1 a b headers hbroken =>
    rw [checkLinked, if_pos hbroken] at h
    cases h
    exact ⟨b, by simp, _, rfl⟩
  | case2 a b headers hlinked ih =>
    rw [checkLinked, if_neg hlinked] at h
    obtain ⟨x, hx, rule, he⟩ := ih h
    exact ⟨x, List.mem_cons_of_mem _ hx, rule, he⟩
  | case3 headers hshort =>
    rw [checkLinked.eq_2 headers hshort] at h
    cases h

theorem judgeContext_refused {stored run headers : List BlockHeader} {fault : Fault}
    (h : judgeContext params stored run headers = .refused fault) :
    ∃ header ∈ headers, ∃ rule, fault = .refused header rule := by
  induction headers generalizing run with
  | nil => cases h
  | cons header headers ih =>
    rw [judgeContext] at h
    cases hc : checkContext params
        (Window.new params.bsv ((stored ++ run).map (·.link))) header with
    | ok u =>
      rw [hc] at h
      obtain ⟨x, hx, rule, he⟩ := ih h
      exact ⟨x, List.mem_cons_of_mem _ hx, rule, he⟩
    | error rule =>
      rw [hc] at h
      refine ⟨header, List.mem_cons_self, rule, ?_⟩
      cases rule <;> cases h <;> rfl

/-- **A refusal names its rule and its header.** -/
theorem judgeAbove_refused {headers : List BlockHeader} {fault : Fault}
    (h : judgeAbove params rows headers = .refused fault) :
    ∃ header ∈ headers, ∃ rule, fault = .refused header rule := by
  cases headers with
  | nil => cases h
  | cons first rest =>
    rw [judgeAbove] at h
    cases hpow : checkPowAll params (first :: rest) with
    | error e =>
      rw [hpow] at h
      cases h
      exact checkPowAll_error hpow
    | ok u =>
      rw [hpow] at h
      cases hlinked : checkLinked (first :: rest) with
      | error e =>
        rw [hlinked] at h
        cases h
        exact checkLinked_error hlinked
      | ok u' =>
        rw [hlinked] at h
        cases hparent : (headerForHash rows first.previousHash).filter fun p =>
            p.isActive && p.height + 1 == first.height with
        | none =>
          rw [hparent] at h
          cases h
        | some parent =>
          rw [hparent] at h
          exact judgeContext_refused h

/-- The transactions of a batch fail only where the database refuses one. -/
theorem eachCommit_error {chunks : List (List Stmt)} {fault : Fault} {w' : World}
    (h : Prog.each (commit env) chunks w = (.error fault, w')) : fault = .database := by
  induction chunks generalizing w with
  | nil => cases h
  | cons chunk chunks ih =>
    rcases Prog.bind_cases h with ⟨e, hchunk, he⟩ | ⟨u, w₁, -, hrest⟩
    · cases he
      rcases commit_cases hchunk with ⟨-, he, -⟩ | ⟨-, he, -⟩
      · cases he
        rfl
      · cases he
    · exact ih hrest

/-! ### The read-through -/

theorem fetchRun_db {n height : Nat} {run : List BlockHeader} {w' : World}
    (h : fetchRun env n height w = (.ok run, w')) : w'.db = w.db := by
  induction n generalizing height run w with
  | zero =>
    cases h
    rfl
  | succ n ih =>
    rw [fetchRun, Prog.attempt_bind_apply] at h
    cases hask : (askCourier (fun k => env.headerByHeight k height) w).1 with
    | error e =>
      rw [hask] at h
      cases h
      rfl
    | ok header =>
      rw [hask] at h
      obtain ⟨rest, w₁, hrest, hlast⟩ := Prog.bind_eq_ok h
      cases hlast
      have hdb := ih hrest
      exact hdb

/-- **The read-through** writes nothing, and hands on only a run that passed on the store
as it stands. -/
theorem readThrough_hand {tip height : Nat} {fetched : ReadThrough.Fetched} {w' : World}
    (h : readThrough params env tip height w = (.ok fetched, w')) :
    w'.db = w.db ∧ (fetched.hand = true → judgeAbove params w.db.rows fetched.run = .passed) := by
  obtain ⟨run, w₁, hfetch, h⟩ := Prog.bind_eq_ok h
  have hdb := fetchRun_db hfetch
  cases hlast : run.getLast? with
  | none =>
    rw [hlast] at h
    cases h
    exact ⟨hdb, fun hhand => absurd hhand Bool.false_ne_true⟩
  | some last =>
    rw [hlast] at h
    dsimp only at h
    rw [readRows, Prog.read_bind_apply, hdb] at h
    cases h
    refine ⟨hdb, fun hhand => ?_⟩
    cases hjudged : judgeAbove params w.db.rows run with
    | passed => exact hjudged
    | refused fault =>
      rw [hjudged] at hhand
      cases hhand
    | unjudged why =>
      rw [hjudged] at hhand
      cases hhand

end Lemmas

/-- **The judgment agrees with the writer**: for a run from one above the flagged tip, where
it passes, the batch fails only where the database refuses a transaction; where it is
refused, the batch refuses it with the same rule at the same header and leaves the world as
it was. -/
theorem judgment_agrees (params : ChainParams) (w : World) (tip : HeaderRow) (first : BlockHeader)
    (rest : List BlockHeader) (htip : chainTip w.db.rows = some tip)
    (hfirst : first.height = tip.height + 1) :
    (judgeAbove params w.db.rows (first :: rest) = .passed → ∀ env fault w',
      insertHeadersBatch env params (first :: rest) w = (.error fault, w') → fault = .database) ∧
    ∀ fault, judgeAbove params w.db.rows (first :: rest) = .refused fault →
      (∃ header ∈ first :: rest, ∃ rule, fault = .refused header rule) ∧ ∀ env,
        insertHeadersBatch env params (first :: rest) w = (.error fault, w) := by
  obtain ⟨hpassed, hrefused⟩ := @planBatch_of_judgeAbove params w.db.rows tip first rest htip hfirst
  refine ⟨fun h env fault w' hrun => ?_,
    fun fault h => ⟨judgeAbove_refused h, fun env => ?_⟩⟩
  · obtain ⟨entries, chunks, hplan⟩ := hpassed h
    rw [insertHeadersBatch, insertRun, readRows, Prog.read_bind_apply, hplan,
      Prog.ofExcept_ok_bind_apply, Prog.bind_ok (each_note_apply entries w)] at hrun
    rcases Prog.bind_cases hrun with ⟨e, hchunks, he⟩ | ⟨u, w₁, -, hlast⟩
    · cases he
      exact eachCommit_error hchunks
    · cases hlast
  · rw [insertHeadersBatch, insertRun, readRows, Prog.read_bind_apply, hrefused fault h]
    rfl

open Regtest in
/-- `Chaintracks.judgment_agrees` over the genesis: a run of two blocks passes, and only the
database can keep the batch from writing it; a run that does not link is refused, and so does
the batch. -/
theorem judgment_agrees_genesis :
    (∀ env fault w', insertHeadersBatch env params [a1, a2]
      (runAll host params [.insertHeader genesis] .init) = (.error fault, w') →
        fault = .database) ∧
    ∀ env, insertHeadersBatch env params [a1, b2]
      (runAll host params [.insertHeader genesis] .init) =
        (.error (.refused b2 (.prevNotFound b2.previousHash)),
          runAll host params [.insertHeader genesis] .init) := by
  have htip : chainTip (runAll host params [.insertHeader genesis] .init).db.rows =
      some ⟨genesis, ⟨none, true, true, 2⟩, 1⟩ := by decide +kernel
  exact ⟨(judgment_agrees params _ _ a1 [a2] htip rfl).1 (by decide +kernel),
    ((judgment_agrees params _ _ a1 [b2] htip rfl).2 _ (by decide +kernel)).2⟩

end Chaintracks

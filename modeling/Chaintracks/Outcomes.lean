import Chaintracks.Insert

/-!
# What a call of the live path leaves

A call of `insert_header` or `relink_orphan_and_reevaluate` ends in one of a few ways: in
an error before anything was written, or after one or two or three transactions, each
refused or committed. `Chaintracks.Settled` lists the ways the tip's move can end,
`Chaintracks.Inserted` and `Chaintracks.Relinking` those of the two calls, each with the
answer given and the store left. What is proved of a call's answer is proved by cases on
them. A call answers where the database takes what it hands over and its reorg is planned;
`Chaintracks.answers_letIn` says when that is, on the table it is called on.
-/

namespace Chaintracks

open HeaderRows

section Outcomes

variable (env : Env) (params : ChainParams)

/-- No reorg is called for: there is no tip, or the header stands on it. -/
def StandsOnTip (new : LinkedHeader) (tip : Option HeaderRow) : Prop :=
  ∀ t, tip = some t → new.previousHash = t.hash

/-- **How the tip's move can end** where the insertion did not make it. -/
inductive Settled (new : LinkedHeader) (tip : Option HeaderRow) (w : World) :
    Except Fault Nat → World → Prop
  /-- No common ancestor, or the first transaction was refused. -/
  | failed (fault : Fault) (w' : World) (same : w'.db = w.db)
      (why : env.accepts w.asked = false ∨
        ∃ t, tip = some t ∧ planReorg w.db.rows new t.linked = .error fault) :
      Settled new tip w (.error fault) w'
  /-- On the tip, or into an empty store: the tip alone moves. -/
  | moved (now : Nat) (w' : World) (stands : StandsOnTip new tip)
      (left : w'.db = execAll now (moveTipTxn new.hash) w.db) :
      Settled new tip w (.ok 0) w'
  /-- A reorg that took rows off the active chain. -/
  | reorged (t : HeaderRow) (plan : ReorgPlan) (now : Nat) (w' : World)
      (flagged : tip = some t) (apart : new.previousHash ≠ t.hash)
      (planned : planReorg w.db.rows new t.linked = .ok plan) (takes : plan.deactivated ≠ 0)
      (left : w'.db = execAll now (plan.txn new.hash) w.db) :
      Settled new tip w (.ok plan.deactivated) w'
  /-- A reorg that took none off, and the tip move that follows it, refused or not. -/
  | crowned (t : HeaderRow) (plan : ReorgPlan) (now : Nat) (w₁ w' : World)
      (answer : Except Fault Unit) (flagged : tip = some t) (apart : new.previousHash ≠ t.hash)
      (planned : planReorg w.db.rows new t.linked = .ok plan) (takes : plan.deactivated = 0)
      (first : w₁.db = execAll now (plan.txn new.hash) w.db)
      (second : answer = .error .database ∧ env.accepts w₁.asked = false ∧ w'.db = w₁.db ∨
        ∃ now', answer = .ok () ∧ w'.db = execAll now' (moveTipTxn new.hash) w₁.db) :
      Settled new tip w (answer.map fun _ => 0) w'

/-- **How `insert_header` can end.** -/
inductive Inserted (header : BlockHeader) (w : World) :
    Except Fault InsertHeaderResult → World → Prop
  /-- Refused by a rule, or by the database. -/
  | failed (fault : Fault) (w' : World) (same : w'.db = w.db)
      (why : (∃ n, env.accepts n = false) ∨ refusing header (checkPow params header) = .error fault ∨
        admission params w.db.rows header = .error fault) :
      Inserted header w (.error fault) w'
  /-- Stored before. -/
  | dupe (row : HeaderRow) (found : headerForHash w.db.rows header.hash = some row) :
      Inserted header w (.ok { dupe := true }) w
  /-- Stored now, by its one transaction. -/
  | stored (a : Admission) (now : Nat) (w' : World) (pow : checkPow params header = .ok ())
      (fresh : headerForHash w.db.rows header.hash = none)
      (admitted : admission params w.db.rows header = .ok a)
      (alone : a.becomesTip = a.isActive header)
      (left : w'.db = execAll now (a.txn header) w.db) :
      Inserted header w (.ok (a.result header)) w'
  /-- Stored inactive now, then the tip's move. -/
  | settled (a : Admission) (now : Nat) (w₁ w' : World) (answer : Except Fault Nat)
      (pow : checkPow params header = .ok ())
      (fresh : headerForHash w.db.rows header.hash = none)
      (admitted : admission params w.db.rows header = .ok a)
      (takes : a.becomesTip = true) (beside : a.isActive header = false)
      (first : w₁.db = execAll now (a.txn header) w.db)
      (second : Settled env header.linked a.tip w₁ answer w') :
      Inserted header w (answer.map fun reorgDepth => { a.result header with reorgDepth }) w'

/-- The transaction of a relink. -/
def relinkTxn (stored parent : HeaderRow) (chainWork : Nat) : List Stmt :=
  [.relinkHeader (some parent.headerId) chainWork stored.headerId]

/-- **How `relink_orphan_and_reevaluate` can end.** -/
inductive Relinking (hash : String) (w : World) : Except Fault InsertHeaderResult → World → Prop
  | failed (fault : Fault) (w' : World) (same : w'.db = w.db)
      (why : (∃ n, env.accepts n = false) ∨ planRelink params w.db.rows hash = .error fault) :
      Relinking hash w (.error fault) w'
  | unknown (planned : planRelink params w.db.rows hash = .ok .unknown) :
      Relinking hash w (.ok {}) w
  | noParent (planned : planRelink params w.db.rows hash = .ok .noParent) :
      Relinking hash w (.ok { dupe := true, noPrev := true }) w
  /-- Linked; it does not outwork the tip. -/
  | linked (stored parent : HeaderRow) (chainWork now : Nat) (w' : World)
      (planned : planRelink params w.db.rows hash = .ok (.link stored parent chainWork))
      (left : w'.db = execAll now (relinkTxn stored parent chainWork) w.db)
      (stays : relinkTakesTip (chainTip w'.db.rows) chainWork = false) :
      Relinking hash w (.ok { dupe := true }) w'
  /-- Linked; it outworks the tip. -/
  | settled (stored parent : HeaderRow) (chainWork now : Nat) (w₁ w' : World)
      (answer : Except Fault Nat)
      (planned : planRelink params w.db.rows hash = .ok (.link stored parent chainWork))
      (first : w₁.db = execAll now (relinkTxn stored parent chainWork) w.db)
      (takes : relinkTakesTip (chainTip w₁.db.rows) chainWork = true)
      (second : Settled env ⟨stored.toBlockHeader, some parent.headerId⟩ (chainTip w₁.db.rows) w₁
        answer w') :
      Relinking hash w
        (answer.map fun reorgDepth => { dupe := true, isActiveTip := true, reorgDepth }) w'

end Outcomes

section Cases

variable {env : Env} {params : ChainParams} {w w' : World} {header : BlockHeader}
  {a : Admission} {new : LinkedHeader} {tip : Option HeaderRow}

theorem settleTip_cases {answer : Except Fault Nat}
    (h : settleTip env new tip false w = (answer, w')) : Settled env new tip w answer w' := by
  have hmove : ∀ {s s' : World} {x : Except Fault Unit}, moveTipAlone env new.hash 0 false s = (x, s') →
      x = .error .database ∧ env.accepts s.asked = false ∧ s'.db = s.db ∨
        ∃ now, x = .ok () ∧ s'.db = execAll now (moveTipTxn new.hash) s.db := by
    intro s s' x hx
    rcases commit_cases (hx : commit env (moveTipTxn new.hash) s = (x, s')) with
      ⟨hacc, rfl, hdb⟩ | ⟨-, rfl, hdb⟩
    · exact .inl ⟨rfl, hacc, hdb⟩
    · exact .inr ⟨_, rfl, hdb⟩
  unfold settleTip at h
  by_cases hreorg : ∃ t, tip = some t ∧ new.previousHash ≠ t.hash
  · obtain ⟨t, rfl, hne⟩ := hreorg
    have hdef : reorgOnto env new (some t) = handleReorg env new t.linked := if_pos hne
    rw [hdef] at h
    cases hplan : planReorg w.db.rows new t.linked with
    | error fault =>
      have hfail : handleReorg env new t.linked w = (.error fault, w) := by
        unfold handleReorg readRows
        rw [Prog.read_bind_apply, hplan, Prog.ofExcept_error_bind_apply]
      rw [Prog.bind_error hfail] at h
      cases h
      exact .failed fault w rfl (.inr ⟨t, rfl, hplan⟩)
    | ok plan =>
      have hrun : handleReorg env new t.linked w =
          (do commit env (plan.txn new.hash); pure plan.deactivated : Writer Nat) w := by
        unfold handleReorg readRows
        rw [Prog.read_bind_apply, hplan, Prog.ofExcept_ok_bind_apply]
      cases hacc : env.accepts w.asked with
      | false =>
        rw [Prog.bind_error (hrun.trans (Prog.bind_error (commit_refused _ hacc)))] at h
        cases h
        exact .failed _ _ rfl (.inl hacc)
      | true =>
        rw [Prog.bind_ok (hrun.trans (Prog.bind_ok (commit_ok _ hacc)))] at h
        by_cases hzero : plan.deactivated = 0
        · rw [hzero] at h
          rcases Prog.bind_cases h with ⟨e, hm, rfl⟩ | ⟨u, s, hm, h⟩
          · have := hmove hm
            exact .crowned t plan _ _ _ (.error e) rfl hne hplan hzero rfl this
          · have := hmove hm
            cases h
            exact .crowned t plan _ _ _ (.ok u) rfl hne hplan hzero rfl this
        · have hskip : moveTipAlone env new.hash plan.deactivated false = pure () :=
            if_neg fun hc => hzero hc.1
          rw [hskip] at h
          cases h
          exact .reorged t plan _ _ rfl hne hplan hzero rfl
  · have hstands : StandsOnTip new tip := by
      intro t ht
      by_contra hne
      exact hreorg ⟨t, ht, hne⟩
    have hdef : reorgOnto env new tip = pure 0 := by
      unfold reorgOnto
      split
      · exact if_neg (not_not_intro (hstands _ rfl))
      · rfl
    rw [hdef, Prog.pure_bind_apply] at h
    rcases Prog.bind_cases h with ⟨e, hm, rfl⟩ | ⟨u, s, hm, h⟩
    · rcases hmove hm with ⟨-, hacc, hdb⟩ | ⟨_, hok, -⟩
      · exact .failed e w' hdb (.inl hacc)
      · cases hok
    · cases h
      rcases hmove hm with ⟨herr, -⟩ | ⟨now, -, hdb⟩
      · cases herr
      · exact .moved now _ hstands hdb

/-- Where the insertion has moved the tip, nothing is left to settle. -/
theorem settleTip_of_extends (hact : a.isActive header = true) :
    settleTip env header.linked a.tip true = pure 0 := by
  have hext : a.extendsTip header = true := by
    rw [Admission.isActive, Bool.and_eq_true] at hact
    exact hact.2
  have hdef : reorgOnto env header.linked a.tip = pure 0 := by
    unfold reorgOnto
    unfold Admission.extendsTip at hext
    split
    · rename_i t ht
      rw [ht] at hext
      exact if_neg (not_not_intro (beq_iff_eq.mp hext))
    · rfl
  unfold settleTip
  rw [hdef]
  rfl

theorem insertHeader_cases {answer : Except Fault InsertHeaderResult}
    (h : insertHeader env params header w = (answer, w')) :
    Inserted env params header w answer w' := by
  unfold insertHeader readRows at h
  cases hpow : refusing header (checkPow params header) with
  | error fault =>
    rw [hpow, Prog.ofExcept_error_bind_apply] at h
    cases h
    exact .failed fault w rfl (.inr (.inl hpow))
  | ok u =>
    rw [hpow, Prog.ofExcept_ok_bind_apply, Prog.read_bind_apply] at h
    replace hpow : checkPow params header = .ok () := Except.mapError_eq_ok.mp hpow
    cases hdupe : headerForHash w.db.rows header.hash with
    | some row =>
      rw [if_pos (by rw [hdupe]; rfl)] at h
      cases h
      exact .dupe row hdupe
    | none =>
      rw [if_neg (by rw [hdupe]; exact Bool.false_ne_true)] at h
      cases hadm : admission params w.db.rows header with
      | error fault =>
        rw [hadm, Prog.ofExcept_error_bind_apply] at h
        cases h
        exact .failed fault w rfl (.inr (.inr hadm))
      | ok a =>
        rw [hadm, Prog.ofExcept_ok_bind_apply, Prog.bind_ok (each_note_apply _ w)] at h
        rcases Prog.bind_cases h with ⟨e, hc, rfl⟩ | ⟨_, w₁, hc, h⟩
        · rcases commit_cases hc with ⟨hacc, -, hdb⟩ | ⟨-, hok, -⟩
          · exact .failed e w' hdb (.inl ⟨_, hacc⟩)
          · cases hok
        · obtain ⟨-, rfl⟩ := commit_eq_ok hc
          by_cases htakes : a.becomesTip = true
          · rw [if_pos htakes] at h
            cases hact : a.isActive header with
            | true =>
              rw [hact, settleTip_of_extends hact, Prog.pure_bind_apply] at h
              cases h
              exact .stored a _ _ hpow hdupe hadm (htakes.trans hact.symm) rfl
            | false =>
              rw [hact] at h
              rcases Prog.bind_cases h with ⟨e, hm, rfl⟩ | ⟨depth, s, hm, h⟩
              · exact .settled a _ _ _ (.error e) hpow hdupe hadm htakes hact rfl
                  (settleTip_cases hm)
              · cases h
                exact .settled a _ _ _ (.ok depth) hpow hdupe hadm htakes hact rfl
                  (settleTip_cases hm)
          · rw [if_neg htakes] at h
            cases h
            have hnot : a.becomesTip = false := Bool.not_eq_true _ ▸ htakes
            refine .stored a _ _ hpow hdupe hadm ?_ rfl
            rw [Admission.isActive, hnot, Bool.false_and]

theorem relink_cases {hash : String} {answer : Except Fault InsertHeaderResult}
    (h : relinkOrphanAndReevaluate env params hash w = (answer, w')) :
    Relinking env params hash w answer w' := by
  unfold relinkOrphanAndReevaluate readRows at h
  rw [Prog.read_bind_apply] at h
  cases hplan : planRelink params w.db.rows hash with
  | error fault =>
    rw [hplan, Prog.ofExcept_error_bind_apply] at h
    cases h
    exact .failed fault w rfl (.inr hplan)
  | ok plan =>
    rw [hplan, Prog.ofExcept_ok_bind_apply] at h
    cases plan with
    | unknown =>
      cases h
      exact .unknown hplan
    | noParent =>
      cases h
      exact .noParent hplan
    | link stored parent chainWork =>
      dsimp only at h
      rw [note, Prog.update_bind_apply] at h
      rcases Prog.bind_cases h with ⟨e, hc, rfl⟩ | ⟨_, w₁, hc, h⟩
      · rcases commit_cases hc with ⟨hacc, -, hdb⟩ | ⟨-, hok, -⟩
        · exact .failed e w' hdb (.inl ⟨_, hacc⟩)
        · cases hok
      · obtain ⟨-, heq⟩ := commit_eq_ok hc
        have hdb : w₁.db = execAll (env.unixepoch w.asked) (relinkTxn stored parent chainWork) w.db := by
          rw [heq]
          rfl
        rw [Prog.read_bind_apply] at h
        split at h
        · rename_i htakes
          rcases Prog.bind_cases h with ⟨e, hm, rfl⟩ | ⟨depth, s, hm, h⟩
          · exact .settled stored parent chainWork _ _ _ (.error e) hplan hdb htakes
              (settleTip_cases hm)
          · cases h
            exact .settled stored parent chainWork _ _ _ (.ok depth) hplan hdb htakes
              (settleTip_cases hm)
        · rename_i hstays
          cases h
          exact .linked stored parent chainWork _ _ hplan hdb (Bool.not_eq_true _ ▸ hstays)

end Cases

/-! ### When a call answers -/

section Answering

variable (env : Env) (params : ChainParams)

/-- The database takes `count` transactions, from the `n`-th question on. -/
def takesAll (n count : Nat) : Bool := (List.range count).all fun i => env.accepts (n + i)

/-- The tip's move goes through: a reorg is planned and taken, and so is the tip move
where it takes no row off, or where there is no reorg. -/
def tipMoves (new : LinkedHeader) (tip : Option HeaderRow) (rows : List HeaderRow) (n : Nat) : Bool :=
  match tip with
  | some t =>
    if new.previousHash ≠ t.hash then
      match planReorg rows new t.linked with
      | .ok plan => env.accepts n && (plan.deactivated != 0 || env.accepts (n + 1))
      | .error _ => false
    else env.accepts n
  | none => env.accepts n

/-- The header is let in, and its first transaction taken. -/
def enters (header : BlockHeader) (w : World) : Bool :=
  (admission params w.db.rows header).isOk && env.accepts w.asked

/-- What `insert_header` does once it has let a header in. -/
def letIn (env : Env) (header : BlockHeader) (a : Admission) : Writer InsertHeaderResult :=
  if a.becomesTip then do
    let reorgDepth ← settleTip env header.linked a.tip (a.isActive header)
    pure { a.result header with reorgDepth }
  else pure (a.result header)

end Answering

section Answers

variable {env : Env} {params : ChainParams} {header : BlockHeader} {w : World}

theorem answers_commit {txn : List Stmt} :
    Prog.Answers (commit env txn) w ↔ env.accepts w.asked = true := by
  constructor
  · rintro ⟨u, w', h⟩
    exact (commit_eq_ok h).1
  · exact fun h => ⟨_, _, commit_ok txn h⟩

theorem takesAll_succ (n count : Nat) :
    takesAll env n (count + 1) = (env.accepts n && takesAll env (n + 1) count) := by
  simp [takesAll, List.range_succ_eq_map, List.all_map, Function.comp_def, Nat.add_right_comm,
    ← Nat.add_assoc]

/-- The chunks are all written where the database takes them all. -/
theorem answers_chunks {chunks : List (List Stmt)} :
    Prog.Answers (Prog.each (commit env) chunks) w ↔
      takesAll env w.asked chunks.length = true := by
  induction chunks generalizing w with
  | nil => exact ⟨fun _ => rfl, fun _ => Prog.answers_pure () w⟩
  | cons chunk chunks ih =>
    rw [Prog.each_cons, Prog.answers_bind, List.length_cons, takesAll_succ, Bool.and_eq_true]
    constructor
    · rintro ⟨u, w₁, hm, hrest⟩
      obtain ⟨hacc, rfl⟩ := commit_eq_ok hm
      exact ⟨hacc, ih.mp hrest⟩
    · rintro ⟨hacc, hrest⟩
      exact ⟨_, _, commit_ok chunk hacc, ih.mpr hrest⟩

theorem answers_moveTipAlone {hash : String} {depth : Nat} :
    Prog.Answers (moveTipAlone env hash depth false) w ↔
      depth ≠ 0 ∨ env.accepts w.asked = true := by
  by_cases hdepth : depth = 0
  · have hdef : moveTipAlone env hash depth false = commit env (moveTipTxn hash) :=
      if_pos ⟨hdepth, rfl⟩
    rw [hdef, answers_commit]
    exact ⟨.inr, fun h => h.resolve_left (absurd hdepth)⟩
  · have hdef : moveTipAlone env hash depth false = pure () := if_neg fun h => hdepth h.1
    rw [hdef]
    exact ⟨fun _ => .inl hdepth, fun _ => Prog.answers_pure () w⟩

/-- The tip's move answers exactly where it goes through. -/
theorem answers_settleTip {new : LinkedHeader} {tip : Option HeaderRow} :
    Prog.Answers (settleTip env new tip false) w ↔
      tipMoves env new tip w.db.rows w.asked = true := by
  have hmove : ∀ (depth : Nat) (s : World),
      Prog.Answers (do moveTipAlone env new.hash depth false; pure depth : Writer Nat) s ↔
        depth ≠ 0 ∨ env.accepts s.asked = true := by
    intro depth s
    rw [Prog.answers_bind, ← answers_moveTipAlone]
    exact ⟨fun ⟨u, s', hm, _⟩ => ⟨u, s', hm⟩,
      fun ⟨u, s', hm⟩ => ⟨u, s', hm, Prog.answers_pure depth s'⟩⟩
  have hstands : reorgOnto env new tip = pure 0 →
      (Prog.Answers (settleTip env new tip false) w ↔ env.accepts w.asked = true) := by
    intro hdef
    rw [settleTip, hdef, Prog.answers_bind]
    constructor
    · rintro ⟨depth, s, ⟨⟩, hrest⟩
      exact ((hmove 0 w).mp hrest).resolve_left (fun h => h rfl)
    · exact fun hacc => ⟨0, w, rfl, (hmove 0 w).mpr (.inr hacc)⟩
  cases tip with
  | none => exact hstands rfl
  | some t =>
    by_cases hne : new.previousHash ≠ t.hash
    · have hdef : reorgOnto env new (some t) = handleReorg env new t.linked := if_pos hne
      rw [tipMoves, if_pos hne, settleTip, hdef, Prog.answers_bind]
      cases hplan : planReorg w.db.rows new t.linked with
      | error fault =>
        refine ⟨?_, nofun⟩
        rintro ⟨depth, s, hm, -⟩
        rw [handleReorg, readRows, Prog.read_bind_apply, hplan,
          Prog.ofExcept_error_bind_apply] at hm
        cases hm
      | ok plan =>
        have hrun : handleReorg env new t.linked w =
            (do commit env (plan.txn new.hash); pure plan.deactivated : Writer Nat) w := by
          rw [handleReorg, readRows, Prog.read_bind_apply, hplan, Prog.ofExcept_ok_bind_apply]
        rw [Bool.and_eq_true, Bool.or_eq_true, bne_iff_ne, hrun]
        constructor
        · rintro ⟨depth, s, hm, hrest⟩
          obtain ⟨u, s₁, hc, hpure⟩ := Prog.bind_eq_ok hm
          obtain ⟨hacc, rfl⟩ := commit_eq_ok hc
          cases hpure
          exact ⟨hacc, (hmove _ _).mp hrest⟩
        · rintro ⟨hacc, hrest⟩
          exact ⟨_, _, Prog.bind_ok (commit_ok _ hacc), (hmove _ _).mpr hrest⟩
    · rw [tipMoves, if_neg hne]
      exact hstands (if_neg hne)

/-- A header let in, its first transaction taken: its row is stored. -/
theorem insertHeader_entered {a : Admission} (hpow : checkPow params header = .ok ())
    (hfresh : headerForHash w.db.rows header.hash = none)
    (hadm : admission params w.db.rows header = .ok a) (hacc : env.accepts w.asked = true) :
    ∃ w₁ : World, w₁.db.headers = onHeadersAll (a.txn header) w.db.headers ∧
      w₁.asked = w.asked + 1 ∧ insertHeader env params header w = letIn env header a w₁ := by
  refine ⟨⟨execAll (env.unixepoch w.asked) (a.txn header) w.db, w.asked + 1,
    .commit w.db (a.txn header) (execAll (env.unixepoch w.asked) (a.txn header) w.db) ::
      ((a.entries params header w.db.rows).reverse ++ w.history)⟩, execAll_headers .., rfl, ?_⟩
  have hok : refusing header (checkPow params header) = .ok () := Except.mapError_eq_ok.mpr hpow
  rw [insertHeader, hok, Prog.ofExcept_ok_bind_apply, readRows, Prog.read_bind_apply,
    if_neg (by rw [hfresh]; exact Bool.false_ne_true), hadm, Prog.ofExcept_ok_bind_apply,
    Prog.bind_ok (each_note_apply _ w)]
  exact Prog.bind_ok (commit_ok _ hacc)

variable (env) in
/-- A header that does not enter leaves the database as it is, and ends the call. -/
theorem insertHeader_kept_out (hpow : checkPow params header = .ok ())
    (hfresh : headerForHash w.db.rows header.hash = none) (hout : enters env params header w = false) :
    ∃ fault w', insertHeader env params header w = (.error fault, w') ∧ w'.db = w.db := by
  have hok : refusing header (checkPow params header) = .ok () := Except.mapError_eq_ok.mpr hpow
  rw [insertHeader, hok, Prog.ofExcept_ok_bind_apply, readRows, Prog.read_bind_apply,
    if_neg (by rw [hfresh]; exact Bool.false_ne_true)]
  unfold enters at hout
  cases hadm : admission params w.db.rows header with
  | error fault => exact ⟨fault, w, rfl, rfl⟩
  | ok a =>
    rw [hadm] at hout
    rw [Prog.ofExcept_ok_bind_apply, Prog.bind_ok (each_note_apply _ w)]
    exact ⟨_, _, Prog.bind_error (commit_refused _ hout), rfl⟩

theorem answers_letIn {a : Admission} :
    Prog.Answers (letIn env header a) w ↔
      (!a.becomesTip || a.isActive header ||
        tipMoves env header.linked a.tip w.db.rows w.asked) = true := by
  unfold letIn
  cases htakes : a.becomesTip with
  | false => exact ⟨fun _ => rfl, fun _ => Prog.answers_pure _ w⟩
  | true =>
    rw [if_pos rfl, Prog.answers_bind]
    have hrest : (∃ depth s, settleTip env header.linked a.tip (a.isActive header) w = (.ok depth, s) ∧
          Prog.Answers (pure { a.result header with reorgDepth := depth } : Writer _) s) ↔
        Prog.Answers (settleTip env header.linked a.tip (a.isActive header)) w :=
      ⟨fun ⟨depth, s, hm, _⟩ => ⟨depth, s, hm⟩,
        fun ⟨depth, s, hm⟩ => ⟨depth, s, hm, Prog.answers_pure _ s⟩⟩
    rw [hrest]
    cases hact : a.isActive header with
    | true =>
      rw [settleTip_of_extends hact]
      exact ⟨fun _ => rfl, fun _ => Prog.answers_pure _ w⟩
    | false => exact answers_settleTip

end Answers

end Chaintracks

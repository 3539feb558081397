import Chaintracks.Runs
import Chaintracks.Regtest

/-!
# Which active headers have been checked

A row is let in unchecked as an orphan, or as a heal's progress, and activated later by
a function that does not check it. What stands between the two is the link: a row whose
`previous_header_id` is set was checked when the link was made, and an active row when
it was activated. `Chaintracks.Screened` is that invariant, with the history's word for
each such row (`Chaintracks.Checked`).

A reorg activates the rows it walks back over, and the walk goes on by hash where a row
has no link. So the invariant needs that the rows a reorg takes up with its new tip are
linked, or were active once (`Chaintracks.activatesChecked`); under that condition no
unchecked header is ever active (`Chaintracks.checked_of_active`). An orphan below a new
tip breaks it: `Chaintracks.orphan_activated_unchecked`.
-/

namespace Chaintracks

open HeaderRows

/-! ### What the statements lift -/

section Lifts

variable {K : String → Nat → Prop} {H : String → Prop} {t : HeaderTable} {stmt : Stmt}

/-- Every row that is active or linked answers to `K`, by its hash and height. -/
def Answers (K : String → Nat → Prop) (t : HeaderTable) : Prop :=
  ∀ row ∈ t.rows, row.isActive = true ∨ row.previousHeaderId.isSome = true → K row.hash row.height

/-- The rows a statement activates or links are named in `H`, or answer to `K` as they
are. -/
def Stmt.Lifts (K : String → Nat → Prop) (H : String → Prop) : Stmt → Prop
  | insertHeader previousHeaderId header isActive _ =>
    isActive = true ∨ previousHeaderId.isSome = true ∨ H header.hash →
      K header.hash header.height
  | setChainTipActive hash | activateHash hash | activateStored _ hash _ | linkChild _ hash =>
    H hash
  | canonicalizeHeight hash height => K hash height
  | relinkHeader .. => False
  | _ => True

theorem Answers.update {cond : HeaderRow → Bool} {set : HeaderRow → RowCells} (ha : Answers K t)
    (h : ∀ r ∈ t.rows, cond r = true →
      (set r).isActive = true ∨ (set r).previousHeaderId.isSome = true → K r.hash r.height) :
    Answers K (t.update cond set) := by
  intro row hrow hup
  obtain ⟨r, hr, rfl⟩ := HeaderTable.mem_update.mp hrow
  by_cases hc : cond r = true
  · rw [if_pos hc] at hup ⊢
    exact h r hr hc hup
  · rw [if_neg hc] at hup ⊢
    exact ha r hr hup

/-- One statement: where the rows it names answer to `K`, it keeps that. -/
theorem Answers.exec (ha : Answers K t) (hn : ∀ row ∈ t.rows, H row.hash → K row.hash row.height)
    (hl : stmt.Lifts K H) :
    Answers K (stmt.onHeaders t) ∧
      ∀ row ∈ (stmt.onHeaders t).rows, H row.hash → K row.hash row.height := by
  refine ⟨?_, ?_⟩
  · cases stmt with
    | insertHeader prev header act work =>
      intro row hrow hup
      rcases HeaderTable.mem_insert hrow with hrow | ⟨rfl, -⟩
      · exact ha row hrow hup
      · exact hl (hup.imp_right .inl)
    | clearChainTip => exact ha.update fun r hr _ hup => ha r hr hup
    | setChainTipActive hash =>
      exact ha.update fun r hr hc _ => hn r hr (beq_iff_eq.mp hc ▸ hl)
    | setChainTip hash => exact ha.update fun r hr _ hup => ha r hr hup
    | deactivateAbove height => exact ha.update fun r hr _ hup => ha r hr (hup.imp_left nofun)
    | activateHash hash => exact ha.update fun r hr hc _ => hn r hr (beq_iff_eq.mp hc ▸ hl)
    | relinkHeader => exact hl.elim
    | setChainWork work id => exact ha.update fun r hr _ hup => ha r hr hup
    | activateStored work hash height =>
      refine ha.update fun r hr hc _ => hn r hr ?_
      rw [Bool.and_eq_true, Bool.and_eq_true, beq_iff_eq] at hc
      exact hc.1.1 ▸ hl
    | linkChild parent child =>
      exact ha.update fun r hr hc _ => hn r hr (beq_iff_eq.mp hc ▸ hl)
    | linkSpan lo hi =>
      refine ha.update fun r hr hc _ => ha r hr (.inl ?_)
      rw [Bool.and_eq_true, Bool.and_eq_true] at hc
      exact hc.1.1
    | canonicalizeHeight hash height =>
      refine ha.update fun r hr hc hup => ?_
      rcases hup with hact | hlink
      · rw [beq_iff_eq.mp hc, beq_iff_eq.mp hact]
        exact hl
      · exact ha r hr (.inr hlink)
    | dedupeHeight height => exact ha.update fun r hr _ hup => ha r hr (hup.imp_left nofun)
    | recordPendingReorg => exact ha
  · intro row hrow hh
    rcases Stmt.mem_onHeaders hrow with ⟨r, hr, he, -⟩ | ⟨prev, act, work, rfl⟩
    · have hhash : row.hash = r.hash := congrArg BlockHeader.hash he
      have hheight : row.height = r.height := congrArg BlockHeader.height he
      rw [hhash, hheight]
      exact hn r hr (hhash ▸ hh)
    · exact hl (.inr (.inr hh))

/-- A transaction of such statements. -/
theorem Answers.txn {txn : List Stmt} (ha : Answers K t)
    (hn : ∀ row ∈ t.rows, H row.hash → K row.hash row.height)
    (hl : ∀ stmt ∈ txn, stmt.Lifts K H) : Answers K (onHeadersAll txn t) := by
  induction txn generalizing t with
  | nil => exact ha
  | cons stmt txn ih =>
    obtain ⟨ha', hn'⟩ := ha.exec hn (hl stmt List.mem_cons_self)
    exact ih ha' hn' fun s hs => hl s (List.mem_cons_of_mem _ hs)

/-- The link of a row that answers to `K`. -/
theorem Answers.relink {prev : Option Nat} {work id : Nat} (ha : Answers K t)
    (h : ∀ row ∈ t.rows, row.headerId = id → K row.hash row.height) :
    Answers K ((Stmt.relinkHeader prev work id).onHeaders t) :=
  ha.update fun r hr hc _ => h r hr (beq_iff_eq.mp hc)

end Lifts

/-! ### The invariant -/

section Screened

variable {env : Env} {params : ChainParams} {w : World}

/-- A row of this hash was active in a store some transaction left. -/
def onceActive (history : List Entry) (hash : String) : Bool :=
  history.any fun e => match e with
    | .commit _ _ after => after.rows.any fun row => row.hash == hash && row.isActive
    | _ => false

theorem onceActive_iff {history : List Entry} {hash : String} :
    onceActive history hash = true ↔ ∃ before txn after, .commit before txn after ∈ history ∧
      ∃ row ∈ after.rows, row.hash = hash ∧ row.isActive = true := by
  simp only [onceActive, List.any_eq_true]
  constructor
  · rintro ⟨e, he, hact⟩
    cases e with
    | commit before txn after =>
      obtain ⟨row, hrow, hr⟩ := List.any_eq_true.mp hact
      rw [Bool.and_eq_true, beq_iff_eq] at hr
      exact ⟨before, txn, after, he, row, hrow, hr⟩
    | passed => cases hact
    | vouched => cases hact
  · rintro ⟨before, txn, after, he, row, hrow, hh, hact⟩
    refine ⟨_, he, List.any_eq_true.mpr ⟨row, hrow, ?_⟩⟩
    rw [Bool.and_eq_true, beq_iff_eq]
    exact ⟨hh, hact⟩

/-- **What the history says of an active row**: its own proof of work passed, and a
header of its hash and height, with a proof of work of its own, was vouched for or
passed its context check against stored ancestors. -/
def Checked (params : ChainParams) (history : List Entry) (rows : List HeaderRow)
    (row : HeaderRow) : Prop :=
  checkPow params row.toBlockHeader = .ok () ∧
    ∃ header, header.hash = row.hash ∧ header.height = row.height ∧
      checkPow params header = .ok () ∧
      ((.vouched header ∈ history ∧ Vouched params header) ∨
        ∃ stored run, .passed stored run header ∈ history ∧ Passed params rows stored run header)

/-- **The condition on a transaction**: a reorg activates, besides its new tip, rows that
are linked or were active once; and a stored row a batch activates stands at the height
the batch has it at. -/
def activatesChecked (earlier : List Entry) (before : Store) (txn : List Stmt) : Bool :=
  txn.all fun stmt => match stmt with
    | .activateHash hash =>
      txn.any (· == .setChainTipActive hash) || before.rows.all fun row =>
        row.hash != hash || (row.previousHeaderId.isSome || onceActive earlier hash)
    | .activateStored _ hash height =>
      before.rows.all fun row => row.hash != hash || (row.isActive || row.height == height)
    | _ => true

theorem activatesChecked_hash {earlier : List Entry} {before : Store} {txn : List Stmt}
    {hash : String} (h : activatesChecked earlier before txn = true)
    (hstmt : .activateHash hash ∈ txn) (hnot : .setChainTipActive hash ∉ txn) :
    ∀ row ∈ before.rows, row.hash = hash →
      row.previousHeaderId.isSome = true ∨ onceActive earlier hash = true := by
  intro row hrow hh
  have h' := List.all_eq_true.mp h _ hstmt
  rw [Bool.or_eq_true, List.any_beq', List.contains_iff_mem] at h'
  have hr := List.all_eq_true.mp (h'.resolve_left hnot) row hrow
  rw [Bool.or_eq_true, Bool.or_eq_true, bne_iff_ne] at hr
  exact hr.resolve_left fun hne => hne hh

theorem activatesChecked_stored {earlier : List Entry} {before : Store} {txn : List Stmt}
    {hash : String} {work height : Nat} (h : activatesChecked earlier before txn = true)
    (hstmt : .activateStored work hash height ∈ txn) :
    ∀ row ∈ before.rows, row.hash = hash → row.isActive = false → row.height = height := by
  intro row hrow hh hact
  have hr := List.all_eq_true.mp (List.all_eq_true.mp h _ hstmt) row hrow
  rw [Bool.or_eq_true, Bool.or_eq_true, bne_iff_ne, beq_iff_eq, hact] at hr
  exact (hr.resolve_left fun hne => hne hh).resolve_left nofun

/-- **The invariant**: every row meets its own proof of work; every row that is active,
linked or was active once is cleared; the rows of every store the history left are still
there; and the history's entries hold of the rows. -/
structure Screened (params : ChainParams) (w : World) : Prop where
  pow : ∀ row ∈ w.db.rows, checkPow params row.toBlockHeader = .ok ()
  answers : Answers (Cleared w.history) w.db.headers
  once : ∀ row ∈ w.db.rows, onceActive w.history row.hash = true → Cleared w.history row.hash row.height
  kept : ∀ before txn after, .commit before txn after ∈ w.history →
    ∀ row ∈ after.rows, ∃ r ∈ w.db.rows, r.toBlockHeader = row.toBlockHeader
  entries : ∀ e ∈ w.history, e.Sound params w.db.rows

theorem Answers.mono {K K' : String → Nat → Prop} {t : HeaderTable} (ha : Answers K t)
    (h : ∀ hash height, K hash height → K' hash height) : Answers K' t :=
  fun row hrow hup => h _ _ (ha row hrow hup)

/-- Rows are kept, so what was checked against them stays so. -/
theorem Entry.Sound.mono {e : Entry} {rows rows' : List HeaderRow}
    (h : ∀ row ∈ rows, ∃ r ∈ rows', r.toBlockHeader = row.toBlockHeader)
    (hs : e.Sound params rows) : e.Sound params rows' := by
  have hheld : ∀ header : BlockHeader, (∃ row ∈ rows, row.toBlockHeader = header) →
      ∃ row ∈ rows', row.toBlockHeader = header := by
    rintro header ⟨row, hrow, rfl⟩
    exact h row hrow
  cases e with
  | passed stored run header =>
    obtain ⟨hw, hp⟩ := hs
    exact ⟨hw.imp_right (hheld _), hp.context, hp.ancestry, hp.linked,
      fun x hx => hheld _ (hp.held x hx)⟩
  | vouched header => exact ⟨hs.1.imp_right (hheld _), hs.2⟩
  | commit => trivial

theorem execAll_rows_kept (now : Nat) (txn : List Stmt) (db : Store) :
    ∀ row ∈ db.rows, ∃ r ∈ (execAll now txn db).rows, r.toBlockHeader = row.toBlockHeader := by
  intro row hrow
  obtain ⟨r, hr, hh, -⟩ := onHeadersAll_keeps txn hrow
  exact ⟨r, by rwa [Store.rows, execAll_headers], hh⟩

/-- What the invariant says of an active row is what the history says of it. -/
theorem Screened.checked (h : Screened params w) {row : HeaderRow} (hrow : row ∈ w.db.rows)
    (hact : row.isActive = true) : Checked params w.history w.db.rows row := by
  have hweighed : ∀ header, Weighed params w.db.rows header → checkPow params header = .ok () := by
    rintro header (hp | ⟨r, hr, rfl⟩)
    · exact hp
    · exact h.pow r hr
  obtain ⟨header, hh, hht, hin | ⟨stored, run, hin⟩⟩ := h.answers row hrow (.inl hact)
  · have hs := h.entries _ hin
    exact ⟨h.pow row hrow, header, hh, hht, hweighed _ hs.1, .inl ⟨hin, hs.2⟩⟩
  · have hs := h.entries _ hin
    exact ⟨h.pow row hrow, header, hh, hht, hweighed _ hs.1, .inr ⟨stored, run, hin, hs.2⟩⟩

/-- The headers a move of the live path inserts have met their proof of work. -/
theorem LiveMove.pow {offered : BlockHeader → Prop} {txn : List Stmt}
    (hmove : LiveMove params offered w txn) {prev : Option Nat}
    {header : BlockHeader} {act : Bool} {work : Nat}
    (h : .insertHeader prev header act work ∈ txn) : checkPow params header = .ok () := by
  cases hmove with
  | insertion hd a given pow =>
    unfold Admission.txn Admission.insertion at h
    split at h <;> simp at h <;> exact h.2.1 ▸ pow
  | reorg _ _ _ plan => simp [ReorgPlan.txn] at h
  | moveTip => simp [moveTipTxn] at h
  | relink => simp at h

/-- The headers a move inserts have met their proof of work. -/
theorem Move.pow {txn : List Stmt} (hmove : Move params w txn) {prev : Option Nat}
    {header : BlockHeader} {act : Bool} {work : Nat}
    (h : .insertHeader prev header act work ∈ txn) : checkPow params header = .ok () := by
  cases hmove with
  | live hlive => exact hlive.pow h
  | flagTip => simp [flagTipTxn] at h
  | bulk headers _ _ pow _ writes =>
    obtain ⟨x, hx, work', hw | hw⟩ := writes _ h
    · cases hw
    · cases hw
      exact pow _ hx
  | progress _ writes =>
    obtain ⟨x, work', hw, hp⟩ := writes _ h
    cases hw
    exact hp
  | linkSpan => simp at h
  | activation headers last child lowest => simp [activationTxn] at h
  | dedupe => simp at h
  | repair _ writes =>
    obtain ⟨work', id, hw⟩ := writes _ h
    cases hw

/-- A move of the live path that meets the condition lifts cleared rows alone. -/
theorem Screened.answers_live {offered : BlockHeader → Prop} {txn : List Stmt}
    (h : Screened params w) (hmove : LiveMove params offered w txn)
    (hcond : activatesChecked w.history w.db txn = true) :
    Answers (Cleared w.history) (onHeadersAll txn w.db.headers) := by
  cases hmove with
  | insertion header a given pow fresh admitted noted =>
    have had := admission_ok admitted
    have hfresh := headerForHash_eq_none.mp fresh
    have hnoted : a.entries params header w.db.rows ⊆ w.history := noted
    by_cases hact : a.isActive header = true
    · -- active at once: a header that takes the tip is cleared
      have hb : a.becomesTip = true := (Bool.and_eq_true _ _ ▸ hact).1
      have hc := (had.cleared_of_becomesTip hb).mono hnoted
      refine h.answers.txn (H := (· = header.hash)) (fun r hr he => absurd he (hfresh r hr)) ?_
      intro stmt hstmt
      rw [Admission.txn, if_pos hact] at hstmt
      simp only [List.mem_cons, List.not_mem_nil, or_false] at hstmt
      rcases hstmt with rfl | rfl | rfl
      · exact fun _ => hc
      · trivial
      · exact rfl
    · -- stored inactive: linked, where its parent was stored and its context passed
      refine h.answers.txn (H := fun _ => False) (fun _ _ hf => hf.elim) ?_
      intro stmt hstmt
      rw [Admission.txn, if_neg hact, List.mem_singleton] at hstmt
      subst hstmt
      rintro (ha | hlink | hf)
      · exact absurd ha hact
      · rw [Option.isSome_map] at hlink
        obtain ⟨parent, hp⟩ := Option.isSome_iff_exists.mp hlink
        exact (Admission.cleared_of_previous hp).mono hnoted
      · exact hf.elim
  | reorg new row tip plan stored same link flagged apart outworks cleared planned =>
    have hhash : row.hash = new.hash := congrArg BlockHeader.hash same
    have hheight : row.height = new.height := congrArg BlockHeader.height same
    refine h.answers.txn
      (H := fun hash => hash = new.hash ∨ .activateHash hash ∈ plan.txn new.hash) ?_ ?_
    · intro r hr hname
      by_cases he : r.hash = new.hash
      · rw [HeaderTable.eq_of_hash hr stored (he.trans hhash.symm), hhash, hheight]
        exact cleared
      · have hact := hname.resolve_left he
        have hnot : .setChainTipActive r.hash ∉ plan.txn new.hash := by
          simp [ReorgPlan.txn, he]
        rcases activatesChecked_hash hcond hact hnot r hr rfl with hl | ho
        · exact h.answers r hr (.inr hl)
        · exact h.once r hr ho
    · intro stmt hstmt
      have hmem := hstmt
      simp only [ReorgPlan.txn, List.cons_append, List.mem_cons, List.mem_append, List.mem_map,
        List.not_mem_nil, or_false] at hstmt
      rcases hstmt with rfl | ⟨hash, -, rfl⟩ | rfl | rfl | rfl
      · trivial
      · exact .inr hmem
      · trivial
      · trivial
      · exact .inl rfl
  | moveTip row stored cleared =>
    refine h.answers.txn (H := (· = row.hash)) ?_ ?_
    · intro r hr he
      rw [HeaderTable.eq_of_hash hr stored he]
      exact cleared
    · intro stmt hstmt
      simp only [moveTipTxn, List.mem_cons, List.not_mem_nil, or_false] at hstmt
      rcases hstmt with rfl | rfl
      · trivial
      · exact rfl
  | relink hash stored parent chainWork planned cleared =>
    refine h.answers.relink fun r hr hid => ?_
    rw [HeaderTable.eq_of_headerId hr (headerForHash_mem (planRelink_link planned).found) hid]
    exact cleared

/-- **Every move that meets the condition lifts cleared rows alone.** -/
theorem Screened.answers_txn {txn : List Stmt} (h : Screened params w) (hmove : Move params w txn)
    (hcond : activatesChecked w.history w.db txn = true) :
    Answers (Cleared w.history) (onHeadersAll txn w.db.headers) := by
  cases hmove with
  | live hlive => exact h.answers_live hlive hcond
  | flagTip top highest =>
    refine h.answers.txn (H := fun _ => False) (fun _ _ hf => hf.elim) ?_
    intro stmt hstmt
    simp only [flagTipTxn, List.mem_cons, List.not_mem_nil, or_false] at hstmt
    rcases hstmt with rfl | rfl <;> trivial
  | bulk headers _ linked pow cleared writes =>
    refine h.answers.txn
      (H := fun hash => ∃ work height, .activateStored work hash height ∈ txn) ?_ ?_
    · rintro r hr ⟨work, height, hmem⟩
      obtain ⟨x, hx, work', hw | hw⟩ := writes _ hmem
      · obtain ⟨-, hhash, hheight⟩ := Stmt.activateStored.inj hw
        cases hact : r.isActive with
        | true => exact h.answers r hr (.inl hact)
        | false =>
          rw [activatesChecked_stored hcond hmem r hr rfl hact, hhash, hheight]
          exact cleared x hx
      · cases hw
    · intro stmt hstmt
      obtain ⟨x, hx, work, rfl | rfl⟩ := writes _ hstmt
      · exact ⟨work, _, hstmt⟩
      · exact fun _ => cleared x hx
  | progress _ writes =>
    refine h.answers.txn (H := fun _ => False) (fun _ _ hf => hf.elim) ?_
    intro stmt hstmt
    obtain ⟨x, work, rfl, -⟩ := writes _ hstmt
    rintro (ha | hl | hf)
    · cases ha
    · cases hl
    · exact hf.elim
  | linkSpan lo hi =>
    refine h.answers.txn (H := fun _ => False) (fun _ _ hf => hf.elim) ?_
    intro stmt hstmt
    rw [List.mem_singleton] at hstmt
    subst hstmt
    trivial
  | activation headers last child lowest cleared held active =>
    refine h.answers.txn (H := (· = child.hash)) ?_ ?_
    · intro r hr he
      rw [HeaderTable.eq_of_hash hr held he]
      exact h.answers child held (.inl active)
    · intro stmt hstmt
      simp only [activationTxn, List.mem_append, List.mem_map, List.mem_cons, Option.mem_toList,
        Option.map_eq_some_iff] at hstmt
      rcases hstmt with ⟨x, hx, rfl⟩ | rfl | ⟨height, -, rfl⟩
      · exact cleared x hx
      · exact rfl
      · trivial
  | dedupe height =>
    refine h.answers.txn (H := fun _ => False) (fun _ _ hf => hf.elim) ?_
    intro stmt hstmt
    rw [List.mem_singleton] at hstmt
    subst hstmt
    trivial
  | repair _ writes =>
    refine h.answers.txn (H := fun _ => False) (fun _ _ hf => hf.elim) ?_
    intro stmt hstmt
    obtain ⟨work, id, rfl⟩ := writes _ hstmt
    trivial

/-- What a check notes leaves a screened world screened. -/
theorem Screened.noted {entry : Entry} (h : Screened params w)
    (hcheck : ∀ b txn a, entry ≠ .commit b txn a) (hsound : entry.Sound params w.db.rows) :
    Screened params { w with history := entry :: w.history } := by
  have hsub : w.history ⊆ entry :: w.history := List.subset_cons_self _ _
  refine
    { pow := h.pow
      answers := h.answers.mono fun _ _ hc => hc.mono hsub
      once := ?_
      kept := ?_
      entries := List.forall_mem_cons.mpr ⟨hsound, h.entries⟩ }
  · intro row hrow honce
    obtain ⟨before, txn, after, hmem, hact⟩ := onceActive_iff.mp honce
    rcases List.mem_cons.mp hmem with he | hmem
    · exact absurd he.symm (hcheck _ _ _)
    · exact (h.once row hrow (onceActive_iff.mpr ⟨before, txn, after, hmem, hact⟩)).mono hsub
  · intro before txn after hmem
    rcases List.mem_cons.mp hmem with he | hmem
    · exact absurd he.symm (hcheck _ _ _)
    · exact h.kept before txn after hmem

/-- **A move that meets the condition leaves a screened world screened**, and every row
it leaves active was checked before it. -/
theorem Screened.committed {txn : List Stmt} (h : Screened params w) (now : Nat)
    (hmove : Move params w txn) (hcond : activatesChecked w.history w.db txn) :
    Screened params ⟨execAll now txn w.db, w.asked + 1,
        .commit w.db txn (execAll now txn w.db) :: w.history⟩ ∧
      ∀ row ∈ (execAll now txn w.db).rows, row.isActive = true →
        Checked params w.history (execAll now txn w.db).rows row := by
  have hsub : w.history ⊆ .commit w.db txn (execAll now txn w.db) :: w.history :=
    List.subset_cons_self _ _
  have hans : Answers (Cleared w.history) (execAll now txn w.db).headers := by
    rw [execAll_headers]
    exact h.answers_txn hmove hcond
  have hentries : ∀ e ∈ w.history, e.Sound params (execAll now txn w.db).rows := fun e he =>
    (h.entries e he).mono (execAll_rows_kept now txn w.db)
  -- a row of the store after is one of the store before, or inserted by the move
  have hold : ∀ row ∈ (execAll now txn w.db).rows,
      (∃ r ∈ w.db.rows, row.toBlockHeader = r.toBlockHeader) ∨
        checkPow params row.toBlockHeader = .ok () := by
    intro row hrow
    rw [Store.rows, execAll_headers] at hrow
    rcases mem_onHeadersAll hrow with ⟨r, hr, hh, -⟩ | ⟨prev, act, work, hins⟩
    · exact .inl ⟨r, hr, hh⟩
    · exact .inr (hmove.pow hins)
  have hpow : ∀ row ∈ (execAll now txn w.db).rows, checkPow params row.toBlockHeader = .ok () := by
    intro row hrow
    rcases hold row hrow with ⟨r, hr, hh⟩ | hp
    · exact hh ▸ h.pow r hr
    · exact hp
  have hkept : ∀ before txn' after, .commit before txn' after ∈ w.history →
      ∀ row ∈ after.rows, ∃ r ∈ (execAll now txn w.db).rows,
        r.toBlockHeader = row.toBlockHeader := by
    intro before txn' after hmem row hrow
    obtain ⟨r, hr, hh⟩ := h.kept before txn' after hmem row hrow
    obtain ⟨r', hr', hh'⟩ := execAll_rows_kept now txn w.db r hr
    exact ⟨r', hr', hh'.trans hh⟩
  have honce : ∀ row ∈ (execAll now txn w.db).rows, onceActive w.history row.hash = true →
      Cleared w.history row.hash row.height := by
    intro row hrow hrowonce
    obtain ⟨before, txn', after, hmem, r, hr, hhash, hact⟩ := onceActive_iff.mp hrowonce
    obtain ⟨old, hold, hh⟩ := h.kept before txn' after hmem r hr
    obtain ⟨r', hr', hh'⟩ := execAll_rows_kept now txn w.db old hold
    have hoh : old.hash = row.hash := (congrArg BlockHeader.hash hh).trans hhash
    have heq : row = r' :=
      HeaderTable.eq_of_hash hrow hr' (hoh.symm.trans (congrArg BlockHeader.hash hh').symm)
    rw [heq, hh']
    exact h.once old hold
      (onceActive_iff.mpr ⟨before, txn', after, hmem, r, hr, hhash.trans hoh.symm, hact⟩)
  -- the rows active after, read with the history before
  have hbefore : Screened params ⟨execAll now txn w.db, w.asked, w.history⟩ :=
    { pow := hpow, answers := hans, once := honce, kept := hkept, entries := hentries }
  refine ⟨{ pow := hpow, answers := ?_, once := ?_, kept := ?_, entries := ?_ }, ?_⟩
  · exact hans.mono fun _ _ hc => hc.mono hsub
  · intro row hrow hrowonce
    obtain ⟨before, txn', after, hmem, hact⟩ := onceActive_iff.mp hrowonce
    rcases List.mem_cons.mp hmem with he | hmem
    · -- active in the store this transaction left
      cases he
      obtain ⟨r, hr, hhash, hract⟩ := hact
      rw [HeaderTable.eq_of_hash hrow hr hhash.symm]
      exact (hans r hr (.inl hract)).mono hsub
    · exact (honce row hrow (onceActive_iff.mpr ⟨before, txn', after, hmem, hact⟩)).mono hsub
  · intro before txn' after hmem row hrow
    rcases List.mem_cons.mp hmem with he | hmem
    · cases he
      exact ⟨row, hrow, rfl⟩
    · exact hkept before txn' after hmem row hrow
  · exact List.forall_mem_cons.mpr ⟨trivial, hentries⟩
  · exact fun row hrow hact => hbefore.checked hrow hact

/-! ### The runs -/

/-- **No unchecked header is active**: every active row, after the run and after each of
its transactions, was checked before the transaction. -/
def CheckedWhenActive (params : ChainParams) (w : World) : Prop :=
  (∀ row ∈ w.db.rows, row.isActive = true → Checked params w.history w.db.rows row) ∧
    EachCommit (fun earlier _ _ after => ∀ row ∈ after.rows, row.isActive = true →
      Checked params earlier after.rows row) w.history

/-- **In every run whose transactions meet the condition, no unchecked header is ever
active.** -/
theorem checked_of_active (env : Env) (params : ChainParams) (calls : List Call)
    (h : EachCommit (fun earlier before txn _ => activatesChecked earlier before txn = true)
      (runAll env params calls .init).history) :
    CheckedWhenActive params (runAll env params calls .init) := by
  obtain ⟨hI, hD⟩ := steps_invariant (I := Screened params)
    (D := fun earlier _ _ after => ∀ row ∈ after.rows, row.isActive = true →
      Checked params earlier after.rows row)
    (fun w hw => ⟨hw.1, hw.2, hw.3, hw.4, hw.5⟩)
    (fun w entry hcheck hsound hw => hw.noted hcheck hsound)
    (fun w now txn hmove hw hcond => hw.committed now hmove hcond)
    { pow := by simp [World.init, Store.fresh, Store.rows]
      answers := by simp [Answers, World.init, Store.fresh]
      once := by simp [World.init, Store.fresh, Store.rows]
      kept := by simp [World.init]
      entries := by simp [World.init] } (via_runAll env params calls .init) h
  exact ⟨fun row hrow hact => hI.checked hrow hact, hD⟩

open Regtest in
/-- A side branch taken in a reorg, its lower header linked. -/
theorem checked_of_active_reorg : CheckedWhenActive Regtest.params
    (runAll host Regtest.params (([genesis, a1, b1, b2] : List BlockHeader).map Call.insertHeader)
      .init) :=
  checked_of_active _ _ _ (.of_eachCommit (by decide +kernel))

open Regtest in
/-- **An orphan below a new tip is activated unchecked.** The orphan carries bits that
regtest's rule refuses on its parent; its child, judged by the orphan's own bits, takes
the tip, and the reorg walks back over the orphan by hash. -/
theorem orphan_activated_unchecked : ¬CheckedWhenActive Regtest.params
    (runAll host Regtest.params (([genesis, h2, a1, h3] : List BlockHeader).map Call.insertHeader)
      .init) := by
  intro h
  have hactive : ∃ row ∈ (runAll host Regtest.params
      (([genesis, h2, a1, h3] : List BlockHeader).map Call.insertHeader) .init).db.rows,
      row.hash = h2.hash ∧ row.isActive = true := by decide +kernel
  have hnone : ∀ e ∈ (runAll host Regtest.params
      (([genesis, h2, a1, h3] : List BlockHeader).map Call.insertHeader) .init).history,
      ∀ header ∈ e.subject, header.hash ≠ h2.hash := by decide +kernel
  obtain ⟨row, hrow, hhash, hact⟩ := hactive
  obtain ⟨-, header, hh, -, -, ⟨hin, -⟩ | ⟨stored, run, hin, -⟩⟩ := h.1 row hrow hact
  · exact hnone _ hin header rfl (hh.trans hhash)
  · exact hnone _ hin header rfl (hh.trans hhash)

end Screened

end Chaintracks

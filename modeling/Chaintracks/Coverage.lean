import Chaintracks.ActiveHeights

/-!
# The marker and the answers it covers

`find_header_for_height` answers the newest active row of a height. A consumer that holds
an answer learns that it was replaced from the marker of a pending reorg, if the
transaction that replaced it records one at or below the height.

A reorg and the activation of a push record it: the first at the lowest height it can
touch, the second at the lowest of its rivals (`Chaintracks.MarksRivals`). The sweep
records nothing: it replaces an answer wherever the row it keeps is not the newest
(`Chaintracks.sweep_unmarked`). The others look at the height before they activate
anything there, unless a row is stored at another height, or in other letters, than the
header handed over. `Chaintracks.uncovered` lists the heights a transaction replaces
without a marker, and `Chaintracks.Replaced.covered` says that there are no others: a call
none of whose transactions has any leaves every replaced answer covered
(`Chaintracks.markerCovers_of_covered`).
-/

namespace Chaintracks

open HeaderRows

/-! ### The answer at a height -/

/-- The header answered at the height is another after than before, or gone. -/
def Replaced (t t' : HeaderTable) (height : Nat) : Prop :=
  ∃ r, headerForHeight t.rows height = some r ∧
    (headerForHeight t'.rows height).map (·.hash) ≠ some r.hash

section Answers

variable {t t' : HeaderTable} {s row : HeaderRow} {height : Nat} {txn : List Stmt}

theorem headerForHeight_spec (h : headerForHeight t.rows height = some s) :
    s ∈ t.rows ∧ s.isActive = true ∧ s.height = height := by
  have hmem := List.mem_filter.mp (topmost_mem h)
  simpa using hmem

/-- Of rows of one height the topmost is the newest. -/
theorem headerId_le_topmost {rows : List HeaderRow} {top : HeaderRow}
    (hflat : ∀ r ∈ rows, r.height = height) (h : topmost rows = some top) (hrow : row ∈ rows) :
    row.headerId ≤ top.headerId := by
  induction rows generalizing top with
  | nil => cases hrow
  | cons head rows ih =>
    have hhead := hflat head List.mem_cons_self
    rw [topmost] at h
    split at h
    · rename_i hnone
      cases h
      rw [topmost_eq_none.mp hnone, List.mem_singleton] at hrow
      rw [hrow]
    · rename_i top' htop
      have htop' := hflat top' (List.mem_cons_of_mem _ (topmost_mem htop))
      have hrest : row ∈ rows → row.headerId ≤ top'.headerId :=
        ih (fun r hr => hflat r (List.mem_cons_of_mem _ hr)) htop
      rcases List.mem_cons.mp hrow with rfl | hrow
      · split at h <;> cases h <;> omega
      · have := hrest hrow
        split at h <;> cases h <;> omega

/-- The answer at a height is its newest active row. -/
theorem headerId_le_answer (h : headerForHeight t.rows height = some s) (hrow : row ∈ t.rows)
    (hact : row.isActive = true) (hheight : row.height = height) : row.headerId ≤ s.headerId := by
  refine @headerId_le_topmost _ height _ _ (fun r hr => ?_) h (List.mem_filter.mpr ⟨hrow, ?_⟩)
  · have hr := (List.mem_filter.mp hr).2
    simp only [Bool.and_eq_true, beq_iff_eq] at hr
    exact hr.2
  · simp [hact, hheight]

/-- **The answer stays** where its row stays active and no newer row is active beside it. -/
theorem answer_kept (h : headerForHeight t.rows height = some s)
    (hkept : ∃ r ∈ t'.rows, r.toBlockHeader = s.toBlockHeader ∧ r.headerId = s.headerId ∧
      r.isActive = true)
    (hnewest : ∀ q ∈ t'.rows, q.isActive = true → q.height = height → q.headerId ≤ s.headerId) :
    (headerForHeight t'.rows height).map (·.hash) = some s.hash := by
  obtain ⟨r, hr, hheader, hid, hact⟩ := hkept
  have hheight : r.height = height :=
    (congrArg BlockHeader.height hheader).trans (headerForHeight_spec h).2.2
  cases htop : headerForHeight t'.rows height with
  | none =>
    have hmem : r ∈ t'.rows.filter fun r => r.isActive && r.height == height :=
      List.mem_filter.mpr ⟨hr, by simp [hact, hheight]⟩
    rw [topmost_eq_none.mp htop] at hmem
    cases hmem
  | some top =>
    obtain ⟨htopm, htopa, htoph⟩ := headerForHeight_spec htop
    have hle := headerId_le_answer htop hr hact hheight
    have hge := hnewest top htopm htopa htoph
    rw [HeaderTable.eq_of_headerId htopm hr (by omega)]
    exact congrArg some (congrArg BlockHeader.hash hheader)

/-! ### What a transaction takes off and puts on at a height -/

/-- The statement may take the row of a hash off at its height. -/
def Stmt.Lowers (height : Nat) (hash : String) : Stmt → Prop
  | deactivateAbove h => h < height
  | canonicalizeHeight kept h => h = height ∧ kept ≠ hash
  | dedupeHeight h => h = height
  | _ => False

/-- On this table the statement may activate a stored row of a hash and a height. -/
def Stmt.Restores (t : HeaderTable) (hash : String) (height : Nat) : Stmt → Prop
  | setChainTipActive h | activateHash h => h = hash
  | activateStored _ h free =>
    h = hash ∧ ∀ o ∈ t.rows, o.isActive = true → o.height ≠ free
  | canonicalizeHeight h place => h = hash ∧ place = height
  | _ => False

theorem Stmt.active_kept {stmt : Stmt} (hrow : row ∈ t.rows) (hact : row.isActive = true)
    (h : ¬stmt.Lowers row.height row.hash) :
    ∃ r ∈ (stmt.onHeaders t).rows, r.toBlockHeader = row.toBlockHeader ∧
      r.headerId = row.headerId ∧ r.isActive = true := by
  have hupdate : ∀ cond (set : HeaderRow → RowCells), (cond row = true → (set row).isActive = true) →
      ∃ r ∈ (t.update cond set).rows, r.toBlockHeader = row.toBlockHeader ∧
        r.headerId = row.headerId ∧ r.isActive = true := by
    intro cond set hset
    refine ⟨_, HeaderTable.mem_update.mpr ⟨row, hrow, rfl⟩, ?_⟩
    split
    · rename_i hc
      exact ⟨rfl, rfl, hset hc⟩
    · exact ⟨rfl, rfl, hact⟩
  cases stmt with
  | insertHeader => exact ⟨row, HeaderTable.mem_insert_of_mem hrow, rfl, rfl, hact⟩
  | recordPendingReorg => exact ⟨row, hrow, rfl, rfl, hact⟩
  | deactivateAbove height =>
    refine hupdate _ _ fun hc => absurd ?_ h
    change height < row.height
    simpa [hact] using hc
  | canonicalizeHeight kept height =>
    refine hupdate _ _ fun hc => ?_
    by_contra hne
    exact h ⟨(beq_iff_eq.mp hc).symm, fun heq => hne (beq_iff_eq.mpr heq.symm)⟩
  | dedupeHeight height =>
    refine hupdate _ _ fun hc => absurd ?_ h
    rw [Bool.and_eq_true, Bool.and_eq_true, beq_iff_eq] at hc
    exact hc.1.1.symm
  | setChainTipActive | activateHash | activateStored => exact hupdate _ _ fun _ => rfl
  | clearChainTip | setChainTip | relinkHeader | setChainWork | linkChild | linkSpan =>
    exact hupdate _ _ fun _ => hact

/-- A row that no statement takes off stays active. -/
theorem active_kept (hrow : row ∈ t.rows) (hact : row.isActive = true)
    (h : ∀ stmt ∈ txn, ¬stmt.Lowers row.height row.hash) :
    ∃ r ∈ (onHeadersAll txn t).rows, r.toBlockHeader = row.toBlockHeader ∧
      r.headerId = row.headerId ∧ r.isActive = true := by
  induction txn generalizing t row with
  | nil => exact ⟨row, hrow, rfl, rfl, hact⟩
  | cons stmt txn ih =>
    obtain ⟨hstmt, hrest⟩ := List.forall_mem_cons.mp h
    obtain ⟨r, hr, hheader, hid, hract⟩ := Stmt.active_kept hrow hact hstmt
    have hhash : r.hash = row.hash := congrArg BlockHeader.hash hheader
    have hheight : r.height = row.height := congrArg BlockHeader.height hheader
    obtain ⟨r', hr', hheader', hid', hact'⟩ := ih hr hract (by rwa [hhash, hheight])
    exact ⟨r', hr', hheader'.trans hheader, hid'.trans hid, hact'⟩

/-- A stored row that is active after a statement was active before it, or is restored. -/
theorem Stmt.restored {stmt : Stmt} (hrow : row ∈ (stmt.onHeaders t).rows)
    (hact : row.isActive = true) (hstored : ∃ r ∈ t.rows, r.hash = row.hash) :
    (∃ r ∈ t.rows, r.toBlockHeader = row.toBlockHeader ∧ r.isActive = true) ∨
      stmt.Restores t row.hash row.height := by
  cases stmt with
  | insertHeader prev header act work =>
    rcases HeaderTable.mem_insert hrow with hrow | ⟨rfl, hfresh⟩
    · exact .inl ⟨row, hrow, rfl, hact⟩
    · obtain ⟨r, hr, hhash⟩ := hstored
      exact absurd hhash (hfresh r hr)
  | setChainTipActive hash | activateHash hash =>
    exact HeaderTable.active_update hrow hact fun r _ hc hh _ =>
      .inr ((beq_iff_eq.mp hc).symm.trans hh)
  | activateStored work hash height =>
    refine HeaderTable.active_update hrow hact fun r _ hc hh _ => .inr ?_
    simp only [Bool.and_eq_true, beq_iff_eq, Bool.not_eq_true', List.any_eq_false, not_and] at hc
    exact ⟨hc.1.1.symm.trans hh, fun o ho hoa hoh => hc.2 o ho hoh hoa⟩
  | canonicalizeHeight hash height =>
    obtain ⟨r, hr, rfl⟩ := HeaderTable.mem_update.mp hrow
    by_cases hc : (r.height == height) = true
    · simp only [if_pos hc] at hact ⊢
      exact .inr ⟨(beq_iff_eq.mp hact).symm, (beq_iff_eq.mp hc).symm⟩
    · simp only [if_neg hc] at hact ⊢
      exact .inl ⟨r, hr, rfl, hact⟩
  | recordPendingReorg => exact .inl ⟨row, hrow, rfl, hact⟩
  | deactivateAbove | dedupeHeight =>
    exact HeaderTable.active_update hrow hact fun r _ _ _ ha => absurd ha Bool.false_ne_true
  | clearChainTip | setChainTip | relinkHeader | setChainWork | linkChild | linkSpan =>
    exact HeaderTable.active_update hrow hact fun r _ _ _ ha => .inl ha

/-- A stored row that is active after a transaction was active before it, or one of its
statements restores it, on the table it meets. -/
theorem restored (hrow : row ∈ (onHeadersAll txn t).rows) (hact : row.isActive = true)
    (hstored : ∃ r ∈ t.rows, r.hash = row.hash) :
    (∃ r ∈ t.rows, r.toBlockHeader = row.toBlockHeader ∧ r.isActive = true) ∨
      ∃ pre stmt post, txn = pre ++ stmt :: post ∧
        stmt.Restores (onHeadersAll pre t) row.hash row.height := by
  induction txn generalizing t with
  | nil => exact .inl ⟨row, hrow, rfl, hact⟩
  | cons stmt txn ih =>
    obtain ⟨r, hr, hhash⟩ := hstored
    obtain ⟨r', hr', hheader', -⟩ := stmt.onHeaders_keeps hr
    rcases ih hrow ⟨r', hr', (congrArg BlockHeader.hash hheader').trans hhash⟩ with
      ⟨q, hq, hheader, hqact⟩ | ⟨pre, s, post, rfl, hlift⟩
    · have hqhash : q.hash = row.hash := congrArg BlockHeader.hash hheader
      have hqheight : q.height = row.height := congrArg BlockHeader.height hheader
      rcases Stmt.restored hq hqact ⟨r, hr, hhash.trans hqhash.symm⟩ with ⟨o, ho, he, hoa⟩ | hlift
      · exact .inl ⟨o, ho, he.trans hheader, hoa⟩
      · rw [hqhash, hqheight] at hlift
        exact .inr ⟨[], stmt, txn, rfl, hlift⟩
    · exact .inr ⟨stmt :: pre, s, post, rfl, hlift⟩

/-- **How an answer is replaced** that no statement takes off: a new header goes in active
above it, or a newer row of its height, stored inactive, is restored. -/
theorem Replaced.cases (h : headerForHeight t.rows height = some s)
    (hrep : (headerForHeight (onHeadersAll txn t).rows height).map (·.hash) ≠ some s.hash)
    (hlow : ∀ stmt ∈ txn, ¬stmt.Lowers height s.hash) :
    (∃ prev header act work, .insertHeader prev header act work ∈ txn ∧ header.height = height ∧
      headerForHash t.rows header.hash = none ∧ ∃ stmt ∈ txn, stmt.Raises header.hash) ∨
    ∃ r ∈ t.rows, r.isActive = false ∧ r.height = height ∧ s.headerId < r.headerId ∧
      ∃ pre stmt post, txn = pre ++ stmt :: post ∧
        stmt.Restores (onHeadersAll pre t) r.hash height := by
  obtain ⟨hs, hsact, hsheight⟩ := headerForHeight_spec h
  obtain ⟨q, hq, hqact, hqheight, hnewer⟩ : ∃ q ∈ (onHeadersAll txn t).rows, q.isActive = true ∧
      q.height = height ∧ s.headerId < q.headerId := by
    by_contra hnone
    refine hrep (answer_kept h (active_kept hs hsact (hsheight.symm ▸ hlow)) fun q hq ha hh => ?_)
    by_contra hlt
    exact hnone ⟨q, hq, ha, hh, Nat.lt_of_not_le hlt⟩
  by_cases hstored : ∃ r ∈ t.rows, r.hash = q.hash
  · obtain ⟨r, hr, hhash⟩ := hstored
    obtain ⟨r', hr', hheader', hid'⟩ := onHeadersAll_keeps txn hr
    have hsame : r' = q :=
      HeaderTable.eq_of_hash hr' hq ((congrArg BlockHeader.hash hheader').trans hhash)
    subst hsame
    have hrheight : r.height = height :=
      (congrArg BlockHeader.height hheader').symm.trans hqheight
    -- an active row of the height would be no newer than the answer
    have hinactive : r.isActive = false := by
      by_contra hact
      rw [Bool.not_eq_false] at hact
      have := headerId_le_answer h hr hact hrheight
      omega
    refine .inr ⟨r, hr, hinactive, hrheight, hid' ▸ hnewer, ?_⟩
    rcases restored hq hqact ⟨r, hr, hhash⟩ with ⟨o, ho, he, hoa⟩ | hlift
    · have : o = r := HeaderTable.eq_of_hash ho hr
        ((congrArg BlockHeader.hash he).trans hhash.symm)
      rw [this, hinactive] at hoa
      cases hoa
    · rwa [← hhash, hqheight] at hlift
  · have hfresh : headerForHash t.rows q.hash = none :=
      headerForHash_eq_none.mpr fun r hr hhash => hstored ⟨r, hr, hhash⟩
    rcases mem_onHeadersAll hq with ⟨r, hr, he, -⟩ | ⟨prev, act, work, hins⟩
    · exact absurd ⟨r, hr, (congrArg BlockHeader.hash he).symm⟩ hstored
    · refine .inl ⟨prev, q.toBlockHeader, act, work, hins, hqheight, hfresh, ?_⟩
      rcases active_after hq hqact with ⟨r, hr, he, -⟩ | hraise
      · exact absurd ⟨r, hr, congrArg BlockHeader.hash he⟩ hstored
      · exact hraise

end Answers

/-! ### The heights a transaction leaves uncovered -/

/-- The transaction records a marker at or below the height. -/
def marked (txn : List Stmt) (height : Nat) : Bool :=
  txn.any fun stmt => match stmt with
    | .recordPendingReorg m => m ≤ height
    | _ => false

/-- The transaction activates, up to the letters' case, the row of this hash. -/
def pushedIn (txn : List Stmt) (hash : String) : Bool :=
  txn.any fun stmt => match stmt with
    | .canonicalizeHeight pushed _ => eqIgnoreAsciiCase pushed hash
    | _ => false

/-- An older row is answered at the row's height. -/
def outranks (rows : List HeaderRow) (r : HeaderRow) : Bool :=
  (headerForHeight rows r.height).any (·.headerId < r.headerId)

/-- **The heights a transaction leaves uncovered**, read off the store before it: heights up
to a limit, without a marker at or below them, where a new header goes in active beside an
active row; a newer row is activated at another height than the one its batch has it at,
or as the tip; an activation takes off a row that its push names, in other letters or at
another height; a sweep keeps another row than the newest. -/
def uncovered (limit : Nat) (before : Store) (txn : List Stmt) : List Nat :=
  (txn.flatMap fun stmt => match stmt with
    | .insertHeader _ header true _ =>
      if (headerForHash before.rows header.hash).isNone &&
          rivalAt before.rows header.height header.hash then [header.height] else []
    | .activateStored _ hash height =>
      (before.rows.filter fun r => r.hash == hash && (!r.isActive && (r.height != height &&
        outranks before.rows r))).map (·.height)
    | .setChainTipActive hash =>
      (before.rows.filter fun r => r.hash == hash && (!r.isActive &&
        outranks before.rows r)).map (·.height)
    | .canonicalizeHeight hash height =>
      if (headerForHeight before.rows height).any fun r => r.hash != hash && pushedIn txn r.hash
      then [height] else []
    | .dedupeHeight height =>
      if (dedupeKept before.rows height).map (·.headerId) =
          (headerForHeight before.rows height).map (·.headerId) then [] else [height]
    | _ => []).filter fun height => height ≤ limit && !marked txn height

/-- **An activation marks its rivals**: where it takes off an active row that its push does
not name, it records a marker at or below the row. -/
def MarksRivals (before : Store) (txn : List Stmt) : Prop :=
  ∀ r ∈ before.rows, r.isActive = true → ∀ hash, .canonicalizeHeight hash r.height ∈ txn →
    pushedIn txn r.hash = false → marked txn r.height = true

section Uncovered

variable {limit height : Nat} {before : Store} {txn : List Stmt} {r s : HeaderRow} {hash : String}

theorem outranks_iff (h : headerForHeight before.rows r.height = some s) :
    outranks before.rows r = true ↔ s.headerId < r.headerId := by
  simp [outranks, h]

theorem uncovered_insert {prev : Option Nat} {header : BlockHeader} {work : Nat}
    (hle : header.height ≤ limit) (hmark : marked txn header.height = false)
    (hs : .insertHeader prev header true work ∈ txn)
    (hfresh : headerForHash before.rows header.hash = none) (ho : r ∈ before.rows)
    (hact : r.isActive = true) (hheight : r.height = header.height) :
    header.height ∈ uncovered limit before txn := by
  refine List.mem_filter.mpr ⟨List.mem_flatMap.mpr ⟨_, hs, ?_⟩, by simp [hle, hmark]⟩
  have hrival := rivalAt_iff.mpr ⟨r, ho, hact, hheight, headerForHash_eq_none.mp hfresh r ho⟩
  dsimp only
  rw [hfresh, hrival]
  exact List.mem_singleton_self _

theorem uncovered_stored {work free : Nat} (hle : r.height ≤ limit)
    (hmark : marked txn r.height = false) (hs : .activateStored work r.hash free ∈ txn)
    (hr : r ∈ before.rows) (hact : r.isActive = false) (hne : r.height ≠ free)
    (hout : outranks before.rows r = true) : r.height ∈ uncovered limit before txn := by
  refine List.mem_filter.mpr ⟨List.mem_flatMap.mpr ⟨_, hs, ?_⟩, by simp [hle, hmark]⟩
  exact List.mem_map.mpr ⟨r, List.mem_filter.mpr ⟨hr, by simp [hact, hne, hout]⟩, rfl⟩

theorem uncovered_tip (hle : r.height ≤ limit) (hmark : marked txn r.height = false)
    (hs : .setChainTipActive r.hash ∈ txn) (hr : r ∈ before.rows) (hact : r.isActive = false)
    (hout : outranks before.rows r = true) : r.height ∈ uncovered limit before txn := by
  refine List.mem_filter.mpr ⟨List.mem_flatMap.mpr ⟨_, hs, ?_⟩, by simp [hle, hmark]⟩
  exact List.mem_map.mpr ⟨r, List.mem_filter.mpr ⟨hr, by simp [hact, hout]⟩, rfl⟩

theorem uncovered_activation (hle : height ≤ limit) (hmark : marked txn height = false)
    (hs : .canonicalizeHeight hash height ∈ txn)
    (h : headerForHeight before.rows height = some s) (hne : s.hash ≠ hash)
    (hpushed : pushedIn txn s.hash = true) : height ∈ uncovered limit before txn := by
  refine List.mem_filter.mpr ⟨List.mem_flatMap.mpr ⟨_, hs, ?_⟩, by simp [hle, hmark]⟩
  simp [h, hne, hpushed]

theorem uncovered_sweep (hle : height ≤ limit) (hmark : marked txn height = false)
    (hs : .dedupeHeight height ∈ txn)
    (hne : (dedupeKept before.rows height).map (·.headerId) ≠
      (headerForHeight before.rows height).map (·.headerId)) :
    height ∈ uncovered limit before txn := by
  refine List.mem_filter.mpr ⟨List.mem_flatMap.mpr ⟨_, hs, ?_⟩, by simp [hle, hmark]⟩
  dsimp only
  rw [if_neg hne]
  exact List.mem_singleton_self _

theorem marked_of_mem {m : Nat} (hs : .recordPendingReorg m ∈ txn) (hle : m ≤ height) :
    marked txn height = true :=
  List.any_eq_true.mpr ⟨_, hs, decide_eq_true hle⟩

end Uncovered

/-! ### One transaction -/

section Moves

variable {params : ChainParams} {w : World} {txn : List Stmt} {limit height : Nat}

/-- A transaction that neither takes a row off nor names one replaces no answer. -/
theorem not_replaced_of_unnamed {t : HeaderTable}
    (hrep : Replaced t (onHeadersAll txn t) height)
    (hlow : ∀ stmt ∈ txn, ∀ hash, ¬stmt.Lowers height hash)
    (hlift : ∀ stmt ∈ txn, ∀ t' hash, ¬stmt.Restores t' hash height)
    (hraise : ∀ stmt ∈ txn, ∀ hash, ¬stmt.Raises hash) : False := by
  obtain ⟨s, hs, hne⟩ := hrep
  rcases Replaced.cases hs hne fun stmt hm => hlow stmt hm _ with
    ⟨_, _, _, _, -, -, -, stmt, hm, hr⟩ | ⟨r, -, -, -, -, pre, stmt, post, rfl, hl⟩
  · exact hraise stmt hm _ hr
  · exact hlift stmt (List.mem_append_right _ List.mem_cons_self) _ _ hl

/-- A reorg covers what it touches: it takes rows off above its ancestor and activates rows
above it, and its marker is there. -/
theorem Replaced.of_reorg {db : Store} {new oldTip : LinkedHeader} {row : HeaderRow}
    {plan : ReorgPlan} (hrow : row ∈ db.rows) (hsame : row.toBlockHeader = new.toBlockHeader)
    (hplan : planReorg db.rows new oldTip = .ok plan)
    (hrep : Replaced db.headers (onHeadersAll (plan.txn new.hash) db.headers) height)
    (hle : height ≤ limit) (hmark : marked (plan.txn new.hash) height = false) :
    height ∈ uncovered limit db (plan.txn new.hash) := by
  obtain ⟨ancestor, -, hanc, hbranch, -⟩ := planReorg_ok hplan
  have hbelow : height ≤ plan.ancestorHeight := by
    by_contra hgt
    have hm : Stmt.recordPendingReorg (plan.ancestorHeight + 1) ∈ plan.txn new.hash := by
      simp [ReorgPlan.txn]
    rw [marked_of_mem hm (by omega)] at hmark
    cases hmark
  obtain ⟨s, hs, hne⟩ := hrep
  have hlow : ∀ stmt ∈ plan.txn new.hash, ¬stmt.Lowers height s.hash := by
    intro stmt hm
    simp only [ReorgPlan.txn, List.cons_append, List.mem_cons, List.mem_append, List.mem_map,
      List.not_mem_nil, or_false] at hm
    rcases hm with rfl | ⟨hash, -, rfl⟩ | rfl | rfl | rfl
    · exact Nat.not_lt.mpr hbelow
    all_goals exact id
  rcases Replaced.cases hs hne hlow with
    ⟨_, _, _, _, hins, -⟩ | ⟨r, hr, hact, hheight, hnewer, pre, stmt, post, htxn, hlift⟩
  · simp [ReorgPlan.txn] at hins
  · have hm : stmt ∈ plan.txn new.hash := htxn ▸ List.mem_append_right _ List.mem_cons_self
    have hstmt := hm
    simp only [ReorgPlan.txn, List.cons_append, List.mem_cons, List.mem_append, List.mem_map,
      List.not_mem_nil, or_false] at hstmt
    rcases hstmt with rfl | ⟨hash, hb, rfl⟩ | rfl | rfl | rfl
    · exact hlift.elim
    · -- a row of the branch stands above the ancestor
      have hb : r.hash ∈ plan.branch := hlift ▸ hb
      have hhash : row.hash = new.hash := congrArg BlockHeader.hash hsame
      have habove : row.height = new.height := congrArg BlockHeader.height hsame
      rcases branchAbove_mem hbranch hb with ⟨heq, hlt⟩ | ⟨q, hq, heq, hlt⟩
      · rw [HeaderTable.eq_of_hash hr hrow (heq.trans hhash.symm)] at hheight
        omega
      · rw [HeaderTable.eq_of_hash hr hq heq.symm] at hheight
        omega
    · exact hlift.elim
    · exact hlift.elim
    · subst hheight
      have hhash : new.hash = r.hash := hlift
      exact uncovered_tip hle hmark (hhash ▸ hm) hr hact ((outranks_iff hs).mpr hnewer)

/-- The answers a transaction of the live path replaces. -/
theorem Replaced.of_live {offered : BlockHeader → Prop} (hmove : LiveMove params offered w txn)
    (hrep : Replaced w.db.headers (onHeadersAll txn w.db.headers) height) (hle : height ≤ limit)
    (hmark : marked txn height = false) : height ∈ uncovered limit w.db txn := by
  cases hmove with
  | insertion header a given pow fresh =>
    obtain ⟨s, hs, hne⟩ := hrep
    obtain ⟨hsm, hsact, hsheight⟩ := headerForHeight_spec hs
    by_cases hact : a.isActive header = true
    · rw [Admission.txn, if_pos hact, Admission.insertion, hact] at hne hmark ⊢
      rcases Replaced.cases hs hne (by simp [Stmt.Lowers]) with
        ⟨_, _, _, _, hins, rfl, -⟩ | ⟨r, hr, -, -, -, pre, stmt, post, htxn, hlift⟩
      · simp only [List.mem_cons, Stmt.insertHeader.injEq, reduceCtorEq, List.not_mem_nil,
          or_false] at hins
        obtain ⟨-, rfl, -⟩ := hins
        exact uncovered_insert hle hmark List.mem_cons_self fresh hsm hsact hsheight
      · -- the one row named is new
        have hm : stmt ∈ pre ++ stmt :: post := List.mem_append_right _ List.mem_cons_self
        rw [← htxn] at hm
        simp only [List.mem_cons, List.not_mem_nil, or_false] at hm
        rcases hm with rfl | rfl | rfl
        · exact hlift.elim
        · exact hlift.elim
        · exact absurd (show header.hash = r.hash from hlift).symm
            (headerForHash_eq_none.mp fresh r hr)
    · rw [Admission.txn, if_neg hact, Admission.insertion] at hne
      refine (not_replaced_of_unnamed ⟨s, hs, hne⟩ ?_ ?_ ?_).elim <;>
        simp [Stmt.Lowers, Stmt.Restores, Stmt.Raises, hact]
  | reorg new row tip plan stored same link flagged apart outworks cleared planned =>
    exact Replaced.of_reorg stored same planned hrep hle hmark
  | moveTip row stored =>
    obtain ⟨s, hs, hne⟩ := hrep
    rcases Replaced.cases hs hne (by simp [moveTipTxn, Stmt.Lowers]) with
      ⟨_, _, _, _, hins, -⟩ | ⟨r, hr, hact, rfl, hnewer, pre, stmt, post, htxn, hlift⟩
    · simp [moveTipTxn] at hins
    · have hm : stmt ∈ moveTipTxn row.hash :=
        htxn ▸ List.mem_append_right _ List.mem_cons_self
      have hstmt := hm
      simp only [moveTipTxn, List.mem_cons, List.not_mem_nil, or_false] at hstmt
      rcases hstmt with rfl | rfl
      · exact hlift.elim
      · have hhash : row.hash = r.hash := hlift
        exact uncovered_tip hle hmark (hhash ▸ hm) hr hact ((outranks_iff hs).mpr hnewer)
  | relink =>
    refine (not_replaced_of_unnamed hrep ?_ ?_ ?_).elim <;>
      simp [Stmt.Lowers, Stmt.Restores, Stmt.Raises]

/-- The answers a chunk of a batch replaces. -/
theorem Replaced.of_bulk {headers : List BlockHeader}
    (hwrites : ∀ stmt ∈ txn, ∃ x ∈ headers, ∃ work,
      stmt = .activateStored work x.hash x.height ∨ stmt = .insertHeader none x true work)
    (hrep : Replaced w.db.headers (onHeadersAll txn w.db.headers) height) (hle : height ≤ limit)
    (hmark : marked txn height = false) : height ∈ uncovered limit w.db txn := by
  have hlow : ∀ stmt ∈ txn, ∀ height hash, ¬stmt.Lowers height hash := by
    intro stmt hm height hash
    obtain ⟨x, -, work, rfl | rfl⟩ := hwrites stmt hm <;> exact id
  obtain ⟨s, hs, hne⟩ := hrep
  obtain ⟨hsm, hsact, hsheight⟩ := headerForHeight_spec hs
  rcases Replaced.cases hs hne fun stmt hm => hlow stmt hm _ _ with
    ⟨prev, header, act, work, hins, rfl, hfresh, -⟩ |
      ⟨r, hr, hact, rfl, hnewer, pre, stmt, post, htxn, hlift⟩
  · have hins' := hins
    obtain ⟨x, -, work', heq | heq⟩ := hwrites _ hins'
    · cases heq
    · cases heq
      exact uncovered_insert hle hmark hins hfresh hsm hsact hsheight
  · have hm : stmt ∈ txn := htxn ▸ List.mem_append_right _ List.mem_cons_self
    obtain ⟨x, -, work, rfl | rfl⟩ := hwrites stmt hm
    · obtain ⟨hhash, hfree⟩ := hlift
      -- the answer is still active when the statement runs, so its height is not free
      obtain ⟨o, ho, he, -, hoa⟩ := @active_kept _ _ pre hsm hsact fun stmt hm =>
        hlow stmt (htxn ▸ List.mem_append_left _ hm) _ _
      have hplace : r.height ≠ x.height := fun heq =>
        hfree o ho hoa (((congrArg BlockHeader.height he).trans hsheight).trans heq)
      exact uncovered_stored hle hmark (hhash ▸ hm) hr hact hplace
        ((outranks_iff hs).mpr hnewer)
    · exact hlift.elim

/-- The answers an activation replaces: it marks those its push does not name. -/
theorem Replaced.of_activation {db : Store} {headers : List BlockHeader} {last : BlockHeader}
    {child : String} {lowest : Option Nat}
    (hmarks : MarksRivals db (activationTxn headers last child lowest))
    (hrep : Replaced db.headers (onHeadersAll (activationTxn headers last child lowest) db.headers)
      height)
    (hle : height ≤ limit) (hmark : marked (activationTxn headers last child lowest) height = false) :
    height ∈ uncovered limit db (activationTxn headers last child lowest) := by
  generalize htxn : activationTxn headers last child lowest = txn at *
  have hstmts : ∀ stmt ∈ txn, (∃ x ∈ headers, stmt = .canonicalizeHeight x.hash x.height) ∨
      (∀ t hash, ¬stmt.Lowers height hash ∧ ¬stmt.Restores t hash height ∧ ¬stmt.Raises hash) ∧
        ∀ prev header act work, stmt ≠ .insertHeader prev header act work := by
    intro stmt hm
    rw [← htxn, activationTxn] at hm
    simp only [List.mem_append, List.mem_map, List.mem_cons, Option.mem_toList,
      Option.map_eq_some_iff] at hm
    rcases hm with ⟨x, hx, rfl⟩ | rfl | ⟨m, -, rfl⟩
    · exact .inl ⟨x, hx, rfl⟩
    · exact .inr ⟨fun _ _ => ⟨id, id, id⟩, fun _ _ _ _ h => by cases h⟩
    · exact .inr ⟨fun _ _ => ⟨id, id, id⟩, fun _ _ _ _ h => by cases h⟩
  obtain ⟨s, hs, hne⟩ := hrep
  obtain ⟨hsm, hsact, rfl⟩ := headerForHeight_spec hs
  by_contra hcov
  -- what the push has at the height is the answer itself
  have hown : ∀ hash, .canonicalizeHeight hash s.height ∈ txn → hash = s.hash := by
    intro hash hm
    by_contra hother
    cases hpushed : pushedIn txn s.hash with
    | true => exact hcov (uncovered_activation hle hmark hm hs (Ne.symm hother) hpushed)
    | false =>
      rw [hmarks s hsm hsact hash hm hpushed] at hmark
      cases hmark
  have hlow : ∀ stmt ∈ txn, ¬stmt.Lowers s.height s.hash := by
    intro stmt hm hlower
    rcases hstmts stmt hm with ⟨x, -, rfl⟩ | ⟨hquiet, -⟩
    · obtain ⟨hplace, hother⟩ := hlower
      rw [hplace] at hm
      exact hother (hown _ hm)
    · exact (hquiet db.headers _).1 hlower
  rcases Replaced.cases hs hne hlow with
    ⟨prev, header, act, work, hins, -⟩ | ⟨r, hr, hact, -, -, pre, stmt, post, hsplit, hlift⟩
  · rcases hstmts _ hins with ⟨x, -, heq⟩ | ⟨-, hnone⟩
    · cases heq
    · exact hnone _ _ _ _ rfl
  · have hm : stmt ∈ txn := hsplit ▸ List.mem_append_right _ List.mem_cons_self
    rcases hstmts stmt hm with ⟨x, -, rfl⟩ | ⟨hquiet, -⟩
    · obtain ⟨hhash, hplace⟩ := hlift
      rw [hplace] at hm
      rw [HeaderTable.eq_of_hash hr hsm (hhash.symm.trans (hown _ hm)), hsact] at hact
      cases hact
    · exact (hquiet _ _).2.1 hlift

/-- The answers a sweep replaces. -/
theorem Replaced.of_sweep {db : Store} {swept : Nat}
    (hrep : Replaced db.headers (onHeadersAll [.dedupeHeight swept] db.headers) height)
    (hle : height ≤ limit) : height ∈ uncovered limit db [.dedupeHeight swept] := by
  obtain ⟨s, hs, hne⟩ := hrep
  obtain ⟨hsm, hsact, hsheight⟩ := headerForHeight_spec hs
  by_cases hplace : swept = height
  · subst hplace
    refine uncovered_sweep hle rfl List.mem_cons_self fun hkept => hne ?_
    -- the newest row is the one kept
    rw [hs, Option.map_some] at hkept
    refine answer_kept hs ?_ fun q hq hqact hqheight => ?_
    · refine ⟨_, HeaderTable.mem_update.mpr ⟨s, hsm, rfl⟩, ?_⟩
      rw [if_neg (by simp [hkept])]
      exact ⟨rfl, rfl, hsact⟩
    · obtain ⟨o, ho, rfl⟩ := HeaderTable.mem_update.mp hq
      by_cases hc : (o.height == swept && o.isActive &&
          some o.headerId != (dedupeKept db.headers.rows swept).map (·.headerId)) = true
      · rw [if_pos hc] at hqact
        cases hqact
      · rw [if_neg hc] at hqact hqheight ⊢
        exact headerId_le_answer hs ho hqact hqheight
  · rcases Replaced.cases hs hne (by simp [Stmt.Lowers, hplace]) with
      ⟨_, _, _, _, hins, -⟩ | ⟨r, -, -, -, -, pre, stmt, post, hsplit, hlift⟩
    · simp at hins
    · have hm : stmt ∈ [Stmt.dedupeHeight swept] :=
        hsplit ▸ List.mem_append_right _ List.mem_cons_self
      rw [List.mem_singleton] at hm
      subst hm
      exact hlift.elim

/-- **Every replaced answer is marked, or its height is uncovered.** -/
theorem Replaced.covered (hmove : Move params w txn) (hmarks : MarksRivals w.db txn)
    (hrep : Replaced w.db.headers (onHeadersAll txn w.db.headers) height) (hle : height ≤ limit) :
    marked txn height = true ∨ height ∈ uncovered limit w.db txn := by
  cases hmark : marked txn height with
  | true => exact .inl rfl
  | false =>
    right
    cases hmove with
    | live hlive => exact Replaced.of_live hlive hrep hle hmark
    | bulk headers _ linked pow cleared writes => exact Replaced.of_bulk writes hrep hle hmark
    | activation headers last child lowest =>
      exact Replaced.of_activation hmarks hrep hle hmark
    | dedupe swept => exact Replaced.of_sweep hrep hle
    | flagTip top =>
      refine (not_replaced_of_unnamed hrep ?_ ?_ ?_).elim <;>
        simp [flagTipTxn, Stmt.Lowers, Stmt.Restores, Stmt.Raises]
    | linkSpan =>
      refine (not_replaced_of_unnamed hrep ?_ ?_ ?_).elim <;>
        simp [Stmt.Lowers, Stmt.Restores, Stmt.Raises]
    | progress _ writes =>
      refine (not_replaced_of_unnamed hrep ?_ ?_ ?_).elim <;> intro stmt hm <;>
        obtain ⟨x, work, rfl, -⟩ := writes stmt hm <;>
        simp [Stmt.Lowers, Stmt.Restores, Stmt.Raises]
    | repair _ writes =>
      refine (not_replaced_of_unnamed hrep ?_ ?_ ?_).elim <;> intro stmt hm <;>
        obtain ⟨work, id, rfl⟩ := writes stmt hm <;>
        simp [Stmt.Lowers, Stmt.Restores, Stmt.Raises]

end Moves

/-! ### The five operations -/

/-- The operations that change which rows are answered. -/
inductive Operation
  | insertHeader (header : BlockHeader)
  | relinkOrphanAndReevaluate (hash : String)
  | ingestPushed (headers : List BlockHeader)
  | dedupeActiveHeights
  | healLinks (report : LinkReport)

/-- The operation as a call of its writer. -/
def Operation.call : Operation → Call
  | insertHeader header => .insertHeader header
  | relinkOrphanAndReevaluate hash => .relinkOrphanAndReevaluate hash
  | ingestPushed headers => .ingestPushed headers
  | dedupeActiveHeights => .dedupeActiveHeights
  | healLinks report => .healLinks report

/-- A transaction whose activation, if it is one, marks its rivals. -/
def MarkingMove (params : ChainParams) (w : World) (txn : List Stmt) : Prop :=
  Move params w txn ∧ MarksRivals w.db txn

section Operations

variable {env : Env} {params : ChainParams} {w : World} {headers : List BlockHeader}

/-- A transaction that activates no push has no rivals to mark. -/
theorem marksRivals_of_none {before : Store} {txn : List Stmt}
    (h : ∀ hash height, .canonicalizeHeight hash height ∉ txn) : MarksRivals before txn :=
  fun _ _ _ hash hm => absurd hm (h hash _)

theorem LiveMove.marking {offered : BlockHeader → Prop} {txn : List Stmt}
    (h : LiveMove params offered w txn) : MarkingMove params w txn := by
  refine ⟨.live (h.mono fun _ _ => trivial), marksRivals_of_none fun hash height => ?_⟩
  cases h with
  | insertion header a =>
    unfold Admission.txn Admission.insertion
    split <;> simp
  | reorg => simp [ReorgPlan.txn]
  | moveTip => simp [moveTipTxn]
  | relink => simp

theorem BatchMove.marking {txn : List Stmt} (h : BatchMove params w txn) :
    MarkingMove params w txn := by
  cases h with
  | live move => exact move.marking
  | bulk headers _ linked pow cleared writes =>
    refine ⟨.bulk headers txn linked pow cleared writes, marksRivals_of_none fun hash height hm => ?_⟩
    obtain ⟨x, -, work, hw | hw⟩ := writes _ hm <;> cases hw

/-- **An activation marks its rivals**: the lowest of the rows it read active at its heights
that its push does not name. -/
theorem marksRivals_of_plan {rows : List HeaderRow} {first last : BlockHeader} {child : String}
    {rivals : List HeaderRow} {db : Store} (hrows : db.rows = rows) (hlinked : LinkedRun headers)
    (hfirst : headers.head? = some first) (hlast : headers.getLast? = some last)
    (hplan : planCanonical rows headers first last = .activate child rivals) :
    MarksRivals db (activationTxn headers last child (rivals.map (·.height)).min?) := by
  subst hrows
  intro r hr hact hash hm hnot
  obtain ⟨x, hx, hplace⟩ : ∃ x ∈ headers, x.height = r.height := by
    simp only [activationTxn, List.mem_append, List.mem_map, List.mem_cons, Option.mem_toList,
      Option.map_eq_some_iff, reduceCtorEq, and_false, exists_false, or_false,
      Stmt.canonicalizeHeight.injEq] at hm
    obtain ⟨x, hx, -, hplace⟩ := hm
    exact ⟨x, hx, hplace⟩
  have hunnamed : ∀ y ∈ headers, eqIgnoreAsciiCase y.hash r.hash = false := by
    intro y hy
    have hall := List.any_eq_false.mp hnot (.canonicalizeHeight y.hash y.height)
      (List.mem_append_left _ (List.mem_map.mpr ⟨y, hy, rfl⟩))
    simpa using hall
  have hrange : first.height ≤ r.height ∧ r.height ≤ last.height := by
    have htop := hlinked.le_last hlast hx
    cases headers with
    | nil => cases hfirst
    | cons y ys =>
      cases hfirst
      have hbottom := hlinked.first_le hx
      omega
  have hrival : r ∈ rivals := by
    unfold planCanonical at hplan
    dsimp only at hplan
    split at hplan
    · cases hplan
    · split at hplan
      · cases hplan
      · split at hplan
        · cases hplan
        · split at hplan
          · cases hplan
          · cases hplan
            refine List.mem_filter.mpr ⟨mem_activeHeadersBetween.mpr ⟨hr, hact, ?_⟩, ?_⟩
            · omega
            · simpa [hrange.2] using hunnamed
  cases hmin : (rivals.map (·.height)).min? with
  | none =>
    rw [List.min?_eq_none_iff, List.map_eq_nil_iff] at hmin
    rw [hmin] at hrival
    cases hrival
  | some m =>
    have hle : m ≤ r.height :=
      (List.min?_eq_some_iff.mp hmin).2 _ (List.mem_map_of_mem hrival)
    refine marked_of_mem (m := m) ?_ hle
    exact List.mem_append_right _ (List.mem_cons_of_mem _ List.mem_cons_self)

theorem marking_span (w : World) (lo hi : Nat) : MarkingMove params w [.linkSpan lo hi] :=
  ⟨.linkSpan lo hi, marksRivals_of_none fun hash height => by simp⟩

theorem via_pushed (env : Env) (params : ChainParams) (headers : List BlockHeader) (w : World) :
    Prog.Via (Step params (MarkingMove params)) (ingestPushed env params headers) w := by
  refine Prog.Via.bind ?_ fun inserted s hs => ?_
  · exact (via_batch env params headers w).mono fun _ _ hs => hs.mono fun _ _ hm => hm.marking
  · obtain ⟨hlinked, hcleared⟩ := insertHeadersBatch_ok hs
    refine via_canonicalizePushed inserted (marking_span s) (fun w' top htop => ?_) ?_
    · exact ⟨.flagTip top htop, marksRivals_of_none fun hash height => by simp [flagTipTxn]⟩
    · intro first last child rivals hfirst hlast hplan
      refine ⟨?_, marksRivals_of_plan rfl hlinked hfirst hlast hplan⟩
      obtain ⟨row, hrow, rfl, hactive, hheight, -⟩ := planCanonical_activate hplan
      refine .activation headers last row _ hcleared hrow hactive fun h hh => ?_
      have := hlinked.le_last hlast hh
      omega

/-- **The transactions of the five operations.** -/
theorem via_operation (env : Env) (params : ChainParams) (op : Operation) (w : World) :
    Relation.ReflTransGen (Step params (MarkingMove params)) w (op.call.run env params w) := by
  have hsweep : ∀ heights w,
      Prog.Via (Step params (MarkingMove params)) (dedupeEach env heights) w := by
    intro heights
    induction heights with
    | nil => exact fun w => Prog.Via.pure _
    | cons height heights ih =>
      intro w
      refine Prog.Via.bind ?_ fun swept s _ => Prog.Via.bind (ih s) fun _ s' _ => Prog.Via.pure _
      unfold dedupeOne readRows
      refine Prog.Via.read_bind (Prog.Via.bind (via_commit ⟨.dedupe height, ?_⟩) fun _ s _ =>
        Prog.Via.pure _)
      exact marksRivals_of_none fun hash height => by simp
  cases op with
  | insertHeader header =>
    exact (@via_insertHeader (fun _ => True) _ env params trivial w).mono
      fun _ _ hs => hs.mono fun _ _ hm => hm.marking
  | relinkOrphanAndReevaluate hash =>
    exact (@via_relink (fun _ => True) env params hash w).mono
      fun _ _ hs => hs.mono fun _ _ hm => hm.marking
  | ingestPushed headers => exact via_pushed env params headers w
  | dedupeActiveHeights =>
    change Prog.Via _ (dedupeActiveHeights env) w
    unfold dedupeActiveHeights readRows
    exact Prog.Via.read_bind (hsweep _ w)
  | healLinks report =>
    refine via_heal report (via_pushed env params) (fun read w => ?_) marking_span w
    refine via_progress env read (fun w' chunk writes => ⟨.progress chunk writes, ?_⟩) w
    refine marksRivals_of_none fun hash height hm => ?_
    obtain ⟨x, work, hw, -⟩ := writes _ hm
    cases hw

end Operations

/-! ### The marker over an operation -/

section Marker

variable {env : Env} {params : ChainParams} {now : Nat} {db : Store} {txn : List Stmt}
  {height m : Nat}

theorem Stmt.pending_le (stmt : Stmt) {sync : SyncState} (h : sync.pendingReorgFrom = some m) :
    ∃ m' ≤ m, (stmt.onSync sync).pendingReorgFrom = some m' := by
  cases stmt with
  | recordPendingReorg height =>
    refine ⟨min m height, Nat.min_le_left _ _, ?_⟩
    simp only [Stmt.onSync, h]
  | _ => exact ⟨m, Nat.le_refl m, h⟩

/-- No transaction raises the marker or clears it. -/
theorem pending_le_execAll (h : db.sync.pendingReorgFrom = some m) :
    ∃ m' ≤ m, (execAll now txn db).sync.pendingReorgFrom = some m' := by
  induction txn generalizing db m with
  | nil => exact ⟨m, Nat.le_refl m, h⟩
  | cons stmt txn ih =>
    obtain ⟨m', hle, hm'⟩ := stmt.pending_le h
    obtain ⟨m'', hle', hm''⟩ := @ih (stmt.exec now db) m' (by rw [exec_sync, hm'])
    exact ⟨m'', hle'.trans hle, hm''⟩

/-- A transaction that records a marker at or below a height leaves one there. -/
theorem pending_of_marked (h : marked txn height = true) :
    ∃ m ≤ height, (execAll now txn db).sync.pendingReorgFrom = some m := by
  induction txn generalizing db with
  | nil => cases h
  | cons stmt txn ih =>
    rw [marked, List.any_cons, Bool.or_eq_true] at h
    rcases h with hstmt | hrest
    · cases stmt with
      | recordPendingReorg m =>
        have hle : m ≤ height := of_decide_eq_true hstmt
        obtain ⟨m', hle', hm'⟩ := @pending_le_execAll now
          ((Stmt.recordPendingReorg m).exec now db) txn _ (by rw [exec_sync, Stmt.onSync])
        refine ⟨m', hle'.trans ?_, hm'⟩
        split
        · exact (Nat.min_le_right _ _).trans hle
        · exact hle
      | _ => cases hstmt
    · exact ih hrest

/-- The marker covers what was replaced up to a limit: after it all, and in each
transaction that replaced it. -/
structure CoversTo (limit : Nat) (w w' : World) : Prop where
  pending : ∀ height ≤ limit, Replaced w.db.headers w'.db.headers height →
    ∃ m ≤ height, w'.db.sync.pendingReorgFrom = some m
  recorded : EachCommit (fun _ before txn after => ∀ height ≤ limit,
    Replaced before.headers after.headers height → marked txn height = true) (w'.since w)

/-- **The marker covers what was replaced**, at every height up to the tip there was. -/
def MarkerCovers (w w' : World) : Prop :=
  ∀ tip, chainTip w.db.rows = some tip → CoversTo tip.height w w'

/-- An operation whose transactions leave no height up to a limit uncovered. -/
theorem coversTo_of_covered (env : Env) (params : ChainParams) (op : Operation) (w : World)
    (limit : Nat) (h : EachCommit (fun _ before txn _ => uncovered limit before txn = [])
      ((op.call.run env params w).since w)) : CoversTo limit w (op.call.run env params w) := by
  have hmarked : ∀ w' now txn, MarkingMove params w' txn → uncovered limit w'.db txn = [] →
      ∀ height ≤ limit, Replaced w'.db.headers (execAll now txn w'.db).headers height →
        marked txn height = true := by
    intro w' now txn hmove hcond height hle hrep
    rw [execAll_headers] at hrep
    refine (Replaced.covered hmove.1 hmove.2 hrep hle).resolve_right fun hm => ?_
    rw [hcond] at hm
    cases hm
  have hrun : (∀ height ≤ limit, ∀ r, headerForHeight w.db.rows height = some r →
      (headerForHeight (op.call.run env params w).db.rows height).map (·.hash) = some r.hash ∨
        ∃ m ≤ height, (op.call.run env params w).db.sync.pendingReorgFrom = some m) ∧
      EachCommit (fun _ before txn after => ∀ height ≤ limit,
        Replaced before.headers after.headers height → marked txn height = true)
        ((op.call.run env params w).since w) := by
    refine @steps_since params (MarkingMove params) _ _
      (fun w' => ∀ height ≤ limit, ∀ r, headerForHeight w.db.rows height = some r →
        (headerForHeight w'.db.rows height).map (·.hash) = some r.hash ∨
          ∃ m ≤ height, w'.db.sync.pendingReorgFrom = some m)
      (fun _ hw => hw) (fun _ _ _ _ hw => hw) (fun w' now txn hmove hw hcond => ?_) _ _
      (fun height _ r hr => .inl (by rw [hr]; rfl)) (via_operation env params op w) h
    refine ⟨fun height hle r hr => ?_, hmarked w' now txn hmove hcond⟩
    rcases hw height hle r hr with hkept | ⟨m, hm, hpend⟩
    · by_cases hsame : (headerForHeight (execAll now txn w'.db).rows height).map (·.hash) =
          some r.hash
      · exact .inl hsame
      · -- replaced by this transaction, and marked in it
        obtain ⟨q, hq, hhash⟩ := Option.map_eq_some_iff.mp hkept
        exact .inr (pending_of_marked
          (hmarked w' now txn hmove hcond height hle ⟨q, hq, by rwa [hhash]⟩))
    · obtain ⟨m', hle', hm'⟩ := @pending_le_execAll now w'.db txn m hpend
      exact .inr ⟨m', hle'.trans hm, hm'⟩
  refine ⟨fun height hle hrep => ?_, hrun.2⟩
  obtain ⟨r, hr, hne⟩ := hrep
  exact (hrun.1 height hle r hr).resolve_left hne

/-- **An operation that leaves no height uncovered covers every answer it replaces**, at
every height up to the tip, ended or cut at any of its transactions. -/
theorem markerCovers_of_covered (env : Env) (params : ChainParams) (op : Operation) (w : World)
    (h : ∀ tip, chainTip w.db.rows = some tip →
      EachCommit (fun _ before txn _ => uncovered tip.height before txn = [])
        ((op.call.run env params w).since w)) :
    MarkerCovers w (op.call.run env params w) :=
  fun tip htip => coversTo_of_covered env params op w tip.height (h tip htip)

open Regtest in
/-- A reorg two heights deep: its marker covers both. -/
theorem markerCovers_of_covered_reorg :
    MarkerCovers (runAll host Regtest.params
        (([genesis, a1, a2, b1, b2] : List BlockHeader).map .insertHeader) .init)
      ((Operation.insertHeader b3).call.run host Regtest.params (runAll host Regtest.params
        (([genesis, a1, a2, b1, b2] : List BlockHeader).map .insertHeader) .init)) := by
  refine markerCovers_of_covered host Regtest.params (.insertHeader b3) _ fun tip htip => ?_
  have hheight : (chainTip (runAll host Regtest.params
      (([genesis, a1, a2, b1, b2] : List BlockHeader).map .insertHeader) .init).db.rows).map
        (·.height) = some 2 := by decide +kernel
  rw [htip, Option.map_some, Option.some_inj] at hheight
  rw [hheight]
  have hnone := @EachCommit.of_eachCommit
    (((Operation.insertHeader b3).call.run host Regtest.params (runAll host Regtest.params
      (([genesis, a1, a2, b1, b2] : List BlockHeader).map .insertHeader) .init)).since
        (runAll host Regtest.params
          (([genesis, a1, a2, b1, b2] : List BlockHeader).map .insertHeader) .init))
    (fun _ before txn _ => (uncovered 2 before txn).isEmpty) (by decide +kernel)
  exact fun later before txn after earlier heq =>
    List.isEmpty_iff.mp (hnone later before txn after earlier heq)

open Regtest in
/-- The service after a backfill above the flag and the insertion of a rival of its first
header: the rival has the flag, and is answered at its height. -/
def rivalFlagged : World :=
  runAll host Regtest.params [.insertHeader genesis, .backfillWrite [a1, a2], .insertHeader b1] .init

open Regtest in
/-- **A sweep replaces an answer and marks nothing**: it keeps the backfill's header, which
the next height extends, and the answer was its rival, the newer row. -/
theorem sweep_unmarked :
    ((chainTip rivalFlagged.db.rows).map (·.height) = some 1 ∧
      (headerForHeight rivalFlagged.db.rows 1).map (·.hash) = some b1.hash ∧
      (headerForHeight (Operation.dedupeActiveHeights.call.run host Regtest.params
        rivalFlagged).db.rows 1).map (·.hash) = some a1.hash) ∧
      ¬MarkerCovers rivalFlagged
        (Operation.dedupeActiveHeights.call.run host Regtest.params rivalFlagged) := by
  have hanswers : (chainTip rivalFlagged.db.rows).map (·.height) = some 1 ∧
      (headerForHeight rivalFlagged.db.rows 1).map (·.hash) = some b1.hash ∧
      (headerForHeight (Operation.dedupeActiveHeights.call.run host Regtest.params
        rivalFlagged).db.rows 1).map (·.hash) = some a1.hash := by decide +kernel
  refine ⟨hanswers, fun hcovers => ?_⟩
  obtain ⟨htip, hbefore, hafter⟩ := hanswers
  obtain ⟨tip, htip, hheight⟩ := Option.map_eq_some_iff.mp htip
  obtain ⟨r, hr, hhash⟩ := Option.map_eq_some_iff.mp hbefore
  have hreplaced : Replaced rivalFlagged.db.headers (Operation.dedupeActiveHeights.call.run host
      Regtest.params rivalFlagged).db.headers 1 := by
    refine ⟨r, hr, fun hsame => ?_⟩
    rw [hhash, hafter, Option.some_inj] at hsame
    exact absurd hsame (by decide +kernel)
  obtain ⟨m, -, hm⟩ := (hcovers tip htip).pending 1 hheight.ge hreplaced
  have hnone : (Operation.dedupeActiveHeights.call.run host Regtest.params
      rivalFlagged).db.sync.pendingReorgFrom = none := by decide +kernel
  rw [hnone] at hm
  cases hm

end Marker

end Chaintracks

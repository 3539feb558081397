import Chaintracks.LinkCheck
import Chaintracks.BulkWriters
import Chaintracks.Outcomes

/-!
# The repair of the cumulative work

`repair_cumulative_work` walks the active rows of a window upward from its lowest row, whose
stored work it takes as it is, and writes the cumulative work of every row that stores
another. Where that lowest row stores its own work every active row of the window stores
its own afterwards, and a second repair finds nothing to write
(`Chaintracks.Repairable.exact`,
`Chaintracks.Repairable.repair_again`).

The rows off the active chain are not walked. An insertion added their proofs to what their
parent stored then, so a branch put on a row before its repair still stands on the work that
row stored wrongly, and the comparison with the tip goes by that: it is right of exactly the
rows whose stored work and true work stand on one side of the tip's
(`Chaintracks.repair_right_iff`, `Chaintracks.stale_branch_outweighs`).
-/

namespace Chaintracks

open HeaderRows

/-- The cumulative works of the stored headers, by their hashes: a header stored with its
parent adds its proof to its parent's work, modulo `2^256`. What the lowest of them stands
on is not stored, and its work is what it is. -/
def CumulativeWorks (params : ChainParams) (rows : List HeaderRow) (work : String → Nat) : Prop :=
  ∀ row ∈ rows, ∀ parent ∈ rows, row.previousHash = parent.hash →
    work row.hash = addWork (work parent.hash) (params.bsv.workFromBits row.bits)

/-- `is_more_work`. -/
def isMoreWork (a b : Nat) : Bool := b < a

/-! ### What the repair writes -/

section Writes

variable {params : ChainParams} {rows : List HeaderRow} {work : String → Nat} {lo hi : Nat}

/-- The rewrite of a row. -/
def rewrite (work : String → Nat) (row : HeaderRow) : Stmt :=
  .setChainWork (work row.hash) row.headerId

/-- The rows of linked heights, one after the other, name each the one before. -/
theorem LinkedBetween.isChain (h : LinkedBetween rows lo hi) :
    (activeHeadersBetween rows lo hi).IsChain fun p c => c.previousHash = p.hash := by
  have hfrom : ∀ n k, lo ≤ k → k + n ≤ hi + 1 →
      ((List.range' k n).flatMap (activeAt rows)).IsChain fun p c => c.previousHash = p.hash := by
    intro n
    induction n with
    | zero => exact fun _ _ _ => .nil
    | succ n ih =>
      intro k hlo hhi
      obtain ⟨p, hp⟩ := h.one k hlo (by omega)
      rw [List.range'_succ, List.flatMap_cons, hp, List.singleton_append, List.isChain_cons]
      refine ⟨fun c hc => ?_, ih (k + 1) (by omega) (by omega)⟩
      cases n with
      | zero => cases hc
      | succ n =>
        obtain ⟨q, hq⟩ := h.one (k + 1) (by omega) (by omega)
        rw [List.range'_succ, List.flatMap_cons, hq] at hc
        cases hc
        exact h.names k hlo (by omega) p (by rw [hp]; exact List.mem_singleton_self p) c
          (by rw [hq]; exact List.mem_singleton_self c)
  rw [activeHeadersBetween_eq]
  rcases Nat.lt_or_ge (hi + 1) lo with hlt | hge
  · rw [Nat.sub_eq_zero_of_le (by omega)]
    exact .nil
  · exact hfrom _ lo le_rfl (by omega)

/-- The rows of linked heights begin with the one at the lowest. -/
theorem LinkedBetween.exists_cons (h : LinkedBetween rows lo hi) (hle : lo ≤ hi) :
    ∃ anchor rest, activeHeadersBetween rows lo hi = anchor :: rest ∧
      activeAt rows lo = [anchor] := by
  obtain ⟨anchor, hanchor⟩ := h.one lo le_rfl hle
  refine ⟨anchor, (List.range' (lo + 1) (hi - lo)).flatMap (activeAt rows), ?_, hanchor⟩
  rw [activeHeadersBetween_eq, Nat.succ_sub hle, List.range'_succ, List.flatMap_cons, hanchor,
    List.singleton_append]

/-- **The walk writes the work of every row above it that stores another.** -/
theorem repairs_eq (hworks : CumulativeWorks params rows work) {p : HeaderRow}
    {rest : List HeaderRow} (hrows : ∀ r ∈ p :: rest, r ∈ rows)
    (hchain : (p :: rest).IsChain fun p c => c.previousHash = p.hash) :
    repairs params p.hash (work p.hash) rest =
      (rest.filter fun r => r.chainWork ≠ work r.hash).map (rewrite work) := by
  induction rest generalizing p with
  | nil => rfl
  | cons c rest ih =>
    obtain ⟨hnames, hchain⟩ := List.isChain_cons_cons.mp hchain
    have hwork : work c.hash = addWork (work p.hash) (params.bsv.workFromBits c.bits) :=
      hworks c (hrows c (List.mem_cons_of_mem _ List.mem_cons_self)) p
        (hrows p List.mem_cons_self) hnames
    have ih := ih (fun r hr => hrows r (List.mem_cons_of_mem _ hr)) hchain
    rw [repairs, if_neg (not_not.mpr hnames), ← hwork, List.filter_cons]
    dsimp only
    rw [ih]
    by_cases hsame : c.chainWork = work c.hash
    · rw [if_neg (not_not.mpr hsame), if_neg (by simpa using hsame), List.nil_append]
    · rw [if_pos hsame, if_pos (by simpa using hsame), List.map_cons]
      rfl

end Writes

/-! ### The batches -/

section Batches

theorem flatten_packGroups (groups : List (List Stmt)) (cur : List Stmt) :
    (packGroups groups cur).flatten = cur ++ groups.flatten := by
  induction groups generalizing cur with
  | nil =>
    rw [packGroups]
    split
    · rename_i hempty
      rw [List.isEmpty_iff.mp hempty]
      rfl
    · simp
  | cons g gs ih =>
    rw [packGroups]
    split
    · rw [List.flatten_cons, ih, List.flatten_cons]
    · rw [ih, List.flatten_cons, List.append_assoc]

/-- The batches hold the statements, in order. -/
theorem flatten_packStmts (stmts : List Stmt) : (packStmts stmts).flatten = stmts := by
  rw [packStmts, flatten_packGroups, List.nil_append, ← List.flatMap_def, List.flatMap_singleton']

variable {env : Env} {now : Nat} {t : HeaderTable} {db : Store} {w w' : World} {work : String → Nat}
  {stmt : Stmt}

/-- A row after the work of an id was written. -/
def setWork (chainWork headerId : Nat) (row : HeaderRow) : HeaderRow :=
  if row.headerId == headerId then { row with chainWork } else row

section SetWork

variable {chainWork headerId : Nat} {row : HeaderRow}

@[simp] theorem setWork_header : (setWork chainWork headerId row).toBlockHeader = row.toBlockHeader := by
  unfold setWork
  split <;> rfl

@[simp] theorem setWork_headerId : (setWork chainWork headerId row).headerId = row.headerId := by
  unfold setWork
  split <;> rfl

@[simp] theorem setWork_isActive : (setWork chainWork headerId row).isActive = row.isActive := by
  unfold setWork
  split <;> rfl

theorem rows_setChainWork :
    ((Stmt.setChainWork chainWork headerId).onHeaders t).rows =
      t.rows.map (setWork chainWork headerId) := rfl

theorem mem_setChainWork (h : row ∈ ((Stmt.setChainWork chainWork headerId).onHeaders t).rows) :
    ∃ r ∈ t.rows, setWork chainWork headerId r = row :=
  List.mem_map.mp (rows_setChainWork ▸ h)

end SetWork

/-- A rewrite of an active row: no view of the journal looks at it. -/
def Quiet (t : HeaderTable) (stmt : Stmt) : Prop :=
  ∃ chainWork headerId, stmt = .setChainWork chainWork headerId ∧
    ∀ r ∈ t.rows, r.headerId = headerId → r.isActive = true

/-- A rewrite of an active row writes its work. -/
theorem Quiet.exec (h : Quiet db.headers stmt) :
    stmt.exec now db = { db with headers := stmt.onHeaders db.headers } := by
  obtain ⟨chainWork, headerId, rfl, hactive⟩ := h
  rw [Stmt.exec, Stmt.trigger]
  split
  · rename_i n hn
    obtain ⟨r, hr, hkeep⟩ := mem_setChainWork (headerForId_mem hn)
    have hid : (setWork chainWork headerId r).headerId = headerId :=
      (congrArg HeaderRow.headerId hkeep).trans (headerForId_id hn)
    have hact : n.isActive = r.isActive :=
      (congrArg (fun r : HeaderRow => r.isActive) hkeep).symm.trans setWork_isActive
    rw [publishFork, hact, hactive r hr (setWork_headerId.symm.trans hid), Bool.true_or, if_pos rfl]
    rfl
  · rfl

/-- It is one after any other. -/
theorem Quiet.after {stmt' : Stmt} (h : Quiet t stmt) (h' : Quiet t stmt') :
    Quiet (stmt'.onHeaders t) stmt := by
  obtain ⟨chainWork, headerId, rfl, hactive⟩ := h
  obtain ⟨chainWork', headerId', rfl, -⟩ := h'
  refine ⟨chainWork, headerId, rfl, fun r hr hid => ?_⟩
  obtain ⟨r₀, hr₀, rfl⟩ := mem_setChainWork hr
  rw [setWork_headerId] at hid
  rw [setWork_isActive]
  exact hactive r₀ hr₀ hid

/-- A transaction of them. -/
theorem execAll_quiet {txn : List Stmt} (h : ∀ stmt ∈ txn, Quiet db.headers stmt) :
    execAll now txn db = { db with headers := onHeadersAll txn db.headers } := by
  induction txn generalizing db with
  | nil => rfl
  | cons stmt txn ih =>
    have hstmt := h stmt List.mem_cons_self
    rw [execAll_cons, hstmt.exec, ih fun s hs => (h s (List.mem_cons_of_mem _ hs)).after hstmt,
      onHeadersAll_cons]

theorem quiet_afterAll {txn : List Stmt} (h : ∀ stmt ∈ txn, Quiet t stmt) (hstmt : Quiet t stmt) :
    Quiet (onHeadersAll txn t) stmt := by
  induction txn generalizing t with
  | nil => exact hstmt
  | cons s txn ih =>
    have hs := h s List.mem_cons_self
    exact ih (fun s' hs' => (h s' (List.mem_cons_of_mem _ hs')).after hs) (hstmt.after hs)

/-- The transactions of a run of them, all taken. -/
theorem each_quiet {chunks : List (List Stmt)} {u : Unit}
    (h : ∀ chunk ∈ chunks, ∀ stmt ∈ chunk, Quiet w.db.headers stmt)
    (hrun : Prog.each (commit env) chunks w = (.ok u, w')) :
    w'.db = { w.db with headers := onHeadersAll chunks.flatten w.db.headers } := by
  induction chunks generalizing w with
  | nil =>
    cases hrun
    rfl
  | cons chunk chunks ih =>
    rw [Prog.each_cons] at hrun
    obtain ⟨u', w₁, hcommit, hrest⟩ := Prog.bind_eq_ok hrun
    obtain ⟨-, rfl⟩ := commit_eq_ok hcommit
    have hfirst := h chunk List.mem_cons_self
    have hdb : execAll (env.unixepoch w.asked) chunk w.db =
        { w.db with headers := onHeadersAll chunk w.db.headers } := execAll_quiet hfirst
    have hw' := ih (by
      intro c hc stmt hstmt
      dsimp only
      rw [hdb]
      exact quiet_afterAll hfirst (h c (List.mem_cons_of_mem _ hc) stmt hstmt)) hrest
    rw [hw', List.flatten_cons, onHeadersAll_append]
    dsimp only
    rw [hdb]

/-- A row after the works of some rows were written. -/
def reworked (work : String → Nat) (ids : List Nat) (row : HeaderRow) : HeaderRow :=
  if row.headerId ∈ ids then { row with chainWork := work row.hash } else row

section Reworked

variable {ids : List Nat} {row : HeaderRow}

theorem reworked_pos (h : row.headerId ∈ ids) :
    reworked work ids row = { row with chainWork := work row.hash } := if_pos h

theorem reworked_neg (h : row.headerId ∉ ids) : reworked work ids row = row := if_neg h

theorem reworked_eq : reworked work ids row =
    { row with chainWork := (reworked work ids row).chainWork } := by
  unfold reworked
  split <;> rfl

@[simp] theorem reworked_header : (reworked work ids row).toBlockHeader = row.toBlockHeader := by
  unfold reworked
  split <;> rfl

@[simp] theorem reworked_isActive : (reworked work ids row).isActive = row.isActive := by
  unfold reworked
  split <;> rfl

@[simp] theorem reworked_isChainTip : (reworked work ids row).isChainTip = row.isChainTip := by
  unfold reworked
  split <;> rfl

@[simp] theorem reworked_headerId : (reworked work ids row).headerId = row.headerId := by
  unfold reworked
  split <;> rfl

end Reworked

/-- The rewrites of some of the rows of a table. -/
theorem rows_rewrites {hs : List HeaderRow}
    (h : ∀ s ∈ hs, ∀ r ∈ t.rows, r.headerId = s.headerId → r.hash = s.hash) :
    (onHeadersAll (hs.map (rewrite work)) t).rows =
      t.rows.map (reworked work (hs.map (·.headerId))) := by
  induction hs generalizing t with
  | nil =>
    have hsame : t.rows.map (reworked work []) = t.rows.map id :=
      List.map_congr_left fun r _ => reworked_neg List.not_mem_nil
    exact (hsame.trans (List.map_id _)).symm
  | cons s hs ih =>
    rw [List.map_cons, onHeadersAll_cons, ih, rewrite, rows_setChainWork, List.map_map]
    · refine List.map_congr_left fun r hr => ?_
      rw [Function.comp_apply, List.map_cons]
      by_cases hid : r.headerId = s.headerId
      · have hset : setWork (work s.hash) s.headerId r = { r with chainWork := work r.hash } := by
          rw [setWork, if_pos (beq_iff_eq.mpr hid), h s List.mem_cons_self r hr hid]
        rw [hset, reworked_pos (List.mem_cons.mpr (.inl hid)), reworked]
        split <;> rfl
      · rw [setWork, if_neg (by simpa using hid), reworked, reworked]
        simp only [List.mem_cons, hid, false_or]
    · rintro s' hs' r hr hid
      obtain ⟨r₀, hr₀, rfl⟩ := mem_setChainWork hr
      rw [setWork_headerId] at hid
      rw [setWork_header]
      exact h s' (List.mem_cons_of_mem _ hs') r₀ hr₀ hid

end Batches

/-! ### The reads of a repaired store -/

section Reads

variable {params : ChainParams} {rows : List HeaderRow} {work : String → Nat} {ids : List Nat}
  {lo hi height : Nat}

theorem activeAt_reworked : activeAt (rows.map (reworked work ids)) height =
    (activeAt rows height).map (reworked work ids) := by
  rw [activeAt, activeAt, List.filter_map]
  congr 1
  refine List.filter_congr fun r _ => ?_
  rw [Function.comp_apply, reworked_isActive, reworked_header]

theorem topmost_reworked : topmost (rows.map (reworked work ids)) =
    (topmost rows).map (reworked work ids) := by
  induction rows with
  | nil => rfl
  | cons r rows ih =>
    rw [List.map_cons, topmost, topmost, ih]
    cases topmost rows with
    | none => rfl
    | some top =>
      dsimp only [Option.map_some]
      rw [reworked_header, reworked_header, reworked_headerId, reworked_headerId]
      split <;> rfl

theorem chainTip_reworked : chainTip (rows.map (reworked work ids)) =
    (chainTip rows).map (reworked work ids) := by
  rw [chainTip, chainTip, List.filter_map, topmost_reworked]
  congr 2
  refine List.filter_congr fun r _ => ?_
  rw [Function.comp_apply, reworked_isChainTip]

theorem LinkedBetween.reworked (h : LinkedBetween rows lo hi) :
    LinkedBetween (rows.map (reworked work ids)) lo hi where
  one := by
    rintro k hlo hhi
    obtain ⟨r, hr⟩ := h.one k hlo hhi
    exact ⟨_, by rw [activeAt_reworked, hr, List.map_singleton]⟩
  names := by
    rintro k hlo hlt p hp c hc
    rw [activeAt_reworked] at hp hc
    obtain ⟨p₀, hp₀, rfl⟩ := List.mem_map.mp hp
    obtain ⟨c₀, hc₀, rfl⟩ := List.mem_map.mp hc
    rw [reworked_header, reworked_header]
    exact h.names k hlo hlt p₀ hp₀ c₀ hc₀

theorem CumulativeWorks.reworked (h : CumulativeWorks params rows work) :
    CumulativeWorks params (rows.map (reworked work ids)) work := by
  rintro c hc p hp hnames
  obtain ⟨c₀, hc₀, rfl⟩ := List.mem_map.mp hc
  obtain ⟨p₀, hp₀, rfl⟩ := List.mem_map.mp hp
  rw [reworked_header, reworked_header] at hnames ⊢
  exact h c₀ hc₀ p₀ hp₀ hnames

end Reads

/-! ### The repair -/

/-- **A window that can be repaired**: one linked active row at each of its heights, up to the
tip's, and the lowest stores its cumulative work. -/
structure Repairable (params : ChainParams) (rows : List HeaderRow) (work : String → Nat)
    (window : Nat) (tip : HeaderRow) : Prop where
  works : CumulativeWorks params rows work
  found : chainTip rows = some tip
  active : tip.isActive = true
  linked : LinkedBetween rows (tip.height - window) tip.height
  anchor : ∀ a ∈ activeAt rows (tip.height - window), a.chainWork = work a.hash

/-- The active rows of a window that store another work than theirs. -/
def staleRows (work : String → Nat) (rows : List HeaderRow) (lo hi : Nat) : List HeaderRow :=
  (activeHeadersBetween rows lo hi).filter fun r => r.chainWork ≠ work r.hash

section Repair

variable {env : Env} {params : ChainParams} {t : HeaderTable} {w w' : World}
  {work : String → Nat} {window n lo hi : Nat} {tip row : HeaderRow}

theorem mem_staleRows : row ∈ staleRows work t.rows lo hi ↔
    (row ∈ t.rows ∧ row.isActive = true ∧ lo ≤ row.height ∧ row.height ≤ hi) ∧
      row.chainWork ≠ work row.hash := by
  rw [staleRows, List.mem_filter, mem_activeHeadersBetween, decide_eq_true_eq]

/-- The repair is the rewrites of the stale rows. -/
theorem Repairable.repairCumulativeWork_eq (h : Repairable params w.db.rows work window tip) :
    repairCumulativeWork env params window w =
      (do
        Prog.each (commit env) (packStmts
          ((staleRows work w.db.rows (tip.height - window) tip.height).map (rewrite work)))
        pure (staleRows work w.db.rows (tip.height - window) tip.height).length : Writer Nat) w := by
  obtain ⟨anchor, rest, hseg, hat⟩ := h.linked.exists_cons (Nat.sub_le _ _)
  have hanchor : anchor.chainWork = work anchor.hash :=
    h.anchor anchor (by rw [hat]; exact List.mem_singleton_self anchor)
  have hstmts : repairs params anchor.hash anchor.chainWork rest =
      (staleRows work w.db.rows (tip.height - window) tip.height).map (rewrite work) := by
    rw [hanchor, repairs_eq h.works (fun r hr => (mem_activeHeadersBetween.mp (hseg ▸ hr)).1)
      (hseg ▸ h.linked.isChain), staleRows, hseg, List.filter_cons,
      if_neg (by simpa using hanchor)]
  rw [repairCumulativeWork, readRows, Prog.read_bind_apply, h.found]
  dsimp only
  rw [hseg]
  dsimp only
  rw [hstmts, List.length_map]

/-- A database that takes what it is handed lets the repair answer. -/
theorem Repairable.answers (h : Repairable params w.db.rows work window tip)
    (haccepts : ∀ n, env.accepts n = true) :
    Prog.Answers (repairCumulativeWork env params window) w := by
  rw [Prog.Answers, h.repairCumulativeWork_eq]
  have heach : Prog.Answers (Prog.each (commit env) (packStmts
      ((staleRows work w.db.rows (tip.height - window) tip.height).map (rewrite work)))) w :=
    answers_chunks.mpr (List.all_eq_true.mpr fun n _ => haccepts _)
  obtain ⟨u, w', heach⟩ := heach
  exact ⟨_, w', Prog.bind_ok heach⟩

/-- **What a repair leaves**: the stale rows with their works, and everything else as it was. -/
theorem Repairable.db_eq (h : Repairable params w.db.rows work window tip)
    (hrun : repairCumulativeWork env params window w = (.ok n, w')) :
    w'.db.sync = w.db.sync ∧ w'.db.journal = w.db.journal ∧
      w'.db.rows = w.db.rows.map (reworked work
        ((staleRows work w.db.rows (tip.height - window) tip.height).map (·.headerId))) := by
  rw [h.repairCumulativeWork_eq] at hrun
  obtain ⟨u, w₁, heach, hpure⟩ := Prog.bind_eq_ok hrun
  cases hpure
  have hdb := each_quiet (fun chunk hchunk stmt hstmt => by
    obtain ⟨s, hs, rfl⟩ := List.mem_map.mp (mem_packStmts hchunk hstmt)
    obtain ⟨⟨hmem, hact, -⟩, -⟩ := mem_staleRows.mp hs
    refine ⟨_, _, rfl, fun r hr hid => ?_⟩
    rw [HeaderTable.eq_of_headerId hr hmem hid, hact]) heach
  rw [hdb, flatten_packStmts]
  refine ⟨rfl, rfl, rows_rewrites fun s hs r hr hid => ?_⟩
  rw [HeaderTable.eq_of_headerId hr (mem_staleRows.mp hs).1.1 hid]

/-- A stored row is written where it is stale. -/
theorem headerId_mem_staleRows (hrow : row ∈ t.rows) :
    row.headerId ∈ (staleRows work t.rows lo hi).map (·.headerId) ↔
      row ∈ staleRows work t.rows lo hi := by
  constructor
  · rintro hid
    obtain ⟨s, hs, hid⟩ := List.mem_map.mp hid
    rwa [HeaderTable.eq_of_headerId hrow (mem_staleRows.mp hs).1.1 hid.symm]
  · exact fun h => List.mem_map_of_mem h

/-- An active row of the window stores its work once the stale rows are written. -/
theorem reworked_exact (hrow : row ∈ t.rows) (hact : row.isActive = true) (hlo : lo ≤ row.height)
    (hhi : row.height ≤ hi) :
    (reworked work ((staleRows work t.rows lo hi).map (·.headerId)) row).chainWork =
      work row.hash := by
  by_cases hstale : row ∈ staleRows work t.rows lo hi
  · rw [reworked_pos ((headerId_mem_staleRows hrow).mpr hstale)]
  · rw [reworked_neg fun hid => hstale ((headerId_mem_staleRows hrow).mp hid)]
    by_contra hne
    exact hstale (mem_staleRows.mpr ⟨⟨hrow, hact, hlo, hhi⟩, hne⟩)

/-- A row off the active chain is left alone. -/
theorem reworked_inactive (hrow : row ∈ t.rows) (hact : row.isActive = false) :
    reworked work ((staleRows work t.rows lo hi).map (·.headerId)) row = row := by
  refine reworked_neg fun hid => ?_
  have hstale := (mem_staleRows.mp ((headerId_mem_staleRows hrow).mp hid)).1.2.1
  exact Bool.false_ne_true (hact.symm.trans hstale)

/-- **The repaired window**: every active row of it stores its cumulative work. -/
theorem Repairable.exact (h : Repairable params w.db.rows work window tip)
    (hrun : repairCumulativeWork env params window w = (.ok n, w')) (hrow : row ∈ w'.db.rows)
    (hact : row.isActive = true) (hlo : tip.height - window ≤ row.height)
    (hhi : row.height ≤ tip.height) : row.chainWork = work row.hash := by
  rw [(h.db_eq hrun).2.2] at hrow
  obtain ⟨r, hr, rfl⟩ := List.mem_map.mp hrow
  rw [reworked_isActive] at hact
  rw [reworked_header] at hlo hhi ⊢
  exact reworked_exact hr hact hlo hhi

/-- A repaired window can be repaired again. -/
theorem Repairable.again (h : Repairable params w.db.rows work window tip)
    (hrun : repairCumulativeWork env params window w = (.ok n, w')) :
    ∃ tip', tip'.toBlockHeader = tip.toBlockHeader ∧
      Repairable params w'.db.rows work window tip' := by
  have hrows := (h.db_eq hrun).2.2
  refine ⟨reworked work ((staleRows work w.db.rows (tip.height - window) tip.height).map
    (·.headerId)) tip, reworked_header, ?_⟩
  refine ⟨hrows ▸ h.works.reworked, ?_, reworked_isActive.trans h.active, ?_, ?_⟩
  · rw [hrows, chainTip_reworked, h.found, Option.map_some]
  · rw [reworked_header, hrows]
    exact h.linked.reworked
  · rw [reworked_header]
    rintro a ha
    obtain ⟨hmem, hact, hheight⟩ := mem_activeAt.mp ha
    exact h.exact hrun hmem hact (by omega) (by omega)

/-- A second repair writes nothing. -/
theorem Repairable.repair_again (h : Repairable params w.db.rows work window tip)
    (hrun : repairCumulativeWork env params window w = (.ok n, w')) (env' : Env) :
    repairCumulativeWork env' params window w' = (.ok 0, w') := by
  obtain ⟨tip', htip, h'⟩ := h.again hrun
  have hnone : staleRows work w'.db.rows (tip'.height - window) tip'.height = [] := by
    refine List.eq_nil_iff_forall_not_mem.mpr fun r hr => ?_
    obtain ⟨⟨hmem, hact, hlo, hhi⟩, hne⟩ := mem_staleRows.mp hr
    rw [htip] at hlo hhi
    exact hne (h.exact hrun hmem hact hlo hhi)
  rw [h'.repairCumulativeWork_eq, hnone]
  rfl

end Repair

/-! ### The rows off the active chain -/

/-- A stored row and the stored row it names. -/
def HashLink (rows : List HeaderRow) (child parent : HeaderRow) : Prop :=
  child ∈ rows ∧ parent ∈ rows ∧ child.previousHash = parent.hash

/-- A row of a branch: off the active chain, and linked by hash to an active row at a height of
a window. -/
def OnBranch (rows : List HeaderRow) (lo hi : Nat) (row : HeaderRow) : Prop :=
  row.isActive = false ∧ ∃ fork, fork.isActive = true ∧ lo ≤ fork.height ∧ fork.height ≤ hi ∧
    Relation.TransGen (HashLink rows) row fork

/-- **What a repair is for**: the active rows of the window store their works, a second repair
finds nothing, nothing but stored works has changed, and the stored work of every branch off
the window compares with the tip's as their true works do. -/
structure WindowRight (params : ChainParams) (work : String → Nat) (window : Nat) (tip : HeaderRow)
    (w w' : World) : Prop where
  exact : ∀ row ∈ w'.db.rows, row.isActive = true → tip.height - window ≤ row.height →
    row.height ≤ tip.height → row.chainWork = work row.hash
  again : ∀ env, repairCumulativeWork env params window w' = (.ok 0, w')
  frame : w'.db.sync = w.db.sync ∧ w'.db.journal = w.db.journal ∧
    ∃ works : HeaderRow → Nat, w'.db.rows = w.db.rows.map fun r => { r with chainWork := works r }
  compares : ∀ tip', chainTip w'.db.rows = some tip' → ∀ row,
    OnBranch w'.db.rows (tip.height - window) tip.height row →
      isMoreWork row.chainWork tip'.chainWork = isMoreWork (work row.hash) (work tip'.hash)

section Branches

variable {env : Env} {params : ChainParams} {t : HeaderTable} {rows : List HeaderRow} {w w' : World}
  {work : String → Nat} {ids : List Nat} {window n lo hi : Nat} {tip row fork : HeaderRow}

theorem hashLink_reworked (h : HashLink rows row fork) :
    HashLink (rows.map (reworked work ids)) (reworked work ids row) (reworked work ids fork) := by
  obtain ⟨hrow, hfork, hnames⟩ := h
  refine ⟨List.mem_map_of_mem hrow, List.mem_map_of_mem hfork, ?_⟩
  rw [reworked_header, reworked_header, hnames]

/-- The rows linked after a repair were linked before. -/
theorem of_hashLink_reworked
    (h : Relation.TransGen (HashLink (rows.map (reworked work ids))) (reworked work ids row) fork)
    (hrow : row ∈ rows) : ∃ f, reworked work ids f = fork ∧ Relation.TransGen (HashLink rows) row f := by
  induction h with
  | single hname =>
    obtain ⟨-, hfork, hnames⟩ := hname
    obtain ⟨f, hf, rfl⟩ := List.mem_map.mp hfork
    rw [reworked_header, reworked_header] at hnames
    exact ⟨f, rfl, .single ⟨hrow, hf, hnames⟩⟩
  | tail _ hname ih =>
    obtain ⟨f, rfl, hup⟩ := ih
    obtain ⟨-, hfork, hnames⟩ := hname
    obtain ⟨g, hg, rfl⟩ := List.mem_map.mp hfork
    rw [reworked_header, reworked_header] at hnames
    have hf : f ∈ rows := by
      obtain ⟨_, -, hlast⟩ := Relation.TransGen.tail'_iff.mp hup
      exact hlast.2.1
    exact ⟨g, rfl, hup.tail ⟨hf, hg, hnames⟩⟩

/-- A repair moves no branch. -/
theorem onBranch_reworked (hrow : row ∈ rows) :
    OnBranch (rows.map (reworked work ids)) lo hi (reworked work ids row) ↔
      OnBranch rows lo hi row := by
  constructor
  · rintro ⟨hact, fork, hfork, hlo, hhi, hup⟩
    obtain ⟨f, rfl, hup'⟩ := of_hashLink_reworked hup hrow
    rw [reworked_header] at hlo hhi
    exact ⟨reworked_isActive.symm.trans hact, f, reworked_isActive.symm.trans hfork, hlo, hhi, hup'⟩
  · rintro ⟨hact, fork, hfork, hlo, hhi, hup⟩
    refine ⟨reworked_isActive.trans hact, reworked work ids fork, reworked_isActive.trans hfork,
      by rwa [reworked_header], by rwa [reworked_header], ?_⟩
    exact Relation.TransGen.lift (reworked work ids) (fun _ _ => hashLink_reworked) _ _ hup

theorem OnBranch.mem (h : OnBranch rows lo hi row) : row ∈ rows := by
  obtain ⟨-, fork, -, -, -, hup⟩ := h
  obtain ⟨_, hname, -⟩ := Relation.TransGen.head'_iff.mp hup
  exact hname.1

/-- The rows off the active chain keep their stored works over a repair, so a branch compares
as before it with the tip's true work. -/
theorem Repairable.compares_iff (h : Repairable params w.db.rows work window tip)
    (hrun : repairCumulativeWork env params window w = (.ok n, w')) :
    (∀ tip', chainTip w'.db.rows = some tip' → ∀ row,
        OnBranch w'.db.rows (tip.height - window) tip.height row →
          isMoreWork row.chainWork tip'.chainWork = isMoreWork (work row.hash) (work tip'.hash)) ↔
      ∀ row, OnBranch w.db.rows (tip.height - window) tip.height row →
        (work tip.hash < row.chainWork ↔ work tip.hash < work row.hash) := by
  obtain ⟨tip', htip, h'⟩ := h.again hrun
  have hwork : tip'.chainWork = work tip.hash := by
    rw [h.exact hrun (chainTip_mem h'.found) h'.active (by rw [htip]; omega) (by rw [htip]), htip]
  have hrows := (h.db_eq hrun).2.2
  have hsame : ∀ row : HeaderRow, (isMoreWork row.chainWork tip'.chainWork =
      isMoreWork (work row.hash) (work tip'.hash)) ↔
      (work tip.hash < row.chainWork ↔ work tip.hash < work row.hash) := by
    rintro row
    rw [isMoreWork, isMoreWork, hwork, htip, decide_eq_decide]
  constructor
  · rintro hright row hrow
    have hkept := @reworked_inactive _ work (tip.height - window) tip.height _ hrow.mem hrow.1
    refine (hsame row).mp (hright tip' h'.found row ?_)
    rw [hrows, ← hkept]
    exact (onBranch_reworked hrow.mem).mpr hrow
  · rintro hcond tip'' htip'' row' hrow'
    obtain rfl := Option.some_inj.mp (h'.found.symm.trans htip'')
    obtain ⟨row, hrow, rfl⟩ := List.mem_map.mp (hrows ▸ hrow'.mem)
    rw [hrows, onBranch_reworked hrow] at hrow'
    rw [reworked_inactive hrow hrow'.1]
    exact (hsame row).mpr (hcond row hrow')

/-- A repair of a window leaves it right exactly where the branches were. -/
theorem Repairable.windowRight_iff (h : Repairable params w.db.rows work window tip)
    (hrun : repairCumulativeWork env params window w = (.ok n, w')) :
    WindowRight params work window tip w w' ↔
      ∀ row, OnBranch w.db.rows (tip.height - window) tip.height row →
        (work tip.hash < row.chainWork ↔ work tip.hash < work row.hash) := by
  rw [← h.compares_iff hrun]
  constructor
  · exact fun hright => hright.compares
  · rintro hcompares
    obtain ⟨hsync, hjournal, hrows⟩ := h.db_eq hrun
    refine ⟨fun row hrow => h.exact hrun hrow, fun env' => h.repair_again hrun env', ⟨hsync,
      hjournal, fun r => (reworked work ((staleRows work w.db.rows (tip.height - window)
        tip.height).map (·.headerId)) r).chainWork, hrows.trans ?_⟩, hcompares⟩
    exact List.map_congr_left fun r _ => reworked_eq

/-- **The repaired window compares right of exactly the branches that stored their work on the
side of the tip's where it is**: the repair writes no row off the active chain, so a branch
compares with the repaired tip as what it stored before, right or wrong. -/
theorem repair_right_iff (h : Repairable params w.db.rows work window tip)
    (hrun : repairCumulativeWork env params window w = (.ok n, w')) :
    WindowRight params work window tip w w' ↔
      ∀ row, OnBranch w.db.rows (tip.height - window) tip.height row →
        (work tip.hash < row.chainWork ↔ work tip.hash < work row.hash) :=
  h.windowRight_iff hrun

end Branches

/-! ### A branch off a repaired window -/

section Fork

open Regtest

/-- A row of a block with the work it stores. -/
def workRow (header : BlockHeader) (headerId chainWork : Nat) (isActive isChainTip : Bool) :
    HeaderRow :=
  { header with previousHeaderId := none, isActive, isChainTip, chainWork, headerId }

/-- The chain of `a2`, where `a1` stores a work that is not its own, and `b1` beside it. -/
def staleTable (work : Nat) : HeaderTable where
  rows := [workRow genesis 1 2 true false, workRow a1 2 500 true false,
    workRow a2 3 502 true true, workRow b1 4 work false false]
  uniqueHash := by
    change ([genesis, a1, a2, b1].map (·.hash)).Nodup
    decide +kernel
  uniqueId := by
    change [1, 2, 3, 4].Nodup
    decide +kernel

/-- A store of these rows. -/
def staleWorld (work : Nat) : World := ⟨{ Store.fresh with headers := staleTable work }, 0, []⟩

/-- Their works: every proof is two. -/
def staleWorks (hash : String) : Nat :=
  if hash = genesis.hash then 2 else if hash = a2.hash then 6 else 4

theorem staleTable_repairable (work : Nat) : Repairable Regtest.params (staleTable work).rows
    staleWorks 10 (workRow a2 3 502 true true) where
  works := by
    have hall : ∀ row ∈ [genesis, a1, a2, b1], ∀ parent ∈ [genesis, a1, a2, b1],
        row.previousHash = parent.hash → staleWorks row.hash =
          addWork (staleWorks parent.hash) (Regtest.params.bsv.workFromBits row.bits) := by
      decide +kernel
    have hblock : ∀ row ∈ (staleTable work).rows, row.toBlockHeader ∈ [genesis, a1, a2, b1] := by
      rintro row hrow
      exact List.mem_map_of_mem (f := HeaderRow.toBlockHeader) hrow
    rintro row hrow parent hparent
    exact hall _ (hblock row hrow) _ (hblock parent hparent)
  found := rfl
  active := rfl
  linked := by
    refine ⟨fun h _ hle => ?_, fun h _ hlt p hp c hc => ?_⟩
    · obtain rfl | rfl | rfl : h = 0 ∨ h = 1 ∨ h = 2 := by
        have : h ≤ 2 := hle
        omega
      all_goals exact ⟨_, rfl⟩
    · obtain rfl | rfl : h = 0 ∨ h = 1 := by
        have : h < 2 := hlt
        omega
      all_goals
        obtain rfl := List.mem_singleton.mp hp
        obtain rfl := List.mem_singleton.mp hc
        rfl
  anchor := by
    rintro a ha
    obtain rfl := List.mem_singleton.mp ha
    decide +kernel

/-- `b1` stores its own work: the repair of `a1` leaves the window right. -/
theorem repair_right_fork : ∃ n w',
    repairCumulativeWork host Regtest.params 10 (staleWorld 4) = (.ok n, w') ∧
      WindowRight Regtest.params staleWorks 10 (workRow a2 3 502 true true) (staleWorld 4) w' := by
  have hready := staleTable_repairable 4
  obtain ⟨n, w', hrun⟩ :=
    @Repairable.answers host _ (staleWorld 4) _ _ _ hready fun _ => rfl
  refine ⟨n, w', hrun, (repair_right_iff hready hrun).mpr fun row hrow => ?_⟩
  have hall : ∀ row ∈ (staleTable 4).rows, row.isActive = false →
      (staleWorks a2.hash < row.chainWork ↔ staleWorks a2.hash < staleWorks row.hash) := by
    decide +kernel
  exact hall row hrow.mem hrow.1

/-- **A branch that stored too much outweighs a repaired tip**: `b1`, whose true work is less
than the tip's, keeps the work of five hundred it stores. -/
theorem stale_branch_outweighs : ¬∀ (env : Env) (params : ChainParams) (work : String → Nat)
    (window n : Nat) (tip : HeaderRow) (w w' : World),
    Repairable params w.db.rows work window tip →
      repairCumulativeWork env params window w = (.ok n, w') →
        WindowRight params work window tip w w' := by
  rintro hall
  have hready := staleTable_repairable 500
  obtain ⟨n, w', hrun⟩ :=
    @Repairable.answers host _ (staleWorld 500) _ _ _ hready fun _ => rfl
  have hright := hall host Regtest.params staleWorks 10 n _ (staleWorld 500) w' hready hrun
  have hbranch : OnBranch (staleTable 500).rows 0 2 (workRow b1 4 500 false false) := by
    refine ⟨rfl, workRow genesis 1 2 true false, rfl, Nat.le_refl 0, Nat.zero_le 2, .single ?_⟩
    exact ⟨by decide +kernel, by decide +kernel, rfl⟩
  have hsides := (Repairable.windowRight_iff hready hrun).mp hright _ hbranch
  exact absurd (hsides.mp (by decide +kernel)) (by decide +kernel)

end Fork

end Chaintracks

import Chaintracks.ActiveHeights
import Chaintracks.LiveChain

/-!
# The sweep keeps the chain

A store whose active rows hold a chain – one row a height, each naming the hash of the one
below, from the lowest active height up to the one active row of the highest – with rival
rows active beside it at any heights, in branches of any shape (`Chaintracks.Spine`). The
sweep settles the heights from the top down, and a height asks which of its rows the next
height extends. By then the next height holds the chain's row alone: every rival stands at
a height still to be settled. So the row kept is the chain's
(`Chaintracks.Spine.dedupeKept_eq`), the choice of the newest is never taken, and the whole
sweep is one deactivation of the rows off the chain (`Chaintracks.dedupeEach_spine`,
`Chaintracks.dedupe_keeps_chain`).
-/

namespace Chaintracks

open HeaderRows

/-! ### A chain among the active rows -/

section Rows

variable {t : HeaderTable} {chain : List HeaderRow} {top bottom : HeaderRow}

/-- **A chain among the active rows**, tip first: one row a height, each on the next by
height and hash, from the one active row of the highest active height down to the lowest. -/
structure Spine (t : HeaderTable) (chain : List HeaderRow) (top bottom : HeaderRow) : Prop where
  head : chain.head? = some top
  last : chain.getLast? = some bottom
  linked : chain.IsChain fun child parent => ChildOf child.toBlockHeader parent.toBlockHeader
  stored : ∀ r ∈ chain, r ∈ t.rows ∧ r.isActive = true
  highest : ∀ r ∈ t.rows, r.isActive = true → r.height ≤ top.height
  alone : ∀ r ∈ t.rows, r.isActive = true → r.height = top.height → r = top
  lowest : ∀ r ∈ t.rows, r.isActive = true → bottom.height ≤ r.height

/-- An active row that is not of the chain. -/
def offChain (chain : List HeaderRow) (r : HeaderRow) : Bool := r.isActive && !chain.contains r

theorem offChain_iff {r : HeaderRow} :
    offChain chain r = true ↔ r.isActive = true ∧ r ∉ chain := by
  simp [offChain]

/-- Some active rows are deactivated, and nothing else is changed. -/
def HeaderTable.deactivate (t : HeaderTable) (cond : HeaderRow → Bool) : HeaderTable :=
  t.update cond fun r => { r.toRowCells with isActive := false }

/-- Each row of a chain above the last has the row below it in the chain. -/
theorem exists_parent (hl : chain.IsChain fun child parent =>
      ChildOf child.toBlockHeader parent.toBlockHeader)
    (hlast : chain.getLast? = some bottom) {child : HeaderRow} (hc : child ∈ chain)
    (hne : child.height ≠ bottom.height) :
    ∃ parent ∈ chain, ChildOf child.toBlockHeader parent.toBlockHeader := by
  induction chain with
  | nil => cases hc
  | cons y ys ih =>
    cases ys with
    | nil =>
      rw [List.getLast?_singleton] at hlast
      cases hlast
      rw [List.mem_singleton] at hc
      exact absurd (congrArg (·.height) hc) hne
    | cons z zs =>
      rw [List.isChain_cons_cons] at hl
      rw [List.getLast?_cons_cons] at hlast
      rcases List.mem_cons.mp hc with rfl | hc
      · exact ⟨z, List.mem_cons_of_mem _ List.mem_cons_self, hl.1⟩
      · obtain ⟨parent, hp, hchild⟩ := ih hl.2 hlast hc
        exact ⟨parent, List.mem_cons_of_mem _ hp, hchild⟩

namespace Spine

/-- The chain has a row at every height between its ends. -/
theorem exists_height (h : Spine t chain top bottom) {height : Nat}
    (hlo : bottom.height ≤ height) (hhi : height ≤ top.height) :
    ∃ r ∈ chain, r.height = height := by
  have hl : (chain.map (·.toBlockHeader)).IsChain ChildOf := by
    rw [List.isChain_map]
    exact h.linked
  obtain ⟨x, hx, hheight⟩ := @chain_exists_height _ hl top.toBlockHeader bottom.toBlockHeader
    (by rw [List.head?_map, h.head]; rfl) (by rw [List.getLast?_map, h.last]; rfl) _ hlo hhi
  obtain ⟨r, hr, rfl⟩ := List.mem_map.mp hx
  exact ⟨r, hr, hheight⟩

/-- The chain has one row a height. -/
theorem eq_of_height (h : Spine t chain top bottom) {r r' : HeaderRow} (hr : r ∈ chain)
    (hr' : r' ∈ chain) (hh : r.height = r'.height) : r = r' := by
  have hpair : chain.Pairwise fun a b => b.height < a.height := by
    have htrans : IsTrans HeaderRow fun a b => b.height < a.height :=
      ⟨fun _ _ _ hab hbc => Nat.lt_trans hbc hab⟩
    refine List.isChain_iff_pairwise.mp (h.linked.imp fun child parent hchild => ?_)
    have := hchild.1
    omega
  have hnodup : (chain.map (·.height)).Nodup :=
    List.pairwise_map.mpr (hpair.imp fun hlt => Nat.ne_of_gt hlt)
  exact List.inj_on_of_nodup_map hnodup hr hr' hh

/-- **The row a sweep keeps** at a height is the chain's, where the chain's row is the one
active row of the next height. -/
theorem dedupeKept_eq (h : Spine t chain top bottom) {row : HeaderRow} (hrow : row ∈ chain)
    (hlt : row.height < top.height)
    (habove : ∀ r ∈ t.rows, r.isActive = true → r.height = row.height + 1 → r ∈ chain) :
    dedupeKept t.rows row.height = some row := by
  obtain ⟨child, hc, hch⟩ := h.exists_height
    (Nat.le_succ_of_le (h.lowest row (h.stored row hrow).1 (h.stored row hrow).2)) hlt
  have hbottom := h.lowest row (h.stored row hrow).1 (h.stored row hrow).2
  obtain ⟨parent, hp, hchild⟩ := exists_parent h.linked h.last hc (by omega)
  have hparent : parent = row := by
    refine h.eq_of_height hp hrow ?_
    have : child.height = parent.height + 1 := hchild.1
    omega
  subst hparent
  have hnames : child.previousHash = parent.hash := hchild.2
  unfold dedupeKept
  dsimp only
  rw [@topmost_eq_of_forall _ parent ?_ ?_, Option.some_or]
  · rw [List.mem_filter, List.mem_filter, List.any_eq_true]
    refine ⟨⟨(h.stored parent hp).1, by simp [(h.stored parent hp).2]⟩, child,
      (h.stored child hc).1, ?_⟩
    simp [(h.stored child hc).2, hch, hnames]
  · intro r hr
    rw [List.mem_filter, List.mem_filter, List.any_eq_true] at hr
    obtain ⟨⟨hr, -⟩, c, hcm, hcond⟩ := hr
    simp only [Bool.and_eq_true, beq_iff_eq] at hcond
    -- the one active row above is the chain's, and it names one hash
    have hsame : c = child := h.eq_of_height (habove c hcm hcond.1.1 hcond.1.2) hc
      (hcond.1.2.trans hch.symm)
    refine HeaderTable.eq_of_hash hr (h.stored parent hp).1 ?_
    rw [← hcond.2, hsame, hnames]

end Spine

end Rows

/-! ### The sweep of the heights, from the top down -/

section Settling

variable {t : HeaderTable} {chain : List HeaderRow} {top bottom : HeaderRow}

/-- A deactivation that spares the chain keeps it. -/
theorem Spine.deactivate {cond : HeaderRow → Bool} (h : Spine t chain top bottom)
    (hcond : ∀ r ∈ t.rows, cond r = true → r ∉ chain) :
    Spine (t.deactivate cond) chain top bottom := by
  have hkept : ∀ r ∈ (t.deactivate cond).rows, r.isActive = true → r ∈ t.rows := by
    intro r hr hact
    obtain ⟨o, ho, rfl⟩ := HeaderTable.mem_update.mp hr
    split at hact
    · cases hact
    · rename_i hc
      rwa [if_neg hc]
  refine ⟨h.head, h.last, h.linked, fun r hr => ⟨?_, (h.stored r hr).2⟩,
    fun r hr hact => h.highest r (hkept r hr hact) hact,
    fun r hr hact => h.alone r (hkept r hr hact) hact,
    fun r hr hact => h.lowest r (hkept r hr hact) hact⟩
  refine HeaderTable.mem_update.mpr ⟨r, (h.stored r hr).1, ?_⟩
  rw [if_neg fun hc => hcond r (h.stored r hr).1 hc hr]

/-- Off the chain, at a height whose next holds only the chain's row, stand the rows that
the sweep takes off there. -/
theorem Spine.dedupe_iff {height : Nat} (h : Spine t chain top bottom)
    (hlo : bottom.height ≤ height) (hhi : height < top.height)
    (habove : ∀ r ∈ t.rows, offChain chain r = true → r.height ≠ height + 1) {r : HeaderRow}
    (hr : r ∈ t.rows) :
    (r.height == height && r.isActive &&
        some r.headerId != (dedupeKept t.rows height).map (·.headerId)) =
      (offChain chain r && r.height == height) := by
  obtain ⟨row, hrow, rfl⟩ := h.exists_height hlo (Nat.le_of_lt hhi)
  rw [h.dedupeKept_eq hrow hhi fun r hr hact hh => by
    by_contra hnot
    exact habove r hr (offChain_iff.mpr ⟨hact, hnot⟩) hh]
  rw [Bool.eq_iff_iff]
  simp only [Bool.and_eq_true, beq_iff_eq, Option.map_some, bne_iff_ne, ne_eq,
    Option.some.injEq, offChain_iff]
  constructor
  · rintro ⟨⟨hh, hact⟩, hne⟩
    refine ⟨⟨hact, fun hin => hne ?_⟩, hh⟩
    rw [h.eq_of_height hin hrow hh]
  · rintro ⟨⟨hact, hnot⟩, hh⟩
    refine ⟨⟨hh, hact⟩, fun hid => hnot ?_⟩
    rwa [HeaderTable.eq_of_headerId hr (h.stored row hrow).1 hid]

theorem HeaderTable.deactivate_congr {cond cond' : HeaderRow → Bool}
    (h : ∀ r ∈ t.rows, cond r = cond' r) : t.deactivate cond = t.deactivate cond' := by
  refine HeaderTable.eq_of_rows (List.map_congr_left fun r hr => ?_)
  rw [h r hr]

/-- Two deactivations are one. -/
theorem HeaderTable.deactivate_deactivate {cond cond' : HeaderRow → Bool}
    (h : ∀ r, cond' r = true → r.isActive = true) :
    (t.deactivate cond).deactivate cond' = t.deactivate fun r => cond r || cond' r := by
  refine HeaderTable.eq_of_rows ?_
  change (t.rows.map _).map _ = t.rows.map _
  rw [List.map_map]
  refine List.map_congr_left fun r _ => ?_
  rw [Function.comp_apply]
  by_cases hc : cond r = true
  · rw [if_pos hc, if_neg (fun hc' => absurd (h _ hc') Bool.false_ne_true), if_pos (by simp [hc])]
  · rw [if_neg hc]
    simp [hc]

/-- The rows a second deactivation takes off are those of its kind the first left. -/
theorem HeaderTable.countP_deactivate {cond cond' : HeaderRow → Bool}
    (h : ∀ r, cond' r = true → r.isActive = true) :
    (t.deactivate cond).rows.countP cond' = t.rows.countP fun r => cond' r && !cond r := by
  change (t.rows.map _).countP _ = _
  rw [List.countP_map]
  refine List.countP_congr fun r _ => ?_
  rw [Function.comp_apply]
  by_cases hc : cond r = true
  · rw [if_pos hc]
    simp only [hc, Bool.not_true, Bool.and_false, Bool.false_eq_true, iff_false]
    exact fun hc' => absurd (h _ hc') Bool.false_ne_true
  · rw [if_neg hc]
    simp [hc]

end Settling

/-! ### The whole sweep -/

section Whole

variable {env : Env} {w w' : World} {chain : List HeaderRow} {top bottom : HeaderRow}
  {heights : List Nat} {n : Nat}

theorem offChain_isActive (r : HeaderRow) (h : offChain chain r = true) : r.isActive = true :=
  (offChain_iff.mp h).1

/-- The rows of a kind are those at a height and the others. -/
theorem countP_split (p q : HeaderRow → Bool) (rows : List HeaderRow) :
    rows.countP p = (rows.countP fun r => p r && q r) +
      rows.countP fun r => p r && !(p r && q r) := by
  induction rows with
  | nil => rfl
  | cons r rows ih =>
    simp only [List.countP_cons, ih]
    cases p r <;> cases q r <;> simp <;> omega

/-- One height of the sweep, once the heights above it are settled. -/
theorem dedupeOne_spine {height : Nat} (h : Spine w.db.headers chain top bottom)
    (hlo : bottom.height ≤ height) (hhi : height < top.height)
    (habove : ∀ r ∈ w.db.headers.rows, offChain chain r = true → r.height ≠ height + 1)
    (hone : dedupeOne env height w = (.ok n, w')) :
    n = w.db.rows.countP (fun r => offChain chain r && r.height == height) ∧
      w'.db = { w.db with
        headers := w.db.headers.deactivate fun r => offChain chain r && r.height == height } := by
  have hsame : ∀ r ∈ w.db.headers.rows, _ := fun r hr => h.dedupe_iff hlo hhi habove hr
  unfold dedupeOne readRows at hone
  rw [Prog.read_bind_apply] at hone
  obtain ⟨_, w₁, hcommit, hone⟩ := Prog.bind_eq_ok hone
  obtain ⟨-, rfl⟩ := commit_eq_ok hcommit
  cases hone
  refine ⟨List.countP_congr fun r hr => by rw [hsame r hr], ?_⟩
  change Store.mk _ _ _ = Store.mk _ _ _
  congr 1
  exact HeaderTable.deactivate_congr hsame

/-- **A sweep takes off the rows off the chain**, and changes nothing else: the heights it
is given are in range, highest first, and hold every active row off the chain. -/
theorem dedupeEach_spine (h : Spine w.db.headers chain top bottom)
    (hdesc : heights.Pairwise (· > ·))
    (hrange : ∀ x ∈ heights, bottom.height ≤ x ∧ x < top.height)
    (hcover : ∀ r ∈ w.db.headers.rows, offChain chain r = true → r.height ∈ heights)
    (hsweep : dedupeEach env heights w = (.ok n, w')) :
    n = w.db.rows.countP (offChain chain) ∧
      w'.db = { w.db with headers := w.db.headers.deactivate (offChain chain) } := by
  induction heights generalizing w n with
  | nil =>
    have hnone : ∀ r ∈ w.db.headers.rows, offChain chain r ≠ true := fun r hr hoff =>
      List.not_mem_nil (hcover r hr hoff)
    cases hsweep
    rw [HeaderTable.deactivate, HeaderTable.update_of_none fun r hr =>
      Bool.eq_false_iff.mpr (hnone r hr)]
    exact ⟨(List.countP_eq_zero.mpr hnone).symm, rfl⟩
  | cons x xs ih =>
    rw [List.pairwise_cons] at hdesc
    obtain ⟨hlo, hhi⟩ := hrange x List.mem_cons_self
    unfold dedupeEach at hsweep
    obtain ⟨swept, w₁, hone, hsweep⟩ := Prog.bind_eq_ok hsweep
    obtain ⟨rest, w₂, hrest, hsweep⟩ := Prog.bind_eq_ok hsweep
    cases hsweep
    -- the heights still to come are below this one, and so is every rival left
    obtain ⟨hswept, hdb⟩ := dedupeOne_spine h hlo hhi (fun r hr hoff hh => by
      rcases List.mem_cons.mp (hcover r hr hoff) with heq | hlater
      · omega
      · have := hdesc.1 _ hlater
        omega) hone
    have hheaders : w₁.db.headers =
        w.db.headers.deactivate fun r => offChain chain r && r.height == x := by rw [hdb]
    have hspine : Spine w₁.db.headers chain top bottom := by
      rw [hheaders]
      refine h.deactivate fun r _ hc => ?_
      rw [Bool.and_eq_true] at hc
      exact (offChain_iff.mp hc.1).2
    have hleft : ∀ r ∈ w₁.db.headers.rows, offChain chain r = true → r.height ∈ xs := by
      intro r hr hoff
      rw [hheaders] at hr
      obtain ⟨o, ho, rfl⟩ := HeaderTable.mem_update.mp hr
      by_cases hc : (offChain chain o && o.height == x) = true
      · rw [if_pos hc] at hoff
        exact absurd (offChain_isActive _ hoff) Bool.false_ne_true
      · rw [if_neg hc] at hoff ⊢
        refine (List.mem_cons.mp (hcover o ho hoff)).resolve_left fun hx => hc ?_
        simp [hoff, hx]
    obtain ⟨hrestn, hrestdb⟩ := ih hspine hdesc.2
      (fun y hy => hrange y (List.mem_cons_of_mem _ hy)) hleft hrest
    constructor
    · have hcount : w₁.db.rows.countP (offChain chain) =
          w.db.rows.countP fun r => offChain chain r && !(offChain chain r && r.height == x) := by
        change w₁.db.headers.rows.countP _ = _
        rw [hheaders, HeaderTable.countP_deactivate offChain_isActive]
      rw [hrestn, hswept, hcount, countP_split (offChain chain) (·.height == x)]
    · have hall : w₁.db.headers.deactivate (offChain chain) =
          w.db.headers.deactivate (offChain chain) := by
        rw [hheaders, HeaderTable.deactivate_deactivate offChain_isActive]
        refine HeaderTable.deactivate_congr fun r _ => ?_
        cases offChain chain r <;> simp
      rw [hrestdb, hall, hdb]

/-- A sweep that is not refused by the database ends. -/
theorem dedupeEach_ends (htakes : ∀ n, env.accepts n = true) (heights : List Nat) (w : World) :
    ∃ n w', dedupeEach env heights w = (.ok n, w') := by
  induction heights generalizing w with
  | nil => exact ⟨0, w, rfl⟩
  | cons x xs ih =>
    obtain ⟨swept, w₁, hone⟩ : ∃ swept w₁, dedupeOne env x w = (.ok swept, w₁) := by
      unfold dedupeOne readRows
      exact ⟨_, _, Prog.bind_ok (commit_ok _ (htakes _))⟩
    obtain ⟨rest, w₂, hrest⟩ := ih w₁
    exact ⟨_, _, (Prog.bind_ok hone).trans (Prog.bind_ok hrest)⟩

/-- The heights a sweep lists are those of rivals. -/
theorem rivals_of_mem {t : HeaderTable} {height : Nat} (h : height ∈ dualActiveHeights t.rows) :
    Rivals t height := by
  rw [dualActiveHeights, List.mem_insertionSort, List.mem_filter, decide_eq_true_iff] at h
  have hcount := h.2
  rw [List.count, List.countP_map, List.countP_eq_length_filter, List.filter_filter] at hcount
  have hnodup : t.rows.Nodup := List.Nodup.of_map _ t.uniqueHash
  have hmem : ∀ r ∈ t.rows.filter (fun r => ((· == height) ∘ (·.height)) r && r.isActive),
      r ∈ t.rows ∧ r.isActive = true ∧ r.height = height := by
    intro r hr
    simp only [List.mem_filter, Function.comp_apply, Bool.and_eq_true, beq_iff_eq] at hr
    exact ⟨hr.1, hr.2.2, hr.2.1⟩
  have hl := hnodup.filter fun r => ((· == height) ∘ (·.height)) r && r.isActive
  generalize t.rows.filter (fun r => ((· == height) ∘ (·.height)) r && r.isActive) = l
    at hcount hmem hl
  rcases l with _ | ⟨r, _ | ⟨r', rest⟩⟩
  · simp at hcount
  · simp at hcount
  · obtain ⟨hr, ha, hh⟩ := hmem r (by simp)
    obtain ⟨hr', ha', hh'⟩ := hmem r' (by simp)
    refine ⟨r, hr, r', hr', fun hhash => ?_, ⟨ha, hh⟩, ha', hh'⟩
    have hsame := HeaderTable.eq_of_hash hr hr' hhash
    subst hsame
    simp at hl

/-- The heights a sweep lists go down. -/
theorem dualActiveHeights_desc (rows : List HeaderRow) :
    (dualActiveHeights rows).Pairwise (· > ·) := by
  unfold dualActiveHeights
  dsimp only
  have hsorted := List.pairwise_insertionSort (· ≥ ·)
    ((((rows.filter (·.isActive)).map (·.height)).dedup.filter fun h =>
      1 < ((rows.filter (·.isActive)).map (·.height)).count h))
  have hnodup : ((((rows.filter (·.isActive)).map (·.height)).dedup.filter fun h =>
      1 < ((rows.filter (·.isActive)).map (·.height)).count h).insertionSort (· ≥ ·)).Nodup :=
    (List.perm_insertionSort _ _).nodup_iff.mpr ((List.nodup_dedup _).filter _)
  exact hsorted.imp₂ (fun _ _ hge hne => by omega) hnodup

/-- The rows after the sweep that are active are the chain's. -/
theorem Spine.active_iff {t : HeaderTable} (h : Spine t chain top bottom) (r : HeaderRow) :
    r ∈ (t.deactivate (offChain chain)).rows ∧ r.isActive = true ↔ r ∈ chain := by
  constructor
  · rintro ⟨hr, hact⟩
    obtain ⟨o, ho, rfl⟩ := HeaderTable.mem_update.mp hr
    by_cases hc : offChain chain o = true
    · rw [if_pos hc] at hact
      cases hact
    · rw [if_neg hc] at hact ⊢
      by_contra hnot
      exact hc (offChain_iff.mpr ⟨hact, hnot⟩)
  · intro hr
    obtain ⟨hstored, hact⟩ := h.stored r hr
    refine ⟨HeaderTable.mem_update.mpr ⟨r, hstored, ?_⟩, hact⟩
    rw [if_neg fun hc => (offChain_iff.mp hc).2 hr]

/-- **The sweep keeps the chain.** Where no more heights than one sweep settles hold several
active rows, `dedupe_active_heights` ends where the database takes its statements; when it
ends, the rows it leaves active are the chain's, it has changed nothing else, it answers how
many rows it took off, and a second call changes nothing and answers none. -/
theorem dedupe_keeps_chain (h : Spine w.db.headers chain top bottom)
    (hfew : (dualActiveHeights w.db.rows).length ≤ dedupeHeightsPerSweep) :
    ((∀ n, env.accepts n = true) → ∃ n w', dedupeActiveHeights env w = (.ok n, w')) ∧
      ∀ n w', dedupeActiveHeights env w = (.ok n, w') →
        (∀ r, r ∈ w'.db.rows ∧ r.isActive = true ↔ r ∈ chain) ∧
          w'.db = { w.db with headers := w.db.headers.update (offChain chain) fun r =>
            { r.toRowCells with isActive := false } } ∧
          n = w.db.rows.countP (offChain chain) ∧
          dedupeActiveHeights env w' = (.ok 0, w') := by
  constructor
  · intro htakes
    exact dedupeEach_ends htakes _ w
  · intro n w' hsweep
    unfold dedupeActiveHeights readRows at hsweep
    rw [Prog.read_bind_apply, List.take_of_length_le hfew] at hsweep
    have hrange : ∀ x ∈ dualActiveHeights w.db.rows, bottom.height ≤ x ∧ x < top.height := by
      intro height hm
      obtain ⟨r, hr, r', hr', hne, ⟨ha, hh⟩, ha', hh'⟩ := rivals_of_mem hm
      refine ⟨hh ▸ h.lowest r hr ha, Nat.lt_of_le_of_ne (hh ▸ h.highest r hr ha) fun heq => ?_⟩
      exact hne (congrArg (·.hash) ((h.alone r hr ha (hh.trans heq)).trans
        (h.alone r' hr' ha' (hh'.trans heq)).symm))
    have hcover : ∀ r ∈ w.db.headers.rows, offChain chain r = true →
        r.height ∈ dualActiveHeights w.db.rows := by
      intro r hr hoff
      obtain ⟨hact, hnot⟩ := offChain_iff.mp hoff
      obtain ⟨c, hc, hch⟩ := h.exists_height (h.lowest r hr hact) (h.highest r hr hact)
      obtain ⟨hcr, hca⟩ := h.stored c hc
      refine mem_dualActiveHeights ⟨r, hr, c, hcr, fun hhash => ?_, ⟨hact, rfl⟩, hca, hch⟩
      exact hnot (HeaderTable.eq_of_hash hr hcr hhash ▸ hc)
    obtain ⟨hn, hdb⟩ := dedupeEach_spine h (dualActiveHeights_desc _) hrange hcover hsweep
    have hactive : ∀ r, r ∈ w'.db.rows ∧ r.isActive = true ↔ r ∈ chain := by
      intro r
      rw [hdb]
      exact h.active_iff r
    refine ⟨hactive, hdb, hn, ?_⟩
    have hnone : dualActiveHeights w'.db.rows = [] := by
      refine List.eq_nil_iff_forall_not_mem.mpr fun height hm => ?_
      obtain ⟨r, hr, r', hr', hne, ⟨ha, hh⟩, ha', hh'⟩ := rivals_of_mem hm
      have hsame := h.eq_of_height ((hactive r).mp ⟨hr, ha⟩) ((hactive r').mp ⟨hr', ha'⟩)
        (hh.trans hh'.symm)
      exact hne (congrArg (·.hash) hsame)
    unfold dedupeActiveHeights readRows
    rw [Prog.read_bind_apply, hnone]
    rfl

namespace Regtest

/-- A row of a block, active and unflagged. -/
def activeRow (header : BlockHeader) (headerId chainWork : Nat) : HeaderRow where
  toBlockHeader := header
  previousHeaderId := none
  isActive := true
  isChainTip := false
  chainWork := chainWork
  headerId := headerId

/-- The chain of `a2`, and `b1` active beside `a1` as the newer row. -/
def besideA1 : HeaderTable where
  rows := [activeRow genesis 1 2, activeRow a1 2 4, activeRow b1 3 4, activeRow a2 4 6]
  uniqueHash := by decide +kernel
  uniqueId := by decide +kernel

/-- The chain of `a2` among the active rows. -/
theorem spine_besideA1 : Spine besideA1 [activeRow a2 4 6, activeRow a1 2 4, activeRow genesis 1 2]
    (activeRow a2 4 6) (activeRow genesis 1 2) where
  head := rfl
  last := rfl
  linked := by
    simp only [List.isChain_cons_cons, List.isChain_singleton, and_true, ChildOf]
    decide +kernel
  stored := by decide +kernel
  highest := by decide +kernel
  alone := by decide +kernel
  lowest := by decide +kernel

end Regtest

open Regtest in
/-- A rival of the chain's row, and newer than it: the sweep takes the rival off. -/
theorem dedupe_keeps_chain_beside :
    ∃ w', dedupeActiveHeights host ⟨{ Store.fresh with headers := besideA1 }, 0, []⟩ =
        (.ok 1, w') ∧
      (∀ r, r ∈ w'.db.rows ∧ r.isActive = true ↔
        r ∈ [activeRow a2 4 6, activeRow a1 2 4, activeRow genesis 1 2]) ∧
      dedupeActiveHeights host w' = (.ok 0, w') := by
  have hkept := @dedupe_keeps_chain host ⟨{ Store.fresh with headers := besideA1 }, 0, []⟩ _ _ _
    spine_besideA1 (by decide +kernel)
  obtain ⟨n, w', hsweep⟩ := hkept.1 fun _ => rfl
  obtain ⟨hactive, -, hn, hagain⟩ := hkept.2 n w' hsweep
  have hone : n = 1 := hn.trans (by decide +kernel)
  exact ⟨w', hone ▸ hsweep, hactive, hagain⟩

end Whole

end Chaintracks

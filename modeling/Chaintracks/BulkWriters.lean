import Chaintracks.LiveWriters

/-!
# The moves of the bulk path, and of every pass and door

A batch that goes through is a linked run every header of which was checked in its
context or vouched for; what it noted is what its chunks then rely on
(`Chaintracks.judgeRun_sound`). The vouching is the delicate part: a run without a
stored parent is taken at its hashes up to a checkpoint *inside the run*, and it is the
run's own linkage that makes the checkpoint speak for the headers below it.

The passes and the doors only call the writers below them, so their moves are theirs.
`Chaintracks.Call` lists the calls, and `Chaintracks.via_call` is the result the
invariants are proved from.
-/

namespace Chaintracks

open HeaderRows

/-! ### Linked runs -/

section LinkedRuns

variable {headers : List BlockHeader} {first h : BlockHeader}

/-- Along a linked run the heights go up. -/
theorem LinkedRun.pairwise (hl : LinkedRun headers) :
    headers.Pairwise fun a b => a.height < b.height := by
  refine List.isChain_iff_pairwise.mp (hl.imp fun a b hab => ?_)
  have := hab.1
  omega

/-- A height between the ends of a linked run is the height of one of its headers. -/
theorem LinkedRun.exists_height (hl : LinkedRun (first :: headers)) {last : BlockHeader}
    (hlast : (first :: headers).getLast? = some last) {v : Nat} (hlo : first.height ≤ v)
    (hhi : v ≤ last.height) : ∃ x ∈ first :: headers, x.height = v := by
  induction headers generalizing first with
  | nil =>
    rw [List.getLast?_singleton, Option.some_inj] at hlast
    subst hlast
    exact ⟨first, List.mem_singleton_self _, by omega⟩
  | cons second rest ih =>
    by_cases hv : first.height = v
    · exact ⟨first, List.mem_cons_self, hv⟩
    · obtain ⟨hstand, hl'⟩ := List.isChain_cons_cons.mp hl
      have hlo' : second.height ≤ v := by
        have := hstand.1
        omega
      obtain ⟨x, hx, hxv⟩ := ih hl' (by rwa [List.getLast?_cons_cons] at hlast) hlo'
      exact ⟨x, List.mem_cons_of_mem _ hx, hxv⟩

theorem LinkedRun.first_le (hl : LinkedRun (first :: headers)) (hh : h ∈ first :: headers) :
    first.height ≤ h.height := by
  rcases List.mem_cons.mp hh with rfl | hh
  · exact Nat.le_refl _
  · exact Nat.le_of_lt ((List.pairwise_cons.mp hl.pairwise).1 h hh)

theorem LinkedRun.le_last (hl : LinkedRun headers) {last : BlockHeader}
    (hlast : headers.getLast? = some last) (hh : h ∈ headers) : h.height ≤ last.height := by
  rw [List.getLast?_eq_some_iff] at hlast
  obtain ⟨front, rfl⟩ := hlast
  rcases List.mem_append.mp hh with hh | hh
  · exact Nat.le_of_lt ((List.pairwise_append.mp hl.pairwise).2.2 h hh last
      (List.mem_singleton_self _))
  · rw [List.mem_singleton.mp hh]

/-- In a linked run the lowest height is the first header's alone. -/
theorem LinkedRun.eq_first (hl : LinkedRun (first :: headers)) (hh : h ∈ first :: headers)
    (hle : h.height ≤ first.height) : h = first := by
  rcases List.mem_cons.mp hh with rfl | hh
  · rfl
  · have := (List.pairwise_cons.mp hl.pairwise).1 h hh
    omega

/-- No two headers of a linked run stand at one height. -/
theorem LinkedRun.eq_of_height {h' : BlockHeader} (hl : LinkedRun headers) (hh : h ∈ headers)
    (hh' : h' ∈ headers) (heq : h.height = h'.height) : h = h' := by
  have hnodup : (headers.map (·.height)).Nodup :=
    List.pairwise_map.mpr (hl.pairwise.imp Nat.ne_of_lt)
  exact List.inj_on_of_nodup_map hnodup hh hh' heq

end LinkedRuns

/-! ### The judgement of a run -/

section Judgement

variable {params : ChainParams} {rows : List HeaderRow} {first : BlockHeader}
  {headers stored : List BlockHeader} {lastHeight : Nat} {below vouched : Option Nat}

theorem checkPowAll_ok {u : Unit} (h : checkPowAll params headers = .ok u) :
    ∀ x ∈ headers, checkPow params x = .ok () := by
  induction headers with
  | nil => intro x hx; cases hx
  | cons y ys ih =>
    unfold checkPowAll at h
    obtain ⟨_, hy, h⟩ := Except.bind_eq_ok.mp h
    intro x hx
    rcases List.mem_cons.mp hx with rfl | hx
    · exact Except.mapError_eq_ok.mp hy
    · exact ih h x hx

theorem checkLinked_ok {u : Unit} (h : checkLinked headers = .ok u) : LinkedRun headers := by
  induction headers with
  | nil => exact List.isChain_nil
  | cons x xs ih =>
    cases xs with
    | nil => exact List.isChain_singleton x
    | cons y ys =>
      unfold checkLinked at h
      split at h
      · cases h
      · rename_i hn
        rw [not_or, not_not, Bool.not_eq_false] at hn
        exact List.IsChain.cons_cons ⟨hn.1, hn.2⟩ (ih h)

/-- Every header of a run that went through answers to the checkpoint at its height. -/
theorem judgeRun_checkpoint {run : List BlockHeader} {entries : List Entry}
    (h : judgeRun params rows first lastHeight below vouched stored run headers = .ok entries) :
    ∀ x ∈ headers, checkCheckpoint params x.height x.hash = .ok () := by
  induction headers generalizing run entries with
  | nil => intro x hx; cases hx
  | cons y ys ih =>
    unfold judgeRun at h
    obtain ⟨_, -, h⟩ := Except.bind_eq_ok.mp h
    obtain ⟨entry, hentry, h⟩ := Except.bind_eq_ok.mp h
    obtain ⟨rest, hrest, -⟩ := Except.bind_eq_ok.mp h
    intro x hx
    rcases List.mem_cons.mp hx with rfl | hx
    · unfold checkInRun at hentry
      split at hentry
      · obtain ⟨_, hcp, -⟩ := Except.bind_eq_ok.mp hentry
        exact Except.mapError_eq_ok.mp hcp
      · obtain ⟨_, hctx, -⟩ := Except.bind_eq_ok.mp hentry
        exact (checkContext_ok (Except.mapError_eq_ok.mp hctx)).1
    · exact ih hrest x hx

/-- **What a run that went through has noted**: for each of its headers, that its
context passed against its own ancestry, or that it is vouched for. -/
theorem judgeRun_sound {run : List BlockHeader} {entries : List Entry}
    (h : judgeRun params rows first lastHeight below vouched stored run headers = .ok entries)
    (hpow : ∀ x ∈ headers, checkPow params x = .ok ())
    (hlinked : LinkedRun (stored ++ run ++ headers))
    (hground : ∀ x ∈ headers, vouched.any (x.height ≤ ·) = true → Vouched params x)
    (hstart : stored ++ run = [] → ∀ x ∈ headers.head?, vouched.any (x.height ≤ ·) = true)
    (hheld : ∀ x ∈ stored, ∃ row ∈ rows, row.toBlockHeader = x) :
    (∀ e ∈ entries, e.Sound params rows ∧ ∀ b txn s, e ≠ .commit b txn s) ∧
      ∀ x ∈ headers, Cleared entries x.hash x.height := by
  induction headers generalizing run entries with
  | nil =>
    cases h
    exact ⟨by simp, by simp⟩
  | cons y ys ih =>
    unfold judgeRun at h
    obtain ⟨_, -, h⟩ := Except.bind_eq_ok.mp h
    obtain ⟨entry, hentry, h⟩ := Except.bind_eq_ok.mp h
    obtain ⟨rest, hrest, h⟩ := Except.bind_eq_ok.mp h
    cases h
    obtain ⟨ihs, ihc⟩ := ih hrest (fun x hx => hpow x (List.mem_cons_of_mem _ hx))
      (by simpa using hlinked)
      (fun x hx => hground x (List.mem_cons_of_mem _ hx)) (by simp)
    have hypow := hpow y List.mem_cons_self
    have hy : (entry.Sound params rows ∧ ∀ b txn s, entry ≠ .commit b txn s) ∧
        Cleared [entry] y.hash y.height := by
      unfold checkInRun at hentry
      split at hentry
      · rename_i hv
        obtain ⟨_, -, hpure⟩ := Except.bind_eq_ok.mp hentry
        cases hpure
        exact ⟨⟨⟨.inl hypow, hground y List.mem_cons_self hv⟩, Entry.vouched_ne_commit⟩, y, rfl, rfl,
          .inl (List.mem_singleton_self _)⟩
      · rename_i hv
        obtain ⟨_, hctx, hpure⟩ := Except.bind_eq_ok.mp hentry
        cases hpure
        refine ⟨⟨⟨.inl hypow, Except.mapError_eq_ok.mp hctx, ?_, ?_, hheld⟩,
          Entry.passed_ne_commit⟩, y, rfl, rfl, .inr ⟨_, _, List.mem_singleton_self _⟩⟩
        · intro hnil
          exact hv (hstart hnil y rfl)
        · rw [← List.singleton_append, ← List.append_assoc] at hlinked
          exact hlinked.left_of_append
    refine ⟨?_, ?_⟩
    · intro e he
      rcases List.mem_cons.mp he with rfl | he
      · exact hy.1
      · exact ihs e he
    · intro x hx
      rcases List.mem_cons.mp hx with rfl | hx
      · exact hy.2.mono (by simp)
      · exact (ihc x hx).mono (List.subset_cons_self _ _)

/-- The ground a run stands on: stored ancestors it is linked to, or an anchor inside
it that vouches for its headers. -/
theorem batchGround_sound {tail : List BlockHeader} {last : BlockHeader}
    (h : batchGround params rows first (first :: tail) lastHeight = .ok (stored, vouched))
    (hlinked : LinkedRun (first :: tail))
    (hlast : (first :: tail).getLast? = some last) (hheight : last.height = lastHeight)
    (hcps : ∀ x ∈ first :: tail, checkCheckpoint params x.height x.hash = .ok ()) :
    LinkedRun (stored ++ first :: tail) ∧
      (∀ x ∈ first :: tail, vouched.any (x.height ≤ ·) = true → Vouched params x) ∧
      (stored = [] → vouched.any (first.height ≤ ·) = true) ∧
      ∀ x ∈ stored, ∃ row ∈ rows, row.toBlockHeader = x := by
  unfold batchGround at h
  split at h
  · -- a stored parent: its ancestry is linked down from it
    rename_i p hp
    obtain ⟨_, hext, h⟩ := Except.bind_eq_ok.mp h
    cases h
    obtain ⟨hmem, hchain, hlastp⟩ := loadChain_spec (headerForHash_mem hp)
      (batchDepth params first (first :: tail))
    refine ⟨?_, by simp, ?_, ?_⟩
    · refine List.isChain_append.mpr ⟨hchain, hlinked, ?_⟩
      intro x hx y hy
      rw [List.getLast?_map, hlastp] at hx
      cases hx
      cases hy
      refine ⟨checkExtends_ok hext, ?_⟩
      rw [headerForHash_hash hp]
      exact eqIgnoreAsciiCase_self _
    · intro hnil
      rw [List.map_eq_nil_iff.mp hnil] at hlastp
      cases hlastp
    · intro x hx
      obtain ⟨r, hr, rfl⟩ := List.mem_map.mp hx
      exact ⟨r, hmem r hr, rfl⟩
  · obtain ⟨v, hv, h⟩ := Except.bind_eq_ok.mp h
    cases h
    refine ⟨hlinked, ?_, fun _ => ?_, by simp⟩
    · intro x hx hxv
      rw [Option.any_some, decide_eq_true_eq] at hxv
      unfold vouchedThrough at hv
      split at hv
      · -- the genesis vouches for itself alone
        rename_i hzero
        obtain ⟨anchored, hu, hpure⟩ := Except.bind_eq_ok.mp hv
        replace hu := Except.mapError_eq_ok.mp hu
        cases hpure
        have hfirst : x = first := hlinked.eq_first hx (by omega)
        subst hfirst
        obtain ⟨rfl, -⟩ := (checkUnlinked_ok hu).genesis hzero
        exact vouched_of_unlinked hu
      · -- the highest checkpoint of the run vouches for the headers up to it
        split at hv
        · rename_i c hc
          cases hv
          have hrange := List.find?_some hc
          simp only [Bool.and_eq_true, decide_eq_true_eq] at hrange
          obtain ⟨top, htop, htopv⟩ := hlinked.exists_height hlast hrange.1 (hheight ▸ hrange.2)
          refine ⟨hcps x hx, .inr ⟨_, top, hlinked, hx, htop, htopv ▸ hxv, ?_, hcps top htop⟩⟩
          have hcmem : c ∈ params.checkpoints :=
            List.mem_reverse.mp (List.mem_of_find?_eq_some hc)
          rw [ChainParams.checkpointAt, Option.isSome_map, List.find?_isSome]
          exact ⟨c, hcmem, beq_iff_eq.mpr htopv.symm⟩
        · cases hv
    · rw [Option.any_some, decide_eq_true_eq]
      unfold vouchedThrough at hv
      split at hv
      · rename_i hzero
        obtain ⟨anchored, hu, hpure⟩ := Except.bind_eq_ok.mp hv
        replace hu := Except.mapError_eq_ok.mp hu
        cases hpure
        exact Nat.le_of_eq ((checkUnlinked_ok hu).genesis hzero).2.1
      · split at hv
        · rename_i c hc
          cases hv
          have hrange := List.find?_some hc
          simp only [Bool.and_eq_true, decide_eq_true_eq] at hrange
          exact hrange.1
        · cases hv

end Judgement

/-! ### The statements of a batch -/

section Packing

theorem mem_packGroups {groups : List (List Stmt)} {cur chunk : List Stmt} {stmt : Stmt}
    (hchunk : chunk ∈ packGroups groups cur) (hstmt : stmt ∈ chunk) :
    stmt ∈ cur ∨ ∃ g ∈ groups, stmt ∈ g := by
  induction groups generalizing cur with
  | nil =>
    unfold packGroups at hchunk
    split at hchunk
    · cases hchunk
    · rw [List.mem_singleton] at hchunk
      exact .inl (hchunk ▸ hstmt)
  | cons g gs ih =>
    unfold packGroups at hchunk
    split at hchunk
    · rcases List.mem_cons.mp hchunk with rfl | hchunk
      · exact .inl hstmt
      · rcases ih hchunk with h | ⟨g', hg', h⟩
        · exact .inr ⟨g, List.mem_cons_self, h⟩
        · exact .inr ⟨g', List.mem_cons_of_mem _ hg', h⟩
    · rcases ih hchunk with h | ⟨g', hg', h⟩
      · rcases List.mem_append.mp h with h | h
        · exact .inl h
        · exact .inr ⟨g, List.mem_cons_self, h⟩
      · exact .inr ⟨g', List.mem_cons_of_mem _ hg', h⟩

theorem mem_packStmts {stmts chunk : List Stmt} {stmt : Stmt} (hchunk : chunk ∈ packStmts stmts)
    (hstmt : stmt ∈ chunk) : stmt ∈ stmts := by
  rcases mem_packGroups hchunk hstmt with h | ⟨g, hg, h⟩
  · cases h
  · obtain ⟨s, hs, rfl⟩ := List.mem_map.mp hg
    rwa [List.mem_singleton.mp h]

theorem mem_runWork {params : ChainParams} {running : Nat} {prev : Option String}
    {headers : List BlockHeader} {p : BlockHeader × Nat}
    (h : p ∈ runWork params running prev headers) : p.1 ∈ headers := by
  induction headers generalizing running prev with
  | nil => cases h
  | cons x xs ih =>
    unfold runWork at h
    rcases List.mem_cons.mp h with rfl | h
    · exact List.mem_cons_self
    · exact List.mem_cons_of_mem _ (ih h)

theorem mem_headerStmts {storedInactive : List (List UInt8)} {header : BlockHeader} {work : Nat}
    {stmt : Stmt} (h : stmt ∈ headerStmts storedInactive header work) :
    stmt = .activateStored work header.hash header.height ∨
      stmt = .insertHeader none header true work := by
  unfold headerStmts at h
  rcases List.mem_append.mp h with h | h
  · split at h
    · exact .inl (List.mem_singleton.mp h)
    · cases h
  · exact .inr (List.mem_singleton.mp h)

end Packing

/-! ### The moves of the bulk path -/

section Bulk

variable {env : Env} {params : ChainParams} {w : World} {rows : List HeaderRow}
  {first : BlockHeader} {tail headers : List BlockHeader} {entries : List Entry} {plan : BatchPlan}

/-- **What a batch has checked** when it goes through. -/
structure BatchJudged (params : ChainParams) (rows : List HeaderRow) (headers : List BlockHeader)
    (entries : List Entry) (plan : BatchPlan) : Prop where
  linked : LinkedRun headers
  pow : ∀ h ∈ headers, checkPow params h = .ok ()
  sound : ∀ e ∈ entries, e.Sound params rows ∧ ∀ b txn s, e ≠ .commit b txn s
  cleared : ∀ h ∈ headers, Cleared entries h.hash h.height
  writes : ∀ chunks, plan = .bulk chunks → ∀ chunk ∈ chunks, ∀ stmt ∈ chunk,
    ∃ h ∈ headers, ∃ work,
      stmt = .activateStored work h.hash h.height ∨ stmt = .insertHeader none h true work

theorem planBatch_judged
    (h : planBatch params rows first (first :: tail) = .ok (entries, plan)) :
    BatchJudged params rows (first :: tail) entries plan := by
  unfold planBatch at h
  obtain ⟨_, hpow, h⟩ := Except.bind_eq_ok.mp h
  obtain ⟨_, hlink, h⟩ := Except.bind_eq_ok.mp h
  obtain ⟨⟨stored, vouched⟩, hground, h⟩ := Except.bind_eq_ok.mp h
  obtain ⟨judged, hjudge, h⟩ := Except.bind_eq_ok.mp h
  cases h
  have hlinked := checkLinked_ok hlink
  obtain ⟨last, hlast⟩ : ∃ last, (first :: tail).getLast? = some last :=
    ⟨_, List.getLast?_eq_some_getLast (List.cons_ne_nil first tail)⟩
  obtain ⟨hfrom, hvouch, hstart, hheld⟩ := batchGround_sound hground hlinked hlast
    (by rw [hlast]; rfl) (judgeRun_checkpoint hjudge)
  obtain ⟨hsound, hcleared⟩ := judgeRun_sound hjudge (checkPowAll_ok hpow)
    (by rwa [List.append_nil]) hvouch
    (by
      rw [List.append_nil]
      intro hnil x hx
      cases hx
      exact hstart hnil) hheld
  refine ⟨hlinked, checkPowAll_ok hpow, hsound, hcleared, ?_⟩
  intro chunks hchunks chunk hchunk stmt hstmt
  split at hchunks
  · cases hchunks
  · cases hchunks
    rcases mem_packGroups hchunk hstmt with hnil | ⟨g, hg, hstmt⟩
    · cases hnil
    · obtain ⟨p, hp, rfl⟩ := List.mem_map.mp hg
      exact ⟨p.1, mem_runWork hp, p.2, mem_headerStmts hstmt⟩

/-- The live path's steps are steps. -/
theorem via_live {α : Type} {m : Writer α}
    (h : Prog.Via (Step params (LiveMove params fun _ => True)) m w) :
    Prog.Via (Step params (Move params)) m w :=
  h.mono fun _ _ hs => hs.mono fun _ _ hm => .live hm

/-- **The transactions of a batch**: those of the live path, and its own chunks. -/
inductive BatchMove (params : ChainParams) (w : World) : List Stmt → Prop
  | live {txn : List Stmt} (move : LiveMove params (fun _ => True) w txn) : BatchMove params w txn
  | bulk (headers : List BlockHeader) (chunk : List Stmt)
      (linked : LinkedRun headers) (pow : ∀ h ∈ headers, checkPow params h = .ok ())
      (cleared : ∀ h ∈ headers, Cleared w.history h.hash h.height)
      (writes : ∀ stmt ∈ chunk, ∃ h ∈ headers, ∃ work,
        stmt = .activateStored work h.hash h.height ∨ stmt = .insertHeader none h true work) :
      BatchMove params w chunk

theorem BatchMove.move {txn : List Stmt} (h : BatchMove params w txn) : Move params w txn := by
  cases h with
  | live move => exact .live move
  | bulk headers _ linked pow cleared writes => exact .bulk headers txn linked pow cleared writes

theorem via_insertEach (env : Env) (params : ChainParams) (headers : List BlockHeader) (w : World) :
    Prog.Via (Step params (BatchMove params)) (insertEach env params headers) w := by
  induction headers generalizing w with
  | nil => exact Prog.Via.pure _
  | cons x xs ih =>
    refine Prog.Via.bind ?_ fun result s _ => Prog.Via.bind (ih s) fun added s' _ => Prog.Via.pure _
    exact (via_insertHeader env params trivial w).mono fun _ _ hs => hs.mono fun _ _ hm => .live hm

/-- Transactions handed over one after the other, where what their moves rest on – that
headers are cleared – is kept by each. -/
theorem via_chunks {M : World → List Stmt → Prop} {P : List Entry → Prop}
    (chunks : List (List Stmt)) (hmono : ∀ a b : List Entry, a ⊆ b → P a → P b)
    (hmove : ∀ chunk ∈ chunks, ∀ w', P w'.history → M w' chunk)
    (hw : P w.history) : Prog.Via (Step params M) (Prog.each (commit env) chunks) w := by
  induction chunks generalizing w with
  | nil => exact Prog.Via.pure ()
  | cons chunk chunks ih =>
    refine Prog.Via.bind (via_commit (hmove chunk List.mem_cons_self w hw)) fun _ s hs => ?_
    obtain ⟨-, rfl⟩ := commit_eq_ok hs
    exact ih (fun c hc => hmove c (List.mem_cons_of_mem _ hc))
      (hmono _ _ (List.subset_cons_self _ _) hw)

/-- The writes of a batch whose checks are in the history. -/
theorem via_writeBatch (env : Env) (hj : BatchJudged params rows headers entries plan)
    (hw : entries ⊆ w.history) :
    Prog.Via (Step params (BatchMove params)) (writeBatch env params headers plan) w := by
  cases plan with
  | live => exact via_insertEach env params _ _
  | bulk chunks =>
    refine Prog.Via.bind (via_chunks (P := fun history => ∀ h ∈ headers,
      Cleared history h.hash h.height) chunks ?_ ?_ ?_) fun _ s _ => Prog.Via.pure _
    · intro a b hab ha h hh
      exact (ha h hh).mono hab
    · intro chunk hchunk w' hw'
      exact .bulk headers chunk hj.linked hj.pow hw' (hj.writes chunks rfl chunk hchunk)
    · intro h hh
      exact (hj.cleared h hh).mono hw

/-- The moves of `insert_headers_batch`, which activates no push and sweeps no height. -/
theorem via_batch (env : Env) (params : ChainParams) (headers : List BlockHeader) (w : World) :
    Prog.Via (Step params (BatchMove params)) (insertHeadersBatch env params headers) w := by
  cases headers with
  | nil => exact Prog.Via.pure _
  | cons first tail =>
    change Prog.Via _ (insertRun env params first (first :: tail)) w
    unfold insertRun readRows
    refine Prog.Via.read_bind ?_
    refine Prog.Via.ofExcept_bind fun judged hplan => ?_
    have hj := planBatch_judged hplan
    refine Prog.Via.bind (via_notes hj.sound) fun _ w₁ hw₁ => ?_
    rw [each_note_apply] at hw₁
    cases hw₁
    exact via_writeBatch env hj fun e he => List.mem_append_left _ (List.mem_reverse.mpr he)

/-- **The moves of `insert_headers_batch`.** -/
theorem via_insertHeadersBatch (env : Env) (params : ChainParams) (headers : List BlockHeader)
    (w : World) : Prog.Via (Step params (Move params)) (insertHeadersBatch env params headers) w :=
  (via_batch env params headers w).mono fun _ _ hs => hs.mono fun _ _ hm => hm.move

/-- A batch that answered was a linked run, and the history has every header of it
checked or vouched for. -/
theorem insertHeadersBatch_ok {n : Nat} {w' : World}
    (h : insertHeadersBatch env params headers w = (.ok n, w')) :
    LinkedRun headers ∧ ∀ x ∈ headers, Cleared w'.history x.hash x.height := by
  cases headers with
  | nil => exact ⟨List.isChain_nil, by simp⟩
  | cons first tail =>
    change insertRun env params first (first :: tail) w = _ at h
    unfold insertRun readRows at h
    rw [Prog.read_bind_apply] at h
    cases hplan : planBatch params w.db.rows first (first :: tail) with
    | error e =>
      rw [hplan] at h
      cases h
    | ok judged =>
      have hj := planBatch_judged hplan
      rw [hplan, Prog.ofExcept_ok_bind_apply, Prog.bind_ok (each_note_apply judged.1 w)] at h
      refine ⟨hj.linked, fun x hx => ?_⟩
      -- whatever the run wrote after its notes, they stand
      have hnotes : judged.1 ⊆ (World.mk w.db w.asked (judged.1.reverse ++ w.history)).history :=
        fun e he => List.mem_append_left _ (List.mem_reverse.mpr he)
      have hsub := history_suffix (via_writeBatch env hj hnotes)
      rw [h] at hsub
      refine ((hj.cleared x hx).mono fun e he => ?_).mono hsub.subset
      exact List.mem_append_left _ (List.mem_reverse.mpr he)

theorem via_flagHighest {M : World → List Stmt → Prop}
    (hflag : ∀ w' top, highestActive w'.db.rows = some top → M w' (flagTipTxn top.hash))
    (w : World) : Prog.Via (Step params M) (updateChainTipToHighest env) w := by
  unfold updateChainTipToHighest readRows
  refine Prog.Via.read_bind ?_
  cases htop : highestActive w.db.rows with
  | none => exact Prog.Via.pure _
  | some top => exact Prog.Via.bind (via_commit (hflag w top htop)) fun _ s _ => Prog.Via.pure _

theorem via_updateChainTipToHighest (env : Env) (params : ChainParams) (w : World) :
    Prog.Via (Step params (Move params)) (updateChainTipToHighest env) w :=
  via_flagHighest (fun _ top htop => .flagTip top htop) w

theorem via_dedupeEach (env : Env) (params : ChainParams) (heights : List Nat) (w : World) :
    Prog.Via (Step params (Move params)) (dedupeEach env heights) w := by
  induction heights generalizing w with
  | nil => exact Prog.Via.pure _
  | cons height heights ih =>
    refine Prog.Via.bind ?_ fun swept s _ => Prog.Via.bind (ih s) fun _ s' _ => Prog.Via.pure _
    unfold dedupeOne readRows
    refine Prog.Via.read_bind ?_
    exact Prog.Via.bind (via_commit (.dedupe height)) fun _ s _ => Prog.Via.pure _

theorem via_dedupeActiveHeights (env : Env) (params : ChainParams) (w : World) :
    Prog.Via (Step params (Move params)) (dedupeActiveHeights env) w := by
  unfold dedupeActiveHeights readRows
  refine Prog.Via.read_bind ?_
  exact via_dedupeEach env params _ w

/-- A push that is activated has a stored, active child standing above all of it. -/
theorem planCanonical_activate {last : BlockHeader} {child : String} {rivals : List HeaderRow}
    (h : planCanonical rows headers first last = .activate child rivals) :
    ∃ row ∈ rows, row.hash = child ∧ row.isActive = true ∧ row.height = last.height + 1 ∧
      eqIgnoreAsciiCase row.previousHash last.hash = true := by
  unfold planCanonical at h
  dsimp only at h
  split at h
  · cases h
  · split at h
    · cases h
    · rename_i row hrow
      split at h
      · cases h
      · split at h
        · cases h
        · cases h
          have hp := List.find?_some hrow
          simp only [Bool.and_eq_true, beq_iff_eq] at hp
          have hm := mem_activeHeadersBetween.mp (List.mem_of_find?_eq_some hrow)
          exact ⟨row, hm.1, rfl, hm.2.1, hp.1, hp.2⟩

/-- The transactions of `canonicalize_pushed`: a span linked, the flag put on the highest
active row, or the activation it planned. -/
theorem via_canonicalizePushed {M : World → List Stmt → Prop} (inserted : Nat)
    (hspan : ∀ lo hi, M w [.linkSpan lo hi])
    (hflag : ∀ w' top, highestActive w'.db.rows = some top → M w' (flagTipTxn top.hash))
    (hactivate : ∀ first last child rivals, headers.head? = some first →
      headers.getLast? = some last →
      planCanonical w.db.rows headers first last = .activate child rivals →
      M w (activationTxn headers last child (rivals.map (·.height)).min?)) :
    Prog.Via (Step params M) (canonicalizePushed env headers inserted) w := by
  unfold canonicalizePushed readRows
  split
  · rename_i first last hfirst hlast
    refine Prog.Via.read_bind ?_
    split
    · refine Prog.Via.bind (via_commit (hspan _ _)) fun _ s _ => ?_
      exact Prog.Via.bind (via_flagHighest hflag s) fun _ s' _ => Prog.Via.pure _
    · exact Prog.Via.pure _
    · rename_i child rivals hplan
      refine Prog.Via.bind (via_commit ?_) fun _ s _ => Prog.Via.pure _
      exact hactivate first last child rivals hfirst hlast hplan
  · exact Prog.Via.pure _

/-- **The moves of `ingest_pushed`.** -/
theorem via_ingestPushed (env : Env) (params : ChainParams) (headers : List BlockHeader)
    (w : World) : Prog.Via (Step params (Move params)) (ingestPushed env params headers) w := by
  refine Prog.Via.bind (via_insertHeadersBatch env params headers w) fun inserted s hs => ?_
  obtain ⟨hlinked, hcleared⟩ := insertHeadersBatch_ok hs
  refine via_canonicalizePushed inserted (fun lo hi => .linkSpan lo hi)
    (fun w' top htop => .flagTip top htop) fun first last child rivals _ hlast hplan => ?_
  obtain ⟨row, hrow, rfl, hactive, hheight, -⟩ := planCanonical_activate hplan
  refine .activation headers last row _ hcleared hrow hactive fun h hh => ?_
  have := hlinked.le_last hlast hh
  omega

theorem checkProgress_ok {u : Unit} (h : checkProgress params headers = .ok u) :
    ∀ x ∈ headers, checkPow params x = .ok () := by
  induction headers with
  | nil => intro x hx; cases hx
  | cons y ys ih =>
    unfold checkProgress at h
    obtain ⟨_, hy, h⟩ := Except.bind_eq_ok.mp h
    obtain ⟨_, -, h⟩ := Except.bind_eq_ok.mp h
    intro x hx
    rcases List.mem_cons.mp hx with rfl | hx
    · exact Except.mapError_eq_ok.mp hy
    · exact ih h x hx

/-- The transactions of `store_heal_progress`: insertions of inactive rows. -/
theorem via_progress {M : World → List Stmt → Prop} (env : Env) (headers : List BlockHeader)
    (hprogress : ∀ w' chunk, (∀ stmt ∈ chunk, ∃ h work, stmt = .insertHeader none h false work ∧
      checkPow params h = .ok ()) → M w' chunk) (w : World) :
    Prog.Via (Step params M) (storeHealProgress env params headers) w := by
  unfold storeHealProgress
  refine Prog.Via.ofExcept_bind fun _ hpow => ?_
  refine Prog.Via.bind (via_chunks (P := fun _ => True) _ (fun _ _ _ _ => trivial) ?_
    trivial) fun _ s _ => Prog.Via.pure _
  intro chunk hchunk w' _
  refine hprogress w' chunk fun stmt hstmt => ?_
  obtain ⟨h, hh, rfl⟩ := List.mem_map.mp (mem_packStmts hchunk hstmt)
  exact ⟨h, _, rfl, checkProgress_ok hpow h hh⟩

/-- **The moves of `store_heal_progress`.** -/
theorem via_storeHealProgress (env : Env) (params : ChainParams) (headers : List BlockHeader)
    (w : World) : Prog.Via (Step params (Move params)) (storeHealProgress env params headers) w :=
  via_progress env headers (fun _ chunk writes => .progress chunk writes) w

theorem mem_repairs {prevHash : String} {work : Nat} {rows : List HeaderRow} {stmt : Stmt}
    (h : stmt ∈ repairs params prevHash work rows) : ∃ work id, stmt = .setChainWork work id := by
  induction rows generalizing prevHash work with
  | nil => cases h
  | cons row rows ih =>
    unfold repairs at h
    split at h
    · cases h
    · rcases List.mem_append.mp h with h | h
      · split at h
        · exact ⟨_, _, List.mem_singleton.mp h⟩
        · cases h
      · exact ih h

theorem via_repairCumulativeWork (env : Env) (params : ChainParams) (window : Nat) (w : World) :
    Prog.Via (Step params (Move params)) (repairCumulativeWork env params window) w := by
  unfold repairCumulativeWork readRows
  refine Prog.Via.read_bind ?_
  split
  · exact Prog.Via.pure _
  · split
    · refine Prog.Via.bind (via_chunks (P := fun _ => True) _ (fun _ _ _ _ => trivial) ?_
        trivial) fun _ s _ => Prog.Via.pure _
      intro chunk hchunk w' _
      exact .repair chunk fun stmt hstmt => mem_repairs (mem_packStmts hchunk hstmt)
    · exact Prog.Via.pure _

end Bulk

end Chaintracks

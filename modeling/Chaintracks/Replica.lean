import Chaintracks.Bootstrap
import Chaintracks.BatchLive
import Chaintracks.Sweep

/-!
# A replica of a served chain

An operator fills an empty store span by span (`Chaintracks.bulkSync`): a hundred thousand
headers are read from a peer, or from the file host where the peer cannot serve them, and
written as one batch that meets the node's rules.

On an empty store the first span is vouched for by the genesis it starts with; every later one
goes on from the tip. What the store holds then is told by the headers alone
(`Chaintracks.Holds`): they are its rows, all of them active, each with the work of the chain up
to it. So the spans of a chain that another instance serves leave that chain
(`Chaintracks.replica_of_peer`).
-/

namespace Chaintracks

open HeaderRows

/-! ### The spans of a bulk sync -/

/-- `BULK_FILE_HEADERS`. -/
def bulkFileHeaders : Nat := 100000

/-- What the file host has of a span: the first height of its file and the file's bytes. -/
abbrev FileHost := Nat → Except String (Nat × List UInt8)

/-- `download_bulk_file`, on the bytes read: the headers of the file as far as they link. -/
def downloadBulkFile (bsv : BsvRs) (codec : FrameCodec) (bytes : List UInt8) (startHeight : Nat) :
    List BlockHeader :=
  linkedFrames bsv codec startHeight 0 none (Records.chunks 80 bytes)

/-- The parent expected of a span's first header: the hash held right below it. -/
def spanAnchor (rows : List HeaderRow) (spanStart : Nat) : Option String :=
  if spanStart = 0 then none else (headerForHeight rows (spanStart - 1)).map (·.hash)

section Spans

variable (env : Env) (params : ChainParams) (codec : FrameCodec) (peer : Option HeaderPeer)
  (host : FileHost)

/-- `admin_bulk_sync`, under its lease: one span read and written. -/
def bulkSync (span : Nat) : Writer Unit := do
  let spanStart := span * bulkFileHeaders
  if u32Max < spanStart then Prog.fail (.courier "File index out of range")
  else do
    let rows ← readRows
    match bootstrapFromPeer peer spanStart bulkFileHeaders (spanAnchor rows spanStart) with
    | .peer headers => do
      let _ ← bulkWrite env params headers
      pure ()
    | .fileHost _ => do
      let file ← Prog.ofExcept ((host span).mapError .courier)
      let _ ← bulkWrite env params (downloadBulkFile params.bsv codec file.2 file.1)
      pure ()

/-- The spans one after the other. -/
def bulkSyncs (spans : Nat) : Writer Unit :=
  Prog.each (bulkSync env params codec peer host) (List.range spans)

end Spans

/-! ### What the headers tell of the rows -/

/-- Each header of a run with the work of the chain up to it. -/
def worked (params : ChainParams) : Nat → List BlockHeader → List (BlockHeader × Nat)
  | _, [] => []
  | work, header :: headers =>
    (header, work + params.bsv.workFromBits header.bits) ::
      worked params (work + params.bsv.workFromBits header.bits) headers

/-- The work of a run. -/
def runSum (params : ChainParams) (run : List BlockHeader) : Nat :=
  (run.map fun h => params.bsv.workFromBits h.bits).sum

section Told

variable {params : ChainParams} {run more : List BlockHeader} {rows : List HeaderRow}
  {h : BlockHeader} {n work : Nat}

theorem runSum_append : runSum params (run ++ more) = runSum params run + runSum params more := by
  rw [runSum, List.map_append, List.sum_append]
  rfl

/-- **The rows a run leaves, told by their headers and work.** -/
theorem grownSpine_worked (hfits : work + runSum params run < workModulus) :
    (grownSpine params work run rows).map (fun r => (r.toBlockHeader, r.chainWork)) =
      rows.map (fun r => (r.toBlockHeader, r.chainWork)) ++ worked params work run := by
  induction run generalizing work rows with
  | nil => exact (List.append_nil _).symm
  | cons x xs ih =>
    rw [runSum, List.map_cons, List.sum_cons, ← runSum] at hfits
    rw [grownSpine, addWork_of_lt (by omega), ih (by omega), List.map_append, List.append_assoc]
    rfl

/-- A run that goes on grows the rows further. -/
theorem grownSpine_append (hfits : work + runSum params run < workModulus) :
    grownSpine params work (run ++ more) rows =
      grownSpine params (work + runSum params run) more (grownSpine params work run rows) := by
  induction run generalizing work rows with
  | nil => rfl
  | cons x xs ih =>
    rw [runSum, List.map_cons, List.sum_cons, ← runSum] at hfits
    rw [List.cons_append, grownSpine, addWork_of_lt (by omega), ih (by omega), grownSpine,
      addWork_of_lt (by omega), runSum, runSum, List.map_cons, List.sum_cons, Nat.add_assoc]

theorem worked_headers : (worked params work run).map (·.1) = run := by
  induction run generalizing work with
  | nil => rfl
  | cons x xs ih => rw [worked, List.map_cons, ih]

theorem worked_append : worked params work (run ++ more) =
    worked params work run ++ worked params (work + runSum params run) more := by
  induction run generalizing work with
  | nil => rfl
  | cons x xs ih =>
    rw [List.cons_append, worked, ih, worked, runSum, runSum, List.map_cons, List.sum_cons,
      Nat.add_assoc]
    rfl

/-- The last of a run carries the work of the run. -/
theorem worked_last (hnodup : (run ++ [h]).Nodup) (hn : (h, n) ∈ worked params work (run ++ [h])) :
    n = work + runSum params (run ++ [h]) := by
  rw [worked_append] at hn
  rcases List.mem_append.mp hn with hn | hn
  · have hmem : h ∈ run := by
      rw [← @worked_headers params run work]
      exact List.mem_map_of_mem hn
    exact absurd rfl ((List.nodup_append.mp hnodup).2.2 h hmem h List.mem_cons_self)
  · have := (Prod.mk.inj (List.mem_singleton.mp hn)).2
    rw [this, runSum_append, Nat.add_assoc]
    rfl

end Told

/-! ### A chain from its genesis -/

/-- **A run that abides by the rules from the genesis on.** -/
structure FromGenesis (params : ChainParams) (run : List BlockHeader) : Prop where
  genesis : ∀ g ∈ run.head?, g.height = 0 ∧ checkUnlinked params g true = .ok true ∧
    checkPow params g = .ok ()
  abides : AbidesRun params run.head?.toList run.tail
  linked : run.IsChain fun a b => ChildOf b a
  unique : ∀ a ∈ run, ∀ b ∈ run, eqIgnoreAsciiCase a.hash b.hash = true → a = b
  fits : runSum params run < workModulus

/-- **A table holds a run**: its headers are the active chain, and the rows are theirs. -/
structure Holds (params : ChainParams) (t : HeaderTable) (run : List BlockHeader) : Prop where
  active : ActiveChain t run.reverse
  spine : t.rows.map HeaderRow.spine = grownSpine params 0 run []

section Holding

variable {env : Env} {params : ChainParams} {w w₁ : World} {t : HeaderTable}
  {chain line run more : List BlockHeader} {header : BlockHeader}

theorem AbidesRun.rooted (h : AbidesRun params line run) :
    ∀ x ∈ run, x.previousHash ≠ zeroHash := by
  induction run generalizing line with
  | nil => exact List.forall_mem_nil _
  | cons x xs ih => exact List.forall_mem_cons.mpr ⟨h.1.rooted, ih h.2⟩

theorem abidesRun_append : AbidesRun params line (run ++ more) ↔
    AbidesRun params line run ∧ AbidesRun params (run.reverse ++ line) more := by
  induction run generalizing line with
  | nil => exact (and_iff_right trivial).symm
  | cons x xs ih =>
    rw [List.cons_append, AbidesRun, ih, AbidesRun, and_assoc, List.reverse_cons, List.append_assoc]
    rfl

/-- What goes on from a run abides by the rules on it. -/
theorem FromGenesis.abides_more (h : FromGenesis params (run ++ more)) (hne : run ≠ []) :
    AbidesRun params run.reverse more := by
  obtain ⟨first, rest, rfl⟩ := List.exists_cons_of_ne_nil hne
  rw [List.reverse_cons]
  exact (abidesRun_append.mp h.abides).2

theorem FromGenesis.front (h : FromGenesis params (run ++ more)) : FromGenesis params run where
  genesis g hg := h.genesis g (by
    rw [Option.mem_def, List.head?_append, Option.mem_def.mp hg]
    rfl)
  abides := by
    cases run with
    | nil => exact trivial
    | cons x xs => exact (abidesRun_append.mp h.abides).1
  linked := (List.isChain_append.mp h.linked).1
  unique a ha b hb := h.unique a (List.mem_append_left _ ha) b (List.mem_append_left _ hb)
  fits := by
    have := h.fits
    rw [runSum_append] at this
    omega

/-- The rows of a table that holds a run, told. -/
theorem Holds.rows (h : Holds params t run) (hfits : runSum params run < workModulus) :
    t.rows.map (fun r => (r.toBlockHeader, r.chainWork)) = worked params 0 run := by
  have htold := @grownSpine_worked params run [] 0 (by omega)
  rw [← h.spine, List.map_map] at htold
  exact htold

theorem Holds.header_mem (h : Holds params t run) (hfits : runSum params run < workModulus)
    {r : HeaderRow} (hr : r ∈ t.rows) : r.toBlockHeader ∈ run := by
  have hheaders : t.rows.map (·.toBlockHeader) = run := by
    rw [← @worked_headers params run 0, ← h.rows hfits, List.map_map]
    rfl
  rw [← hheaders]
  exact List.mem_map_of_mem hr

/-- **What goes on from the run held is on the tip**, whose work is that of the run. -/
theorem Holds.onTip (h : Holds params t run) (hrules : FromGenesis params (run ++ more))
    (hne : run ≠ []) : OnTip t run.reverse more ∧
      ∃ tip, chainTip t.rows = some tip ∧ tip.chainWork = runSum params run := by
  have hfits : runSum params run < workModulus := by
    have := hrules.fits
    rw [runSum_append] at this
    omega
  have hline : (run ++ more).reverse.IsChain ChildOf := List.isChain_reverse.mpr hrules.linked
  have hnodup : (run ++ more).Nodup := List.nodup_reverse.mp (chain_nodup hline)
  refine ⟨⟨⟨h.active, ?_, fun x hx r hr => ?_, fun a ha b hb => ?_⟩, ?_⟩, ?_⟩
  · rw [← List.reverse_append]
    exact hline
  · -- a stored row is one of the run below
    rw [Bool.eq_false_iff]
    intro hsame
    have hmem := h.header_mem hfits hr
    have heq := hrules.unique r.toBlockHeader (List.mem_append_left _ hmem) x
      (List.mem_append_right _ hx) hsame
    exact (List.nodup_append.mp hnodup).2.2 _ hmem x hx heq
  · exact hrules.unique a (List.mem_append_right _ ha) b (List.mem_append_right _ hb)
  · exact (hrules.abides_more hne).rooted
  · obtain ⟨front, last, rfl⟩ := (List.eq_nil_or_concat' run).resolve_left hne
    have hhead : (front ++ [last]).reverse.head? = some last := by
      rw [List.reverse_append]
      rfl
    obtain ⟨tip, htip, rfl⟩ := h.active.exists_chainTip hhead
    refine ⟨tip, htip, ?_⟩
    have hmem : (tip.toBlockHeader, tip.chainWork) ∈
        worked params 0 (front ++ [tip.toBlockHeader]) := by
      rw [← h.rows hfits]
      exact List.mem_map_of_mem (chainTip_mem htip)
    rw [worked_last (List.nodup_append.mp hnodup).1 hmem, Nat.zero_add]

/-- A table that holds no header is empty, and it is the only one. -/
theorem holds_nil : Holds params t [] ↔ t.rows = [] := by
  constructor
  · rintro ⟨-, hspine⟩
    exact List.map_eq_nil_iff.mp hspine
  · rintro hempty
    refine ⟨⟨.nil, ?_, ?_, ?_⟩, ?_⟩ <;> simp [hempty, grownSpine]

/-! ### One span written -/

/-- Where the rows are those of a chain no height has two active ones. -/
theorem dualActiveHeights_of_spine {u : HeaderTable} (h : ActiveChain t chain)
    (hs : u.rows.map HeaderRow.spine = t.rows.map HeaderRow.spine) :
    dualActiveHeights u.rows = [] := by
  refine List.eq_nil_iff_forall_not_mem.mpr fun height hmem => ?_
  obtain ⟨r, hr, r', hr', hne, ⟨hact, hheight⟩, hact', hheight'⟩ := rivals_of_mem hmem
  have hsame := chain_eq_of_height h.linked ((h.active_of_spine hs hr).mp hact)
    ((h.active_of_spine hs hr').mp hact') (hheight.trans hheight'.symm)
  exact hne (congrArg BlockHeader.hash hsame)

/-- **A bulk write whose batch left a chain** leaves it: the sweep has nothing to settle, and
the tip moves to the chain's head. -/
theorem bulkWrite_of_batch {head : BlockHeader} {n : Nat} (hacc : ∀ n, env.accepts n = true)
    (hbatch : insertHeadersBatch env params run w = (.ok n, w₁)) (h : ActiveChain t chain)
    (hs : w₁.db.rows.map HeaderRow.spine = t.rows.map HeaderRow.spine)
    (hhead : chain.head? = some head) :
    ∃ w', bulkWrite env params run w = (.ok n, w') ∧ ActiveChain w'.db.headers chain ∧
      w'.db.rows.map HeaderRow.spine = t.rows.map HeaderRow.spine := by
  have hsweep : dedupeActiveHeights env w₁ = (.ok 0, w₁) := by
    rw [dedupeActiveHeights, readRows, Prog.read_bind_apply, dualActiveHeights_of_spine h hs]
    rfl
  obtain ⟨top, w', hupdate, hactive, hkept⟩ := updateChainTip_of_spine hacc h hs hhead
  refine ⟨w', ?_, hactive, hkept.trans hs⟩
  rw [bulkWrite, Prog.bind_ok hbatch, Prog.bind_ok hsweep, Prog.bind_ok hupdate]
  rfl

/-- **The plan of a batch on an empty store**: the genesis vouches for itself, and every other
header abides by the rules on the run so far. -/
theorem planBatch_genesis (hreads : ReadsWindow params.pow) (hempty : t.rows = [])
    (h : FromGenesis params (header :: more)) :
    ∃ entries, planBatch params t.rows header (header :: more) =
      .ok (entries, .bulk (packGroups (freshGroups params 0 (header :: more)) [])) := by
  obtain ⟨hzero, hunlinked, hpow⟩ := h.genesis header rfl
  have habides : AbidesRun params [header] more := h.abides
  have hline : (header :: more).reverse.IsChain ChildOf := List.isChain_reverse.mpr h.linked
  have hbelow : ∀ x ∈ more, header.height < x.height := by
    rw [List.reverse_cons] at hline
    exact fun x hx => chain_height_above hline x (List.mem_reverse.mpr hx)
  generalize hlast : ((header :: more).getLast?.map (·.height)).getD header.height = lastHeight
  have hvouched : vouchedThrough params header lastHeight true = .ok 0 := by
    rw [vouchedThrough, if_pos (.inl hzero), hunlinked]
    rfl
  have hground : batchGround params [] header (header :: more) lastHeight = .ok ([], some 0) := by
    change (vouchedThrough params header lastHeight true >>= _) = _
    rw [hvouched]
    rfl
  have hnext : ∀ x, more.head? = some x → x.height = header.height + [header].length :=
    fun x hx => ((List.isChain_cons.mp h.linked).1 x hx).1
  have habove : ∀ x ∈ more, (some 0).any (x.height ≤ ·) = false := by
    intro x hx
    have := hbelow x hx
    rw [Option.any_some, decide_eq_false_iff_not]
    omega
  obtain ⟨entries, hjudged⟩ := (@judgeRun_iff params [] more header hreads [] lastHeight
    (loadedDepth params header (header :: more)) (some 0) (lt_max_of_lt_right Nat.one_pos) [header]
    (by rwa [List.append_nil]) hnext habove
    (fun x hx => (le_batchDepth (List.mem_cons_of_mem _ hx)).trans (le_max_left _ 1)) habides.pow
    habides.rooted).mpr habides
  rw [List.take_nil, List.reverse_nil] at hjudged
  have hcheckpoint := (checkUnlinked_ok hunlinked).checkpoint
  have hfirst : checkInRun params (some 0) [] [] header = .ok (.vouched header) := by
    rw [checkInRun, Option.any_some, hzero, decide_eq_true (Nat.le_refl 0), if_pos rfl, ← hzero,
      hcheckpoint]
    rfl
  refine ⟨.vouched header :: entries, ?_⟩
  rw [hempty, planBatch, checkPowAll_of_forall (List.forall_mem_cons.mpr ⟨hpow, habides.pow⟩),
    checkLinked_of_isChain (h.linked.imp fun _ _ => ChildOf.alike), hlast]
  change (batchGround params [] header (header :: more) lastHeight >>= _) = _
  rw [hground]
  change (judgeRun params [] header lastHeight none (some 0) [] [] (header :: more) >>= _) = _
  rw [judgeRun, checkNotBelow, hfirst]
  change ((judgeRun params [] header lastHeight none (some 0) [] [header] more >>= _) >>= _) = _
  rw [hjudged]
  rfl

theorem grownSpine_held (hfits : runSum params run < workModulus) (h : Holds params t run) :
    grownSpine params (runSum params run) more (t.rows.map HeaderRow.spine) =
      grownSpine params 0 (run ++ more) [] := by
  rw [grownSpine_append (by omega), ← h.spine, Nat.zero_add]

/-- **One span written**: what goes on from the run held is held after it, from the genesis on
as well as from a tip. -/
theorem Holds.bulkWrite (hreads : ReadsWindow params.pow) (hacc : ∀ n, env.accepts n = true)
    (h : Holds params w.db.headers run) (hrules : FromGenesis params (run ++ more))
    (hne : more ≠ []) :
    ∃ n w', bulkWrite env params more w = (.ok n, w') ∧
      Holds params w'.db.headers (run ++ more) := by
  have hfits : runSum params run < workModulus := by
    have := hrules.fits
    rw [runSum_append] at this
    omega
  obtain ⟨first, rest, rfl⟩ := List.exists_cons_of_ne_nil hne
  -- both cases come to a batch that goes on from the run and leaves its rows
  obtain ⟨hgoes, n, w₁, hbatch, hspine⟩ :
      GoesOn w.db.headers run.reverse (first :: rest) ∧
      ∃ n w₁, insertHeadersBatch env params (first :: rest) w = (.ok n, w₁) ∧
        w₁.db.rows.map HeaderRow.spine = grownSpine params 0 (run ++ first :: rest) [] := by
    by_cases hrun : run = []
    · subst hrun
      have hempty := holds_nil.mp h
      have hgoes : GoesOn w.db.headers [] (first :: rest) :=
        { active := h.active
          linked := by
            rw [List.append_nil]
            exact List.isChain_reverse.mpr hrules.linked
          unstored := fun x hx r hr => by
            rw [hempty] at hr
            cases hr
          unique := hrules.unique }
      obtain ⟨entries, hplan⟩ := planBatch_genesis hreads hempty hrules
      obtain ⟨n, w₁, hbatch, hspine⟩ := insertHeadersBatch_of_plan hacc hplan
        (hrules.linked.imp fun _ _ => ChildOf.alike)
        (fun x hx => hgoes.fresh hx) hgoes.distinct
      refine ⟨hgoes, n, w₁, hbatch, ?_⟩
      rw [hspine, Store.rows, hempty]
      rfl
    · obtain ⟨hontip, tip, htip, hwork⟩ := h.onTip hrules hrun
      obtain ⟨n, w₁, hbatch, hspine⟩ :=
        (hontip.insertHeadersBatch_iff hreads hacc htip).2 (hrules.abides_more hrun)
      exact ⟨hontip.toGoesOn, n, w₁, hbatch, by rw [hspine, hwork, grownSpine_held hfits h]⟩
  obtain ⟨t', hactive, hgrown⟩ := hgoes.exists_grown params (runSum params run)
  rw [grownSpine_held hfits h] at hgrown
  obtain ⟨head, hhead⟩ : ∃ head, ((first :: rest).reverse ++ run.reverse).head? = some head :=
    ⟨_, List.head?_eq_some_head (by simp)⟩
  obtain ⟨w', hwrite, hafter, hkept⟩ :=
    bulkWrite_of_batch hacc hbatch hactive (hspine.trans hgrown.symm) hhead
  refine ⟨n, w', hwrite, ?_, hkept.trans hgrown⟩
  rw [List.reverse_append]
  exact hafter

/-- The answer at a height of an active chain is its header there. -/
theorem ActiveChain.hash_at (h : ActiveChain t chain) (hmem : header ∈ chain) :
    (headerForHeight t.rows header.height).map (·.hash) = some header.hash := by
  obtain ⟨r, hr, rfl⟩ := h.stored header hmem
  have hact := (h.active r hr).mpr hmem
  rw [headerForHeight]
  cases htop : topmost (t.rows.filter fun x => x.isActive && x.height == r.height) with
  | none =>
    have hnone := topmost_eq_none.mp htop
    rw [List.filter_eq_nil_iff] at hnone
    exact absurd (by simp [hact]) (hnone r hr)
  | some top =>
    obtain ⟨htopmem, hcond⟩ := List.mem_filter.mp (topmost_mem htop)
    rw [Bool.and_eq_true, beq_iff_eq] at hcond
    have hsame := chain_eq_of_height h.linked ((h.active top htopmem).mp hcond.1) hmem hcond.2
    exact congrArg (fun x : BlockHeader => some x.hash) hsame

end Holding

/-! ### The spans of a chain served -/

/-- `BULK_FILE_BASE`. -/
def bulkFileBase : String := "https://cdn.projectbabbage.com/blockheaders"

/-- What a bulk sync finds of a bucket that the pinned file host serves: the file listed at the
span's place in the index, from its first height on. Only that file is read. -/
def Bucket.fileHost (bucket : Bucket) (chain : String) : FileHost := fun span =>
  match bucket (indexFileName chain) with
  | some (.index index) =>
    match index.files[span]? with
    | some entry =>
      match bucket entry.fileName with
      | some (.file bytes) => .ok (entry.firstHeight, bytes)
      | _ => .error ("CDN HTTP 404 for " ++ bulkFileBase ++ "/" ++ entry.fileName)
    | none =>
      .error ("File index " ++ toString span ++ " out of range (0-" ++
        toString (index.files.length - 1) ++ ")")
  | _ => .error "CDN index HTTP 404"

/-- A file that the whole listing has at a place is found there. -/
theorem Bucket.fileHost_of_listed {bucket : Bucket} {chain : String}
    {files : List (BulkFileEntry × List UInt8)} {span : Nat} {file : BulkFileEntry × List UInt8}
    (h : bucket.listed chain = some files) (hfile : files[span]? = some file) :
    bucket.fileHost chain span = .ok (file.1.firstHeight, file.2) := by
  rw [Bucket.listed] at h
  split at h
  · rename_i index hindex
    obtain ⟨entry, hentry, hread⟩ := getElem?_of_mapM h hfile
    split at hread
    · rename_i hbytes
      cases hread
      simp only [Bucket.fileHost, hindex, hentry, hbytes]
    · cases hread
  · cases h

/-- **Spans that come as they are served**: on a store that holds the chain below a span, the
bulk sync of the span writes the chain's headers in it. -/
def SpansServed (env : Env) (params : ChainParams) (codec : FrameCodec) (peer : Option HeaderPeer)
    (host : FileHost) (c : Nat → HeaderRow) (last : Nat) : Prop :=
  ∀ span start w, span * bulkFileHeaders = start → start ≤ last →
    Holds params w.db.headers (servedRun params.bsv codec c 0 start) →
    bulkSync env params codec peer host span w =
      (bulkWrite env params (servedRun params.bsv codec c start
        (min bulkFileHeaders (last + 1 - start))) >>= fun _ => pure ()) w

section Replicas

variable {env : Env} {params : ChainParams} {codec : FrameCodec} {t : HeaderTable}
  {ceiling : Ceiling} {c : Nat → HeaderRow} {last span : Nat} {peer : Option HeaderPeer}
  {host : FileHost} {w : World} {chain cdnBaseUrl : String} {fails : String → Option String}
  {bucket bucket' : Bucket} {result : ExportResult}

theorem bulkSync_of_peer {headers : List BlockHeader} {start : Nat}
    (hstart : span * bulkFileHeaders = start) (hin : start ≤ u32Max)
    (hpeer : bootstrapFromPeer peer start bulkFileHeaders (spanAnchor w.db.rows start) =
      .peer headers) :
    bulkSync env params codec peer host span w =
      (bulkWrite env params headers >>= fun _ => pure ()) w := by
  subst hstart
  rw [bulkSync, if_neg (Nat.not_lt.mpr hin), readRows, Prog.read_bind_apply]
  simp only [hpeer]

theorem bulkSync_of_host {file : Nat × List UInt8} (hin : span * bulkFileHeaders ≤ u32Max)
    (hhost : host span = .ok file) :
    bulkSync env params codec none host span w =
      (bulkWrite env params (downloadBulkFile params.bsv codec file.2 file.1) >>= fun _ =>
        pure ()) w := by
  rw [bulkSync, if_neg (Nat.not_lt.mpr hin), readRows, Prog.read_bind_apply]
  simp only [bootstrapFromPeer, hhost]
  rfl

/-- The spans of a peer that serves a chain: the header held below a span is the one the chain's
next header names. -/
theorem ServedChain.spansServed (h : ServedChain params.bsv codec t.rows ceiling c last) :
    SpansServed env params codec (some (upstreamPeer params.bsv codec
      (getHeadersRoute codec t.rows ceiling))) host c last := by
  rintro span start w hstart hle hheld
  have hpos : 0 < bulkFileHeaders := by decide
  have hbounded := h.bounded
  have hanchor : (spanAnchor w.db.rows start).all
      (eqIgnoreAsciiCase (codec.prevId (c start).wire)) = true := by
    rw [spanAnchor]
    split
    · rfl
    · rename_i hnonzero
      obtain ⟨below, rfl⟩ := Nat.exists_eq_succ_of_ne_zero hnonzero
      have hmem : frameHeader params.bsv codec (c below) ∈
          (servedRun params.bsv codec c 0 (below + 1)).reverse :=
        List.mem_reverse.mpr (List.mem_map.mpr ⟨below, by simp, rfl⟩)
      have hhash := hheld.active.hash_at hmem
      have hheight : (frameHeader params.bsv codec (c below)).height = below :=
        h.height below (by omega)
      rw [hheight] at hhash
      rw [Nat.succ_sub_one, Store.rows, hhash]
      exact h.names below (by omega)
  have hpeer := bootstrap_served h start bulkFileHeaders (spanAnchor w.db.rows start) (by omega)
  rw [if_pos ⟨hanchor, by omega⟩] at hpeer
  exact bulkSync_of_peer hstart (by omega) hpeer

/-- The rows of a file of a chain served. -/
theorem ServedChain.fileRows_eq (h : ServedChain params.bsv codec t.rows .all c last) (i : Nat) :
    fileRows t.rows i = (List.range' (i * headersPerFile)
      (min headersPerFile (last + 1 - i * headersPerFile))).map c := by
  rw [← @ServedChain.servedRows_eq _ _ _ _ _ _ (i * headersPerFile) headersPerFile h]
  refine congrArg (List.insertionSort _) (List.filter_congr fun r hr => ?_)
  -- no active row stands past the largest height
  cases hact : r.isActive with
  | false => rfl
  | true =>
    have hheight := (h.only r hr hact rfl).1
    have hbounded := h.bounded
    rw [Bool.true_and, Bool.true_and, rangeEnd, saturatingAdd, Ceiling.clip, Bool.eq_iff_iff,
      Bool.and_eq_true, Bool.and_eq_true, decide_eq_true_eq, decide_eq_true_eq, decide_eq_true_eq]
    omega

/-- **An exported file is read back whole.** -/
theorem ServedChain.downloadBulkFile_eq (h : ServedChain params.bsv codec t.rows .all c last)
    (i : Nat) : downloadBulkFile params.bsv codec (rowBytes codec (fileRows t.rows i))
        (i * headersPerFile) =
      servedRun params.bsv codec c (i * headersPerFile)
        (min headersPerFile (last + 1 - i * headersPerFile)) := by
  rw [downloadBulkFile, chunks_rowBytes, h.fileRows_eq]
  generalize i * headersPerFile = start
  generalize hcount : min headersPerFile (last + 1 - start) = count
  refine (linkedFrames_eq ?_ ?_ fun p hp => by cases hp).trans (List.map_map ..)
  · rw [List.length_map, List.length_range', List.map_map]
    conv_rhs => rw [← List.map_id (List.range' (start + 0) count)]
    refine List.map_congr_left fun k hk => ?_
    rw [List.mem_range'_1] at hk
    exact h.height k (by omega)
  · rw [List.map_map]
    exact (@ServedChain.runFrom _ _ _ _ _ _ _ _ none h (by omega)
      (fun _ p hp => by cases hp)).linked

/-- The index of an exported chain lists each of its files at its place. -/
theorem ServedChain.fileHost_eq (h : ServedChain params.bsv codec t.rows .all c last)
    (hexport : exportAll params.bsv codec chain cdnBaseUrl fails t.rows bucket =
      (.ok result, bucket')) (htip : chainTip t.rows = some (c last))
    (hspan : span * headersPerFile ≤ last) :
    bucket'.fileHost chain span =
      .ok (span * headersPerFile, rowBytes codec (fileRows t.rows span)) := by
  have hnum : numFiles t.rows = last / headersPerFile + 1 := by
    rw [numFiles, htip]
    exact congrArg (fun height => height / headersPerFile + 1) (h.height last (Nat.le_refl _))
  have hfull : listedFiles t.rows (List.range (numFiles t.rows)) =
      List.range (numFiles t.rows) := by
    refine List.filter_eq_self.mpr fun i hi => ?_
    have hle : i * headersPerFile ≤ last := by
      rw [List.mem_range, hnum, Nat.lt_succ_iff] at hi
      exact (Nat.le_div_iff_mul_le headersPerFile_pos).mp hi
    have hpos := headersPerFile_pos
    rw [decide_eq_true_eq, h.fileRows_eq, ne_eq, List.map_eq_nil_iff, List.range'_eq_nil_iff]
    omega
  have hin : span < numFiles t.rows := by
    rw [hnum, Nat.lt_succ_iff]
    exact (Nat.le_div_iff_mul_le headersPerFile_pos).mpr hspan
  have hlisted := (exportAll_ok hexport).2
  rw [hfull] at hlisted
  have hfile : ((List.range (numFiles t.rows)).map
      (publishedFile codec chain cdnBaseUrl t.rows))[span]? =
        some (publishedFile codec chain cdnBaseUrl t.rows span) := by
    rw [List.getElem?_map, List.getElem?_range hin]
    rfl
  exact Bucket.fileHost_of_listed hlisted hfile

/-- The spans of the files that an export of a chain wrote. -/
theorem ServedChain.spansServed_files (h : ServedChain params.bsv codec t.rows .all c last)
    (hexport : exportAll params.bsv codec chain cdnBaseUrl fails t.rows bucket =
      (.ok result, bucket')) (htip : chainTip t.rows = some (c last)) :
    SpansServed env params codec none (bucket'.fileHost chain) c last := by
  rintro span start w rfl hle -
  have hbounded := h.bounded
  have hhost := h.fileHost_eq hexport htip hle
  rw [bulkSync_of_host (by omega) hhost]
  dsimp only
  rw [h.downloadBulkFile_eq span]
  rfl

/-- **The spans of a chain leave it**, whichever source they come from. -/
theorem SpansServed.bulkSyncs_eq (hspans : SpansServed env params codec peer host c last)
    (hreads : ReadsWindow params.pow) (hacc : ∀ n, env.accepts n = true)
    (hrules : FromGenesis params (servedRun params.bsv codec c 0 (last + 1))) {spans : Nat}
    (hle : (span + spans) * bulkFileHeaders ≤ last + bulkFileHeaders)
    (hheld : Holds params w.db.headers
      (servedRun params.bsv codec c 0 (min (span * bulkFileHeaders) (last + 1)))) :
    ∃ w', Prog.each (bulkSync env params codec peer host) (List.range' span spans) w =
        (.ok (), w') ∧
      Holds params w'.db.headers (servedRun params.bsv codec c 0
        (min ((span + spans) * bulkFileHeaders) (last + 1))) := by
  induction spans generalizing span w with
  | zero => exact ⟨w, rfl, hheld⟩
  | succ spans ih =>
    have hpos : 0 < bulkFileHeaders := by decide
    have hnext : (span + 1) * bulkFileHeaders ≤ last + bulkFileHeaders :=
      (Nat.mul_le_mul_right _ (by omega)).trans hle
    have hsucc : (span + 1) * bulkFileHeaders = span * bulkFileHeaders + bulkFileHeaders :=
      Nat.succ_mul ..
    rw [show span + (spans + 1) = span + 1 + spans by omega] at hle ⊢
    generalize hstart : span * bulkFileHeaders = start at hsucc hheld
    rw [min_eq_left (by omega)] at hheld
    have hsync := hspans span start w hstart (by omega) hheld
    generalize hcount : min bulkFileHeaders (last + 1 - start) = count at hsync
    have hgoes : servedRun params.bsv codec c 0 start ++ servedRun params.bsv codec c start count =
        servedRun params.bsv codec c 0 (start + count) := by
      have happend := @servedRun_append params.bsv codec c 0 start count
      rwa [Nat.zero_add] at happend
    have hcut : FromGenesis params
        (servedRun params.bsv codec c 0 start ++ servedRun params.bsv codec c start count) := by
      rw [hgoes]
      refine @FromGenesis.front _ _
        (servedRun params.bsv codec c (start + count) (last + 1 - (start + count))) ?_
      have happend := @servedRun_append params.bsv codec c 0 (start + count)
        (last + 1 - (start + count))
      rw [Nat.zero_add, Nat.add_sub_cancel' (by omega)] at happend
      rwa [happend]
    obtain ⟨n, w₁, hwrite, hheld₁⟩ := hheld.bulkWrite hreads hacc hcut (by
      rw [← List.length_pos_iff, length_servedRun]
      omega)
    rw [hgoes, show start + count = min ((span + 1) * bulkFileHeaders) (last + 1) by omega]
      at hheld₁
    obtain ⟨w', heach, hheld'⟩ := ih hle hheld₁
    refine ⟨w', ?_, hheld'⟩
    have hone : bulkSync env params codec peer host span w = (.ok (), w₁) := by
      rw [hsync, Prog.bind_ok hwrite]
      rfl
    rw [List.range'_succ, Prog.each_cons, Prog.bind_ok hone]
    exact heach

/-- The spans of a chain on an empty store leave the chain. -/
theorem SpansServed.replica (hspans : SpansServed env params codec peer host c last)
    (hreads : ReadsWindow params.pow) (hacc : ∀ n, env.accepts n = true)
    (hrules : FromGenesis params (servedRun params.bsv codec c 0 (last + 1)))
    (hempty : w.db.rows = []) :
    ∃ w', bulkSyncs env params codec peer host (last / bulkFileHeaders + 1) w = (.ok (), w') ∧
      ActiveChain w'.db.headers (servedRun params.bsv codec c 0 (last + 1)).reverse ∧
      w'.db.rows.map (fun r => (r.toBlockHeader, r.chainWork)) =
        worked params 0 (servedRun params.bsv codec c 0 (last + 1)) := by
  have hpos : 0 < bulkFileHeaders := by decide
  have hdiv := Nat.div_mul_le_self last bulkFileHeaders
  have hlast : last < (last / bulkFileHeaders + 1) * bulkFileHeaders := by
    rw [Nat.succ_mul]
    exact Nat.lt_div_mul_add hpos
  have hheld : Holds params w.db.headers
      (servedRun params.bsv codec c 0 (min (0 * bulkFileHeaders) (last + 1))) := by
    rw [Nat.zero_mul, Nat.zero_min]
    exact holds_nil.mpr hempty
  obtain ⟨w', heach, hafter⟩ := @SpansServed.bulkSyncs_eq env params codec c last 0 peer host w
    hspans hreads hacc hrules (last / bulkFileHeaders + 1) (by
      rw [Nat.zero_add, Nat.succ_mul]
      omega) hheld
  rw [Nat.zero_add, min_eq_right (by omega)] at hafter
  refine ⟨w', ?_, hafter.active, hafter.rows hrules.fits⟩
  rw [bulkSyncs, List.range_eq_range']
  exact heach

/-- **A bulk sync replicates a served chain.** Where an instance serves a chain that abides by
the rules from its genesis on, the spans of a bulk sync on an empty store each answer, and leave
just that chain: its headers are the rows, in their order and all of them active, each with the
work of the chain up to it, and the flag stands on the last. -/
theorem replica_of_peer (h : ServedChain params.bsv codec t.rows ceiling c last)
    (hreads : ReadsWindow params.pow) (hacc : ∀ n, env.accepts n = true)
    (hrules : FromGenesis params (servedRun params.bsv codec c 0 (last + 1)))
    (hempty : w.db.rows = []) :
    ∃ w', bulkSyncs env params codec
        (some (upstreamPeer params.bsv codec (getHeadersRoute codec t.rows ceiling))) host
          (last / bulkFileHeaders + 1) w = (.ok (), w') ∧
      ActiveChain w'.db.headers (servedRun params.bsv codec c 0 (last + 1)).reverse ∧
      w'.db.rows.map (fun r => (r.toBlockHeader, r.chainWork)) =
        worked params 0 (servedRun params.bsv codec c 0 (last + 1)) :=
  SpansServed.replica h.spansServed hreads hacc hrules hempty

/-- **A bulk sync reads an export back.** Where an export of a chain that abides by the rules
answers, a bulk sync from the files it wrote leaves the chain on an empty store: its headers are
the rows, in their order and all of them active, each with the work of the chain up to it, and
the flag stands on the last. -/
theorem replica_of_export (h : ServedChain params.bsv codec t.rows .all c last)
    (htip : chainTip t.rows = some (c last))
    (hexport : exportAll params.bsv codec chain cdnBaseUrl fails t.rows bucket =
      (.ok result, bucket'))
    (hreads : ReadsWindow params.pow) (hacc : ∀ n, env.accepts n = true)
    (hrules : FromGenesis params (servedRun params.bsv codec c 0 (last + 1)))
    (hempty : w.db.rows = []) :
    ∃ w', bulkSyncs env params codec none (bucket'.fileHost chain) (last / bulkFileHeaders + 1) w =
        (.ok (), w') ∧
      ActiveChain w'.db.headers (servedRun params.bsv codec c 0 (last + 1)).reverse ∧
      w'.db.rows.map (fun r => (r.toBlockHeader, r.chainWork)) =
        worked params 0 (servedRun params.bsv codec c 0 (last + 1)) :=
  SpansServed.replica (h.spansServed_files hexport htip) hreads hacc hrules hempty

end Replicas

namespace Regtest

/-- A table of three blocks. -/
def threeBlocks : HeaderTable where
  rows := [workRow genesis 1 2 true false, workRow a1 2 4 true false, workRow a2 3 6 true true]
  uniqueHash := by
    change ([genesis, a1, a2].map (·.hash)).Nodup
    decide +kernel
  uniqueId := by
    change [1, 2, 3].Nodup
    decide +kernel

/-- The row of a height. -/
def threeRow (height : Nat) : HeaderRow :=
  threeBlocks.rows.getD height (workRow genesis 1 2 true false)

theorem servedChain_threeBlocks :
    ServedChain params.bsv frameCodec threeBlocks.rows .all threeRow 2 where
  mem := by decide +kernel
  height := by decide +kernel
  active := by decide +kernel
  only := by decide +kernel
  admits _ _ := rfl
  names := by
    have hnames : ∀ h < 2, eqIgnoreAsciiCase (frameCodec.prevId (threeRow (h + 1)).wire)
        (params.bsv.id (threeRow h).wire) = true := by
      decide +kernel
    exact hnames
  bounded := by decide
  clipped v hv := by cases hv

theorem servedRun_threeBlocks :
    servedRun params.bsv frameCodec threeRow 0 (2 + 1) = [genesis, a1, a2] := by
  decide +kernel

theorem fromGenesis_threeBlocks : FromGenesis params [genesis, a1, a2] where
  genesis := by decide +kernel
  abides := by
    refine ⟨⟨?_, ?_, ?_⟩, ⟨?_, ?_, ?_⟩, trivial⟩ <;> decide +kernel
  linked := .cons_cons ⟨rfl, rfl⟩ (.cons_cons ⟨rfl, rfl⟩ (.singleton _))
  unique := by decide +kernel
  fits := by decide +kernel

end Regtest

open Regtest in
/-- `Chaintracks.replica_of_peer` over the three blocks. -/
theorem replica_of_peer_blocks : ∃ w',
    bulkSyncs host params frameCodec (some (upstreamPeer params.bsv frameCodec
      (getHeadersRoute frameCodec threeBlocks.rows .all))) (fun _ => .error "no such file")
        (2 / bulkFileHeaders + 1) .init = (.ok (), w') ∧
      ActiveChain w'.db.headers [a2, a1, genesis] ∧
      w'.db.rows.map (fun r => (r.toBlockHeader, r.chainWork)) =
        [(genesis, 2), (a1, 4), (a2, 6)] := by
  have hworked : worked params 0 [genesis, a1, a2] = [(genesis, 2), (a1, 4), (a2, 6)] := by
    decide +kernel
  have hrules : FromGenesis params (servedRun params.bsv frameCodec threeRow 0 (2 + 1)) := by
    rw [servedRun_threeBlocks]
    exact fromGenesis_threeBlocks
  have hreplica := @replica_of_peer host params frameCodec threeBlocks .all threeRow 2
    (fun _ => .error "no such file") .init servedChain_threeBlocks readsWindow (fun _ => rfl)
    hrules rfl
  rw [servedRun_threeBlocks, hworked] at hreplica
  exact hreplica

open Regtest in
/-- `Chaintracks.replica_of_export` over the three blocks. -/
theorem replica_of_export_blocks : ∃ result bucket' w',
    exportAll bsv frameCodec "test" "https://cdn" (fun _ => none) threeBlocks.rows (fun _ => none) =
      (.ok result, bucket') ∧
    bulkSyncs host params frameCodec none (bucket'.fileHost "test") (2 / bulkFileHeaders + 1)
      .init = (.ok (), w') ∧
    ActiveChain w'.db.headers [a2, a1, genesis] ∧
    w'.db.rows.map (fun r => (r.toBlockHeader, r.chainWork)) =
      [(genesis, 2), (a1, 4), (a2, 6)] := by
  have hworked : worked params 0 [genesis, a1, a2] = [(genesis, 2), (a1, 4), (a2, 6)] := by
    decide +kernel
  have hrules : FromGenesis params (servedRun params.bsv frameCodec threeRow 0 (2 + 1)) := by
    rw [servedRun_threeBlocks]
    exact fromGenesis_threeBlocks
  have hnum : numFiles threeBlocks.rows = 1 := by decide +kernel
  have hguards : ∀ i < numFiles threeBlocks.rows, fileRows threeBlocks.rows i ≠ [] →
      fileGuards params.bsv frameCodec threeBlocks.rows i
        (rowBytes frameCodec (fileRows threeBlocks.rows i)) = .ok () := by
    rw [hnum]
    decide +kernel
  obtain ⟨result, bucket', hexport⟩ :=
    @exportAll_of_guards _ _ "test" "https://cdn" _ hguards fun _ => none
  have hreplica := @replica_of_export host params frameCodec threeBlocks threeRow 2 .init "test"
    "https://cdn" (fun _ => none) (fun _ => none) bucket' result servedChain_threeBlocks rfl hexport
    readsWindow (fun _ => rfl) hrules rfl
  rw [servedRun_threeBlocks, hworked] at hreplica
  obtain ⟨w', hsyncs⟩ := hreplica
  exact ⟨result, bucket', w', hexport, hsyncs⟩

end Chaintracks

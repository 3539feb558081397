import Chaintracks.LiveGrowth
import Chaintracks.Judgment
import Chaintracks.WindowReads
import Chaintracks.WorkRepair

/-!
# The batch beside the live path

A run of headers that goes on from the flagged tip may be handed to `insert_headers_batch`
whole, or to `insert_header` one by one. The two read different windows – the batch loads one
for the whole run and grows it in memory, the live path loads one for each header – and they
write different statements: the batch moves no tip and links no row.

On a run whose headers each name the one before it as it is spelled, both accept exactly where
each header abides by the rules on the headers below it (`Chaintracks.AbidesRun`): a window
deeper than the rule asks for answers as the one it asks for
(`Chaintracks.ReadsWindow.checkContext_take`). And both leave the rows
`Chaintracks.grownSpine` tells, a row being compared without its link and its flag; the flag
stands on the highest active row in the end. So the two paths agree
(`Chaintracks.OnTip.pathsAgree`).
-/

namespace Chaintracks

open HeaderRows

/-! ### A run that abides by the rules -/

/-- Each header of a run abides by the rules on the line below it, tip first, the run so far
on top of it. -/
def AbidesRun (params : ChainParams) : List BlockHeader → List BlockHeader → Prop
  | _, [] => True
  | line, header :: headers => Abides params line header ∧ AbidesRun params (header :: line) headers

/-- **What meets its target proves work**: bits a hash was checked against stand for some. -/
def ProvesWork (params : ChainParams) : Prop :=
  ∀ hash bits, params.bsv.checkProofOfWork hash bits params.pow.powLimit = .ok () →
    0 < params.bsv.workFromBits bits

theorem ProvesWork.of_checkPow {params : ChainParams} (hwork : ProvesWork params)
    {header : BlockHeader} (h : checkPow params header = .ok ()) :
    0 < params.bsv.workFromBits header.bits := by
  obtain ⟨u, hbits, -⟩ := Except.bind_eq_ok.mp h
  exact hwork _ _ (Except.mapError_eq_ok.mp hbits)

/-- The depth the rule reads below a header. -/
def readDepth (params : ChainParams) (header : BlockHeader) : Nat :=
  max (params.pow.windowDepth (header.height - 1)) 1

/-- The window of the topmost headers of a line. -/
def lineWindow (params : ChainParams) (line : List BlockHeader) (depth : Nat) : Window :=
  Window.new params.bsv ((line.take depth).reverse.map (·.link))

section Windows

variable {params : ChainParams} {line : List BlockHeader} {header : BlockHeader} {depth : Nat}

/-- The heights along a line, ascending. -/
theorem links_isChain (hl : line.IsChain ChildOf) :
    (line.reverse.map (·.link)).IsChain fun a b : Link => b.height = a.height + 1 := by
  rw [List.isChain_map, List.isChain_reverse]
  exact hl.imp fun a b hab => hab.1

/-- **A window deeper than the rule reads is as good as that one**, and where the line ends
before, both are the line. -/
theorem ReadsWindow.checkContext_take (hreads : ReadsWindow params.pow)
    (hl : (header :: line).IsChain ChildOf) (hdepth : readDepth params header ≤ depth) :
    checkContext params (lineWindow params line depth) header =
      checkContext params (lineWindow params line (readDepth params header)) header := by
  have hline := (List.isChain_cons.mp hl).2
  by_cases hlong : line.length ≤ readDepth params header
  · rw [lineWindow, lineWindow, List.take_of_length_le hlong,
      List.take_of_length_le (hlong.trans hdepth)]
  · have hsplit : (line.take depth).reverse.map (·.link) =
        ((line.take depth).drop (readDepth params header)).reverse.map (·.link) ++
          (line.take (readDepth params header)).reverse.map (·.link) := by
      rw [← List.map_append, ← List.reverse_append]
      conv_lhs => rw [← List.take_append_drop (readDepth params header) (line.take depth)]
      rw [List.take_take, Nat.min_eq_left hdepth]
    rw [lineWindow, lineWindow, hsplit]
    refine hreads.checkContext_append ?_ fun h hlo hhi => ?_
    · rw [← hsplit]
      exact links_isChain (hline.take depth)
    · change header.height - 1 + 1 - readDepth params header ≤ h at hlo
      -- the line goes on below the depth, so it has a header at each height of the window
      obtain ⟨top, htop⟩ : ∃ top, line.head? = some top := by
        cases line with
        | nil => exact absurd (Nat.zero_le _) hlong
        | cons x xs => exact ⟨x, rfl⟩
      have hheight : header.height = top.height + 1 := ((List.isChain_cons.mp hl).1 top htop).1
      have hpos : 0 < readDepth params header := lt_max_of_lt_right Nat.one_pos
      obtain ⟨last, htaken⟩ :
          ∃ last, (line.take (readDepth params header)).getLast? = some last :=
        ⟨_, List.getLast?_eq_some_getLast (List.ne_nil_of_length_pos (by
          rw [List.length_take]
          omega))⟩
      obtain ⟨front, hfront⟩ := List.getLast?_eq_some_iff.mp htaken
      have hhead : (front ++ [last]).head? = some top := by
        rw [← hfront, List.head?_take, if_neg (by omega), htop]
      have hlength := congrArg List.length hfront
      rw [List.length_take, List.length_append, List.length_singleton] at hlength
      have hspan := chain_head_height (hfront ▸ hline.take _) hhead
      obtain ⟨x, hx, hxh⟩ := chain_exists_height (hline.take (readDepth params header))
        (by rw [hfront]; exact hhead) htaken
        (show last.height ≤ h by omega) (show h ≤ top.height by omega)
      exact ⟨x.link, List.mem_map_of_mem (List.mem_reverse.mpr hx), hxh⟩

end Windows

/-! ### Rows without their links and flags -/

/-- A row without the id of its parent's row. -/
def HeaderRow.unlinked (r : HeaderRow) : HeaderRow :=
  { r with toRowCells := { r.toRowCells with previousHeaderId := none } }

/-- A row without its link and without the tip's flag. -/
def HeaderRow.spine (r : HeaderRow) : HeaderRow :=
  { r with toRowCells := { r.toRowCells with previousHeaderId := none, isChainTip := false } }

/-- A row with the flag where its hash is the tip's. -/
def HeaderRow.flagged (hash : String) (r : HeaderRow) : HeaderRow :=
  { r with toRowCells := { r.toRowCells with isChainTip := r.hash == hash } }

/-- The rows a run leaves on rows without links and flags: each of its headers active, with
its work on that of the one before. -/
def grownSpine (params : ChainParams) : Nat → List BlockHeader → List HeaderRow → List HeaderRow
  | _, [], rows => rows
  | work, header :: headers, rows =>
    grownSpine params (addWork work (params.bsv.workFromBits header.bits)) headers
      (rows ++ [⟨header, ⟨none, true, false, addWork work (params.bsv.workFromBits header.bits)⟩,
        nextId rows⟩])

section Spines

variable {t u : HeaderTable} {chain : List BlockHeader} {header : BlockHeader} {hash : String}

theorem nextId_spine (rows : List HeaderRow) :
    nextId (rows.map HeaderRow.spine) = nextId rows := by
  rw [nextId, nextId, List.map_map]
  rfl

/-- An update that sets neither activity nor work leaves the spines as they are. -/
theorem spine_update (cond : HeaderRow → Bool) (set : HeaderRow → RowCells)
    (hset : ∀ r ∈ t.rows, cond r = true →
      (set r).isActive = r.isActive ∧ (set r).chainWork = r.chainWork) :
    (t.update cond set).rows.map HeaderRow.spine = t.rows.map HeaderRow.spine := by
  rw [HeaderTable.update, List.map_map]
  refine List.map_congr_left fun r hr => ?_
  rw [Function.comp_apply]
  split
  · rename_i hc
    obtain ⟨hact, hwork⟩ := hset r hr hc
    rw [HeaderRow.spine, HeaderRow.spine]
    dsimp only
    rw [hact, hwork]
  · rfl

theorem spine_insert (hfresh : headerForHash t.rows header.hash = none) (prev : Option Nat)
    (work : Nat) : (t.insert header ⟨prev, true, false, work⟩).rows.map HeaderRow.spine =
      t.rows.map HeaderRow.spine ++
        [⟨header, ⟨none, true, false, work⟩, nextId (t.rows.map HeaderRow.spine)⟩] := by
  rw [HeaderTable.insert_rows (headerForHash_eq_none.mp hfresh), List.map_append, nextId_spine]
  rfl

theorem spine_flagTip (t : HeaderTable) (hash : String) :
    (onHeadersAll (flagTipTxn hash) t).rows.map HeaderRow.spine = t.rows.map HeaderRow.spine := by
  change ((t.update (·.isChainTip) fun r => { r.toRowCells with isChainTip := false }).update
    (·.hash == hash) fun r => { r.toRowCells with isChainTip := true }).rows.map _ = _
  refine (spine_update _ _ ?_).trans (spine_update _ _ ?_)
  · exact fun _ _ _ => ⟨rfl, rfl⟩
  · exact fun _ _ _ => ⟨rfl, rfl⟩

/-- The tip's move to a row that is active changes no spine. -/
theorem spine_moveTip (hact : ∀ r ∈ t.rows, r.hash = hash → r.isActive = true) :
    (onHeadersAll (moveTipTxn hash) t).rows.map HeaderRow.spine = t.rows.map HeaderRow.spine := by
  change ((t.update (·.isChainTip) fun r => { r.toRowCells with isChainTip := false }).update
    (·.hash == hash)
    fun r => { r.toRowCells with isChainTip := true, isActive := true }).rows.map _ = _
  refine (spine_update _ _ ?_).trans (spine_update _ _ fun _ _ => ?_)
  swap
  · exact fun _ => ⟨rfl, rfl⟩
  refine fun r hr hh => ⟨?_, rfl⟩
  obtain ⟨r₀, hr₀, he, -, hc⟩ := HeaderTable.of_mem_update hr
  have hhash : r₀.hash = hash :=
    (congrArg BlockHeader.hash he).symm.trans (beq_iff_eq.mp hh)
  have hkept : r.isActive = r₀.isActive := by
    rw [hc]
    split <;> rfl
  rw [hkept, hact r₀ hr₀ hhash]

/-- The flag stands on the row of the hash alone. -/
theorem flagTip_row {r : HeaderRow} (hr : r ∈ (onHeadersAll (flagTipTxn hash) t).rows) :
    r.isChainTip = (r.hash == hash) := by
  obtain ⟨r₁, hr₁, he₁, -, hc₁⟩ := HeaderTable.of_mem_update hr
  obtain ⟨r₀, hr₀, he₀, -, hc₀⟩ := HeaderTable.of_mem_update hr₁
  rw [show r.hash = r₁.hash from congrArg BlockHeader.hash he₁, hc₁]
  cases hh : r₁.hash == hash with
  | true => rfl
  | false =>
    change r₁.isChainTip = false
    rw [hc₀]
    cases hflag : r₀.isChainTip with
    | true => rfl
    | false => exact hflag

/-- Rows with one spine are active together. -/
theorem ActiveChain.active_of_spine (h : ActiveChain t chain)
    (hs : u.rows.map HeaderRow.spine = t.rows.map HeaderRow.spine) {r : HeaderRow}
    (hr : r ∈ u.rows) : r.isActive = true ↔ r.toBlockHeader ∈ chain := by
  obtain ⟨r', hr', he⟩ := List.mem_map.mp (hs ▸ List.mem_map_of_mem hr)
  have hact : r'.spine.isActive = r.spine.isActive := congrArg (fun s => s.isActive) he
  have hheader : r'.spine.toBlockHeader = r.spine.toBlockHeader :=
    congrArg (fun s => s.toBlockHeader) he
  change r.spine.isActive = true ↔ r.spine.toBlockHeader ∈ chain
  rw [← hact, ← hheader]
  exact h.active r' hr'

/-- **Spines and the flag's hash tell the rows** but for their links. -/
theorem unlinked_of_spine (hflag : ∀ r ∈ t.rows, r.isChainTip = (r.hash == hash)) :
    t.rows.map HeaderRow.unlinked =
      (t.rows.map HeaderRow.spine).map (HeaderRow.flagged hash) := by
  rw [List.map_map]
  refine List.map_congr_left fun r hr => ?_
  change (⟨r.toBlockHeader, ⟨none, r.isActive, r.isChainTip, r.chainWork⟩, r.headerId⟩ :
    HeaderRow) = ⟨r.toBlockHeader, ⟨none, r.isActive, r.hash == hash, r.chainWork⟩, r.headerId⟩
  rw [hflag r hr]

end Spines

/-! ### A run on the tip -/

/-- **A run that goes on** from an active chain: each header names the one before it, the first
the chain's head, and none of them is stored, in whatever case its hash is written. A hash names
one header of the run. -/
structure GoesOn (t : HeaderTable) (chain run : List BlockHeader) : Prop where
  active : ActiveChain t chain
  linked : (run.reverse ++ chain).IsChain ChildOf
  unstored : ∀ h ∈ run, ∀ r ∈ t.rows, eqIgnoreAsciiCase r.hash h.hash = false
  unique : ∀ a ∈ run, ∀ b ∈ run, eqIgnoreAsciiCase a.hash b.hash = true → a = b

/-- **A run on the tip**: it goes on from the active chain, and each of its headers names a
parent. -/
structure OnTip (t : HeaderTable) (chain run : List BlockHeader) : Prop extends
    GoesOn t chain run where
  rooted : ∀ h ∈ run, h.previousHash ≠ zeroHash

/-- One header stands on another in whatever letters: one height up, naming its hash up to
case. -/
def AlikeChildOf (child parent : BlockHeader) : Prop :=
  child.height = parent.height + 1 ∧ eqIgnoreAsciiCase child.previousHash parent.hash = true

theorem ChildOf.alike {a b : BlockHeader} (h : ChildOf a b) : AlikeChildOf a b := by
  refine ⟨h.1, ?_⟩
  rw [h.2]
  exact eqIgnoreAsciiCase_self _

/-- **A run on the tip in whatever letters**: as `Chaintracks.OnTip` has it, but that each
header names the one before it up to case, as `insert_headers_batch` takes a run for linked. -/
structure AlikeOnTip (t : HeaderTable) (chain run : List BlockHeader) : Prop where
  active : ActiveChain t chain
  linked : (run.reverse ++ chain).IsChain AlikeChildOf
  unstored : ∀ h ∈ run, ∀ r ∈ t.rows, eqIgnoreAsciiCase r.hash h.hash = false
  unique : ∀ a ∈ run, ∀ b ∈ run, eqIgnoreAsciiCase a.hash b.hash = true → a = b
  rooted : ∀ h ∈ run, h.previousHash ≠ zeroHash

theorem OnTip.alike {t : HeaderTable} {chain run : List BlockHeader} (h : OnTip t chain run) :
    AlikeOnTip t chain run :=
  ⟨h.active, h.linked.imp fun _ _ => ChildOf.alike, h.unstored, h.unique, h.rooted⟩

/-- A table with a header on top: its row inserted active, and the tip moved to it. -/
def HeaderTable.crowned (t : HeaderTable) (header : BlockHeader) (prev : Option Nat) (work : Nat) :
    HeaderTable :=
  onHeadersAll (moveTipTxn header.hash) (t.insert header ⟨prev, true, false, work⟩)

section Growth

variable {params : ChainParams} {t : HeaderTable} {chain run headers : List BlockHeader}
  {header : BlockHeader} {tip : HeaderRow} {prev : Option Nat} {work : Nat}

/-- None of the run's headers is found by its hash. -/
theorem GoesOn.fresh (h : GoesOn t chain run) (hmem : header ∈ run) :
    headerForHash t.rows header.hash = none := by
  refine headerForHash_eq_none.mpr fun r hr hh => ?_
  have hno := h.unstored header hmem r hr
  rw [hh, eqIgnoreAsciiCase_self] at hno
  cases hno

theorem GoesOn.distinct (h : GoesOn t chain run) : (run.map (·.hash)).Nodup := by
  have hnodup : run.Nodup := List.nodup_reverse.mp (List.nodup_append.mp (chain_nodup h.linked)).1
  refine hnodup.map_on fun a ha b hb hab => h.unique a ha b hb ?_
  rw [hab]
  exact eqIgnoreAsciiCase_self _

theorem GoesOn.child (h : GoesOn t chain (header :: headers)) (htip : chainTip t.rows = some tip) :
    ChildOf header tip.toBlockHeader ∧ ∃ below, chain = tip.toBlockHeader :: below := by
  have hhead := h.active.chainTip_eq htip
  cases chain with
  | nil => cases hhead
  | cons x below =>
    obtain rfl : x = tip.toBlockHeader := Option.some_inj.mp hhead
    have hlinked := h.linked
    rw [List.reverse_cons, List.append_assoc, List.singleton_append] at hlinked
    exact ⟨(List.isChain_append.mp hlinked).2.1.rel, below, rfl⟩

theorem mem_crowned {row : HeaderRow} (hrow : row ∈ (t.crowned header prev work).rows) :
    (∃ r ∈ t.rows, row.toBlockHeader = r.toBlockHeader) ∨
      row.toBlockHeader = header ∧ row.chainWork = work := by
  obtain ⟨r, hr, he, -, hc⟩ := moveTip_row hrow
  rcases HeaderTable.mem_insert hr with hr | ⟨rfl, -⟩
  · exact .inl ⟨r, hr, he⟩
  · exact .inr ⟨he, by rw [hc]; rfl⟩

theorem GoesOn.spine_crowned (h : GoesOn t chain (header :: headers)) (prev : Option Nat)
    (work : Nat) : (t.crowned header prev work).rows.map HeaderRow.spine =
      t.rows.map HeaderRow.spine ++
        [⟨header, ⟨none, true, false, work⟩, nextId (t.rows.map HeaderRow.spine)⟩] := by
  have hfresh := h.fresh List.mem_cons_self
  rw [HeaderTable.crowned, spine_moveTip, spine_insert hfresh]
  intro r hr hh
  rcases HeaderTable.mem_insert hr with hr | ⟨rfl, -⟩
  · exact absurd hh (headerForHash_eq_none.mp hfresh r hr)
  · rfl

/-- The rest of a run stands on its first header. -/
theorem GoesOn.next (h : GoesOn t chain (header :: headers)) (prev : Option Nat) (work : Nat) :
    GoesOn (t.crowned header prev work) (header :: chain) headers := by
  have hlinked := h.linked
  rw [List.reverse_cons, List.append_assoc, List.singleton_append] at hlinked
  have happart : header ∉ headers := by
    have hnodup := chain_nodup h.linked
    rw [List.reverse_cons, List.append_assoc, List.singleton_append] at hnodup
    exact fun hmem => (List.nodup_append.mp hnodup).2.2 header (List.mem_reverse.mpr hmem) header
      List.mem_cons_self rfl
  refine
    { active := h.active.extend (h.fresh List.mem_cons_self)
        (List.isChain_append.mp hlinked).2.1 prev work
      linked := hlinked
      unstored := fun x hx r hr => ?_
      unique := fun a ha b hb =>
        h.unique a (List.mem_cons_of_mem _ ha) b (List.mem_cons_of_mem _ hb) }
  rcases mem_crowned hr with ⟨r₀, hr₀, he⟩ | ⟨he, -⟩
  · rw [congrArg BlockHeader.hash he]
    exact h.unstored x (List.mem_cons_of_mem _ hx) r₀ hr₀
  · rw [congrArg BlockHeader.hash he, Bool.eq_false_iff]
    intro hsame
    obtain rfl := h.unique header List.mem_cons_self x (List.mem_cons_of_mem _ hx) hsame
    exact happart hx

/-- The new tip is the header, with its work. -/
theorem GoesOn.chainTip_crowned (h : GoesOn t chain (header :: headers)) (prev : Option Nat)
    (work : Nat) : ∃ tip', chainTip (t.crowned header prev work).rows = some tip' ∧
      tip'.toBlockHeader = header ∧ tip'.chainWork = work := by
  obtain ⟨tip', htip', hheader⟩ := (h.next prev work).active.exists_chainTip rfl
  refine ⟨tip', htip', hheader, ?_⟩
  rcases mem_crowned (chainTip_mem htip') with ⟨r, hr, he⟩ | ⟨-, hwork⟩
  · refine absurd ?_ (headerForHash_eq_none.mp (h.fresh List.mem_cons_self) r hr)
    rw [← congrArg BlockHeader.hash he, hheader]
  · exact hwork

/-- **What a run leaves**, in one table: its headers on the chain, and the rows told. -/
theorem GoesOn.exists_grown (h : GoesOn t chain run) (params : ChainParams) (n : Nat) :
    ∃ t' : HeaderTable, ActiveChain t' (run.reverse ++ chain) ∧
      t'.rows.map HeaderRow.spine = grownSpine params n run (t.rows.map HeaderRow.spine) := by
  induction run generalizing t chain n with
  | nil => exact ⟨t, h.active, rfl⟩
  | cons header headers ih =>
    obtain ⟨t', hactive, hspine⟩ := ih
      (h.next none (addWork n (params.bsv.workFromBits header.bits)))
      (addWork n (params.bsv.workFromBits header.bits))
    refine ⟨t', ?_, ?_⟩
    · rw [List.reverse_cons, List.append_assoc]
      exact hactive
    · rw [hspine, h.spine_crowned]
      rfl

end Growth

/-! ### The live path on a run -/

section LivePath

variable {env : Env} {params : ChainParams} {w : World} {t : HeaderTable}
  {chain run headers : List BlockHeader} {header : BlockHeader} {tip : HeaderRow}

/-- The ancestry a header on the tip is judged against is the chain's. -/
theorem OnTip.contextOf_eq (h : OnTip t chain (header :: headers))
    (htip : chainTip t.rows = some tip) :
    contextOf params t.rows tip = lineWindow params chain (readDepth params header) := by
  obtain ⟨hchild, below, rfl⟩ := h.child htip
  have hheight : header.height = tip.height + 1 := hchild.1
  have hload := h.active.loadChain_eq (chainTip_mem htip) (List.nil_append _).symm
    (params.pow.windowDepth tip.height)
  rw [lineWindow, readDepth, hheight, Nat.add_sub_cancel, ← hload, List.map_map]
  rfl

/-- **A header on the tip**: it is let in where it abides by the rules, and then it is the
tip. -/
theorem OnTip.admission_eq (h : OnTip t chain (header :: headers))
    (htip : chainTip t.rows = some tip) (habides : Abides params chain header) :
    admission params t.rows header =
      .ok ⟨some tip, addWork tip.chainWork (params.bsv.workFromBits header.bits), some tip,
        true⟩ := by
  obtain ⟨hchild, below, rfl⟩ := h.child htip
  have hheight : header.height = tip.height + 1 := hchild.1
  have hcontext : checkContext params (contextOf params t.rows tip) header = .ok () := by
    rw [h.contextOf_eq htip]
    exact habides.context
  have hprevious : previousOf t.rows header = some tip := by
    rw [previousOf, if_pos habides.rooted, hchild.2]
    exact headerForHash_eq_some t.uniqueHash (chainTip_mem htip)
  have hext : checkExtends "insert_header" header tip = .ok () := if_pos hchild.1
  have hfork : checkForkPriorToCheckpoint params t.rows header (some tip) = .ok () := by
    rw [checkForkPriorToCheckpoint, storedCheckpointAbove_of_tip_lt (by omega)]
    rfl
  have hanch : checkAnchored params t.rows header (some tip) (some tip) = .ok true := by
    rw [checkAnchored, hcontext]
    rfl
  rw [admission, hprevious, htip]
  change (do checkExtends "insert_header" header tip; _ : Except Fault Admission) = _
  rw [hext]
  change (do checkForkPriorToCheckpoint params t.rows header (some tip); _ :
    Except Fault Admission) = _
  rw [hfork]
  change (do let anchored ← checkAnchored params t.rows header (some tip) (some tip); _ :
    Except Fault Admission) = _
  rw [hanch]
  rfl

theorem OnTip.insertHeader_eq (h : OnTip w.db.headers chain (header :: headers))
    (hacc : ∀ n, env.accepts n = true) (htip : chainTip w.db.rows = some tip)
    (hmore : tip.chainWork < addWork tip.chainWork (params.bsv.workFromBits header.bits))
    (habides : Abides params chain header) :
    ∃ result w', insertHeader env params header w = (.ok result, w') ∧
      w'.db.headers = w.db.headers.crowned header (some tip.headerId)
        (addWork tip.chainWork (params.bsv.workFromBits header.bits)) := by
  have hadm := h.admission_eq htip habides
  obtain ⟨hchild, -⟩ := h.child htip
  generalize addWork tip.chainWork (params.bsv.workFromBits header.bits) = work at hadm hmore ⊢
  obtain ⟨w₁, hheaders, -, hrun⟩ := insertHeader_entered habides.pow
    (h.fresh List.mem_cons_self) hadm (hacc _)
  generalize ha : (⟨some tip, work, some tip, true⟩ : Admission) = a at hadm hheaders hrun
  have htakes : a.becomesTip = true := by
    rw [← ha]
    exact decide_eq_true hmore
  have hact : a.isActive header = true := by
    rw [Admission.isActive, htakes, Bool.true_and, ← ha]
    exact beq_iff_eq.mpr hchild.2
  refine ⟨{ a.result header with reorgDepth := 0 }, w₁, ?_, ?_⟩
  · rw [hrun, letIn, if_pos htakes, hact, settleTip_of_extends hact]
    rfl
  · rw [hheaders, Admission.txn, if_pos hact, Admission.insertion, hact, ← ha]
    rfl

/-- A header that `insert_header` does not refuse abides by the rules. -/
theorem OnTip.abides_of_answers (h : OnTip w.db.headers chain (header :: headers))
    (htip : chainTip w.db.rows = some tip)
    (hanswers : Prog.Answers (insertHeader env params header) w) : Abides params chain header := by
  obtain ⟨result, w', hok⟩ := hanswers
  have hrooted := h.rooted header List.mem_cons_self
  have hfresh := h.fresh List.mem_cons_self
  cases hpow : checkPow params header with
  | error rule =>
    rw [insertHeader, hpow] at hok
    cases hok
  | ok u =>
    refine ⟨hpow, hrooted, ?_⟩
    cases hadm : admission params w.db.rows header with
    | error fault =>
      obtain ⟨e, w'', herr, -⟩ := insertHeader_kept_out env hpow hfresh
        (by rw [enters, hadm]; rfl)
      rw [herr] at hok
      cases hok
    | ok a =>
      have hprevious : previousOf w.db.rows header = some tip := by
        rw [previousOf, if_pos hrooted, (h.child htip).1.2]
        exact headerForHash_eq_some w.db.headers.uniqueHash (chainTip_mem htip)
      have hcontext := ((admission_ok hadm).onParent tip hprevious).2.1
      rw [h.contextOf_eq htip] at hcontext
      exact hcontext

/-- **The live path on a run**: it takes the run exactly where each header of it abides by the
rules, and leaves the rows told. -/
theorem OnTip.insertEach_iff (hacc : ∀ n, env.accepts n = true)
    (hwork : ProvesWork params)
    (h : OnTip w.db.headers chain run) (htip : chainTip w.db.rows = some tip)
    (hfits : tip.chainWork + (run.map fun x => params.bsv.workFromBits x.bits).sum < workModulus) :
    (Prog.Answers (insertEach env params run) w → AbidesRun params chain run) ∧
      (AbidesRun params chain run → ∃ n w', insertEach env params run w = (.ok n, w') ∧
        ActiveChain w'.db.headers (run.reverse ++ chain) ∧
        w'.db.rows.map HeaderRow.spine =
          grownSpine params tip.chainWork run (w.db.rows.map HeaderRow.spine)) := by
  induction run generalizing w chain tip with
  | nil => exact ⟨fun _ => trivial, fun _ => ⟨0, w, rfl, h.active, rfl⟩⟩
  | cons header headers ih =>
    rw [List.map_cons, List.sum_cons] at hfits
    have hsum : addWork tip.chainWork (params.bsv.workFromBits header.bits) =
        tip.chainWork + params.bsv.workFromBits header.bits := addWork_of_lt (by omega)
    -- what the first header leaves, where it abides by the rules
    have hfirst : Abides params chain header →
        ∃ result w₁, insertHeader env params header w = (.ok result, w₁) ∧
          w₁.db.headers = w.db.headers.crowned header (some tip.headerId)
            (addWork tip.chainWork (params.bsv.workFromBits header.bits)) := by
      intro habides
      have := hwork.of_checkPow habides.pow
      exact h.insertHeader_eq hacc htip (by omega) habides
    have hrest : ∀ w₁ : World, w₁.db.headers = w.db.headers.crowned header (some tip.headerId)
          (addWork tip.chainWork (params.bsv.workFromBits header.bits)) →
        (Prog.Answers (insertEach env params headers) w₁ →
          AbidesRun params (header :: chain) headers) ∧
        (AbidesRun params (header :: chain) headers →
          ∃ n w', insertEach env params headers w₁ = (.ok n, w') ∧
            ActiveChain w'.db.headers (headers.reverse ++ header :: chain) ∧
            w'.db.rows.map HeaderRow.spine = grownSpine params
              (addWork tip.chainWork (params.bsv.workFromBits header.bits)) headers
                (w₁.db.rows.map HeaderRow.spine)) := by
      intro w₁ hw₁
      obtain ⟨tip', htip', -, hwork'⟩ := h.chainTip_crowned (some tip.headerId)
        (addWork tip.chainWork (params.bsv.workFromBits header.bits))
      have hnext : OnTip (w.db.headers.crowned header (some tip.headerId)
          (addWork tip.chainWork (params.bsv.workFromBits header.bits)))
            (header :: chain) headers :=
        ⟨h.next .., fun x hx => h.rooted x (List.mem_cons_of_mem _ hx)⟩
      rw [← hw₁] at htip' hnext
      rw [← hwork']
      exact ih hnext htip' (by rw [hwork', hsum]; omega)
    constructor
    · intro hanswers
      obtain ⟨result, w₁, hinsert, hafter⟩ := Prog.answers_bind.mp hanswers
      have habides := h.abides_of_answers htip ⟨result, w₁, hinsert⟩
      obtain ⟨result', w₁', hinsert', hheaders⟩ := hfirst habides
      obtain rfl : w₁ = w₁' := (Prod.mk.inj (hinsert.symm.trans hinsert')).2
      obtain ⟨added, w', heach, -⟩ := Prog.answers_bind.mp hafter
      exact ⟨habides, (hrest w₁ hheaders).1 ⟨added, w', heach⟩⟩
    · rintro ⟨habides, habidesRest⟩
      obtain ⟨result, w₁, hinsert, hheaders⟩ := hfirst habides
      obtain ⟨n, w', heach, hactive, hspine⟩ := (hrest w₁ hheaders).2 habidesRest
      refine ⟨n + if result.added then 1 else 0, w', ?_, ?_, ?_⟩
      · rw [insertEach, Prog.bind_ok hinsert, Prog.bind_ok heach]
        rfl
      · rw [List.reverse_cons, List.append_assoc]
        exact hactive
      · rw [hspine, grownSpine, Store.rows, hheaders, h.spine_crowned]

end LivePath

/-! ### The batch on a run -/

/-- How deep the batch reads below a run. -/
def loadedDepth (params : ChainParams) (first : BlockHeader) (run : List BlockHeader) : Nat :=
  max (batchDepth params first run) 1

/-- The groups of statements of a run none of whose headers is stored. -/
def freshGroups (params : ChainParams) (work : Nat) (run : List BlockHeader) : List (List Stmt) :=
  (runWork params work none run).map fun x => [.insertHeader none x.1 true x.2]

section BatchPath

variable {env : Env} {params : ChainParams} {w : World} {t : HeaderTable}
  {chain run rest headers : List BlockHeader} {first header : BlockHeader} {tip : HeaderRow}

theorem AbidesRun.pow {line : List BlockHeader} (h : AbidesRun params line run) :
    ∀ x ∈ run, checkPow params x = .ok () := by
  induction run generalizing line with
  | nil => exact List.forall_mem_nil _
  | cons x xs ih => exact List.forall_mem_cons.mpr ⟨h.1.pow, ih h.2⟩

theorem checkPowAll_of_forall (h : ∀ x ∈ run, checkPow params x = .ok ()) :
    checkPowAll params run = .ok () := by
  induction run with
  | nil => rfl
  | cons x xs ih =>
    obtain ⟨hx, hxs⟩ := List.forall_mem_cons.mp h
    rw [checkPowAll, hx]
    exact ih hxs

theorem checkLinked_of_isChain (h : run.IsChain fun a b => AlikeChildOf b a) :
    checkLinked run = .ok () := by
  induction run using checkLinked.induct with
  | case1 a b headers hbroken =>
    obtain ⟨hheight, hprev⟩ := h.rel
    rcases hbroken with hbroken | hbroken
    · exact absurd hheight hbroken
    · rw [hprev] at hbroken
      cases hbroken
  | case2 a b headers hlinked ih =>
    rw [checkLinked, if_neg hlinked]
    exact ih (List.isChain_cons.mp h).2
  | case3 headers hshort => exact checkLinked.eq_2 headers hshort

/-- A header of a run is read as deep as the rule asks. -/
theorem le_batchDepth (hmem : header ∈ run) :
    params.pow.windowDepth (header.height - 1) - (header.height - first.height) ≤
      batchDepth params first run := by
  unfold batchDepth
  induction run with
  | nil => cases hmem
  | cons x xs ih =>
    rcases List.mem_cons.mp hmem with rfl | hmem
    · exact le_max_left _ _
    · exact (ih hmem).trans (le_max_right _ _)

/-- **The rules on a run, as the batch reads them**: it goes through exactly where each header
passes against the chain and the run so far. -/
theorem judgeRun_iff (hreads : ReadsWindow params.pow) {rows : List HeaderRow}
    {lastHeight depth : Nat} {vouched : Option Nat} (hpos : 0 < depth) (done : List BlockHeader)
    (hl : ((done ++ headers).reverse ++ chain).IsChain ChildOf)
    (hheight : ∀ x, headers.head? = some x → x.height = first.height + done.length)
    (hvouched : ∀ x ∈ headers, vouched.any (x.height ≤ ·) = false)
    (hdepth : ∀ x ∈ headers,
      params.pow.windowDepth (x.height - 1) - (x.height - first.height) ≤ depth)
    (hpow : ∀ x ∈ headers, checkPow params x = .ok ())
    (hrooted : ∀ x ∈ headers, x.previousHash ≠ zeroHash) :
    (∃ entries, judgeRun params rows first lastHeight none vouched (chain.take depth).reverse done
      headers = .ok entries) ↔ AbidesRun params (done.reverse ++ chain) headers := by
  induction headers generalizing done with
  | nil => exact ⟨fun _ => trivial, fun _ => ⟨[], rfl⟩⟩
  | cons header headers ih =>
    obtain ⟨hvouchedFirst, hvouchedRest⟩ := List.forall_mem_cons.mp hvouched
    obtain ⟨hdepthFirst, hdepthRest⟩ := List.forall_mem_cons.mp hdepth
    obtain ⟨hpowFirst, hpowRest⟩ := List.forall_mem_cons.mp hpow
    obtain ⟨hrootedFirst, hrootedRest⟩ := List.forall_mem_cons.mp hrooted
    have hat := hheight header rfl
    have hsplit : (done ++ header :: headers).reverse ++ chain =
        headers.reverse ++ header :: (done.reverse ++ chain) := by simp
    have hline : (header :: (done.reverse ++ chain)).IsChain ChildOf := by
      rw [hsplit] at hl
      exact (List.isChain_append.mp hl).2.1
    -- the window grown so far is the line's, deep enough for the rule
    have hgrown : (chain.take depth).reverse ++ done =
        ((done.reverse ++ chain).take (done.length + depth)).reverse := by
      rw [← List.length_reverse, List.take_length_add_append, List.reverse_append,
        List.reverse_reverse]
    have hwindow : checkContext params
        (Window.new params.bsv (((chain.take depth).reverse ++ done).map (·.link))) header =
        checkContext params (lineWindow params (done.reverse ++ chain) (readDepth params header))
          header := by
      rw [hgrown]
      refine hreads.checkContext_take hline ?_
      unfold readDepth
      omega
    have hrest := ih (done ++ [header]) (by rwa [List.append_assoc, List.singleton_append])
      (fun x hx => by
        rw [List.length_append, List.length_singleton]
        cases headers with
        | nil => cases hx
        | cons y ys =>
          obtain rfl : y = x := Option.some_inj.mp hx
          rw [hsplit, List.reverse_cons, List.append_assoc] at hl
          have hchild : ChildOf y header := ((List.isChain_append.mp hl).2.1).rel
          rw [hchild.1, hat]
          omega) hvouchedRest hdepthRest hpowRest hrootedRest
    rw [List.reverse_append, List.reverse_singleton, List.singleton_append,
      List.cons_append] at hrest
    rw [AbidesRun, ← hrest, judgeRun, checkNotBelow, checkInRun, hvouchedFirst, hwindow]
    constructor
    · rintro ⟨entries, hjudged⟩
      obtain ⟨-, -, hjudged⟩ := Except.bind_eq_ok.mp hjudged
      obtain ⟨entry, hentry, hjudged⟩ := Except.bind_eq_ok.mp hjudged
      obtain ⟨later, hlater, -⟩ := Except.bind_eq_ok.mp hjudged
      obtain ⟨u, hcontext, -⟩ := Except.bind_eq_ok.mp hentry
      exact ⟨⟨hpowFirst, hrootedFirst, Except.mapError_eq_ok.mp hcontext⟩, later, hlater⟩
    · rintro ⟨habides, later, hlater⟩
      have hcontext : checkContext params
          (lineWindow params (done.reverse ++ chain) (readDepth params header)) header = .ok () :=
        habides.context
      rw [hcontext]
      exact ⟨.passed (chain.take depth).reverse done header :: later, Except.bind_eq_ok.mpr
        ⟨(), rfl, Except.bind_eq_ok.mpr ⟨_, rfl, Except.bind_eq_ok.mpr ⟨later, hlater, rfl⟩⟩⟩⟩

/-- Along a run on the tip each header is the next one's parent. -/
theorem GoesOn.ascending (h : GoesOn t chain run) : run.IsChain fun a b => ChildOf b a :=
  List.isChain_reverse.mp (List.isChain_append.mp h.linked).1

/-- What is stored inactive beside a run is none of its headers. -/
theorem headerStmts_fresh {storedInactive : List (List UInt8)} {work : Nat}
    (h : toAsciiLowercase header.hash ∉ storedInactive) :
    headerStmts storedInactive header work = [.insertHeader none header true work] := by
  rw [headerStmts, if_neg h, List.nil_append]

theorem mem_of_mem_runWork {work : Nat} {prev : Option String} {x : BlockHeader × Nat}
    (h : x ∈ runWork params work prev run) : x.1 ∈ run := by
  induction run generalizing work prev with
  | nil => cases h
  | cons y ys ih =>
    rcases List.mem_cons.mp h with rfl | h
    · exact List.mem_cons_self
    · exact List.mem_cons_of_mem _ (ih h)

/-- Along a run on the tip each header is the next one's parent, up to case. -/
theorem AlikeOnTip.ascending (h : AlikeOnTip t chain run) :
    run.IsChain fun a b => AlikeChildOf b a :=
  List.isChain_reverse.mp (List.isChain_append.mp h.linked).1

theorem AlikeOnTip.chain_eq (h : AlikeOnTip t chain run) (htip : chainTip t.rows = some tip) :
    ∃ below, chain = tip.toBlockHeader :: below := by
  have hhead := h.active.chainTip_eq htip
  cases chain with
  | nil => cases hhead
  | cons x below => exact ⟨below, congrArg (· :: below) (Option.some_inj.mp hhead)⟩

theorem AlikeOnTip.height_eq (h : AlikeOnTip t chain (first :: rest))
    (htip : chainTip t.rows = some tip) : first.height = tip.height + 1 := by
  obtain ⟨below, rfl⟩ := h.chain_eq htip
  have hlinked := h.linked
  rw [List.reverse_cons, List.append_assoc, List.singleton_append] at hlinked
  exact (List.isChain_append.mp hlinked).2.1.rel.1

/-- **The plan of a batch on the tip**, whose first header names the tip as it is spelled: the
rules on each header of it, and what passes is written in bulk. -/
theorem AlikeOnTip.planBatch_eq (h : AlikeOnTip t chain (first :: rest))
    (htip : chainTip t.rows = some tip) (hfirst : first.previousHash = tip.hash) :
    planBatch params t.rows first (first :: rest) = (do
      checkPowAll params (first :: rest)
      let entries ← judgeRun params t.rows first
        (((first :: rest).getLast?.map (·.height)).getD first.height) none none
        (chain.take (loadedDepth params first (first :: rest))).reverse [] (first :: rest)
      pure (entries,
        .bulk (packGroups (freshGroups params tip.chainWork (first :: rest)) []))) := by
  have hheight := h.height_eq htip
  obtain ⟨below, rfl⟩ := h.chain_eq htip
  have hactive : tip.isActive = true :=
    (h.active.active tip (chainTip_mem htip)).mpr List.mem_cons_self
  have hparent : headerForHash t.rows first.previousHash = some tip := by
    rw [hfirst]
    exact headerForHash_eq_some t.uniqueHash (chainTip_mem htip)
  have hbelow : storedCheckpointAbove t.rows params first.height (chainTip t.rows) = none := by
    rw [htip]
    exact storedCheckpointAbove_of_tip_lt (by omega)
  have hlinked : checkLinked (first :: rest) = .ok () := checkLinked_of_isChain h.ascending
  have hstored : (loadChain t.rows tip (batchDepth params first (first :: rest))).map
      (·.toBlockHeader) =
      ((tip.toBlockHeader :: below).take (loadedDepth params first (first :: rest))).reverse :=
    h.active.loadChain_eq (chainTip_mem htip) (List.nil_append _).symm _
  have hground (lastHeight : Nat) : batchGround params t.rows first (first :: rest) lastHeight =
      .ok (((tip.toBlockHeader :: below).take (loadedDepth params first (first :: rest))).reverse,
        none) := by
    rw [batchGround, hparent]
    dsimp only
    rw [checkExtends, if_pos hheight, hstored]
    rfl
  have hlive : ((headerForHash t.rows first.previousHash).any (fun p => !p.isActive) ||
      (chainTip t.rows).any fun u => decide (first.height ≤ u.height)) = false := by
    rw [hparent, htip]
    simp [hactive, hheight]
  have hgroups (lastHeight : Nat) : ((runWork params
      (((headerForHash t.rows first.previousHash).map (·.chainWork)).getD 0) none
        (first :: rest)).map fun x => headerStmts ((inactiveHashesBetween t.rows first.height
          lastHeight).map toAsciiLowercase) x.1 x.2) =
      freshGroups params tip.chainWork (first :: rest) := by
    rw [hparent]
    refine List.map_congr_left fun x hx => headerStmts_fresh fun hmem => ?_
    obtain ⟨hash, hhash, he⟩ := List.mem_map.mp hmem
    obtain ⟨r, hr, rfl⟩ := List.mem_map.mp hhash
    have hno := h.unstored x.1 (mem_of_mem_runWork hx) r (List.mem_of_mem_filter hr)
    rw [eqIgnoreAsciiCase, he, beq_self_eq_true] at hno
    cases hno
  rw [planBatch, hlinked]
  refine congrArg (checkPowAll params (first :: rest) >>= ·) (funext fun _ => ?_)
  change (batchGround params t.rows first (first :: rest) _ >>= _) = _
  rw [hground, hbelow]
  change (judgeRun params t.rows first _ none none _ [] (first :: rest) >>= _) = _
  refine congrArg (judgeRun params t.rows first _ none none _ [] (first :: rest) >>= ·)
    (funext fun entries => ?_)
  change Except.ok (entries, if (_ && _) = true then BatchPlan.live else _) = _
  rw [hlive, hgroups]
  rfl

/-- What passes the rules passes them as far as any header of it. -/
theorem judgeRun_of_append {rows : List HeaderRow} {lastHeight : Nat} {below vouched : Option Nat}
    {stored done front : List BlockHeader} {entries : List Entry}
    (h : judgeRun params rows first lastHeight below vouched stored done (front ++ rest) =
      .ok entries) :
    ∃ entries, judgeRun params rows first lastHeight below vouched stored done front =
      .ok entries := by
  induction front generalizing done entries with
  | nil => exact ⟨[], rfl⟩
  | cons header headers ih =>
    rw [List.cons_append, judgeRun] at h
    obtain ⟨u, hbelow, h⟩ := Except.bind_eq_ok.mp h
    obtain ⟨entry, hentry, h⟩ := Except.bind_eq_ok.mp h
    obtain ⟨later, hlater, -⟩ := Except.bind_eq_ok.mp h
    obtain ⟨later', hlater'⟩ := ih hlater
    exact ⟨entry :: later', Except.bind_eq_ok.mpr ⟨u, hbelow, Except.bind_eq_ok.mpr
      ⟨entry, hentry, Except.bind_eq_ok.mpr ⟨later', hlater', rfl⟩⟩⟩⟩

/-- **The rules of a batch on the tip** are those of each header on its line, as far as the
run is spelled like it. -/
theorem OnTip.judged_iff (hreads : ReadsWindow params.pow) {front : List BlockHeader}
    (h : OnTip t chain (first :: front)) {lastHeight : Nat}
    (hpow : ∀ x ∈ first :: front, checkPow params x = .ok ()) :
    (∃ entries, judgeRun params t.rows first lastHeight none none
      (chain.take (loadedDepth params first (first :: front ++ rest))).reverse []
      (first :: front) = .ok entries) ↔ AbidesRun params chain (first :: front) :=
  judgeRun_iff hreads (lt_max_of_lt_right Nat.one_pos) [] h.linked
    (fun x hx => by rw [← Option.some_inj.mp hx]; rfl) (fun _ _ => rfl)
    (fun x hx => (le_batchDepth (List.mem_append_left _ hx)).trans (le_max_left _ 1)) hpow h.rooted

/-- The headers of a planned run abide by the rules, as far as it is spelled like its line. -/
theorem OnTip.abides_of_plan (hreads : ReadsWindow params.pow) {front : List BlockHeader}
    (h : OnTip t chain (first :: front)) (htip : chainTip t.rows = some tip)
    (halike : AlikeOnTip t chain (first :: front ++ rest)) {judged : List Entry × BatchPlan}
    (hplan : planBatch params t.rows first (first :: front ++ rest) = .ok judged) :
    AbidesRun params chain (first :: front) := by
  rw [List.cons_append] at halike hplan
  rw [halike.planBatch_eq htip (h.child htip).1.2] at hplan
  obtain ⟨u, hpow, hplan⟩ := Except.bind_eq_ok.mp hplan
  obtain ⟨entries, hjudged, -⟩ := Except.bind_eq_ok.mp hplan
  rw [← List.cons_append] at hpow hjudged
  exact (h.judged_iff hreads fun x hx => checkPowAll_ok hpow x (List.mem_append_left _ hx)).mp
    (judgeRun_of_append hjudged)

/-- A run on the tip that abides by the rules is written in bulk. -/
theorem OnTip.planBatch_of_abides (hreads : ReadsWindow params.pow)
    (h : OnTip t chain (first :: rest)) (htip : chainTip t.rows = some tip)
    (habides : AbidesRun params chain (first :: rest)) :
    ∃ entries, planBatch params t.rows first (first :: rest) = .ok (entries,
      .bulk (packGroups (freshGroups params tip.chainWork (first :: rest)) [])) := by
  have hjudged : ∃ entries, judgeRun params t.rows first
      (((first :: rest).getLast?.map (·.height)).getD first.height) none none
      (chain.take (loadedDepth params first (first :: rest ++ []))).reverse [] (first :: rest) =
        .ok entries := (h.judged_iff hreads habides.pow).mpr habides
  rw [List.append_nil] at hjudged
  obtain ⟨entries, hjudged⟩ := hjudged
  refine ⟨entries, ?_⟩
  rw [h.alike.planBatch_eq htip (h.child htip).1.2, checkPowAll_of_forall habides.pow]
  change (judgeRun params t.rows first _ none none _ [] (first :: rest) >>= _) = _
  rw [hjudged]
  rfl

/-- The statements of a run, on the table. -/
theorem spine_freshGroups (work : Nat) (prev : Option String)
    (hprev : ∀ p ∈ prev, ∀ x ∈ run.head?, eqIgnoreAsciiCase x.previousHash p = true)
    (hlinked : run.IsChain fun a b => AlikeChildOf b a)
    (hunstored : ∀ x ∈ run, headerForHash t.rows x.hash = none)
    (hdistinct : (run.map (·.hash)).Nodup) :
    (onHeadersAll ((runWork params work prev run).map fun x => Stmt.insertHeader none x.1 true x.2)
      t).rows.map HeaderRow.spine = grownSpine params work run (t.rows.map HeaderRow.spine) := by
  induction run generalizing t work prev with
  | nil => rfl
  | cons header headers ih =>
    obtain ⟨hfirst, hdistinct⟩ := List.nodup_cons.mp hdistinct
    have hfresh := hunstored header List.mem_cons_self
    have hall : prev.all (eqIgnoreAsciiCase · header.previousHash) = true := by
      cases prev with
      | none => rfl
      | some p =>
        rw [Option.all_some]
        exact eqIgnoreAsciiCase_comm (hprev p rfl header rfl)
    rw [runWork, if_pos hall, List.map_cons, onHeadersAll_cons, grownSpine]
    refine (ih _ (some header.hash) (fun p hp x hx => ?_) (List.isChain_cons.mp hlinked).2
      (fun x hx => ?_) hdistinct).trans ?_
    · obtain rfl : header.hash = p := Option.some_inj.mp hp
      exact ((List.isChain_cons.mp hlinked).1 x hx).2
    · refine headerForHash_eq_none.mpr fun r hr hh => ?_
      rcases HeaderTable.mem_insert hr with hr | ⟨rfl, -⟩
      · exact headerForHash_eq_none.mp (hunstored x (List.mem_cons_of_mem _ hx)) r hr hh
      · exact hfirst (List.mem_map.mpr ⟨x, hx, hh.symm⟩)
    · rw [← spine_insert hfresh]
      rfl

/-- Transactions that the database takes are their statements in order. -/
theorem each_commit_headers (hacc : ∀ n, env.accepts n = true) (chunks : List (List Stmt))
    (w : World) : ∃ w', Prog.each (commit env) chunks w = (.ok (), w') ∧
      w'.db.headers = onHeadersAll chunks.flatten w.db.headers := by
  induction chunks generalizing w with
  | nil => exact ⟨w, rfl, rfl⟩
  | cons chunk chunks ih =>
    have hcommit := commit_ok (w := w) chunk (hacc w.asked)
    generalize hw₁ : World.mk _ _ _ = w₁ at hcommit
    have hheaders : w₁.db.headers = onHeadersAll chunk w.db.headers := by
      rw [← hw₁]
      exact execAll_headers ..
    obtain ⟨w', heach, hw'⟩ := ih w₁
    refine ⟨w', ?_, ?_⟩
    · rw [Prog.each_cons, Prog.bind_ok hcommit, heach]
    · rw [hw', hheaders, List.flatten_cons, onHeadersAll_append]

/-- **A batch planned in bulk** is written whole: the rows told, on the work the plan starts
from. -/
theorem insertHeadersBatch_of_plan {entries : List Entry} {work : Nat}
    (hacc : ∀ n, env.accepts n = true)
    (hplan : planBatch params w.db.rows first (first :: rest) =
      .ok (entries, .bulk (packGroups (freshGroups params work (first :: rest)) [])))
    (hlinked : (first :: rest).IsChain fun a b => AlikeChildOf b a)
    (hunstored : ∀ x ∈ first :: rest, headerForHash w.db.rows x.hash = none)
    (hdistinct : ((first :: rest).map (·.hash)).Nodup) :
    ∃ n w', insertHeadersBatch env params (first :: rest) w = (.ok n, w') ∧
      w'.db.rows.map HeaderRow.spine = grownSpine params work (first :: rest)
        (w.db.rows.map HeaderRow.spine) := by
  generalize hchunks : packGroups (freshGroups params work (first :: rest)) [] = chunks at hplan
  obtain ⟨w', heach, hheaders⟩ := each_commit_headers hacc chunks
    { w with history := entries.reverse ++ w.history }
  refine ⟨(first :: rest).length, w', ?_, ?_⟩
  · rw [insertHeadersBatch, insertRun, readRows, Prog.read_bind_apply, hplan,
      Prog.ofExcept_ok_bind_apply, Prog.bind_ok (each_note_apply _ w), writeBatch,
      Prog.bind_ok heach]
    rfl
  · have hflat : chunks.flatten = (runWork params work none (first :: rest)).map
        fun x => Stmt.insertHeader none x.1 true x.2 := by
      rw [← hchunks, flatten_packGroups, List.nil_append, freshGroups, ← List.flatMap_def,
        List.map_eq_flatMap]
    rw [Store.rows, hheaders, hflat]
    exact spine_freshGroups work none (fun p hp => by cases hp) hlinked hunstored hdistinct

/-- **The batch on a run**: it takes the run exactly where each header of it abides by the
rules, and leaves the rows told. -/
theorem OnTip.insertHeadersBatch_iff (hreads : ReadsWindow params.pow)
    (hacc : ∀ n, env.accepts n = true) (h : OnTip w.db.headers chain (first :: rest))
    (htip : chainTip w.db.rows = some tip) :
    (Prog.Answers (insertHeadersBatch env params (first :: rest)) w →
      AbidesRun params chain (first :: rest)) ∧
    (AbidesRun params chain (first :: rest) →
      ∃ n w', insertHeadersBatch env params (first :: rest) w = (.ok n, w') ∧
        w'.db.rows.map HeaderRow.spine = grownSpine params tip.chainWork (first :: rest)
          (w.db.rows.map HeaderRow.spine)) := by
  constructor
  · rintro ⟨n, w', hok⟩
    cases hplan : planBatch params w.db.rows first (first :: rest) with
    | ok judged =>
      rw [← List.append_nil (first :: rest)] at hplan
      exact h.abides_of_plan hreads htip (by rw [List.append_nil]; exact h.alike) hplan
    | error fault =>
      rw [insertHeadersBatch, insertRun, readRows, Prog.read_bind_apply, hplan] at hok
      cases hok
  · intro habides
    obtain ⟨entries, hplan⟩ := h.planBatch_of_abides hreads htip habides
    exact insertHeadersBatch_of_plan hacc hplan h.alike.ascending (fun x hx => h.fresh hx)
      h.distinct

/-- The highest active row of a table whose active rows are a chain's is its head's. -/
theorem highestActive_of_spine {u : HeaderTable} {head : BlockHeader} (h : ActiveChain t chain)
    (hs : u.rows.map HeaderRow.spine = t.rows.map HeaderRow.spine)
    (hhead : chain.head? = some head) :
    ∃ top, highestActive u.rows = some top ∧ top.hash = head.hash := by
  obtain ⟨r, hr, hrh⟩ := h.stored head (List.mem_of_head? hhead)
  obtain ⟨r', hr', he⟩ := List.mem_map.mp (hs.symm ▸ List.mem_map_of_mem hr)
  have hheader : r'.toBlockHeader = head :=
    (congrArg (fun s : HeaderRow => s.toBlockHeader) he).trans hrh
  have hact : r'.isActive = true := (h.active_of_spine hs hr').mpr
    (hheader ▸ List.mem_of_head? hhead)
  cases htop : highestActive u.rows with
  | none =>
    have := topmost_eq_none.mp htop
    rw [List.filter_eq_nil_iff] at this
    exact absurd hact (this r' hr')
  | some top =>
    refine ⟨top, rfl, ?_⟩
    have hmem := (h.active_of_spine hs (highestActive_mem htop)).mp (highestActive_isActive htop)
    have hle : r'.height ≤ top.height :=
      height_le_topmost htop (List.mem_filter.mpr ⟨hr', hact⟩)
    have hge := chain_le_head h.linked hhead _ hmem
    have hsame : top.toBlockHeader = head := chain_eq_of_height h.linked hmem
      (List.mem_of_head? hhead) (by
        have := congrArg BlockHeader.height hheader
        change top.height = head.height
        change top.height ≤ head.height at hge
        change r'.height = head.height at this
        omega)
    exact congrArg BlockHeader.hash hsame

/-- On an active chain the flag stands where the hash is the head's. -/
theorem ActiveChain.flag_eq {head : BlockHeader} (h : ActiveChain t chain)
    (hhead : chain.head? = some head) : ∀ r ∈ t.rows, r.isChainTip = (r.hash == head.hash) := by
  intro r hr
  obtain ⟨r₀, hr₀, hr₀h⟩ := h.stored head (List.mem_of_head? hhead)
  rw [Bool.eq_iff_iff, h.flagged r hr, hhead, Option.some_inj, beq_iff_eq]
  constructor
  · rintro rfl
    rfl
  · intro hh
    have hsame : r = r₀ := HeaderTable.eq_of_hash hr hr₀
      (hh.trans (congrArg BlockHeader.hash hr₀h).symm)
    rw [hsame, hr₀h]

/-- Two tables of one chain and one spine are one, but for the links. -/
theorem ActiveChain.unlinked_eq {u : HeaderTable} {head : BlockHeader} (h : ActiveChain t chain)
    (h' : ActiveChain u chain) (hhead : chain.head? = some head)
    (hs : t.rows.map HeaderRow.spine = u.rows.map HeaderRow.spine) :
    t.rows.map HeaderRow.unlinked = u.rows.map HeaderRow.unlinked := by
  rw [unlinked_of_spine (h.flag_eq hhead), unlinked_of_spine (h'.flag_eq hhead), hs]

/-- **The tip's move after a bulk write**: where the spines are those of a chain, the rows are
the chain's, the flag on its head. -/
theorem updateChainTip_of_spine {head : BlockHeader} (hacc : ∀ n, env.accepts n = true)
    (h : ActiveChain t chain) (hs : w.db.rows.map HeaderRow.spine = t.rows.map HeaderRow.spine)
    (hhead : chain.head? = some head) :
    ∃ top w', updateChainTipToHighest env w = (.ok (some top), w') ∧
      ActiveChain w'.db.headers chain ∧
      w'.db.rows.map HeaderRow.spine = w.db.rows.map HeaderRow.spine := by
  obtain ⟨top, htop, htophash⟩ := highestActive_of_spine h hs hhead
  have hcommit := commit_ok (w := w) (flagTipTxn top.hash) (hacc w.asked)
  generalize hw' : World.mk _ _ _ = w' at hcommit
  have hheaders : w'.db.headers = onHeadersAll (flagTipTxn top.hash) w.db.headers := by
    rw [← hw']
    exact execAll_headers ..
  have hkept : w'.db.rows.map HeaderRow.spine = w.db.rows.map HeaderRow.spine := by
    rw [Store.rows, hheaders, spine_flagTip]
  have hflag : ∀ r ∈ w'.db.rows, r.isChainTip = (r.hash == head.hash) := by
    rintro r hr
    rw [Store.rows, hheaders] at hr
    rw [← htophash]
    exact flagTip_row hr
  refine ⟨top, w', ?_, ⟨h.linked, fun x hx => ?_, fun r hr => h.active_of_spine (hkept.trans hs) hr,
    fun r hr => ?_⟩, hkept⟩
  · rw [updateChainTipToHighest, readRows, Prog.read_bind_apply, htop]
    exact Prog.bind_ok hcommit
  · obtain ⟨r, hr, hrx⟩ := h.stored x hx
    obtain ⟨r', hr', he⟩ := List.mem_map.mp ((hkept.trans hs).symm ▸ List.mem_map_of_mem hr)
    exact ⟨r', hr', (congrArg (fun s : HeaderRow => s.toBlockHeader) he).trans hrx⟩
  · -- the flagged row carries the head's hash, and the chain holds its header
    obtain ⟨r₀, hr₀, hr₀h⟩ := h.stored head (List.mem_of_head? hhead)
    obtain ⟨r', hr', he⟩ := List.mem_map.mp ((hkept.trans hs).symm ▸ List.mem_map_of_mem hr₀)
    have hheader : r'.toBlockHeader = head :=
      (congrArg (fun s : HeaderRow => s.toBlockHeader) he).trans hr₀h
    rw [hflag r hr, hhead, Option.some_inj, beq_iff_eq]
    constructor
    · intro hh
      rw [HeaderTable.eq_of_hash hr hr' (hh.trans (congrArg BlockHeader.hash hheader).symm),
        hheader]
    · rintro rfl
      rfl

end BatchPath

/-! ### The two paths agree -/

section Agreement

variable {env : Env} {params : ChainParams} {w : World} {chain run : List BlockHeader}
  {tip : HeaderRow}

/-- The batch as its callers run it, the tip moved to the highest active row after it. -/
def batchAndTip (env : Env) (params : ChainParams) (run : List BlockHeader) : Writer Nat := do
  let inserted ← insertHeadersBatch env params run
  let _ ← updateChainTipToHighest env
  pure inserted

/-- The batch and the tip's move leave what the one-by-one insertion left. -/
theorem batchAndTip_agrees {n m : Nat} {wb wl : World}
    (hacc : ∀ n, env.accepts n = true) (hbatch : insertHeadersBatch env params run w = (.ok n, wb))
    (hlive : insertEach env params run w = (.ok m, wl)) (hactive : ActiveChain wl.db.headers chain)
    (hspine : wb.db.rows.map HeaderRow.spine = wl.db.rows.map HeaderRow.spine)
    (hne : chain ≠ []) : ∃ n wb m wl, batchAndTip env params run w = (.ok n, wb) ∧
      insertEach env params run w = (.ok m, wl) ∧
      wb.db.rows.map HeaderRow.unlinked = wl.db.rows.map HeaderRow.unlinked := by
  obtain ⟨head, below, rfl⟩ := List.exists_cons_of_ne_nil hne
  obtain ⟨top, w', hupdate, hafter, hkept⟩ := updateChainTip_of_spine hacc hactive hspine rfl
  refine ⟨n, w', m, wl, ?_, hlive, hafter.unlinked_eq hactive rfl (hkept.trans hspine)⟩
  rw [batchAndTip, Prog.bind_ok hbatch, Prog.bind_ok hupdate]
  rfl

/-- **The two paths agree on a run**: the batch takes it exactly where `insert_header` refuses
none of its headers one by one; and then the batch and the tip's move leave the rows that the
one-by-one insertion leaves: the same ids, the same rows active, the same work, the same
flag. -/
def PathsAgree (env : Env) (params : ChainParams) (w : World) (run : List BlockHeader) : Prop :=
  (Prog.Answers (insertHeadersBatch env params run) w ↔
    Prog.Answers (insertEach env params run) w) ∧
  (Prog.Answers (insertHeadersBatch env params run) w →
    ∃ n wb m wl, batchAndTip env params run w = (.ok n, wb) ∧
      insertEach env params run w = (.ok m, wl) ∧
      wb.db.rows.map HeaderRow.unlinked = wl.db.rows.map HeaderRow.unlinked)

/-- Two paths that both refuse agree. -/
theorem PathsAgree.of_refused (hb : ¬Prog.Answers (insertHeadersBatch env params run) w)
    (hl : ¬Prog.Answers (insertEach env params run) w) : PathsAgree env params w run :=
  ⟨iff_of_false hb hl, fun h => absurd h hb⟩

/-- **The two paths agree on a run on the tip**, each of its headers naming the one before it
as it is spelled. -/
theorem OnTip.pathsAgree (hreads : ReadsWindow params.pow) (hwork : ProvesWork params)
    (hacc : ∀ n, env.accepts n = true) (h : OnTip w.db.headers chain run)
    (htip : chainTip w.db.rows = some tip)
    (hfits : tip.chainWork + (run.map fun x => params.bsv.workFromBits x.bits).sum < workModulus) :
    PathsAgree env params w run := by
  have hchain : chain ≠ [] := by
    rintro rfl
    exact absurd (h.active.chainTip_eq htip) (by simp)
  cases run with
  | nil =>
    exact ⟨⟨fun _ => ⟨0, w, rfl⟩, fun _ => ⟨0, w, rfl⟩⟩, fun _ =>
      batchAndTip_agrees hacc rfl rfl h.active rfl hchain⟩
  | cons first rest =>
    obtain ⟨hlive, hliveRows⟩ := h.insertEach_iff hacc hwork htip hfits
    obtain ⟨hbatch, hbatchRows⟩ := h.insertHeadersBatch_iff hreads hacc htip
    refine ⟨⟨fun hb => ?_, fun hl => ?_⟩, fun hb => ?_⟩
    · obtain ⟨m, wl, hl, -⟩ := hliveRows (hbatch hb)
      exact ⟨m, wl, hl⟩
    · obtain ⟨n, wb, hb, -⟩ := hbatchRows (hlive hl)
      exact ⟨n, wb, hb⟩
    · obtain ⟨m, wl, hl, hactive, hlspine⟩ := hliveRows (hbatch hb)
      obtain ⟨n, w₁, hb₁, hbspine⟩ := hbatchRows (hbatch hb)
      exact batchAndTip_agrees hacc hb₁ hl hactive (hbspine.trans hlspine.symm) (by simp)

end Agreement

namespace Regtest

/-- Regtest's rule reads the parent alone. -/
theorem readsWindow : ReadsWindow pow := by
  intro a b parent time hlink _
  have hparent := hlink parent (show parent + 1 - max 1 1 ≤ parent by omega) le_rfl
  simp only [pow, hparent]

/-- Bits regtest takes stand for some work. -/
theorem provesWork : ProvesWork params := by
  intro hash bits h
  change checkProofOfWork hash bits (target 0x207fffff) = .ok () at h
  change 0 < work bits
  rw [checkProofOfWork] at h
  split at h
  · cases h
  · rename_i hnegative
    split at h
    · cases h
    · rename_i hoverflow
      split at h
      · cases h
      · rename_i hzero
        split at h
        · cases h
        · rename_i hlimit
          have hsmall : target bits + 1 ≤ 2 ^ 256 :=
            (Nat.succ_le_succ (Nat.not_lt.mp hlimit)).trans (by decide +kernel)
          rw [work, if_neg (by simp [hnegative, hoverflow, hzero])]
          exact Nat.div_pos hsmall (Nat.succ_pos _)

end Regtest

end Chaintracks

import Chaintracks.ServedRange

/-!
# The bootstrap from a peer

A node without a chain asks another instance of the service for it, a thousand headers a
request (`Chaintracks.bootstrapFromPeer`). The answer is the text of a served range: frames end
to end, which carry no heights, so a header's height is its place in the text. Two guards keep
that honest. The reader of an answer stops at the first frame that does not name the one before
it (`Chaintracks.linkedFrames`), and the bootstrap refuses a batch whose headers do not count up
and link, the first to the batch below or to the node's own header below the span.

Whatever the peer answers, what comes out is one run of headers, linked and counting up from the
first height (`Chaintracks.RunFrom`), or the file host with the reason. And from a peer that
serves a chain it is that chain, up to where the peer ends.
-/

namespace Chaintracks

open HeaderRows

/-! ### What a peer answers -/

section Upstream

variable (bsv : BsvRs) (codec : FrameCodec)

/-- The headers of the frames from the `i`-th on, as far as each is a header that names the one
before it. -/
def linkedFrames (startHeight : Nat) : Nat → Option String → List (List UInt8) → List BlockHeader
  | _, _, [] => []
  | i, expected, chunk :: chunks =>
    if chunk.length < 80 then []
    else
      match headerFromBytes bsv codec chunk (startHeight + i) with
      | some header =>
        if expected.all (eqIgnoreAsciiCase header.previousHash) then
          header :: linkedFrames startHeight (i + 1) (some header.hash) chunks
        else []
      | none => []

/-- `fetch_headers_from_upstream`, on what the request came to: the value of the answer, where
there is one, or the fault. -/
def fetchHeadersFromUpstream (response : Except String (Option (List UInt8))) (startHeight : Nat)
    (expectedPrevHash : Option String) : Except String (List BlockHeader) := do
  let value ← response
  let hex := value.getD []
  if hex.isEmpty then pure []
  else
    match Hash32.hexDecode hex with
    | some bytes =>
      pure (linkedFrames bsv codec startHeight 0 expectedPrevHash (Records.chunks 80 bytes))
    | none => throw "hex decode"

end Upstream

/-- A `HeaderPeer`: what it answers to each of its requests, by the height asked from, the
count and the parent expected. -/
abbrev HeaderPeer := Nat → Nat → Nat → Option String → Except String (List BlockHeader)

/-- What the requests of `UpstreamPeer` come to. -/
abbrev Service := Nat → Nat → Nat → Except String (Option (List UInt8))

/-- `UpstreamPeer`. -/
def upstreamPeer (bsv : BsvRs) (codec : FrameCodec) (service : Service) : HeaderPeer :=
  fun asked start count expectedPrev =>
    fetchHeadersFromUpstream bsv codec (service asked start count) start expectedPrev

/-! ### The bootstrap -/

/-- `BOOTSTRAP_BATCH`. -/
def bootstrapBatch : Nat := 1000

/-- Where the bootstrap of a span reads from. -/
inductive Bootstrap
  | peer (headers : List BlockHeader)
  | fileHost (peerFault : Option String)
  deriving DecidableEq

/-- A batch asked from `height` on: its headers, `place` the next of them, count up and link. -/
def checkServed (height : Nat) : Nat → Option String → List BlockHeader → Except String Unit
  | _, _, [] => pure ()
  | place, expected, header :: headers =>
    if header.height = place ∧ expected.all (eqIgnoreAsciiCase header.previousHash) = true then
      checkServed height (place + 1) (some header.hash) headers
    else throw ("getHeaders at " ++ toString height ++ ": the header at " ++ toString place ++
      " does not link to the one below it")

section Loop

variable (peer : HeaderPeer) (anchor : Option String) (stop : Nat)

/-- The loop of the bootstrap. Each round that goes on is higher than the one before. -/
def bootstrapLoop : Nat → Nat → Nat → List BlockHeader → Except String (List BlockHeader)
  | 0, _, _, headers => pure headers
  | fuel + 1, asked, height, headers =>
    if height < stop then do
      let want := min bootstrapBatch (stop - height)
      let below := (headers.getLast?.map (·.hash)).or anchor
      let served ← (peer asked height want below).mapError fun e =>
        "getHeaders at " ++ toString height ++ ": " ++ e
      let batch := served.take want
      checkServed height height below batch
      if batch.length < want then pure (headers ++ batch)
      else bootstrapLoop fuel (asked + 1) (height + batch.length) (headers ++ batch)
    else pure headers

end Loop

/-- `bootstrap_from_peer`. -/
def bootstrapFromPeer (peer : Option HeaderPeer) (start count : Nat) (anchor : Option String) :
    Bootstrap :=
  match peer with
  | none => .fileHost none
  | some peer =>
    let stop := saturatingAdd start count
    match bootstrapLoop peer anchor stop (stop - start) 0 start [] with
    | .error fault => .fileHost (some fault)
    | .ok [] => .fileHost (some ("the peer holds no header at " ++ toString start))
    | .ok headers => .peer headers

/-! ### One linked run -/

/-- **A run from a height**: its headers count up from there and each names the one before, the
first the anchor, where there is one. -/
structure RunFrom (start : Nat) (anchor : Option String) (run : List BlockHeader) : Prop where
  heights : run.map (·.height) = List.range' start run.length
  linked : run.IsChain fun a b => eqIgnoreAsciiCase b.previousHash a.hash = true
  anchored : ∀ p ∈ anchor, ∀ h ∈ run.head?, eqIgnoreAsciiCase h.previousHash p = true

section Runs

variable {peer : HeaderPeer} {anchor expected : Option String}
  {start stop height place fuel asked : Nat} {run batch headers : List BlockHeader}

theorem RunFrom.nil : RunFrom start anchor [] := ⟨rfl, .nil, fun _ _ h hh => by cases hh⟩

/-- **A run goes on with one that starts where it ends.** -/
theorem RunFrom.append (h : RunFrom start anchor run)
    (hbatch : RunFrom (start + run.length) ((run.getLast?.map (·.hash)).or anchor) batch) :
    RunFrom start anchor (run ++ batch) where
  heights := by
    rw [List.map_append, h.heights, hbatch.heights, List.length_append, List.range'_append_1]
  linked := by
    refine List.isChain_append.mpr ⟨h.linked, hbatch.linked, fun last hlast next hnext => ?_⟩
    refine hbatch.anchored last.hash ?_ next hnext
    rw [Option.mem_def.mp hlast]
    rfl
  anchored p hp x hx := by
    cases run with
    | nil => exact hbatch.anchored p hp x hx
    | cons y ys => exact h.anchored p hp x hx

/-- What passes the check of a batch is a run from its place. -/
theorem checkServed_ok {u : Unit} (h : checkServed height place expected headers = .ok u) :
    RunFrom place expected headers := by
  induction headers generalizing place expected with
  | nil => exact .nil
  | cons header headers ih =>
    rw [checkServed] at h
    split at h
    · rename_i hnext
      obtain ⟨hplace, hnames⟩ := hnext
      have hrest := ih h
      refine ⟨?_, ?_, ?_⟩
      · rw [List.map_cons, hrest.heights, List.length_cons, List.range'_succ, hplace]
      · exact List.isChain_cons.mpr ⟨fun x hx => hrest.anchored header.hash rfl x hx, hrest.linked⟩
      · rintro p hp x hx
        obtain rfl : header = x := Option.some_inj.mp hx
        rw [Option.mem_def.mp hp] at hnames
        exact hnames
    · cases h

/-- The check of a batch passes every run from its place. -/
theorem RunFrom.checkServed_eq (h : RunFrom place expected headers) :
    checkServed height place expected headers = .ok () := by
  induction headers generalizing place expected with
  | nil => rfl
  | cons header headers ih =>
    have hheights := h.heights
    rw [List.map_cons, List.length_cons, List.range'_succ] at hheights
    obtain ⟨hplace, hheights⟩ := List.cons.inj hheights
    rw [checkServed, if_pos]
    · refine ih ⟨hheights, (List.isChain_cons.mp h.linked).2, fun p hp x hx => ?_⟩
      obtain rfl : header.hash = p := Option.some_inj.mp hp
      exact (List.isChain_cons.mp h.linked).1 x hx
    · refine ⟨hplace, ?_⟩
      cases expected with
      | none => rfl
      | some p => exact h.anchored p rfl header rfl

/-- The peer answered a request with a header. -/
def HeaderPeer.Served (peer : HeaderPeer) (header : BlockHeader) : Prop :=
  ∃ asked height want below served, peer asked height want below = .ok served ∧ header ∈ served

/-- The peer answered a request from below a height with fewer headers than asked for, the last
of them right below it. -/
def HeaderPeer.EndsAt (peer : HeaderPeer) (height : Nat) : Prop :=
  ∃ asked first want below served, peer asked first want below = .ok served ∧
    served.length < want ∧ first + served.length = height

/-- **What the loop comes to**: the run it had, gone on with as far as the peer answers. -/
theorem bootstrapLoop_ok (hrun : RunFrom start anchor run) (hheight : height = start + run.length)
    (hbelow : height ≤ stop) (hfuel : stop ≤ height + fuel)
    (hserved : ∀ x ∈ run, peer.Served x)
    (h : bootstrapLoop peer anchor stop fuel asked height run = .ok headers) :
    RunFrom start anchor headers ∧ start + headers.length ≤ stop ∧
      (∀ x ∈ headers, peer.Served x) ∧
      (start + headers.length < stop → peer.EndsAt (start + headers.length)) := by
  induction fuel generalizing asked height run with
  | zero =>
    cases h
    exact ⟨hrun, by omega, hserved, fun hlt => by omega⟩
  | succ fuel ih =>
    rw [bootstrapLoop] at h
    split at h
    · rename_i hlt
      obtain ⟨served, hask, h⟩ := Except.bind_eq_ok.mp h
      obtain ⟨u, hcheck, h⟩ := Except.bind_eq_ok.mp h
      have hask := Except.mapError_eq_ok.mp hask
      have hbatch := checkServed_ok hcheck
      have hnext : RunFrom start anchor (run ++ served.take (min bootstrapBatch (stop - height))) :=
        hrun.append (hheight ▸ hbatch)
      have hall : ∀ x ∈ run ++ served.take (min bootstrapBatch (stop - height)), peer.Served x := by
        intro x hx
        rcases List.mem_append.mp hx with hx | hx
        · exact hserved x hx
        · exact ⟨asked, height, _, _, served, hask, List.mem_of_mem_take hx⟩
      have hlength := List.length_take (l := served) (i := min bootstrapBatch (stop - height))
      split at h
      · -- the peer's own tip
        rename_i hshort
        cases h
        refine ⟨hnext, ?_, hall, fun _ => ⟨asked, height, _, _, served, hask, ?_, ?_⟩⟩
        · rw [List.length_append]
          omega
        · omega
        · rw [List.length_append]
          omega
      · refine ih hnext ?_ ?_ ?_ hall h
        · rw [List.length_append]
          omega
        · omega
        · have : 0 < bootstrapBatch := by decide
          omega
    · cases h
      exact ⟨hrun, by omega, hserved, fun hlt => by omega⟩

/-- **Whatever a peer answers, the bootstrap comes out with one run** of headers it served, from
the first height up and each linked to the one below, the first to the node's own header; it is
the whole span, or the peer ended there. Where it does not, the reason is kept. -/
theorem bootstrap_sound (peer : HeaderPeer) (start count : Nat) (anchor : Option String)
    (hstart : start ≤ u32Max) :
    (∀ headers, bootstrapFromPeer (some peer) start count anchor = .peer headers →
      headers ≠ [] ∧ RunFrom start anchor headers ∧ headers.length ≤ count ∧
        (∀ x ∈ headers, peer.Served x) ∧
        (start + headers.length < saturatingAdd start count →
          peer.EndsAt (start + headers.length))) ∧
    ∀ fault, bootstrapFromPeer (some peer) start count anchor = .fileHost fault →
      ∃ text, fault = some text := by
  rw [bootstrapFromPeer]
  have hbelow : start ≤ saturatingAdd start count := by
    rw [saturatingAdd]
    omega
  cases hloop : bootstrapLoop peer anchor (saturatingAdd start count)
      (saturatingAdd start count - start) 0 start [] with
  | error e =>
    constructor
    · rintro headers h
      cases h
    · rintro fault h
      cases h
      exact ⟨e, rfl⟩
  | ok headers =>
    obtain ⟨hrun, hlength, hserved, hends⟩ := bootstrapLoop_ok .nil rfl hbelow
      (by omega) (List.forall_mem_nil _) hloop
    cases headers with
    | nil =>
      constructor
      · rintro headers h
        cases h
      · rintro fault h
        cases h
        exact ⟨_, rfl⟩
    | cons x xs =>
      constructor
      · rintro headers h
        cases h
        refine ⟨List.cons_ne_nil _ _, hrun, ?_, hserved, hends⟩
        have hle : saturatingAdd start count ≤ start + count := min_le_left _ _
        omega
      · rintro fault h
        cases h

end Runs

/-- A peer that answers every request with two headers. -/
def HeaderPeer.always (first second : BlockHeader) : HeaderPeer :=
  fun _ _ _ _ => .ok [first, second]

open Regtest in
/-- `Chaintracks.bootstrap_sound` of a peer whose two headers are its tip. -/
theorem bootstrap_sound_tip : RunFrom 1 (some genesis.hash) [a1, a2] ∧
    (HeaderPeer.always a1 a2).EndsAt 3 := by
  have hsound := bootstrap_sound (HeaderPeer.always a1 a2) 1 5 (some genesis.hash) (by decide)
  obtain ⟨-, hrun, -, -, hends⟩ := hsound.1 [a1, a2] (by decide +kernel)
  exact ⟨hrun, hends (by decide)⟩

/-! ### A peer that serves a chain -/

/-- A row as its frame tells it: its texts are those of the frame. -/
def frameHeader (bsv : BsvRs) (codec : FrameCodec) (row : HeaderRow) : BlockHeader :=
  { row.toBlockHeader with
    previousHash := codec.prevId row.wire
    merkleRoot := codec.merkleRootHex row.wire
    hash := bsv.id row.wire }

/-- The public cap of the `getHeaders` route. -/
def routeCap : Nat := 10000

/-- The `getHeaders` route of an instance, on a store that stays as it is. -/
def getHeadersRoute (codec : FrameCodec) (rows : List HeaderRow) (ceiling : Ceiling) : Service :=
  fun _ height count => .ok (some (headersHexUnder codec rows ceiling height (min count routeCap)))

/-- **A chain served**: one active row a height up to `top`, none above, whose frames name each
other, and a ceiling the heights up to `last` are served under. -/
structure ServedChain (bsv : BsvRs) (codec : FrameCodec) (rows : List HeaderRow)
    (ceiling : Ceiling) (c : Nat → HeaderRow) (last : Nat) : Prop where
  mem : ∀ h ≤ last, c h ∈ rows
  height : ∀ h ≤ last, (c h).height = h
  active : ∀ h ≤ last, (c h).isActive = true
  only : ∀ row ∈ rows, row.isActive = true → ceiling.admits row.height = true →
    row.height ≤ last ∧ row = c row.height
  admits : ∀ h ≤ last, ceiling.admits h = true
  names : ∀ h < last, codec.Names bsv (c (h + 1)).wire (c h).wire
  bounded : last < u32Max
  clipped : ∀ v, ceiling = .upTo v → v < u32Max

/-- The headers of a chain served, from a height on. -/
def servedRun (bsv : BsvRs) (codec : FrameCodec) (c : Nat → HeaderRow) (start count : Nat) :
    List BlockHeader := (List.range' start count).map fun h => frameHeader bsv codec (c h)

section Serving

variable {bsv : BsvRs} {codec : FrameCodec} {t : HeaderTable} {ceiling : Ceiling}
  {c : Nat → HeaderRow} {last start count stop : Nat} {expected anchor : Option String}

theorem headerFromBytes_row (row : HeaderRow) (height : Nat) (h : row.height = height) :
    headerFromBytes bsv codec (codec.toBinary row.wire) height =
      some (frameHeader bsv codec row) := by
  rw [headerFromBytes_toBinary, ← h]
  rfl

/-- A height served is in the range of a request that asks for it. -/
theorem ServedChain.lt_rangeEnd (h : ServedChain bsv codec t.rows ceiling c last) {height : Nat}
    (hlo : start ≤ height) (hcount : height < start + count) (hlast : height ≤ last) :
    height < rangeEnd ceiling start count := by
  have hbounded := h.bounded
  have hadmits := h.admits height hlast
  rw [rangeEnd, saturatingAdd]
  cases hceiling : ceiling with
  | all =>
    rw [Ceiling.clip]
    omega
  | nothing =>
    rw [hceiling] at hadmits
    cases hadmits
  | upTo v =>
    rw [hceiling, Ceiling.admits, decide_eq_true_eq] at hadmits
    have hv := h.clipped v hceiling
    have hwhole : (v - start + 1) % 2 ^ 32 = v - start + 1 := Nat.mod_eq_of_lt (by
      have : u32Max + 1 = 2 ^ 32 := by decide
      omega)
    rw [Ceiling.clip, if_pos (hlo.trans hadmits), hwhole]
    omega

/-- The rows a route reads of a chain served. -/
theorem ServedChain.servedRows_eq (h : ServedChain bsv codec t.rows ceiling c last) :
    servedRows t.rows ceiling start count =
      (List.range' start (min count (last + 1 - start))).map c := by
  have hrow : ∀ r ∈ servedRows t.rows ceiling start count, start ≤ r.height ∧
      r.height < start + count ∧ r.height ≤ last ∧ r = c r.height := by
    intro r hr
    obtain ⟨hmem, hact, hlo, -⟩ := mem_servedRows.mp hr
    obtain ⟨hcount, -, hadmits⟩ := served_height_le hr
    obtain ⟨hlast, hrc⟩ := h.only r hmem hact hadmits
    exact ⟨hlo, hcount, hlast, hrc⟩
  have hfound : ∀ height, start ≤ height → height < start + count → height ≤ last →
      c height ∈ servedRows t.rows ceiling start count := by
    intro height hlo hcount hlast
    refine mem_servedRows.mpr ⟨h.mem height hlast, h.active height hlast, ?_, ?_⟩ <;>
      rw [h.height height hlast]
    · exact hlo
    · exact h.lt_rangeEnd hlo hcount hlast
  have hheights : (servedRows t.rows ceiling start count).map (·.height) =
      List.range' start (servedRows t.rows ceiling start count).length := by
    refine DenseRange.heights ⟨?_, ?_⟩
    · rintro r hr r' hr' hact hact' hlo hhi heq
      have hadmits := (rangeEnd_le (hlo.trans_lt hhi)).2.2 r.height hhi
      rw [(h.only r hr hact hadmits).2, (h.only r' hr' hact' (heq ▸ hadmits)).2, heq]
    · rintro r hr hact hlo hhi height hheight hlt
      have hlast := (h.only r hr hact ((rangeEnd_le (hlo.trans_lt hhi)).2.2 r.height hhi)).1
      exact ⟨c height, h.mem height (by omega), h.active height (by omega),
        h.height height (by omega)⟩
  generalize servedRows t.rows ceiling start count = rows at hrow hfound hheights
  have hlength : rows.length = min count (last + 1 - start) := by
    have hin : ∀ height, start ≤ height → (height < start + rows.length ↔
        height < start + count ∧ height ≤ last) := by
      intro height hlo
      have hmem : height ∈ rows.map (·.height) ↔ height < start + rows.length := by
        rw [hheights, List.mem_range'_1]
        exact and_iff_right hlo
      rw [← hmem, List.mem_map]
      constructor
      · rintro ⟨r, hr, rfl⟩
        exact ⟨(hrow r hr).2.1, (hrow r hr).2.2.1⟩
      · rintro ⟨hcount, hlast⟩
        exact ⟨c height, hfound height hlo hcount hlast, h.height height hlast⟩
    have hend := hin (start + rows.length) (Nat.le_add_right ..)
    have hmin := hin (start + min count (last + 1 - start)) (Nat.le_add_right ..)
    omega
  rw [← hlength, ← hheights, List.map_map]
  conv_lhs => rw [← List.map_id rows]
  exact List.map_congr_left fun r hr => (hrow r hr).2.2.2

theorem length_servedRun : (servedRun bsv codec c start count).length = count := by
  rw [servedRun, List.length_map, List.length_range']

theorem servedRun_zero : servedRun bsv codec c start 0 = [] := rfl

theorem servedRun_append (n m : Nat) : servedRun bsv codec c start n ++
    servedRun bsv codec c (start + n) m = servedRun bsv codec c start (n + m) := by
  rw [servedRun, servedRun, servedRun, ← List.map_append, List.range'_append_1]

/-- **The run of a chain served** is one run, where its first header names the anchor. -/
theorem ServedChain.runFrom (h : ServedChain bsv codec t.rows ceiling c last)
    (hend : count ≤ last + 1 - start)
    (hanchor : 0 < count → ∀ p ∈ anchor, eqIgnoreAsciiCase (codec.prevId (c start).wire) p = true) :
    RunFrom start anchor (servedRun bsv codec c start count) where
  heights := by
    rw [length_servedRun, servedRun, List.map_map]
    conv_rhs => rw [← List.map_id (List.range' start count)]
    refine List.map_congr_left fun k hk => ?_
    rw [List.mem_range'_1] at hk
    exact h.height k (by omega)
  linked := by
    refine (List.isChain_map _).mpr (List.isChain_iff_getElem.mpr fun i hi => ?_)
    rw [List.length_range'] at hi
    rw [List.getElem_range', List.getElem_range', Nat.one_mul, Nat.one_mul, ← Nat.add_assoc]
    exact h.names (start + i) (by omega)
  anchored p hp x hx := by
    cases count with
    | zero => cases hx
    | succ n =>
      obtain rfl : frameHeader bsv codec (c start) = x := Option.some_inj.mp hx
      exact hanchor (Nat.succ_pos n) p hp

/-- **The frames of a run are read back** as far as they link, which is to the end. -/
theorem linkedFrames_eq {l : List HeaderRow} {i : Nat}
    (hheights : l.map (·.height) = List.range' (start + i) l.length)
    (hrun : (l.map (frameHeader bsv codec)).IsChain fun a b =>
      eqIgnoreAsciiCase b.previousHash a.hash = true)
    (hfirst : ∀ p ∈ expected, ∀ r ∈ l.head?, eqIgnoreAsciiCase (codec.prevId r.wire) p = true) :
    linkedFrames bsv codec start i expected (l.map fun row => codec.toBinary row.wire) =
      l.map (frameHeader bsv codec) := by
  induction l generalizing i expected with
  | nil => rfl
  | cons row l ih =>
    rw [List.map_cons, List.length_cons, List.range'_succ] at hheights
    obtain ⟨hheight, hheights⟩ := List.cons.inj hheights
    rw [List.map_cons] at hrun
    have hnames : expected.all (eqIgnoreAsciiCase (frameHeader bsv codec row).previousHash) =
        true := by
      cases expected with
      | none => rfl
      | some p => exact hfirst p rfl row rfl
    rw [List.map_cons, linkedFrames, if_neg (by rw [codec.size]; decide),
      headerFromBytes_row row _ hheight]
    dsimp only
    rw [if_pos hnames, ih hheights (List.isChain_cons.mp hrun).2, List.map_cons]
    rintro p hp r hr
    obtain rfl : (frameHeader bsv codec row).hash = p := Option.some_inj.mp hp
    refine (List.isChain_cons.mp hrun).1 (frameHeader bsv codec r) ?_
    rw [List.head?_map, Option.mem_def.mp hr]
    rfl

/-- Where the first frame does not name the parent expected, nothing is read. -/
theorem linkedFrames_foreign {l : List HeaderRow} {p : String} {i : Nat}
    (hfirst : ∀ r ∈ l.head?, r.height = start + i ∧
      eqIgnoreAsciiCase (codec.prevId r.wire) p = false) :
    linkedFrames bsv codec start i (some p) (l.map fun row => codec.toBinary row.wire) = [] := by
  cases l with
  | nil => rfl
  | cons row l =>
    obtain ⟨hheight, hforeign⟩ := hfirst row rfl
    rw [List.map_cons, linkedFrames, if_neg (by rw [codec.size]; decide),
      headerFromBytes_row row _ hheight]
    dsimp only
    rw [if_neg]
    rw [Option.all_some]
    exact Bool.eq_false_iff.mp hforeign

/-- The text a route answers decodes to the bytes of its rows. -/
theorem hexDecode_headersHexUnder : Hash32.hexDecode (headersHexUnder codec t.rows ceiling start
    count) = some (rowBytes codec (servedRows t.rows ceiling start count)) := by
  have htext : headersHexUnder codec t.rows ceiling start count =
      hexEncode (rowBytes codec (servedRows t.rows ceiling start count)) := by
    rw [headersHexUnder_eq, hexEncode, rowBytes, List.flatMap_assoc]
    rfl
  rw [htext, hexDecode_hexEncode]

/-- **An answer of a chain served**: its run, where the first header is the one expected. -/
theorem ServedChain.fetch_eq (h : ServedChain bsv codec t.rows ceiling c last) (asked : Nat) :
    fetchHeadersFromUpstream bsv codec (getHeadersRoute codec t.rows ceiling asked start count)
        start expected =
      .ok (if expected.all (eqIgnoreAsciiCase (codec.prevId (c start).wire)) then
        servedRun bsv codec c start (min (min count routeCap) (last + 1 - start)) else []) := by
  have hrows := @ServedChain.servedRows_eq _ _ _ _ _ _ start (min count routeCap) h
  generalize hn : min (min count routeCap) (last + 1 - start) = n at hrows ⊢
  have hdecode := @hexDecode_headersHexUnder codec t ceiling start (min count routeCap)
  have hlength := @length_headersHexUnder codec t.rows ceiling start (min count routeCap)
  rw [hrows] at hdecode hlength
  rw [fetchHeadersFromUpstream, getHeadersRoute]
  change (if (headersHexUnder codec t.rows ceiling start (min count routeCap)).isEmpty = true
    then _ else _ : Except String (List BlockHeader)) = _
  cases n with
  | zero =>
    rw [if_pos (List.isEmpty_iff.mpr (List.length_eq_zero_iff.mp hlength)), servedRun_zero,
      ite_self]
    rfl
  | succ n =>
    have hfull : ¬(headersHexUnder codec t.rows ceiling start (min count routeCap)).isEmpty =
        true := by
      rw [List.isEmpty_iff, ← List.length_eq_zero_iff, hlength, List.length_map,
        List.length_range']
      omega
    rw [if_neg hfull, Option.getD_some, hdecode]
    change Except.ok (linkedFrames bsv codec start 0 expected _) = _
    rw [chunks_rowBytes]
    have hhead : ∀ r ∈ ((List.range' start (n + 1)).map c).head?, r = c start := by
      rintro r hr
      exact (Option.some_inj.mp hr).symm
    split
    · rename_i hnames
      refine congrArg Except.ok ((linkedFrames_eq ?_ ?_ ?_).trans ?_)
      · rw [List.length_map, List.length_range', List.map_map]
        conv_rhs => rw [← List.map_id (List.range' (start + 0) (n + 1))]
        refine List.map_congr_left fun k hk => ?_
        rw [List.mem_range'_1] at hk
        exact h.height k (by omega)
      · rw [List.map_map]
        exact (@ServedChain.runFrom _ _ _ _ _ _ _ _ none h (by omega)
          (fun _ p hp => by cases hp)).linked
      · rintro p hp r hr
        rw [hhead r hr]
        rw [Option.mem_def.mp hp] at hnames
        exact hnames
      · rw [List.map_map]
        rfl
    · rename_i hforeign
      cases expected with
      | none => exact absurd rfl hforeign
      | some p =>
        refine congrArg Except.ok (linkedFrames_foreign fun r hr => ?_)
        rw [hhead r hr]
        exact ⟨h.height start (by omega), Bool.eq_false_iff.mpr hforeign⟩

/-- The last of a run served. -/
theorem getLast?_servedRun (n : Nat) : (servedRun bsv codec c start (n + 1)).getLast? =
    some (frameHeader bsv codec (c (start + n))) := by
  rw [← servedRun_append]
  exact List.getLast?_concat ..

/-- **The loop reads the chain on** from where it stands, to the end of the span or of what is
served. -/
theorem ServedChain.bootstrapLoop_eq (h : ServedChain bsv codec t.rows ceiling c last)
    (hanchor : anchor.all (eqIgnoreAsciiCase (codec.prevId (c start).wire)) = true)
    {fuel asked done : Nat} (hdone : done ≤ last + 1 - start) (hstop : start + done ≤ stop)
    (hfuel : stop ≤ start + done + fuel) :
    bootstrapLoop (upstreamPeer bsv codec (getHeadersRoute codec t.rows ceiling)) anchor stop fuel
        asked (start + done) (servedRun bsv codec c start done) =
      .ok (servedRun bsv codec c start (min (stop - start) (last + 1 - start))) := by
  induction fuel generalizing asked done with
  | zero =>
    rw [bootstrapLoop, show min (stop - start) (last + 1 - start) = done by omega]
    rfl
  | succ fuel ih =>
    rw [bootstrapLoop]
    split
    · rename_i hlt
      have hwant : min bootstrapBatch (stop - (start + done)) ≤ routeCap :=
        (min_le_left _ _).trans (by decide)
      generalize hw : min bootstrapBatch (stop - (start + done)) = want at hwant ⊢
      -- what stands below is the chain's, or the anchor
      generalize hbelow : ((servedRun bsv codec c start done).getLast?.map (·.hash)).or anchor =
        below
      have hnames : 0 < last + 1 - (start + done) →
          below.all (eqIgnoreAsciiCase (codec.prevId (c (start + done)).wire)) = true := by
        intro hmore
        cases done with
        | zero =>
          rw [← hbelow]
          exact hanchor
        | succ done =>
          rw [getLast?_servedRun] at hbelow
          rw [← hbelow]
          exact h.names (start + done) (by omega)
      have hfetch : upstreamPeer bsv codec (getHeadersRoute codec t.rows ceiling) asked
          (start + done) want below = .ok (servedRun bsv codec c (start + done)
            (min want (last + 1 - (start + done)))) := by
        refine (h.fetch_eq asked).trans (congrArg Except.ok ?_)
        rw [min_eq_left hwant]
        by_cases hmore : 0 < last + 1 - (start + done)
        · rw [if_pos (hnames hmore)]
        · rw [show min want (last + 1 - (start + done)) = 0 by omega, servedRun_zero, ite_self]
      have hrun : RunFrom (start + done) below
          (servedRun bsv codec c (start + done) (min want (last + 1 - (start + done)))) := by
        refine h.runFrom (min_le_right _ _) fun hpos p hp => ?_
        have := hnames (by omega)
        rw [Option.mem_def.mp hp] at this
        exact this
      have htake : (servedRun bsv codec c (start + done)
          (min want (last + 1 - (start + done)))).take want =
            servedRun bsv codec c (start + done) (min want (last + 1 - (start + done))) :=
        List.take_of_length_le (by
          rw [length_servedRun]
          exact min_le_left _ _)
      change (Except.mapError _ (upstreamPeer bsv codec (getHeadersRoute codec t.rows ceiling) asked
        (start + done) want below) >>= _) = _
      rw [hfetch]
      change (checkServed (start + done) (start + done) below (List.take want _) >>= _) = _
      rw [htake, hrun.checkServed_eq]
      change (if _ then _ else _ : Except String (List BlockHeader)) = _
      rw [length_servedRun, servedRun_append]
      have hpos : 0 < bootstrapBatch := by decide
      split
      · rw [show min (stop - start) (last + 1 - start) =
          done + min want (last + 1 - (start + done)) by omega]
        rfl
      · rw [Nat.add_assoc]
        exact ih (by omega) (by omega) (by omega)
    · rw [show min (stop - start) (last + 1 - start) = done by omega]
      rfl

/-- **From a peer that serves a chain the bootstrap is the chain**, from the first height to the
end of the span or of what is served, where the chain's header there names the node's own below
it; otherwise, or where nothing is served from that height on, the peer holds no header there. -/
theorem bootstrap_served (h : ServedChain bsv codec t.rows ceiling c last) (start count : Nat)
    (anchor : Option String) (hstart : start ≤ u32Max) :
    bootstrapFromPeer (some (upstreamPeer bsv codec (getHeadersRoute codec t.rows ceiling))) start
        count anchor =
      if anchor.all (eqIgnoreAsciiCase (codec.prevId (c start).wire)) = true ∧
          0 < min count (last + 1 - start) then
        .peer (servedRun bsv codec c start (min count (last + 1 - start)))
      else .fileHost (some ("the peer holds no header at " ++ toString start)) := by
  have hbounded := h.bounded
  have hspan : min (saturatingAdd start count - start) (last + 1 - start) =
      min count (last + 1 - start) := by
    rw [saturatingAdd]
    omega
  have hbelow : start ≤ saturatingAdd start count := by
    rw [saturatingAdd]
    omega
  rw [bootstrapFromPeer]
  by_cases hanchor : anchor.all (eqIgnoreAsciiCase (codec.prevId (c start).wire)) = true
  · have hloop := @ServedChain.bootstrapLoop_eq _ _ _ _ _ _ _ _ _ h hanchor _ 0 0 (Nat.zero_le _)
      hbelow (show saturatingAdd start count ≤
        start + 0 + (saturatingAdd start count - start) by omega)
    rw [Nat.add_zero, servedRun_zero, hspan] at hloop
    rw [hloop]
    cases hn : min count (last + 1 - start) with
    | zero =>
      rw [if_neg fun hpos => Nat.lt_irrefl 0 hpos.2]
      rfl
    | succ n =>
      rw [if_pos ⟨hanchor, Nat.succ_pos n⟩]
      rfl
  · -- the first answer is empty
    rw [if_neg fun hpos => hanchor hpos.1]
    have hloop : bootstrapLoop (upstreamPeer bsv codec (getHeadersRoute codec t.rows ceiling))
        anchor (saturatingAdd start count) (saturatingAdd start count - start) 0 start [] =
          .ok [] := by
      cases hfuel : saturatingAdd start count - start with
      | zero => rfl
      | succ fuel =>
        rw [bootstrapLoop, if_pos (by omega)]
        change (Except.mapError _ (fetchHeadersFromUpstream bsv codec
          (getHeadersRoute codec t.rows ceiling 0 start _) start anchor) >>= _) = _
        rw [h.fetch_eq 0, if_neg hanchor]
        have hpos : 0 < bootstrapBatch := by decide
        change (checkServed start start _ (List.take _ []) >>= _) = _
        rw [List.take_nil]
        change (if 0 < min bootstrapBatch (saturatingAdd start count - start) then _ else _ :
          Except String (List BlockHeader)) = _
        rw [if_pos (by omega)]
        rfl
    rw [hloop]

end Serving

end Chaintracks

import Chaintracks.Runs
import Chaintracks.ExportLayout
import Chaintracks.Served

/-!
# The served ranges

A range of headers is served as one text of frames, eighty bytes each, and a client takes
the `k`-th for the header `k` above the first height it asked for. The text is of whatever
active rows stand in the range, in the order of their heights: a height without a row
moves every later header down by one, a height with two moves them up.

So the frames stand where a client looks for them exactly where the range is dense
(`Chaintracks.DenseRange`): its heights with an active row are its first ones, and none has
two. The routes call a range settled by the number of its frames
(`Chaintracks.servedRangeUnder`), which a hole and a rival in one range make up for
(`Chaintracks.settled_hole`); on a dense range the count is right
(`Chaintracks.rangeFaithful_iff`).
-/

namespace Chaintracks

open HeaderRows

/-! ### What the routes answer -/

/-- The largest height there is. -/
def u32Max : Nat := 4294967295

/-- `u32::saturating_add`. -/
def saturatingAdd (a b : Nat) : Nat := min (a + b) u32Max

/-- The count of `headers_hex_under`, clipped to the ceiling. -/
def Ceiling.clip (ceiling : Ceiling) (start count : Nat) : Nat :=
  match ceiling with
  | .all => count
  | .upTo c => if start ≤ c then min count ((c - start + 1) % 2 ^ 32) else 0
  | .nothing => 0

/-- The end of the range a count of headers from `start` is read from, which is not part
of it. -/
def rangeEnd (ceiling : Ceiling) (start count : Nat) : Nat :=
  max start (saturatingAdd start (ceiling.clip start count))

/-- `edge::settled`: more than `line` below the served tip. -/
def edgeSettled (tip : Option Nat) (height line : Nat) : Bool :=
  tip.any fun t => height < t && line < t - height

section Routes

variable (codec : FrameCodec) (rows : List HeaderRow) (ceiling : Ceiling) (tip : Option Nat)
  (line start count : Nat)

/-- `headers_hex_under`. -/
def headersHexUnder : List UInt8 :=
  if ceiling.clip start count = 0 then []
  else getHeadersHex codec rows start (rangeEnd ceiling start count - start)

/-- `served_range`, of a ceiling and a served tip's height: the text, and whether it is
settled. -/
def servedRangeUnder : List UInt8 × Bool :=
  let hex := headersHexUnder codec rows ceiling start count
  let n := hex.length / 160 % 2 ^ 32
  (hex, n == count && 0 < n && edgeSettled tip (saturatingAdd start (n - 1)) line)

/-- The rows whose frames are served. -/
def servedRows : List HeaderRow := activeHeadersFromTo rows start (rangeEnd ceiling start count)

end Routes

/-- `served_range` on a database. -/
def servedRange (codec : FrameCodec) (db : Store) (line start count : Nat) : List UInt8 × Bool :=
  servedRangeUnder codec db.rows (servedCeiling db.sync) ((servedTip db).map (·.height)) line start
    count

/-! ### Where the frames stand -/

/-- **A range served faithfully**: the frame at each place is that of the header at the
height of the place, no header is above the ceiling, and a range called settled has one
header for each height asked for, all more than the line below the served tip. -/
structure RangeFaithful (codec : FrameCodec) (rows : List HeaderRow) (ceiling : Ceiling)
    (tip : Option Nat) (line start count : Nat) : Prop where
  aligned : ∀ k (hk : k < (servedRows rows ceiling start count).length),
    headerForHeight rows (start + k) = some (servedRows rows ceiling start count)[k] ∧
      ((headersHexUnder codec rows ceiling start count).drop (160 * k)).take 160 =
        hexEncode (codec.toBinary (servedRows rows ceiling start count)[k].wire)
  admitted : ∀ row ∈ servedRows rows ceiling start count, ceiling.admits row.height = true
  settled : (servedRangeUnder codec rows ceiling tip line start count).2 = true →
    (servedRows rows ceiling start count).map (·.height) = List.range' start count ∧
      ∃ t, tip = some t ∧ ∀ row ∈ servedRows rows ceiling start count, row.height + line < t

/-- A dense range: of its heights none has two active rows, and below one that has a row
each has one. -/
structure DenseRange (rows : List HeaderRow) (lo hi : Nat) : Prop where
  single : ∀ r ∈ rows, ∀ r' ∈ rows, r.isActive = true → r'.isActive = true → lo ≤ r.height →
    r.height < hi → r.height = r'.height → r = r'
  filled : ∀ r ∈ rows, r.isActive = true → lo ≤ r.height → r.height < hi →
    ∀ h, lo ≤ h → h < r.height → ∃ r' ∈ rows, r'.isActive = true ∧ r'.height = h

section Places

variable {codec : FrameCodec} {rows : List HeaderRow} {ceiling : Ceiling} {tip : Option Nat}
  {line start count lo hi : Nat} {r : HeaderRow}

/-- The text is the frames of the served rows, end to end. -/
theorem headersHexUnder_eq : headersHexUnder codec rows ceiling start count =
    (servedRows rows ceiling start count).flatMap fun row =>
      hexEncode (codec.toBinary row.wire) := by
  have hend : start + (rangeEnd ceiling start count - start) = rangeEnd ceiling start count :=
    Nat.add_sub_cancel' (le_max_left _ _)
  rw [headersHexUnder, getHeadersHex, hend, servedRows]
  split
  · rename_i hzero
    have hempty : activeHeadersFromTo rows start (rangeEnd ceiling start count) = [] := by
      rw [List.eq_nil_iff_forall_not_mem]
      rintro r hr
      have hr := (mem_activeHeadersFromTo.mp hr).2.2
      rw [rangeEnd, hzero, saturatingAdd] at hr
      omega
    rw [hempty]
    rfl
  · rfl

theorem length_frame (row : HeaderRow) : (hexEncode (codec.toBinary row.wire)).length = 160 := by
  rw [hexEncode, @Records.length_flatMap _ _ 2 _ _ (fun _ _ => rfl), codec.size]

/-- As many frames as rows. -/
theorem length_headersHexUnder : (headersHexUnder codec rows ceiling start count).length =
    160 * (servedRows rows ceiling start count).length := by
  rw [headersHexUnder_eq]
  exact Records.length_flatMap fun row _ => length_frame row

/-- A range ends with its ceiling, its count and the largest height. -/
theorem rangeEnd_le (h : start < rangeEnd ceiling start count) :
    rangeEnd ceiling start count ≤ start + count ∧ rangeEnd ceiling start count ≤ u32Max ∧
      ∀ height < rangeEnd ceiling start count, ceiling.admits height = true := by
  have hclip : rangeEnd ceiling start count ≤ start + ceiling.clip start count ∧
      rangeEnd ceiling start count ≤ u32Max := by
    rw [rangeEnd, saturatingAdd] at h ⊢
    omega
  refine ⟨?_, hclip.2, ?_⟩
  · cases ceiling with
    | all => exact hclip.1
    | nothing => exact hclip.1.trans (Nat.add_le_add_left (Nat.zero_le _) _)
    | upTo c =>
      have hle : (Ceiling.upTo c).clip start count ≤ count := by
        rw [Ceiling.clip]
        split
        · exact min_le_left _ _
        · exact Nat.zero_le _
      omega
  · rintro height hheight
    cases ceiling with
    | all => rfl
    | nothing =>
      have hnone : Ceiling.nothing.clip start count = 0 := rfl
      omega
    | upTo c =>
      have hle : (Ceiling.upTo c).clip start count ≤ c + 1 - start := by
        rw [Ceiling.clip]
        split
        · have := Nat.mod_le (c - start + 1) (2 ^ 32)
          omega
        · exact Nat.zero_le _
      rw [Ceiling.admits, decide_eq_true_eq]
      omega

theorem mem_servedRows : r ∈ servedRows rows ceiling start count ↔
    r ∈ rows ∧ r.isActive = true ∧ start ≤ r.height ∧ r.height < rangeEnd ceiling start count :=
  mem_activeHeadersFromTo

theorem servedRows_ascending :
    (servedRows rows ceiling start count).Pairwise fun a b => a.height ≤ b.height :=
  List.pairwise_insertionSort (fun a b : HeaderRow => a.height ≤ b.height) _

/-- No row is served twice. -/
theorem servedRows_nodup (t : HeaderTable) : (servedRows t.rows ceiling start count).Nodup := by
  have hrows : t.rows.Nodup := List.Nodup.of_map _ t.uniqueHash
  exact (List.perm_insertionSort _ _).nodup_iff.mpr (hrows.filter _)

/-- **The heights of a dense range** count up from its start. -/
theorem DenseRange.heights {t : HeaderTable}
    (h : DenseRange t.rows start (rangeEnd ceiling start count)) :
    (servedRows t.rows ceiling start count).map (·.height) =
      List.range' start (servedRows t.rows ceiling start count).length := by
  have hsorted : ((servedRows t.rows ceiling start count).map (·.height)).Pairwise (· < ·) := by
    rw [List.pairwise_map]
    refine (servedRows_ascending.and (servedRows_nodup t)).imp_of_mem fun {a b} ha hb hab => ?_
    refine Nat.lt_of_le_of_ne hab.1 fun heq => hab.2 ?_
    obtain ⟨hamem, haact, halo, hahi⟩ := mem_servedRows.mp ha
    obtain ⟨hbmem, hbact, -⟩ := mem_servedRows.mp hb
    exact h.single a hamem b hbmem haact hbact halo hahi heq
  have hrange := Records.eq_range'_of_down (a := start) hsorted ?_ ?_
  · rwa [List.length_map] at hrange
  · rintro x hx
    obtain ⟨r, hr, rfl⟩ := List.mem_map.mp hx
    exact (mem_servedRows.mp hr).2.2.1
  · rintro x hx y hy hyx
    obtain ⟨r, hr, rfl⟩ := List.mem_map.mp hx
    obtain ⟨hmem, hact, hlo, hhi⟩ := mem_servedRows.mp hr
    obtain ⟨r', hr', hact', rfl⟩ := h.filled r hmem hact hlo hhi y hy hyx
    exact List.mem_map.mpr ⟨r', mem_servedRows.mpr ⟨hr', hact', hy, hyx.trans hhi⟩, rfl⟩

/-- The height of a place. -/
theorem height_of_heights {l : List HeaderRow} (h : l.map (·.height) = List.range' start l.length)
    (k : Nat) (hk : k < l.length) : l[k].height = start + k := by
  have hget := congrArg (·[k]?) h
  simp only [List.getElem?_map, List.getElem?_eq_getElem hk, Option.map_some] at hget
  rw [List.getElem?_range' hk, Option.some_inj] at hget
  omega

end Places

section Faithful

variable {codec : FrameCodec} {t : HeaderTable} {ceiling : Ceiling} {tip : Option Nat}
  {line start count : Nat}

/-- On a dense range the row of a place is the one its height is answered by. -/
theorem DenseRange.headerForHeight_eq
    (h : DenseRange t.rows start (rangeEnd ceiling start count)) (k : Nat)
    (hk : k < (servedRows t.rows ceiling start count).length) :
    headerForHeight t.rows (start + k) = some (servedRows t.rows ceiling start count)[k] := by
  have hheight := height_of_heights h.heights k hk
  obtain ⟨hmem, hact, hlo, hhi⟩ := mem_servedRows.mp (List.getElem_mem hk)
  refine topmost_eq_of_forall ?_ ?_
  · rw [List.mem_filter, Bool.and_eq_true, beq_iff_eq]
    exact ⟨hmem, hact, hheight⟩
  · rintro r hr
    rw [List.mem_filter, Bool.and_eq_true, beq_iff_eq] at hr
    exact (h.single _ hmem r hr.1 hact hr.2.1 hlo hhi (hheight.trans hr.2.2.symm)).symm

/-- The frame of a place is its row's. -/
theorem frame_of_place (k : Nat) (hk : k < (servedRows t.rows ceiling start count).length) :
    ((headersHexUnder codec t.rows ceiling start count).drop (160 * k)).take 160 =
      hexEncode (codec.toBinary (servedRows t.rows ceiling start count)[k].wire) := by
  rw [headersHexUnder_eq]
  exact Records.slice_flatMap (fun row _ => length_frame row) hk

/-- The last height of a range is not cut off. -/
theorem served_height_le {r : HeaderRow} (hr : r ∈ servedRows t.rows ceiling start count) :
    r.height < start + count ∧ r.height < u32Max ∧ ceiling.admits r.height = true := by
  obtain ⟨-, -, hlo, hhi⟩ := mem_servedRows.mp hr
  obtain ⟨hcount, hmax, hadmits⟩ := rangeEnd_le (hlo.trans_lt hhi)
  exact ⟨hhi.trans_le hcount, hhi.trans_le hmax, hadmits _ hhi⟩

/-- **On a dense range the count of the frames tells**: a range called settled has one
header for each height asked for, below the line. -/
theorem DenseRange.settled (h : DenseRange t.rows start (rangeEnd ceiling start count))
    (hsettled : (servedRangeUnder codec t.rows ceiling tip line start count).2 = true) :
    (servedRows t.rows ceiling start count).map (·.height) = List.range' start count ∧
      ∃ top, tip = some top ∧
        ∀ row ∈ servedRows t.rows ceiling start count, row.height + line < top := by
  have hheights := h.heights
  have hplace := height_of_heights hheights
  rw [servedRangeUnder, length_headersHexUnder, Nat.mul_div_cancel_left _ (by decide)] at hsettled
  simp only [Bool.and_eq_true, beq_iff_eq, decide_eq_true_eq] at hsettled
  obtain ⟨⟨hcount, hpos⟩, hedge⟩ := hsettled
  have hmod := Nat.mod_le (servedRows t.rows ceiling start count).length (2 ^ 32)
  -- the last row of the range bounds how many there are
  have hlast := hplace ((servedRows t.rows ceiling start count).length - 1) (by omega)
  have hbound := served_height_le (List.getElem_mem
    (by omega : (servedRows t.rows ceiling start count).length - 1 <
      (servedRows t.rows ceiling start count).length))
  have hlen : (servedRows t.rows ceiling start count).length = count := by omega
  refine ⟨by rw [hheights, hlen], ?_⟩
  rw [edgeSettled, Option.any_eq_true] at hedge
  obtain ⟨top, rfl, hedge⟩ := hedge
  refine ⟨top, rfl, ?_⟩
  rintro row hrow
  obtain ⟨k, hk, rfl⟩ := List.mem_iff_getElem.mp hrow
  rw [hcount, saturatingAdd, Bool.and_eq_true, decide_eq_true_eq, decide_eq_true_eq] at hedge
  rw [hplace k hk]
  omega

/-- **Exactly the dense ranges are served faithfully.** Of every table, for every ceiling,
every served tip, every line and every range: each frame of the answer is that of the
header at the height of its place, none is above the ceiling, and settled means one header
for each height asked for, below the line, if and only if of the range's heights none has
two active rows and below one that has a row each has one. -/
theorem rangeFaithful_iff (codec : FrameCodec) (t : HeaderTable) (ceiling : Ceiling)
    (tip : Option Nat) (line start count : Nat) :
    RangeFaithful codec t.rows ceiling tip line start count ↔
      DenseRange t.rows start (rangeEnd ceiling start count) := by
  constructor
  · rintro ⟨haligned, -, -⟩
    have hplace : ∀ k (hk : k < (servedRows t.rows ceiling start count).length),
        (servedRows t.rows ceiling start count)[k].height = start + k := by
      rintro k hk
      have hmem := topmost_mem (haligned k hk).1
      rw [List.mem_filter, Bool.and_eq_true, beq_iff_eq] at hmem
      exact hmem.2.2
    have hserved : ∀ r ∈ t.rows, r.isActive = true → start ≤ r.height →
        r.height < rangeEnd ceiling start count →
        ∃ k, ∃ hk : k < (servedRows t.rows ceiling start count).length,
          (servedRows t.rows ceiling start count)[k] = r := by
      rintro r hr hact hlo hhi
      exact List.mem_iff_getElem.mp (mem_servedRows.mpr ⟨hr, hact, hlo, hhi⟩)
    constructor
    · rintro r hr r' hr' hact hact' hlo hhi heq
      obtain ⟨k, hk, rfl⟩ := hserved r hr hact hlo hhi
      obtain ⟨k', hk', rfl⟩ := hserved r' hr' hact' (heq ▸ hlo) (heq ▸ hhi)
      rw [hplace k hk, hplace k' hk', Nat.add_left_cancel_iff] at heq
      subst heq
      rfl
    · rintro r hr hact hlo hhi h hh hlt
      obtain ⟨k, hk, rfl⟩ := hserved r hr hact hlo hhi
      rw [hplace k hk] at hlt
      have hj : h - start < (servedRows t.rows ceiling start count).length := by omega
      obtain ⟨hmem, hact', -⟩ := mem_servedRows.mp (List.getElem_mem hj)
      exact ⟨_, hmem, hact', by rw [hplace _ hj]; omega⟩
  · rintro h
    exact ⟨fun k hk => ⟨h.headerForHeight_eq k hk, frame_of_place k hk⟩,
      fun row hrow => (served_height_le hrow).2.2, h.settled⟩

end Faithful

/-! ### A hole made up for -/

namespace Regtest

/-- A block at a height far above the others. -/
def anchorB3 : BlockHeader := { b3 with height := headersPerFile }

/-- The checkpoints that name it. -/
def checkpointsB3 : List (Nat × String) := [(0, genesis.hash), (headersPerFile, b3.hash)]

theorem checkpointsB3_ascending : checkpointsB3.Pairwise fun a b => a.1 < b.1 :=
  List.pairwise_pair.mpr (show 0 < headersPerFile by decide)

theorem checkpointsB3_lowercase :
    ∀ c ∈ checkpointsB3, toAsciiLowercase c.2 = asBytes c.2 := by
  simp only [checkpointsB3, List.mem_cons, List.not_mem_nil, or_false, forall_eq_or_imp, forall_eq]
  decide +kernel

/-- The network with that block as a checkpoint. -/
def anchoredB3 : ChainParams where
  network := params.network
  bsv := bsv
  pow := pow
  genesisHash := genesis.hash
  checkpoints := checkpointsB3
  ascending := checkpointsB3_ascending
  lowercase := checkpointsB3_lowercase

/-- Two headers backfilled above the genesis block, a rival of the first inserted beside
it, and a push that anchors at the checkpoint. -/
def crowdedApart : Store :=
  (runAll host anchoredB3 [.insertHeader genesis, .backfillWrite [a1, a2], .insertHeader b1,
    .ingestPushed [anchorB3]] .init).db

end Regtest

open Regtest in
/-- **A hole made up for by a rival.** Of the four heights asked for the first is served
once, the second twice, the third once and the fourth not at all: four frames, so the range
is called settled. -/
theorem settled_hole :
    (servedRange frameCodec crowdedApart 400 0 4).2 = true ∧
      headerForHeight crowdedApart.rows 3 = none ∧
      ¬RangeFaithful frameCodec crowdedApart.rows (servedCeiling crowdedApart.sync)
        ((servedTip crowdedApart).map (·.height)) 400 0 4 := by
  have hsettled : (servedRange frameCodec crowdedApart 400 0 4).2 = true := by decide +kernel
  refine ⟨hsettled, by decide +kernel, ?_⟩
  rintro h
  have hheights := (h.settled hsettled).1
  have hrows : (servedRows crowdedApart.rows (servedCeiling crowdedApart.sync) 0 4).map
      (·.height) = [0, 1, 1, 2] := by decide +kernel
  rw [hrows] at hheights
  exact absurd hheights (by decide)

end Chaintracks

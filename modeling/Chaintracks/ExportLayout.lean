import Chaintracks.Export
import Chaintracks.Runs
import Chaintracks.Regtest

/-!
# The layout of the exported files

The guards of a file do not reach past it. A file whose rows stop before its end passes
both, and an empty one is left out of the index, so the file above it is published over a
hole; nothing compares the last header of a file with the first of the next; and inside
a file a header that names the one before it may still stand more than one height above
it, or at the same. `Chaintracks.Continuous` is what the export takes for granted: with
it, and only with it, what passes the guards is laid out as a reader reads it
(`Chaintracks.positionFaithful_iff`).

Both directions go through one statement about the rows alone, `Chaintracks.InPlace`: of
the files' rows, one after the other, each stands at the height that is its position.
-/

namespace Chaintracks

open HeaderRows

/-! ### What a reader relies on -/

section Faithful

variable (bsv : BsvRs) (codec : FrameCodec) (rows : List HeaderRow)

/-- Two files link: the first frame of the later names the last of the earlier. -/
def FilesLink (earlier later : List UInt8) : Prop :=
  ∃ x y, codec.fromBinary (earlier.drop (earlier.length - 80)) = .ok x ∧
    codec.fromBinary (later.take 80) = .ok y ∧ codec.Names bsv y x

/-- **Files laid out by position**: up to the last height the index declares, the frame of
the active header of a height stands at eighty times that height; every file but the last
is full, and none holds more; and each file links to the one before it. -/
structure PositionFaithful (files : List (BulkFileEntry × List UInt8)) : Prop where
  placed : ∀ last, files.getLast? = some last → ∀ h < last.1.firstHeight + last.1.count,
    ∃ row, headerForHeight rows h = some row ∧
      ((files.flatMap (·.2)).drop (80 * h)).take 80 = codec.toBinary row.wire
  full : ∀ f ∈ files.dropLast, f.1.count = headersPerFile
  atMost : ∀ f ∈ files, f.1.count ≤ headersPerFile
  counted : ∀ f ∈ files, f.2.length = 80 * f.1.count
  linked : files.IsChain fun f g => FilesLink bsv codec f.2 g.2

/-- The active rows up to a height have no hole, no duplicate and no broken link. -/
structure RegularTo (height : Nat) : Prop where
  filled : ∀ h ≤ height, ∃ r ∈ rows, r.isActive = true ∧ r.height = h
  single : ∀ r ∈ rows, ∀ r' ∈ rows, r.isActive = true → r'.isActive = true → r.height ≤ height →
    r'.height = r.height → r' = r
  linked : ∀ r ∈ rows, ∀ r' ∈ rows, r.isActive = true → r'.isActive = true →
    r'.height ≤ height → r'.height = r.height + 1 → codec.Names bsv r'.wire r.wire

/-- **A position-faithful export**: whenever it answers, the files its index lists are laid
out by position; and over rows that are not regular up to the flagged tip it ends in an
error. -/
def ExportFaithful (chain cdnBaseUrl : String) : Prop :=
  (∀ fails bucket result bucket',
    exportAll bsv codec chain cdnBaseUrl fails rows bucket = (.ok result, bucket') →
      ∃ files, bucket'.listed chain = some files ∧ PositionFaithful bsv codec rows files) ∧
  ∀ tip, chainTip rows = some tip → ¬RegularTo bsv codec rows tip.height → ∀ fails bucket,
    ∃ e, (exportAll bsv codec chain cdnBaseUrl fails rows bucket).1 = .error e

/-- The guards pass every file that has rows. -/
def GuardsPass : Prop :=
  ∀ i < numFiles rows, fileRows rows i ≠ [] →
    fileGuards bsv codec rows i (rowBytes codec (fileRows rows i)) = .ok ()

/-- **What the guards take for granted**: an active row stands at the flagged tip's height;
just below the first height of a file with rows one stands too, and the file's first row
names it; and of two rows read one after the other of which the later names the earlier,
the later stands one above. -/
structure Continuous : Prop where
  flagged : ∀ tip, chainTip rows = some tip → ∃ r ∈ rows, r.isActive = true ∧
    r.height = tip.height
  boundary : ∀ i, i + 1 < numFiles rows → fileRows rows (i + 1) ≠ [] →
    ∃ a ∈ rows, ∃ b ∈ rows, (a.isActive = true ∧ a.height + 1 = (i + 1) * headersPerFile) ∧
      (b.isActive = true ∧ b.height = (i + 1) * headersPerFile) ∧ codec.Names bsv b.wire a.wire
  steady : ∀ i < numFiles rows, (fileRows rows i).IsChain fun a b =>
    codec.Names bsv b.wire a.wire → b.height = a.height + 1

end Faithful

/-! ### Rows in place -/

section InPlace

variable {bsv : BsvRs} {codec : FrameCodec} {rows : List HeaderRow} {r r' : HeaderRow} {n i k : Nat}

/-- The rows of the first files, one file after the other. -/
def exportedRows (rows : List HeaderRow) (n : Nat) : List HeaderRow :=
  (List.range n).flatMap (fileRows rows)

/-- Every exported row stands at the height that is its position. -/
def InPlace (rows : List HeaderRow) (n : Nat) : Prop :=
  (exportedRows rows n).map (·.height) = List.range (exportedRows rows n).length

theorem exportedRows_succ :
    exportedRows rows (n + 1) = exportedRows rows n ++ fileRows rows n := by
  rw [exportedRows, exportedRows, List.range_succ, List.flatMap_append, List.flatMap_singleton]

theorem mem_exportedRows : r ∈ exportedRows rows n ↔
    r ∈ rows ∧ r.isActive = true ∧ r.height < n * headersPerFile := by
  have hpos := headersPerFile_pos
  rw [exportedRows, List.mem_flatMap]
  constructor
  · rintro ⟨i, hi, hr⟩
    obtain ⟨hr, ha, -, hlt⟩ := mem_fileRows.mp hr
    have hle : (i + 1) * headersPerFile ≤ n * headersPerFile :=
      Nat.mul_le_mul_right _ (List.mem_range.mp hi)
    rw [Nat.succ_mul] at hle
    exact ⟨hr, ha, by omega⟩
  · rintro ⟨hr, ha, hlt⟩
    have hdiv := Nat.div_add_mod r.height headersPerFile
    have hmod := Nat.mod_lt r.height hpos
    rw [Nat.mul_comm] at hdiv
    exact ⟨r.height / headersPerFile, List.mem_range.mpr (Nat.div_lt_of_lt_mul
      (by rwa [Nat.mul_comm])), mem_fileRows.mpr ⟨hr, ha, by omega, by omega⟩⟩

theorem exportedRows_ascending :
    (exportedRows rows n).Pairwise fun a b => a.height ≤ b.height := by
  rw [exportedRows, List.pairwise_flatMap]
  refine ⟨fun i _ => fileRows_ascending, List.pairwise_lt_range.imp fun {i j} hij => ?_⟩
  intro x hx y hy
  have hx := (mem_fileRows.mp hx).2.2.2
  have hy := (mem_fileRows.mp hy).2.2.1
  have hle : (i + 1) * headersPerFile ≤ j * headersPerFile := Nat.mul_le_mul_right _ hij
  rw [Nat.succ_mul] at hle
  omega

/-- Files without rows add nothing. -/
theorem flatMap_listedFiles {β : Type} (f : HeaderRow → List β) (l : List Nat) :
    (listedFiles rows l).flatMap (fun i => (fileRows rows i).flatMap f) =
      l.flatMap fun i => (fileRows rows i).flatMap f := by
  induction l with
  | nil => rfl
  | cons i l ih =>
    rw [listedFiles, List.filter_cons, List.flatMap_cons, ← ih]
    by_cases hrows : fileRows rows i = []
    · rw [if_neg (by simpa using hrows), hrows]
      rfl
    · rw [if_pos (by simpa using hrows), List.flatMap_cons]
      rfl

namespace InPlace

variable (h : InPlace rows n)

include h

theorem eq_of_height (hr : r ∈ exportedRows rows n) (hr' : r' ∈ exportedRows rows n)
    (heq : r'.height = r.height) : r' = r := by
  have hnodup : ((exportedRows rows n).map (·.height)).Nodup := by
    rw [h]
    exact List.nodup_range
  exact List.inj_on_of_nodup_map hnodup hr' hr heq

theorem exists_iff : (∃ r ∈ exportedRows rows n, r.height = k) ↔
    k < (exportedRows rows n).length := by
  rw [← List.mem_range, ← h, List.mem_map]

/-- The row of a position stands at that height. -/
theorem height_getElem (hk : k < (exportedRows rows n).length) :
    (exportedRows rows n)[k].height = k := by
  have hget := List.getElem_map (fun r : HeaderRow => r.height) (l := exportedRows rows n)
    (i := k) (h := by rwa [List.length_map])
  rw [← hget]
  simp only [show (exportedRows rows n).map (·.height) = _ from h, List.getElem_range]

/-- The store answers the row of a position for its height. -/
theorem headerForHeight_eq (hk : k < (exportedRows rows n).length) :
    headerForHeight rows k = some (exportedRows rows n)[k] := by
  have hmem := List.getElem_mem hk
  obtain ⟨hin, ha, hlt⟩ := mem_exportedRows.mp hmem
  have hheight := h.height_getElem hk
  refine topmost_eq_of_forall ?_ fun r hr => ?_
  · rw [List.mem_filter, Bool.and_eq_true, beq_iff_eq]
    exact ⟨hin, ha, hheight⟩
  · rw [List.mem_filter, Bool.and_eq_true, beq_iff_eq] at hr
    obtain ⟨hr, hra, hrk⟩ := hr
    exact h.eq_of_height hmem (mem_exportedRows.mpr ⟨hr, hra, by omega⟩) (by omega)

/-- **The heights of a file** are a stretch from its first height on. -/
theorem fileHeights (hi : i < n) : (fileRows rows i).map (·.height) =
    List.range' (i * headersPerFile)
      (min headersPerFile ((exportedRows rows n).length - i * headersPerFile)) := by
  have hsub : (fileRows rows i).Sublist (exportedRows rows n) := by
    rw [exportedRows, List.flatMap_def]
    exact List.sublist_flatten_of_mem (List.mem_map_of_mem (List.mem_range.mpr hi))
  have hnodup : ((fileRows rows i).map (·.height)).Nodup := by
    refine List.Nodup.sublist (hsub.map _) ?_
    rw [h]
    exact List.nodup_range
  have hmem : ∀ k, k ∈ (fileRows rows i).map (·.height) ↔ k ∈ List.range' (i * headersPerFile)
      (min headersPerFile ((exportedRows rows n).length - i * headersPerFile)) := by
    intro k
    rw [List.mem_map, List.mem_range'_1]
    constructor
    · rintro ⟨r, hr, rfl⟩
      have hlt := h.exists_iff.mp ⟨r, hsub.subset hr, rfl⟩
      obtain ⟨-, -, hlo, hhi⟩ := mem_fileRows.mp hr
      omega
    · rintro ⟨hlo, hhi⟩
      obtain ⟨r, hr, rfl⟩ := h.exists_iff.mpr (by omega : k < (exportedRows rows n).length)
      obtain ⟨hr, ha, -⟩ := mem_exportedRows.mp hr
      exact ⟨r, mem_fileRows.mpr ⟨hr, ha, by omega, by omega⟩, rfl⟩
  exact ((List.perm_ext_iff_of_nodup hnodup (List.nodup_range')).mpr hmem).eq_of_pairwise
    (fun a b _ _ => Nat.le_antisymm) (List.pairwise_map.mpr fileRows_ascending)
    List.pairwise_le_range'

theorem length_fileRows (hi : i < n) : (fileRows rows i).length =
    min headersPerFile ((exportedRows rows n).length - i * headersPerFile) := by
  have hlen := congrArg List.length (h.fileHeights hi)
  rwa [List.length_map, List.length_range'] at hlen

theorem fileRows_ne_nil_iff (hi : i < n) :
    fileRows rows i ≠ [] ↔ i * headersPerFile < (exportedRows rows n).length := by
  have hpos := headersPerFile_pos
  have hlen := h.length_fileRows hi
  rw [← List.length_pos_iff]
  omega

/-- **The listed files** are the first ones. -/
theorem listedFiles_eq : ∃ m ≤ n, listedFiles rows (List.range n) = List.range m := by
  refine Records.filter_range_of_down fun i hi hrows j hj => ?_
  rw [decide_eq_true_eq] at hrows ⊢
  have hlt := (h.fileRows_ne_nil_iff hi).mp hrows
  have hle : j * headersPerFile ≤ i * headersPerFile := Nat.mul_le_mul_right _ hj.le
  exact (h.fileRows_ne_nil_iff (hj.trans hi)).mpr (by omega)

/-- **Where two files meet**: the last row of the one stands just below the first of the
other. -/
theorem meet (hi : i + 1 < n) (hrows : fileRows rows (i + 1) ≠ []) :
    ∃ front x y back, fileRows rows i = front ++ [x] ∧ fileRows rows (i + 1) = y :: back ∧
      x.height + 1 = (i + 1) * headersPerFile ∧ y.height = (i + 1) * headersPerFile := by
  have hpos := headersPerFile_pos
  have hlt := (h.fileRows_ne_nil_iff hi).mp hrows
  have hbelow := h.fileHeights (Nat.lt_of_succ_lt hi)
  have habove := h.fileHeights hi
  rw [Nat.succ_mul] at hlt habove ⊢
  rw [Nat.min_eq_left (by omega)] at hbelow
  obtain ⟨y, back, hy⟩ := List.exists_cons_of_ne_nil hrows
  rcases List.eq_nil_or_concat (fileRows rows i) with hnil | ⟨front, x, hx⟩
  · rw [hnil] at hbelow
    have := congrArg List.length hbelow
    rw [List.length_range'] at this
    exact absurd this (by simpa using hpos.ne)
  rw [List.concat_eq_append] at hx
  refine ⟨front, x, y, back, hx, hy, ?_, ?_⟩
  · have hlast := congrArg List.getLast? hbelow
    rw [hx, List.map_append, List.map_singleton, List.getLast?_concat, List.getLast?_range',
      if_neg hpos.ne'] at hlast
    have := Option.some_inj.mp hlast
    omega
  · have hhead := congrArg List.head? habove
    rw [hy, List.map_cons, List.head?_cons, List.head?_range', if_neg (by omega)] at hhead
    exact Option.some_inj.mp hhead

end InPlace

/-! ### In place, from either side -/

theorem filesLink_iff {front back : List HeaderRow} {x y : HeaderRow} :
    FilesLink bsv codec (rowBytes codec (front ++ [x])) (rowBytes codec (y :: back)) ↔
      codec.Names bsv y.wire x.wire := by
  have hlast : (rowBytes codec (front ++ [x])).drop ((rowBytes codec (front ++ [x])).length - 80) =
      codec.toBinary x.wire := by
    have hsplit : rowBytes codec (front ++ [x]) = rowBytes codec front ++ codec.toBinary x.wire := by
      rw [rowBytes, List.flatMap_append, List.flatMap_singleton]
      rfl
    rw [hsplit, List.length_append, codec.size, Nat.add_sub_cancel, List.drop_left]
  have hfirst : (rowBytes codec (y :: back)).take 80 = codec.toBinary y.wire := by
    rw [rowBytes, List.flatMap_cons, List.take_left' (codec.size _)]
  rw [FilesLink, hlast, hfirst, codec.read, codec.read]
  constructor
  · rintro ⟨_, _, ⟨⟩, ⟨⟩, hnames⟩
    exact hnames
  · exact fun hnames => ⟨_, _, rfl, rfl, hnames⟩

/-- The rows of a file that passes name each other, and the first stands at the file's
first height. -/
theorem GuardsPass.file (hg : GuardsPass bsv codec rows) (hi : i < numFiles rows)
    (hrows : fileRows rows i ≠ []) :
    ((fileRows rows i).IsChain fun a b => codec.Names bsv b.wire a.wire) ∧
      ∀ first, (fileRows rows i).head? = some first → first.height = i * headersPerFile := by
  have hpass := hg i hi hrows
  obtain ⟨first, l, hl⟩ := List.exists_cons_of_ne_nil hrows
  rw [hl, fileGuards_iff] at hpass
  obtain ⟨⟨expected, hexpected, -⟩, hnames⟩ := hpass
  refine ⟨hl ▸ hnames, fun first' hfirst => ?_⟩
  rw [hl, List.head?_cons, Option.some_inj] at hfirst
  subst hfirst
  have hmem := topmost_mem hexpected
  rw [List.mem_filter, Bool.and_eq_true, beq_iff_eq] at hmem
  obtain ⟨hmem, ha, hheight⟩ := hmem
  have hin : expected ∈ fileRows rows i :=
    mem_fileRows.mpr ⟨hmem, ha, hheight.ge, by have := headersPerFile_pos; omega⟩
  have hlo : i * headersPerFile ≤ first.height :=
    (mem_fileRows.mp (hl ▸ List.mem_cons_self : first ∈ fileRows rows i)).2.2.1
  have hsorted := @fileRows_ascending rows i
  rw [hl] at hsorted hin
  rcases List.mem_cons.mp hin with rfl | hin
  · exact hheight
  · have := List.rel_of_pairwise_cons hsorted hin
    omega

/-- Where the guards pass and neighbours stand one above the other, a file's heights count
up from its first. -/
theorem Continuous.fileHeights (hc : Continuous bsv codec rows) (hg : GuardsPass bsv codec rows)
    (hi : i < numFiles rows) : (fileRows rows i).map (·.height) =
      List.range' (i * headersPerFile) (fileRows rows i).length := by
  by_cases hrows : fileRows rows i = []
  · rw [hrows]
    rfl
  obtain ⟨hnames, hfirst⟩ := hg.file hi hrows
  obtain ⟨first, l, hl⟩ := List.exists_cons_of_ne_nil hrows
  have hsteps : (fileRows rows i).IsChain fun a b => b.height = a.height + 1 := by
    have hsteady := hc.steady i hi
    rw [List.isChain_iff_getElem] at hnames hsteady ⊢
    exact fun k hk => hsteady k hk (hnames k hk)
  have hheights : ((fileRows rows i).map (·.height)).IsChain fun x y => y = x + 1 :=
    (List.isChain_map _).mpr hsteps
  rw [hl, List.map_cons] at hheights
  rw [hl] at hfirst ⊢
  rw [← hfirst first rfl, List.map_cons, Records.eq_range'_of_steps hheights, List.length_map,
    List.length_cons]

/-- **From the guards**: with what they take for granted every exported row is in place. -/
theorem Continuous.inPlace (hc : Continuous bsv codec rows) (hg : GuardsPass bsv codec rows) :
    InPlace rows (numFiles rows) := by
  have hfull : ∀ i, i + 1 < numFiles rows → fileRows rows (i + 1) ≠ [] →
      (fileRows rows i).length = headersPerFile := by
    intro i hi hrows
    obtain ⟨a, ha, -, -, ⟨hact, hheight⟩, -, -⟩ := hc.boundary i hi hrows
    rw [Nat.succ_mul] at hheight
    have hheights := hc.fileHeights hg (Nat.lt_of_succ_lt hi)
    have hin : a ∈ fileRows rows i := mem_fileRows.mpr ⟨ha, hact, by
      have := headersPerFile_pos
      omega, by omega⟩
    have hmem := List.mem_map_of_mem (f := fun r : HeaderRow => r.height) hin
    rw [hheights, List.mem_range'_1] at hmem
    -- the last of the file's heights is still one of the file's
    have hpos : (fileRows rows i).length ≠ 0 := List.length_pos_of_mem hin |>.ne'
    have hlast : i * headersPerFile + ((fileRows rows i).length - 1) ∈
        (fileRows rows i).map (·.height) := by
      rw [hheights, List.mem_range'_1]
      omega
    obtain ⟨r, hr, hrh⟩ := List.mem_map.mp hlast
    have := (mem_fileRows.mp hr).2.2.2
    omega
  have hall : ∀ m ≤ numFiles rows, InPlace rows m ∧ (m < numFiles rows → fileRows rows m ≠ [] →
      (exportedRows rows m).length = m * headersPerFile) := by
    intro m
    induction m with
    | zero => exact fun _ => ⟨rfl, fun _ _ => (Nat.zero_mul _).symm⟩
    | succ m ih =>
      intro hm
      obtain ⟨hplace, hlen⟩ := ih (Nat.le_of_succ_le hm)
      rw [InPlace, exportedRows_succ, List.map_append, List.length_append]
      by_cases hrows : fileRows rows m = []
      · rw [hrows, List.map_nil, List.append_nil, List.length_nil, Nat.add_zero]
        refine ⟨hplace, fun hm' hrows' => ?_⟩
        have := hfull m hm' hrows'
        rw [hrows] at this
        exact absurd this headersPerFile_pos.ne
      · rw [hlen hm hrows, show (exportedRows rows m).map (·.height) = _ from hplace,
          hc.fileHeights hg hm, hlen hm hrows]
        refine ⟨?_, fun hm' hrows' => ?_⟩
        · rw [List.range_eq_range', List.range_eq_range', ← List.range'_append_1, Nat.zero_add]
        · rw [hfull m hm' hrows', Nat.succ_mul]
  exact (hall _ le_rfl).1

section Listed

variable {chain cdnBaseUrl : String}

/-- The listed files hold the exported rows, laid end to end. -/
theorem flatMap_publishedFile : ((listedFiles rows (List.range n)).map
    (publishedFile codec chain cdnBaseUrl rows)).flatMap (·.2) =
      rowBytes codec (exportedRows rows n) := by
  rw [List.flatMap_map, rowBytes, exportedRows, List.flatMap_assoc]
  exact flatMap_listedFiles _ _

/-- **From the layout**: what a reader relies on puts every exported row in place. -/
theorem PositionFaithful.inPlace (hf : PositionFaithful bsv codec rows
    ((listedFiles rows (List.range n)).map (publishedFile codec chain cdnBaseUrl rows))) :
    InPlace rows n := by
  have hlen : (exportedRows rows n).length =
      ((listedFiles rows (List.range n)).map fun i => (fileRows rows i).length).sum := by
    have hflat := @flatMap_listedFiles rows HeaderRow (fun r => [r]) (List.range n)
    simp only [List.flatMap_singleton'] at hflat
    rw [exportedRows, ← hflat, List.length_flatMap]
  have hcover : ∀ k < (exportedRows rows n).length,
      k ∈ (exportedRows rows n).map (·.height) := by
    rcases List.eq_nil_or_concat (listedFiles rows (List.range n)) with hnil | ⟨front, k, hk⟩
    · rw [hnil] at hlen
      exact fun k hk => absurd (hk.trans_eq hlen) (Nat.not_lt_zero k)
    rw [List.concat_eq_append] at hk
    have hin : k ∈ List.range n := (List.mem_filter.mp (hk ▸ List.mem_append_right _
      List.mem_cons_self : k ∈ listedFiles rows (List.range n))).1
    rw [hk, List.map_append, List.map_singleton] at hf
    have hlast := hf.placed _ List.getLast?_concat
    have hmost : (fileRows rows k).length ≤ headersPerFile :=
      hf.atMost _ (List.mem_append_right _ List.mem_cons_self)
    have hfull : ∀ i ∈ front, (fileRows rows i).length = headersPerFile := fun i hi =>
      hf.full _ (by rw [List.dropLast_concat]; exact List.mem_map_of_mem hi)
    -- the listed files ascend, so no more than `k` come before the last
    have hsorted : (front ++ [k]).Pairwise (· < ·) := by
      rw [← hk]
      exact List.pairwise_lt_range.filter _
    have hbelow : front.length ≤ k := by
      rw [List.pairwise_append] at hsorted
      have hsub : front ⊆ List.range k := fun i hi =>
        List.mem_range.mpr (hsorted.2.2 i hi k List.mem_cons_self)
      have hnodup : front.Nodup := hsorted.1.imp Nat.ne_of_lt
      have := (List.subperm_of_subset hnodup hsub).length_le
      rwa [List.length_range] at this
    have htotal : (exportedRows rows n).length ≤
        k * headersPerFile + (fileRows rows k).length := by
      rw [hlen, hk, List.map_append, List.sum_append, List.map_singleton, List.sum_singleton,
        List.map_congr_left hfull, List.map_const', List.sum_replicate, smul_eq_mul]
      exact Nat.add_le_add_right (Nat.mul_le_mul_right _ hbelow) _
    intro h hh
    obtain ⟨row, hrow, -⟩ := hlast h (by
      change h < k * headersPerFile + (fileRows rows k).length
      omega)
    have hmem := topmost_mem hrow
    rw [List.mem_filter, Bool.and_eq_true, beq_iff_eq] at hmem
    obtain ⟨hmem, ha, rfl⟩ := hmem
    refine List.mem_map_of_mem (mem_exportedRows.mpr ⟨hmem, ha, ?_⟩)
    have hle : (k + 1) * headersPerFile ≤ n * headersPerFile :=
      Nat.mul_le_mul_right _ (List.mem_range.mp hin)
    rw [Nat.succ_mul] at hle
    omega
  have heq := Records.eq_range_of_cover (List.pairwise_map.mpr exportedRows_ascending)
    (by rwa [List.length_map])
  rwa [List.length_map] at heq

/-- Rows in place in files that link are laid out by position. -/
theorem InPlace.positionFaithful (h : InPlace rows n)
    (hlink : ∀ i, i + 1 < n → fileRows rows (i + 1) ≠ [] → FilesLink bsv codec
      (rowBytes codec (fileRows rows i)) (rowBytes codec (fileRows rows (i + 1)))) :
    PositionFaithful bsv codec rows
      ((listedFiles rows (List.range n)).map (publishedFile codec chain cdnBaseUrl rows)) := by
  obtain ⟨m, hm, hl⟩ := h.listedFiles_eq
  have hrows : ∀ i < m, fileRows rows i ≠ [] := fun i hi => by
    have hin : i ∈ listedFiles rows (List.range n) := hl ▸ List.mem_range.mpr hi
    simpa using (List.mem_filter.mp hin).2
  have hlen : ∀ i < m, (fileRows rows i).length =
      min headersPerFile ((exportedRows rows n).length - i * headersPerFile) := fun i hi =>
    h.length_fileRows (hi.trans_le hm)
  refine ⟨?_, ?_, ?_, ?_, ?_⟩
  · intro last hlast k hk
    have hkn : k < (exportedRows rows n).length := by
      rw [hl] at hlast
      cases m with
      | zero => cases hlast
      | succ m =>
        rw [List.range_succ, List.map_append, List.map_singleton, List.getLast?_concat,
          Option.some_inj] at hlast
        subst hlast
        have hk : k < m * headersPerFile + (fileRows rows m).length := hk
        have hlt := (h.fileRows_ne_nil_iff hm).mp (hrows m (Nat.lt_succ_self m))
        rw [hlen m (Nat.lt_succ_self m)] at hk
        omega
    refine ⟨_, h.headerForHeight_eq hkn, ?_⟩
    rw [flatMap_publishedFile]
    exact Records.slice_flatMap (fun _ _ => codec.size _) hkn
  · rw [hl]
    cases m with
    | zero => exact fun f hf => absurd hf List.not_mem_nil
    | succ m =>
      rw [List.range_succ, List.map_append, List.map_singleton, List.dropLast_concat]
      intro f hf
      obtain ⟨i, hi, rfl⟩ := List.mem_map.mp hf
      have hi := List.mem_range.mp hi
      have hlt := (h.fileRows_ne_nil_iff hm).mp (hrows m (Nat.lt_succ_self m))
      have hle : (i + 1) * headersPerFile ≤ m * headersPerFile := Nat.mul_le_mul_right _ hi
      rw [Nat.succ_mul] at hle
      change (fileRows rows i).length = headersPerFile
      rw [hlen i (Nat.lt_succ_of_lt hi)]
      omega
  · rw [hl]
    intro f hf
    obtain ⟨i, hi, rfl⟩ := List.mem_map.mp hf
    change (fileRows rows i).length ≤ headersPerFile
    rw [hlen i (List.mem_range.mp hi)]
    exact Nat.min_le_left _ _
  · intro f hf
    obtain ⟨i, hi, rfl⟩ := List.mem_map.mp hf
    exact length_rowBytes _
  · rw [hl, List.isChain_map, List.isChain_range]
    intro i hi
    exact hlink i (by omega) (hrows (i + 1) (by omega))

end Listed

/-- Two files of rows in place link where the row at the boundary names the one below. -/
theorem InPlace.filesLink_iff (h : InPlace rows n) (hi : i + 1 < n)
    (hrows : fileRows rows (i + 1) ≠ []) :
    FilesLink bsv codec (rowBytes codec (fileRows rows i))
        (rowBytes codec (fileRows rows (i + 1))) ↔
      ∃ a ∈ rows, ∃ b ∈ rows, (a.isActive = true ∧ a.height + 1 = (i + 1) * headersPerFile) ∧
        (b.isActive = true ∧ b.height = (i + 1) * headersPerFile) ∧
          codec.Names bsv b.wire a.wire := by
  obtain ⟨front, x, y, back, hx, hy, hxh, hyh⟩ := h.meet hi hrows
  have hxin : x ∈ fileRows rows i := hx ▸ List.mem_append_right _ List.mem_cons_self
  have hyin : y ∈ fileRows rows (i + 1) := hy ▸ List.mem_cons_self
  rw [hx, hy, Chaintracks.filesLink_iff]
  have hxr := mem_fileRows.mp hxin
  have hyr := mem_fileRows.mp hyin
  constructor
  · exact fun hnames => ⟨x, hxr.1, y, hyr.1, ⟨hxr.2.1, hxh⟩, ⟨hyr.2.1, hyh⟩, hnames⟩
  · rintro ⟨a, ha, b, hb, ⟨haa, hah⟩, ⟨hba, hbh⟩, hnames⟩
    have hle : (i + 1 + 1) * headersPerFile ≤ n * headersPerFile := Nat.mul_le_mul_right _ hi
    rw [Nat.succ_mul] at hle
    have hpos := headersPerFile_pos
    have hax : a = x := h.eq_of_height (mem_exportedRows.mpr ⟨hxr.1, hxr.2.1, by omega⟩)
      (mem_exportedRows.mpr ⟨ha, haa, by omega⟩) (by omega)
    have hby : b = y := h.eq_of_height (mem_exportedRows.mpr ⟨hyr.1, hyr.2.1, by omega⟩)
      (mem_exportedRows.mpr ⟨hb, hba, by omega⟩) (by omega)
    rwa [← hax, ← hby]

/-- Rows in place name each other across the files. -/
theorem InPlace.names (h : InPlace rows (numFiles rows)) (hg : GuardsPass bsv codec rows)
    (hlink : ∀ i, i + 1 < numFiles rows → fileRows rows (i + 1) ≠ [] → FilesLink bsv codec
      (rowBytes codec (fileRows rows i)) (rowBytes codec (fileRows rows (i + 1)))) :
    (exportedRows rows (numFiles rows)).IsChain fun a b => codec.Names bsv b.wire a.wire := by
  have hall : ∀ m ≤ numFiles rows,
      (exportedRows rows m).IsChain fun a b => codec.Names bsv b.wire a.wire := by
    intro m
    induction m with
    | zero => exact fun _ => List.isChain_nil
    | succ m ih =>
      intro hm
      rw [exportedRows_succ, List.isChain_append]
      refine ⟨ih (Nat.le_of_succ_le hm), ?_, fun x hx y hy => ?_⟩
      · by_cases hrows : fileRows rows m = []
        · rw [hrows]
          exact List.isChain_nil
        · exact (hg.file hm hrows).1
      · have hrows : fileRows rows m ≠ [] := fun hnil => by
          rw [hnil] at hy
          cases hy
        cases m with
        | zero => cases hx
        | succ m =>
          obtain ⟨front, x', y', back, hx', hy', -, -⟩ := h.meet hm hrows
          rw [exportedRows_succ, hx', ← List.append_assoc, List.getLast?_concat] at hx
          rw [hy', List.head?_cons] at hy
          cases hx
          cases hy
          have hnames := hlink m hm hrows
          rwa [hx', hy', Chaintracks.filesLink_iff] at hnames
  exact hall _ le_rfl

/-- **Rows in place are regular** up to every height that an active row stands at. -/
theorem InPlace.regularTo (h : InPlace rows n) {height : Nat}
    (htip : ∃ r ∈ rows, r.isActive = true ∧ r.height = height)
    (hheight : height < n * headersPerFile)
    (hnames : (exportedRows rows n).IsChain fun a b => codec.Names bsv b.wire a.wire) :
    RegularTo bsv codec rows height := by
  have hexported : ∀ r ∈ rows, r.isActive = true → r.height ≤ height →
      r ∈ exportedRows rows n := fun r hr ha hle =>
    mem_exportedRows.mpr ⟨hr, ha, hle.trans_lt hheight⟩
  obtain ⟨top, htop, htopa, rfl⟩ := htip
  have hlen : top.height < (exportedRows rows n).length :=
    h.exists_iff.mp ⟨top, hexported top htop htopa le_rfl, rfl⟩
  refine ⟨fun k hk => ?_, fun r hr r' hr' ha ha' hle heq => ?_,
    fun r hr r' hr' ha ha' hle hnext => ?_⟩
  · obtain ⟨r, hr, hrk⟩ := h.exists_iff.mpr (hk.trans_lt hlen)
    exact ⟨r, (mem_exportedRows.mp hr).1, (mem_exportedRows.mp hr).2.1, hrk⟩
  · exact h.eq_of_height (hexported r hr ha hle) (hexported r' hr' ha' (heq ▸ hle)) heq
  · have hk : r.height + 1 < (exportedRows rows n).length := by omega
    have hget : ∀ {x : HeaderRow} {k : Nat} (hk : k < (exportedRows rows n).length),
        x ∈ exportedRows rows n → x.height = k → x = (exportedRows rows n)[k] :=
      fun hk hx hxk => h.eq_of_height (List.getElem_mem hk) hx (by rw [h.height_getElem, hxk])
    have hstep := List.isChain_iff_getElem.mp hnames r.height hk
    rw [← hget (by omega) (hexported r hr ha (by omega)) rfl,
      ← hget hk (hexported r' hr' ha' hle) hnext] at hstep
    exact hstep

end InPlace

/-! ### The export is faithful where the guards may take it for granted -/

/-- The flagged tip's height is one of the files'. -/
theorem tip_lt_numFiles {rows : List HeaderRow} {tip : HeaderRow} (h : chainTip rows = some tip) :
    tip.height < numFiles rows * headersPerFile := by
  have hdiv := Nat.div_add_mod tip.height headersPerFile
  have hmod := Nat.mod_lt tip.height headersPerFile_pos
  rw [numFiles, h]
  dsimp only
  rw [Nat.succ_mul, Nat.mul_comm]
  omega

/-- **The bulk export is position-faithful** exactly over the rows of which, if every file's
guards pass, the guards may take for granted what they do (`Chaintracks.Continuous`). -/
theorem positionFaithful_iff (bsv : BsvRs) (codec : FrameCodec) (rows : List HeaderRow)
    (chain cdnBaseUrl : String) :
    ExportFaithful bsv codec rows chain cdnBaseUrl ↔
      (GuardsPass bsv codec rows → Continuous bsv codec rows) := by
  constructor
  · rintro ⟨hfaithful, hregular⟩ hg
    obtain ⟨result, bucket', hok⟩ := @exportAll_of_guards bsv codec chain cdnBaseUrl rows hg
      fun _ => none
    obtain ⟨files, hlisted, hfiles⟩ := hfaithful _ _ _ _ hok
    rw [(exportAll_ok hok).2] at hlisted
    cases hlisted
    have hplace := hfiles.inPlace
    refine ⟨fun tip htip => ?_, fun i hi hrows => ?_, fun i hi => ?_⟩
    · by_contra hnone
      obtain ⟨e, he⟩ := hregular tip htip (fun h => hnone (h.filled tip.height le_rfl))
        (fun _ => none) fun _ => none
      rw [hok] at he
      cases he
    · refine (hplace.filesLink_iff hi hrows).mp ?_
      obtain ⟨m, hm, hl⟩ := hplace.listedFiles_eq
      have hin : i + 1 ∈ listedFiles rows (List.range (numFiles rows)) :=
        List.mem_filter.mpr ⟨List.mem_range.mpr hi, by simpa using hrows⟩
      rw [hl, List.mem_range] at hin
      have hlinked := hfiles.linked
      rw [hl, List.isChain_map, List.isChain_range] at hlinked
      exact hlinked i (by omega)
    · have hsteps : ((fileRows rows i).map (·.height)).IsChain fun x y => y = x + 1 := by
        rw [hplace.fileHeights hi]
        exact List.isChain_range' _ _ 1
      exact ((List.isChain_map _).mp hsteps).imp fun _ _ hstep _ => hstep
  · intro h
    have hlaid : GuardsPass bsv codec rows → InPlace rows (numFiles rows) ∧
        ∀ i, i + 1 < numFiles rows → fileRows rows (i + 1) ≠ [] → FilesLink bsv codec
          (rowBytes codec (fileRows rows i)) (rowBytes codec (fileRows rows (i + 1))) := fun hg =>
      ⟨(h hg).inPlace hg, fun i hi hrows =>
        (((h hg).inPlace hg).filesLink_iff hi hrows).mpr ((h hg).boundary i hi hrows)⟩
    refine ⟨fun fails bucket result bucket' hok => ?_, fun tip htip hirregular fails bucket => ?_⟩
    · obtain ⟨hg, hlisted⟩ := exportAll_ok hok
      obtain ⟨hplace, hlink⟩ := hlaid hg
      exact ⟨_, hlisted, hplace.positionFaithful hlink⟩
    · rcases hrun : exportAll bsv codec chain cdnBaseUrl fails rows bucket with ⟨e | result, bucket'⟩
      · exact ⟨e, rfl⟩
      · have hg := (exportAll_ok hrun).1
        obtain ⟨hplace, hlink⟩ := hlaid hg
        exact absurd (hplace.regularTo ((h hg).flagged tip htip) (tip_lt_numFiles htip)
          (hplace.names hg hlink)) hirregular

/-! ### A published hole -/

namespace Regtest

/-- Four bytes, the lowest first. -/
def leBytes (n : UInt32) : List UInt8 :=
  [.ofNat n.toNat, .ofNat (n.toNat / 256), .ofNat (n.toNat / 65536), .ofNat (n.toNat / 16777216)]

/-- A number of bytes, the lowest first. -/
def leRead (bytes : List UInt8) : UInt32 := .ofNat (bytes.foldr (fun b n => b.toNat + 256 * n) 0)

theorem leRead_leBytes (n : UInt32) : leRead (leBytes n) = n := by
  have hn := n.toNat_lt
  refine UInt32.toNat_inj.mp ?_
  simp only [leRead, leBytes, List.foldr_cons, List.foldr_nil, UInt8.toNat_ofNat',
    UInt32.toNat_ofNat']
  omega

/-- Thirty-two bytes as a hash. -/
def hash32Of (bytes : List UInt8) : Hash32 :=
  if h : bytes.length = 32 then ⟨bytes, h⟩ else .zero

theorem hash32Of_bytes (hash : Hash32) : hash32Of hash.bytes = hash := dif_pos hash.size

/-- A hash in display order. -/
def displayHex (hash : Hash32) : String :=
  String.ofList ((hexEncode hash.bytes.reverse).map fun b => Char.ofNat b.toNat)

/-- The frame's fields in their order, the numbers lowest byte first. -/
def toBinary (wire : WireHeader) : List UInt8 :=
  leBytes wire.version ++ (wire.prevHash.bytes ++ (wire.merkleRoot.bytes ++
    (leBytes wire.time ++ (leBytes wire.bits ++ leBytes wire.nonce))))

/-- The fields of eighty bytes. -/
def fromBinary (bytes : List UInt8) : Except String WireHeader :=
  if bytes.length = 80 then
    let prev := bytes.drop 4
    let root := prev.drop 32
    let time := root.drop 32
    let bits := time.drop 4
    .ok
      { version := leRead (bytes.take 4)
        prevHash := hash32Of (prev.take 32)
        merkleRoot := hash32Of (root.take 32)
        time := leRead (time.take 4)
        bits := leRead (bits.take 4)
        nonce := leRead (bits.drop 4) }
  else .error "a header has eighty bytes"

theorem length_toBinary (wire : WireHeader) : (toBinary wire).length = 80 := by
  simp only [toBinary, List.length_append, wire.prevHash.size, wire.merkleRoot.size]
  rfl

theorem fromBinary_toBinary (wire : WireHeader) : fromBinary (toBinary wire) = .ok wire := by
  rw [fromBinary, if_pos (length_toBinary wire), toBinary]
  have hle : ∀ n : UInt32, (leBytes n).length = 4 := fun _ => rfl
  simp only [List.take_left' (hle _), List.drop_left' (hle _), List.take_left' wire.prevHash.size,
    List.drop_left' wire.prevHash.size, List.take_left' wire.merkleRoot.size,
    List.drop_left' wire.merkleRoot.size, leRead_leBytes, hash32Of_bytes]

/-- The frames of the network. -/
def frameCodec : FrameCodec where
  toBinary := toBinary
  fromBinary := fromBinary
  prevId wire := displayHex wire.prevHash
  merkleRootHex wire := displayHex wire.merkleRoot
  size := length_toBinary
  read := fromBinary_toBinary

/-- A block at the first height of the second file. -/
def anchorA2 : BlockHeader := { a2 with height := headersPerFile }

/-- The network with that block as a checkpoint. -/
def anchoredParams : ChainParams where
  network := params.network
  bsv := bsv
  pow := pow
  genesisHash := genesis.hash
  checkpoints := [(0, genesis.hash), (headersPerFile, a2.hash)]
  ascending := by decide
  lowercase := by
    simp only [List.mem_cons, List.not_mem_nil, or_false, forall_eq_or_imp, forall_eq]
    decide +kernel

/-- A store that holds the genesis block, and onto which a push anchored at the checkpoint. -/
def apart : List HeaderRow :=
  (runAll host anchoredParams [.insertHeader genesis, .ingestPushed [anchorA2]] .init).db.rows

end Regtest

open Regtest in
/-- **A published hole**: two files of one header each pass their guards, and the index
puts the second header a hundred thousand heights above the first, at offset eighty. -/
theorem hole_published : ¬ExportFaithful bsv frameCodec apart "test" "https://cdn" := by
  rintro ⟨hfaithful, -⟩
  have hn : numFiles apart = 2 := by decide +kernel
  have hg : GuardsPass bsv frameCodec apart := by
    rw [GuardsPass, hn]
    decide +kernel
  obtain ⟨result, bucket', hok⟩ := @exportAll_of_guards _ _ "test" "https://cdn" _ hg fun _ => none
  obtain ⟨files, hlisted, hfiles⟩ := hfaithful _ _ _ _ hok
  rw [(exportAll_ok hok).2, hn] at hlisted
  cases hlisted
  have hlist : listedFiles apart (List.range 2) = [0, 1] := by decide +kernel
  rw [hlist] at hfiles
  have hlast : 1 < 1 * headersPerFile + (fileRows apart 1).length := by decide +kernel
  obtain ⟨row, hrow, -⟩ := hfiles.placed _ rfl 1 hlast
  have hnone : headerForHeight apart 1 = none := by decide +kernel
  rw [hnone] at hrow
  cases hrow

end Chaintracks

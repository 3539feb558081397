import Chaintracks.Store
import Chaintracks.Library.Program
import Chaintracks.Library.Records

/-!
# The bulk export

`export_all` writes the active headers into files of a hundred thousand and an index
that lists them; a reader of the files knows where a header stands from its offset
alone. A file is read from the store by a range of heights, which skips what is
missing, so before it writes one `export_bulk_file` looks at what it read: the first
header must be the active one of the file's first height, and every further header
must name the one before it (`Chaintracks.fileGuards_iff`). A file without rows is
left out of the index.

An export that answers has written every file that has rows, each of them past its
guards, and a reader of the bucket finds just these (`Chaintracks.exportAll_ok`).
-/

namespace Chaintracks

open HeaderRows

/-! ### Frames -/

/-- What bsv-rs answers of an eighty-byte frame. -/
structure FrameCodec where
  /-- `to_binary`. -/
  toBinary : WireHeader → List UInt8
  /-- `from_binary`, or the text of its error. -/
  fromBinary : List UInt8 → Except String WireHeader
  /-- `prev_id`: the parent's hash in display order. -/
  prevId : WireHeader → String
  /-- `merkle_root_hex`. -/
  merkleRootHex : WireHeader → String
  size : ∀ wire, (toBinary wire).length = 80
  read : ∀ wire, fromBinary (toBinary wire) = .ok wire

/-- `HEADERS_PER_FILE`. -/
def headersPerFile : Nat := 100000

theorem headersPerFile_pos : 0 < headersPerFile := by decide

/-- A lower-case hex digit. -/
def hexChar (n : UInt8) : UInt8 := if n < 10 then 48 + n else 87 + n

/-- `hex::encode`. -/
def hexEncode (bytes : List UInt8) : List UInt8 :=
  bytes.flatMap fun b => [hexChar (b / 16), hexChar (b % 16)]

theorem hexDigit_hexChar (b : UInt8) :
    Hash32.hexDigit (hexChar (b / 16)) = some (b / 16) ∧
      Hash32.hexDigit (hexChar (b % 16)) = some (b % 16) ∧ 16 * (b / 16) + b % 16 = b := by
  have hall : ∀ n : Fin 256, Hash32.hexDigit (hexChar (UInt8.ofFin n / 16)) =
      some (UInt8.ofFin n / 16) ∧ Hash32.hexDigit (hexChar (UInt8.ofFin n % 16)) =
        some (UInt8.ofFin n % 16) ∧ 16 * (UInt8.ofFin n / 16) + UInt8.ofFin n % 16 = UInt8.ofFin n := by
    decide +kernel
  exact hall b.toFin

/-- What was encoded decodes. -/
theorem hexDecode_hexEncode (bytes : List UInt8) :
    Hash32.hexDecode (hexEncode bytes) = some bytes := by
  induction bytes with
  | nil => rfl
  | cons b bs ih =>
    obtain ⟨hhi, hlo, hb⟩ := hexDigit_hexChar b
    rw [hexEncode, List.flatMap_cons]
    change Hash32.hexDecode (hexChar (b / 16) :: hexChar (b % 16) :: hexEncode bs) = _
    rw [Hash32.hexDecode, hhi, hlo, ih]
    change some ((16 * (b / 16) + b % 16) :: bs) = _
    rw [hb]

/-! ### The bucket -/

/-- `BulkFileEntry`. -/
structure BulkFileEntry where
  chain : String
  count : Nat
  fileName : String
  firstHeight : Nat
  sourceUrl : String
  deriving DecidableEq

/-- `BulkHeaderIndex`. -/
structure BulkHeaderIndex where
  rootFolder : String
  jsonFilename : String
  headersPerFile : Nat
  files : List BulkFileEntry
  deriving DecidableEq

/-- What a key of the bucket holds: the bytes of a file, or the index. -/
inductive R2Object
  | file (bytes : List UInt8)
  | index (index : BulkHeaderIndex)
  deriving DecidableEq

/-- The bucket, by key. -/
abbrev Bucket := String → Option R2Object

/-- `{chain}Net_{file_index}.headers`. -/
def bulkFileName (chain : String) (fileIndex : Nat) : String :=
  chain ++ "Net_" ++ toString fileIndex ++ ".headers"

/-- `{chain}NetBlockHeaders.json`. -/
def indexFileName (chain : String) : String := chain ++ "NetBlockHeaders.json"

theorem bulkFileName_inj {chain : String} {i j : Nat} :
    bulkFileName chain i = bulkFileName chain j ↔ i = j := by
  refine ⟨fun h => ?_, fun h => h ▸ rfl⟩
  have hlist := congrArg String.toList h
  simp only [bulkFileName, String.toList_append, List.append_cancel_right_eq,
    List.append_cancel_left_eq, String.toList_inj] at hlist
  exact Nat.repr_inj.mp hlist

theorem bulkFileName_ne_index (chain : String) (i : Nat) :
    bulkFileName chain i ≠ indexFileName chain := by
  intro h
  have hlist := congrArg String.toList h
  simp only [bulkFileName, indexFileName, String.toList_append, List.append_assoc,
    List.append_cancel_left_eq] at hlist
  -- the fifth letter is a `_` in the one and a `B` in the other
  exact absurd (congrArg (·[3]?) hlist) (by simp)

/-- What a reader of the bucket finds: the files of the index, each with its bytes. -/
def Bucket.listed (bucket : Bucket) (chain : String) :
    Option (List (BulkFileEntry × List UInt8)) :=
  match bucket (indexFileName chain) with
  | some (.index index) => index.files.mapM fun entry =>
    match bucket entry.fileName with
    | some (.file bytes) => some (entry, bytes)
    | _ => none
  | _ => none

/-! ### The export -/

/-- The active rows of `[lo, hi)`, ascending. -/
def HeaderRows.activeHeadersFromTo (rows : List HeaderRow) (lo hi : Nat) : List HeaderRow :=
  (rows.filter fun r => r.isActive && (lo ≤ r.height && r.height < hi)).insertionSort
    fun a b => a.height ≤ b.height

section Export

variable (bsv : BsvRs) (codec : FrameCodec)

/-- `BlockHeader::from_bytes`. -/
def headerFromBytes (bytes : List UInt8) (height : Nat) : Option BlockHeader :=
  match codec.fromBinary bytes with
  | .ok wire => some
    { version := wire.version
      previousHash := codec.prevId wire
      merkleRoot := codec.merkleRootHex wire
      time := wire.time
      bits := wire.bits
      nonce := wire.nonce
      height := height
      hash := bsv.id wire }
  | .error _ => none

/-- `get_headers_hex`, as the bytes of the text it answers. -/
def getHeadersHex (rows : List HeaderRow) (startHeight count : Nat) : List UInt8 :=
  (activeHeadersFromTo rows startHeight (startHeight + count)).flatMap fun row =>
    hexEncode (codec.toBinary row.wire)

/-- The anchor guard: the first header read is the active header of the first height. -/
def anchorGuard (rows : List HeaderRow) (fileIndex startHeight : Nat)
    (chunks : List (List UInt8)) : Except String Unit :=
  match chunks.head? with
  | none => pure ()
  | some first =>
    if first.length = 80 then
      match codec.fromBinary first with
      | .error e => throw ("export " ++ toString fileIndex ++ ": " ++ e)
      | .ok wire =>
        match headerForHeight rows startHeight with
        | some expected =>
          if eqIgnoreAsciiCase expected.hash (bsv.id wire) then pure ()
          else throw ("export " ++ toString fileIndex ++ ": first header " ++ bsv.id wire ++
            " is not the active header at height " ++ toString startHeight ++ " (" ++
            expected.hash ++ ") — refusing misaligned file")
        | none => throw ("export " ++ toString fileIndex ++
            ": no active header at start height " ++ toString startHeight ++ " — refusing")
    else pure ()

/-- The hole guard: every header read names the one read before it. -/
def holeGuard (fileIndex startHeight : Nat) :
    Nat → Option String → List (List UInt8) → Except String Unit
  | _, _, [] => pure ()
  | i, prevHash, chunk :: chunks =>
    if chunk.length < 80 then pure ()
    else
      match headerFromBytes bsv codec chunk (startHeight + i), prevHash with
      | none, _ => holeGuard fileIndex startHeight (i + 1) prevHash chunks
      | some h, none => holeGuard fileIndex startHeight (i + 1) (some h.hash) chunks
      | some h, some expectedPrev =>
        if eqIgnoreAsciiCase h.previousHash expectedPrev then
          holeGuard fileIndex startHeight (i + 1) (some h.hash) chunks
        else throw ("export " ++ toString fileIndex ++ ": linkage break at offset " ++ toString i ++
          " (height " ++ toString (startHeight + i) ++ "): header links " ++ h.previousHash ++
          " but prior header is " ++ expectedPrev ++
          " — refusing to publish a misaligned bulk file")

/-- Both guards of a file. -/
def fileGuards (rows : List HeaderRow) (fileIndex : Nat) (bytes : List UInt8) :
    Except String Unit := do
  anchorGuard bsv codec rows fileIndex (fileIndex * headersPerFile) (Records.chunks 80 bytes)
  holeGuard bsv codec fileIndex (fileIndex * headersPerFile) 0 none (Records.chunks 80 bytes)

variable (chain cdnBaseUrl : String) (fails : String → Option String)

/-- `bucket.put(key, value).execute()`: `fails` says which keys it fails for, and how. -/
def putObject (what key : String) (value : R2Object) : Prog Bucket String Unit :=
  match fails key with
  | some e => Prog.fail ("R2 put " ++ what ++ ": " ++ e)
  | none => Prog.update fun bucket => Function.update bucket key (some value)

/-- `export_bulk_file`. -/
def exportBulkFile (rows : List HeaderRow) (fileIndex : Nat) : Prog Bucket String Nat :=
  let hex := getHeadersHex codec rows (fileIndex * headersPerFile) headersPerFile
  if hex.isEmpty then pure 0
  else
    match Hash32.hexDecode hex with
    | none => Prog.fail "hex decode"
    | some bytes => do
      Prog.ofExcept (fileGuards bsv codec rows fileIndex bytes)
      putObject fails (bulkFileName chain fileIndex) (bulkFileName chain fileIndex) (.file bytes)
      pure (bytes.length / 80)

/-- The entry of a file in the index. -/
def bulkFileEntry (fileIndex count : Nat) : BulkFileEntry where
  chain := chain
  count := count
  fileName := bulkFileName chain fileIndex
  firstHeight := fileIndex * headersPerFile
  sourceUrl := cdnBaseUrl

/-- The loop of `export_all`: `n` files from `i` on, with the total and the entries so
far. -/
def exportFiles (rows : List HeaderRow) : Nat → Nat → Nat → List BulkFileEntry →
    Prog Bucket String (Nat × List BulkFileEntry)
  | 0, _, totalExported, files => pure (totalExported, files)
  | n + 1, i, totalExported, files => do
    let count ← exportBulkFile bsv codec chain fails rows i
    if 0 < count then
      exportFiles rows n (i + 1) (totalExported + count)
        (files ++ [bulkFileEntry chain cdnBaseUrl i count])
    else exportFiles rows n (i + 1) totalExported files

/-- `ExportResult`. -/
structure ExportResult where
  totalExported : Nat
  fileCount : Nat
  deriving DecidableEq

/-- How many files `export_all` goes through: those up to the one of the flagged tip. -/
def numFiles (rows : List HeaderRow) : Nat :=
  (match chainTip rows with
    | some tip => tip.height
    | none => 0) / headersPerFile + 1

/-- `export_all`. -/
def exportAll (rows : List HeaderRow) : Prog Bucket String ExportResult := do
  let (totalExported, files) ←
    exportFiles bsv codec chain cdnBaseUrl fails rows (numFiles rows) 0 0 []
  putObject fails "index" (indexFileName chain) (.index
    { rootFolder := cdnBaseUrl
      jsonFilename := indexFileName chain
      headersPerFile := headersPerFile
      files := files })
  pure ⟨totalExported, numFiles rows⟩

end Export

/-! ### What a file is read from -/

section Files

variable {bsv : BsvRs} {codec : FrameCodec} {rows : List HeaderRow} {r : HeaderRow} {i lo hi : Nat}

/-- The rows of a file. -/
def fileRows (rows : List HeaderRow) (i : Nat) : List HeaderRow :=
  activeHeadersFromTo rows (i * headersPerFile) (i * headersPerFile + headersPerFile)

/-- The bytes of rows, laid end to end. -/
def rowBytes (codec : FrameCodec) (rows : List HeaderRow) : List UInt8 :=
  rows.flatMap fun row => codec.toBinary row.wire

/-- A frame names another as its parent. -/
def FrameCodec.Names (codec : FrameCodec) (bsv : BsvRs) (later earlier : WireHeader) : Prop :=
  eqIgnoreAsciiCase (codec.prevId later) (bsv.id earlier) = true

theorem mem_activeHeadersFromTo : r ∈ activeHeadersFromTo rows lo hi ↔
    r ∈ rows ∧ r.isActive = true ∧ lo ≤ r.height ∧ r.height < hi := by
  rw [activeHeadersFromTo, List.mem_insertionSort, List.mem_filter, Bool.and_eq_true,
    Bool.and_eq_true, decide_eq_true_eq, decide_eq_true_eq]

theorem mem_fileRows : r ∈ fileRows rows i ↔ r ∈ rows ∧ r.isActive = true ∧
    i * headersPerFile ≤ r.height ∧ r.height < i * headersPerFile + headersPerFile :=
  mem_activeHeadersFromTo

theorem fileRows_ascending : (fileRows rows i).Pairwise fun a b => a.height ≤ b.height :=
  List.pairwise_insertionSort (fun a b : HeaderRow => a.height ≤ b.height) _

theorem length_rowBytes (l : List HeaderRow) : (rowBytes codec l).length = 80 * l.length :=
  Records.length_flatMap fun _ _ => codec.size _

theorem chunks_rowBytes (l : List HeaderRow) :
    Records.chunks 80 (rowBytes codec l) = l.map fun row => codec.toBinary row.wire :=
  Records.chunks_flatMap (by decide) fun _ _ => codec.size _

/-- The text read of a file decodes to the bytes of its rows. -/
theorem hexDecode_getHeadersHex :
    Hash32.hexDecode (getHeadersHex codec rows (i * headersPerFile) headersPerFile) =
      some (rowBytes codec (fileRows rows i)) := by
  have htext : getHeadersHex codec rows (i * headersPerFile) headersPerFile =
      hexEncode (rowBytes codec (fileRows rows i)) := by
    rw [getHeadersHex, hexEncode, rowBytes, List.flatMap_assoc]
    rfl
  rw [htext, hexDecode_hexEncode]

/-- The text read of a file is empty where the file has no rows. -/
theorem getHeadersHex_isEmpty :
    (getHeadersHex codec rows (i * headersPerFile) headersPerFile).isEmpty = true ↔
      fileRows rows i = [] := by
  have hdecode := @hexDecode_getHeadersHex codec rows i
  constructor
  · intro hempty
    rw [List.isEmpty_iff.mp hempty] at hdecode
    have hlen := congrArg List.length (Option.some_inj.mp hdecode)
    rw [length_rowBytes, List.length_nil] at hlen
    exact List.length_eq_zero_iff.mp (by omega)
  · intro hnil
    rw [getHeadersHex]
    change (List.flatMap _ (fileRows rows i)).isEmpty = true
    rw [hnil]
    rfl

/-- **The anchor guard**: the first row's frame carries the hash of the row that the
store answers for the file's first height. -/
theorem anchorGuard_iff {first : HeaderRow} {l : List HeaderRow} {startHeight : Nat} :
    anchorGuard bsv codec rows i startHeight
        (Records.chunks 80 (rowBytes codec (first :: l))) = .ok () ↔
      ∃ expected, headerForHeight rows startHeight = some expected ∧
        eqIgnoreAsciiCase expected.hash (bsv.id first.wire) = true := by
  rw [chunks_rowBytes, List.map_cons, anchorGuard, List.head?_cons]
  dsimp only
  rw [if_pos (codec.size _), codec.read]
  dsimp only
  cases headerForHeight rows startHeight with
  | none => simp [throw, throwThe, MonadExceptOf.throw]
  | some expected =>
    by_cases hsame : eqIgnoreAsciiCase expected.hash (bsv.id first.wire) = true <;>
      simp [hsame, throw, throwThe, MonadExceptOf.throw, pure, Except.pure]

theorem headerFromBytes_toBinary (wire : WireHeader) (height : Nat) :
    headerFromBytes bsv codec (codec.toBinary wire) height = some
      { version := wire.version, previousHash := codec.prevId wire
        merkleRoot := codec.merkleRootHex wire, time := wire.time, bits := wire.bits
        nonce := wire.nonce, height := height, hash := bsv.id wire } := by
  unfold headerFromBytes
  rw [codec.read]

/-- The hole guard takes the first frame as it is. -/
theorem holeGuard_first {startHeight k : Nat} (wire : WireHeader) (chunks : List (List UInt8)) :
    holeGuard bsv codec i startHeight k none (codec.toBinary wire :: chunks) =
      holeGuard bsv codec i startHeight (k + 1) (some (bsv.id wire)) chunks := by
  rw [holeGuard.eq_def]
  dsimp only
  rw [if_neg (by rw [codec.size]; decide), headerFromBytes_toBinary]

/-- The hole guard goes on past a frame that names the one before it. -/
theorem holeGuard_next {startHeight k : Nat} (wire : WireHeader) (expectedPrev : String)
    (chunks : List (List UInt8)) :
    holeGuard bsv codec i startHeight k (some expectedPrev) (codec.toBinary wire :: chunks) =
        .ok () ↔
      eqIgnoreAsciiCase (codec.prevId wire) expectedPrev = true ∧
        holeGuard bsv codec i startHeight (k + 1) (some (bsv.id wire)) chunks = .ok () := by
  rw [holeGuard.eq_def]
  dsimp only
  rw [if_neg (by rw [codec.size]; decide), headerFromBytes_toBinary]
  dsimp only
  by_cases hnames : eqIgnoreAsciiCase (codec.prevId wire) expectedPrev = true
  · rw [if_pos hnames]
    exact (and_iff_right hnames).symm
  · rw [if_neg hnames]
    refine ⟨fun h => ?_, fun h => absurd h.1 hnames⟩
    cases h

/-- The hole guard over rows, from any of them on. -/
theorem holeGuard_iff {startHeight : Nat} (l : List HeaderRow) (k : Nat) (prev : HeaderRow) :
    holeGuard bsv codec i startHeight k (some (bsv.id prev.wire))
        (l.map fun row => codec.toBinary row.wire) = .ok () ↔
      (prev :: l).IsChain fun a b => codec.Names bsv b.wire a.wire := by
  induction l generalizing k prev with
  | nil => simp [holeGuard, pure, Except.pure]
  | cons row l ih =>
    rw [List.map_cons, holeGuard_next, ih, List.isChain_cons_cons]
    rfl

/-- **What the guards of a file see**: its rows name each other, and the first carries the
hash of the active row at the file's first height. -/
theorem fileGuards_iff {first : HeaderRow} {l : List HeaderRow} :
    fileGuards bsv codec rows i (rowBytes codec (first :: l)) = .ok () ↔
      (∃ expected, headerForHeight rows (i * headersPerFile) = some expected ∧
        eqIgnoreAsciiCase expected.hash (bsv.id first.wire) = true) ∧
      (first :: l).IsChain fun a b => codec.Names bsv b.wire a.wire := by
  have hhole : holeGuard bsv codec i (i * headersPerFile) 0 none
      (Records.chunks 80 (rowBytes codec (first :: l))) = .ok () ↔
      (first :: l).IsChain fun a b => codec.Names bsv b.wire a.wire := by
    rw [chunks_rowBytes, List.map_cons, holeGuard_first]
    exact holeGuard_iff l 1 first
  rw [fileGuards, Except.bind_eq_ok, ← hhole, ← anchorGuard_iff]
  constructor
  · rintro ⟨⟨⟩, hanchor, hrest⟩
    exact ⟨hanchor, hrest⟩
  · rintro ⟨hanchor, hrest⟩
    exact ⟨(), hanchor, hrest⟩

end Files

/-! ### What an export leaves -/

section Runs

variable {bsv : BsvRs} {codec : FrameCodec} {chain cdnBaseUrl : String}
  {fails : String → Option String} {rows : List HeaderRow} {bucket bucket' : Bucket}

/-- The files of a list that have rows. -/
def listedFiles (rows : List HeaderRow) (files : List Nat) : List Nat :=
  files.filter fun i => fileRows rows i ≠ []

/-- What a reader should find of a file: its entry, and the bytes of its rows. -/
def publishedFile (codec : FrameCodec) (chain cdnBaseUrl : String) (rows : List HeaderRow)
    (i : Nat) : BulkFileEntry × List UInt8 :=
  (bulkFileEntry chain cdnBaseUrl i (fileRows rows i).length, rowBytes codec (fileRows rows i))

theorem exportBulkFile_empty {i : Nat} (h : fileRows rows i = []) :
    exportBulkFile bsv codec chain fails rows i bucket = (.ok 0, bucket) := by
  rw [exportBulkFile, if_pos (getHeadersHex_isEmpty.mpr h)]
  rfl

theorem exportBulkFile_eq {i : Nat} (h : fileRows rows i ≠ []) :
    exportBulkFile bsv codec chain fails rows i = (do
      Prog.ofExcept (fileGuards bsv codec rows i (rowBytes codec (fileRows rows i)))
      putObject fails (bulkFileName chain i) (bulkFileName chain i)
        (.file (rowBytes codec (fileRows rows i)))
      pure (fileRows rows i).length) := by
  rw [exportBulkFile, if_neg (fun hempty => h (getHeadersHex_isEmpty.mp hempty)),
    hexDecode_getHeadersHex]
  dsimp only
  rw [length_rowBytes, Nat.mul_div_cancel_left _ (by decide)]

/-- A put that went through. -/
theorem putObject_ok {what key : String} {value : R2Object}
    (h : putObject fails what key value bucket = (.ok (), bucket')) :
    bucket' = Function.update bucket key (some value) := by
  rw [putObject] at h
  cases hf : fails key with
  | some e =>
    rw [hf] at h
    cases h
  | none =>
    rw [hf] at h
    exact (Prod.mk.inj h).2.symm

/-- **A file that goes through**: its guards passed, and the bucket holds its rows. -/
theorem exportBulkFile_ok {i count : Nat}
    (h : exportBulkFile bsv codec chain fails rows i bucket = (.ok count, bucket')) :
    count = (fileRows rows i).length ∧
      (fileRows rows i ≠ [] →
        fileGuards bsv codec rows i (rowBytes codec (fileRows rows i)) = .ok () ∧
          bucket' (bulkFileName chain i) = some (.file (rowBytes codec (fileRows rows i)))) ∧
      ∀ key, key ≠ bulkFileName chain i → bucket' key = bucket key := by
  by_cases hrows : fileRows rows i = []
  · rw [exportBulkFile_empty hrows] at h
    cases h
    exact ⟨by rw [hrows]; rfl, fun hne => absurd hrows hne, fun _ _ => rfl⟩
  · rw [exportBulkFile_eq hrows] at h
    obtain ⟨⟨⟩, b₁, hguards, hrest⟩ := Prog.bind_eq_ok h
    obtain ⟨⟨⟩, b₂, hput, hlast⟩ := Prog.bind_eq_ok hrest
    cases hguards' : fileGuards bsv codec rows i (rowBytes codec (fileRows rows i)) with
    | error e =>
      rw [hguards'] at hguards
      cases hguards
    | ok =>
      rw [hguards'] at hguards
      cases hguards
      have hbucket := putObject_ok hput
      cases hlast
      refine ⟨rfl, fun _ => ⟨rfl, ?_⟩, fun key hkey => ?_⟩
      · rw [hbucket, Function.update_self]
      · rw [hbucket, Function.update_of_ne hkey]

/-- **The loop**: every file with rows passed its guards, is listed, and is in the bucket;
no other key has changed. -/
theorem exportFiles_ok {n i total total' : Nat} {files files' : List BulkFileEntry}
    (h : exportFiles bsv codec chain cdnBaseUrl fails rows n i total files bucket =
      (.ok (total', files'), bucket')) :
    files' = files ++ (listedFiles rows (List.range' i n)).map (fun j =>
        bulkFileEntry chain cdnBaseUrl j (fileRows rows j).length) ∧
      (∀ j, i ≤ j → j < i + n → fileRows rows j ≠ [] →
        fileGuards bsv codec rows j (rowBytes codec (fileRows rows j)) = .ok () ∧
          bucket' (bulkFileName chain j) = some (.file (rowBytes codec (fileRows rows j)))) ∧
      ∀ key, (∀ j, i ≤ j → j < i + n → key ≠ bulkFileName chain j) → bucket' key = bucket key := by
  induction n generalizing i total files bucket with
  | zero =>
    cases h
    exact ⟨(List.append_nil _).symm, fun j hi hj => absurd hj (by omega), fun _ _ => rfl⟩
  | succ n ih =>
    obtain ⟨count, b₁, hfile, h⟩ := Prog.bind_eq_ok h
    obtain ⟨rfl, hown, hothers⟩ := exportBulkFile_ok hfile
    rw [List.range'_succ, listedFiles, List.filter_cons]
    have hfirst : ∀ j, i ≤ j → j < i + (n + 1) → j = i ∨ i + 1 ≤ j ∧ j < i + 1 + n := by omega
    have hlast : ∀ j, i + 1 ≤ j → j < i + 1 + n → bulkFileName chain i ≠ bulkFileName chain j :=
      fun j hj _ hname => by
        have := bulkFileName_inj.mp hname
        omega
    by_cases hrows : fileRows rows i = []
    · rw [if_neg (by rw [hrows]; decide)] at h
      obtain ⟨hfiles, hin, hout⟩ := ih h
      rw [if_neg (by simpa using hrows)]
      refine ⟨hfiles, fun j hi hj hne => ?_, fun key hkey => ?_⟩
      · rcases hfirst j hi hj with rfl | ⟨hi, hj⟩
        · exact absurd hrows hne
        · exact hin j hi hj hne
      · rw [hout key fun j hi hj => hkey j (by omega) (by omega)]
        exact hothers key (hkey i le_rfl (by omega))
    · rw [if_pos (List.length_pos_of_ne_nil hrows)] at h
      obtain ⟨hfiles, hin, hout⟩ := ih h
      rw [if_pos (by simpa using hrows), List.map_cons]
      refine ⟨?_, fun j hi hj hne => ?_, fun key hkey => ?_⟩
      · rw [hfiles, List.append_assoc]
        rfl
      · rcases hfirst j hi hj with rfl | ⟨hi, hj⟩
        · exact ⟨(hown hrows).1, (hout _ hlast).trans (hown hrows).2⟩
        · exact hin j hi hj hne
      · rw [hout key fun j hi hj => hkey j (by omega) (by omega)]
        exact hothers key (hkey i le_rfl (by omega))

theorem mapM_eq_some {α β : Type} {f : α → Option β} {g : α → β} {l : List α}
    (h : ∀ a ∈ l, f a = some (g a)) : l.mapM f = some (l.map g) := by
  induction l with
  | nil => rfl
  | cons a l ih =>
    rw [List.mapM_cons, h a List.mem_cons_self, ih fun b hb => h b (List.mem_cons_of_mem _ hb)]
    rfl

/-- What a listing has at a place was read from the entry at that place. -/
theorem getElem?_of_mapM {α β : Type} {f : α → Option β} {l : List α} {l' : List β} {i : Nat}
    {b : β}
    (h : l.mapM f = some l') (hb : l'[i]? = some b) : ∃ a, l[i]? = some a ∧ f a = some b := by
  induction l generalizing l' i with
  | nil =>
    cases h
    cases hb
  | cons a l ih =>
    rw [List.mapM_cons] at h
    obtain ⟨b₀, hfirst, h⟩ := Option.bind_eq_some_iff.mp h
    obtain ⟨bs, hrest, h⟩ := Option.bind_eq_some_iff.mp h
    cases h
    cases i with
    | zero =>
      cases hb
      exact ⟨a, rfl, hfirst⟩
    | succ i => exact ih hrest hb

/-- **An export that answers**: every file with rows passed its guards, and a reader of the
bucket finds these files. -/
theorem exportAll_ok {result : ExportResult}
    (h : exportAll bsv codec chain cdnBaseUrl fails rows bucket = (.ok result, bucket')) :
    (∀ i < numFiles rows, fileRows rows i ≠ [] →
      fileGuards bsv codec rows i (rowBytes codec (fileRows rows i)) = .ok ()) ∧
      bucket'.listed chain = some ((listedFiles rows (List.range (numFiles rows))).map
        (publishedFile codec chain cdnBaseUrl rows)) := by
  obtain ⟨⟨total, files⟩, b₁, hfiles, h⟩ := Prog.bind_eq_ok h
  obtain ⟨⟨⟩, b₂, hput, h⟩ := Prog.bind_eq_ok h
  cases h
  obtain ⟨rfl, hin, -⟩ := exportFiles_ok hfiles
  have hbucket := putObject_ok hput
  refine ⟨fun i hi hne => (hin i (Nat.zero_le i) (by omega) hne).1, ?_⟩
  rw [Bucket.listed, hbucket, Function.update_self]
  dsimp only
  rw [List.nil_append, List.mapM_map, ← List.range_eq_range']
  refine mapM_eq_some fun i hi => ?_
  obtain ⟨hi, hne⟩ := List.mem_filter.mp hi
  dsimp only [Function.comp_apply]
  rw [show (bulkFileEntry chain cdnBaseUrl i (fileRows rows i).length).fileName =
    bulkFileName chain i from rfl, Function.update_of_ne (bulkFileName_ne_index chain i),
    (hin i (Nat.zero_le i) (by simpa using hi) (by simpa using hne)).2]
  rfl

/-- **Where the guards pass and nothing fails, the export answers.** -/
theorem exportAll_of_guards (h : ∀ i < numFiles rows, fileRows rows i ≠ [] →
      fileGuards bsv codec rows i (rowBytes codec (fileRows rows i)) = .ok ()) (bucket : Bucket) :
    ∃ result bucket', exportAll bsv codec chain cdnBaseUrl (fun _ => none) rows bucket =
      (.ok result, bucket') := by
  have hloop : ∀ n i total files bucket, i + n ≤ numFiles rows → ∃ answer bucket',
      exportFiles bsv codec chain cdnBaseUrl (fun _ => none) rows n i total files bucket =
        (.ok answer, bucket') := by
    intro n
    induction n with
    | zero => exact fun i total files bucket _ => ⟨_, _, rfl⟩
    | succ n ih =>
      intro i total files bucket hi
      obtain ⟨count, b₁, hfile⟩ : ∃ count b₁,
          exportBulkFile bsv codec chain (fun _ => none) rows i bucket = (.ok count, b₁) := by
        by_cases hrows : fileRows rows i = []
        · exact ⟨_, _, exportBulkFile_empty hrows⟩
        · rw [exportBulkFile_eq hrows, h i (by omega) hrows]
          exact ⟨_, _, rfl⟩
      have hbind : ∀ {β : Type} (f : Nat → Prog Bucket String β),
          (exportBulkFile bsv codec chain (fun _ => none) rows i >>= f) bucket = f count b₁ :=
        fun f => Prog.bind_ok hfile
      rw [exportFiles, hbind]
      split
      · exact ih _ _ _ _ (by omega)
      · exact ih _ _ _ _ (by omega)
  obtain ⟨⟨total, files⟩, b₁, hfiles⟩ := hloop (numFiles rows) 0 0 [] bucket (by omega)
  exact ⟨_, _, Prog.bind_ok hfiles⟩

end Runs

end Chaintracks

import Chaintracks.EventStream
import Chaintracks.Paging

/-!
# The writer's half of an event stream

The feed writes its events as frames: a line with the cursor, a line with the data, a blank
line. Between them it writes a comment as a heartbeat, a line with the time after which to
connect again, and now and then a fault without a cursor. `Chaintracks.Frame` names what it
writes, `Chaintracks.Frame.text` is its text.

The reader of another service's stream is `Chaintracks.Parser`, and a service can be the
peer of another one. What the one writes the other reads back
(`Chaintracks.frames_read_back`): every text on one line comes through the bytes it is
encoded as, the cursor comes back from the digits it is written in
(`Chaintracks.parseCursor_repr`), and a reader that is cut off anywhere has read a part from
the front (`Chaintracks.run_front`).
-/

namespace Chaintracks

/-! ### Texts through their bytes -/

/-- A text that stays on one line. -/
def OneLine (s : String) : Prop := '\n' ∉ s.toList ∧ '\r' ∉ s.toList

instance (s : String) : Decidable (OneLine s) :=
  inferInstanceAs (Decidable ('\n' ∉ s.toList ∧ '\r' ∉ s.toList))

section Bytes

theorem asBytes_eq (s : String) : asBytes s = s.toList.flatMap String.utf8EncodeChar := by
  rw [asBytes, ← String.utf8Encode_toList, List.utf8Encode]
  exact List.toList_data_toByteArray

theorem asBytes_append (s t : String) : asBytes (s ++ t) = asBytes s ++ asBytes t := by
  simp only [asBytes_eq, String.toList_append, List.flatMap_append]

/-- The first byte of a character, by its number. -/
theorem utf8First_ofNat {k : Nat} (hk : k < 256) : utf8First (UInt8.ofNat k) =
    if k < 0x80 then .char (Char.ofNat k)
    else if 0xC2 ≤ k ∧ k ≤ 0xDF then .more ⟨1, k - 0xC0, 0x80, 0xBF⟩
    else if 0xE0 ≤ k ∧ k ≤ 0xEF then
      .more ⟨2, k - 0xE0, if k = 0xE0 then 0xA0 else 0x80, if k = 0xED then 0x9F else 0xBF⟩
    else if 0xF0 ≤ k ∧ k ≤ 0xF4 then
      .more ⟨3, k - 0xF0, if k = 0xF0 then 0x90 else 0x80, if k = 0xF4 then 0x8F else 0xBF⟩
    else .bad := by
  have hnat : (UInt8.ofNat k).toNat = k := UInt8.toNat_ofNat_of_lt hk
  simp only [utf8First, UInt8.lt_iff_toNat_lt, UInt8.le_iff_toNat_le, ← UInt8.toNat_inj, hnat]
  rfl

/-- A later byte of a character, by its number. -/
theorem Utf8Begun.next_ofNat {begun : Utf8Begun} {k : Nat} (hk : k < 256)
    (hlo : begun.lo.toNat ≤ k) (hhi : k ≤ begun.hi.toNat) :
    begun.next (UInt8.ofNat k) =
      if begun.missing = 1 then .char (Char.ofNat (begun.bits * 64 + (k - 0x80)))
      else .more ⟨begun.missing - 1, begun.bits * 64 + (k - 0x80), 0x80, 0xBF⟩ := by
  have hnat : (UInt8.ofNat k).toNat = k := UInt8.toNat_ofNat_of_lt hk
  rw [Utf8Begun.next, if_pos, hnat]
  rw [UInt8.le_iff_toNat_le, UInt8.le_iff_toNat_le, hnat]
  exact ⟨hlo, hhi⟩

/-- The bytes of the character with a number. -/
def utf8Bytes (v : Nat) : List UInt8 :=
  if v ≤ 0x7F then [.ofNat v]
  else if v ≤ 0x7FF then [.ofNat (v / 64 % 0x20 + 0xC0), .ofNat (v % 0x40 + 0x80)]
  else if v ≤ 0xFFFF then
    [.ofNat (v / 4096 % 0x10 + 0xE0), .ofNat (v / 64 % 0x40 + 0x80), .ofNat (v % 0x40 + 0x80)]
  else
    [.ofNat (v / 262144 % 0x08 + 0xF0), .ofNat (v / 4096 % 0x40 + 0x80),
      .ofNat (v / 64 % 0x40 + 0x80), .ofNat (v % 0x40 + 0x80)]

theorem utf8EncodeChar_eq (c : Char) : String.utf8EncodeChar c = utf8Bytes c.toNat := rfl

section Begun

variable {n k b : Nat} {lo hi : UInt8} {bs : List UInt8}

/-- A character begun goes on with a byte that fits. -/
theorem utf8Lossy_more (bits : Nat) (hk : k < 256) (hlo : lo.toNat ≤ k) (hhi : k ≤ hi.toNat)
    (hbits : b * 64 + (k - 0x80) = bits) :
    utf8Lossy (some ⟨n + 2, b, lo, hi⟩) (.ofNat k :: bs) =
      utf8Lossy (some ⟨n + 1, bits, 0x80, 0xBF⟩) bs := by
  rw [utf8Lossy, Utf8Begun.next_ofNat hk hlo hhi, hbits, if_neg (by change n + 2 ≠ 1; omega)]
  rfl

/-- A character begun ends with a byte that fits. -/
theorem utf8Lossy_last (bits : Nat) (hk : k < 256) (hlo : lo.toNat ≤ k) (hhi : k ≤ hi.toNat)
    (hbits : b * 64 + (k - 0x80) = bits) :
    utf8Lossy (some ⟨1, b, lo, hi⟩) (.ofNat k :: bs) = Char.ofNat bits :: utf8Lossy none bs := by
  rw [utf8Lossy, Utf8Begun.next_ofNat hk hlo hhi, hbits, if_pos rfl]

end Begun

/-- The first byte of several begins a character. -/
theorem utf8Lossy_first {k : Nat} {begun : Utf8Begun} {bs : List UInt8}
    (h : utf8First (.ofNat k) = .more begun) :
    utf8Lossy none (.ofNat k :: bs) = utf8Lossy (some begun) bs := by
  rw [utf8Lossy, h]

/-- **A character comes back from its bytes**, whatever follows them. -/
theorem utf8Lossy_encodeChar (c : Char) (rest : List UInt8) :
    utf8Lossy none (String.utf8EncodeChar c ++ rest) = c :: utf8Lossy none rest := by
  have hchar : Char.ofNat c.toNat = c := Char.ofNat_toNat c
  have hvalid : c.toNat < 0xD800 ∨ 0xDFFF < c.toNat ∧ c.toNat < 0x110000 := c.valid
  rw [utf8EncodeChar_eq]
  generalize c.toNat = v at hchar hvalid
  rw [utf8Bytes]
  by_cases h₁ : v ≤ 0x7F
  · have hfirst := @utf8First_ofNat v (by omega)
    rw [if_pos (by omega)] at hfirst
    rw [if_pos h₁, List.singleton_append, utf8Lossy, hfirst, hchar]
  by_cases h₂ : v ≤ 0x7FF
  · have hfirst := @utf8First_ofNat (v / 64 % 0x20 + 0xC0) (by omega)
    rw [if_neg (by omega), if_pos (by omega)] at hfirst
    rw [if_neg h₁, if_pos h₂]
    change utf8Lossy none (.ofNat _ :: .ofNat _ :: rest) = _
    rw [utf8Lossy_first hfirst, utf8Lossy_last v (by omega) (by change 128 ≤ _; omega)
      (by change _ ≤ 191; omega) (by omega), hchar]
  by_cases h₃ : v ≤ 0xFFFF
  · have hfirst := @utf8First_ofNat (v / 4096 % 0x10 + 0xE0) (by omega)
    rw [if_neg (by omega), if_neg (by omega), if_pos (by omega)] at hfirst
    rw [if_neg h₁, if_neg h₂, if_pos h₃]
    change utf8Lossy none (.ofNat _ :: .ofNat _ :: .ofNat _ :: rest) = _
    rw [utf8Lossy_first hfirst, utf8Lossy_more (v / 64) (by omega) ?_ ?_ (by omega),
      utf8Lossy_last v (by omega) (by change 128 ≤ _; omega) (by change _ ≤ 191; omega)
        (by omega), hchar]
    · split
      · change 160 ≤ _
        omega
      · change 128 ≤ _
        omega
    · split
      · change _ ≤ 159
        omega
      · change _ ≤ 191
        omega
  · have hfirst := @utf8First_ofNat (v / 262144 % 0x08 + 0xF0) (by omega)
    rw [if_neg (by omega), if_neg (by omega), if_neg (by omega), if_pos (by omega)] at hfirst
    rw [if_neg h₁, if_neg h₂, if_neg h₃]
    change utf8Lossy none (.ofNat _ :: .ofNat _ :: .ofNat _ :: .ofNat _ :: rest) = _
    rw [utf8Lossy_first hfirst, utf8Lossy_more (v / 4096) (by omega) ?_ ?_ (by omega),
      utf8Lossy_more (v / 64) (by omega) (by change 128 ≤ _; omega)
        (by change _ ≤ 191; omega) (by omega),
      utf8Lossy_last v (by omega) (by change 128 ≤ _; omega) (by change _ ≤ 191; omega)
        (by omega), hchar]
    · split
      · change 144 ≤ _
        omega
      · change 128 ≤ _
        omega
    · split
      · change _ ≤ 143
        omega
      · change _ ≤ 191
        omega

/-- **A text comes back from its bytes.** -/
theorem fromUtf8Lossy_asBytes (s : String) : fromUtf8Lossy (asBytes s) = s := by
  have hlist : ∀ l : List Char, utf8Lossy none (l.flatMap String.utf8EncodeChar) = l := by
    intro l
    induction l with
    | nil => rfl
    | cons c l ih => rw [List.flatMap_cons, utf8Lossy_encodeChar, ih]
  rw [fromUtf8Lossy, asBytes_eq, hlist, String.ofList_toList]

/-- A byte of an ASCII character stands for itself alone. -/
theorem mem_encodeChar {c : Char} {b : UInt8} (hb : b ∈ String.utf8EncodeChar c)
    (hascii : b.toNat < 0x80) : b.toNat = c.toNat := by
  have hof : ∀ k, k < 256 → (UInt8.ofNat k).toNat = k := fun k hk => UInt8.toNat_ofNat_of_lt hk
  rw [utf8EncodeChar_eq, utf8Bytes] at hb
  split at hb
  · rw [List.mem_singleton] at hb
    rw [hb, hof _ (by omega)]
  · exfalso
    split at hb
    · simp only [List.mem_cons, List.not_mem_nil, or_false] at hb
      rcases hb with rfl | rfl <;> rw [hof _ (by omega)] at hascii <;> omega
    · split at hb
      · simp only [List.mem_cons, List.not_mem_nil, or_false] at hb
        rcases hb with rfl | rfl | rfl <;> rw [hof _ (by omega)] at hascii <;> omega
      · simp only [List.mem_cons, List.not_mem_nil, or_false] at hb
        rcases hb with rfl | rfl | rfl | rfl <;> rw [hof _ (by omega)] at hascii <;> omega

/-- A text without an ASCII character has no byte of it. -/
theorem not_mem_asBytes {s : String} {c : Char} (hascii : c.toNat < 0x80) (h : c ∉ s.toList) :
    UInt8.ofNat c.toNat ∉ asBytes s := by
  rw [asBytes_eq, List.mem_flatMap]
  rintro ⟨d, hd, hb⟩
  have hof : (UInt8.ofNat c.toNat).toNat = c.toNat :=
    UInt8.toNat_ofNat_of_lt (show c.toNat < 256 by omega)
  have hnat := mem_encodeChar hb (by omega)
  rw [hof] at hnat
  exact h ((Char.toNat_inj.mp hnat) ▸ hd)

theorem OneLine.bytes {s : String} (h : OneLine s) :
    lineFeed ∉ asBytes s ∧ carriageReturn ∉ asBytes s :=
  ⟨@not_mem_asBytes s '\n' (by decide) h.1, @not_mem_asBytes s '\r' (by decide) h.2⟩

end Bytes

/-! ### Lines -/

/-- The parser between two lines. -/
def EventFields.parser (fields : EventFields) : Parser := { fields with pending := [] }

/-- Lines looked at one after the other. -/
def EventFields.lines : EventFields → List String → List Item × EventFields :=
  Transducer.run fun fields line => ((fields.line line).1.toList, (fields.line line).2)

/-- A text as lines, each with its end. -/
def lineBytes (lines : List String) : List UInt8 :=
  lines.flatMap fun line => asBytes line ++ [lineFeed]

section Lines

variable {fields : EventFields} {line : String}

/-- Bytes that end no line are kept. -/
theorem run_pending (p : Parser) {bytes : List UInt8} (h : lineFeed ∉ bytes) :
    Transducer.run Parser.byte p bytes = ([], { p with pending := p.pending ++ bytes }) := by
  induction bytes generalizing p with
  | nil => rw [List.append_nil, Transducer.run_nil]
  | cons b bytes ih =>
    rw [List.mem_cons, not_or] at h
    obtain ⟨hb, hbytes⟩ := h
    rw [Transducer.run_cons, Parser.byte, if_neg (Ne.symm hb), ih _ hbytes]
    simp

/-- **A line comes back from its bytes.** -/
theorem run_line (fields : EventFields) (h : OneLine line) :
    Transducer.run Parser.byte fields.parser (asBytes line ++ [lineFeed]) =
      ((fields.line line).1.toList, (fields.line line).2.parser) := by
  have hreturn : stripReturn (asBytes line) = asBytes line := by
    rw [stripReturn, if_neg]
    exact fun hlast => h.bytes.2 (List.mem_of_getLast? hlast)
  rw [Transducer.run_append, run_pending _ h.bytes.1, Transducer.run_cons, Transducer.run_nil]
  simp only [EventFields.parser, Parser.byte, if_pos, Parser.endLine, List.nil_append,
    List.append_nil, hreturn, fromUtf8Lossy_asBytes]

/-- Lines come back from their bytes. -/
theorem run_lines (fields : EventFields) {lines : List String} (h : ∀ line ∈ lines, OneLine line) :
    Transducer.run Parser.byte fields.parser (lineBytes lines) =
      ((fields.lines lines).1, (fields.lines lines).2.parser) := by
  induction lines generalizing fields with
  | nil => rfl
  | cons line lines ih =>
    obtain ⟨hline, hlines⟩ := List.forall_mem_cons.mp h
    have hrest := ih (fields.line line).2 hlines
    rw [lineBytes, List.flatMap_cons, Transducer.run_append, run_line fields hline]
    dsimp only
    rw [lineBytes] at hrest
    rw [hrest]
    rfl

/-- A text cut at a character the first part does not have. -/
theorem cut_at {c : Char} {l : List Char} (rest : List Char) (h : c ∉ l) :
    (l ++ c :: rest).takeWhile (· != c) = l ∧ (l ++ c :: rest).dropWhile (· != c) = c :: rest := by
  have hne : ∀ d ∈ l, (d != c) = true := by
    rintro d hd
    rw [bne_iff_ne]
    exact fun heq => h (heq ▸ hd)
  rw [List.takeWhile_append_of_pos hne, List.dropWhile_append_of_pos hne]
  simp

/-- The field of a line and its value. -/
theorem fieldOf_line {field value : String} (h : ':' ∉ field.toList) :
    EventFields.fieldOf (field ++ ": " ++ value) = (field, value) := by
  have hlist : (field ++ ": " ++ value).toList = field.toList ++ ':' :: ' ' :: value.toList := by
    simp
  obtain ⟨htake, hdrop⟩ := cut_at (' ' :: value.toList) h
  rw [EventFields.fieldOf, EventFields.splitOnce, hlist, htake, hdrop]
  simp [EventFields.stripPrefix]

end Lines

section Chunks

variable {p q : Parser} {chunk : List UInt8} {items : List Item}

/-- No end of a line is ever pending. -/
theorem run_pending_line (hp : lineFeed ∉ p.pending) (bytes : List UInt8) :
    lineFeed ∉ (Transducer.run Parser.byte p bytes).2.pending := by
  refine @Transducer.run_keeps _ _ _ Parser.byte
    (fun (p : Parser) (_ : List UInt8) => lineFeed ∉ p.pending) ?_ p bytes [] hp
  rintro p b _ hp
  rw [Parser.byte]
  split
  · exact List.not_mem_nil
  · rename_i hb
    rw [List.mem_append, List.mem_singleton, not_or]
    exact ⟨hp, Ne.symm hb⟩

/-- **A chunk that is answered** was read byte by byte, however long its lines. -/
theorem run_of_feed (hp : lineFeed ∉ p.pending) (h : p.feed chunk = (.ok items, q)) :
    Transducer.run Parser.byte p chunk = (items, q) := by
  have hlen : chunk.length ≤ (p.pending ++ chunk).length := by
    rw [List.length_append]
    exact Nat.le_add_left _ _
  rw [Parser.feed, Parser.drain_eq hlen p hp] at h
  split at h
  · exact absurd (Prod.mk.inj h).1 (by simp)
  · obtain ⟨hitems, hq⟩ := Prod.mk.inj h
    exact Prod.ext (Except.ok.inj hitems) hq

end Chunks

/-! ### Frames -/

/-- What a stream writes at once: a row's event, the tip at the start, a heartbeat with the
tip's age, a fault of the feed, or the end. -/
inductive Frame
  | row (cursor : Nat) (data : Option String)
  | initial (tip : String)
  | heartbeat (tipAge : Option Nat)
  | unavailable (payload : String)
  | done
  deriving DecidableEq

namespace Frame

/-- The text of a frame: that of `sse_frame`, `initial_tip`, `heartbeat`,
`feed_unavailable` and `STREAM_END`. -/
def text : Frame → String
  | row cursor (some data) => "id: " ++ toString cursor ++ "\ndata: " ++ data ++ "\n\n"
  | row cursor none => "id: " ++ toString cursor ++ "\n\n"
  | initial tip => "data: " ++ tip ++ "\n\n"
  | heartbeat (some age) => ": heartbeat tipAge=" ++ toString age ++ "\n\n"
  | heartbeat none => ": heartbeat\n\n"
  | unavailable payload => "event: error\ndata: " ++ payload ++ "\n\n"
  | done => "retry: 1000\n\n"

/-- The texts a frame carries. -/
def carried : Frame → List String
  | row _ data => data.toList
  | initial tip => [tip]
  | heartbeat _ | done => []
  | unavailable payload => [payload]

/-- The lines of a frame. -/
def lines : Frame → List String
  | row cursor (some data) => ["id: " ++ toString cursor, "data: " ++ data, ""]
  | row cursor none => ["id: " ++ toString cursor, ""]
  | initial tip => ["data: " ++ tip, ""]
  | heartbeat (some age) => [": heartbeat tipAge=" ++ toString age, ""]
  | heartbeat none => [": heartbeat", ""]
  | unavailable payload => ["event: error", "data: " ++ payload, ""]
  | done => ["retry: 1000", ""]

/-- What a reader makes of a frame. -/
def items : Frame → List Item
  | row cursor data => [.event (some (toString cursor)) "message" (data.getD "")]
  | initial tip => [.event none "message" tip]
  | heartbeat _ => [.comment]
  | unavailable payload => [.event none "error" payload]
  | done => []

end Frame

section Frames

theorem OneLine.append {s t : String} (hs : OneLine s) (ht : OneLine t) : OneLine (s ++ t) := by
  rw [OneLine, String.toList_append, List.mem_append, List.mem_append, not_or, not_or]
  exact ⟨⟨hs.1, ht.1⟩, hs.2, ht.2⟩

theorem oneLine_toString (n : Nat) : OneLine (toString n) :=
  ⟨fun h => absurd (isDigit_of_mem_toString h) (by decide),
    fun h => absurd (isDigit_of_mem_toString h) (by decide)⟩

theorem lineBytes_cons (line : String) (lines : List String) :
    lineBytes (line :: lines) = asBytes line ++ lineFeed :: lineBytes lines := by
  rw [lineBytes, List.flatMap_cons, List.append_assoc]
  rfl

/-- The last line of a text and the blank one after it. -/
theorem lineBytes_last (line : String) : lineBytes [line, ""] = asBytes (line ++ "\n\n") := by
  have hend : asBytes "\n\n" = lineFeed :: lineBytes [""] := by decide +kernel
  rw [lineBytes_cons, asBytes_append, hend]

/-- The text of a frame is its lines. -/
theorem Frame.asBytes_text (frame : Frame) : asBytes frame.text = lineBytes frame.lines := by
  have hdata (line data : String) : asBytes (line ++ "\ndata: " ++ data ++ "\n\n") =
      lineBytes [line, "data: " ++ data, ""] := by
    have hbreak : asBytes "\ndata: " = lineFeed :: asBytes "data: " := by decide +kernel
    rw [lineBytes_cons, lineBytes_last, asBytes_append, asBytes_append, asBytes_append, hbreak,
      asBytes_append, asBytes_append]
    simp only [List.append_assoc, List.cons_append]
  cases frame with
  | row cursor data =>
    cases data with
    | none => exact (lineBytes_last _).symm
    | some data => exact hdata _ _
  | initial tip => exact (lineBytes_last _).symm
  | heartbeat age =>
    cases age with
    | none => exact (lineBytes_last ": heartbeat").symm
    | some age => exact (lineBytes_last _).symm
  | unavailable payload => exact hdata "event: error" payload
  | done => exact (lineBytes_last "retry: 1000").symm

/-- The lines of a frame stay lines, if its texts do. -/
theorem Frame.oneLine_lines {frame : Frame} (h : ∀ s ∈ frame.carried, OneLine s) :
    ∀ line ∈ frame.lines, OneLine line := by
  have hid (n : Nat) : OneLine ("id: " ++ toString n) :=
    OneLine.append (by decide) (oneLine_toString n)
  have hdata {s : String} (hs : OneLine s) : OneLine ("data: " ++ s) :=
    OneLine.append (by decide) hs
  have hempty : OneLine "" := by decide
  have hnil : ∀ line ∈ ([] : List String), OneLine line := List.forall_mem_nil _
  cases frame with
  | row cursor data =>
    cases data with
    | none =>
      exact List.forall_mem_cons.mpr ⟨hid cursor, List.forall_mem_cons.mpr ⟨hempty, hnil⟩⟩
    | some data =>
      have hd := hdata (h data (List.mem_singleton_self data))
      exact List.forall_mem_cons.mpr
        ⟨hid cursor, List.forall_mem_cons.mpr ⟨hd, List.forall_mem_cons.mpr ⟨hempty, hnil⟩⟩⟩
  | initial tip =>
    have hd := hdata (h tip (List.mem_singleton_self tip))
    exact List.forall_mem_cons.mpr ⟨hd, List.forall_mem_cons.mpr ⟨hempty, hnil⟩⟩
  | heartbeat age =>
    cases age with
    | none => decide
    | some age =>
      have hage : OneLine (": heartbeat tipAge=" ++ toString age) :=
        OneLine.append (by decide) (oneLine_toString age)
      exact List.forall_mem_cons.mpr ⟨hage, List.forall_mem_cons.mpr ⟨hempty, hnil⟩⟩
  | unavailable payload =>
    have hd := hdata (h payload (List.mem_singleton_self payload))
    exact List.forall_mem_cons.mpr
      ⟨by decide, List.forall_mem_cons.mpr ⟨hd, List.forall_mem_cons.mpr ⟨hempty, hnil⟩⟩⟩
  | done => decide

/-- What a line with a field does. -/
theorem line_field (fields : EventFields) (field value : String)
    (hcolon : ':' ∉ field.toList) (hne : field ≠ "") :
    fields.line (field ++ ": " ++ value) =
      if field = "data" then
        (none, { fields with data := fields.data ++ [value], hasFields := true })
      else if field = "event" then (none, { fields with event := some value, hasFields := true })
      else if field = "id" ∧ '\x00' ∉ value.toList then
        (none, { fields with id := some value, hasFields := true })
      else (none, fields) := by
  have hlist : (field ++ ": " ++ value).toList = field.toList ++ ':' :: ' ' :: value.toList := by
    simp
  have hline : field ++ ": " ++ value ≠ "" := by
    rintro h
    rw [h] at hlist
    simp at hlist
  have hhead : (field ++ ": " ++ value).toList.head? ≠ some ':' := by
    obtain ⟨c, cs, hcs⟩ := List.exists_cons_of_ne_nil fun h => hne (String.toList_eq_nil_iff.mp h)
    rw [hlist, hcs, List.cons_append, List.head?_cons]
    rintro h
    exact hcolon (hcs ▸ Option.some_inj.mp h ▸ List.mem_cons_self)
  rw [EventFields.line, if_neg hline, if_neg hhead]
  dsimp only
  rw [fieldOf_line hcolon]

/-- **The lines of a frame** make its items, and leave nothing. -/
theorem Frame.lines_items (frame : Frame) :
    EventFields.lines {} frame.lines = (frame.items, {}) := by
  have hdata (fields : EventFields) (value : String) : fields.line ("data: " ++ value) =
      (none, { fields with data := fields.data ++ [value], hasFields := true }) :=
    line_field fields "data" value (by decide) (by decide)
  have hid (n : Nat) : EventFields.line {} ("id: " ++ toString n) =
      (none, { id := some (toString n), hasFields := true }) := by
    have hzero : '\x00' ∉ (toString n).toList := fun h =>
      absurd (isDigit_of_mem_toString h) (by decide)
    refine (line_field {} "id" (toString n) (by decide) (by decide)).trans ?_
    rw [if_neg (by decide), if_neg (by decide), if_pos ⟨rfl, hzero⟩]
  have hevent : EventFields.line {} "event: error" =
      (none, { event := some "error", hasFields := true }) :=
    line_field {} "event" "error" (by decide) (by decide)
  cases frame with
  | row cursor data =>
    cases data with
    | none =>
      simp only [lines, EventFields.lines, Transducer.run_cons, Transducer.run_nil, hid]
      rfl
    | some data =>
      simp only [lines, EventFields.lines, Transducer.run_cons, Transducer.run_nil, hid, hdata]
      rfl
  | initial tip =>
    simp only [lines, EventFields.lines, Transducer.run_cons, Transducer.run_nil, hdata]
    rfl
  | heartbeat age =>
    cases age with
    | none => decide +kernel
    | some age =>
      have hage : EventFields.line {} (": heartbeat tipAge=" ++ toString age) =
          (some .comment, {}) := by
        have hlist : (": heartbeat tipAge=" ++ toString age).toList =
            ':' :: (" heartbeat tipAge=" ++ toString age).toList := by simp
        rw [EventFields.line, if_neg, if_pos]
        · rw [hlist, List.head?_cons]
        · rintro h
          rw [h] at hlist
          simp at hlist
      simp only [lines, EventFields.lines, Transducer.run_cons, Transducer.run_nil, hage]
      rfl
  | unavailable payload =>
    simp only [lines, EventFields.lines, Transducer.run_cons, Transducer.run_nil, hevent, hdata]
    rfl
  | done => decide +kernel

/-- **A frame comes back from its text.** -/
theorem run_frame {frame : Frame} (h : ∀ s ∈ frame.carried, OneLine s) :
    Transducer.run Parser.byte {} (asBytes frame.text) = (frame.items, {}) := by
  rw [Frame.asBytes_text]
  refine (run_lines {} (Frame.oneLine_lines h)).trans ?_
  rw [Frame.lines_items]
  rfl

/-- The bytes of frames, one after the other. -/
def frameBytes (frames : List Frame) : List UInt8 := frames.flatMap fun frame => asBytes frame.text

theorem frameBytes_append (frames frames' : List Frame) :
    frameBytes (frames ++ frames') = frameBytes frames ++ frameBytes frames' :=
  List.flatMap_append

/-- **Frames come back from their bytes.** -/
theorem run_frames {frames : List Frame} (h : ∀ frame ∈ frames, ∀ s ∈ frame.carried, OneLine s) :
    Transducer.run Parser.byte {} (frameBytes frames) = (frames.flatMap Frame.items, {}) := by
  induction frames with
  | nil => rfl
  | cons frame frames ih =>
    obtain ⟨hframe, hframes⟩ := List.forall_mem_cons.mp h
    have hrest := ih hframes
    rw [frameBytes] at hrest
    rw [frameBytes, List.flatMap_cons, List.flatMap_cons, Transducer.run_append, run_frame hframe]
    dsimp only
    rw [hrest]

end Frames

/-! ### The frames of a read -/

/-- `View`. -/
inductive View
  | envelope
  | tip
  | reorg
  deriving DecidableEq

/-- What the feed makes of a payload: the reader of it, and the JSON of the two views. A text
of JSON has no end of a line in it. -/
structure FeedTexts extends PayloadReader where
  /-- The header of a tip, as `ts_header` has it. -/
  tipView : String → String
  /-- The two tips and the deactivated headers of a reorg. -/
  reorgView : String → String
  quote_line : ∀ fault, OneLine (quote fault)
  tipView_line : ∀ payload, OneLine (tipView payload)
  reorgView_line : ∀ payload, OneLine (reorgView payload)

section Views

variable (texts : FeedTexts)

/-- `compatibility_view`, of a payload that decodes. -/
def compatibilityView (payload : String) : View → Option String
  | .tip => if texts.kind payload = some "tip" then some (texts.tipView payload) else none
  | .reorg => if texts.kind payload = some "reorg" then some (texts.reorgView payload) else none
  | .envelope => none

/-- `sse_frame`. -/
def sseFrame (event : JournalEvent) (view : View) : Except String Frame :=
  match view with
  | .envelope => .ok (.row event.cursor (some event.payload))
  | view =>
    if event.fault.isSome then .ok (.row event.cursor none)
    else (texts.decode event.payload).map fun _ =>
      .row event.cursor (compatibilityView texts event.payload view)

/-- `wake_frames`, at a clock: the frames of the rows, or else a heartbeat with the tip's
age. -/
def wakeFrames (wake : Wake) (view : View) (now : Nat) : Except String (List Frame) :=
  (wake.page.events.mapM fun event => sseFrame texts event view).map fun frames =>
    if frames = [] then [.heartbeat (wake.tip.map fun tip => now - tip.time.toNat)] else frames

/-- The data a row's frame carries. -/
def rowData (view : View) (row : EventRow) : Option String :=
  if view = .envelope then some (journalEvent texts.toPayloadReader row).payload
  else if (journalEvent texts.toPayloadReader row).fault.isSome then none
  else compatibilityView texts row.payload view

/-- The event a row becomes for a reader of the stream. -/
def rowItem (view : View) (row : EventRow) : Item :=
  .event (some (toString row.cursor)) "message" ((rowData texts view row).getD "")

variable {texts} {view : View}

/-- **The frame of a row**: it has one in every view, readable or not. -/
theorem sseFrame_journalEvent (row : EventRow) :
    sseFrame texts (journalEvent texts.toPayloadReader row) view =
      .ok (.row row.cursor (rowData texts view row)) := by
  by_cases hview : view = .envelope
  · rw [hview, sseFrame, rowData, if_pos rfl, journalEvent_cursor]
  · rw [sseFrame, rowData, if_neg hview, journalEvent_cursor, journalEvent]
    · cases hdecode : texts.decode row.payload with
      | error fault => rfl
      | ok _ =>
        dsimp only
        rw [if_neg (by simp), if_neg (by simp), hdecode]
        rfl
    · exact hview

/-- A row whose payload stays on one line carries what stays on one line. -/
theorem oneLine_rowData {row : EventRow} (h : OneLine row.payload) :
    ∀ s ∈ rowData texts view row, OneLine s := by
  have hevent : OneLine (journalEvent texts.toPayloadReader row).payload := by
    rw [journalEvent]
    cases texts.decode row.payload with
    | ok _ => exact h
    | error fault =>
      refine OneLine.append (OneLine.append (OneLine.append (OneLine.append ?_
        (oneLine_toString _)) ?_) (texts.quote_line fault)) ?_ <;> decide
  rintro s hs
  rw [rowData] at hs
  split at hs
  · rw [Option.mem_some_iff] at hs
    exact hs ▸ hevent
  · split at hs
    · cases hs
    · cases view with
      | envelope => cases hs
      | tip =>
        rw [compatibilityView] at hs
        split at hs
        · rw [Option.mem_some_iff] at hs
          exact hs ▸ texts.tipView_line _
        · cases hs
      | reorg =>
        rw [compatibilityView] at hs
        split at hs
        · rw [Option.mem_some_iff] at hs
          exact hs ▸ texts.reorgView_line _
        · cases hs

/-- The frames of rows. -/
theorem mapM_sseFrame (rows : List EventRow) :
    (rows.map (journalEvent texts.toPayloadReader)).mapM (fun event => sseFrame texts event view) =
      .ok (rows.map fun row => .row row.cursor (rowData texts view row)) := by
  induction rows with
  | nil => rfl
  | cons row rows ih =>
    rw [List.map_cons, List.mapM_cons, sseFrame_journalEvent, ih]
    rfl

end Views

/-! ### The cursor in an id -/

/-- `parse_cursor`, of the values of `since` and of the `Last-Event-ID`. -/
def parseCursor (since : List String) (lastEventId : Option String) : Except String (Option Nat) :=
  if 1 < since.length then .error "duplicate since cursor"
  else
    match lastEventId <|> since.head? with
    | none => .ok none
    | some raw =>
      if raw = "" ∨ !raw.toList.all Char.isDigit then .error "cursor must be unsigned decimal"
      else if Nat.ofDigitChars 10 raw.toList 0 ≤ maxCursor then
        .ok (some (Nat.ofDigitChars 10 raw.toList 0))
      else .error "cursor out of range"

/-- **A cursor comes back from its id.** -/
theorem parseCursor_toString {since : List String} (hsince : since.length ≤ 1) {n : Nat}
    (hn : n ≤ maxCursor) : parseCursor since (some (toString n)) = .ok (some n) := by
  have hdigits : (toString n).toList.all Char.isDigit = true :=
    List.all_eq_true.mpr fun c hc => isDigit_of_mem_toString hc
  have hne : toString n ≠ "" := Nat.repr_ne_empty
  rw [parseCursor, if_neg (Nat.not_lt.mpr hsince)]
  change (if _ then _ else _ : Except String (Option Nat)) = _
  rw [if_neg (not_or.mpr ⟨hne, by rw [hdigits]; decide⟩), ofDigitChars_toString, if_pos hn]

/-! ### What is written is read back -/

section ReadBack

variable {texts : FeedTexts} {json : TipJson} {wake : Wake}

/-- A wake, of rows that stay on one line. -/
def WakeOf (texts : FeedTexts) (json : TipJson) (wake : Wake) (rows : List EventRow) : Prop :=
  ∃ (j : EventJournal) (tip : Option ServedTip) (since limit : Nat),
    readWake texts.toPayloadReader json j tip since limit = .ok wake ∧
      (∀ row ∈ j.rows, OneLine row.payload) ∧
      rows = Pages.between EventRow.cursor j.rows since wake.page.cursor

/-- The rows of a wake are its events, and their cursors are in range. -/
theorem WakeOf.rows {rows : List EventRow} (h : WakeOf texts json wake rows) :
    wake.page.events = rows.map (journalEvent texts.toPayloadReader) ∧
      ∀ row ∈ rows, OneLine row.payload ∧ row.cursor ≤ maxCursor := by
  obtain ⟨j, tip, since, limit, hread, hline, rfl⟩ := h
  rw [readWake_eq] at hread
  split at hread
  · cases hread
  split at hread
  · cases hread
  rename_i hhead
  obtain ⟨-, -, hevents, -⟩ := @page_of_rows wake.page texts.toPayloadReader j since limit
    (by rw [← Except.ok.inj hread])
  refine ⟨hevents, ?_⟩
  rintro row hrow
  have hmem := (Pages.mem_between.mp hrow).1
  exact ⟨hline row hmem, (EventJournal.cursor_le_head hmem).trans (Nat.not_lt.mp hhead)⟩

/-- What a reader makes of a wake: its rows' events, or one comment. -/
def wakeItems (texts : FeedTexts) (view : View) (rows : List EventRow) : List Item :=
  if rows = [] then [.comment] else rows.map (rowItem texts view)

/-- The frames of a wake are written, whatever it read. -/
theorem wakeFrames_ok {rows : List EventRow} (view : View) (now : Nat)
    (h : wake.page.events = rows.map (journalEvent texts.toPayloadReader)) :
    ∃ frames, wakeFrames texts wake view now = .ok frames ∧
      frames.flatMap Frame.items = wakeItems texts view rows ∧
      ((∀ row ∈ rows, OneLine row.payload) → ∀ frame ∈ frames, ∀ s ∈ frame.carried, OneLine s) := by
  rw [wakeFrames, h, mapM_sseFrame]
  refine ⟨_, rfl, ?_⟩
  cases rows with
  | nil => exact ⟨rfl, fun _ => List.forall_mem_singleton.mpr (List.forall_mem_nil _)⟩
  | cons row rows =>
    dsimp only
    rw [if_neg (by rw [List.map_eq_nil_iff]; exact List.cons_ne_nil _ _), wakeItems,
      if_neg (List.cons_ne_nil _ _)]
    refine ⟨?_, fun hline => ?_⟩
    · rw [List.flatMap_map]
      exact List.map_eq_flatMap.symm
    · rintro frame hframe s hs
      obtain ⟨r, hr, rfl⟩ := List.mem_map.mp hframe
      exact oneLine_rowData (hline r hr) s (Option.mem_toList.mp hs)

/-- **What the feed writes is read back**, in every view and however it arrives. Of any wakes
of a stream, whatever rows they read and however the bytes are cut into chunks: a parser of a
stream whose lines have at most `MAX_LINE` bytes is given each row's event once and in order,
readable or not, and a comment for each wake without a row, and is left with nothing; and the
id of each event is a cursor the feed reads as the row's. -/
theorem stream_read_back (texts : FeedTexts) (json : TipJson) (view : View)
    (wakes : List (Wake × List EventRow × Nat))
    (hwakes : ∀ w ∈ wakes, WakeOf texts json w.1 w.2.1) :
    ∃ frames, wakes.mapM (fun w => wakeFrames texts w.1 view w.2.2) = .ok frames ∧
      (∀ chunks, chunks.flatten = frameBytes frames.flatten →
        (∀ line ∈ chunks.flatten.splitOn lineFeed, line.length ≤ maxLine) →
        Parser.feedAll {} chunks = (.ok (wakes.flatMap fun w => wakeItems texts view w.2.1), {})) ∧
      ∀ w ∈ wakes, ∀ row ∈ w.2.1,
        parseCursor [] (some (toString row.cursor)) = .ok (some row.cursor) := by
  obtain ⟨frames, hframes, hitems, hline⟩ : ∃ frames : List (List Frame),
      wakes.mapM (fun w => wakeFrames texts w.1 view w.2.2) = .ok frames ∧
        frames.flatten.flatMap Frame.items = wakes.flatMap (fun w => wakeItems texts view w.2.1) ∧
        ∀ frame ∈ frames.flatten, ∀ s ∈ frame.carried, OneLine s := by
    induction wakes with
    | nil => exact ⟨[], rfl, rfl, List.forall_mem_nil _⟩
    | cons w wakes ih =>
      obtain ⟨hw, hwakes⟩ := List.forall_mem_cons.mp hwakes
      obtain ⟨frames, hframes, hitems, hline⟩ := ih hwakes
      obtain ⟨hevents, hrows⟩ := hw.rows
      obtain ⟨first, hfirst, hfirstItems, hfirstLine⟩ := wakeFrames_ok view w.2.2 hevents
      refine ⟨first :: frames, ?_, ?_, ?_⟩
      · rw [List.mapM_cons, hfirst, hframes]
        rfl
      · rw [List.flatten_cons, List.flatMap_append, List.flatMap_cons, hfirstItems, hitems]
      · rw [List.flatten_cons, List.forall_mem_append]
        exact ⟨hfirstLine fun row hrow => (hrows row hrow).1, hline⟩
  refine ⟨frames, hframes, fun chunks hchunks hlines => ?_, fun w hw row hrow => ?_⟩
  · have hfits : Parser.Fits {} chunks.flatten := ⟨List.not_mem_nil, hlines⟩
    rw [hfits.feedAll, hchunks, run_frames hline, hitems]
  · exact @parseCursor_toString [] (Nat.zero_le 1) _ ((hwakes w hw).rows.2 row hrow).2

end ReadBack

/-! ### Two rows -/

/-- Texts of a feed: an empty object is no envelope. -/
def emptyTexts : FeedTexts where
  decode payload :=
    if payload = "\x7b\x7d" then .error "unknownVersion: missing v" else .ok ()
  kind payload := if payload = "\x7b\x7d" then none else some "invalidated"
  quote fault := "\"" ++ String.ofList (fault.toList.filter fun c => c ≠ '\n' ∧ c ≠ '\r') ++ "\""
  tipView _ := "\x7b\x7d"
  reorgView _ := "\x7b\x7d"
  quote_line fault := OneLine.append (OneLine.append (by decide) (by simp [OneLine])) (by decide)
  tipView_line _ := by decide
  reorgView_line _ := by decide

/-- A served tip written with commas. -/
def commaTip (tip : ServedTip) : String :=
  toString tip.height.toNat ++ "," ++ toString tip.time.toNat ++ "," ++ tip.hash

/-- What reads it back. -/
def readCommaTip (raw : String) : Except String ServedTip :=
  let rest := (raw.toList.dropWhile (· != ',')).tail
  .ok ⟨.ofNat (Nat.ofDigitChars 10 (raw.toList.takeWhile (· != ',')) 0),
    String.ofList (rest.dropWhile (· != ',')).tail,
    .ofNat (Nat.ofDigitChars 10 (rest.takeWhile (· != ',')) 0)⟩

theorem readCommaTip_commaTip (tip : ServedTip) : readCommaTip (commaTip tip) = .ok tip := by
  have hdigits (n : Nat) : ',' ∉ (toString n).toList := fun h =>
    absurd (isDigit_of_mem_toString h) (by decide)
  have hlist : (commaTip tip).toList = (toString tip.height.toNat).toList ++
      ',' :: ((toString tip.time.toNat).toList ++ ',' :: tip.hash.toList) := by
    simp [commaTip]
  obtain ⟨hheight, hrest⟩ := cut_at ((toString tip.time.toNat).toList ++ ',' :: tip.hash.toList)
    (hdigits tip.height.toNat)
  obtain ⟨htime, hhash⟩ := cut_at tip.hash.toList (hdigits tip.time.toNat)
  rw [readCommaTip, hlist, hheight, hrest, List.tail_cons, htime, hhash, List.tail_cons,
    ofDigitChars_toString, ofDigitChars_toString, UInt32.ofNat_toNat, UInt32.ofNat_toNat,
    String.ofList_toList]

/-- Served tips, written and read. -/
def commaJson : TipJson := ⟨commaTip, readCommaTip, readCommaTip_commaTip⟩

/-- A payload that is read. -/
def frozenText : String :=
  "\x7b\"v\":1,\"kind\":\"frozen\",\"outpoint\":\x7b\"txid\":\"é\",\"vout\":0\x7d\x7d"

/-- A journal of a row that is read and one that is not. -/
def twoRows : EventJournal := (EventJournal.fresh.append frozenText none 1).append "\x7b\x7d" none 2

/-- A wake that reads both, and the wake after it. -/
def twoWakes : List (Wake × List EventRow × Nat) :=
  [(⟨⟨2, twoRows.page emptyTexts.toPayloadReader 0 100, false⟩, 2, 0, none⟩, twoRows.rows, 60),
    (⟨⟨2, [], false⟩, 2, 0, none⟩, [], 75)]

/-- What it writes, cut inside the two bytes of a character and inside an id. -/
def cutWakes : List (List UInt8) :=
  let bytes := frameBytes [.row 1 (some frozenText),
    .row 2 (some (unreadable emptyTexts.toPayloadReader 2 "unknownVersion: missing v")),
    .heartbeat none]
  [bytes.take 56, (bytes.drop 56).take 19, bytes.drop 75]

theorem stream_read_back_cut : Parser.feedAll {} cutWakes =
    (.ok [.event (some "1") "message" frozenText,
      .event (some "2") "message" ("\x7b\"v\":1,\"kind\":\"unreadable\",\"cursor\":2,\"fault\":" ++
        "\"unknownVersion: missing v\"\x7d"),
      .comment], {}) := by
  have hline : ∀ row ∈ twoRows.rows, OneLine row.payload := by decide +kernel
  have hwakes : ∀ w ∈ twoWakes, WakeOf emptyTexts commaJson w.1 w.2.1 :=
    List.forall_mem_cons.mpr ⟨⟨twoRows, none, 0, 100, rfl, hline, by decide +kernel⟩,
      List.forall_mem_singleton.mpr ⟨twoRows, none, 2, 100, rfl, hline, by decide +kernel⟩⟩
  obtain ⟨frames, hframes, hread, -⟩ :=
    stream_read_back emptyTexts commaJson .envelope twoWakes hwakes
  have hwritten : cutWakes.flatten = frameBytes frames.flatten := by
    rw [← Except.ok.inj (Eq.trans (show _ = Except.ok _ from rfl) hframes)]
    decide +kernel
  refine (hread cutWakes hwritten ?_).trans ?_
  · decide +kernel
  · decide +kernel

end Chaintracks

import Chaintracks.Library.Transducer

/-!
# The reader's half of an event stream

The tip stream arrives in chunks that respect nothing: a chunk may end inside a character
of several bytes, between the two bytes of a line's end, or inside a field's name.
`Chaintracks.Parser` holds the bytes of the line that has not ended yet, and the fields of
the event that has not been dispatched.

`Chaintracks.Parser.byte` is the machine the parser stands for: one byte at a time, a line
looked at when its end comes. `Chaintracks.Parser.feed` appends a chunk and takes out line
after line, which is the same (`Chaintracks.Parser.drain_eq`), so nothing depends on the
chunks (`Chaintracks.Parser.feed_chunks`).
-/

namespace Chaintracks

/-! ### Bytes to text -/

/-- The end of a line. -/
def lineFeed : UInt8 := 0x0A

/-- The byte a line may carry before its end. -/
def carriageReturn : UInt8 := 0x0D

/-- A character of several bytes, begun: how many bytes are missing, the bits so far, and
what the next byte may be. -/
structure Utf8Begun where
  missing : Nat
  bits : Nat
  lo : UInt8
  hi : UInt8
  deriving DecidableEq

/-- What one more byte makes of the characters so far. -/
inductive Utf8Step
  | char (c : Char)
  | more (begun : Utf8Begun)
  | bad
  deriving DecidableEq

/-- The first byte of a character. -/
def utf8First (b : UInt8) : Utf8Step :=
  if b < 0x80 then .char (Char.ofNat b.toNat)
  else if 0xC2 ≤ b ∧ b ≤ 0xDF then .more ⟨1, b.toNat - 0xC0, 0x80, 0xBF⟩
  else if 0xE0 ≤ b ∧ b ≤ 0xEF then
    .more ⟨2, b.toNat - 0xE0, if b = 0xE0 then 0xA0 else 0x80, if b = 0xED then 0x9F else 0xBF⟩
  else if 0xF0 ≤ b ∧ b ≤ 0xF4 then
    .more ⟨3, b.toNat - 0xF0, if b = 0xF0 then 0x90 else 0x80, if b = 0xF4 then 0x8F else 0xBF⟩
  else .bad

/-- A later byte of a character. -/
def Utf8Begun.next (begun : Utf8Begun) (b : UInt8) : Utf8Step :=
  if begun.lo ≤ b ∧ b ≤ begun.hi then
    let bits := begun.bits * 64 + (b.toNat - 0x80)
    if begun.missing = 1 then .char (Char.ofNat bits)
    else .more ⟨begun.missing - 1, bits, 0x80, 0xBF⟩
  else .bad

/-- `String::from_utf8_lossy`, after a character begun: each longest beginning of a
character that does not end as one becomes one replacement character. -/
def utf8Lossy : Option Utf8Begun → List UInt8 → List Char
  | none, [] => []
  | some _, [] => ['\uFFFD']
  | none, b :: bs =>
    match utf8First b with
    | .char c => c :: utf8Lossy none bs
    | .more begun => utf8Lossy (some begun) bs
    | .bad => '\uFFFD' :: utf8Lossy none bs
  | some begun, b :: bs =>
    match begun.next b with
    | .char c => c :: utf8Lossy none bs
    | .more begun => utf8Lossy (some begun) bs
    | .bad =>
      -- the byte that does not fit may itself begin a character
      '\uFFFD' :: match utf8First b with
        | .char c => c :: utf8Lossy none bs
        | .more begun => utf8Lossy (some begun) bs
        | .bad => '\uFFFD' :: utf8Lossy none bs

/-- `String::from_utf8_lossy`. -/
def fromUtf8Lossy (bytes : List UInt8) : String := String.ofList (utf8Lossy none bytes)

/-! ### The parser -/

/-- `Item`: one dispatched event, or a comment. -/
inductive Item
  | comment
  | event (id : Option String) (event : String) (data : String)
  deriving DecidableEq

/-- The fields of the event that is being read. -/
structure EventFields where
  data : List String := []
  event : Option String := none
  id : Option String := none
  hasFields : Bool := false
  deriving DecidableEq

/-- `Parser`: the event's fields, and the bytes of the line that has no end yet. -/
structure Parser extends EventFields where
  pending : List UInt8 := []
  deriving DecidableEq

/-- The longest line, in bytes. -/
def maxLine : Nat := 64 * 1024

namespace EventFields

/-- `split_once`. -/
def splitOnce (c : Char) (s : String) : Option (String × String) :=
  match s.toList.dropWhile (· != c) with
  | [] => none
  | _ :: after => some (String.ofList (s.toList.takeWhile (· != c)), String.ofList after)

/-- `strip_prefix`, or the text as it is. -/
def stripPrefix (c : Char) (s : String) : String :=
  match s.toList with
  | [] => s
  | first :: rest => if first = c then String.ofList rest else s

/-- The field a line carries and its value. -/
def fieldOf (line : String) : String × String :=
  match splitOnce ':' line with
  | some (field, value) => (field, stripPrefix ' ' value)
  | none => (line, "")

/-- `Parser::line`. -/
def line (p : EventFields) (line : String) : Option Item × EventFields :=
  if line = "" then
    if !p.hasFields then (none, p)
    else (some (.event p.id (p.event.getD "message") ("\n".intercalate p.data)), {})
  else if line.toList.head? = some ':' then (some .comment, p)
  else
    let value := (fieldOf line).2
    if (fieldOf line).1 = "data" then
      (none, { p with data := p.data ++ [value], hasFields := true })
    else if (fieldOf line).1 = "event" then
      (none, { p with event := some value, hasFields := true })
    else if (fieldOf line).1 = "id" ∧ '\x00' ∉ value.toList then
      (none, { p with id := some value, hasFields := true })
    else (none, p)

end EventFields

/-- The bytes before the first end of a line, and those after it. -/
def cutLine : List UInt8 → Option (List UInt8 × List UInt8)
  | [] => none
  | b :: bs =>
    if b = lineFeed then some ([], bs)
    else (cutLine bs).map fun cut => (b :: cut.1, cut.2)

/-- A line without the carriage return before its end. -/
def stripReturn (line : List UInt8) : List UInt8 :=
  if line.getLast? = some carriageReturn then line.dropLast else line

namespace Parser

/-- What the end of a line does: the line is looked at, and nothing is pending but what
came after. -/
def endLine (fields : EventFields) (line rest : List UInt8) : List Item × Parser :=
  let answer := fields.line (fromUtf8Lossy (stripReturn line))
  (answer.1.toList, { answer.2 with pending := rest })

/-- The loop of `Parser::feed`, with a bound on how often it turns: line after line is
taken out of the pending bytes. -/
def drain : Nat → Parser → List Item × Parser
  | 0, p => ([], p)
  | fuel + 1, p =>
    match cutLine p.pending with
    | none => ([], p)
    | some cut =>
      let ended := endLine p.toEventFields cut.1 cut.2
      (ended.1 ++ (drain fuel ended.2).1, (drain fuel ended.2).2)

/-- `Parser::feed`: what the chunk completed, and the parser as it is left. -/
def feed (p : Parser) (chunk : List UInt8) : Except String (List Item) × Parser :=
  let pending := p.pending ++ chunk
  let drained := drain pending.length { p with pending := pending }
  if maxLine < drained.2.pending.length then
    (.error s!"a line of more than {maxLine} bytes with no end", drained.2)
  else (.ok drained.1, drained.2)

/-- The chunks fed in order, as far as none errs. -/
def feedAll (p : Parser) : List (List UInt8) → Except String (List Item) × Parser
  | [] => (.ok [], p)
  | chunk :: chunks =>
    match p.feed chunk with
    | (.error e, q) => (.error e, q)
    | (.ok items, q) => ((q.feedAll chunks).1.map (items ++ ·), (q.feedAll chunks).2)

/-! ### One byte at a time -/

/-- The machine the parser stands for: a byte is kept until the end of its line. -/
def byte (p : Parser) (b : UInt8) : List Item × Parser :=
  if b = lineFeed then endLine p.toEventFields p.pending []
  else ([], { p with pending := p.pending ++ [b] })

/-- No end of a line is pending. -/
theorem cutLine_eq_none {pending : List UInt8} (h : lineFeed ∉ pending) :
    cutLine pending = none := by
  induction pending with
  | nil => rfl
  | cons b bs ih =>
    rw [List.mem_cons, not_or] at h
    rw [cutLine, if_neg (Ne.symm h.1), ih h.2, Option.map_none]

theorem cutLine_append {line : List UInt8} (h : lineFeed ∉ line) (rest : List UInt8) :
    cutLine (line ++ lineFeed :: rest) = some (line, rest) := by
  induction line with
  | nil => rw [List.nil_append, cutLine, if_pos rfl]
  | cons b bs ih =>
    rw [List.mem_cons, not_or] at h
    rw [List.cons_append, cutLine, if_neg (Ne.symm h.1), ih h.2, Option.map_some]

/-- **Taking out line after line is reading byte after byte.** -/
theorem drain_eq {chunk : List UInt8} {fuel : Nat} (hfuel : chunk.length ≤ fuel) (p : Parser)
    (hp : lineFeed ∉ p.pending) :
    drain fuel { p with pending := p.pending ++ chunk } = Transducer.run byte p chunk := by
  induction chunk generalizing fuel p with
  | nil =>
    rw [List.append_nil, Transducer.run_nil]
    cases fuel with
    | zero => rfl
    | succ fuel => rw [drain, cutLine_eq_none hp]
  | cons b chunk ih =>
    rw [List.length_cons] at hfuel
    rw [Transducer.run_cons]
    by_cases hb : b = lineFeed
    · subst hb
      obtain ⟨fuel, rfl⟩ : ∃ n, fuel = n + 1 := ⟨fuel - 1, by omega⟩
      have hrest := ih (Nat.le_of_succ_le_succ hfuel) (byte p lineFeed).2
        (by rw [byte, if_pos rfl]; exact List.not_mem_nil)
      have hbyte : byte p lineFeed = endLine p.toEventFields p.pending [] := if_pos rfl
      rw [drain, cutLine_append hp]
      rw [hbyte] at hrest ⊢
      rw [← hrest]
      rfl
    · have hbyte : byte p b = ([], { p with pending := p.pending ++ [b] }) := if_neg hb
      rw [hbyte, ← ih (Nat.le_of_succ_le hfuel)]
      · rw [List.append_cons, List.nil_append]
      · rw [List.mem_append, List.mem_singleton, not_or]
        exact ⟨hp, Ne.symm hb⟩

/-! ### Lines that fit -/

/-- The lines of what is pending and what is still to come are short enough, and no end of
one is pending. -/
def Fits (p : Parser) (stream : List UInt8) : Prop :=
  lineFeed ∉ p.pending ∧ ∀ line ∈ (p.pending ++ stream).splitOn lineFeed, line.length ≤ maxLine

theorem Fits.byte (p : Parser) (b : UInt8) (stream : List UInt8) (h : p.Fits (b :: stream)) :
    (p.byte b).2.Fits stream := by
  obtain ⟨hp, hlines⟩ := h
  by_cases hb : b = lineFeed
  · subst hb
    rw [Parser.byte, if_pos rfl]
    refine ⟨List.not_mem_nil, fun line hline => hlines line ?_⟩
    rw [List.splitOn_append_cons_self_of_not_mem hp]
    exact List.mem_cons_of_mem _ hline
  · rw [Parser.byte, if_neg hb]
    refine ⟨?_, ?_⟩
    · rw [List.mem_append, List.mem_singleton, not_or]
      exact ⟨hp, Ne.symm hb⟩
    · rwa [List.append_assoc, List.singleton_append]

/-- The pending bytes begin a line, so they are no more than a line. -/
theorem Fits.pending_le {p : Parser} {stream : List UInt8} (h : p.Fits stream) :
    p.pending.length ≤ maxLine := by
  obtain ⟨hp, hlines⟩ := h
  have hfirst : ∃ rest, p.pending ++ rest ∈ (p.pending ++ stream).splitOn lineFeed := by
    by_cases hmem : lineFeed ∈ stream
    · obtain ⟨before, after, rfl, hbefore⟩ := List.eq_append_cons_of_mem hmem
      have hno : lineFeed ∉ p.pending ++ before := by
        rw [List.mem_append, not_or]
        exact ⟨hp, hbefore⟩
      rw [← List.append_assoc, List.splitOn_append_cons_self_of_not_mem hno]
      exact ⟨before, List.mem_cons_self⟩
    · have hno : lineFeed ∉ p.pending ++ stream := by
        rw [List.mem_append, not_or]
        exact ⟨hp, hmem⟩
      rw [List.splitOn_eq_singleton hno]
      exact ⟨stream, List.mem_singleton_self _⟩
  obtain ⟨rest, hrest⟩ := hfirst
  have hle := hlines _ hrest
  rw [List.length_append] at hle
  omega

/-- **A chunk of a stream whose lines fit** is read byte by byte, without an error. -/
theorem Fits.feed {p : Parser} {chunk rest : List UInt8} (h : p.Fits (chunk ++ rest)) :
    p.feed chunk = (.ok (Transducer.run Parser.byte p chunk).1,
      (Transducer.run Parser.byte p chunk).2) := by
  have hlen : chunk.length ≤ (p.pending ++ chunk).length := by
    rw [List.length_append]
    exact Nat.le_add_left _ _
  have hafter := Transducer.run_keeps Fits.byte h
  rw [Parser.feed, drain_eq hlen p h.1, if_neg (Nat.not_lt.mpr hafter.pending_le)]

/-- The chunks of a stream whose lines fit are read byte by byte. -/
theorem Fits.feedAll {p : Parser} {chunks : List (List UInt8)} (h : p.Fits chunks.flatten) :
    p.feedAll chunks = (.ok (Transducer.run Parser.byte p chunks.flatten).1,
      (Transducer.run Parser.byte p chunks.flatten).2) := by
  induction chunks generalizing p with
  | nil => rfl
  | cons chunk chunks ih =>
    rw [List.flatten_cons] at h ⊢
    rw [Parser.feedAll, h.feed, Transducer.run_append]
    dsimp only
    rw [ih (Transducer.run_keeps Fits.byte h)]
    rfl

end Parser

/-- **The stream parser does not depend on chunking.** However a stream whose lines have at
most `MAX_LINE` bytes is cut into chunks, feeding them in order to a new parser never
errs, and gives the items and leaves the parser that feeding the whole stream at once
does. -/
theorem feed_chunks (chunks : List (List UInt8))
    (hlines : ∀ line ∈ chunks.flatten.splitOn lineFeed, line.length ≤ maxLine) :
    ∃ items p, Parser.feedAll {} chunks = (.ok items, p) ∧
      Parser.feed {} chunks.flatten = (.ok items, p) := by
  have hfits : Parser.Fits {} chunks.flatten := ⟨List.not_mem_nil, hlines⟩
  refine ⟨_, _, hfits.feedAll, ?_⟩
  rw [← List.append_nil chunks.flatten] at hfits
  exact hfits.feed

/-- A tip's event, cut inside the two bytes of a character, between the two bytes of the
line's end, and with nothing in one chunk. -/
def cutEvent : List (List UInt8) :=
  [[0x69, 0x64, 0x3A, 0xC3], [0xA9, 0x0D], [], [0x0A, 0x64, 0x61, 0x74],
    [0x61, 0x3A, 0x20, 0x37, 0x0D, 0x0A, 0x0D], [0x0A]]

theorem feed_chunks_cutEvent :
    Parser.feedAll {} cutEvent = (.ok [.event (some "é") "message" "7"], {}) := by
  obtain ⟨items, p, hall, hone⟩ := feed_chunks cutEvent (by decide +kernel)
  have hwhole : Parser.feed {} cutEvent.flatten = (.ok [.event (some "é") "message" "7"], {}) := by
    decide +kernel
  rw [hall, ← hone, hwhole]

end Chaintracks

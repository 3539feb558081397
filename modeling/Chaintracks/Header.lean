import Mathlib

/-!
# Block headers and the parameters they are judged by

A header arrives as eighty bytes, a claimed height and a claimed hash. The height is
in none of the eighty bytes, so nothing about a header alone says where it stands;
the hash text is a key the store compares letter by letter, while the checks compare
it without regard to case.

The arithmetic of the rules – the hash of the frame, the compact targets, the proof a
target stands for, the difficulty rule – is bsv-rs's and enters as a parameter:
`Chaintracks.BsvRs` for the functions that depend on no chain,
`Chaintracks.PowParams` for those a chain's parameters carry. What is this program's
own is modelled: the framing of a stored header, the order of the checks and the
refusals they name (`Chaintracks.HeaderFault`), the checkpoints and the anchors.
-/

namespace Chaintracks

/-! ### Hash texts -/

/-- The text of the zero hash, which the genesis names as its parent. -/
def zeroHash : String := String.ofList (List.replicate 64 '0')

/-- Keys that may be missing are compared by their texts. -/
instance lawfulKey : LawfulBEq (Option String) := inferInstance

/-- The bytes of a text. -/
def asBytes (s : String) : List UInt8 := s.toByteArray.data.toList

/-- `u8::to_ascii_lowercase`. -/
def lowerByte (b : UInt8) : UInt8 := if 65 ≤ b ∧ b ≤ 90 then b + 32 else b

/-- `str::to_ascii_lowercase`, as the bytes of the text it answers. -/
def toAsciiLowercase (s : String) : List UInt8 := (asBytes s).map lowerByte

/-- `str::eq_ignore_ascii_case`. -/
def eqIgnoreAsciiCase (a b : String) : Bool := toAsciiLowercase a == toAsciiLowercase b

@[simp] theorem eqIgnoreAsciiCase_self (a : String) : eqIgnoreAsciiCase a a = true := by
  simp [eqIgnoreAsciiCase]

/-- A hash in internal order: thirty-two bytes. -/
structure Hash32 where
  bytes : List UInt8
  size : bytes.length = 32
  deriving DecidableEq

namespace Hash32

/-- The hash of thirty-two zero bytes. -/
def zero : Hash32 := ⟨List.replicate 32 0, rfl⟩

/-- One hex digit, of either case. -/
def hexDigit (b : UInt8) : Option UInt8 :=
  if 48 ≤ b ∧ b ≤ 57 then some (b - 48)
  else if 97 ≤ b ∧ b ≤ 102 then some (b - 87)
  else if 65 ≤ b ∧ b ≤ 70 then some (b - 55)
  else none

/-- `hex::decode`: two digits a byte, nothing else. -/
def hexDecode : List UInt8 → Option (List UInt8)
  | [] => some []
  | [_] => none
  | a :: b :: rest => do
    let hi ← hexDigit a
    let lo ← hexDigit b
    let bytes ← hexDecode rest
    pure ((16 * hi + lo) :: bytes)

end Hash32

/-- `internal_order`: a display-order hash as the frame carries it; zeros when it is
not sixty-four hex digits. -/
def internalOrder (display : String) : Hash32 :=
  match Hash32.hexDecode (asBytes display) with
  | some bytes =>
    if h : bytes.length = 32 then ⟨bytes.reverse, by rw [List.length_reverse, h]⟩
    else Hash32.zero
  | none => Hash32.zero

/-! ### What bsv-rs answers -/

/-- The eighty-byte frame as bsv-rs types it. -/
structure WireHeader where
  version : UInt32
  prevHash : Hash32
  merkleRoot : Hash32
  time : UInt32
  bits : UInt32
  nonce : UInt32
  deriving DecidableEq

/-- `bsv_rs::block::PowError`. The enumeration is open; `other` is what it may yet
grow. -/
inductive PowError
  | bitsNegative (bits : UInt32)
  | bitsZero (bits : UInt32)
  | bitsOverflow (bits : UInt32)
  | bitsAboveLimit (bits : UInt32)
  | highHash (bits : UInt32)
  | other
  deriving DecidableEq

/-- `bsv_rs::block::DifficultyError`: an ancestor the rule needed and was not given,
or a question the rule has no answer to. -/
inductive DifficultyError
  | missingAncestor (height : Nat)
  | noAnswer (why : String)
  deriving DecidableEq

/-- `HeaderLink`: what the difficulty rule reads of one header. -/
structure Link where
  height : Nat
  time : UInt32
  bits : UInt32
  deriving DecidableEq

/-- `HeaderAncestry`: the ancestry the difficulty rule reads. -/
structure HeaderAncestry where
  linkAt : Nat → Option Link
  workBetween : Nat → Nat → Except DifficultyError Nat

/-- The part of bsv-rs that depends on no chain. -/
structure BsvRs where
  /-- `BlockHeader::hash`, the double SHA-256 of the frame. -/
  hash : WireHeader → Hash32
  /-- `BlockHeader::id`, the hash in display order. -/
  id : WireHeader → String
  /-- `CompactTarget::from_bits(bits).overflow`. -/
  compactOverflow : UInt32 → Bool
  /-- `ChainWork::from_bits`, the proof the bits stand for. -/
  workFromBits : UInt32 → Nat
  /-- `check_proof_of_work(hash, bits, pow_limit)`. -/
  checkProofOfWork : Hash32 → UInt32 → Nat → Except PowError Unit

/-- `bsv_rs::block::ChainParams` and the rule it parametrises. -/
structure PowParams where
  powLimit : Nat
  /-- `window_depth`: how many ancestors the rule reads above a parent. -/
  windowDepth : Nat → Nat
  /-- `next_work_required(params, ancestry, prev_height, new_time)`. -/
  nextWorkRequired : HeaderAncestry → Nat → UInt32 → Except DifficultyError UInt32

/-! ### The header -/

/-- A header as it is offered: the fields of the frame, the claimed height and the
claimed hash. -/
structure BlockHeader where
  version : UInt32
  previousHash : String
  merkleRoot : String
  time : UInt32
  bits : UInt32
  nonce : UInt32
  height : Nat
  hash : String
  deriving DecidableEq

/-- `BlockHeader::wire`: the frame of a header. -/
def BlockHeader.wire (header : BlockHeader) : WireHeader where
  version := header.version
  prevHash := internalOrder header.previousHash
  merkleRoot := internalOrder header.merkleRoot
  time := header.time
  bits := header.bits
  nonce := header.nonce

/-- `Link::from`. -/
def BlockHeader.link (header : BlockHeader) : Link :=
  ⟨header.height, header.time, header.bits⟩

/-! ### The faults -/

/-- Why a header is refused. -/
inductive HeaderFault
  | hashMismatch (claimed computed : String)
  | bitsNegative (bits : UInt32)
  | bitsOverflow (bits : UInt32)
  | bitsZero (bits : UInt32)
  | bitsAboveLimit (bits : UInt32)
  | highHash (bits : UInt32)
  | badDiffBits (expected got : UInt32)
  | checkpointMismatch (height : Nat) (expected : String)
  | forkPriorToCheckpoint (height checkpoint : Nat)
  | prevNotFound (prev : String)
  | badGenesis (hash : String)
  | ancestryMissing (height : Nat)
  | noDifficultyAnswer (error : DifficultyError)
  deriving DecidableEq

/-- `HeaderFault::reason`: the node's reject reason. -/
def HeaderFault.reason : HeaderFault → String
  | hashMismatch _ _ => "bad-hash"
  | bitsNegative _ | bitsOverflow _ | bitsZero _ | bitsAboveLimit _ | highHash _ => "high-hash"
  | badDiffBits _ _ => "bad-diffbits"
  | checkpointMismatch _ _ => "checkpoint mismatch"
  | forkPriorToCheckpoint _ _ => "bad-fork-prior-to-checkpoint"
  | prevNotFound _ => "prev-blk-not-found"
  | badGenesis _ => "bad-genesis"
  | ancestryMissing _ => "ancestry-missing"
  | noDifficultyAnswer _ => "no-difficulty-answer"

/-- Eight lower-case hex digits behind `0x`, as the texts show a compact target. -/
def hexBits (bits : UInt32) : String :=
  let digits := Nat.toDigits 16 bits.toNat
  "0x" ++ String.ofList (List.replicate (8 - digits.length) '0' ++ digits)

/-- The text of a fault: its reason, then what it names. -/
def HeaderFault.text (fault : HeaderFault) : String :=
  fault.reason ++ ": " ++
    match fault with
    | hashMismatch claimed computed =>
      "claimed hash " ++ claimed ++ ", the fields hash to " ++ computed
    | bitsNegative bits => "bits " ++ hexBits bits ++ " negative"
    | bitsOverflow bits => "bits " ++ hexBits bits ++ " overflow"
    | bitsZero bits => "bits " ++ hexBits bits ++ " zero target"
    | bitsAboveLimit bits => "bits " ++ hexBits bits ++ " above the proof-of-work limit"
    | highHash bits => "hash above the target of bits " ++ hexBits bits
    | badDiffBits expected got =>
      "bits " ++ hexBits got ++ ", the rule's answer is " ++ hexBits expected
    | checkpointMismatch height expected =>
      "at " ++ toString height ++ " the checkpoint is " ++ expected
    | forkPriorToCheckpoint height checkpoint =>
      toString height ++ " is below the checkpoint at " ++ toString checkpoint
    | prevNotFound prev => "parent " ++ prev
    | badGenesis hash => hash
    | ancestryMissing height => "no stored ancestor at " ++ toString height
    | noDifficultyAnswer (.missingAncestor height) => "no ancestor at " ++ toString height
    | noDifficultyAnswer (.noAnswer why) => why

/-- `pow_fault`: a bsv-rs refusal as this service names it. An exponent past 256 bits
truncates to a zero word and comes back as a zero target; the overflow is named
first. -/
def powFault (bsv : BsvRs) (bits : UInt32) : PowError → HeaderFault
  | .bitsNegative bits => .bitsNegative bits
  | .bitsZero bits => if bsv.compactOverflow bits then .bitsOverflow bits else .bitsZero bits
  | .bitsOverflow bits => .bitsOverflow bits
  | .bitsAboveLimit bits => .bitsAboveLimit bits
  | .highHash bits => .highHash bits
  | .other => .highHash bits

/-- `difficulty_fault`: a missing ancestor is the hole it is; the rest are the rule's
own refusals. -/
def difficultyFault : DifficultyError → HeaderFault
  | .missingAncestor height => .ancestryMissing height
  | error => .noDifficultyAnswer error

/-! ### The chain's parameters -/

/-- The parameters a header is judged by. The checkpoint list is kept ascending with
lower-case hashes by every constructor of the source, so both are part of the type. -/
structure ChainParams where
  network : String
  bsv : BsvRs
  pow : PowParams
  genesisHash : String
  checkpoints : List (Nat × String)
  ascending : checkpoints.Pairwise fun a b => a.1 < b.1
  lowercase : ∀ c ∈ checkpoints, toAsciiLowercase c.2 = asBytes c.2

namespace ChainParams

/-- `checkpoint_at`. -/
def checkpointAt (params : ChainParams) (height : Nat) : Option String :=
  (params.checkpoints.find? fun c => c.1 == height).map (·.2)

end ChainParams

section Checks

variable (params : ChainParams)

/-! ### The checks of one header -/

/-- `check_proof_of_work`. -/
def checkProofOfWork (hash : Hash32) (bits : UInt32) : Except HeaderFault Unit :=
  (params.bsv.checkProofOfWork hash bits params.pow.powLimit).mapError
    (powFault params.bsv bits)

/-- `check_bits`: the zero hash meets every target the bits may carry, so a refusal is
the bits'. -/
def checkBits (bits : UInt32) : Except HeaderFault Unit :=
  checkProofOfWork params Hash32.zero bits

/-- `BlockHeader::check_pow`: the bits, then the claimed hash, then the hash against
the target. -/
def checkPow (header : BlockHeader) : Except HeaderFault Unit := do
  checkBits params header.bits
  let computed := params.bsv.id header.wire
  if eqIgnoreAsciiCase computed header.hash then
    checkProofOfWork params (params.bsv.hash header.wire) header.bits
  else
    throw (.hashMismatch header.hash computed)

/-- `check_checkpoint`: a header at a checkpoint height carries its hash. -/
def checkCheckpoint (height : Nat) (hash : String) : Except HeaderFault Unit :=
  match params.checkpointAt height with
  | some expected =>
    if eqIgnoreAsciiCase expected hash then pure ()
    else throw (.checkpointMismatch height expected)
  | none => pure ()

/-- `check_unlinked`: a header with no stored parent is the genesis, a checkpoint to
anchor on, or – where the store already holds a chain – an orphan, answered `false`. -/
def checkUnlinked (header : BlockHeader) (storeEmpty : Bool) : Except HeaderFault Bool := do
  checkCheckpoint params header.height header.hash
  if header.height == 0 || header.previousHash == zeroHash then
    if header.height != 0 || !eqIgnoreAsciiCase header.hash params.genesisHash then
      throw (.badGenesis header.hash)
    else
      pure true
  else if (params.checkpointAt header.height).isSome then
    pure true
  else if storeEmpty then
    throw (.prevNotFound header.previousHash)
  else
    pure false

end Checks

section Lemmas

variable {params : ChainParams} {header : BlockHeader}

/-- A header that passes its own check carries the hash of its own frame. -/
theorem eqIgnoreAsciiCase_of_checkPow (h : checkPow params header = .ok ()) :
    eqIgnoreAsciiCase (params.bsv.id header.wire) header.hash = true := by
  by_contra hne
  simp only [checkPow, hne] at h
  cases hb : checkBits params header.bits with
  | error e => rw [hb] at h; cases h
  | ok u => rw [hb] at h; cases h

/-- **What an unlinked header that is let in satisfies**: it answers to the checkpoint
at its height; one that names no parent is the genesis; any other is an anchor exactly
where it carries a checkpoint, and is kept as an orphan only where a chain is held. -/
structure Unlinked (params : ChainParams) (header : BlockHeader) (empty anchored : Bool) : Prop where
  checkpoint : checkCheckpoint params header.height header.hash = .ok ()
  genesis : header.height = 0 ∨ header.previousHash = zeroHash →
    anchored = true ∧ header.height = 0 ∧ eqIgnoreAsciiCase header.hash params.genesisHash = true
  orphan : ¬(header.height = 0 ∨ header.previousHash = zeroHash) →
    anchored = (params.checkpointAt header.height).isSome ∧ (anchored = false → empty = false)

theorem checkUnlinked_ok {empty anchored : Bool}
    (h : checkUnlinked params header empty = .ok anchored) :
    Unlinked params header empty anchored := by
  unfold checkUnlinked at h
  cases hc : checkCheckpoint params header.height header.hash with
  | error e => rw [hc] at h; cases h
  | ok u =>
    rw [hc] at h
    change (if _ then _ else _ : Except HeaderFault Bool) = _ at h
    split at h
    · rename_i hz
      rw [Bool.or_eq_true, beq_iff_eq, beq_iff_eq] at hz
      split at h
      · cases h
      · rename_i hg
        simp only [Bool.or_eq_true, bne_iff_ne, ne_eq, Bool.not_eq_true', not_or,
          Decidable.not_not, Bool.not_eq_false] at hg
        cases h
        exact ⟨hc, fun _ => ⟨rfl, hg⟩, fun hn => absurd hz hn⟩
    · rename_i hz
      rw [Bool.or_eq_true, beq_iff_eq, beq_iff_eq] at hz
      split at h
      · rename_i hcp
        cases h
        exact ⟨hc, fun hy => absurd hy hz, fun _ => ⟨hcp.symm, nofun⟩⟩
      · rename_i hcp
        rw [Bool.not_eq_true] at hcp
        split at h
        · cases h
        · rename_i he
          cases h
          exact ⟨hc, fun hy => absurd hy hz, fun _ => ⟨hcp.symm, fun _ => by simpa using he⟩⟩

/-- An anchor is the genesis or carries a checkpoint. -/
theorem Unlinked.anchor {empty : Bool} (h : Unlinked params header empty true) :
    (header.height = 0 ∧ eqIgnoreAsciiCase header.hash params.genesisHash = true) ∨
      (params.checkpointAt header.height).isSome = true := by
  by_cases hz : header.height = 0 ∨ header.previousHash = zeroHash
  · exact .inl (h.genesis hz).2
  · exact .inr (h.orphan hz).1.symm

/-- On an empty store nothing unlinked is let in but an anchor. -/
theorem Unlinked.anchored_of_empty {anchored : Bool} (h : Unlinked params header true anchored) :
    anchored = true := by
  by_cases hz : header.height = 0 ∨ header.previousHash = zeroHash
  · exact (h.genesis hz).1
  · by_contra hf
    exact Bool.noConfusion ((h.orphan hz).2 (Bool.not_eq_true _ ▸ hf))

end Lemmas

end Chaintracks

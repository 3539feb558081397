import Chaintracks.World

/-!
# The regtest chain

The parameters the rules are stated over, at a chain: regtest, the one the fixtures of
the repository are mined under. The arithmetic of its proof of work is written out –
the compact target, the proof it stands for, the check of a hash against it – and the
difficulty rule is regtest's, that a header carries its parent's bits.

The hash of a frame is the one function that is not computed here: it is the double
SHA-256, given as a table of the blocks mined below (`Chaintracks.Regtest.known`). Runs
over these blocks are runs of the service.
-/

namespace Chaintracks

namespace Regtest

/-! ### Compact targets -/

/-- `CompactTarget::from_bits`: the target, shifted by the exponent. -/
def target (bits : UInt32) : Nat :=
  let exponent := bits.toNat / 2 ^ 24
  let mantissa := bits.toNat % 2 ^ 23
  if exponent ≤ 3 then mantissa / 2 ^ (8 * (3 - exponent)) else mantissa * 2 ^ (8 * (exponent - 3))

/-- The sign bit of a compact target, on a mantissa that is not zero. -/
def negative (bits : UInt32) : Bool :=
  bits.toNat % 2 ^ 23 != 0 && bits.toNat / 2 ^ 23 % 2 == 1

/-- A target past 256 bits. -/
def overflow (bits : UInt32) : Bool :=
  let exponent := bits.toNat / 2 ^ 24
  let mantissa := bits.toNat % 2 ^ 23
  mantissa != 0 && (34 < exponent || (0xff < mantissa && 33 < exponent) ||
    (0xffff < mantissa && 32 < exponent))

/-- `GetBlockProof`: how many hashes a target takes; none where it is malformed. -/
def work (bits : UInt32) : Nat :=
  if negative bits || overflow bits || target bits == 0 then 0 else 2 ^ 256 / (target bits + 1)

/-- A hash as the number its target bounds: its bytes, least first. -/
def hashValue (hash : Hash32) : Nat := hash.bytes.foldr (fun b n => b.toNat + 256 * n) 0

/-- `check_proof_of_work`, its refusals in order. -/
def checkProofOfWork (hash : Hash32) (bits : UInt32) (limit : Nat) : Except PowError Unit :=
  if negative bits then throw (.bitsNegative bits)
  else if overflow bits then throw (.bitsOverflow bits)
  else if target bits = 0 then throw (.bitsZero bits)
  else if limit < target bits then throw (.bitsAboveLimit bits)
  else if target bits < hashValue hash then throw (.highHash bits)
  else pure ()

/-! ### The blocks mined for it -/

/-- Regtest's genesis. -/
def genesis : BlockHeader where
  version := 1
  previousHash := zeroHash
  merkleRoot := "4a5e1e4baab89f3a32518a88c31bc87f618f76673e2cc77ab2127b7afdeda33b"
  time := 1296688602
  bits := 0x207fffff
  nonce := 2
  height := 0
  hash := "0f9188f13cb7b2c71f2a335e3a4fc328bf5beb436012afca590b1a11466e2206"

/-- The branch `a` of the genesis. -/
def a1 : BlockHeader where
  version := 1
  previousHash := genesis.hash
  merkleRoot := "f55ff16f66f43360266b95db6f8fec01d76031054306ae4a4b380598f6cfd114"
  time := 1296689202
  bits := 0x207fffff
  nonce := 4
  height := 1
  hash := "639834644b8ac4b7c8a878e5095fa53a926d79819ea1cc0112133f8f26c26ce7"

def a2 : BlockHeader where
  version := 1
  previousHash := a1.hash
  merkleRoot := "2c3a4249d77070058649dbd822dcaf7957586fce428cfb2ca88b94741eda8b07"
  time := 1296689802
  bits := 0x207fffff
  nonce := 0
  height := 2
  hash := "6b0a7fc9c346aa33a7f8c8ebc5ccad2b7b4e889fb2823ef9e70b7fb6af4242f4"

def a3 : BlockHeader where
  version := 1
  previousHash := a2.hash
  merkleRoot := "f46dd28a5499d8efef0b8fb8ee1ec1c5a5e407c9381741d576ba8deb4f59ec3f"
  time := 1296690402
  bits := 0x207fffff
  nonce := 2
  height := 3
  hash := "3298c5f66cf399ef369e140eaba533c7f4303bd615d2831da81e51aeb90c50db"

/-- The branch `b` of the genesis. -/
def b1 : BlockHeader where
  version := 1
  previousHash := genesis.hash
  merkleRoot := "7dc96f776c8423e57a2785489a3f9c43fb6e756876d6ad9a9cac4aa4e72ec193"
  time := 1296689202
  bits := 0x207fffff
  nonce := 1
  height := 1
  hash := "6d8fd358b5948adcf70b5ae8228c614a18fe9ae7722ad0ff84487d45d2e0d9b3"

def b2 : BlockHeader where
  version := 1
  previousHash := b1.hash
  merkleRoot := "4814d92093ac8a0f4a2163ab87dee509ba306a58f5888be0edcb2fcd0712028b"
  time := 1296689802
  bits := 0x207fffff
  nonce := 1
  height := 2
  hash := "5b0cf9f07d07b95dbc931a272b0a0d204a71f74befe2ae1fd359aa50c2d4b193"

def b3 : BlockHeader where
  version := 1
  previousHash := b2.hash
  merkleRoot := "76a8277347f52530e1cf979175a178980b3a180d176165c985d85f7e142f1eed"
  time := 1296690402
  bits := 0x207fffff
  nonce := 2
  height := 3
  hash := "1fda51f7f0ecbb48bc1c1e6f0531efc58fb1683d3f301d54e9f86f2137f2af8f"

def b4 : BlockHeader where
  version := 1
  previousHash := b3.hash
  merkleRoot := "486bacc5c2d8a71a73d51bf8e522deaa264ec2628dca2955da1e9b8e00f21943"
  time := 1296691002
  bits := 0x207fffff
  nonce := 0
  height := 4
  hash := "2c99a2b0c2a85c939ffda2106be879fd180627770e89883460aa33a676e7251e"

/-- A child of `a1` at twice the difficulty regtest asks for, and its own child. -/
def h2 : BlockHeader where
  version := 1
  previousHash := a1.hash
  merkleRoot := "f998fe06afa0cfbe73e0449dc2b1698309e1b5714960f027b2858312b152c275"
  time := 1296689802
  bits := 0x203fffff
  nonce := 4
  height := 2
  hash := "2b400745e82ca85f6bb47e5479d8cde15c4d9ca00b355626fe619323e846896f"

def h3 : BlockHeader where
  version := 1
  previousHash := h2.hash
  merkleRoot := "97fb5f8538b89f6c1accfd19836b65a73b61fbc2e0cbf84bb858a0fffa3f1592"
  time := 1296690402
  bits := 0x203fffff
  nonce := 2
  height := 3
  hash := "0e2c0c5449a0131d0ed3dfa9a3442470d5a52ef609c38f3be323541c385cea56"

/-- The blocks whose hash is known here. -/
def known : List BlockHeader := [genesis, a1, a2, a3, b1, b2, b3, b4, h2, h3]

/-- The two branches, whose headers abide by every rule. -/
def branches : List BlockHeader := [genesis, a1, a2, a3, b1, b2, b3, b4]

/-- The double SHA-256 of a frame, in display order. The fields that tell most frames apart
are compared first. -/
def blockHash (frame : WireHeader) : String :=
  ((known.find? fun h =>
    h.time == frame.time && (h.nonce == frame.nonce && h.wire == frame)).map (·.hash)).getD zeroHash

/-! ### The parameters -/

/-- bsv-rs on the frames known here. -/
def bsv : BsvRs where
  hash frame := internalOrder (blockHash frame)
  id := blockHash
  compactOverflow := overflow
  workFromBits := work
  checkProofOfWork := checkProofOfWork

/-- `bsv_rs::block::ChainParams::regtest`: a header carries the bits of its parent. -/
def pow : PowParams where
  powLimit := target 0x207fffff
  windowDepth _ := 1
  nextWorkRequired ancestry prevHeight _ :=
    match ancestry.linkAt prevHeight with
    | some link => pure link.bits
    | none => throw (.missingAncestor prevHeight)

/-- `ChainParams::regtest`. -/
def params : ChainParams where
  network := "regtest"
  bsv := bsv
  pow := pow
  genesisHash := genesis.hash
  checkpoints := [(0, genesis.hash)]
  ascending := List.pairwise_singleton _ _
  lowercase := by
    simp only [List.mem_singleton, forall_eq]
    decide +kernel

/-- The blocks are what they claim: each meets the target of its bits with its own hash. -/
example : ∀ h ∈ known, checkPow params h = .ok () := by decide +kernel

/-! ### The outside -/

/-- A host whose database takes every transaction and whose couriers answer nothing. -/
def host : Env where
  accepts _ := true
  unixepoch _ := 1296700000
  headerByHash _ _ := .error "no courier"
  headerByHeight _ _ := .error "no courier"
  upstream _ _ _ _ := .error "no upstream"
  leaseLeftMs _ := none
  clockMs _ := 0

/-- A host whose couriers serve the blocks mined above by their hash, but for the questions
they are cut off at. -/
def courier (fails : Nat → Bool) : Env :=
  { host with
    headerByHash := fun asked hash =>
      match known.find? fun h => h.hash == hash with
      | some header => if fails asked then .error "cut off" else .ok header
      | none => .error "unknown hash" }

theorem courier_serves (fails : Nat → Bool) : (courier fails).Serves (· ∈ known) := by
  intro asked hash header h
  change (match known.find? fun h => h.hash == hash with
    | some header => if fails asked then .error "cut off" else .ok header
    | none => .error "unknown hash" : Except String BlockHeader) = .ok header at h
  split at h
  · rename_i found hfound
    split at h <;> cases h
    exact List.mem_of_find?_eq_some hfound
  · cases h

end Regtest

end Chaintracks

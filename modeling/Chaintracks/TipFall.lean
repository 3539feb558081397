import Chaintracks.Backfill
import Chaintracks.LiveFinality
import Chaintracks.WindowSums

/-!
# A tip that falls

A settled answer stays true in every run each of whose reorgs spares it
(`Chaintracks.settled_stays`), and not in every run (`Chaintracks.settled_falls`). The
settled line is a height below the tip, the reach of a reorg a number of steps below it, and
the two are the same number; but the tip is the stored header of the most work, and more
work may stand on fewer headers. Where a late block may carry the bits of the limit, as
on the test networks, a chain of such blocks is high and light: four hundred of them stand
on a height that is settled, one block of the retarget's bits beside the second of them takes
the tip down to the third height, and from there a heavier branch takes off the first.

The four hundred insertions are not computed: `Chaintracks.Footing.insert` says what one of
them leaves, and the store after all of them is told by an induction
(`Chaintracks.LateBlocks.grown`).
-/

namespace Chaintracks

open HeaderRows

/-! ### Over a run -/

section Runs

variable {params : ChainParams} {offered : BlockHeader → Prop} {w w' : World} {h : BlockHeader}

/-- **A settled answer stays true** over a run: a header settled at some line is the sole
active one at its height after every transaction of the run and at its end. -/
def SettledStays (w w' : World) (h : BlockHeader) : Prop :=
  SoleActive w.db.rows h →
    (∃ line, reorgBound ≤ line ∧
      settled ((chainTip w.db.rows).map (·.height)) h.height line = true) →
    SoleActive w'.db.rows h ∧ EachCommit (fun _ _ _ after => SoleActive after.rows h) (w'.since w)

theorem SoleActive.after {offered' : BlockHeader → Prop} {t : HeaderTable}
    {chain : List BlockHeader} (hlive : Live params offered' t chain) (hmem : h ∈ chain) :
    SoleActive t.rows h := (hlive.soleActive_iff (hlive.stored h hmem)).mpr hmem

/-- The steps of the live path keep a header they spare. -/
theorem soleActive_steps (tree : HeaderTree params offered)
    (hlive : ∃ chain, Live params offered w.db.headers chain)
    (hsteps : Relation.ReflTransGen (Step params (LiveMove params offered)) w w')
    (hspares : EachCommit (fun _ before txn _ => SparesSettled h before txn) (w'.since w))
    (hsole : SoleActive w.db.rows h) :
    SoleActive w'.db.rows h ∧
      EachCommit (fun _ _ _ after => SoleActive after.rows h) (w'.since w) := by
  obtain ⟨chain, hlive⟩ := hlive
  have hmem : h ∈ chain := (hlive.soleActive_iff hsole.1).mp hsole
  have hcommitted : ∀ w now txn, LiveMove params offered w txn →
      (∃ chain, Live params offered w.db.headers chain ∧ h ∈ chain) →
      SparesSettled h w.db txn →
      (∃ chain, Live params offered (execAll now txn w.db).headers chain ∧ h ∈ chain) ∧
        SoleActive (execAll now txn w.db).rows h := by
    rintro w now txn hmove ⟨chain, hlive, hmem⟩ hspares
    obtain ⟨chain', hlive', hmem'⟩ := hlive.move_keeps tree hmove hmem hspares
    rw [← execAll_headers now] at hlive'
    exact ⟨⟨chain', hlive', hmem'⟩, .after hlive' hmem'⟩
  obtain ⟨⟨chain', hlive', hmem'⟩, heach⟩ := steps_since
    (C := fun before txn _ => SparesSettled h before txn)
    (D := fun _ _ after => SoleActive after.rows h)
    (I := fun w => ∃ chain, Live params offered w.db.headers chain ∧ h ∈ chain)
    (fun _ hw => hw) (fun _ _ _ _ hw => hw) hcommitted ⟨chain, hlive, hmem⟩ hsteps hspares
  exact ⟨.after hlive' hmem', heach⟩

/-- **A settled answer stays true** on the live path, in every run each of whose reorgs is
made from a tip that still stands the bound above it, or to a header that descends from
it. -/
theorem settled_stays (env : Env) (params : ChainParams) (calls later : List Call)
    (tree : HeaderTree params offered) (hserves : env.Serves offered)
    (hcalls : ∀ call ∈ calls ++ later, LiveCall offered call) (h : BlockHeader)
    (hspares : EachCommit (fun _ before txn _ => SparesSettled h before txn)
      ((runAll env params (calls ++ later) .init).since (runAll env params calls .init))) :
    SettledStays (runAll env params calls .init) (runAll env params (calls ++ later) .init) h := by
  intro hsole _
  rw [runAll_append] at hspares ⊢
  exact soleActive_steps tree
    (live_run tree hserves fun call hc => hcalls call (List.mem_append_left _ hc))
    (via_liveRun hserves (fun call hc => hcalls call (List.mem_append_right _ hc)) _) hspares hsole

end Runs

namespace LateBlocks

open Regtest (work overflow target)

/-! ### The network -/

/-- The bits of the limit, a proof of two hashes. -/
def limitBits : UInt32 := 0x207fffff

/-- The bits the retarget asks for, a proof of a thousand. -/
def retargetBits : UInt32 := 0x1f3fffff

/-- A number below `2 ^ 16` as a hash in display order. -/
def hashText (n : Nat) : String :=
  String.ofList (List.replicate 60 '0' ++ [Nat.digitChar (n / 4096 % 16),
    Nat.digitChar (n / 256 % 16), Nat.digitChar (n / 16 % 16), Nat.digitChar (n % 16)])

/-- The same number as thirty-two bytes, the lowest first. -/
def hashBytes (n : Nat) : Hash32 :=
  ⟨.ofNat (n % 256) :: .ofNat (n / 256 % 256) :: List.replicate 30 0, rfl⟩

example : internalOrder (hashText 0x3a7) = hashBytes 0x3a7 := by decide +kernel

/-- bsv-rs on frames whose hash is their nonce: the blocks mined below count their nonces
up. -/
def bsv : BsvRs where
  hash frame := hashBytes frame.nonce.toNat
  id frame := hashText frame.nonce.toNat
  compactOverflow := overflow
  workFromBits := work
  checkProofOfWork := Regtest.checkProofOfWork

/-- The rule of a test network: a block more than twenty minutes after its parent carries
the bits of the limit, any other those of the retarget. -/
def pow : PowParams where
  powLimit := target limitBits
  windowDepth _ := 1
  nextWorkRequired ancestry prevHeight time :=
    (ancestry.linkAt prevHeight).elim (throw (.missingAncestor prevHeight)) fun link =>
      pure (if link.time.toNat + 1200 < time.toNat then limitBits else retargetBits)

theorem digitChar_inj {a b : Nat} (ha : a < 16) (hb : b < 16)
    (h : Nat.digitChar a = Nat.digitChar b) : a = b := by
  have hall : ∀ a : Fin 16, ∀ b : Fin 16, Nat.digitChar a = Nat.digitChar b → a = b := by decide
  exact congrArg Fin.val (hall ⟨a, ha⟩ ⟨b, hb⟩ h)

/-- A number is read off its text. -/
theorem hashText_inj {n m : Nat} (hn : n < 2 ^ 16) (hm : m < 2 ^ 16)
    (h : hashText n = hashText m) : n = m := by
  have hdigits := List.append_cancel_left (String.ofList_inj.mp h)
  simp only [List.cons.injEq, and_true] at hdigits
  obtain ⟨h₃, h₂, h₁, h₀⟩ := hdigits
  have := digitChar_inj (Nat.mod_lt _ (by decide)) (Nat.mod_lt _ (by decide)) h₃
  have := digitChar_inj (Nat.mod_lt _ (by decide)) (Nat.mod_lt _ (by decide)) h₂
  have := digitChar_inj (Nat.mod_lt _ (by decide)) (Nat.mod_lt _ (by decide)) h₁
  have := digitChar_inj (Nat.mod_lt _ (by decide)) (Nat.mod_lt _ (by decide)) h₀
  omega

/-- The zero hash is the text of zero. -/
theorem hashText_ne_zeroHash {n : Nat} (hn : n < 2 ^ 16) (hpos : 0 < n) :
    hashText n ≠ zeroHash := by
  intro h
  have hzero : hashText 0 = zeroHash := by decide +kernel
  have := hashText_inj hn (by decide) (h.trans hzero.symm)
  omega

theorem lowerByte_digit (a : Nat) :
    ∀ b ∈ String.utf8EncodeChar (Nat.digitChar (a % 16)), lowerByte b = b := by
  have hall : ∀ a : Fin 16, ∀ b ∈ String.utf8EncodeChar (Nat.digitChar a), lowerByte b = b := by
    decide +kernel
  exact hall ⟨a % 16, Nat.mod_lt _ (by decide)⟩

theorem hashText_lowercase (n : Nat) : toAsciiLowercase (hashText n) = asBytes (hashText n) := by
  have hbytes : asBytes (hashText n) = (List.replicate 60 '0' ++ [Nat.digitChar (n / 4096 % 16),
      Nat.digitChar (n / 256 % 16), Nat.digitChar (n / 16 % 16),
      Nat.digitChar (n % 16)]).flatMap String.utf8EncodeChar := by
    rw [asBytes, hashText, String.toByteArray_ofList, List.utf8Encode, List.toList_data_toByteArray]
  rw [toAsciiLowercase, hbytes]
  refine (List.map_congr_left fun b hb => ?_).trans (List.map_id _)
  obtain ⟨c, hc, hb⟩ := List.mem_flatMap.mp hb
  rcases List.mem_append.mp hc with hc | hc
  · obtain rfl := List.eq_of_mem_replicate hc
    exact lowerByte_digit 0 b hb
  · simp only [List.mem_cons, List.not_mem_nil, or_false] at hc
    rcases hc with rfl | rfl | rfl | rfl <;> exact lowerByte_digit _ b hb

/-- `ChainParams` of the network. -/
def params : ChainParams where
  network := "test"
  bsv := bsv
  pow := pow
  genesisHash := hashText 1
  checkpoints := [(0, hashText 1)]
  ascending := List.pairwise_singleton _ _
  lowercase _ hc := List.mem_singleton.mp hc ▸ hashText_lowercase 1

/-! ### The blocks -/

/-- The parent of a block. The blocks up to the thousandth stand on one another; of the other
three the first stands on the genesis, the second on the first, and the third on block two. -/
def parent (n : Nat) : Nat := if n = 1003 then 2 else if n = 1001 then 0 else n - 1

def height (n : Nat) : Nat := if n ≤ 1000 then n else n - 1000

/-- The blocks up to the thousandth are each a second too late for the retarget's bits; the
other three come ten minutes after their parents. -/
def time (n : Nat) : Nat :=
  1296688602 + if n ≤ 1000 then 1201 * n else if n = 1003 then 3002 else 600 * (n - 1000)

/-- A block. -/
def block (n : Nat) : BlockHeader where
  version := 1
  previousHash := if n = 0 then zeroHash else hashText (parent n + 1)
  merkleRoot := hashText 0
  time := .ofNat (time n)
  bits := if n ≤ 1000 then limitBits else retargetBits
  nonce := .ofNat (n + 1)
  height := height n
  hash := hashText (n + 1)

/-- The blocks of the network. -/
def Mined (header : BlockHeader) : Prop := ∃ n < 1004, header = block n

variable {n m : Nat}

theorem block_inj (hn : n < 1004) (hm : m < 1004) (h : (block n).hash = (block m).hash) :
    n = m := by
  have := hashText_inj (by omega) (by omega) h
  omega

theorem parent_lt (hpos : 0 < n) (hn : n < 1004) : parent n < 1004 := by
  unfold parent
  split
  · decide
  · split <;> omega

theorem height_parent (hpos : 0 < n) (hn : n < 1004) : height n = height (parent n) + 1 := by
  unfold parent
  split
  · subst n
    rfl
  · split
    · subst n
      rfl
    · unfold height
      split <;> split <;> omega

theorem childOf_parent (hpos : 0 < n) (hn : n < 1004) : ChildOf (block n) (block (parent n)) :=
  ⟨height_parent hpos hn, if_neg (Nat.ne_of_gt hpos)⟩

theorem mined_tree : HeaderTree params Mined where
  unique := by
    rintro a b ⟨n, hn, rfl⟩ ⟨m, hm, rfl⟩ h
    rw [block_inj hn hm h]
  heights := by
    rintro a b ⟨n, hn, rfl⟩ ⟨m, hm, rfl⟩ h
    rcases Nat.eq_zero_or_pos n with rfl | hpos
    · exact absurd h.symm (hashText_ne_zeroHash (by omega) (by omega))
    · have hchild := childOf_parent hpos hn
      rw [hchild.1, block_inj (parent_lt hpos hn) hm (hchild.2.symm.trans h)]
  lowercase := by
    rintro a ⟨n, -, rfl⟩ -
    exact hashText_lowercase (n + 1)

theorem toNat_time (hn : n < 1004) : (block n).time.toNat = time n := by
  refine UInt32.toNat_ofNat_of_lt' (?_ : time n < 2 ^ 32)
  unfold time
  split
  · omega
  · split <;> omega

theorem hashValue_hashBytes (n : Nat) : Regtest.hashValue (hashBytes n) < 2 ^ 16 := by
  have hvalue : Regtest.hashValue (hashBytes n) =
      (UInt8.ofNat (n % 256)).toNat + 256 * ((UInt8.ofNat (n / 256 % 256)).toNat + 256 * 0) := rfl
  have hlow := (UInt8.ofNat (n % 256)).toNat_lt
  have hhigh := (UInt8.ofNat (n / 256 % 256)).toNat_lt
  omega

/-- The bits of a block are those of the limit, or the retarget's. -/
theorem bits_cases (n : Nat) : (block n).bits = limitBits ∨ (block n).bits = retargetBits :=
  (Decidable.em (n ≤ 1000)).imp (fun h => if_pos h) (fun h => if_neg h)

theorem checkProofOfWork_block {hash : Hash32} (hash_lt : Regtest.hashValue hash < 2 ^ 16) :
    Chaintracks.checkProofOfWork params hash (block n).bits = .ok () := by
  have hchecked : ∀ bits, bits = limitBits ∨ bits = retargetBits →
      Regtest.negative bits = false ∧ overflow bits = false ∧ target bits ≠ 0 ∧
        target bits ≤ target limitBits ∧ 2 ^ 16 ≤ target bits := by
    rintro bits (rfl | rfl) <;> decide +kernel
  obtain ⟨hneg, hover, hzero, hle, hbig⟩ := hchecked _ (bits_cases n)
  have hbelow : ¬target (block n).bits < Regtest.hashValue hash := by omega
  have hok : Regtest.checkProofOfWork hash (block n).bits (target limitBits) = .ok () := by
    rw [Regtest.checkProofOfWork, hneg, hover, if_neg Bool.false_ne_true,
      if_neg Bool.false_ne_true, if_neg hzero, if_neg (Nat.not_lt.mpr hle), if_neg hbelow]
    rfl
  exact Except.mapError_eq_ok.mpr hok

/-- A block meets its own target. -/
theorem checkPow_block (hn : n < 1004) : checkPow params (block n) = .ok () := by
  have hnonce : (block n).nonce.toNat = n + 1 :=
    UInt32.toNat_ofNat_of_lt' (show n + 1 < 2 ^ 32 by omega)
  have hid : params.bsv.id (block n).wire = (block n).hash := congrArg hashText hnonce
  have hzero : checkBits params (block n).bits = .ok () :=
    checkProofOfWork_block (by decide +kernel)
  have hfound : Chaintracks.checkProofOfWork params (params.bsv.hash (block n).wire)
      (block n).bits = .ok () := checkProofOfWork_block (hashValue_hashBytes _)
  rw [checkPow, hzero, hid, hfound]
  exact if_pos (eqIgnoreAsciiCase_self _)

/-- A block carries the bits its parent's time asks for. -/
theorem nextBits (hpos : 0 < n) (hn : n < 1004) :
    (if time (parent n) + 1200 < time n then limitBits else retargetBits) = (block n).bits := by
  change _ = if n ≤ 1000 then limitBits else retargetBits
  have hlate : time (parent n) + 1200 < time n ↔ n ≤ 1000 := by
    rcases Nat.lt_or_ge 1000 n with hlt | hle
    · obtain rfl | rfl | rfl : n = 1001 ∨ n = 1002 ∨ n = 1003 := by omega
      all_goals decide
    · have hparent : parent n = n - 1 := by
        rw [parent, if_neg (by omega), if_neg (by omega)]
      rw [hparent, time, time, if_pos hle, if_pos (by omega)]
      omega
  rw [if_congr hlate rfl rfl]

/-- A block abides by the rules on its parent. -/
theorem abides_block (hpos : 0 < n) (hn : n < 1004) (rest : List BlockHeader) :
    Abides params (block (parent n) :: rest) (block n) where
  pow := checkPow_block hn
  rooted := by
    rw [(childOf_parent hpos hn).2]
    exact hashText_ne_zeroHash (by have := parent_lt hpos hn; omega) (Nat.succ_pos _)
  context := by
    have hheight : (block n).height = (block (parent n)).height + 1 := height_parent hpos hn
    have hnone : params.checkpointAt (block n).height = none := by
      have hne : ((0 : Nat) == (block n).height) = false := by
        rw [beq_eq_false_iff_ne]
        omega
      unfold ChainParams.checkpointAt params
      rw [List.find?_cons, hne, List.find?_nil]
      rfl
    have hlink : (Window.new params.bsv [(block (parent n)).link]).linkAt
        ((block n).height - 1) = some (block (parent n)).link :=
      (Window.linkAt_eq_some (List.isChain_singleton _)).mpr ⟨List.mem_singleton_self _, by
        rw [hheight]
        rfl⟩
    have hrule : params.pow.nextWorkRequired
        (Window.new params.bsv [(block (parent n)).link]).ancestry ((block n).height - 1)
        (block n).time = .ok (block n).bits := by
      rw [← nextBits hpos hn, ← toNat_time hn, ← toNat_time (parent_lt hpos hn)]
      change Option.elim ((Window.new params.bsv [(block (parent n)).link]).linkAt
        ((block n).height - 1)) _ _ = _
      rw [hlink]
      rfl
    change checkContext params (Window.new params.bsv [(block (parent n)).link]) (block n) = .ok ()
    rw [checkContext, checkCheckpoint, hnone, nextWorkRequired, hrule]
    exact if_pos rfl

/-! ### The blocks inserted -/

/-- Blocks inserted one after the other. -/
def mine (blocks : List Nat) : List Call := blocks.map fun n => .insertHeader (block n)

theorem mine_append (blocks blocks' : List Nat) :
    mine (blocks ++ blocks') = mine blocks ++ mine blocks' := List.map_append

/-- The world they leave. -/
def mined (blocks : List Nat) : World := runAll Regtest.host params (mine blocks) .init

theorem mined_concat (blocks : List Nat) (n : Nat) : mined (blocks ++ [n]) =
    (insertHeader Regtest.host params (block n) (mined blocks)).2 := by
  rw [mined, mine_append, runAll_append]
  rfl

theorem host_serves (offered : BlockHeader → Prop) : Regtest.host.Serves offered := by
  rintro n want header h
  cases h

theorem mine_live {blocks : List Nat} (hblocks : ∀ n ∈ blocks, n < 1004) :
    ∀ call ∈ mine blocks, LiveCall Mined call := by
  rintro call hcall
  obtain ⟨n, hn, rfl⟩ := List.mem_map.mp hcall
  exact ⟨n, hblocks n hn, rfl⟩

/-- The rows are of the blocks inserted. -/
def RowsOf (blocks : List Nat) : Prop :=
  ∀ row ∈ (mined blocks).db.headers.rows, ∃ m ∈ blocks, m < 1004 ∧ row.toBlockHeader = block m

section Inserting

variable {blocks : List Nat} {chain path above below : List BlockHeader} {fork : BlockHeader}
  {tip row : HeaderRow} {total : Nat}

/-- The branch of no header above a header of the chain. -/
theorem branch_of_chain {t : HeaderTable} (h : chain = above ++ fork :: below) :
    Branch t chain [] above fork below where
  chain_eq := h
  linked := List.isChain_singleton _
  stored p hp := by cases hp
  apart p hp := by cases hp

/-- A block not inserted is not stored. -/
theorem RowsOf.fresh (h : RowsOf blocks) (hn : n < 1004) (hnew : n ∉ blocks) :
    headerForHash (mined blocks).db.rows (block n).hash = none := by
  refine headerForHash_eq_none.mpr fun r hr hh => ?_
  obtain ⟨m, hm, hlt, he⟩ := h r hr
  have hhash : (block m).hash = (block n).hash := (congrArg BlockHeader.hash he).symm.trans hh
  exact hnew (block_inj hlt hn hhash ▸ hm)

/-- The one checkpoint is the genesis. -/
theorem no_checkpoint_above (height bound : Nat) :
    ∀ c ∈ params.checkpoints, height < c.1 → bound < c.1 := by
  rintro c hc hlt
  obtain rfl := List.mem_singleton.mp hc
  exact absurd hlt (Nat.not_lt_zero _)

/-- **One block more**, on a row that heads a stored branch: a block not yet inserted. -/
theorem mined_insert
    (h : Footing params Mined (mined blocks) chain path above fork below tip row)
    (hrows : RowsOf blocks) (hpos : 0 < n) (hn : n < 1004) (hnew : n ∉ blocks)
    (hrow : row.toBlockHeader = block (parent n))
    (hwork : addWork row.chainWork (work (block n).bits) = total)
    (hreach : tip.chainWork < total → InReach (block n :: path) above) :
    RowsOf (blocks ++ [n]) ∧ weights (mined (blocks ++ [n])).db.headers =
        weights (mined blocks).db.headers ++ [(block n, total)] ∧
      ∃ chain' path' above' fork' below' tip' row',
        Footing params Mined (mined (blocks ++ [n])) chain' path' above' fork' below' tip' row' ∧
        row'.toBlockHeader = block n ∧ row'.chainWork = total ∧
        path' ++ fork' :: below' = block n :: (path ++ fork :: below) ∧
        (tip.chainWork < total → tip' = row' ∧ chain' = block n :: (path ++ fork :: below) ∧
          above' = [] ∧ path' = []) ∧
        (total ≤ tip.chainWork → tip'.chainWork = tip.chainWork ∧ chain' = chain ∧ above' = above ∧
          path' = block n :: path ∧ fork' = fork ∧ below' = below) := by
  have hfresh := hrows.fresh hn hnew
  have habides : Abides params (path ++ fork :: below) (block n) := by
    rw [← h.line, hrow]
    exact abides_block hpos hn _
  have htotal : addWork row.chainWork (params.bsv.workFromBits (block n).bits) = total := hwork
  rw [← htotal] at hreach
  obtain ⟨result, w', chain', path', above', fork', below', tip', row', hok, -, -, hfoot', hrow',
    hwork', hline', htip', hcase, hweights'⟩ := h.insert mined_tree ⟨n, hn, rfl⟩
      (show ∀ asked, Regtest.host.accepts asked = true from fun _ => rfl) hfresh
      (hrow ▸ childOf_parent hpos hn) habides (no_checkpoint_above _ _) hreach
  rw [htotal] at hwork' htip' hcase hweights'
  obtain rfl : w' = mined (blocks ++ [n]) := by
    rw [mined_concat]
    exact (congrArg Prod.snd hok).symm
  refine ⟨?_, hweights', chain', path', above', fork', below', tip', row', hfoot', hrow', hwork',
    hline', ?_, ?_⟩
  · rintro r hr
    have hmem : (r.toBlockHeader, r.chainWork) ∈ weights (mined (blocks ++ [n])).db.headers :=
      mem_weights.mpr ⟨r, hr, rfl, rfl⟩
    rw [hweights'] at hmem
    rcases List.mem_append.mp hmem with hmem | hmem
    · obtain ⟨r₀, hr₀, he, -⟩ := mem_weights.mp hmem
      obtain ⟨m, hm, hlt, hm'⟩ := hrows r₀ hr₀
      exact ⟨m, List.mem_append_left _ hm, hlt, he.symm.trans hm'⟩
    · rw [List.mem_singleton, Prod.mk.injEq] at hmem
      exact ⟨n, by simp, hn, hmem.1⟩
  · rintro houtworks
    rw [if_pos houtworks] at hcase
    exact hcase
  · rintro hle
    rw [if_neg (Nat.not_lt.mpr hle)] at hcase
    exact ⟨htip'.trans (Nat.max_eq_left hle), hcase.2⟩

end Inserting

/-- The late blocks below one. -/
def down : Nat → List BlockHeader
  | 0 => []
  | n + 1 => block n :: down n

theorem mem_down (n : Nat) : ∀ m < n, block m ∈ down n := by
  induction n with
  | zero => intro m hm; exact absurd hm (Nat.not_lt_zero m)
  | succ n ih =>
    intro m hm
    rcases Nat.lt_succ_iff_lt_or_eq.mp hm with hlt | rfl
    · exact List.mem_cons_of_mem _ (ih m hlt)
    · exact List.mem_cons_self

/-- What stands above a late block. -/
theorem down_split {m : Nat} (n : Nat) (h : m ≤ n) :
    ∃ above, block n :: down n = above ++ block m :: down m ∧ above.length = n - m := by
  induction n with
  | zero =>
    obtain rfl := Nat.le_zero.mp h
    exact ⟨[], rfl, rfl⟩
  | succ n ih =>
    rcases Nat.le_succ_iff.mp h with hle | rfl
    · obtain ⟨above, heq, hlength⟩ := ih hle
      refine ⟨block (n + 1) :: above, ?_, ?_⟩
      · rw [down, heq, List.cons_append]
      · rw [List.length_cons, hlength]
        omega
    · exact ⟨[], rfl, (Nat.sub_self _).symm⟩

/-- The genesis, inserted into an empty store. -/
theorem mined_genesis : RowsOf [0] ∧
    weights (mined [0]).db.headers = [(block 0, 2)] ∧
    ∃ tip, Footing params Mined (mined [0]) [block 0] [] [] (block 0) [] tip tip ∧
      tip.toBlockHeader = block 0 ∧ tip.chainWork = 2 := by
  have hweights : weights (mined [0]).db.headers = [(block 0, 2)] := by decide +kernel
  have hstored : ∀ row ∈ (mined [0]).db.headers.rows,
      row.toBlockHeader = block 0 ∧ row.chainWork = 2 := by
    intro row hrow
    have hmem : (row.toBlockHeader, row.chainWork) ∈ weights (mined [0]).db.headers :=
      mem_weights.mpr ⟨row, hrow, rfl, rfl⟩
    rw [hweights, List.mem_singleton, Prod.mk.injEq] at hmem
    exact hmem
  obtain ⟨chain, hlive⟩ := @live_run _ params _ _ mined_tree (host_serves Mined)
    (@mine_live [0] (by simp))
  have hchain : chain = [block 0] := by
    cases chain with
    | nil =>
      have hrows := hlive.held rfl
      rw [weights, show (mined [0]).db.headers.rows = [] from hrows] at hweights
      cases hweights
    | cons x rest =>
      have hblock : ∀ y ∈ x :: rest, y = block 0 := by
        intro y hy
        obtain ⟨row, hrow, rfl⟩ := hlive.stored y hy
        exact (hstored row hrow).1
      cases rest with
      | nil => rw [hblock x List.mem_cons_self]
      | cons y rest =>
        have hchild : ChildOf x y := (List.isChain_cons_cons.mp hlive.linked).1
        rw [hblock x (by simp), hblock y (by simp)] at hchild
        exact absurd hchild.1 (Nat.ne_of_lt (Nat.lt_succ_self _))
  subst hchain
  obtain ⟨tip, htip, htop⟩ := hlive.exists_chainTip rfl
  refine ⟨fun row hrow => ⟨0, by simp, by decide, (hstored row hrow).1⟩, hweights, tip, ?_, htop,
    (hstored tip (chainTip_mem htip)).2⟩
  exact ⟨hlive, htip, chainTip_mem htip, congrArg some htop.symm, branch_of_chain rfl⟩

theorem work_late (h : n ≤ 1000) : work (block n).bits = 2 := by
  rw [show (block n).bits = limitBits from if_pos h]
  decide +kernel

theorem work_heavy (h : ¬n ≤ 1000) : work (block n).bits = 1024 := by
  rw [show (block n).bits = retargetBits from if_neg h]
  decide +kernel

/-- The late blocks up to a height. -/
def late (n : Nat) : List Nat := List.range (n + 1)

theorem late_succ (n : Nat) : late (n + 1) = late n ++ [n + 1] := List.range_succ

theorem mem_late : m ∈ late n ↔ m ≤ n := List.mem_range.trans Nat.lt_succ_iff

/-- **The late blocks inserted**: one on the other, each with two hashes more. -/
theorem grown (n : Nat) (hn : n ≤ 1000) : RowsOf (late n) ∧
    (∀ m ≤ n, (block m, 2 * (m + 1)) ∈ weights (mined (late n)).db.headers) ∧
    ∃ tip, Footing params Mined (mined (late n)) (block n :: down n) [] [] (block n)
      (down n) tip tip ∧ tip.toBlockHeader = block n ∧ tip.chainWork = 2 * (n + 1) := by
  induction n with
  | zero =>
    obtain ⟨hrows, hweights, hfoot⟩ := mined_genesis
    refine ⟨hrows, fun m hm => ?_, hfoot⟩
    obtain rfl := Nat.le_zero.mp hm
    exact hweights ▸ List.mem_singleton_self _
  | succ n ih =>
    obtain ⟨hrows, hweights, tip, hfoot, htop, hwork⟩ := ih (Nat.le_of_succ_le hn)
    have hparent : parent (n + 1) = n := by
      rw [parent, if_neg (by omega), if_neg (by omega), Nat.add_sub_cancel]
    have hadd : addWork tip.chainWork (work (block (n + 1)).bits) = 2 * (n + 1 + 1) := by
      rw [work_late hn, hwork, addWork_of_lt (by unfold workModulus; omega)]
      omega
    obtain ⟨hrows', hweights', chain', path', above', fork', below', tip', row', hfoot', hrow', hwork',
      hline', htakes, -⟩ := mined_insert hfoot hrows (Nat.succ_pos n) (by omega)
        (fun hmem => Nat.not_succ_le_self n (mem_late.mp hmem)) (htop.trans (by rw [hparent])) hadd
        fun _ => ⟨by simp, by simp [reorgHeightThreshold]⟩
    obtain ⟨rfl, rfl, rfl, rfl⟩ := htakes (by omega)
    obtain ⟨rfl, rfl⟩ := List.cons.inj hline'
    rw [← late_succ] at hrows' hfoot' hweights'
    refine ⟨hrows', fun m hm => ?_, tip', hfoot', hrow', hwork'⟩
    rw [hweights']
    rcases Nat.le_succ_iff.mp hm with hle | rfl
    · exact List.mem_append_left _ (hweights m hle)
    · exact List.mem_append_right _ (List.mem_singleton_self _)

/-! ### The fall -/

/-- Four hundred late blocks above it, block one is settled. -/
theorem settled_one (hn : n = 402) : SoleActive (mined (late n)).db.rows (block 1) ∧
    settled ((chainTip (mined (late n)).db.rows).map (·.height)) (block 1).height
      reorgBound = true := by
  obtain ⟨-, -, tip, hfoot, htop, -⟩ := grown n (by omega)
  have hheight : tip.height = n := (congrArg BlockHeader.height htop).trans
    (show height n = n from if_pos (by omega))
  refine ⟨.after hfoot.live (List.mem_cons_of_mem _ (mem_down n 1 (by omega))), ?_⟩
  rw [hfoot.flagged, Option.map_some, hheight, hn]
  decide

theorem block_ne (hn : n < 1004) (hm : m < 1004) (h : n ≠ m) : block n ≠ block m :=
  fun he => h (block_inj hn hm (congrArg BlockHeader.hash he))

/-- The heavy block beside the third late one outworks the late blocks. -/
theorem fallen_once (hn : n = 402) : RowsOf (late n ++ [1003]) ∧
    (∀ m ≤ n, (block m, 2 * (m + 1)) ∈ weights (mined (late n ++ [1003])).db.headers) ∧
    ∃ tip row, Footing params Mined (mined (late n ++ [1003]))
      [block 1003, block 2, block 1, block 0] [] [] (block 1003) [block 2, block 1, block 0] tip
      row ∧ tip.chainWork = 1030 := by
  obtain ⟨hrows, hstored, tip, hfoot, htop, hwork⟩ := grown n (by omega)
  obtain ⟨two, htwo, htwoHeader, htwoWork⟩ := mem_weights.mp (hstored 2 (by omega))
  obtain ⟨above, hsplit, hlength⟩ := down_split (m := 2) n (by omega)
  have hbeside : Footing params Mined (mined (late n)) (block n :: down n) [] above (block 2)
      (down 2) tip two :=
    ⟨hfoot.live, hfoot.flagged, htwo, congrArg some htwoHeader.symm, branch_of_chain hsplit⟩
  have hadd : addWork two.chainWork (work (block 1003).bits) = 1030 := by
    rw [work_heavy (by omega), htwoWork, addWork_of_lt (by unfold workModulus; omega)]
  obtain ⟨hrows', hweights', chain', path', above', fork', below', tip', row', hfoot', -, hwork',
    hline', htakes, -⟩ := mined_insert hbeside hrows (by omega) (by omega)
      (fun hmem => absurd (mem_late.mp hmem) (by omega))
      (show two.toBlockHeader = block (parent 1003) from htwoHeader) hadd fun _ =>
        ⟨by rw [hlength, reorgHeightThreshold]; omega, by simp [reorgHeightThreshold]⟩
  obtain ⟨rfl, rfl, rfl, rfl⟩ := htakes (by omega)
  obtain ⟨rfl, rfl⟩ := List.cons.inj hline'
  refine ⟨hrows', fun m hm => ?_, tip', tip', hfoot', hwork'⟩
  rw [hweights']
  exact List.mem_append_left _ (hstored m hm)

/-- The first block on the genesis does not outwork it, and the second does. -/
theorem fallen (hn : n = 402) : ∃ chain,
    Live params Mined (mined (late n ++ [1003] ++ [1001] ++ [1002])).db.headers chain ∧
      block 1 ∉ chain := by
  obtain ⟨hrows, hstored, tip, row, hfoot, hwork⟩ := fallen_once hn
  obtain ⟨zero, hzero, hzeroHeader, hzeroWork⟩ := mem_weights.mp (hstored 0 (by omega))
  have hfork : Footing params Mined (mined (late n ++ [1003]))
      [block 1003, block 2, block 1, block 0] [] [block 1003, block 2, block 1] (block 0) [] tip
      zero :=
    ⟨hfoot.live, hfoot.flagged, hzero, congrArg some hzeroHeader.symm, branch_of_chain rfl⟩
  have hadd₁ : addWork zero.chainWork (work (block 1001).bits) = 1026 := by
    rw [work_heavy (by omega), hzeroWork, addWork_of_lt (by unfold workModulus; omega)]
  obtain ⟨hrows₁, -, chain₁, path₁, above₁, fork₁, below₁, tip₁, row₁, hfoot₁, hrow₁, hwork₁, -, -,
    hstays⟩ := mined_insert hfork hrows (by omega) (by omega)
      (fun hmem => by
        rcases List.mem_append.mp hmem with hmem | hmem
        · exact absurd (mem_late.mp hmem) (by omega)
        · exact absurd (List.mem_singleton.mp hmem) (by omega))
      (show zero.toBlockHeader = block (parent 1001) from hzeroHeader) hadd₁
      fun _ => ⟨by simp [reorgHeightThreshold], by simp [reorgHeightThreshold]⟩
  obtain ⟨htip₁, rfl, rfl, rfl, rfl, rfl⟩ := hstays (by omega)
  have hadd₂ : addWork row₁.chainWork (work (block 1002).bits) = 2050 := by
    rw [work_heavy (by omega), hwork₁, addWork_of_lt (by unfold workModulus; omega)]
  obtain ⟨-, -, chain₂, path₂, above₂, fork₂, below₂, tip₂, row₂, hfoot₂, -, -, -, htakes, -⟩ :=
    mined_insert hfoot₁ hrows₁ (by omega) (by omega)
      (fun hmem => by
        rcases List.mem_append.mp hmem with hmem | hmem
        · rcases List.mem_append.mp hmem with hmem | hmem
          · exact absurd (mem_late.mp hmem) (by omega)
          · exact absurd (List.mem_singleton.mp hmem) (by omega)
        · exact absurd (List.mem_singleton.mp hmem) (by omega))
      (show row₁.toBlockHeader = block (parent 1002) from hrow₁) hadd₂
      fun _ => ⟨by simp [reorgHeightThreshold], by simp [reorgHeightThreshold]⟩
  obtain ⟨-, rfl, -, -⟩ := htakes (by omega)
  refine ⟨_, hfoot₂.live, ?_⟩
  simp only [List.cons_append, List.nil_append, List.mem_cons, List.not_mem_nil, or_false, not_or]
  exact ⟨block_ne (by omega) (by omega) (by omega), block_ne (by omega) (by omega) (by omega),
    block_ne (by omega) (by omega) (by omega)⟩

/-- A header on the tip goes in with one transaction. -/
theorem since_ahead {env : Env} {params : ChainParams} {header : BlockHeader} {w : World}
    {a : Admission} (hpow : checkPow params header = .ok ())
    (hfresh : headerForHash w.db.rows header.hash = none)
    (hadm : admission params w.db.rows header = .ok a) (hacc : env.accepts w.asked = true)
    (hact : a.isActive header = true) :
    (insertHeader env params header w).2.since w =
      .commit w.db (a.txn header) (execAll (env.unixepoch w.asked) (a.txn header) w.db) ::
        (a.entries params header w.db.rows).reverse := by
  have hok : refusing header (checkPow params header) = .ok () := Except.mapError_eq_ok.mpr hpow
  have htakes : a.becomesTip = true := (Bool.and_eq_true_iff.mp hact).1
  have hrun : insertHeader env params header w = letIn env header a
      ⟨execAll (env.unixepoch w.asked) (a.txn header) w.db, w.asked + 1,
        .commit w.db (a.txn header) (execAll (env.unixepoch w.asked) (a.txn header) w.db) ::
          ((a.entries params header w.db.rows).reverse ++ w.history)⟩ := by
    rw [insertHeader, hok, Prog.ofExcept_ok_bind_apply, readRows, Prog.read_bind_apply,
      if_neg (by rw [hfresh]; exact Bool.false_ne_true), hadm, Prog.ofExcept_ok_bind_apply,
      Prog.bind_ok (each_note_apply _ w)]
    exact Prog.bind_ok (commit_ok _ hacc)
  refine since_eq ?_
  rw [hrun, letIn, if_pos htakes, hact, settleTip_of_extends hact]
  rfl

/-- An insertion is no reorg. -/
theorem not_reorgTo_insertion (a : Admission) (header : BlockHeader) (hash : String) :
    ¬ReorgTo (a.txn header) hash := by
  rintro ⟨⟨height, hdeactivates⟩, -⟩
  unfold Admission.txn at hdeactivates
  split at hdeactivates <;> simp [Admission.insertion] at hdeactivates

/-- The next late block is no reorg. -/
theorem ahead_spares (hn : n < 1000) (h : BlockHeader) :
    EachCommit (fun _ before txn _ => SparesSettled h before txn)
      ((mined (late n ++ [n + 1])).since (mined (late n))) := by
  obtain ⟨hrows, -, tip, hfoot, htop, hwork⟩ := grown n (by omega)
  have hparent : tip.toBlockHeader = block (parent (n + 1)) := by
    rw [htop, parent, if_neg (by omega), if_neg (by omega), Nat.add_sub_cancel]
  have hfresh : headerForHash (mined (late n)).db.rows (block (n + 1)).hash = none :=
    hrows.fresh (by omega) fun hmem => absurd (mem_late.mp hmem) (by omega)
  have habides : Abides params (tip.toBlockHeader :: down n) (block (n + 1)) :=
    hparent ▸ abides_block (by omega) (by omega) _
  have hchild : ChildOf (block (n + 1)) tip.toBlockHeader :=
    hparent ▸ childOf_parent (by omega) (by omega)
  have hadm := habides.admission_eq hfoot.live mined_tree hfoot.mem hfoot.line hfoot.branch hchild
    (by rw [hfoot.flagged]; exact storedCheckpointAbove_eq_none (no_checkpoint_above _ _))
  rw [hfoot.flagged] at hadm
  have htakes : tip.chainWork <
      addWork tip.chainWork (params.bsv.workFromBits (block (n + 1)).bits) := by
    rw [show params.bsv.workFromBits (block (n + 1)).bits = 2 from work_late (by omega), hwork,
      addWork_of_lt (by unfold workModulus; omega)]
    omega
  have hact : Admission.isActive ⟨some tip,
      addWork tip.chainWork (params.bsv.workFromBits (block (n + 1)).bits), some tip, true⟩
      (block (n + 1)) = true :=
    Bool.and_eq_true_iff.mpr ⟨decide_eq_true htakes, beq_iff_eq.mpr hchild.2⟩
  rw [mined_concat, since_ahead (checkPow_block (by omega)) hfresh hadm rfl hact]
  refine EachCommit.cons ?_ fun before txn after heq hash hto => ?_
  · rintro later before txn after earlier heq
    have hmem := List.mem_append_right later
      (List.mem_cons_self (a := Entry.commit before txn after) (l := earlier))
    rw [← heq] at hmem
    exact absurd rfl (((admission_ok hadm).entries_sound (checkPow_block (by omega)) _
      (List.mem_reverse.mp hmem)).2 before txn after)
  · cases heq
    exact absurd hto (not_reorgTo_insertion _ _ hash)

end LateBlocks

open LateBlocks in
/-- **A settled answer does not stay true** in every run: block one, settled under four
hundred late blocks, is off the chain three headers later. -/
theorem settled_falls : ¬∀ (offered : BlockHeader → Prop) (env : Env) (params : ChainParams)
    (calls later : List Call), HeaderTree params offered → env.Serves offered →
    (∀ call ∈ calls ++ later, LiveCall offered call) → ∀ h : BlockHeader,
    SettledStays (runAll env params calls .init) (runAll env params (calls ++ later) .init) h := by
  intro hall
  obtain ⟨n, hn⟩ : ∃ n, n = 402 := ⟨_, rfl⟩
  obtain ⟨hsole, hsettled⟩ := settled_one hn
  obtain ⟨chain, hlive, hoff⟩ := fallen hn
  rw [List.append_assoc, List.append_assoc, mined, mine_append] at hlive
  have hgiven : ∀ call ∈ mine (late n) ++ mine ([1003] ++ ([1001] ++ [1002])), LiveCall Mined call := by
    rw [← mine_append]
    refine mine_live fun m hm => ?_
    rcases List.mem_append.mp hm with hm | hm
    · have := mem_late.mp hm
      omega
    · simp only [List.cons_append, List.nil_append, List.mem_cons, List.not_mem_nil, or_false] at hm
      omega
  have hstays := (hall Mined Regtest.host params (mine (late n)) _ mined_tree (host_serves _) hgiven
    (block 1) hsole ⟨reorgBound, Nat.le_refl _, hsettled⟩).1
  exact hoff ((hlive.soleActive_iff hstays.1).mp hstays)

open LateBlocks in
/-- `Chaintracks.settled_stays` of the late blocks, one of them more. -/
theorem settled_stays_ahead : SettledStays (runAll Regtest.host params (mine (late 402)) .init)
    (runAll Regtest.host params (mine (late 402) ++ mine [402 + 1]) .init) (block 1) := by
  have hgiven : ∀ call ∈ mine (late 402) ++ mine [402 + 1], LiveCall Mined call := by
    rw [← mine_append]
    refine mine_live fun m hm => ?_
    rcases List.mem_append.mp hm with hm | hm
    · have := mem_late.mp hm
      omega
    · have := List.mem_singleton.mp hm
      omega
  refine settled_stays Regtest.host params (mine (late 402)) (mine [402 + 1]) mined_tree
    (host_serves _) hgiven (block 1) ?_
  rw [← mine_append]
  exact ahead_spares (by omega) (block 1)

end Chaintracks

import Chaintracks.Checked

/-!
# One row a block, and the spelling of its hash

A header comes with two texts that name blocks, its own hash and its parent's. The checks
compare them without regard to case: a hash claimed in capitals is the hash of the frame,
and a run linked in capitals is linked. The store compares letter by letter. Its unique key,
the parent of an insertion and of a relink, the ground of a batch and the check of the links
are all of the text as it was served, and no writer brings the text to one spelling.

So a block has one row, and a child finds its parent, exactly as far as the texts agree.
Where every header that is stored spells the hashes it shares with the stored ones as they
do (`Chaintracks.SpelledAlike`), that is a fact of every state of every run
(`Chaintracks.one_row_per_block`). One header in capitals, and a block has two rows; one
parent named in capitals, and the child is an orphan (`Chaintracks.capitals_apart`).
-/

namespace Chaintracks

open HeaderRows

/-! ### Spelling -/

/-- **Two headers spell alike** the hashes they share: each other's as their own, and each
other's as their parent's. -/
structure SpelledAlike (a b : BlockHeader) : Prop where
  own : eqIgnoreAsciiCase a.hash b.hash = true → a.hash = b.hash
  child : eqIgnoreAsciiCase a.previousHash b.hash = true → a.previousHash = b.hash
  parent : eqIgnoreAsciiCase b.previousHash a.hash = true → b.previousHash = a.hash

instance (a b : BlockHeader) : Decidable (SpelledAlike a b) :=
  decidable_of_iff
    ((eqIgnoreAsciiCase a.hash b.hash = true → a.hash = b.hash) ∧
      (eqIgnoreAsciiCase a.previousHash b.hash = true → a.previousHash = b.hash) ∧
      (eqIgnoreAsciiCase b.previousHash a.hash = true → b.previousHash = a.hash))
    ⟨fun ⟨own, child, parent⟩ => ⟨own, child, parent⟩, fun h => ⟨h.own, h.child, h.parent⟩⟩

theorem SpelledAlike.symm {a b : BlockHeader} (h : SpelledAlike a b) : SpelledAlike b a :=
  ⟨fun he => (h.own (eqIgnoreAsciiCase_comm he)).symm, h.parent, h.child⟩

/-- The header a statement inserts. -/
def Stmt.inserted : Stmt → Option BlockHeader
  | insertHeader _ header _ _ => some header
  | _ => none

/-- **The condition on a transaction**: each header it stores spells the hashes it shares
with the stored headers, and with the others it stores, as they do. -/
def InsertsAlike (before : Store) (txn : List Stmt) : Prop :=
  ∀ header ∈ txn.filterMap Stmt.inserted,
    (∀ r ∈ before.rows, SpelledAlike header r.toBlockHeader) ∧
      ∀ other ∈ txn.filterMap Stmt.inserted, SpelledAlike header other

instance (before : Store) (txn : List Stmt) : Decidable (InsertsAlike before txn) :=
  inferInstanceAs (Decidable (∀ header ∈ txn.filterMap Stmt.inserted,
    (∀ r ∈ before.rows, SpelledAlike header r.toBlockHeader) ∧
      ∀ other ∈ txn.filterMap Stmt.inserted, SpelledAlike header other))

/-! ### The property -/

/-- The header names the block of the row as its parent, in whatever letters. -/
def Names (header : BlockHeader) (row : HeaderRow) : Prop :=
  header.previousHash ≠ zeroHash ∧ eqIgnoreAsciiCase header.previousHash row.hash = true

/-- **A header finds its parent's row**: the lookup by the hash it names answers that row,
an insertion is made on it, and a batch stands on it and not on a checkpoint. -/
structure Finds (params : ChainParams) (rows : List HeaderRow) (header : BlockHeader)
    (parent : HeaderRow) : Prop where
  lookup : headerForHash rows header.previousHash = some parent
  inserted : ∀ a, admission params rows header = .ok a → a.previous = some parent
  batched : ∀ headers lastHeight stored vouched,
    batchGround params rows header headers lastHeight = .ok (stored, vouched) → vouched = none

/-- **A stored header is linked to its parent's row**: it finds it, the relink does not miss
it, and the link check sees no break between the two. -/
structure LinkedTo (params : ChainParams) (rows : List HeaderRow) (header : BlockHeader)
    (parent : HeaderRow) : Prop extends Finds params rows header parent where
  relinked : planRelink params rows header.hash ≠ .ok .noParent
  unbroken : ∀ lo hi, ∀ link ∈ brokenLinks rows lo hi, link.next = header.hash →
    link.active ≠ some parent.hash ∧
      (parent.isActive = true → header.height = parent.height + 1 → link.active ≠ none)

/-- **One row a block**: no two rows have one frame, and each row is linked to the row of
the block it names. -/
structure OneRowPerBlock (params : ChainParams) (rows : List HeaderRow) : Prop where
  frames : ∀ r ∈ rows, ∀ r' ∈ rows, r.wire = r'.wire → r = r'
  linked : ∀ row ∈ rows, ∀ parent ∈ rows, Names row.toBlockHeader parent →
    LinkedTo params rows row.toBlockHeader parent

/-- What a header that comes next meets: its block's row, if it has one, is the one its hash
finds, and it finds the row of the block it names. -/
structure Recognised (params : ChainParams) (rows : List HeaderRow) (header : BlockHeader) :
    Prop where
  duplicate : ∀ r ∈ rows, r.wire = header.wire → headerForHash rows header.hash = some r
  parent : ∀ parent ∈ rows, Names header parent → Finds params rows header parent

section Lookup

variable {params : ChainParams} {t : HeaderTable} {header : BlockHeader} {row parent : HeaderRow}

/-- Everything a header meets at its parent follows from the one lookup. -/
theorem Finds.of_lookup (h : headerForHash t.rows header.previousHash = some parent)
    (hne : header.previousHash ≠ zeroHash) : Finds params t.rows header parent := by
  refine ⟨h, fun a ha => ?_, fun headers lastHeight stored vouched hground => ?_⟩
  · rw [(admission_ok ha).previous, previousOf, if_pos hne, h]
  · unfold batchGround at hground
    rw [h] at hground
    obtain ⟨_, -, hground⟩ := Except.bind_eq_ok.mp hground
    cases hground
    rfl

theorem brokenLinks_mem {rows : List HeaderRow} {lo hi : Nat} {link : BrokenLink}
    (h : link ∈ brokenLinks rows lo hi) :
    ∃ c ∈ rows, c.hash = link.next ∧
      ((link.active = none ∧ ∀ p ∈ rows, p.isActive = true → p.height ≠ c.height - 1) ∨
        ∃ p ∈ rows, link.active = some p.hash ∧ p.hash ≠ c.previousHash) := by
  obtain ⟨c, hc, hlink⟩ := List.mem_flatMap.mp h
  have hcrow := (mem_activeHeadersBetween.mp hc).1
  split at hlink
  · rename_i hnone
    rw [List.mem_singleton] at hlink
    subst hlink
    refine ⟨c, hcrow, rfl, .inl ⟨rfl, fun p hp hact hh => ?_⟩⟩
    have := List.filter_eq_nil_iff.mp hnone p hp
    simp [hact, hh] at this
  · obtain ⟨p, hp, rfl⟩ := List.mem_map.mp hlink
    obtain ⟨hp, hne⟩ := List.mem_filter.mp hp
    refine ⟨c, hcrow, rfl, .inr ⟨p, (List.mem_filter.mp hp).1, rfl, ?_⟩⟩
    simpa using hne

/-- A stored header that finds its parent's row is linked to it. -/
theorem LinkedTo.of_finds (h : Finds params t.rows row.toBlockHeader parent) (hrow : row ∈ t.rows) :
    LinkedTo params t.rows row.toBlockHeader parent := by
  refine ⟨h, fun hplan => ?_, fun lo hi link hlink hnext => ?_⟩
  · unfold planRelink at hplan
    rw [headerForHash_eq_some t.uniqueHash hrow] at hplan
    dsimp only at hplan
    rw [h.lookup] at hplan
    obtain ⟨_, -, hplan⟩ := Except.bind_eq_ok.mp hplan
    obtain ⟨_, -, hplan⟩ := Except.bind_eq_ok.mp hplan
    cases hplan
  · obtain ⟨c, hc, hch, hbreak⟩ := brokenLinks_mem hlink
    have hsame : c = row := HeaderTable.eq_of_hash hc hrow (hch.trans hnext)
    subst hsame
    have hnamed : parent.hash = c.previousHash := headerForHash_hash h.lookup
    rcases hbreak with ⟨hnone, hempty⟩ | ⟨p, -, hp, hne⟩
    · refine ⟨by rw [hnone]; exact nofun, fun hact hh => ?_⟩
      refine absurd ?_ (hempty parent (headerForHash_mem h.lookup) hact)
      have hheight : c.height = parent.height + 1 := hh
      omega
    · rw [hp]
      refine ⟨fun heq => hne ?_, fun _ _ => nofun⟩
      rw [Option.some_inj.mp heq, hnamed]

end Lookup

/-! ### Rows that spell alike -/

/-- **The invariant**: the rows meet their own proof of work, and spell alike. -/
structure Spelled (params : ChainParams) (t : HeaderTable) : Prop where
  pow : ∀ r ∈ t.rows, checkPow params r.toBlockHeader = .ok ()
  alike : ∀ r ∈ t.rows, ∀ r' ∈ t.rows, SpelledAlike r.toBlockHeader r'.toBlockHeader

section Invariant

variable {params : ChainParams} {t : HeaderTable} {header : BlockHeader} {w : World}
  {txn : List Stmt}

/-- Headers of one frame carry one hash, but for its case. -/
theorem hash_of_wire {a b : BlockHeader} (ha : checkPow params a = .ok ())
    (hb : checkPow params b = .ok ()) (h : a.wire = b.wire) :
    eqIgnoreAsciiCase a.hash b.hash = true := by
  have hca := eqIgnoreAsciiCase_of_checkPow ha
  have hcb := eqIgnoreAsciiCase_of_checkPow hb
  rw [h] at hca
  simp only [eqIgnoreAsciiCase, beq_iff_eq] at hca hcb ⊢
  exact hca.symm.trans hcb

/-- **A header is recognised by the rows exactly where it spells their hashes as they do**:
that of its own block, and that of its parent's. -/
theorem recognised_iff :
    Recognised params t.rows header ↔ ∀ r ∈ t.rows,
      (r.wire = header.wire → header.hash = r.hash) ∧
        (Names header r → header.previousHash = r.hash) := by
  constructor
  · intro h r hr
    refine ⟨fun hwire => ?_, fun hnames => ?_⟩
    · exact (headerForHash_hash (h.duplicate r hr hwire)).symm
    · exact (headerForHash_hash (h.parent r hr hnames).lookup).symm
  · intro h
    refine ⟨fun r hr hwire => ?_, fun parent hp hnames => ?_⟩
    · rw [(h r hr).1 hwire, headerForHash_eq_some t.uniqueHash hr]
    · refine Finds.of_lookup ?_ hnames.1
      rw [(h parent hp).2 hnames, headerForHash_eq_some t.uniqueHash hp]

/-- Where the rows spell alike a block has one row. -/
theorem Spelled.oneRow (h : Spelled params t) : OneRowPerBlock params t.rows := by
  refine ⟨fun r hr r' hr' hwire => ?_, fun row hrow parent hp hnames => ?_⟩
  · exact HeaderTable.eq_of_hash hr hr'
      ((h.alike r hr r' hr').own (hash_of_wire (h.pow r hr) (h.pow r' hr') hwire))
  · refine .of_finds (Finds.of_lookup ?_ hnames.1) hrow
    rw [(h.alike row hrow parent hp).child hnames.2, headerForHash_eq_some t.uniqueHash hp]

/-- **One transaction** keeps the rows spelled alike where its headers are. -/
theorem Spelled.move (h : Spelled params w.db.headers) (hmove : Move params w txn)
    (halike : InsertsAlike w.db txn) : Spelled params (onHeadersAll txn w.db.headers) := by
  have horigin : ∀ row ∈ (onHeadersAll txn w.db.headers).rows,
      (∃ r ∈ w.db.headers.rows, row.toBlockHeader = r.toBlockHeader) ∨
        row.toBlockHeader ∈ txn.filterMap Stmt.inserted ∧
          checkPow params row.toBlockHeader = .ok () := by
    intro row hrow
    rcases mem_onHeadersAll hrow with ⟨r, hr, hh, -⟩ | ⟨prev, act, work, hins⟩
    · exact .inl ⟨r, hr, hh⟩
    · exact .inr ⟨List.mem_filterMap.mpr ⟨_, hins, rfl⟩, hmove.pow hins⟩
  refine ⟨fun row hrow => ?_, fun row hrow row' hrow' => ?_⟩
  · rcases horigin row hrow with ⟨r, hr, hh⟩ | ⟨-, hpow⟩
    · exact hh ▸ h.pow r hr
    · exact hpow
  · rcases horigin row hrow with ⟨r, hr, hh⟩ | ⟨hin, -⟩ <;>
      rcases horigin row' hrow' with ⟨r', hr', hh'⟩ | ⟨hin', -⟩
    · rw [hh, hh']
      exact h.alike r hr r' hr'
    · rw [hh]
      exact ((halike _ hin').1 r hr).symm
    · rw [hh']
      exact (halike _ hin).1 r' hr'
    · exact (halike _ hin).2 _ hin'

end Invariant

/-! ### Runs -/

section Runs

variable {env : Env} {params : ChainParams} {calls : List Call}

/-- **One row a block**, in every state of every run of all writers whose transactions store
headers spelled like the stored ones; and a header that comes next is recognised exactly
where it spells the stored hashes of its own block and of its parent's as they stand. -/
theorem one_row_per_block (halike : EachCommit (fun _ before txn _ => InsertsAlike before txn)
      (runAll env params calls .init).history) :
    (OneRowPerBlock params (runAll env params calls .init).db.rows ∧
        ∀ header, Recognised params (runAll env params calls .init).db.rows header ↔
          ∀ r ∈ (runAll env params calls .init).db.rows,
            (r.wire = header.wire → header.hash = r.hash) ∧
              (Names header r → header.previousHash = r.hash)) ∧
      EachCommit (fun _ _ _ after => OneRowPerBlock params after.rows)
        (runAll env params calls .init).history := by
  obtain ⟨hlast, heach⟩ := steps_invariant (I := fun w => Spelled params w.db.headers)
    (D := fun _ _ _ after => OneRowPerBlock params after.rows) (fun _ hw => hw)
    (fun _ _ _ _ hw => hw)
    (fun w now txn hmove hw hins => by
      have hafter : Spelled params (execAll now txn w.db).headers := by
        rw [execAll_headers]
        exact hw.move hmove hins
      exact ⟨hafter, hafter.oneRow⟩)
    ⟨nofun, nofun⟩ (via_runAll env params calls .init) halike
  exact ⟨⟨hlast.oneRow, fun header => recognised_iff⟩, heach⟩

end Runs

/-! ### Capitals -/

section Regtest

open Regtest

/-- The branch `a`, its block at 2 asked for before the one at 1 is stored. -/
theorem one_row_per_block_branch :
    OneRowPerBlock params (runAll host params [.insertHeader genesis, .insertHeader a1,
      .insertHeader b2, .insertHeader a2] .init).db.rows := by
  have halike : EachCommit (fun _ before txn _ => decide (InsertsAlike before txn) = true)
      (runAll host params [.insertHeader genesis, .insertHeader a1, .insertHeader b2,
        .insertHeader a2] .init).history :=
    .of_eachCommit (by decide +kernel)
  exact (one_row_per_block fun later before txn after earlier heq =>
    of_decide_eq_true (halike later before txn after earlier heq)).1.1

/-- `a1` as a courier serves it whose hex is in capitals. -/
def a1Capitals : BlockHeader :=
  { a1 with hash := "639834644B8AC4B7C8A878E5095FA53A926D79819EA1CC0112133F8F26C26CE7" }

/-- `a2` as such a courier serves its parent's hash. -/
def a2Capitals : BlockHeader := { a2 with previousHash := a1Capitals.hash }

/-- **One hash in two spellings.** The block `a1`, stored, is served again with its hash in
capitals: it passes every check and is stored as a second row of its frame. And `a2`, served
with its parent's hash in capitals, passes every check and is kept as an orphan, with its
parent stored. -/
theorem capitals_apart :
    ¬OneRowPerBlock params (runAll host params [.insertHeader genesis, .insertHeader a1,
        .insertHeader a1Capitals] .init).db.rows ∧
      ¬OneRowPerBlock params (runAll host params [.insertHeader genesis, .insertHeader a1,
        .insertHeader a2Capitals] .init).db.rows := by
  constructor
  · intro h
    obtain ⟨r, hr, r', hr', hwire, hne⟩ : ∃ r ∈ (runAll host params [.insertHeader genesis,
        .insertHeader a1, .insertHeader a1Capitals] .init).db.rows,
        ∃ r' ∈ (runAll host params [.insertHeader genesis, .insertHeader a1,
          .insertHeader a1Capitals] .init).db.rows, r.wire = r'.wire ∧ r ≠ r' := by
      decide +kernel
    exact hne (h.frames r hr r' hr' hwire)
  · intro h
    obtain ⟨row, hrow, parent, hp, hne, hnames, hmissed⟩ : ∃ row ∈ (runAll host params
        [.insertHeader genesis, .insertHeader a1, .insertHeader a2Capitals] .init).db.rows,
        ∃ parent ∈ (runAll host params [.insertHeader genesis, .insertHeader a1,
          .insertHeader a2Capitals] .init).db.rows,
        row.previousHash ≠ zeroHash ∧ eqIgnoreAsciiCase row.previousHash parent.hash = true ∧
          headerForHash (runAll host params [.insertHeader genesis, .insertHeader a1,
            .insertHeader a2Capitals] .init).db.rows row.previousHash = none := by
      decide +kernel
    rw [(h.linked row hrow parent hp ⟨hne, hnames⟩).lookup] at hmissed
    cases hmissed

end Regtest

end Chaintracks

import Chaintracks.Statement
import Chaintracks.Library.Forest

/-!
# The walks back from a row

Four reads of the store follow parents. `Chaintracks.walkBack` takes one step, by the
id where the row carries one and by the hash it names otherwise.
`Chaintracks.findCommonAncestor` takes at most four hundred steps from two headers at
once, lower first; `Chaintracks.branchAbove` lists one branch down to a height;
`Chaintracks.loadChain` reads the ancestry the difficulty rule needs, off the active
chain by steps and on it by one range read.

A walk that follows stored links need not end if the links came round to themselves.
The source's loops would then not end either; here such a walk runs out of the rows
there are, and `Chaintracks.branchAbove` answers nothing.
-/

namespace Chaintracks

open HeaderRows

section Walks

variable (rows : List HeaderRow)

/-- `walk_back`: the parent's row, by its id where the link is set and the row is there,
else by the hash. -/
def walkBack (header : LinkedHeader) : Option HeaderRow :=
  match header.previousHeaderId.bind (headerForId rows) with
  | some row => some row
  | none =>
    if header.previousHash ≠ zeroHash then headerForHash rows header.previousHash else none

/-- The `reorg_height_threshold` of the source. -/
def reorgHeightThreshold : Nat := 400

/-- The loop of `find_common_ancestor`, with the steps it has left. -/
def commonAncestorLoop : Nat → Option LinkedHeader → Option LinkedHeader → Option LinkedHeader
  | fuel, some a, some b =>
    if a.hash = b.hash then some a
    else match fuel with
      | 0 => none
      | fuel + 1 =>
        if a.height > b.height then
          commonAncestorLoop fuel ((walkBack rows a).map (·.linked)) (some b)
        else if a.height < b.height then
          commonAncestorLoop fuel (some a) ((walkBack rows b).map (·.linked))
        else
          commonAncestorLoop fuel ((walkBack rows a).map (·.linked))
            ((walkBack rows b).map (·.linked))
  | _, _, _ => none

/-- `find_common_ancestor`. -/
def findCommonAncestor (a b : LinkedHeader) : Option LinkedHeader :=
  commonAncestorLoop rows reorgHeightThreshold (some a) (some b)

/-- The hashes from a header down to (not including) the first at or below a height;
nothing where the walk comes round to itself. -/
def branchAbove (ancestorHeight : Nat) : Nat → Option LinkedHeader → Option (List String)
  | _, none => some []
  | fuel, some header =>
    if header.height ≤ ancestorHeight then some []
    else match fuel with
      | 0 => none
      | fuel + 1 =>
        (branchAbove ancestorHeight fuel ((walkBack rows header).map (·.linked))).map
          (header.hash :: ·)

/-! ### The difficulty rule's ancestry -/

/-- One step off the active chain: the parent, where it stands one below and carries
the hash the row names. -/
def stepOffChain (row : HeaderRow) : Option HeaderRow :=
  if !row.isActive && 0 < row.height then
    (walkBack rows row.linked).filter fun p =>
      p.height + 1 == row.height && eqIgnoreAsciiCase p.hash row.previousHash
  else none

/-- One step on rows already read: the row one below that carries the hash. -/
def stepOnChain (read : List HeaderRow) (row : HeaderRow) : Option HeaderRow :=
  if 0 < row.height then
    read.find? fun p =>
      p.height == row.height - 1 && eqIgnoreAsciiCase p.hash row.previousHash
  else none

/-- The headers of `load_window`, ascending and ending at the parent. -/
def loadChain (parent : HeaderRow) (depth : Nat) : List HeaderRow :=
  let off := Forest.follow (stepOffChain rows) (depth - 1) parent
  let cur := off.getLast?.getD parent
  let need := depth - (1 + off.length)
  let on :=
    if 0 < need && cur.isActive && 0 < cur.height then
      let read := activeHeadersBetween rows (cur.height - need) (cur.height - 1)
      Forest.follow (stepOnChain read) need cur
    else []
  (parent :: off ++ on).reverse

/-- `load_window`. -/
def loadWindow (params : ChainParams) (parent : HeaderRow) (depth : Nat) : Window :=
  Window.new params.bsv ((loadChain rows parent depth).map fun r => r.link)

/-! ### The checkpoints the store holds -/

/-- `stored_checkpoint_above`: the highest checkpoint above a height, at or below the
tip, whose header is stored. -/
def storedCheckpointAbove (params : ChainParams) (height : Nat) (tip : Option HeaderRow) :
    Option Nat :=
  match tip with
  | none => none
  | some tip =>
    ((params.checkpoints.reverse.takeWhile fun c => height < c.1).find? fun c =>
      c.1 ≤ tip.height && (headerForHash rows c.2).isSome).map (·.1)

end Walks

/-! ### What the walks answer -/

section Lemmas

variable {rows : List HeaderRow} {header : LinkedHeader} {row parent : HeaderRow}

theorem eqIgnoreAsciiCase_comm {a b : String} (h : eqIgnoreAsciiCase a b = true) :
    eqIgnoreAsciiCase b a = true := by
  simp only [eqIgnoreAsciiCase, beq_iff_eq] at h ⊢
  exact h.symm

theorem walkBack_mem (h : walkBack rows header = some row) : row ∈ rows := by
  unfold walkBack at h
  split at h
  · rename_i r hr
    cases h
    obtain ⟨id, -, hid⟩ := Option.bind_eq_some_iff.mp hr
    exact headerForId_mem hid
  · split at h
    · exact headerForHash_mem h
    · cases h

/-- The branch above a height is of stored rows above it, and of the header it starts
from where that stands above it. -/
theorem branchAbove_mem {ancestorHeight fuel : Nat} {branch : List String} {hash : String}
    (h : branchAbove rows ancestorHeight fuel (some header) = some branch) (hmem : hash ∈ branch) :
    hash = header.hash ∧ ancestorHeight < header.height ∨
      ∃ r ∈ rows, r.hash = hash ∧ ancestorHeight < r.height := by
  induction fuel generalizing header branch with
  | zero =>
    unfold branchAbove at h
    split at h
    · cases h
      cases hmem
    · cases h
  | succ fuel ih =>
    unfold branchAbove at h
    split at h
    · cases h
      cases hmem
    · rename_i hgt
      obtain ⟨rest, hrest, rfl⟩ := Option.map_eq_some_iff.mp h
      rcases List.mem_cons.mp hmem with rfl | hmem
      · exact .inl ⟨rfl, by omega⟩
      · cases hw : walkBack rows header with
        | none =>
          rw [hw] at hrest
          unfold branchAbove at hrest
          cases hrest
          cases hmem
        | some r =>
          rw [hw] at hrest
          rcases ih hrest hmem with ⟨rfl, hlt⟩ | hr
          · exact .inr ⟨r, walkBack_mem hw, rfl, hlt⟩
          · exact .inr hr

theorem branchAbove_self {ancestorHeight fuel : Nat} {branch : List String}
    (h : branchAbove rows ancestorHeight fuel (some header) = some branch)
    (hlt : ancestorHeight < header.height) : header.hash ∈ branch := by
  cases fuel with
  | zero =>
    unfold branchAbove at h
    rw [if_neg (by omega)] at h
    cases h
  | succ fuel =>
    unfold branchAbove at h
    rw [if_neg (by omega)] at h
    obtain ⟨rest, -, rfl⟩ := Option.map_eq_some_iff.mp h
    exact List.mem_cons_self

/-- One row stands directly above another: one height up, naming its hash. -/
def StandsOn (below above : BlockHeader) : Prop :=
  above.height = below.height + 1 ∧ eqIgnoreAsciiCase above.previousHash below.hash = true

theorem stepOffChain_spec (h : stepOffChain rows row = some parent) :
    parent ∈ rows ∧ StandsOn parent.toBlockHeader row.toBlockHeader := by
  unfold stepOffChain at h
  split at h
  · obtain ⟨hw, hp⟩ := Option.filter_eq_some_iff.mp h
    simp only [Bool.and_eq_true, beq_iff_eq] at hp
    exact ⟨walkBack_mem hw, hp.1.symm, eqIgnoreAsciiCase_comm hp.2⟩
  · cases h

theorem stepOnChain_spec {read : List HeaderRow} (h : stepOnChain read row = some parent) :
    parent ∈ read ∧ StandsOn parent.toBlockHeader row.toBlockHeader := by
  unfold stepOnChain at h
  split at h
  · rename_i hpos
    have hp := List.find?_some h
    simp only [Bool.and_eq_true, beq_iff_eq] at hp
    exact ⟨List.mem_of_find?_eq_some h, by omega, eqIgnoreAsciiCase_comm hp.2⟩
  · cases h

/-- **The ancestry the rule reads** is a linked run of stored rows that ends at the
parent. -/
theorem loadChain_spec (hparent : parent ∈ rows) (depth : Nat) :
    (∀ r ∈ loadChain rows parent depth, r ∈ rows) ∧
      ((loadChain rows parent depth).map (·.toBlockHeader)).IsChain StandsOn ∧
      (loadChain rows parent depth).getLast? = some parent := by
  unfold loadChain
  generalize hoff : Forest.follow (stepOffChain rows) (depth - 1) parent = off
  have hoffmem : ∀ r ∈ off, r ∈ rows := by
    rw [← hoff]
    exact Forest.follow_forall (fun a b hab => (stepOffChain_spec hab).1) _ _
  have hoffchain : (parent :: off).IsChain
      fun a b : HeaderRow => StandsOn b.toBlockHeader a.toBlockHeader := by
    rw [← hoff]
    exact Forest.follow_isChain (fun a b hab => (stepOffChain_spec hab).2) _ _
  dsimp only
  generalize hon : (if 0 < depth - (1 + off.length) && (off.getLast?.getD parent).isActive &&
      0 < (off.getLast?.getD parent).height then _ else ([] : List HeaderRow)) = on
  have honspec : (∀ r ∈ on, r ∈ rows) ∧ (off.getLast?.getD parent :: on).IsChain
      fun a b : HeaderRow => StandsOn b.toBlockHeader a.toBlockHeader := by
    rw [← hon]
    split
    · refine ⟨fun r hr => ?_, Forest.follow_isChain (fun a b hab => (stepOnChain_spec hab).2) _ _⟩
      have := Forest.follow_forall (fun a b hab => (stepOnChain_spec hab).1) _ _ r hr
      exact (mem_activeHeadersBetween.mp this).1
    · exact ⟨by simp, List.isChain_singleton _⟩
  have hchain : (parent :: off ++ on).IsChain
      fun a b : HeaderRow => StandsOn b.toBlockHeader a.toBlockHeader := by
    refine List.isChain_append.mpr ⟨hoffchain, honspec.2.tail, ?_⟩
    intro x hx y hy
    rw [List.getLast?_cons, Option.mem_def, Option.some_inj] at hx
    subst hx
    cases on with
    | nil => cases hy
    | cons z zs =>
      cases hy
      exact (List.isChain_cons_cons.mp honspec.2).1
  refine ⟨?_, ?_, ?_⟩
  · intro r hr
    rw [List.mem_reverse, List.cons_append, List.mem_cons, List.mem_append] at hr
    rcases hr with rfl | hr | hr
    · exact hparent
    · exact hoffmem r hr
    · exact honspec.1 r hr
  · rw [List.isChain_map, List.isChain_reverse]
    exact hchain
  · rw [List.getLast?_reverse]
    rfl

end Lemmas

end Chaintracks

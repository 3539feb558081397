import Chaintracks.LiveShape
import Chaintracks.Webhooks

/-!
# Answers kept at the edge

A header more than the settled line below the served tip is answered from the edge's
cache with a day's lifetime, because no reorg is thought to reach it: the walk for the
common ancestor stops at four hundred steps, so one reorg takes off four hundred rows
below the tip at most, and the line is no nearer than that.

The bound is of one reorg, from the tip it is made from; and a tip is chosen by its work,
so it may stand lower than the tip before it. A reorg to a lower tip brings the next one
within reach of a height that was settled. What stays true is said of each reorg
(`Chaintracks.SparesSettled`): made from a tip that still stands four hundred above a
height, or to a header that descends from the row there, it leaves the row in its place
(`Chaintracks.Live.move_keeps`).
-/

namespace Chaintracks

open HeaderRows

/-! ### The settled line -/

/-- `REORG_BOUND`. -/
def reorgBound : Nat := 400

/-- `u32::from_str`. -/
def parseU32 (s : List Char) : Option Nat :=
  let digits := if s.head? = some '+' then s.tail else s
  if digits.isEmpty ∨ digits.all (·.isDigit) = false then none
  else
    let n := digits.foldl (fun n c => 10 * n + (c.toNat - 48)) 0
    if n < 2 ^ 32 then some n else none

/-- `HEADER_EDGE_DEPTH`: the cache off, or the settled line, no nearer than the bound. -/
inductive Edge
  | off
  | depth (d : Nat) (bound : reorgBound ≤ d)

/-- `Edge::parse`. -/
def Edge.parse (raw : Option String) : Edge :=
  match raw.bind fun r => parseU32 (trim r.toList) with
  | some d => .depth (max d reorgBound) (Nat.le_max_right _ _)
  | none => .off

/-- `Edge::line`. -/
def Edge.line : Edge → Nat
  | off => reorgBound
  | depth d _ => d

/-- The line is never nearer than the bound. -/
theorem Edge.reorgBound_le_line (edge : Edge) : reorgBound ≤ edge.line := by
  cases edge with
  | off => exact Nat.le_refl _
  | depth d bound => exact bound

/-- `settled`: more than the line below the served tip. -/
def settled (tip : Option Nat) (height line : Nat) : Bool :=
  tip.any fun t => decide (height < t) && decide (line < t - height)

example : Edge.line (.parse (some " 250 ")) = 400 ∧ Edge.line (.parse (some "+1000")) = 1000 := by
  decide

/-! ### What a reorg spares -/

/-- A transaction that takes a branch off and moves the tip to a header. -/
def ReorgTo (txn : List Stmt) (hash : String) : Prop :=
  (∃ height, .deactivateAbove height ∈ txn) ∧ .setChainTipActive hash ∈ txn

/-- **A reorg that spares a header**: it is made from a tip that stands the bound above the
header, or to a stored header that descends from it. -/
def SparesSettled (h : BlockHeader) (before : Store) (txn : List Stmt) : Prop :=
  ∀ hash, ReorgTo txn hash →
    (∃ tip, chainTip before.rows = some tip ∧ h.height + reorgBound ≤ tip.height) ∨
      ∃ new ∈ before.rows, new.hash = hash ∧
        Forest.Up (parentOf before.rows) new.toBlockHeader h

/-- A header stored, and the one active row at its height. -/
def SoleActive (rows : List HeaderRow) (h : BlockHeader) : Prop :=
  (∃ row ∈ rows, row.toBlockHeader = h) ∧
    ∀ row ∈ rows, row.isActive = true ∧ row.height = h.height ↔ row.toBlockHeader = h

section Finality

variable {params : ChainParams} {offered : BlockHeader → Prop} {t : HeaderTable}
  {chain : List BlockHeader} {h : BlockHeader}

/-- On a live store the headers of the chain are the sole active ones at their heights. -/
theorem Live.soleActive_iff (hlive : Live params offered t chain)
    (hstored : ∃ row ∈ t.rows, row.toBlockHeader = h) : SoleActive t.rows h ↔ h ∈ chain := by
  constructor
  · rintro ⟨⟨row, hrow, rfl⟩, hsole⟩
    exact (hlive.active row hrow).mp ((hsole row hrow).mpr rfl).1
  · intro hmem
    refine ⟨hstored, fun row hrow => ⟨?_, ?_⟩⟩
    · rintro ⟨hact, hheight⟩
      exact chain_eq_of_height hlive.linked ((hlive.active row hrow).mp hact) hmem hheight
    · rintro rfl
      exact ⟨(hlive.active row hrow).mpr hmem, rfl⟩

/-- **A reorg that spares a header of the chain** leaves it on the chain. -/
theorem PlanSpec.keeps {new : BlockHeader} {plan : ReorgPlan} {above below path : List BlockHeader}
    {ancestor : BlockHeader} (hspec : PlanSpec t chain new plan above ancestor below path)
    (hlive : Live params offered t chain) (hmem : h ∈ chain)
    (hspares : (∃ tip, chainTip t.rows = some tip ∧ h.height + reorgBound ≤ tip.height) ∨
      Forest.Up (parentOf t.rows) new h) : h ∈ path ++ ancestor :: below := by
  have hlinked := hlive.linked
  rw [hspec.chain_eq] at hlinked hmem
  rcases List.mem_append.mp hmem with habove | hbelow
  · exfalso
    have hhigh := chain_height_above hlinked h habove
    rcases hspares with ⟨tip, htip, hle⟩ | hup
    · -- the walk goes no further down than the bound
      have hhead := hlive.chainTip_eq htip
      rw [hspec.chain_eq] at hhead
      have htop := chain_head_height hlinked hhead
      have hwithin := hspec.within
      rw [reorgHeightThreshold] at hwithin
      rw [reorgBound] at hle
      change tip.height = _ at htop
      omega
    · -- the branch has one header a height, and none of the chain's
      have hstored : ∀ x ∈ path ++ [ancestor], ∃ row ∈ t.rows, row.toBlockHeader = x := by
        intro x hx
        rcases List.mem_append.mp hx with hx | hx
        · exact hspec.stored x hx
        · obtain rfl := List.mem_singleton.mp hx
          exact hlive.stored x (by rw [hspec.chain_eq]; simp)
      have hle : h.height ≤ new.height := hup.rank_le parentOf_rank
      obtain ⟨x, hx, hheight⟩ := chain_exists_height hspec.linked hspec.head
        (List.getLast?_concat ..) hhigh.le hle
      have hxh : x = h :=
        (up_of_linked hspec.linked hstored hspec.head hx).eq_of_rank parentOf_rank hup hheight
      rcases List.mem_append.mp (hxh ▸ hx) with hpath | hlast
      · exact hspec.apart h hpath (hspec.chain_eq ▸ hmem)
      · rw [List.mem_singleton.mp hlast] at hhigh
        exact Nat.lt_irrefl _ hhigh
  · exact List.mem_append_right _ hbelow

/-- **A move of the live path that spares a header of the chain** leaves it on the chain. -/
theorem Live.move_keeps {w : World} {txn : List Stmt}
    (hlive : Live params offered w.db.headers chain) (tree : HeaderTree params offered)
    (hmove : LiveMove params offered w txn) (hmem : h ∈ chain)
    (hspares : SparesSettled h w.db txn) :
    ∃ chain', Live params offered (onHeadersAll txn w.db.headers) chain' ∧ h ∈ chain' := by
  cases hmove with
  | insertion header a given pow fresh admitted noted =>
    refine ⟨_, hlive.insertion tree given fresh (admission_ok admitted), ?_⟩
    split
    · exact List.mem_cons_of_mem _ hmem
    · exact hmem
  | reorg new row tip plan stored same link flagged apart outworks cleared planned =>
    obtain ⟨above, ancestor, below, path, hspec⟩ :=
      hlive.plan_spec tree ⟨row, stored, same, link⟩ flagged planned
    have hhash : new.hash = row.hash := (congrArg BlockHeader.hash same).symm
    have hto : ReorgTo (plan.txn new.hash) new.hash :=
      ⟨⟨plan.ancestorHeight, List.mem_cons_self⟩, by simp [ReorgPlan.txn]⟩
    rw [← same] at hspec
    refine ⟨_, hhash ▸ hlive.reorg stored hspec, hspec.keeps hlive hmem ?_⟩
    refine (hspares new.hash hto).imp_right ?_
    rintro ⟨r, hr, hh, hup⟩
    have hrow : r = row := HeaderTable.eq_of_hash hr stored (hh.trans hhash)
    exact hrow ▸ hup
  | moveTip row stored cleared stands =>
    rcases stands with ⟨-, hflag⟩ | hstands
    · exact ⟨_, hlive.moveTip_same stored hflag, hmem⟩
    · cases htip : chainTip w.db.rows with
      | none =>
        have hempty : w.db.rows = [] := (hlive.empty_of_chainTip htip).1
        rw [hempty] at stored
        cases stored
      | some tip =>
        exact ⟨_, hlive.moveTip tree stored htip (hstands tip htip).1,
          List.mem_cons_of_mem _ hmem⟩
  | relink hash stored parent chainWork planned cleared =>
    have hlink := planRelink_link planned
    exact ⟨chain, hlive.relink (headerForHash_mem hlink.found)
      (headerForHash_mem hlink.foundParent) (headerForHash_hash hlink.foundParent) chainWork, hmem⟩

end Finality

end Chaintracks

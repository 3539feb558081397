import Chaintracks.WindowSums

/-!
# What the rule reads of a window

The difficulty rule asks for ancestors as far down as its depth at a parent, and for the work
between two of them; whatever else a window holds it does not see
(`Chaintracks.ReadsWindow`). So two windows of one chain that both reach down to that depth
give one answer (`Chaintracks.ReadsWindow.checkContext_append`), however deep the one goes
below the other: what a run of headers grows in memory may be deeper than what one header
would have loaded.
-/

namespace Chaintracks

namespace Window

variable {bsv : BsvRs} {deeper links : List Link}

/-- A window deeper than another answers for the heights of the other as that does. -/
theorem linkAt_append (hchain : (deeper ++ links).IsChain fun a b => b.height = a.height + 1)
    {h : Nat} (hin : ∃ a ∈ links, a.height = h) :
    (new bsv (deeper ++ links)).linkAt h = (new bsv links).linkAt h := by
  obtain ⟨a, ha, rfl⟩ := hin
  rw [(linkAt_eq_some hchain).mpr ⟨List.mem_append_right _ ha, rfl⟩,
    (linkAt_eq_some (List.isChain_append.mp hchain).2.1).mpr ⟨ha, rfl⟩]

/-- Consecutive heights go up along the list. -/
theorem heights_pairwise (hchain : links.IsChain fun a b => b.height = a.height + 1) :
    links.Pairwise fun a b => a.height < b.height := by
  have : IsTrans Link fun a b => a.height < b.height := ⟨fun _ _ _ => Nat.lt_trans⟩
  exact List.isChain_iff_pairwise.mp (hchain.imp fun a b h => by omega)

theorem height_lt_of_append (hchain : (deeper ++ links).IsChain fun a b => b.height = a.height + 1)
    {a b : Link} (ha : a ∈ deeper) (hb : b ∈ links) : a.height < b.height :=
  (List.pairwise_append.mp (heights_pairwise hchain)).2.2 a ha b hb

/-- The work between two heights of a window. -/
theorem workBetween_of_mem (hchain : links.IsChain fun a b => b.height = a.height + 1)
    {first last : Nat} (hfirst : ∃ a ∈ links, a.height = first)
    (hlast : ∃ b ∈ links, b.height = last) (hle : first ≤ last) :
    (new bsv links).workBetween first last = .ok (workOf bsv links first last % workModulus) := by
  obtain ⟨a, ha, rfl⟩ := hfirst
  obtain ⟨b, hb, rfl⟩ := hlast
  obtain ⟨i, hi, rfl⟩ := List.mem_iff_getElem.mp ha
  obtain ⟨j, hj, rfl⟩ := List.mem_iff_getElem.mp hb
  refine workBetween_getElem hchain hi hj ?_
  -- a later place is a higher one
  by_contra hlt
  have hpair := (List.pairwise_iff_getElem.mp (heights_pairwise hchain)) j i hj hi (by omega)
  omega

/-- The work between two heights of a window is that of every deeper one. -/
theorem workBetween_append (hchain : (deeper ++ links).IsChain fun a b => b.height = a.height + 1)
    {first last : Nat} (hfirst : ∃ a ∈ links, a.height = first)
    (hlast : ∃ b ∈ links, b.height = last) (hle : first ≤ last) :
    (new bsv (deeper ++ links)).workBetween first last = (new bsv links).workBetween first last := by
  have hlinks := (List.isChain_append.mp hchain).2.1
  have hwork : workOf bsv (deeper ++ links) first last = workOf bsv links first last := by
    obtain ⟨a, ha, rfl⟩ := hfirst
    unfold workOf
    rw [List.filter_append, List.filter_eq_nil_iff.mpr, List.nil_append]
    intro b hb
    have := height_lt_of_append hchain hb ha
    simp only [decide_eq_true_eq]
    omega
  obtain ⟨a, ha, hfirst'⟩ := id hfirst
  obtain ⟨b, hb, hlast'⟩ := id hlast
  rw [workBetween_of_mem hchain ⟨a, List.mem_append_right _ ha, hfirst'⟩
    ⟨b, List.mem_append_right _ hb, hlast'⟩ hle, workBetween_of_mem hlinks hfirst hlast hle, hwork]

end Window

/-- **The rule reads its depth**: two ancestries that agree from its depth up to the parent,
and on the work between, get one answer. -/
def ReadsWindow (pow : PowParams) : Prop :=
  ∀ (a b : HeaderAncestry) (parent : Nat) (time : UInt32),
    (∀ h, parent + 1 - max (pow.windowDepth parent) 1 ≤ h → h ≤ parent → a.linkAt h = b.linkAt h) →
    (∀ first last, parent + 1 - max (pow.windowDepth parent) 1 ≤ first → first ≤ last →
      last ≤ parent → a.workBetween first last = b.workBetween first last) →
    pow.nextWorkRequired a parent time = pow.nextWorkRequired b parent time

/-- **A window deep enough is as good as a deeper one.** -/
theorem ReadsWindow.checkContext_append {params : ChainParams} (hreads : ReadsWindow params.pow)
    {deeper links : List Link} {header : BlockHeader}
    (hchain : (deeper ++ links).IsChain fun a b => b.height = a.height + 1)
    (hdeep : ∀ h, header.height - 1 + 1 - max (params.pow.windowDepth (header.height - 1)) 1 ≤ h →
      h ≤ header.height - 1 → ∃ a ∈ links, a.height = h) :
    checkContext params (Window.new params.bsv (deeper ++ links)) header =
      checkContext params (Window.new params.bsv links) header := by
  have hrule : nextWorkRequired params (Window.new params.bsv (deeper ++ links))
      (header.height - 1) header.time =
      nextWorkRequired params (Window.new params.bsv links) (header.height - 1) header.time := by
    refine congrArg (Except.mapError difficultyFault) (hreads _ _ _ _ ?_ ?_)
    · exact fun h hlo hhi => Window.linkAt_append hchain (hdeep h hlo hhi)
    · exact fun first last hlo hle hhi => Window.workBetween_append hchain
        (hdeep first hlo (hle.trans hhi)) (hdeep last (hlo.trans hle) hhi) hle
  rw [checkContext, checkContext, hrule]

end Chaintracks

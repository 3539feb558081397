import Chaintracks.LiveGrowth
import Chaintracks.Regtest

/-!
# The parent walk completes a branch

`insert_with_parent_backfill` walks back from a header by hash until it meets a stored
row, inserts what it fetched from the oldest on, and relinks the header it was given.
That completes the branch where the stored row it stops at stands on stored rows down to
the chain – and an earlier walk that was cut off leaves others: a row whose own parent
was never stored ends the walk too, and the rows below it stay missing.

What it takes is `Chaintracks.Completes`, a condition on the rows before the call, and
`Chaintracks.backfill_completes_iff` says that the branch is taken whole exactly there.
-/

namespace Chaintracks

open HeaderRows

/-! ### The branch, and what completes it -/

/-- **A rule-abiding branch** of the active chain, from its top down to, not including, the
header it stands on: a line of offered headers off the chain, no longer than the walk,
each of them within the rules on its own ancestors, with no checkpoint the tip has passed
above the header they leave the chain at. -/
structure Rival (params : ChainParams) (offered : BlockHeader → Prop)
    (chain branch above : List BlockHeader) (fork : BlockHeader) (below : List BlockHeader) :
    Prop where
  chain_eq : chain = above ++ fork :: below
  linked : (branch ++ [fork]).IsChain ChildOf
  given : ∀ p ∈ branch, offered p
  apart : ∀ p ∈ branch, p ∉ chain
  short : branch.length ≤ backfillLimit
  abides : ∀ front p back, branch = front ++ p :: back → Abides params (back ++ fork :: below) p
  passed : ∀ c ∈ params.checkpoints, fork.height < c.1 →
    ∀ tip, chain.head? = some tip → tip.height < c.1

/-- The header has no row. -/
def unstored (rows : List HeaderRow) (h : BlockHeader) : Bool := (headerForHash rows h.hash).isNone

/-- The work of a header's row. -/
def storedWork (rows : List HeaderRow) (h : BlockHeader) : Nat :=
  ((headerForHash rows h.hash).map (·.chainWork)).getD 0

/-- The works of a line of headers, oldest first, on top of a row's. -/
def works (params : ChainParams) : Nat → List BlockHeader → List Nat
  | _, [] => []
  | base, h :: hs =>
    addWork base (params.bsv.workFromBits h.bits) ::
      works params (addWork base (params.bsv.workFromBits h.bits)) hs

/-- The work a line of headers ends with. -/
def lastWork (params : ChainParams) (base : Nat) (headers : List BlockHeader) : Nat :=
  ((works params base headers).getLast?).getD base

/-- **What completes a branch**, of the rows the call finds: below the first stored header
under the branch's top everything is stored; the top's work, added up from that row's,
exceeds the tip's and that of every header fetched on the way; the chain stands in a
reorg's reach above the branch; and a top that carries a checkpoint and has no stored
parent does not outwork the tip alone. -/
structure Completes (params : ChainParams) (rows : List HeaderRow) (top : BlockHeader)
    (rest : List BlockHeader) (fork : BlockHeader) (tip : HeaderRow) : Prop where
  unbroken : ∀ p ∈ rest.dropWhile (unstored rows), unstored rows p = false
  heaviest : ∀ work ∈ tip.chainWork ::
      works params (storedWork rows ((rest.dropWhile (unstored rows)).headD fork))
        (rest.takeWhile (unstored rows)).reverse,
    work < lastWork params (storedWork rows ((rest.dropWhile (unstored rows)).headD fork))
      ((rest.takeWhile (unstored rows)).reverse ++ [top])
  near : tip.height ≤ fork.height + reorgHeightThreshold
  beside : unstored rows top = true → rest.takeWhile (unstored rows) ≠ [] →
    (params.checkpointAt top.height).isSome = true →
      params.bsv.workFromBits top.bits ≤ tip.chainWork

/-! ### The branch under construction -/

section Footing

variable {env : Env} {params : ChainParams} {offered : BlockHeader → Prop} {w : World}
  {chain path above below : List BlockHeader} {fork header : BlockHeader} {tip row : HeaderRow}

/-- **A row that heads a stored branch** of a live store. -/
structure Footing (params : ChainParams) (offered : BlockHeader → Prop) (w : World)
    (chain path above : List BlockHeader) (fork : BlockHeader) (below : List BlockHeader)
    (tip row : HeaderRow) : Prop where
  live : Live params offered w.db.headers chain
  flagged : chainTip w.db.rows = some tip
  mem : row ∈ w.db.headers.rows
  head : (path ++ fork :: below).head? = some row.toBlockHeader
  branch : Branch w.db.headers chain path above fork below

/-- The line of the row. -/
theorem Footing.line (h : Footing params offered w chain path above fork below tip row) :
    row.toBlockHeader :: (path ++ fork :: below).tail = path ++ fork :: below := by
  have hhead := h.head
  cases path with
  | nil =>
    rw [List.nil_append, List.head?_cons, Option.some_inj] at hhead
    rw [List.nil_append, List.tail_cons, hhead]
  | cons p path =>
    rw [List.cons_append, List.head?_cons, Option.some_inj] at hhead
    rw [List.cons_append, List.tail_cons, hhead]

/-- No checkpoint the tip has passed stands above the header. -/
theorem storedCheckpointAbove_eq_none {rows : List HeaderRow} {height : Nat}
    (h : ∀ c ∈ params.checkpoints, height < c.1 → tip.height < c.1) :
    storedCheckpointAbove rows params height (some tip) = none := by
  rw [storedCheckpointAbove, Option.map_eq_none_iff, List.find?_eq_none]
  intro c hc
  have hmem : c ∈ params.checkpoints := List.mem_reverse.mp ((List.takeWhile_sublist _).subset hc)
  have habove : height < c.1 :=
    of_decide_eq_true (List.mem_takeWhile_imp (p := fun c : Nat × String => decide (height < c.1)) hc)
  have := h c hmem habove
  rw [Bool.and_eq_true, decide_eq_true_eq]
  omega

/-- **One header more on the branch**: the branch with it is the chain where it outworks the
tip, and one longer where it does not. -/
theorem Footing.insert (h : Footing params offered w chain path above fork below tip row)
    (tree : HeaderTree params offered) (hoffered : offered header) (hacc : ∀ n, env.accepts n = true)
    (hfresh : headerForHash w.db.rows header.hash = none)
    (hchild : ChildOf header row.toBlockHeader)
    (habides : Abides params (path ++ fork :: below) header)
    (hcp : ∀ c ∈ params.checkpoints, header.height < c.1 → tip.height < c.1)
    (hreach : tip.chainWork < addWork row.chainWork (params.bsv.workFromBits header.bits) →
      InReach (header :: path) above) :
    ∃ result w' chain' path' above' fork' below' tip' row',
      insertHeader env params header w = (.ok result, w') ∧ result.dupe = false ∧
      result.noPrev = false ∧
      Footing params offered w' chain' path' above' fork' below' tip' row' ∧
      row'.toBlockHeader = header ∧
      row'.chainWork = addWork row.chainWork (params.bsv.workFromBits header.bits) ∧
      path' ++ fork' :: below' = header :: (path ++ fork :: below) ∧
      tip'.chainWork = max tip.chainWork
        (addWork row.chainWork (params.bsv.workFromBits header.bits)) ∧
      (if tip.chainWork < addWork row.chainWork (params.bsv.workFromBits header.bits) then
        tip' = row' ∧ chain' = header :: (path ++ fork :: below) ∧ above' = [] ∧ path' = []
      else tip'.toBlockHeader = tip.toBlockHeader ∧ chain' = chain ∧ above' = above ∧
        path' = header :: path ∧ fork' = fork ∧ below' = below) ∧
      weights w'.db.headers = weights w.db.headers ++
        [(header, addWork row.chainWork (params.bsv.workFromBits header.bits))] := by
  have hline := h.line
  obtain ⟨result, w', hok, hdupe, hnoPrev, hweights, hlive'⟩ := h.live.insertHeader_onto tree
    hoffered hacc hfresh h.flagged h.mem hline h.branch hchild (hline.symm ▸ habides)
    (storedCheckpointAbove_eq_none hcp) hreach
  rw [hline] at hlive'
  generalize addWork row.chainWork (params.bsv.workFromBits header.bits) = work at hweights hlive' ⊢
  obtain ⟨row', hrow', hheader, hwork⟩ : ∃ row' ∈ w'.db.headers.rows,
      row'.toBlockHeader = header ∧ row'.chainWork = work :=
    mem_weights.mp (by rw [hweights]; simp)
  have hkeep : ∀ r ∈ w.db.headers.rows, ∃ r' ∈ w'.db.headers.rows,
      r'.toBlockHeader = r.toBlockHeader ∧ r'.chainWork = r.chainWork := by
    intro r hr
    refine mem_weights.mp ?_
    rw [hweights]
    exact List.mem_append_left _ (mem_weights.mpr ⟨r, hr, rfl, rfl⟩)
  by_cases houtworks : tip.chainWork < work
  · rw [if_pos houtworks] at hlive'
    obtain ⟨tip', htip', htop⟩ := hlive'.exists_chainTip rfl
    obtain rfl : tip' = row' :=
      eq_of_toBlockHeader (chainTip_mem htip') hrow' (htop.trans hheader.symm)
    refine ⟨result, w', header :: (path ++ fork :: below), [], [], header, path ++ fork :: below,
      tip', tip', hok, hdupe, hnoPrev, ⟨hlive', htip', hrow', congrArg some htop.symm, ?_⟩, hheader,
      hwork, rfl, hwork.trans (Nat.max_eq_right (Nat.le_of_lt houtworks)).symm, ?_, hweights⟩
    · exact ⟨rfl, List.isChain_singleton _, nofun, nofun⟩
    · rw [if_pos houtworks]
      exact ⟨rfl, rfl, rfl, rfl⟩
  · rw [if_neg houtworks] at hlive'
    obtain ⟨tip', htip', htop⟩ := hlive'.exists_chainTip (h.live.chainTip_eq h.flagged)
    obtain ⟨r', hr', he', hwork'⟩ := hkeep tip (chainTip_mem h.flagged)
    obtain rfl : tip' = r' := eq_of_toBlockHeader (chainTip_mem htip') hr' (htop.trans he'.symm)
    have hoff : header ∉ chain := by
      intro hmem
      obtain ⟨r, hr, he⟩ := h.live.stored _ hmem
      exact headerForHash_eq_none.mp hfresh r hr (congrArg BlockHeader.hash he)
    have hkept := h.branch.mono w'.db.headers fun r hr => by
      obtain ⟨r', hr', he, -⟩ := hkeep r hr
      exact ⟨r', hr', he⟩
    refine ⟨result, w', chain, header :: path, above, fork, below, tip', row', hok, hdupe, hnoPrev,
      ⟨hlive', htip', hrow', congrArg some hheader.symm, ?_⟩, hheader, hwork, rfl,
      hwork'.trans (Nat.max_eq_left (Nat.not_lt.mp houtworks)).symm, ?_, hweights⟩
    · refine hkept.cons ⟨row', hrow', hheader⟩ hoff fun next hnext => ?_
      rw [head?_of_line hline, Option.some_inj] at hnext
      exact hnext ▸ hchild
    · rw [if_neg houtworks]
      exact ⟨htop, rfl, rfl, rfl, rfl, rfl⟩

/-- A chain read from its foot up. -/
def Climbs (row : BlockHeader) (news : List BlockHeader) : Prop :=
  (row :: news).IsChain fun below above => ChildOf above below

theorem Climbs.lt_of_mem {row : BlockHeader} {news : List BlockHeader} (h : Climbs row news) :
    ∀ p ∈ news, row.height < p.height := by
  induction news generalizing row with
  | nil => exact List.forall_mem_nil _
  | cons q news ih =>
    obtain ⟨hchild, hrest⟩ := List.isChain_cons_cons.mp h
    have hq : q.height = row.height + 1 := hchild.1
    refine List.forall_mem_cons.mpr ⟨by omega, fun p hp => ?_⟩
    have := ih hrest p hp
    omega

/-- A header inserted earlier on the branch does not store a later one. -/
theorem fresh_of_weights {t t' : HeaderTable} {n : Nat} (tree : HeaderTree params offered)
    {p : BlockHeader} (hp : offered p) (hoffered : offered header)
    (hweights : weights t' = weights t ++ [(header, n)]) (hheight : p.height ≠ header.height)
    (hfresh : headerForHash t.rows p.hash = none) : headerForHash t'.rows p.hash = none := by
  refine headerForHash_eq_none.mpr fun r hr hh => ?_
  have hmem : (r.toBlockHeader, r.chainWork) ∈ weights t ++ [(header, n)] :=
    hweights ▸ mem_weights.mpr ⟨r, hr, rfl, rfl⟩
  rcases List.mem_append.mp hmem with hmem | hmem
  · obtain ⟨r₀, hr₀, he, -⟩ := mem_weights.mp hmem
    exact headerForHash_eq_none.mp hfresh r₀ hr₀ ((congrArg BlockHeader.hash he).trans hh)
  · rw [List.mem_singleton, Prod.mk.injEq] at hmem
    have hsame : p = header := tree.unique p header hp hoffered
      (hh.symm.trans (congrArg BlockHeader.hash hmem.1))
    exact hheight (congrArg BlockHeader.height hsame)

/-- `insert_header`, one header of a branch after the other. -/
def fill (env : Env) (params : ChainParams) : List BlockHeader → Writer Unit :=
  Prog.each fun parent => do let _ ← insertHeader env params parent

/-- What the headers of a branch need to be inserted on a row, oldest first. -/
structure Fillable (params : ChainParams) (offered : BlockHeader → Prop) (rows : List HeaderRow)
    (line : List BlockHeader) (row tip : HeaderRow) (news : List BlockHeader) : Prop where
  climbs : Climbs row.toBlockHeader news
  given : ∀ p ∈ news, offered p
  fresh : ∀ p ∈ news, headerForHash rows p.hash = none
  abides : ∀ front p back, news = front ++ p :: back → Abides params (front.reverse ++ line) p
  passed : ∀ c ∈ params.checkpoints, ∀ p ∈ news, p.height < c.1 → tip.height < c.1

/-- After its first header the rest of a branch can be inserted on that. -/
theorem Fillable.tail {line news : List BlockHeader} {w' : World}
    {row' tip' : HeaderRow} {n : Nat}
    (h : Fillable params offered w.db.rows line row tip (header :: news))
    (tree : HeaderTree params offered) (hheader : row'.toBlockHeader = header)
    (htip : tip'.toBlockHeader = header ∨ tip'.toBlockHeader = tip.toBlockHeader)
    (hweights : weights w'.db.headers = weights w.db.headers ++ [(header, n)]) :
    Fillable params offered w'.db.rows (header :: line) row' tip' news := by
  have hclimbs : Climbs header news := (List.isChain_cons_cons.mp h.climbs).2
  refine ⟨hheader ▸ hclimbs, fun p hp => h.given p (List.mem_cons_of_mem _ hp), fun p hp => ?_,
    fun front p back hsplit => ?_, fun c hc p hp hlt => ?_⟩
  · have := hclimbs.lt_of_mem p hp
    exact fresh_of_weights tree (h.given p (List.mem_cons_of_mem _ hp))
      (h.given header List.mem_cons_self) hweights (by omega)
      (h.fresh p (List.mem_cons_of_mem _ hp))
  · have := h.abides (header :: front) p back (by rw [hsplit, List.cons_append])
    rwa [List.reverse_cons, List.append_assoc, List.singleton_append] at this
  · rcases htip with htip | htip
    · have := hclimbs.lt_of_mem p hp
      have : tip'.height = header.height := congrArg BlockHeader.height htip
      omega
    · have hsame : tip'.height = tip.height := congrArg BlockHeader.height htip
      rw [hsame]
      exact h.passed c hc p (List.mem_cons_of_mem _ hp) hlt

/-- **A branch, filled in**: where each header that outworks the tip finds the chain in a
reorg's reach, all go in, and the last heads the branch. -/
theorem Footing.fill_near {news : List BlockHeader}
    (h : Footing params offered w chain path above fork below tip row)
    (tree : HeaderTree params offered) (hacc : ∀ n, env.accepts n = true)
    (hfill : Fillable params offered w.db.rows (path ++ fork :: below) row tip news)
    (hlong : path.length + news.length ≤ reorgHeightThreshold)
    (hreach : above.length ≤ reorgHeightThreshold ∨
      ∀ work ∈ works params row.chainWork news, work ≤ tip.chainWork) :
    ∃ w' chain' path' above' fork' below' tip' row',
      fill env params news w = (.ok (), w') ∧
      Footing params offered w' chain' path' above' fork' below' tip' row' ∧
      row'.chainWork = lastWork params row.chainWork news ∧
      path' ++ fork' :: below' = news.reverse ++ (path ++ fork :: below) ∧
      (∀ x, tip'.chainWork < x ↔ ∀ work ∈ tip.chainWork :: works params row.chainWork news, work < x) ∧
      path'.length ≤ path.length + news.length ∧
      ((∃ work ∈ works params row.chainWork news, tip.chainWork < work) ∧ above' = [] ∨
        above' = above) ∧
      (tip'.toBlockHeader ∈ news ∨ tip'.toBlockHeader = tip.toBlockHeader) ∧
      weights w'.db.headers = weights w.db.headers ++ news.zip (works params row.chainWork news) := by
  induction news generalizing w chain path above fork below tip row with
  | nil =>
    refine ⟨w, chain, path, above, fork, below, tip, row, rfl, h, rfl, rfl, fun x => ?_, by simp,
      .inr rfl, .inr rfl, by simp⟩
    rw [works, List.forall_mem_singleton]
  | cons header news ih =>
    have hchild : ChildOf header row.toBlockHeader := (List.isChain_cons_cons.mp hfill.climbs).1
    obtain ⟨result, w₁, chain₁, path₁, above₁, fork₁, below₁, tip₁, row₁, hok, -, -, hfoot₁, hheader₁,
      hwork₁, hline₁, htip₁, hcase, hweights₁⟩ := h.insert tree (hfill.given header List.mem_cons_self)
        hacc (hfill.fresh header List.mem_cons_self) hchild (hfill.abides [] header news rfl)
        (fun c hc => hfill.passed c hc header List.mem_cons_self) (by
          intro houtworks
          refine ⟨hreach.resolve_right fun hle => ?_, by simp at hlong ⊢; omega⟩
          have := hle _ (by rw [works]; exact List.mem_cons_self)
          omega)
    have htop₁ : tip₁.toBlockHeader = header ∨ tip₁.toBlockHeader = tip.toBlockHeader := by
      split at hcase
      · exact .inl (hcase.1 ▸ hheader₁)
      · exact .inr hcase.1
    have hfill₁ := hfill.tail tree hheader₁ htop₁ hweights₁
    rw [← hline₁] at hfill₁
    have hlong₁ : path₁.length ≤ path.length + 1 := by
      split at hcase
      · rw [hcase.2.2.2, List.length_nil]
        omega
      · rw [hcase.2.2.2.1, List.length_cons]
    have habove₁ : above₁.length ≤ above.length := by
      split at hcase
      · rw [hcase.2.2.1, List.length_nil]
        omega
      · rw [hcase.2.2.1]
    rw [List.length_cons] at hlong
    rw [works, ← hwork₁] at hreach
    obtain ⟨w', chain', path', above', fork', below', tip', row', hok', hfoot', hwork', hline', htip',
      hlength', habove', htop', hweights'⟩ := ih hfoot₁ hfill₁ (by omega) (by
        refine hreach.imp (fun hle => habove₁.trans hle) fun hle work hwork => ?_
        have := hle work (List.mem_cons_of_mem _ hwork)
        omega)
    have hworks : works params row.chainWork (header :: news) =
        row₁.chainWork :: works params row₁.chainWork news := by rw [works, hwork₁]
    refine ⟨w', chain', path', above', fork', below', tip', row', ?_, hfoot', ?_, ?_, fun x => ?_, ?_,
      ?_, ?_, ?_⟩
    · have hone : (do let _ ← insertHeader env params header : Writer Unit) w = (.ok (), w₁) :=
        Prog.bind_ok hok
      rw [fill, Prog.each_cons]
      exact (Prog.bind_ok hone).trans hok'
    · rw [hwork', lastWork, lastWork, hworks, List.getLast?_cons, Option.getD_some]
    · rw [hline', hline₁, List.reverse_cons, List.append_assoc, List.singleton_append]
    · rw [htip', hworks, List.forall_mem_cons, List.forall_mem_cons, List.forall_mem_cons, htip₁,
        ← hwork₁, Nat.max_lt, and_assoc]
    · rw [List.length_cons]
      omega
    · rw [hworks]
      rcases habove' with ⟨⟨work, hwork, hlt⟩, hnil⟩ | hsame
      · refine .inl ⟨⟨work, List.mem_cons_of_mem _ hwork, ?_⟩, hnil⟩
        omega
      · split at hcase
        · rename_i hlt
          exact .inl ⟨⟨_, List.mem_cons_self, hwork₁ ▸ hlt⟩, hsame.trans hcase.2.2.1⟩
        · exact .inr (hsame.trans hcase.2.2.1)
    · rcases htop' with htop' | htop'
      · exact .inl (List.mem_cons_of_mem _ htop')
      · refine htop₁.imp (fun he => ?_) htop'.trans
        rw [htop', he]
        exact List.mem_cons_self
    · rw [hweights', hweights₁, hworks, List.zip_cons_cons, List.append_assoc, List.singleton_append,
        hwork₁]

/-- Out of a reorg's reach the first header that outworks the tip ends the filling. -/
theorem Footing.fill_far {news : List BlockHeader}
    (h : Footing params offered w chain path above fork below tip row)
    (tree : HeaderTree params offered) (hacc : ∀ n, env.accepts n = true)
    (hfill : Fillable params offered w.db.rows (path ++ fork :: below) row tip news)
    (hfar : reorgHeightThreshold < above.length)
    (hsome : ∃ work ∈ works params row.chainWork news, tip.chainWork < work) :
    ¬Prog.Answers (fill env params news) w := by
  induction news generalizing w chain path above fork below tip row with
  | nil =>
    obtain ⟨work, hwork, -⟩ := hsome
    cases hwork
  | cons header news ih =>
    have hchild : ChildOf header row.toBlockHeader := (List.isChain_cons_cons.mp hfill.climbs).1
    have hcp : ∀ c ∈ params.checkpoints, header.height < c.1 → tip.height < c.1 :=
      fun c hc => hfill.passed c hc header List.mem_cons_self
    have habides : Abides params (path ++ fork :: below) header := hfill.abides [] header news rfl
    rintro ⟨u, w', hok⟩
    rw [fill, Prog.each_cons] at hok
    obtain ⟨v, s, hone, hrest⟩ := Prog.bind_eq_ok hok
    by_cases houtworks : tip.chainWork < addWork row.chainWork (params.bsv.workFromBits header.bits)
    · have hline := h.line
      refine h.live.insertHeader_far tree (hfill.given header List.mem_cons_self) hacc
        (hfill.fresh header List.mem_cons_self) h.flagged h.mem hline h.branch hchild
        (hline.symm ▸ habides) (storedCheckpointAbove_eq_none hcp) hfar houtworks ?_
      obtain ⟨result, s', hinsert, -⟩ := Prog.bind_eq_ok hone
      exact ⟨result, s', hinsert⟩
    · obtain ⟨result, w₁, chain₁, path₁, above₁, fork₁, below₁, tip₁, row₁, hok₁, -, -, hfoot₁,
        hheader₁, hwork₁, hline₁, htip₁, hcase, hweights₁⟩ := h.insert tree
          (hfill.given header List.mem_cons_self) hacc (hfill.fresh header List.mem_cons_self) hchild
          habides hcp fun hlt => absurd hlt houtworks
      rw [if_neg houtworks] at hcase
      have hfill₁ := hfill.tail tree hheader₁ (.inr hcase.1) hweights₁
      rw [← hline₁] at hfill₁
      have hs : s = w₁ := by
        have hrun : (do let _ ← insertHeader env params header : Writer Unit) w = (.ok (), w₁) :=
          Prog.bind_ok hok₁
        exact congrArg Prod.snd (hone.symm.trans hrun)
      refine ih hfoot₁ hfill₁ (hcase.2.2.1 ▸ hfar) ?_ ⟨u, w', hs ▸ hrest⟩
      obtain ⟨work, hwork, hlt⟩ := hsome
      rw [Nat.max_eq_left (Nat.not_lt.mp houtworks)] at htip₁
      rw [works, ← hwork₁] at hwork
      rcases List.mem_cons.mp hwork with rfl | hwork
      · rw [hwork₁] at hlt
        exact absurd hlt houtworks
      · exact ⟨work, hwork, htip₁ ▸ hlt⟩

end Footing

/-! ### The walk's branch, and the top relinked -/

section Resume

variable {env : Env} {params : ChainParams} {offered : BlockHeader → Prop} {w : World}
  {chain path above below news : List BlockHeader} {fork top : BlockHeader}
  {tip row stored : HeaderRow}

/-- What `insert_with_parent_backfill` does with the headers its walk fetched. -/
def resume (env : Env) (params : ChainParams) (top : BlockHeader) (news : List BlockHeader) :
    Writer InsertHeaderResult := do
  fill env params news
  relinkOrphanAndReevaluate env params top.hash

theorem lastWork_concat (base : Nat) (headers : List BlockHeader) (header : BlockHeader) :
    lastWork params base (headers ++ [header]) =
      addWork (lastWork params base headers) (params.bsv.workFromBits header.bits) := by
  induction headers generalizing base with
  | nil => rfl
  | cons h hs ih =>
    have hcons : ∀ line : List BlockHeader, lastWork params base (h :: line) =
        lastWork params (addWork base (params.bsv.workFromBits h.bits)) line := by
      intro line
      rw [lastWork, works, List.getLast?_cons, Option.getD_some]
      rfl
    rw [List.cons_append, hcons, hcons, ih]

section Setting

variable (h : Footing params offered w chain path above fork below tip row)
  (tree : HeaderTree params offered) (hacc : ∀ n, env.accepts n = true)
  (hfill : Fillable params offered w.db.rows (path ++ fork :: below) row tip news)
  (hlong : path.length + news.length < reorgHeightThreshold)
  (hstored : stored ∈ w.db.headers.rows) (hoff : stored.toBlockHeader ∉ chain)
  (hlinked : (stored.toBlockHeader :: (news.reverse ++ (path ++ fork :: below))).IsChain ChildOf)
  (habides : Abides params (news.reverse ++ (path ++ fork :: below)) stored.toBlockHeader)

include h tree hacc hfill hlong hstored hoff hlinked habides

omit habides in
/-- The branch filled in, its top's row stands on the last header's, off the chain. -/
theorem Footing.filled
    (hreach : above.length ≤ reorgHeightThreshold ∨
      ∀ work ∈ works params row.chainWork news, work ≤ tip.chainWork) :
    ∃ w₁ chain₁ path₁ above₁ fork₁ below₁ tip₁ row₁ stored₁,
      fill env params news w = (.ok (), w₁) ∧
      Footing params offered w₁ chain₁ path₁ above₁ fork₁ below₁ tip₁ row₁ ∧
      stored₁ ∈ w₁.db.headers.rows ∧ stored₁.toBlockHeader = stored.toBlockHeader ∧
      stored₁.toBlockHeader ∉ chain₁ ∧ ChildOf stored₁.toBlockHeader row₁.toBlockHeader ∧
      path₁ ++ fork₁ :: below₁ = news.reverse ++ (path ++ fork :: below) ∧
      addWork row₁.chainWork (params.bsv.workFromBits stored₁.bits) =
        lastWork params row.chainWork (news ++ [stored.toBlockHeader]) ∧
      (∀ x, tip₁.chainWork < x ↔ ∀ work ∈ tip.chainWork :: works params row.chainWork news, work < x) ∧
      path₁.length < reorgHeightThreshold ∧
      ((∃ work ∈ works params row.chainWork news, tip.chainWork < work) ∧ above₁ = [] ∨
        above₁ = above) := by
  obtain ⟨w₁, chain₁, path₁, above₁, fork₁, below₁, tip₁, row₁, hok₁, hfoot₁, hwork₁, hline₁, htip₁,
    hlength₁, habove₁, -, hweights₁⟩ := h.fill_near tree hacc hfill (Nat.le_of_lt hlong) hreach
  obtain ⟨stored₁, hstored₁, hsame, -⟩ : ∃ r ∈ w₁.db.headers.rows,
      r.toBlockHeader = stored.toBlockHeader ∧ r.chainWork = stored.chainWork := by
    refine mem_weights.mp ?_
    rw [hweights₁]
    exact List.mem_append_left _ (mem_weights.mpr ⟨stored, hstored, rfl, rfl⟩)
  have hbits : stored₁.bits = stored.bits := congrArg BlockHeader.bits hsame
  have hbelow : ∀ x ∈ news.reverse ++ (path ++ fork :: below), x ≠ stored.toBlockHeader := by
    intro x hx he
    have := chain_height_below (show ([] ++ stored.toBlockHeader ::
      (news.reverse ++ (path ++ fork :: below))).IsChain ChildOf from hlinked) x hx
    rw [he] at this
    exact Nat.lt_irrefl _ this
  refine ⟨w₁, chain₁, path₁, above₁, fork₁, below₁, tip₁, row₁, stored₁, hok₁, hfoot₁, hstored₁, hsame,
    ?_, ?_, hline₁, ?_, htip₁, by omega, habove₁⟩
  · rw [hsame, hfoot₁.branch.chain_eq]
    intro hmem
    rcases List.mem_append.mp hmem with hmem | hmem
    · rcases habove₁ with ⟨-, hnil⟩ | hkept
      · rw [hnil] at hmem
        cases hmem
      · exact hoff (by rw [h.branch.chain_eq]; exact List.mem_append_left _ (hkept ▸ hmem))
    · exact hbelow _ (hline₁ ▸ List.mem_append_right _ hmem) rfl
  · refine hsame ▸ (List.isChain_cons.mp hlinked).1 _ ?_
    rw [← hline₁, hfoot₁.head]
    rfl
  · rw [lastWork_concat, hwork₁, hbits]

/-- **A branch in reach, resumed**: its top is the tip and the branch the chain where the
top is the heaviest, and off the chain where it is not. -/
theorem Footing.resume_near
    (hreach : above.length ≤ reorgHeightThreshold ∨
      ∀ work ∈ works params row.chainWork news, work ≤ tip.chainWork)
    (hnear : (∀ work ∈ tip.chainWork :: works params row.chainWork news,
      work < lastWork params row.chainWork (news ++ [stored.toBlockHeader])) →
        above.length ≤ reorgHeightThreshold) :
    ∃ result w', resume env params stored.toBlockHeader news w = (.ok result, w') ∧
      ((∀ work ∈ tip.chainWork :: works params row.chainWork news,
          work < lastWork params row.chainWork (news ++ [stored.toBlockHeader])) ∧
        Live params offered w'.db.headers
          (stored.toBlockHeader :: (news.reverse ++ (path ++ fork :: below))) ∨
      (¬∀ work ∈ tip.chainWork :: works params row.chainWork news,
          work < lastWork params row.chainWork (news ++ [stored.toBlockHeader])) ∧
        ∃ chain', Live params offered w'.db.headers chain' ∧ stored.toBlockHeader ∉ chain') := by
  obtain ⟨w₁, chain₁, path₁, above₁, fork₁, below₁, tip₁, row₁, stored₁, hok₁, hfoot₁, hstored₁, hsame,
    hoff₁, hchild, hline₁, hlast, htip₁, hlength₁, habove₁⟩ := Footing.filled h tree hacc hfill hlong
      hstored hoff hlinked hreach
  have hreach₁ : tip₁.chainWork < addWork row₁.chainWork (params.bsv.workFromBits stored₁.bits) →
      InReach (stored₁.toBlockHeader :: path₁) above₁ := by
    intro hlt
    rw [hlast, htip₁] at hlt
    refine ⟨?_, hlength₁⟩
    rcases habove₁ with ⟨-, hnil⟩ | hkept
    · rw [hnil]
      exact Nat.zero_le _
    · exact hkept ▸ hnear hlt
  have hline := hfoot₁.line
  obtain ⟨result, w', hok, hlive'⟩ := hfoot₁.live.relink_onto tree hacc hfoot₁.flagged
    hstored₁ hoff₁ hfoot₁.mem hline hfoot₁.branch hchild
    (by rw [hline, hline₁, hsame]; exact habides) hreach₁
  refine ⟨result, w', ?_, ?_⟩
  · rw [resume, ← hsame]
    exact (Prog.bind_ok hok₁).trans hok
  · rw [hlast, hline, hline₁, hsame] at hlive'
    rw [hsame] at hoff₁
    by_cases hheavy : tip₁.chainWork < lastWork params row.chainWork (news ++ [stored.toBlockHeader])
    · rw [if_pos hheavy] at hlive'
      exact .inl ⟨(htip₁ _).mp hheavy, hlive'⟩
    · rw [if_neg hheavy] at hlive'
      exact .inr ⟨fun hall => hheavy ((htip₁ _).mpr hall), chain₁, hlive', hoff₁⟩

/-- Out of a reorg's reach a branch with the heaviest top ends the call. -/
theorem Footing.resume_far (hfar : reorgHeightThreshold < above.length)
    (hheavy : ∀ work ∈ tip.chainWork :: works params row.chainWork news,
      work < lastWork params row.chainWork (news ++ [stored.toBlockHeader])) :
    ¬Prog.Answers (resume env params stored.toBlockHeader news) w := by
  rintro ⟨result, w', hok⟩
  obtain ⟨u, s, hfilled, hrelink⟩ := Prog.bind_eq_ok hok
  by_cases hsome : ∃ work ∈ works params row.chainWork news, tip.chainWork < work
  · exact h.fill_far tree hacc hfill hfar hsome ⟨u, s, hfilled⟩
  · have hreach : ∀ work ∈ works params row.chainWork news, work ≤ tip.chainWork :=
      fun work hwork => Nat.not_lt.mp fun hlt => hsome ⟨work, hwork, hlt⟩
    obtain ⟨w₁, chain₁, path₁, above₁, fork₁, below₁, tip₁, row₁, stored₁, hok₁, hfoot₁, hstored₁, hsame,
      hoff₁, hchild, hline₁, hlast, htip₁, hlength₁, habove₁⟩ := Footing.filled h tree hacc hfill hlong
        hstored hoff hlinked (.inr hreach)
    obtain rfl : above₁ = above := habove₁.resolve_left fun hcase => hsome hcase.1
    have hline := hfoot₁.line
    refine hfoot₁.live.relink_far tree hacc hfoot₁.flagged hstored₁ hoff₁ hfoot₁.mem hline
      hfoot₁.branch hchild (by rw [hline, hline₁, hsame]; exact habides) hfar
      (by rw [hlast]; exact (htip₁ _).mpr hheavy) ?_
    have hs : s = w₁ := congrArg Prod.snd (hfilled.symm.trans hok₁)
    have hhash : stored₁.hash = stored.hash := congrArg BlockHeader.hash hsame
    rw [hhash]
    exact ⟨result, w', hs ▸ hrelink⟩

end Setting

/-- A step of the live path stores only what it was offered. -/
theorem LiveMove.stores {offered' : BlockHeader → Prop} {txn : List Stmt}
    (hmove : LiveMove params offered' w txn) {r : HeaderRow}
    (hr : r ∈ (onHeadersAll txn w.db.headers).rows) :
    (∃ r₀ ∈ w.db.rows, r.toBlockHeader = r₀.toBlockHeader) ∨ offered' r.toBlockHeader := by
  rcases mem_onHeadersAll hr with ⟨r₀, hr₀, he, -⟩ | ⟨prev, act, work, hins⟩
  · exact .inl ⟨r₀, hr₀, he⟩
  · have hmoves : ∀ hash : String, Stmt.insertHeader prev r.toBlockHeader act work ∉
        moveTipTxn hash := by simp [moveTipTxn]
    cases hmove with
    | insertion header a given =>
      unfold Admission.txn at hins
      split at hins
      · rcases List.mem_cons.mp hins with hins | hins
        · cases hins
          exact .inr given
        · exact absurd hins (hmoves header.hash)
      · cases List.mem_singleton.mp hins
        exact .inr given
    | reorg new row tip plan =>
      simp [ReorgPlan.txn] at hins
    | moveTip => exact absurd hins (hmoves _)
    | relink => simp at hins

theorem steps_store {offered' : BlockHeader → Prop} {w' : World}
    (h : Relation.ReflTransGen (Step params (LiveMove params offered')) w w') {r : HeaderRow}
    (hr : r ∈ w'.db.rows) :
    (∃ r₀ ∈ w.db.rows, r.toBlockHeader = r₀.toBlockHeader) ∨ offered' r.toBlockHeader := by
  induction h generalizing r with
  | refl => exact .inl ⟨r, hr, rfl⟩
  | tail _ hstep ih =>
    cases hstep with
    | asked => exact ih hr
    | noted => exact ih hr
    | committed now txn move =>
      rw [Store.rows, execAll_headers] at hr
      rcases move.stores hr with ⟨r₀, hr₀, he⟩ | hoffered
      · rw [he]
        exact ih hr₀
      · exact .inr hoffered

/-- What a branch resumed stores is of the branch. -/
theorem resume_stores {result : InsertHeaderResult} {w' : World}
    (hok : resume env params top news w = (.ok result, w')) {r : HeaderRow} (hr : r ∈ w'.db.rows) :
    (∃ r₀ ∈ w.db.rows, r.toBlockHeader = r₀.toBlockHeader) ∨ r.toBlockHeader ∈ news := by
  have hvia : Prog.Via (Step params (LiveMove params (· ∈ news))) (resume env params top news) w := by
    unfold resume
    refine Prog.Via.bind (Prog.Via.each (fun p hp s => ?_) w) fun _ s _ => via_relink env params _ s
    exact Prog.Via.bind (via_insertHeader env params hp s) fun _ _ _ => Prog.Via.pure _
  rw [Prog.Via, hok] at hvia
  exact steps_store hvia hr

end Resume

/-! ### The walk -/

section Walk

variable {env : Env} {params : ChainParams} {offered : BlockHeader → Prop} {w : World}
  {chain above below rest : List BlockHeader} {fork top : BlockHeader} {tip : HeaderRow}

/-- **The walk fetches the headers down to the first stored one.** -/
theorem backfillWalk_eq {mid : List BlockHeader} {stop : BlockHeader} {fuel : Nat} {want : String}
    (hwant : ∀ x, (mid ++ [stop]).head? = some x → want = x.hash)
    (hlinked : (mid ++ [stop]).IsChain ChildOf)
    (hunstored : ∀ p ∈ mid, headerForHash w.db.rows p.hash = none)
    (hserved : ∀ n, ∀ p ∈ mid, env.headerByHash n p.hash = .ok p)
    (hrooted : ∀ p ∈ mid, p.hash ≠ zeroHash)
    (hstop : (headerForHash w.db.rows stop.hash).isSome = true) (hfuel : mid.length ≤ fuel) :
    ∃ w', backfillWalk env fuel want w = (.ok mid, w') ∧ w'.db = w.db := by
  induction mid generalizing want fuel w with
  | nil =>
    cases fuel with
    | zero => exact ⟨w, rfl, rfl⟩
    | succ fuel =>
      have hstored : want = zeroHash ∨ (headerForHash w.db.rows want).isSome = true := by
        rw [hwant stop rfl]
        exact .inr hstop
      rw [backfillWalk, readRows, Prog.read_bind_apply, if_pos hstored]
      exact ⟨w, rfl, rfl⟩
  | cons p mid ih =>
    cases fuel with
    | zero => cases hfuel
    | succ fuel =>
      have hp : want = p.hash := hwant p rfl
      have hgo : ¬(want = zeroHash ∨ (headerForHash w.db.rows want).isSome = true) := by
        rw [hp, hunstored p List.mem_cons_self]
        exact fun h => h.elim (hrooted p List.mem_cons_self) Bool.false_ne_true
      have hask : askCourier (fun n => env.headerByHash n want) w =
          (.ok p, { w with asked := w.asked + 1 }) := by
        rw [askCourier, hp, hserved _ p List.mem_cons_self]
        rfl
      obtain ⟨hchild, hlinked'⟩ := List.isChain_cons.mp hlinked
      obtain ⟨w', hok, hdb⟩ := ih (w := { w with asked := w.asked + 1 })
        (show ∀ x, (mid ++ [stop]).head? = some x → p.previousHash = x.hash from
          fun x hx => (hchild x hx).2) hlinked' (fun q hq => hunstored q (List.mem_cons_of_mem _ hq))
        (fun n q hq => hserved n q (List.mem_cons_of_mem _ hq))
        (fun q hq => hrooted q (List.mem_cons_of_mem _ hq)) hstop (Nat.le_of_succ_le_succ hfuel)
      refine ⟨w', ?_, hdb⟩
      rw [backfillWalk, readRows, Prog.read_bind_apply, if_neg hgo]
      exact (Prog.bind_ok hask).trans (Prog.bind_ok hok)

/-- Below its top every header of a chain has one above it. -/
theorem exists_child {line : List BlockHeader} (hl : (top :: line).IsChain ChildOf) {p : BlockHeader}
    (hp : p ∈ line) : ∃ c ∈ top :: line, ChildOf c p := by
  obtain ⟨front, back, rfl⟩ := List.append_of_mem hp
  rw [← List.cons_append] at hl
  obtain ⟨-, -, hbound⟩ := List.isChain_append.mp hl
  have hlast := List.getLast?_eq_some_getLast (List.cons_ne_nil top front)
  exact ⟨_, List.mem_append_left _ (List.getLast_mem (List.cons_ne_nil top front)),
    hbound _ hlast p rfl⟩

/-- **The branch the call completes**: with its top offered, every header served, and a
database that takes what it is handed. -/
structure Completing (env : Env) (params : ChainParams) (offered : BlockHeader → Prop) (w : World)
    (chain : List BlockHeader) (top : BlockHeader) (rest above : List BlockHeader)
    (fork : BlockHeader) (below : List BlockHeader) (tip : HeaderRow) : Prop where
  tree : HeaderTree params offered
  live : Live params offered w.db.headers chain
  flagged : chainTip w.db.rows = some tip
  rival : Rival params offered chain (top :: rest) above fork below
  takes : ∀ n, env.accepts n = true
  serves : ∀ n, ∀ p ∈ top :: rest, env.headerByHash n p.hash = .ok p

/-- **The branch taken**: the call answers, the top is the flagged tip, and every header of
the branch is active. -/
def TakesBranch (env : Env) (params : ChainParams) (w : World) (top : BlockHeader)
    (rest : List BlockHeader) : Prop :=
  ∃ result w', insertWithParentBackfill env params top w = (.ok result, w') ∧
    (∃ tip, chainTip w'.db.rows = some tip ∧ tip.toBlockHeader = top) ∧
    ∀ p ∈ top :: rest, ∃ row ∈ w'.db.rows, row.toBlockHeader = p ∧ row.isActive = true

section Setting

variable (h : Completing env params offered w chain top rest above fork below tip)

include h

theorem Completing.abides {front back : List BlockHeader} {p : BlockHeader}
    (hsplit : top :: rest = front ++ p :: back) : Abides params (back ++ fork :: below) p :=
  h.rival.abides front p back hsplit

/-- The branch and what it stands on is one chain. -/
theorem Completing.linked : (top :: (rest ++ fork :: below)).IsChain ChildOf := by
  have hchain := h.live.linked
  rw [h.rival.chain_eq] at hchain
  have hrest : (top :: rest) ++ fork :: below = top :: (rest ++ fork :: below) := rfl
  have hbranch : ((top :: rest) ++ [fork]).IsChain ChildOf := h.rival.linked
  rw [← hrest, List.append_cons]
  exact hbranch.append_overlap (List.isChain_append.mp hchain).2.1 (List.cons_ne_nil _ _)

theorem Completing.hash_ne_zero {p : BlockHeader} (hp : p ∈ rest) : p.hash ≠ zeroHash := by
  obtain ⟨c, hc, hchild⟩ := exists_child
    (List.isChain_append.mp (show ((top :: rest) ++ fork :: below).IsChain ChildOf from h.linked)).1 hp
  obtain ⟨front, back, hsplit⟩ := List.append_of_mem hc
  exact hchild.2 ▸ (h.abides hsplit).rooted

/-- Where the walk stops: at the first stored header under the top. -/
theorem Completing.stop_stored : (headerForHash w.db.rows
    ((rest.dropWhile (unstored w.db.rows)).headD fork).hash).isSome = true := by
  cases hdrop : rest.dropWhile (unstored w.db.rows) with
  | nil =>
    obtain ⟨row, hrow, hfork⟩ := h.live.stored fork (by rw [h.rival.chain_eq]; simp)
    rw [List.headD_nil, ← congrArg BlockHeader.hash hfork]
    exact Option.isSome_iff_exists.mpr ⟨row, headerForHash_eq_some w.db.headers.uniqueHash hrow⟩
  | cons p left =>
    have hp := List.head_dropWhile_not (unstored w.db.rows) (l := rest)
      (by rw [hdrop]; exact List.cons_ne_nil _ _)
    simp only [hdrop, List.head_cons] at hp
    rw [List.headD_cons, ← Option.not_isNone, Bool.not_eq_true']
    exact hp

/-- The walk, in any store that holds no more of the branch. -/
theorem Completing.walk {w₁ : World}
    (hsame : ∀ p ∈ rest, (headerForHash w₁.db.rows p.hash).isSome =
      (headerForHash w.db.rows p.hash).isSome)
    (hfork : (headerForHash w₁.db.rows fork.hash).isSome = true) :
    ∃ w₂, backfillWalk env backfillLimit top.previousHash w₁ =
      (.ok (rest.takeWhile (unstored w.db.rows)), w₂) ∧ w₂.db = w₁.db := by
  have hsplit := List.takeWhile_append_dropWhile (p := unstored w.db.rows) (l := rest)
  have hmid : ∀ p ∈ rest.takeWhile (unstored w.db.rows), p ∈ rest := fun p hp =>
    (List.takeWhile_sublist _).subset hp
  have hlength : (rest.takeWhile (unstored w.db.rows)).length ≤ rest.length :=
    (List.takeWhile_sublist _).length_le
  have hshort := h.rival.short
  rw [List.length_cons] at hshort
  have hline : (top :: ((rest.takeWhile (unstored w.db.rows)) ++
      [(rest.dropWhile (unstored w.db.rows)).headD fork])).IsChain ChildOf := by
    have hlinked : ((top :: rest) ++ [fork]).IsChain ChildOf := h.rival.linked
    rw [← hsplit] at hlinked
    cases hdrop : rest.dropWhile (unstored w.db.rows) with
    | nil =>
      rw [hdrop, List.append_nil] at hlinked
      exact hlinked
    | cons p left =>
      rw [hdrop] at hlinked
      refine hlinked.prefix ⟨left ++ [fork], ?_⟩
      simp
  refine backfillWalk_eq (fun x hx => ((List.isChain_cons.mp hline).1 x hx).2)
    (List.isChain_cons.mp hline).2 (fun p hp => ?_)
    (fun n p hp => h.serves n p (List.mem_cons_of_mem _ (hmid p hp)))
    (fun p hp => h.hash_ne_zero (hmid p hp)) ?_ (by omega)
  · have hunstored : unstored w.db.rows p = true := List.mem_takeWhile_imp hp
    rw [← Option.not_isSome_iff_eq_none, hsame p (hmid p hp), Option.not_isSome_iff_eq_none]
    exact Option.isNone_iff_eq_none.mp hunstored
  · have hstop := h.stop_stored
    cases hdrop : rest.dropWhile (unstored w.db.rows) with
    | nil => exact hfork
    | cons p left =>
      rw [hdrop] at hstop
      rw [List.headD_cons, hsame p ((List.dropWhile_sublist _).subset (hdrop ▸ List.mem_cons_self))]
      exact hstop

theorem Completing.top_off : top ∉ chain := h.rival.apart top List.mem_cons_self

theorem Completing.fork_lt {p : BlockHeader} (hp : p ∈ top :: rest) : fork.height < p.height :=
  chain_height_above (show ((top :: rest) ++ fork :: []).IsChain ChildOf from h.rival.linked) p hp

theorem Completing.lt_top {p : BlockHeader} (hp : p ∈ rest) : p.height < top.height :=
  chain_height_below (show ([] ++ top :: (rest ++ fork :: below)).IsChain ChildOf from h.linked) p
    (List.mem_append_left _ hp)

theorem Completing.height_pos : 0 < top.height := by
  have := h.fork_lt List.mem_cons_self
  omega

/-- No checkpoint above a header of the branch has been passed. -/
theorem Completing.passed {p : BlockHeader} (hp : p ∈ top :: rest) :
    ∀ c ∈ params.checkpoints, p.height < c.1 → tip.height < c.1 := by
  intro c hc hlt
  have := h.fork_lt hp
  exact h.rival.passed c hc (by omega) tip.toBlockHeader (h.live.chainTip_eq h.flagged)

/-- The chain above the branch, by the tip's height. -/
theorem Completing.tip_height : tip.height = fork.height + above.length := by
  have htop := h.live.chainTip_eq h.flagged
  have hlinked := h.live.linked
  rw [h.rival.chain_eq] at htop hlinked
  exact chain_head_height hlinked htop

/-- A store with the top inserted holds no more of the rest of the branch. -/
theorem Completing.stored_same {w₁ : World}
    (hkeep : ∀ r ∈ w.db.rows, ∃ r' ∈ w₁.db.rows, r'.toBlockHeader = r.toBlockHeader)
    (hback : ∀ r ∈ w₁.db.rows, (∃ r₀ ∈ w.db.rows, r.toBlockHeader = r₀.toBlockHeader) ∨
      r.toBlockHeader = top) {p : BlockHeader} (hp : p ∈ rest) :
    (headerForHash w₁.db.rows p.hash).isSome = (headerForHash w.db.rows p.hash).isSome := by
  rw [Bool.eq_iff_iff, Option.isSome_iff_exists, Option.isSome_iff_exists]
  constructor
  · rintro ⟨r, hr⟩
    rcases hback r (headerForHash_mem hr) with ⟨r₀, hr₀, he⟩ | he
    · have hhash : p.hash = r₀.hash :=
        (headerForHash_hash hr).symm.trans (congrArg BlockHeader.hash he)
      exact ⟨r₀, hhash ▸ headerForHash_eq_some w.db.headers.uniqueHash hr₀⟩
    · have hsame : p = top := h.tree.unique p top (h.rival.given p (List.mem_cons_of_mem _ hp))
        (h.rival.given top List.mem_cons_self)
        ((headerForHash_hash hr).symm.trans (congrArg BlockHeader.hash he))
      have := h.lt_top hp
      rw [hsame] at this
      exact absurd this (Nat.lt_irrefl _)
  · rintro ⟨r, hr⟩
    obtain ⟨r', hr', he⟩ := hkeep r (headerForHash_mem hr)
    have hhash : p.hash = r'.hash :=
      (headerForHash_hash hr).symm.trans (congrArg BlockHeader.hash he).symm
    exact ⟨r', hhash ▸ headerForHash_eq_some w₁.db.headers.uniqueHash hr'⟩

theorem Completing.fork_stored {w₁ : World}
    (hkeep : ∀ r ∈ w.db.rows, ∃ r' ∈ w₁.db.rows, r'.toBlockHeader = r.toBlockHeader) :
    (headerForHash w₁.db.rows fork.hash).isSome = true := by
  obtain ⟨row, hrow, hfork⟩ := h.live.stored fork (by rw [h.rival.chain_eq]; simp)
  obtain ⟨r', hr', he⟩ := hkeep row hrow
  rw [← hfork, ← congrArg BlockHeader.hash he]
  exact Option.isSome_iff_exists.mpr ⟨r', headerForHash_eq_some w₁.db.headers.uniqueHash hr'⟩

/-- **What the call stores** is the top and what its walk fetches. -/
theorem Completing.stores {result : InsertHeaderResult} {w' : World}
    (hok : insertWithParentBackfill env params top w = (.ok result, w')) {r : HeaderRow}
    (hr : r ∈ w'.db.rows) :
    (∃ r₀ ∈ w.db.rows, r.toBlockHeader = r₀.toBlockHeader) ∨ r.toBlockHeader = top ∨
      r.toBlockHeader ∈ rest.takeWhile (unstored w.db.rows) := by
  obtain ⟨result₁, w₁, hinsert, hrest⟩ := Prog.bind_eq_ok hok
  have hself : (fun header : BlockHeader => header = top) top := rfl
  have hvia := via_insertHeader env params hself w
  rw [Prog.Via, hinsert] at hvia
  have hback : ∀ r ∈ w₁.db.rows, (∃ r₀ ∈ w.db.rows, r.toBlockHeader = r₀.toBlockHeader) ∨
      r.toBlockHeader = top := fun r hr => (steps_store hvia hr).imp_right Eq.symm
  have hkeep : ∀ r ∈ w.db.rows, ∃ r' ∈ w₁.db.rows, r'.toBlockHeader = r.toBlockHeader :=
    fun r hr => steps_keep hvia hr
  rw [readRows, Prog.read_bind_apply] at hrest
  split at hrest
  · cases hrest
    exact (hback r hr).imp_right .inl
  · obtain ⟨w₂, hwalk, hdb⟩ := h.walk (fun p hp => h.stored_same hkeep hback hp)
      (h.fork_stored hkeep)
    rw [Prog.bind_ok hwalk] at hrest
    rcases resume_stores hrest hr with ⟨r₀, hr₀, he⟩ | hmem
    · rw [he]
      exact (hback r₀ (hdb ▸ hr₀)).imp_right .inl
    · exact .inr (.inr (List.mem_reverse.mp hmem))

/-- Where the branch is taken, what the walk did not fetch was stored. -/
theorem Completing.unbroken (htaken : TakesBranch env params w top rest) :
    ∀ p ∈ rest.dropWhile (unstored w.db.rows), unstored w.db.rows p = false := by
  intro p hp
  obtain ⟨result, w', hok, -, hactive⟩ := htaken
  have hprest : p ∈ rest := (List.dropWhile_sublist _).subset hp
  obtain ⟨r, hr, he, -⟩ := hactive p (List.mem_cons_of_mem _ hprest)
  rw [unstored, ← Option.not_isSome, Bool.not_eq_false', Option.isSome_iff_exists]
  rcases h.stores hok hr with ⟨r₀, hr₀, he₀⟩ | htop | hmid
  · rw [← he, he₀]
    exact ⟨r₀, headerForHash_eq_some w.db.headers.uniqueHash hr₀⟩
  · have := h.lt_top hprest
    rw [← he, htop] at this
    exact absurd this (Nat.lt_irrefl _)
  · have hnodup := chain_nodup h.linked
    rw [← List.takeWhile_append_dropWhile (p := unstored w.db.rows) (l := rest), List.append_assoc,
      List.nodup_cons] at hnodup
    exact absurd (List.mem_append_left _ hp)
      (List.disjoint_of_nodup_append hnodup.2 (he ▸ hmid))

/-- A top stored before the call is a duplicate, off the chain. -/
theorem Completing.resumed_of_stored (hstored : unstored w.db.rows top = false) :
    ∃ w₂, insertWithParentBackfill env params top w =
      resume env params top (rest.takeWhile (unstored w.db.rows)).reverse w₂ ∧ w₂.db = w.db := by
  rw [unstored, ← Option.not_isSome, Bool.not_eq_false'] at hstored
  obtain ⟨r, hr⟩ := Option.isSome_iff_exists.mp hstored
  have hrtop : r.toBlockHeader = top := h.tree.unique _ _ (h.live.given r (headerForHash_mem hr))
    (h.rival.given top List.mem_cons_self) (headerForHash_hash hr)
  have hinactive : r.isActive = false := by
    rw [← Bool.not_eq_true, h.live.active r (headerForHash_mem hr), hrtop]
    exact h.top_off
  have hok : refusing top (checkPow params top) = .ok () :=
    Except.mapError_eq_ok.mpr (h.abides (show top :: rest = [] ++ top :: rest from rfl)).pow
  have hdupe : insertHeader env params top w = (.ok { dupe := true }, w) := by
    rw [insertHeader, hok, Prog.ofExcept_ok_bind_apply, readRows, Prog.read_bind_apply,
      if_pos hstored]
    rfl
  have hheight := h.height_pos
  have horphan : storedOrphan w.db.rows top { dupe := true } = true := by
    unfold storedOrphan
    rw [hr]
    simp [hheight, hinactive]
  obtain ⟨w₂, hwalk, hdb⟩ := h.walk (fun _ _ => rfl) (h.fork_stored fun r hr => ⟨r, hr, rfl⟩)
  refine ⟨w₂, ?_, hdb⟩
  unfold insertWithParentBackfill
  rw [Prog.bind_ok hdupe, readRows, Prog.read_bind_apply, if_neg (by rw [horphan]; simp),
    Prog.bind_ok hwalk]
  rfl

/-- Where the walk fetches something, the top's parent is not stored. -/
theorem Completing.parent_unstored (hmid : rest.takeWhile (unstored w.db.rows) ≠ []) :
    headerForHash w.db.rows top.previousHash = none := by
  cases htake : rest.takeWhile (unstored w.db.rows) with
  | nil => exact absurd htake hmid
  | cons p mid =>
    have hp : unstored w.db.rows p = true :=
      List.mem_takeWhile_imp (htake ▸ List.mem_cons_self : p ∈ rest.takeWhile (unstored w.db.rows))
    have hhead : (rest ++ fork :: below).head? = some p := by
      rw [← List.takeWhile_append_dropWhile (p := unstored w.db.rows) (l := rest), htake]
      rfl
    rw [((List.isChain_cons.mp h.linked).1 p hhead).2]
    exact Option.isNone_iff_eq_none.mp hp

/-- A top without a stored parent that carries a checkpoint and outworks the tip alone ends
the call. -/
theorem Completing.heavy_orphan (hunstored : unstored w.db.rows top = true)
    (hmid : rest.takeWhile (unstored w.db.rows) ≠ [])
    (hcarries : (params.checkpointAt top.height).isSome = true)
    (hheavy : tip.chainWork < params.bsv.workFromBits top.bits) :
    ¬Prog.Answers (insertHeader env params top) w := by
  have habides := h.abides (show top :: rest = [] ++ top :: rest from rfl)
  exact h.live.insertHeader_orphan_heavy h.tree (h.rival.given top List.mem_cons_self) h.takes
    (Option.isNone_iff_eq_none.mp hunstored) h.flagged (h.parent_unstored hmid) habides.pow
    habides.rooted h.height_pos (checkContext_ok habides.context).1
    (storedCheckpointAbove_eq_none (h.passed List.mem_cons_self)) hcarries hheavy

/-- A top that is not stored, nor its parent, goes in as an orphan. -/
theorem Completing.resumed_of_orphan (hunstored : unstored w.db.rows top = true)
    (hmid : rest.takeWhile (unstored w.db.rows) ≠ [])
    (hbeside : (params.checkpointAt top.height).isSome = true →
      params.bsv.workFromBits top.bits ≤ tip.chainWork) :
    ∃ w₂, insertWithParentBackfill env params top w =
        resume env params top (rest.takeWhile (unstored w.db.rows)).reverse w₂ ∧
      weights w₂.db.headers =
        weights w.db.headers ++ [(top, params.bsv.workFromBits top.bits)] ∧
      Live params offered w₂.db.headers chain := by
  have habides := h.abides (show top :: rest = [] ++ top :: rest from rfl)
  have hfresh : headerForHash w.db.rows top.hash = none := Option.isNone_iff_eq_none.mp hunstored
  have hparent := h.parent_unstored hmid
  obtain ⟨result, w₁, hinsert, hnoPrev, hweights, hlive₁⟩ := h.live.insertHeader_orphan
    h.tree (h.rival.given top List.mem_cons_self) h.takes hfresh h.flagged hparent habides.pow
    habides.rooted h.height_pos (checkContext_ok habides.context).1
    (storedCheckpointAbove_eq_none (h.passed List.mem_cons_self)) hbeside
  have hback : ∀ r ∈ w₁.db.rows, (∃ r₀ ∈ w.db.rows, r.toBlockHeader = r₀.toBlockHeader) ∨
      r.toBlockHeader = top := by
    intro r hr
    have hmem : (r.toBlockHeader, r.chainWork) ∈ weights w₁.db.headers :=
      mem_weights.mpr ⟨r, hr, rfl, rfl⟩
    rw [hweights] at hmem
    rcases List.mem_append.mp hmem with hmem | hmem
    · obtain ⟨r₀, hr₀, he, -⟩ := mem_weights.mp hmem
      exact .inl ⟨r₀, hr₀, he.symm⟩
    · rw [List.mem_singleton, Prod.mk.injEq] at hmem
      exact .inr hmem.1
  have hkeep : ∀ r ∈ w.db.rows, ∃ r' ∈ w₁.db.rows, r'.toBlockHeader = r.toBlockHeader := by
    intro r hr
    have hmem : (r.toBlockHeader, r.chainWork) ∈ weights w₁.db.headers := by
      rw [hweights]
      exact List.mem_append_left _ (mem_weights.mpr ⟨r, hr, rfl, rfl⟩)
    obtain ⟨r', hr', he, -⟩ := mem_weights.mp hmem
    exact ⟨r', hr', he⟩
  obtain ⟨w₂, hwalk, hdb⟩ := h.walk (fun p hp => h.stored_same hkeep hback hp)
    (h.fork_stored hkeep)
  refine ⟨w₂, ?_, by rw [hdb]; exact hweights, by rw [hdb]; exact hlive₁⟩
  unfold insertWithParentBackfill
  rw [Prog.bind_ok hinsert, readRows, Prog.read_bind_apply, if_neg (by rw [hnoPrev]; simp),
    Prog.bind_ok hwalk]
  rfl

/-- **A call that resumes**: its top stored now or before, it goes on to the branch its walk
fetched. -/
theorem Completing.resumed
    (hresumes : unstored w.db.rows top = true → rest.takeWhile (unstored w.db.rows) ≠ [])
    (hbeside : unstored w.db.rows top = true → (params.checkpointAt top.height).isSome = true →
      params.bsv.workFromBits top.bits ≤ tip.chainWork) :
    ∃ w₂ tip₂ stored₂, insertWithParentBackfill env params top w =
        resume env params top (rest.takeWhile (unstored w.db.rows)).reverse w₂ ∧
      Live params offered w₂.db.headers chain ∧ chainTip w₂.db.rows = some tip₂ ∧
      tip₂.toBlockHeader = tip.toBlockHeader ∧ tip₂.chainWork = tip.chainWork ∧
      stored₂ ∈ w₂.db.headers.rows ∧ stored₂.toBlockHeader = top ∧
      (∀ r ∈ w.db.headers.rows, ∃ r' ∈ w₂.db.headers.rows, r'.toBlockHeader = r.toBlockHeader ∧
        r'.chainWork = r.chainWork) ∧
      ∀ r ∈ w₂.db.rows, (∃ r₀ ∈ w.db.rows, r.toBlockHeader = r₀.toBlockHeader) ∨
        r.toBlockHeader = top := by
  cases hcase : unstored w.db.rows top with
  | false =>
    obtain ⟨w₂, hrun, hdb⟩ := h.resumed_of_stored hcase
    rw [unstored, ← Option.not_isSome, Bool.not_eq_false'] at hcase
    obtain ⟨r, hr⟩ := Option.isSome_iff_exists.mp hcase
    have hrtop : r.toBlockHeader = top := h.tree.unique _ _ (h.live.given r (headerForHash_mem hr))
      (h.rival.given top List.mem_cons_self) (headerForHash_hash hr)
    refine ⟨w₂, tip, r, hrun, ?_⟩
    rw [hdb]
    exact ⟨h.live, h.flagged, rfl, rfl, headerForHash_mem hr, hrtop, fun r hr => ⟨r, hr, rfl, rfl⟩,
      fun r hr => .inl ⟨r, hr, rfl⟩⟩
  | true =>
    obtain ⟨w₂, hrun, hweights, hlive₂⟩ := h.resumed_of_orphan hcase (hresumes hcase) (hbeside hcase)
    have hkeep : ∀ r ∈ w.db.headers.rows, ∃ r' ∈ w₂.db.headers.rows,
        r'.toBlockHeader = r.toBlockHeader ∧ r'.chainWork = r.chainWork := by
      intro r hr
      refine mem_weights.mp ?_
      rw [hweights]
      exact List.mem_append_left _ (mem_weights.mpr ⟨r, hr, rfl, rfl⟩)
    obtain ⟨tip₂, htip₂, htop₂⟩ := hlive₂.exists_chainTip (h.live.chainTip_eq h.flagged)
    obtain ⟨tip', htip', he, hwork⟩ := hkeep tip (chainTip_mem h.flagged)
    obtain rfl : tip₂ = tip' :=
      eq_of_toBlockHeader (chainTip_mem htip₂) htip' (htop₂.trans he.symm)
    obtain ⟨stored₂, hstored₂, hsame, -⟩ : ∃ r ∈ w₂.db.headers.rows, r.toBlockHeader = top ∧
        r.chainWork = params.bsv.workFromBits top.bits :=
      mem_weights.mp (by rw [hweights]; simp)
    refine ⟨w₂, tip₂, stored₂, hrun, hlive₂, htip₂, htop₂, hwork, hstored₂, hsame, hkeep,
      fun r hr => ?_⟩
    have hmem : (r.toBlockHeader, r.chainWork) ∈ weights w₂.db.headers :=
      mem_weights.mpr ⟨r, hr, rfl, rfl⟩
    rw [hweights] at hmem
    rcases List.mem_append.mp hmem with hmem | hmem
    · obtain ⟨r₀, hr₀, he, -⟩ := mem_weights.mp hmem
      exact .inl ⟨r₀, hr₀, he.symm⟩
    · rw [List.mem_singleton, Prod.mk.injEq] at hmem
      exact .inr hmem.1

/-- Where nothing is missing below it, the row the walk stops at heads a stored branch. -/
theorem Completing.footing {w₂ : World} {tip₂ : HeaderRow}
    (hunbroken : ∀ p ∈ rest.dropWhile (unstored w.db.rows), unstored w.db.rows p = false)
    (hlive₂ : Live params offered w₂.db.headers chain) (htip₂ : chainTip w₂.db.rows = some tip₂)
    (hkeep : ∀ r ∈ w.db.headers.rows, ∃ r' ∈ w₂.db.headers.rows,
      r'.toBlockHeader = r.toBlockHeader ∧ r'.chainWork = r.chainWork) :
    ∃ row₂, Footing params offered w₂ chain (rest.dropWhile (unstored w.db.rows)) above fork below
        tip₂ row₂ ∧
      row₂.chainWork = storedWork w.db.rows ((rest.dropWhile (unstored w.db.rows)).headD fork) := by
  have hstop := h.stop_stored
  generalize hs : (rest.dropWhile (unstored w.db.rows)).headD fork = stop at hstop ⊢
  obtain ⟨row, hrow⟩ := Option.isSome_iff_exists.mp hstop
  obtain ⟨row₂, hrow₂, he, hwork⟩ := hkeep row (headerForHash_mem hrow)
  have hoffered : offered stop := by
    rw [← hs]
    cases hdrop : rest.dropWhile (unstored w.db.rows) with
    | nil =>
      obtain ⟨r, hr, hfork⟩ := h.live.stored fork (by rw [h.rival.chain_eq]; simp)
      exact hfork ▸ h.live.given r hr
    | cons p left =>
      exact h.rival.given p (List.mem_cons_of_mem _
        ((List.dropWhile_sublist _).subset (hdrop ▸ List.mem_cons_self)))
  have hheader : row₂.toBlockHeader = stop := he.trans
    (h.tree.unique _ _ (h.live.given row (headerForHash_mem hrow)) hoffered (headerForHash_hash hrow))
  refine ⟨row₂, ⟨hlive₂, htip₂, hrow₂, ?_, h.rival.chain_eq, ?_, fun p hp => ?_, fun p hp => ?_⟩, ?_⟩
  · rw [hheader, ← hs]
    cases rest.dropWhile (unstored w.db.rows) <;> rfl
  · have hlinked : ((top :: rest) ++ [fork]).IsChain ChildOf := h.rival.linked
    rw [← List.takeWhile_append_dropWhile (p := unstored w.db.rows) (l := rest), ← List.cons_append,
      List.append_assoc] at hlinked
    exact (List.isChain_append.mp hlinked).2.1
  · have hp' := hunbroken p hp
    rw [unstored, ← Option.not_isSome, Bool.not_eq_false'] at hp'
    obtain ⟨r, hr⟩ := Option.isSome_iff_exists.mp hp'
    obtain ⟨r₂, hr₂, he₂, -⟩ := hkeep r (headerForHash_mem hr)
    exact ⟨r₂, hr₂, he₂.trans (h.tree.unique _ _ (h.live.given r (headerForHash_mem hr))
      (h.rival.given p (List.mem_cons_of_mem _ ((List.dropWhile_sublist _).subset hp)))
      (headerForHash_hash hr))⟩
  · exact h.rival.apart p (List.mem_cons_of_mem _ ((List.dropWhile_sublist _).subset hp))
  · rw [hwork, storedWork, hrow]
    rfl

/-- The headers the walk fetched can be inserted on the row it stopped at. -/
theorem Completing.fillable {w₂ : World} {tip₂ row₂ : HeaderRow}
    (hfoot : Footing params offered w₂ chain (rest.dropWhile (unstored w.db.rows)) above fork below
      tip₂ row₂) (htip : tip₂.toBlockHeader = tip.toBlockHeader)
    (hback : ∀ r ∈ w₂.db.rows, (∃ r₀ ∈ w.db.rows, r.toBlockHeader = r₀.toBlockHeader) ∨
      r.toBlockHeader = top)
    (hkeep : ∀ r ∈ w.db.rows, ∃ r' ∈ w₂.db.rows, r'.toBlockHeader = r.toBlockHeader) :
    Fillable params offered w₂.db.rows (rest.dropWhile (unstored w.db.rows) ++ fork :: below) row₂
      tip₂ (rest.takeWhile (unstored w.db.rows)).reverse := by
  have hsplit := List.takeWhile_append_dropWhile (p := unstored w.db.rows) (l := rest)
  have hin : ∀ p ∈ (rest.takeWhile (unstored w.db.rows)).reverse, p ∈ rest := fun p hp =>
    (List.takeWhile_sublist _).subset (List.mem_reverse.mp hp)
  refine ⟨?_, fun p hp => h.rival.given p (List.mem_cons_of_mem _ (hin p hp)), fun p hp => ?_,
    fun front p back hfront => ?_, fun c hc p hp hlt => ?_⟩
  · have hlinked := h.linked
    rw [← hsplit, List.append_assoc, ← hfoot.line] at hlinked
    have hline := (List.isChain_cons.mp hlinked).2
    rw [← List.singleton_append, ← List.append_assoc] at hline
    have hup := List.isChain_reverse.mpr (List.isChain_append.mp hline).1
    rw [List.reverse_append, List.reverse_singleton] at hup
    exact hup
  · rw [← Option.not_isSome_iff_eq_none, h.stored_same hkeep hback (hin p hp),
      Option.not_isSome_iff_eq_none]
    have hunstored : unstored w.db.rows p = true := List.mem_takeWhile_imp (List.mem_reverse.mp hp)
    exact Option.isNone_iff_eq_none.mp hunstored
  · have hmid : rest.takeWhile (unstored w.db.rows) = back.reverse ++ p :: front.reverse := by
      rw [← List.reverse_reverse (rest.takeWhile _), hfront]
      simp
    have hbranch : top :: rest = (top :: back.reverse) ++ p ::
        (front.reverse ++ rest.dropWhile (unstored w.db.rows)) := by
      conv_lhs => rw [← hsplit, hmid]
      simp
    have := h.abides hbranch
    rwa [List.append_assoc] at this
  · have hheight : tip₂.height = tip.height := congrArg BlockHeader.height htip
    rw [hheight]
    exact h.passed (List.mem_cons_of_mem _ (hin p hp)) c hc hlt

end Setting

/-- A branch whose top heads the chain is taken. -/
theorem takesBranch_of_live {result : InsertHeaderResult} {w' : World}
    (hok : insertWithParentBackfill env params top w = (.ok result, w'))
    (hlive : Live params offered w'.db.headers (top :: (rest ++ fork :: below))) :
    TakesBranch env params w top rest := by
  refine ⟨result, w', hok, hlive.exists_chainTip rfl, fun p hp => ?_⟩
  have hmem : p ∈ top :: (rest ++ fork :: below) :=
    show p ∈ (top :: rest) ++ fork :: below from List.mem_append_left _ hp
  obtain ⟨row, hrow, rfl⟩ := hlive.stored p hmem
  exact ⟨row, hrow, rfl, (hlive.active row hrow).mpr hmem⟩

/-- A top off the chain is not the tip. -/
theorem not_takesBranch_of_live {result : InsertHeaderResult} {w' : World}
    (hok : insertWithParentBackfill env params top w = (.ok result, w')) {chain' : List BlockHeader}
    (hlive : Live params offered w'.db.headers chain') (hoff : top ∉ chain') :
    ¬TakesBranch env params w top rest := by
  rintro ⟨result', w'', hok', ⟨tip', htip', htop⟩, -⟩
  rw [hok] at hok'
  cases hok'
  exact hoff (htop ▸ List.mem_of_head? (hlive.chainTip_eq htip'))

/-- A branch whose top stands on the row the walk would stop at: there is no walk. -/
theorem Completing.direct_iff (h : Completing env params offered w chain top rest above fork below tip)
    (hunstored : unstored w.db.rows top = true) (hmid : rest.takeWhile (unstored w.db.rows) = [])
    (hunbroken : ∀ p ∈ rest.dropWhile (unstored w.db.rows), unstored w.db.rows p = false) :
    TakesBranch env params w top rest ↔ Completes params w.db.rows top rest fork tip := by
  have hfresh : headerForHash w.db.rows top.hash = none := Option.isNone_iff_eq_none.mp hunstored
  have habides := h.abides (show top :: rest = [] ++ top :: rest from rfl)
  obtain ⟨row, hfoot, hwork⟩ := h.footing hunbroken h.live h.flagged fun r hr => ⟨r, hr, rfl, rfl⟩
  have hleft : rest.dropWhile (unstored w.db.rows) = rest := by
    have hsplit := List.takeWhile_append_dropWhile (p := unstored w.db.rows) (l := rest)
    rwa [hmid, List.nil_append] at hsplit
  have hfoot' := hfoot
  rw [hleft] at hfoot'
  have hchild : ChildOf top row.toBlockHeader := (List.isChain_cons.mp h.linked).1 _ hfoot'.head
  have hline := hfoot'.line
  have hshort := h.rival.short
  have hheight := h.tip_height
  have hcp : storedCheckpointAbove w.db.rows params top.height (some tip) = none :=
    storedCheckpointAbove_eq_none (h.passed List.mem_cons_self)
  have hheaviest : (∀ work ∈ tip.chainWork ::
      works params (storedWork w.db.rows ((rest.dropWhile (unstored w.db.rows)).headD fork))
        (rest.takeWhile (unstored w.db.rows)).reverse,
      work < lastWork params (storedWork w.db.rows ((rest.dropWhile (unstored w.db.rows)).headD fork))
        ((rest.takeWhile (unstored w.db.rows)).reverse ++ [top])) ↔
      tip.chainWork < addWork row.chainWork (params.bsv.workFromBits top.bits) := by
    rw [hmid, ← hwork]
    exact List.forall_mem_singleton
  have hdirect : ∀ {result : InsertHeaderResult} {w₁ : World},
      insertHeader env params top w = (.ok result, w₁) → result.dupe = false →
      result.noPrev = false → insertWithParentBackfill env params top w = (.ok result, w₁) := by
    intro result w₁ hok hdupe hnoPrev
    unfold insertWithParentBackfill
    rw [Prog.bind_ok hok, readRows, Prog.read_bind_apply, if_pos]
    · rfl
    · rw [hnoPrev, storedOrphan, hdupe]
      rfl
  by_cases houtworks : tip.chainWork < addWork row.chainWork (params.bsv.workFromBits top.bits)
  · by_cases hnear : above.length ≤ reorgHeightThreshold
    · obtain ⟨result, w₁, hok, hdupe, hnoPrev, -, hlive₁⟩ := h.live.insertHeader_onto h.tree
        (h.rival.given top List.mem_cons_self) h.takes hfresh h.flagged hfoot'.mem hline hfoot'.branch
        hchild (hline.symm ▸ habides) hcp fun _ =>
          ⟨hnear, hshort.trans (by decide : backfillLimit ≤ reorgHeightThreshold)⟩
      rw [if_pos houtworks, hline] at hlive₁
      refine iff_of_true (takesBranch_of_live (hdirect hok hdupe hnoPrev) hlive₁)
        ⟨hunbroken, hheaviest.mpr houtworks, by omega, fun _ hne => absurd hmid hne⟩
    · refine iff_of_false ?_ fun hc => hnear (by have := hc.near; omega)
      rintro ⟨result, w', hok, -⟩
      obtain ⟨result₁, w₁, hinsert, -⟩ := Prog.bind_eq_ok hok
      exact h.live.insertHeader_far h.tree (h.rival.given top List.mem_cons_self) h.takes hfresh
        h.flagged hfoot'.mem hline hfoot'.branch hchild (hline.symm ▸ habides) hcp
        (Nat.not_le.mp hnear) houtworks ⟨result₁, w₁, hinsert⟩
  · obtain ⟨result, w₁, hok, hdupe, hnoPrev, -, hlive₁⟩ := h.live.insertHeader_onto h.tree
      (h.rival.given top List.mem_cons_self) h.takes hfresh h.flagged hfoot'.mem hline hfoot'.branch
      hchild (hline.symm ▸ habides) hcp fun hlt => absurd hlt houtworks
    rw [if_neg houtworks] at hlive₁
    exact iff_of_false (not_takesBranch_of_live (hdirect hok hdupe hnoPrev) hlive₁ h.top_off)
      fun hc => houtworks (hheaviest.mp hc.heaviest)

/-- A branch whose top is stored, or whose walk fetches something. -/
theorem Completing.resumed_iff
    (h : Completing env params offered w chain top rest above fork below tip)
    (hresumes : unstored w.db.rows top = true → rest.takeWhile (unstored w.db.rows) ≠ [])
    (hbeside : unstored w.db.rows top = true → (params.checkpointAt top.height).isSome = true →
      params.bsv.workFromBits top.bits ≤ tip.chainWork)
    (hunbroken : ∀ p ∈ rest.dropWhile (unstored w.db.rows), unstored w.db.rows p = false) :
    TakesBranch env params w top rest ↔ Completes params w.db.rows top rest fork tip := by
  obtain ⟨w₂, tip₂, stored₂, hrun, hlive₂, htip₂, htop₂, hwork₂, hstored₂, hsame, hkeep, hback⟩ :=
    h.resumed hresumes hbeside
  obtain ⟨row₂, hfoot, hbase⟩ := h.footing hunbroken hlive₂ htip₂ hkeep
  have hfill := h.fillable hfoot htop₂ hback fun r hr => by
    obtain ⟨r', hr', he, -⟩ := hkeep r hr
    exact ⟨r', hr', he⟩
  have hsplit := List.takeWhile_append_dropWhile (p := unstored w.db.rows) (l := rest)
  have hshort := h.rival.short
  have hheight := h.tip_height
  have hwhole : (rest.takeWhile (unstored w.db.rows)).reverse.reverse ++
      (rest.dropWhile (unstored w.db.rows) ++ fork :: below) = rest ++ fork :: below := by
    rw [List.reverse_reverse, ← List.append_assoc, hsplit]
  have hlong : (rest.dropWhile (unstored w.db.rows)).length +
      (rest.takeWhile (unstored w.db.rows)).reverse.length < reorgHeightThreshold := by
    have hlength := congrArg List.length hsplit
    rw [List.length_append] at hlength
    rw [List.length_cons] at hshort
    have hlimits : backfillLimit ≤ reorgHeightThreshold := by decide
    rw [List.length_reverse]
    omega
  have hlinked : (stored₂.toBlockHeader :: ((rest.takeWhile (unstored w.db.rows)).reverse.reverse ++
      (rest.dropWhile (unstored w.db.rows) ++ fork :: below))).IsChain ChildOf := by
    rw [hwhole, hsame]
    exact h.linked
  have habides : Abides params ((rest.takeWhile (unstored w.db.rows)).reverse.reverse ++
      (rest.dropWhile (unstored w.db.rows) ++ fork :: below)) stored₂.toBlockHeader := by
    rw [hwhole, hsame]
    exact h.abides (show top :: rest = [] ++ top :: rest from rfl)
  have hoff : stored₂.toBlockHeader ∉ chain := hsame ▸ h.top_off
  rw [← hsame] at hrun
  by_cases hheaviest : ∀ work ∈ tip₂.chainWork ::
      works params row₂.chainWork (rest.takeWhile (unstored w.db.rows)).reverse,
      work < lastWork params row₂.chainWork
        ((rest.takeWhile (unstored w.db.rows)).reverse ++ [stored₂.toBlockHeader])
  · by_cases hnear : above.length ≤ reorgHeightThreshold
    · obtain ⟨result, w', hok, hcase⟩ := Footing.resume_near hfoot h.tree h.takes hfill hlong hstored₂
        hoff hlinked habides (.inl hnear) fun _ => hnear
      rcases hcase with ⟨-, hlive'⟩ | ⟨hnot, -⟩
      · rw [hwhole, hsame] at hlive'
        rw [hsame] at hrun hok
        refine iff_of_true (takesBranch_of_live (hrun.trans hok) hlive')
          ⟨hunbroken, ?_, by omega, fun hun hne => hbeside hun⟩
        rwa [hwork₂, hbase, hsame] at hheaviest
      · exact absurd hheaviest hnot
    · refine iff_of_false ?_ fun hc => hnear (by have := hc.near; omega)
      rintro ⟨result, w', hok, -⟩
      rw [← hsame, hrun] at hok
      exact Footing.resume_far hfoot h.tree h.takes hfill hlong hstored₂ hoff hlinked habides
        (Nat.not_le.mp hnear) hheaviest ⟨result, w', hok⟩
  · refine iff_of_false ?_ fun hc => hheaviest (by rw [hwork₂, hbase, hsame]; exact hc.heaviest)
    rintro htaken
    by_cases hreach : above.length ≤ reorgHeightThreshold ∨
        ∀ work ∈ works params row₂.chainWork (rest.takeWhile (unstored w.db.rows)).reverse,
          work ≤ tip₂.chainWork
    · obtain ⟨result, w', hok, hcase⟩ := Footing.resume_near hfoot h.tree h.takes hfill hlong hstored₂
        hoff hlinked habides hreach fun hall => absurd hall hheaviest
      rcases hcase with ⟨hall, -⟩ | ⟨-, chain', hlive', hoff'⟩
      · exact hheaviest hall
      · rw [hsame] at hrun hok hoff'
        exact not_takesBranch_of_live (hrun.trans hok) hlive' hoff' htaken
    · rw [not_or, not_forall] at hreach
      obtain ⟨hfar, work, hwork⟩ := hreach
      rw [Classical.not_imp] at hwork
      obtain ⟨result, w', hok, -⟩ := htaken
      rw [← hsame, hrun] at hok
      obtain ⟨u, s, hfilled, -⟩ := Prog.bind_eq_ok hok
      exact hfoot.fill_far h.tree h.takes hfill (Nat.not_le.mp hfar)
        ⟨work, hwork.1, Nat.not_le.mp hwork.2⟩ ⟨u, s, hfilled⟩

/-- **The parent walk takes a branch exactly where the store lets it be completed.** -/
theorem backfill_completes_iff
    (h : Completing env params offered w chain top rest above fork below tip) :
    TakesBranch env params w top rest ↔ Completes params w.db.rows top rest fork tip := by
  by_cases hunbroken : ∀ p ∈ rest.dropWhile (unstored w.db.rows), unstored w.db.rows p = false
  · by_cases hdirect : unstored w.db.rows top = true ∧ rest.takeWhile (unstored w.db.rows) = []
    · exact h.direct_iff hdirect.1 hdirect.2 hunbroken
    · have hresumes : unstored w.db.rows top = true →
          rest.takeWhile (unstored w.db.rows) ≠ [] := fun hun hnil => hdirect ⟨hun, hnil⟩
      by_cases hbeside : unstored w.db.rows top = true →
          (params.checkpointAt top.height).isSome = true →
            params.bsv.workFromBits top.bits ≤ tip.chainWork
      · exact h.resumed_iff hresumes hbeside hunbroken
      · refine iff_of_false ?_ fun hc => hbeside fun hun => hc.beside hun (hresumes hun)
        rw [Classical.not_imp, Classical.not_imp, Nat.not_le] at hbeside
        obtain ⟨hun, hcarries, hheavy⟩ := hbeside
        rintro ⟨result, w', hok, -⟩
        obtain ⟨result₁, w₁, hinsert, -⟩ := Prog.bind_eq_ok hok
        exact h.heavy_orphan hun (hresumes hun) hcarries hheavy ⟨result₁, w₁, hinsert⟩
  · exact iff_of_false (fun htaken => hunbroken (h.unbroken htaken)) fun hc => hunbroken hc.unbroken

/-- A table has one active chain. -/
theorem ActiveChain.unique {t : HeaderTable} {chain chain' : List BlockHeader}
    (h : ActiveChain t chain) (h' : ActiveChain t chain') : chain = chain' := by
  have hmem : ∀ x, x ∈ chain ↔ x ∈ chain' := by
    intro x
    constructor <;> intro hx
    · obtain ⟨row, hrow, rfl⟩ := h.stored x hx
      exact (h'.active row hrow).mp ((h.active row hrow).mpr hx)
    · obtain ⟨row, hrow, rfl⟩ := h'.stored x hx
      exact (h.active row hrow).mp ((h'.active row hrow).mpr hx)
  have hperm : chain.Perm chain' :=
    (List.perm_ext_iff_of_nodup (chain_nodup h.linked) (chain_nodup h'.linked)).mpr hmem
  refine hperm.eq_of_pairwise (fun a b _ _ hab hba => ?_) (chain_pairwise h.linked)
    (chain_pairwise h'.linked)
  exact absurd hab (Nat.lt_asymm hba)

/-- **A branch is completed and taken**, from any store that runs of the live path leave,
however their walks failed, exactly where what they left lets it be. -/
theorem branch_taken_iff (env₀ env : Env) (params : ChainParams) (calls : List Call)
    (tree : HeaderTree params offered) (hserves₀ : env₀.Serves offered)
    (hcalls : ∀ call ∈ calls, LiveCall offered call) (hw : w = runAll env₀ params calls .init)
    (hchain : ActiveChain w.db.headers chain) (htip : chainTip w.db.rows = some tip)
    (hrival : Rival params offered chain (top :: rest) above fork below)
    (htakes : ∀ n, env.accepts n = true)
    (hserves : ∀ n, ∀ p ∈ top :: rest, env.headerByHash n p.hash = .ok p) :
    TakesBranch env params w top rest ↔ Completes params w.db.rows top rest fork tip := by
  obtain ⟨chain', hlive⟩ := live_run tree hserves₀ hcalls
  rw [← hw] at hlive
  obtain rfl := hchain.unique hlive.toActiveChain
  exact backfill_completes_iff ⟨tree, hlive, htip, hrival, htakes, hserves⟩

end Walk

/-! ### A branch left with a hole -/

section Regtest

open Regtest

/-- A run whose parent walk was cut off: the rival's second block is stored without its
first. -/
def cutRun : World := runAll (courier (· == 3)) params
  [.insertHeader genesis, .insertHeader a1, .insertWithParentBackfill b2] .init

/-- The proofs of a line of headers, added up. -/
def trueWork (params : ChainParams) (line : List BlockHeader) : Nat :=
  (line.map fun h => params.bsv.workFromBits h.bits).sum

/-- What holds of each header of a line with those behind it. -/
theorem forall_split {α : Type} {P : α → List α → Prop} {x : α} {l : List α} :
    (∀ front p back, x :: l = front ++ p :: back → P p back) ↔
      P x l ∧ ∀ front p back, l = front ++ p :: back → P p back := by
  constructor
  · intro h
    exact ⟨h [] x l rfl, fun front p back hl => h (x :: front) p back (by rw [hl]; rfl)⟩
  · rintro ⟨hx, hl⟩ front p back hsplit
    cases front with
    | nil =>
      cases hsplit
      exact hx
    | cons y front =>
      cases hsplit
      exact hl front p back rfl

theorem abides_iff {line : List BlockHeader} {header : BlockHeader} :
    Abides params line header ↔ checkPow params header = .ok () ∧ header.previousHash ≠ zeroHash ∧
      checkContext params (Window.new params.bsv
        ((line.take (max (params.pow.windowDepth (header.height - 1)) 1)).reverse.map (·.link)))
          header = .ok () :=
  ⟨fun h => ⟨h.pow, h.rooted, h.context⟩, fun h => ⟨h.1, h.2.1, h.2.2⟩⟩

theorem rival_branch (rest : List BlockHeader) (top : BlockHeader)
    (hrest : top :: rest = [b2, b1] ∨ top :: rest = [b3, b2, b1]) :
    Rival params (· ∈ known) [a1, genesis] (top :: rest) [a1] genesis [] := by
  have hpassed : ∀ c ∈ params.checkpoints, genesis.height < c.1 →
      ∀ tip, [a1, genesis].head? = some tip → tip.height < c.1 := by
    intro c hc hlt
    obtain rfl : c = (0, genesis.hash) := List.mem_singleton.mp hc
    exact absurd hlt (Nat.lt_irrefl _)
  have hnil : ∀ front p back, ([] : List BlockHeader) = front ++ p :: back →
      Abides params (back ++ genesis :: []) p := by
    intro front p back h
    simp at h
  rcases hrest with h | h <;> rw [h] <;>
    refine ⟨rfl, ?_, by decide +kernel, by decide +kernel, by decide, ?_, hpassed⟩
  · simp only [List.cons_append, List.nil_append, List.isChain_cons_cons, ChildOf]
    exact ⟨by decide +kernel, by decide +kernel, List.isChain_singleton _⟩
  · rw [forall_split (P := fun p back => Abides params (back ++ genesis :: []) p),
      forall_split (P := fun p back => Abides params (back ++ genesis :: []) p)]
    exact ⟨abides_iff.mpr (by decide +kernel), abides_iff.mpr (by decide +kernel), hnil⟩
  · simp only [List.cons_append, List.nil_append, List.isChain_cons_cons, ChildOf]
    exact ⟨by decide +kernel, by decide +kernel, by decide +kernel, List.isChain_singleton _⟩
  · rw [forall_split (P := fun p back => Abides params (back ++ genesis :: []) p),
      forall_split (P := fun p back => Abides params (back ++ genesis :: []) p),
      forall_split (P := fun p back => Abides params (back ++ genesis :: []) p)]
    exact ⟨abides_iff.mpr (by decide +kernel), abides_iff.mpr (by decide +kernel),
      abides_iff.mpr (by decide +kernel), hnil⟩

theorem cutRun_chain : ActiveChain cutRun.db.headers [a1, genesis] where
  linked := by
    simp only [List.isChain_cons_cons, ChildOf]
    exact ⟨by decide +kernel, List.isChain_singleton _⟩
  stored := by decide +kernel
  active := by decide +kernel
  flagged := by decide +kernel

/-- The flagged row of the run. -/
def cutTip : HeaderRow := ⟨a1, ⟨some 1, true, true, 4⟩, 2⟩

theorem courier_branch (n : Nat) : ∀ p ∈ [b3, b2, b1],
    (courier fun _ => false).headerByHash n p.hash = .ok p := by
  have hfound : ∀ p ∈ [b3, b2, b1], known.find? (fun h => h.hash == p.hash) = some p := by
    decide +kernel
  intro p hp
  unfold courier
  dsimp only
  rw [hfound p hp]
  rfl

/-- `Chaintracks.branch_taken_iff` of the block the cut walk was for: the next walk takes
its branch. -/
theorem branch_taken_cut : TakesBranch (courier fun _ => false) params cutRun b2 [b1] ↔
    Completes params cutRun.db.rows b2 [b1] genesis cutTip :=
  branch_taken_iff (courier (· == 3)) (courier fun _ => false) params
    [.insertHeader genesis, .insertHeader a1, .insertWithParentBackfill b2] regtest_tree
    (courier_serves _) (by simp [LiveCall, known]) rfl cutRun_chain (by decide +kernel)
    (rival_branch [b1] b2 (.inl rfl)) (fun _ => rfl)
    (fun n p hp => courier_branch n p (List.mem_cons_of_mem _ hp))

/-- **A heavier branch not taken**: the block above the hole finds its parent stored, and is
left beside the chain with the hole open, though the couriers now serve every block. -/
theorem branch_left_open : ¬∀ (calls : List Call) (env₀ env : Env) (chain : List BlockHeader),
    env₀.Serves (· ∈ known) → (∀ call ∈ calls, LiveCall (· ∈ known) call) →
    ActiveChain (runAll env₀ params calls .init).db.headers chain →
    Rival params (· ∈ known) chain [b3, b2, b1] [a1] genesis [] →
    trueWork params chain < trueWork params [b3, b2, b1, genesis] →
    (∀ n, env.accepts n = true) → (∀ n, ∀ p ∈ [b3, b2, b1], env.headerByHash n p.hash = .ok p) →
    TakesBranch env params (runAll env₀ params calls .init) b3 [b2, b1] := by
  intro h
  obtain ⟨result, w', hok, ⟨tip, htip, htop⟩, -⟩ := h
    [.insertHeader genesis, .insertHeader a1, .insertWithParentBackfill b2] (courier (· == 3))
    (courier fun _ => false) [a1, genesis] (courier_serves _) (by simp [LiveCall, known])
    cutRun_chain (rival_branch [b2, b1] b3 (.inr rfl)) (by decide +kernel) (fun _ => rfl)
    courier_branch
  have hflag : (chainTip (insertWithParentBackfill (courier fun _ => false) params b3
      cutRun).2.db.rows).map (·.hash) = some a1.hash := by decide +kernel
  rw [show (insertWithParentBackfill (courier fun _ => false) params b3 cutRun).2 = w' from
    congrArg Prod.snd hok, htip, Option.map_some, Option.some_inj] at hflag
  have hne : b3.hash ≠ a1.hash := by decide +kernel
  exact hne ((congrArg BlockHeader.hash htop).symm.trans hflag)

end Regtest

end Chaintracks

import Chaintracks.BatchLive
import Chaintracks.Spelling

/-!
# The letters of a run

`insert_headers_batch` takes a run for linked where each header names the one before it up to
case, and carries the work along. `insert_header` looks a parent up letter by letter. A header
that names the one before it in other letters is therefore written active by the batch, on the
work of the whole run, and one by one it is stored as an orphan, on its own.

The two paths agree (`Chaintracks.PathsAgree`) as far as the letters do: where each header names
the one before it as it is spelled, up to the first the rules refuse; and a run that the batch
takes fares alike on both only so (`Chaintracks.batch_agrees`). One parent in capitals, and
they part (`Chaintracks.batch_parts`).
-/

namespace Chaintracks

open HeaderRows

section Agreement

variable {env : Env} {params : ChainParams} {w : World} {chain run : List BlockHeader}
  {tip : HeaderRow}

/-! ### Where they part -/

/-- The header names the head of a line as it is spelled. -/
def NamesHead (line : List BlockHeader) (header : BlockHeader) : Prop :=
  ∀ head ∈ line.head?, header.previousHash = head.hash

/-- Each header of a run names the one before it as it is spelled. -/
def NamesEach : List BlockHeader → List BlockHeader → Prop
  | _, [] => True
  | line, header :: headers => NamesHead line header ∧ NamesEach (header :: line) headers

/-- As far as the rules let a run through, and one header further, each header of it names the
one before it as it is spelled. -/
def NamesWhereRead (params : ChainParams) : List BlockHeader → List BlockHeader → Prop
  | _, [] => True
  | line, header :: headers => NamesHead line header ∧
      (Abides params line header → NamesWhereRead params (header :: line) headers)

theorem NamesEach.whereRead {line : List BlockHeader} (h : NamesEach line run) :
    NamesWhereRead params line run := by
  induction run generalizing line with
  | nil => trivial
  | cons header headers ih => exact ⟨h.1, fun _ => ih h.2⟩

/-- A link up to case, in the letters of the head, is a link. -/
theorem isChain_cons_of_names {line : List BlockHeader} {header : BlockHeader}
    (hline : line.IsChain ChildOf) (halike : (header :: line).IsChain AlikeChildOf)
    (hnames : NamesHead line header) : (header :: line).IsChain ChildOf := by
  refine List.isChain_cons.mpr ⟨fun head hhead => ?_, hline⟩
  exact ⟨((List.isChain_cons.mp halike).1 head hhead).1, hnames head hhead⟩

/-- A run named as far as the rules read is linked, or breaks a rule before its first slip. -/
theorem NamesWhereRead.cases {line : List BlockHeader} (hline : line.IsChain ChildOf)
    (halike : (run.reverse ++ line).IsChain AlikeChildOf) (h : NamesWhereRead params line run) :
    (run.reverse ++ line).IsChain ChildOf ∨
      ∃ first front rest, run = first :: front ++ rest ∧
        ((first :: front).reverse ++ line).IsChain ChildOf ∧
        ¬AbidesRun params line (first :: front) := by
  induction run generalizing line with
  | nil => exact .inl hline
  | cons header headers ih =>
    rw [List.reverse_cons, List.append_assoc, List.singleton_append] at halike
    have hon := isChain_cons_of_names hline (List.isChain_append.mp halike).2.1 h.1
    by_cases habides : Abides params line header
    · rcases ih hon halike (h.2 habides) with hall | ⟨first, front, rest, rfl, hfront, hbroken⟩
      · left
        rwa [List.reverse_cons, List.append_assoc, List.singleton_append]
      · refine .inr ⟨header, first :: front, rest, rfl, ?_, fun hrun => hbroken hrun.2⟩
        rwa [List.reverse_cons, List.append_assoc, List.singleton_append]
    · exact .inr ⟨header, [], headers, rfl, hon, fun hrun => habides hrun.1⟩

/-- A run that is not named throughout is linked up to its first slip. -/
theorem exists_slip {line : List BlockHeader} (hline : line.IsChain ChildOf)
    (halike : (run.reverse ++ line).IsChain AlikeChildOf) (h : ¬NamesEach line run) :
    ∃ front header rest, run = front ++ header :: rest ∧
      (front.reverse ++ line).IsChain ChildOf ∧ ¬NamesHead (front.reverse ++ line) header := by
  induction run generalizing line with
  | nil => exact absurd trivial h
  | cons header headers ih =>
    rw [List.reverse_cons, List.append_assoc, List.singleton_append] at halike
    by_cases hnames : NamesHead line header
    · have hon := isChain_cons_of_names hline (List.isChain_append.mp halike).2.1 hnames
      obtain ⟨front, slip, rest, rfl, hfront, hslip⟩ :=
        ih hon halike fun hrest => h ⟨hnames, hrest⟩
      have hsplit : (header :: front).reverse ++ line = front.reverse ++ header :: line := by simp
      exact ⟨header :: front, slip, rest, rfl, hsplit ▸ hfront, hsplit ▸ hslip⟩
    · exact ⟨[], header, headers, rfl, hline, hnames⟩

/-- The part of a run that is linked to its line is a run on the tip. -/
theorem AlikeOnTip.onTip {t : HeaderTable} {front rest : List BlockHeader}
    (h : AlikeOnTip t chain (front ++ rest)) (hlinked : (front.reverse ++ chain).IsChain ChildOf) :
    OnTip t chain front where
  active := h.active
  linked := hlinked
  unstored := fun x hx => h.unstored x (List.mem_append_left _ hx)
  unique := fun a ha b hb => h.unique a (List.mem_append_left _ ha) b (List.mem_append_left _ hb)
  rooted := fun x hx => h.rooted x (List.mem_append_left _ hx)

/-- A run that is inserted is inserted as far as any header of it, and then the rest. -/
theorem insertEach_append {front rest : List BlockHeader} {m : Nat} {w' : World}
    (h : insertEach env params (front ++ rest) w = (.ok m, w')) :
    ∃ n w₁ k, insertEach env params front w = (.ok n, w₁) ∧
      insertEach env params rest w₁ = (.ok k, w') := by
  induction front generalizing w m with
  | nil => exact ⟨0, w, m, rfl, h⟩
  | cons header headers ih =>
    obtain ⟨result, s, hinsert, hafter⟩ := Prog.bind_eq_ok h
    obtain ⟨added, s', heach, hpure⟩ := Prog.bind_eq_ok hafter
    cases hpure
    obtain ⟨n, w₁, k, hfront, hrest⟩ := ih heach
    exact ⟨n + if result.added then 1 else 0, w₁, k,
      (Prog.bind_ok hinsert).trans (Prog.bind_ok hfront), hrest⟩

/-- A run that the batch takes proves its work. -/
theorem pow_of_answers_batch (h : Prog.Answers (insertHeadersBatch env params run) w) :
    ∀ x ∈ run, checkPow params x = .ok () := by
  cases run with
  | nil => exact List.forall_mem_nil _
  | cons first rest =>
    obtain ⟨n, w', hok⟩ := h
    rw [insertHeadersBatch, insertRun, readRows, Prog.read_bind_apply] at hok
    cases hplan : planBatch params w.db.rows first (first :: rest) with
    | error fault =>
      rw [hplan] at hok
      cases hok
    | ok judged => exact (planBatch_judged hplan).pow

/-- A header without its proof of work is refused on both paths. -/
theorem PathsAgree.of_pow {x : BlockHeader} (hmem : x ∈ run) (hpow : checkPow params x ≠ .ok ()) :
    PathsAgree env params w run := by
  refine .of_refused (fun hb => hpow (pow_of_answers_batch hb x hmem)) ?_
  rintro ⟨m, w', hl⟩
  obtain ⟨front, rest, rfl⟩ := List.append_of_mem hmem
  obtain ⟨n, w₁, k, -, hrest⟩ := insertEach_append hl
  obtain ⟨result, s, hinsert, -⟩ := Prog.bind_eq_ok hrest
  cases hchecked : checkPow params x with
  | ok u => exact hpow hchecked
  | error rule =>
    rw [insertHeader, hchecked] at hinsert
    cases hinsert

/-- **A run named as far as the rules read it** fares alike on both paths. -/
theorem AlikeOnTip.pathsAgree (hreads : ReadsWindow params.pow) (hwork : ProvesWork params)
    (hacc : ∀ n, env.accepts n = true) (h : AlikeOnTip w.db.headers chain run)
    (htip : chainTip w.db.rows = some tip)
    (hfits : tip.chainWork + (run.map fun x => params.bsv.workFromBits x.bits).sum < workModulus)
    (hnames : NamesWhereRead params chain run) : PathsAgree env params w run := by
  rcases hnames.cases h.active.linked h.linked with
    hall | ⟨first, front, rest, rfl, hfront, hbroken⟩
  · rw [← List.append_nil run] at h
    exact (h.onTip hall).pathsAgree hreads hwork hacc htip hfits
  -- the rules refuse the run before its first slip, and both paths stop there
  · have hontip := h.onTip hfront
    refine .of_refused ?_ ?_
    · rintro ⟨n, w', hok⟩
      cases hplan : planBatch params w.db.rows first (first :: front ++ rest) with
      | ok judged => exact hbroken (hontip.abides_of_plan hreads htip h hplan)
      | error fault =>
        rw [List.cons_append, insertHeadersBatch, insertRun, readRows, Prog.read_bind_apply,
          ← List.cons_append, hplan] at hok
        cases hok
    · rintro ⟨m, w', hok⟩
      obtain ⟨n, w₁, k, hfirst, -⟩ := insertEach_append hok
      rw [List.map_append, List.sum_append] at hfits
      exact hbroken ((hontip.insertEach_iff hacc hwork htip (by omega)).1 ⟨n, w₁, hfirst⟩)

/-! ### The work of a header that slipped -/

/-- Rows that differ in their links alone carry the same work. -/
theorem weights_of_unlinked {t u : HeaderTable}
    (h : t.rows.map HeaderRow.unlinked = u.rows.map HeaderRow.unlinked) :
    weights t = weights u := by
  have hof (t : HeaderTable) :
      weights t = (t.rows.map HeaderRow.unlinked).map fun r => (r.toBlockHeader, r.chainWork) := by
    rw [List.map_map]
    rfl
  rw [hof, hof, h]

/-- A header has one work in a table. -/
theorem weights_unique {t : HeaderTable} {x : BlockHeader} {n m : Nat} (hn : (x, n) ∈ weights t)
    (hm : (x, m) ∈ weights t) : n = m := by
  obtain ⟨r, hr, hrx, rfl⟩ := mem_weights.mp hn
  obtain ⟨r', hr', hrx', rfl⟩ := mem_weights.mp hm
  rw [HeaderTable.eq_of_hash hr hr' (congrArg BlockHeader.hash (hrx.trans hrx'.symm))]

/-- The tip's move changes no work. -/
theorem Settled.weights_eq {new : LinkedHeader} {tip : Option HeaderRow} {answer : Except Fault Nat}
    {w' : World} (h : Settled env new tip w answer w') :
    weights w'.db.headers = weights w.db.headers := by
  cases h with
  | failed fault _ same => rw [same]
  | moved now _ _ left => rw [left, execAll_headers, weights_moveTip]
  | reorged t plan now _ _ _ _ _ left => rw [left, execAll_headers, weights_reorg]
  | crowned t plan now w₁ _ answer _ _ _ _ first second =>
    rcases second with ⟨-, -, hsame⟩ | ⟨now', -, hsecond⟩
    · rw [hsame, first, execAll_headers, weights_reorg]
    · rw [hsecond, execAll_headers, weights_moveTip, first, execAll_headers, weights_reorg]

/-- An insertion changes no work that is stored, and a header that is not stored is stored with
the work it was let in with. -/
theorem Inserted.weights_eq {header : BlockHeader} {answer : Except Fault InsertHeaderResult}
    {w' : World} (h : Inserted env params header w answer w') :
    ((∃ e, answer = .error e) ∨ ∃ row, headerForHash w.db.rows header.hash = some row) ∧
        weights w'.db.headers = weights w.db.headers ∨
      ∃ a, admission params w.db.rows header = .ok a ∧
        weights w'.db.headers = weights w.db.headers ++ [(header, a.chainWork)] := by
  cases h with
  | failed fault _ same => exact .inl ⟨.inl ⟨fault, rfl⟩, by rw [same]⟩
  | dupe row found => exact .inl ⟨.inr ⟨row, found⟩, rfl⟩
  | stored a now _ pow fresh admitted alone left =>
    exact .inr ⟨a, admitted, by rw [left, execAll_headers, weights_insertion fresh]⟩
  | settled a now w₁ _ answer pow fresh admitted takes beside first second =>
    refine .inr ⟨a, admitted, ?_⟩
    rw [second.weights_eq, first, execAll_headers, weights_insertion fresh]

theorem insertEach_keeps_weights {m : Nat} {w' : World}
    (h : insertEach env params run w = (.ok m, w')) :
    ∀ x ∈ weights w.db.headers, x ∈ weights w'.db.headers := by
  induction run generalizing w m with
  | nil =>
    cases h
    exact fun _ hx => hx
  | cons header headers ih =>
    intro x hx
    obtain ⟨result, s, hinsert, hafter⟩ := Prog.bind_eq_ok h
    obtain ⟨added, s', heach, hpure⟩ := Prog.bind_eq_ok hafter
    cases hpure
    refine ih heach x ?_
    rcases (insertHeader_cases hinsert).weights_eq with ⟨-, hsame⟩ | ⟨a, -, hadded⟩
    · exact hsame ▸ hx
    · exact hadded ▸ List.mem_append_left _ hx

/-- A header whose parent is not found is stored with its own work. -/
theorem insertHeader_own_work {header : BlockHeader} {result : InsertHeaderResult} {w' : World}
    (hfresh : headerForHash w.db.rows header.hash = none)
    (horphan : headerForHash w.db.rows header.previousHash = none)
    (h : insertHeader env params header w = (.ok result, w')) :
    (header, params.bsv.workFromBits header.bits) ∈ weights w'.db.headers := by
  rcases (insertHeader_cases h).weights_eq with ⟨⟨e, ⟨⟩⟩ | ⟨row, hrow⟩, -⟩ | ⟨a, hadm, hadded⟩
  · rw [hfresh] at hrow
    cases hrow
  · have hprevious : previousOf w.db.rows header = none := by
      rw [previousOf, horphan]
      exact ite_self _
    have hown : a.chainWork = params.bsv.workFromBits header.bits := by
      rw [(admission_ok hadm).chainWork, hprevious]
      rfl
    rw [hadded, hown]
    exact List.mem_append_right _ (List.mem_singleton_self _)

/-- The rows a run leaves are rows that were there, and its headers'. -/
theorem mem_grownSpine {n : Nat} {rows : List HeaderRow} {r : HeaderRow}
    (h : r ∈ grownSpine params n run rows) : r ∈ rows ∨ r.toBlockHeader ∈ run := by
  induction run generalizing n rows with
  | nil => exact .inl h
  | cons header headers ih =>
    rcases ih h with hr | hr
    · rcases List.mem_append.mp hr with hr | hr
      · exact .inl hr
      · rw [List.mem_singleton.mp hr]
        exact .inr List.mem_cons_self
    · exact .inr (List.mem_cons_of_mem _ hr)

theorem grownSpine_keeps {n : Nat} {rows : List HeaderRow} {r : HeaderRow} (h : r ∈ rows) :
    r ∈ grownSpine params n run rows := by
  induction run generalizing n rows with
  | nil => exact h
  | cons header headers ih => exact ih (List.mem_append_left _ h)

/-- A header of a batch is stored with the work of the run up to it. -/
theorem grownSpine_work {n : Nat} (rows : List HeaderRow) {front rest : List BlockHeader}
    {header : BlockHeader}
    (hfits : n + ((front ++ header :: rest).map fun x => params.bsv.workFromBits x.bits).sum <
      workModulus) :
    ∃ r ∈ grownSpine params n (front ++ header :: rest) rows, r.toBlockHeader = header ∧
      r.chainWork = n + (front.map fun x => params.bsv.workFromBits x.bits).sum +
        params.bsv.workFromBits header.bits := by
  induction front generalizing n rows with
  | nil =>
    rw [List.nil_append, List.map_cons, List.sum_cons] at hfits
    have hsum : addWork n (params.bsv.workFromBits header.bits) =
        n + params.bsv.workFromBits header.bits := addWork_of_lt (by omega)
    rw [List.nil_append, grownSpine]
    refine ⟨_, grownSpine_keeps (List.mem_append_right _ (List.mem_singleton_self _)), rfl, ?_⟩
    rw [hsum, List.map_nil, List.sum_nil, Nat.add_zero]
  | cons x xs ih =>
    rw [List.cons_append, List.map_cons, List.sum_cons] at hfits
    have hsum : addWork n (params.bsv.workFromBits x.bits) = n + params.bsv.workFromBits x.bits :=
      addWork_of_lt (by omega)
    rw [List.cons_append, grownSpine, hsum]
    obtain ⟨r, hr, hrx, hwork⟩ := ih (rows ++ [_]) (n := n + params.bsv.workFromBits x.bits)
      (by omega)
    refine ⟨r, hr, hrx, ?_⟩
    rw [hwork, List.map_cons, List.sum_cons]
    omega

/-- A hash that was not stored, and that no header of a run has, is not found after the run. -/
theorem OnTip.unfound (hwork : ProvesWork params) (hacc : ∀ n, env.accepts n = true)
    {front : List BlockHeader} (h : OnTip w.db.headers chain front)
    (htip : chainTip w.db.rows = some tip)
    (hfits : tip.chainWork + (front.map fun x => params.bsv.workFromBits x.bits).sum < workModulus)
    {n : Nat} {w₁ : World} (hfront : insertEach env params front w = (.ok n, w₁)) {hash : String}
    (hstored : ∀ r ∈ w.db.rows, r.hash ≠ hash) (hrun : ∀ y ∈ front, y.hash ≠ hash) :
    headerForHash w₁.db.rows hash = none := by
  obtain ⟨hanswers, hrows⟩ := h.insertEach_iff hacc hwork htip hfits
  obtain ⟨n', w₁', hfront', -, hspine⟩ := hrows (hanswers ⟨n, w₁, hfront⟩)
  obtain rfl : w₁' = w₁ := (Prod.mk.inj (hfront'.symm.trans hfront)).2
  refine headerForHash_eq_none.mpr fun r hr hh => ?_
  have hmem : r.spine ∈ grownSpine params tip.chainWork front (w.db.rows.map HeaderRow.spine) :=
    hspine ▸ List.mem_map_of_mem hr
  rcases mem_grownSpine hmem with hold | hnew
  · obtain ⟨r₀, hr₀, he⟩ := List.mem_map.mp hold
    exact hstored r₀ hr₀ ((congrArg (fun s : HeaderRow => s.hash) he).trans hh)
  · exact hrun r.toBlockHeader hnew hh

/-- **A header that slipped** from the one before it is not found to stand on it: one by one it
is stored with its own work. -/
theorem AlikeOnTip.slip_work (hwork : ProvesWork params)
    (hacc : ∀ n, env.accepts n = true) {front rest : List BlockHeader} {header : BlockHeader}
    (h : AlikeOnTip w.db.headers chain (front ++ header :: rest))
    (htip : chainTip w.db.rows = some tip)
    (hfits : tip.chainWork + (front.map fun x => params.bsv.workFromBits x.bits).sum < workModulus)
    (hlinked : (front.reverse ++ chain).IsChain ChildOf) (hne : front ≠ [])
    (hslip : ¬NamesHead (front.reverse ++ chain) header) {m : Nat} {w' : World}
    (hlive : insertEach env params (front ++ header :: rest) w = (.ok m, w')) :
    (header, params.bsv.workFromBits header.bits) ∈ weights w'.db.headers := by
  obtain ⟨n, w₁, k, hfront, hrest⟩ := insertEach_append hlive
  obtain ⟨result, s, hinsert, hafter⟩ := Prog.bind_eq_ok hrest
  obtain ⟨added, s', heach, hpure⟩ := Prog.bind_eq_ok hafter
  cases hpure
  refine insertEach_keeps_weights heach _ ?_
  -- the header before the slip, which the header names up to case
  obtain ⟨before, hbefore⟩ : ∃ before, front.reverse.head? = some before :=
    ⟨_, List.head?_eq_some_head (by simpa using hne)⟩
  have hhead : (front.reverse ++ chain).head? = some before := by
    rw [List.head?_append, hbefore]
    rfl
  have hmem : before ∈ front := List.mem_reverse.mp (List.mem_of_head? hbefore)
  have happart : header.previousHash ≠ before.hash := fun he =>
    hslip fun x hx => (Option.some_inj.mp (hhead.symm.trans hx)) ▸ he
  have hsplit : (front ++ header :: rest).reverse ++ chain =
      rest.reverse ++ header :: (front.reverse ++ chain) := by simp
  have hline := h.linked
  rw [hsplit] at hline
  have hnames : AlikeChildOf header before :=
    (List.isChain_cons.mp (List.isChain_append.mp hline).2.1).1 before hhead
  have hin : header ∈ front ++ header :: rest := List.mem_append_right _ List.mem_cons_self
  have hfront_in {y : BlockHeader} (hy : y ∈ front) : y ∈ front ++ header :: rest :=
    List.mem_append_left _ hy
  have hontip := h.onTip hlinked
  refine insertHeader_own_work ?_ ?_ hinsert
  -- the header is new: it is no row's, and stands above every header inserted before it
  · refine hontip.unfound hwork hacc htip hfits hfront (fun r hr hh => ?_) fun y hy hh => ?_
    · have hno := h.unstored header hin r hr
      rw [hh, eqIgnoreAsciiCase_self] at hno
      cases hno
    · obtain rfl : y = header := by
        refine h.unique y (hfront_in hy) header hin ?_
        rw [hh]
        exact eqIgnoreAsciiCase_self _
      have hle := chain_le_head hlinked hhead y (List.mem_append_left _ (List.mem_reverse.mpr hy))
      have hheight := hnames.1
      omega
  -- its parent is not found: up to case it is the header before, which is spelled otherwise
  · refine hontip.unfound hwork hacc htip hfits hfront (fun r hr hh => ?_) fun y hy hh => ?_
    · have hno := h.unstored before (hfront_in hmem) r hr
      rw [hh, hnames.2] at hno
      cases hno
    · obtain rfl : y = before := by
        refine h.unique y (hfront_in hy) before (hfront_in hmem) ?_
        rw [hh]
        exact hnames.2
      exact happart hh.symm

/-- A hash names one header of a run. -/
theorem AlikeOnTip.distinct {t : HeaderTable} (h : AlikeOnTip t chain run) :
    (run.map (·.hash)).Nodup := by
  have htrans : IsTrans BlockHeader fun a b => a.height < b.height := ⟨fun _ _ _ => Nat.lt_trans⟩
  have hup : run.Pairwise fun a b => a.height < b.height :=
    List.isChain_iff_pairwise.mp (h.ascending.imp fun a b hab => by
      have := hab.1
      omega)
  have hnodup : run.Nodup := hup.imp fun {a b} hlt he => by
    rw [he] at hlt
    exact Nat.lt_irrefl _ hlt
  refine hnodup.map_on fun a ha b hb hab => h.unique a ha b hb ?_
  rw [hab]
  exact eqIgnoreAsciiCase_self _

/-- A run that the batch takes, its first header naming the tip as it is spelled, is written
as it was judged. -/
theorem AlikeOnTip.batch_spine (hacc : ∀ n, env.accepts n = true)
    (h : AlikeOnTip w.db.headers chain run) (htip : chainTip w.db.rows = some tip)
    (hfirst : ∀ first ∈ run.head?, first.previousHash = tip.hash)
    (hb : Prog.Answers (insertHeadersBatch env params run) w) :
    ∃ n w₁, insertHeadersBatch env params run w = (.ok n, w₁) ∧
      w₁.db.rows.map HeaderRow.spine =
        grownSpine params tip.chainWork run (w.db.rows.map HeaderRow.spine) := by
  cases run with
  | nil => exact ⟨0, w, rfl, rfl⟩
  | cons first rest =>
    obtain ⟨n, w', hok⟩ := hb
    cases hplan : planBatch params w.db.rows first (first :: rest) with
    | error fault =>
      rw [insertHeadersBatch, insertRun, readRows, Prog.read_bind_apply, hplan] at hok
      cases hok
    | ok judged =>
      have hjudged := hplan
      rw [h.planBatch_eq htip (hfirst first rfl)] at hjudged
      obtain ⟨u, -, hjudged⟩ := Except.bind_eq_ok.mp hjudged
      obtain ⟨entries, -, hjudged⟩ := Except.bind_eq_ok.mp hjudged
      cases hjudged
      refine insertHeadersBatch_of_plan hacc hplan h.ascending (fun x hx => ?_) h.distinct
      refine headerForHash_eq_none.mpr fun r hr hh => ?_
      have hno := h.unstored x hx r hr
      rw [hh, eqIgnoreAsciiCase_self] at hno
      cases hno

/-- The tip's move after a bulk write changes no spine. -/
theorem spine_updateChainTipToHighest {top : Option HeaderRow} {w' : World}
    (h : updateChainTipToHighest env w = (.ok top, w')) :
    w'.db.rows.map HeaderRow.spine = w.db.rows.map HeaderRow.spine := by
  rw [updateChainTipToHighest, readRows, Prog.read_bind_apply] at h
  cases htop : highestActive w.db.rows with
  | none =>
    rw [htop] at h
    cases h
    rfl
  | some row =>
    rw [htop] at h
    obtain ⟨u, s, hcommit, hpure⟩ := Prog.bind_eq_ok h
    cases hpure
    obtain ⟨-, rfl⟩ := commit_eq_ok hcommit
    rw [Store.rows, execAll_headers, spine_flagTip]

/-- **A run that the batch takes fares alike on both paths** only where each of its headers names
the one before it as it is spelled. -/
theorem AlikeOnTip.names_of_agree (hwork : ProvesWork params)
    (hacc : ∀ n, env.accepts n = true) (h : AlikeOnTip w.db.headers chain run)
    (htip : chainTip w.db.rows = some tip)
    (hfits : tip.chainWork + (run.map fun x => params.bsv.workFromBits x.bits).sum < workModulus)
    (hfirst : ∀ first ∈ run.head?, first.previousHash = tip.hash)
    (hb : Prog.Answers (insertHeadersBatch env params run) w)
    (hagree : PathsAgree env params w run) :
    NamesEach chain run := by
  by_contra hnot
  obtain ⟨front, header, rest, hrun, hlinked, hslip⟩ := exists_slip h.active.linked h.linked hnot
  obtain ⟨below, hchain⟩ := h.chain_eq htip
  -- the first header names the tip as it is spelled, so it is not the one that slips
  have hne : front ≠ [] := by
    rintro rfl
    refine hslip fun head hhead => ?_
    rw [hchain] at hhead
    obtain rfl : tip.toBlockHeader = head := Option.some_inj.mp hhead
    exact hfirst header (by rw [hrun]; rfl)
  obtain ⟨first, more, rfl⟩ := List.exists_cons_of_ne_nil hne
  subst hrun
  have hsum : ((first :: more ++ header :: rest).map fun x => params.bsv.workFromBits x.bits).sum =
      ((first :: more).map fun x => params.bsv.workFromBits x.bits).sum +
        ((header :: rest).map fun x => params.bsv.workFromBits x.bits).sum := by
    rw [List.map_append, List.sum_append]
  -- one by one the header carries its own work, in the batch that of the run up to it
  obtain ⟨n, wb, m, wl, hbatch, hlive, hsame⟩ := hagree.2 hb
  have hown := h.slip_work hwork hacc htip (by omega) hlinked hne hslip hlive
  obtain ⟨n', w₁, hfirst', hafter⟩ := Prog.bind_eq_ok hbatch
  obtain ⟨top, s, hmoved, hpure⟩ := Prog.bind_eq_ok hafter
  cases hpure
  obtain ⟨n'', w₁', hfirst'', hspine⟩ := h.batch_spine hacc htip hfirst hb
  obtain rfl : w₁' = w₁ := (Prod.mk.inj (hfirst''.symm.trans hfirst')).2
  obtain ⟨r, hr, hrx, hrwork⟩ := grownSpine_work (w.db.rows.map HeaderRow.spine) hfits
  rw [← hspine, ← spine_updateChainTipToHighest hmoved] at hr
  obtain ⟨r₀, hr₀, rfl⟩ := List.mem_map.mp hr
  have hbatched : (header, _) ∈ weights wl.db.headers :=
    weights_of_unlinked hsame ▸ mem_weights.mpr ⟨r₀, hr₀, hrx, hrwork⟩
  have heq := weights_unique hown hbatched
  have hpos : 0 < params.bsv.workFromBits first.bits :=
    hwork.of_checkPow (pow_of_answers_batch hb first List.mem_cons_self)
  rw [List.map_cons, List.sum_cons] at heq
  omega

/-- **Where the batch path agrees with the live path.** On a run on the tip, of no stored block
and linked in whatever letters, the two paths agree where a header proves no work, or where
each header, as far as the rules let the run through and one further, names the one before it
as it is spelled. A run that the batch takes, its first header naming the tip as it is
spelled, fares alike on both only if each header does. -/
theorem batch_agrees (hreads : ReadsWindow params.pow) (hwork : ProvesWork params)
    (hacc : ∀ n, env.accepts n = true) (h : AlikeOnTip w.db.headers chain run)
    (htip : chainTip w.db.rows = some tip)
    (hfits : tip.chainWork + (run.map fun x => params.bsv.workFromBits x.bits).sum < workModulus) :
    ((∃ x ∈ run, checkPow params x ≠ .ok ()) ∨ NamesWhereRead params chain run →
        PathsAgree env params w run) ∧
      (Prog.Answers (insertHeadersBatch env params run) w →
        (∀ first ∈ run.head?, first.previousHash = tip.hash) →
        (PathsAgree env params w run ↔ NamesEach chain run)) := by
  refine ⟨?_, fun hb hfirst => ⟨?_, fun hnames => ?_⟩⟩
  · rintro (⟨x, hx, hpow⟩ | hnames)
    · exact .of_pow hx hpow
    · exact h.pathsAgree hreads hwork hacc htip hfits hnames
  · exact h.names_of_agree hwork hacc htip hfits hfirst hb
  · exact h.pathsAgree hreads hwork hacc htip hfits hnames.whereRead

end Agreement

/-! ### Two blocks on the genesis -/

section Regtest

open Regtest

/-- The genesis alone. -/
def bareGenesis : World := runAll host params [.insertHeader genesis] .init

/-- The row of the genesis, on it. -/
def genesisRow : HeaderRow := ⟨genesis, ⟨none, true, true, 2⟩, 1⟩

theorem bareGenesis_rows : bareGenesis.db.headers.rows = [genesisRow] := by decide +kernel

theorem bareGenesis_active : ActiveChain bareGenesis.db.headers [genesis] := by
  constructor <;> simp [bareGenesis_rows, genesisRow]

/-- The two blocks of the branch `a`, the second naming the first in capitals or as it is
spelled, are a run on the genesis. -/
theorem alikeOnTip_genesis {second : BlockHeader} (h : second = a2 ∨ second = a2Capitals) :
    AlikeOnTip bareGenesis.db.headers [genesis] [a1, second] := by
  refine ⟨bareGenesis_active, ?_, ?_, ?_, ?_⟩
  · refine .cons_cons ⟨?_, ?_⟩ (.cons_cons (ChildOf.alike ⟨rfl, rfl⟩) (.singleton _))
    · rcases h with rfl | rfl <;> rfl
    · rcases h with rfl | rfl <;> decide +kernel
  · rw [bareGenesis_rows]
    rcases h with rfl | rfl <;> decide +kernel
  · rcases h with rfl | rfl <;> decide +kernel
  · rcases h with rfl | rfl <;> decide +kernel

/-- **The paths part on one capital**: the second block names the first in capitals. The batch
and the live path take both blocks, and the batch makes the second the tip, which the live
path keeps inactive as an orphan. -/
theorem batch_parts :
    AlikeOnTip bareGenesis.db.headers [genesis] [a1, a2Capitals] ∧
      chainTip bareGenesis.db.rows = some genesisRow ∧
      Prog.Answers (insertHeadersBatch host params [a1, a2Capitals]) bareGenesis ∧
      Prog.Answers (insertEach host params [a1, a2Capitals]) bareGenesis ∧
      ¬PathsAgree host params bareGenesis [a1, a2Capitals] := by
  have hbatch : (insertHeadersBatch host params [a1, a2Capitals] bareGenesis).1 = .ok 2 := by
    decide +kernel
  have hlive : (insertEach host params [a1, a2Capitals] bareGenesis).1 = .ok 2 := by
    decide +kernel
  have happart : (batchAndTip host params [a1, a2Capitals] bareGenesis).2.db.rows.map
      HeaderRow.unlinked ≠ (insertEach host params [a1, a2Capitals] bareGenesis).2.db.rows.map
        HeaderRow.unlinked := by
    decide +kernel
  refine ⟨alikeOnTip_genesis (.inr rfl), by decide +kernel, ⟨2, _, Prod.ext hbatch rfl⟩,
    ⟨2, _, Prod.ext hlive rfl⟩, fun hagree => ?_⟩
  obtain ⟨n, wb, m, wl, hb, hl, hsame⟩ := hagree.2 ⟨2, _, Prod.ext hbatch rfl⟩
  rw [hb, hl] at happart
  exact happart hsame

/-- `Chaintracks.batch_agrees` over the genesis: two blocks fare alike in a batch and one by
one, and apart where the second names the first in capitals. -/
theorem batch_agrees_genesis :
    PathsAgree host params bareGenesis [a1, a2] ∧
      Prog.Answers (insertHeadersBatch host params [a1, a2]) bareGenesis ∧
      ¬PathsAgree host params bareGenesis [a1, a2Capitals] := by
  have htip : chainTip bareGenesis.db.rows = some genesisRow := by decide +kernel
  have hbatch : (insertHeadersBatch host params [a1, a2] bareGenesis).1 = .ok 2 := by
    decide +kernel
  have hcapitals : (insertHeadersBatch host params [a1, a2Capitals] bareGenesis).1 = .ok 2 := by
    decide +kernel
  have hnames : NamesEach [genesis] [a1, a2] :=
    ⟨fun _ hx => by cases hx; rfl, fun _ hx => by cases hx; rfl, trivial⟩
  have hslip : ¬NamesEach [genesis] [a1, a2Capitals] := fun h =>
    absurd (h.2.1 a1 rfl) (by decide +kernel)
  refine ⟨?_, ⟨2, _, Prod.ext hbatch rfl⟩, fun hagree => hslip ?_⟩
  · exact (batch_agrees readsWindow provesWork (fun _ => rfl) (alikeOnTip_genesis (.inl rfl)) htip
      (by decide +kernel)).1 (.inr hnames.whereRead)
  · exact ((batch_agrees readsWindow provesWork (fun _ => rfl) (alikeOnTip_genesis (.inr rfl)) htip
      (by decide +kernel)).2 ⟨2, _, Prod.ext hcapitals rfl⟩
        (fun _ hx => by cases hx; rfl)).mp hagree

end Regtest

end Chaintracks

import Chaintracks.LiveShape
import Chaintracks.Outcomes
import Chaintracks.Publication

/-!
# The journal of the live path

The triggers derive the reorg of a tip's move from the rows alone: they walk back from
the tip published last through the rows that are inactive now. On a live store that walk
finds the chain above the common ancestor, all of it and nothing else
(`Chaintracks.oldBranch_eq`), because the branch a reorg takes off is no longer than the
walk. So what the journal gains in a transaction is read off the chain before it and the
chain after it (`Chaintracks.Published`), and the account of a call is one of two
(`Chaintracks.Told`): its chain goes on from the old one and no reorg is told, or it took
the chain above an ancestor off and tells exactly that.
-/

namespace Chaintracks

open HeaderRows

/-! ### The old branch -/

section OldBranch

variable {t : HeaderTable} {db : Store} {above below path chain : List BlockHeader}
  {ancestor : BlockHeader} {row : HeaderRow} {fuel : Nat}

/-- The walk back through inactive rows lists the part of a chain that is inactive, where it
has the steps. -/
theorem inactiveBranch_eq (hl : (above ++ ancestor :: below).IsChain ChildOf)
    (hs : ∀ x ∈ above ++ ancestor :: below, ∃ row ∈ t.rows, row.toBlockHeader = x)
    (hoff : ∀ row ∈ t.rows, row.toBlockHeader ∈ above → row.isActive = false)
    (hon : ∀ row ∈ t.rows, row.toBlockHeader = ancestor → row.isActive = true)
    (hrow : row ∈ t.rows) (hhead : (above ++ ancestor :: below).head? = some row.toBlockHeader)
    (hlen : above.length ≤ fuel + 1) :
    (inactiveBranch t.rows fuel row).map (·.toBlockHeader) = above := by
  induction above generalizing row fuel with
  | nil =>
    unfold inactiveBranch
    rw [if_pos (hon row hrow (Option.some_inj.mp hhead).symm)]
    rfl
  | cons x xs ih =>
    have hx : x = row.toBlockHeader := Option.some_inj.mp hhead
    obtain ⟨hlink, hl'⟩ := List.isChain_cons.mp hl
    unfold inactiveBranch
    rw [if_neg (by rw [hoff row hrow (hx ▸ List.mem_cons_self)]; exact Bool.false_ne_true),
      List.map_cons, ← hx]
    congr 1
    cases fuel with
    | zero =>
      have : xs = [] := List.length_eq_zero_iff.mp (by rw [List.length_cons] at hlen; omega)
      rw [this]
      rfl
    | succ fuel =>
      obtain ⟨y, hy⟩ : ∃ y, (xs ++ ancestor :: below).head? = some y := by
        cases xs <;> exact ⟨_, rfl⟩
      obtain ⟨parent, hparent, rfl⟩ := hs y (List.mem_cons_of_mem _ (List.mem_of_head? hy))
      have hprev : x.previousHash = parent.hash := (hlink _ hy).2
      dsimp only
      rw [hprev, headerForHash_eq_some t.uniqueHash hparent]
      refine ih hl' (fun z hz => hs z (List.mem_cons_of_mem _ hz))
        (fun r hr hm => hoff r hr (List.mem_cons_of_mem _ hm)) hparent hy ?_
      rw [List.length_cons] at hlen
      omega

/-- The lowest of a chain above a header stands one above it. -/
theorem chain_min_height (hl : (above ++ ancestor :: below).IsChain ChildOf) (hne : above ≠ []) :
    (above.map (·.height)).min? = some (ancestor.height + 1) := by
  rw [List.min?_eq_some_iff]
  refine ⟨?_, ?_⟩
  · obtain ⟨front, last, rfl⟩ := (List.eq_nil_or_concat above).resolve_left hne
    rw [List.concat_eq_append, List.append_assoc] at hl
    have hlast : ChildOf last ancestor := (List.isChain_append.mp hl).2.1.rel
    exact List.mem_map.mpr ⟨last, by simp, hlast.1⟩
  · intro height hmem
    obtain ⟨x, hx, rfl⟩ := List.mem_map.mp hmem
    exact chain_height_above hl x hx

/-- What leaves the chain and what it leaves on: nothing leaves, or a header stays below. -/
structure Rebranch (chain chain' above path common : List BlockHeader) : Prop where
  before : chain = above ++ common
  after : chain' = path ++ common
  apart : ∀ x ∈ above, x ∉ chain'
  rooted : above ≠ [] → common ≠ []

/-- **The old branch of a live store** is what left the chain. -/
theorem oldBranch_eq {chain' common : List BlockHeader} (h : ActiveChain db.headers chain')
    (hl : chain.IsChain ChildOf) (hs : ∀ x ∈ chain, ∃ row ∈ db.rows, row.toBlockHeader = x)
    (hb : Rebranch chain chain' above path common) (hlen : above.length ≤ branchLimit)
    (htip : db.journal.tipHash = chain.head?.map (·.hash)) :
    (oldBranch db).map (·.toBlockHeader) = above := by
  obtain ⟨rfl, rfl, hapart, hrooted⟩ := hb
  unfold oldBranch
  rw [htip]
  cases hc : (above ++ common).head? with
  | none =>
    have := (List.append_eq_nil_iff.mp (List.head?_eq_none_iff.mp hc)).1
    rw [this]
    rfl
  | some head =>
    obtain ⟨row, hrow, rfl⟩ := hs head (List.mem_of_head? hc)
    have hfind : headerForHash db.rows row.toBlockHeader.hash = some row :=
      headerForHash_eq_some db.headers.uniqueHash hrow
    rw [Option.map_some, Option.bind_some, hfind]
    cases common with
    | nil =>
      by_cases ha : above = []
      · rw [ha] at hc
        cases hc
      · exact absurd rfl (hrooted ha)
    | cons ancestor below =>
      refine inactiveBranch_eq hl hs ?_ ?_ hrow hc (by omega)
      · intro r hr hm
        rw [← Bool.not_eq_true, h.active r hr]
        exact hapart _ hm
      · intro r hr he
        rw [h.active r hr, he]
        simp

end OldBranch

/-! ### What a transaction publishes -/

/-- The journal tells of the chain: the hash published last and the newest tip event are
its head's. -/
structure Recorded (db : Store) (chain : List BlockHeader) : Prop where
  complete : db.sync.validationComplete = true
  tipHash : db.journal.tipHash = chain.head?.map (·.hash)
  newest : db.journal.newestTip = chain.head?.map fun h => (h.height, h.hash)

/-- **What the journal gains when the chain changes**: the reorg where something left it,
then the tip. -/
structure Published (chain' above common : List BlockHeader) (events : List ChainEvent) : Prop where
  quiet : above = [] → ∃ tip : HeaderRow, chain'.head? = some tip.toBlockHeader ∧
    events = [.tip tip.height tip.hash tip.time tip.payload]
  told : ∀ ancestor below, above ≠ [] → common = ancestor :: below →
    ∃ (headers : List EnvelopeHeader) (tip : HeaderRow),
      headers.map (·.toBlockHeader) = above ∧ chain'.head? = some tip.toBlockHeader ∧
      events = [.reorg (ancestor.height + 1) above.length headers tip.payload,
        .tip tip.height tip.hash tip.time tip.payload]

section Published

variable {db : Store} {above common path chain chain' : List BlockHeader}

/-- Where the validation is complete the flagged row is served. -/
theorem ActiveChain.servedTip_eq (h : ActiveChain db.headers chain)
    (hc : db.sync.validationComplete = true) : servedTip db = chainTip db.rows := by
  unfold servedTip chainTip
  refine congrArg topmost (List.filter_congr fun r hr => ?_)
  rw [hc, if_pos rfl]
  cases hflag : r.isChainTip with
  | false => exact Bool.and_false _
  | true =>
    rw [Bool.and_true, h.active r hr]
    exact List.mem_of_head? ((h.flagged r hr).mp hflag)

/-- What is published for a chain that took the place of another. -/
theorem published_of_rebranch (h : ActiveChain db.headers chain')
    (hc : db.sync.validationComplete = true) (hl : chain.IsChain ChildOf)
    (hs : ∀ x ∈ chain, ∃ row ∈ db.rows, row.toBlockHeader = x)
    (hb : Rebranch chain chain' above path common) (hlen : above.length ≤ branchLimit)
    (htip : db.journal.tipHash = chain.head?.map (·.hash)) {head : BlockHeader}
    (hhead : chain'.head? = some head) (hnew : ∀ old, chain.head? = some old → old.hash ≠ head.hash) :
    Published chain' above common db.published := by
  have hold := oldBranch_eq h hl hs hb hlen htip
  obtain ⟨tip, ht, rfl⟩ := h.exists_chainTip hhead
  have hmoves : db.published = movesTo db tip := by
    unfold Store.published
    rw [h.servedTip_eq hc, ht]
  have hfresh : ¬db.journal.tipHash = some tip.hash := by
    rw [htip]
    intro he
    obtain ⟨old, ho, hh⟩ := Option.map_eq_some_iff.mp he
    exact hnew old ho hh
  have hempty : (oldBranch db).isEmpty = above.isEmpty := by
    rw [← hold, List.isEmpty_map]
  rw [hmoves, movesTo, if_neg hfresh, hempty]
  refine ⟨fun ha => ⟨tip, hhead, ?_⟩, fun ancestor below ha hcommon => ?_⟩
  · rw [ha]
    rfl
  · have hlen' : (oldBranch db).length = above.length := by rw [← hold, List.length_map]
    have hheights : (oldBranch db).map (·.height) = above.map (·.height) := by
      rw [← hold, List.map_map]
      rfl
    have hmin : (above.map (·.height)).min? = some (ancestor.height + 1) := by
      rw [hb.before, hcommon] at hl
      exact chain_min_height hl ha
    refine ⟨(oldBranch db).map (·.payload), tip, ?_, hhead, ?_⟩
    · rw [List.map_map]
      exact hold
    · rw [if_neg (by rw [List.isEmpty_iff]; exact ha), hlen', hheights, hmin]
      rfl

theorem Journal.newestTip_append {j j' : Journal} {events : List ChainEvent} {head : BlockHeader}
    (hm : j'.moves = j.moves ++ events) (hp : Published chain' above common events)
    (hroot : above ≠ [] → common ≠ []) (hhead : chain'.head? = some head) :
    j'.newestTip = some (head.height, head.hash) := by
  obtain ⟨front, tip, ht, rfl⟩ : ∃ front, ∃ tip : HeaderRow, chain'.head? = some tip.toBlockHeader ∧
      events = front ++ [.tip tip.height tip.hash tip.time tip.payload] := by
    by_cases ha : above = []
    · obtain ⟨tip, ht, rfl⟩ := hp.quiet ha
      exact ⟨[], tip, ht, rfl⟩
    · obtain ⟨ancestor, below, hc⟩ := List.exists_cons_of_ne_nil (hroot ha)
      obtain ⟨headers, tip, -, ht, rfl⟩ := hp.told ancestor below ha hc
      exact ⟨[_], tip, ht, rfl⟩
  have : head = tip.toBlockHeader := Option.some_inj.mp (hhead.symm.trans ht)
  rw [Journal.newestTip, hm, ← List.append_assoc, List.filterMap_append, this]
  exact List.getLast?_concat

/-- **A transaction that ends in the flag, on a live store**: the journal gains what the
change of the chain publishes, and tells of the new chain. -/
theorem recorded_of_flags {txn : List Stmt} {head : BlockHeader} (hrec : Recorded db chain)
    (hl : chain.IsChain ChildOf) (hs : ∀ x ∈ chain, ∃ row ∈ db.rows, row.toBlockHeader = x)
    (hquiet : ∀ stmt ∈ txn, ¬stmt.Flags)
    (h : ActiveChain (onHeadersAll (txn ++ [.setChainTipActive head.hash]) db.headers) chain')
    (hb : Rebranch chain chain' above path common) (hlen : above.length ≤ branchLimit)
    (hhead : chain'.head? = some head)
    (hnew : ∀ old, chain.head? = some old → old.hash ≠ head.hash) (now : Nat) :
    Recorded (execAll now (txn ++ [.setChainTipActive head.hash]) db) chain' ∧
      ∃ events, (execAll now (txn ++ [.setChainTipActive head.hash]) db).journal.moves =
        db.journal.moves ++ events ∧ Published chain' above common events := by
  have hstored : ∀ x ∈ chain, ∃ row ∈ (onHeadersAll (txn ++ [.setChainTipActive head.hash])
      db.headers).rows, row.toBlockHeader = x := by
    intro x hx
    obtain ⟨row, hrow, rfl⟩ := hs x hx
    obtain ⟨r, hr, he, -⟩ := onHeadersAll_keeps (txn ++ [.setChainTipActive head.hash]) hrow
    exact ⟨r, hr, he⟩
  obtain ⟨r, hr, he⟩ := h.stored head (List.mem_of_head? hhead)
  obtain ⟨hm, ht⟩ := execAll_moves_of_flags now db hquiet ⟨r, hr, congrArg BlockHeader.hash he⟩
  rw [← execAll_headers now] at h hstored
  have hc := ((execAll_validation now db (txn ++ [.setChainTipActive head.hash])).1).trans
    hrec.complete
  generalize execAll now (txn ++ [.setChainTipActive head.hash]) db = after at h hstored hm ht hc
  have hpub : Published chain' above common
      (Store.published { after with journal := db.journal }) :=
    published_of_rebranch h hc hl hstored hb hlen hrec.tipHash hhead hnew
  refine ⟨⟨hc, ?_, ?_⟩, _, hm, hpub⟩
  · obtain ⟨tip, htip, hte⟩ := h.exists_chainTip hhead
    rw [ht, h.servedTip_eq hc, htip, hhead, Option.map_some, Option.map_some, ← hte]
    rfl
  · rw [hhead, Journal.newestTip_append hm hpub hb.rooted hhead, Option.map_some]

/-- A transaction that sets no flag leaves the journal's account as it is. -/
theorem Recorded.quiet {txn : List Stmt} (h : Recorded db chain)
    (hquiet : ∀ stmt ∈ txn, ¬stmt.Flags) (now : Nat) : Recorded (execAll now txn db) chain where
  complete := (execAll_validation now db txn).1.trans h.complete
  tipHash := (execAll_moves_of_quiet now db hquiet).2.trans h.tipHash
  newest := by
    rw [Journal.newestTip, (execAll_moves_of_quiet now db hquiet).1]
    exact h.newest

end Published

/-! ### The account of a call -/

/-- **What a call tells of the change of its chain**: nothing of a reorg where the chain
goes on from the old one; otherwise exactly what stood above the ancestor, and as many as
it answers. -/
inductive Told (chain : List BlockHeader) :
    List BlockHeader → List ChainEvent → Except Fault Nat → Prop
  | onward {chain' : List BlockHeader} {events : List ChainEvent} {answer : Except Fault Nat}
      (kept : chain <:+ chain') (quiet : ∀ e ∈ events, e.isReorg = false)
      (none : ∀ depth, answer = .ok depth → depth = 0) : Told chain chain' events answer
  | reorged {above below path : List BlockHeader} {ancestor : BlockHeader}
      {headers : List EnvelopeHeader} {tip : HeaderRow}
      (split : chain = above ++ ancestor :: below) (takes : above ≠ [])
      (apart : ∀ x ∈ above, x ∉ path ++ ancestor :: below)
      (lists : headers.map (·.toBlockHeader) = above)
      (head : (path ++ ancestor :: below).head? = some tip.toBlockHeader) :
      Told chain (path ++ ancestor :: below)
        [.reorg (ancestor.height + 1) above.length headers tip.payload,
          .tip tip.height tip.hash tip.time tip.payload] (.ok above.length)

/-- A call's account: the chain it leaves, what its journal gains, and that both are told. -/
def Journaled (params : ChainParams) (offered : BlockHeader → Prop) (before : Store)
    (chain : List BlockHeader) (answer : Except Fault Nat) (after : Store) : Prop :=
  ∃ chain' events, Live params offered after.headers chain' ∧ Recorded after chain' ∧
    after.journal.moves = before.journal.moves ++ events ∧ Told chain chain' events answer

section Calls

variable {env : Env} {params : ChainParams} {offered : BlockHeader → Prop} {db db' : Store}
  {chain : List BlockHeader} {row tip : HeaderRow} {header : BlockHeader}

/-- A call that leaves the store as it was. -/
theorem Journaled.same (h : Live params offered db.headers chain) (hrec : Recorded db chain)
    {answer : Except Fault Nat} (hnone : ∀ depth, answer = .ok depth → depth = 0) :
    Journaled params offered db chain answer db :=
  ⟨chain, [], h, hrec, (List.append_nil _).symm, .onward List.suffix_rfl (List.forall_mem_nil _)
    hnone⟩

/-- A transaction that flags no row and leaves the chain as it is. -/
theorem Journaled.quiet {txn : List Stmt} (hrec : Recorded db chain)
    (hquiet : ∀ stmt ∈ txn, ¬stmt.Flags) (h : Live params offered (onHeadersAll txn db.headers) chain)
    (now : Nat) {answer : Except Fault Nat} (hnone : ∀ depth, answer = .ok depth → depth = 0) :
    Journaled params offered db chain answer (execAll now txn db) := by
  refine ⟨chain, [], (execAll_headers now db txn).symm ▸ h, hrec.quiet hquiet now, ?_,
    .onward List.suffix_rfl (List.forall_mem_nil _) hnone⟩
  rw [(execAll_moves_of_quiet now db hquiet).1, List.append_nil]

/-- A call goes on from where a quiet transaction left it. -/
theorem Journaled.after_quiet {txn : List Stmt} {now : Nat} {mid : Store}
    {answer : Except Fault Nat} (hmid : mid = execAll now txn db)
    (hquiet : ∀ stmt ∈ txn, ¬stmt.Flags) (h : Journaled params offered mid chain answer db') :
    Journaled params offered db chain answer db' := by
  obtain ⟨chain', events, hlive, hrec, hm, htold⟩ := h
  rw [hmid, (execAll_moves_of_quiet now db hquiet).1] at hm
  exact ⟨chain', events, hlive, hrec, hm, htold⟩

/-- **An extension** is told as a tip. -/
theorem Journaled.extension {txn : List Stmt} (h : Live params offered db.headers chain)
    (hrec : Recorded db chain) (hquiet : ∀ stmt ∈ txn, ¬stmt.Flags)
    (hafter : Live params offered (onHeadersAll (txn ++ [.setChainTipActive header.hash]) db.headers)
      (header :: chain)) (now : Nat) :
    Journaled params offered db chain (.ok 0)
      (execAll now (txn ++ [.setChainTipActive header.hash]) db) := by
  have hnew : ∀ old, chain.head? = some old → old.hash ≠ header.hash := by
    intro old hold hh
    obtain ⟨o, ho, rfl⟩ := hafter.stored old (List.mem_cons_of_mem _ (List.mem_of_head? hold))
    obtain ⟨r, hr, rfl⟩ := hafter.stored header List.mem_cons_self
    have hchild := (List.isChain_cons.mp hafter.linked).1 _ hold
    have := congrArg BlockHeader.height (congrArg HeaderRow.toBlockHeader
      (HeaderTable.eq_of_hash ho hr hh))
    have := hchild.1
    omega
  have hb : Rebranch chain (header :: chain) [] [header] chain :=
    ⟨rfl, rfl, List.forall_mem_nil _, fun hne => absurd rfl hne⟩
  obtain ⟨hrec', events, hm, hp⟩ := recorded_of_flags hrec h.linked h.stored hquiet
    hafter.toActiveChain hb (Nat.zero_le _) rfl hnew now
  refine ⟨header :: chain, events, (execAll_headers now db _).symm ▸ hafter, hrec', hm, ?_⟩
  obtain ⟨tip, -, rfl⟩ := hp.quiet rfl
  exact .onward (List.suffix_cons _ _) (by simp [ChainEvent.isReorg]) fun d hd => by cases hd; rfl

/-- A tip move on the flagged row tells nothing. -/
theorem Recorded.moveTip_same (h : Live params offered db.headers chain) (hrec : Recorded db chain)
    (hrow : row ∈ db.rows) (hflagged : row.isChainTip = true) (now : Nat) :
    Recorded (execAll now (moveTipTxn row.hash) db) chain ∧
      (execAll now (moveTipTxn row.hash) db).journal.moves = db.journal.moves := by
  have hhead := (h.flagged row hrow).mp hflagged
  have hafter := h.moveTip_same hrow hflagged
  obtain ⟨r, hr, he⟩ := hafter.stored _ (List.mem_of_head? hhead)
  have hquiet : ∀ stmt ∈ [Stmt.clearChainTip], ¬stmt.Flags := by simp [Stmt.Flags]
  obtain ⟨hm, ht⟩ := execAll_moves_of_flags now db hquiet ⟨r, hr, congrArg BlockHeader.hash he⟩
  change (execAll now (moveTipTxn row.hash) db).journal.moves = _ at hm
  change (execAll now (moveTipTxn row.hash) db).journal.tipHash = _ at ht
  change _ = _ ++ Store.published { execAll now (moveTipTxn row.hash) db with
    journal := db.journal } at hm
  change _ = ((servedTip (execAll now (moveTipTxn row.hash) db)).map (·.hash)).or _ at ht
  rw [← execAll_headers now] at hafter
  have hc := ((execAll_validation now db (moveTipTxn row.hash)).1).trans hrec.complete
  generalize execAll now (moveTipTxn row.hash) db = after at hafter hm ht hc
  obtain ⟨tip, htip, hte⟩ := hafter.exists_chainTip hhead
  have hserved : servedTip after = some tip := (hafter.servedTip_eq hc).trans htip
  have hhash : tip.hash = row.hash := congrArg BlockHeader.hash hte
  have hnone : Store.published { after with journal := db.journal } = [] := by
    have hserved' : servedTip { after with journal := db.journal } = some tip :=
      (servedTip_congr rfl rfl).trans hserved
    unfold Store.published
    rw [hserved']
    refine if_pos ?_
    rw [hhash]
    exact hrec.tipHash.trans (by rw [hhead]; rfl)
  rw [hnone, List.append_nil] at hm
  refine ⟨⟨hc, ?_, ?_⟩, hm⟩
  · rw [ht, hserved, hhead, Option.map_some, hhash]
    rfl
  · rw [Journal.newestTip, hm]
    exact hrec.newest

/-- The transaction of a reorg up to the flag. -/
def ReorgPlan.unflagged (plan : ReorgPlan) : List Stmt :=
  .deactivateAbove plan.ancestorHeight :: (plan.branch.map .activateHash ++
    [.recordPendingReorg (plan.ancestorHeight + 1), .clearChainTip])

theorem ReorgPlan.txn_eq (plan : ReorgPlan) (hash : String) :
    plan.txn hash = plan.unflagged ++ [.setChainTipActive hash] := by
  simp [ReorgPlan.txn, ReorgPlan.unflagged]

/-- **A reorg** tells what it took off, and nothing where it took nothing. -/
theorem reorg_journaled (h : Live params offered db.headers chain) (hrec : Recorded db chain)
    (hrow : row ∈ db.rows) (htip : chainTip db.rows = some tip)
    (hne : tip.hash ≠ row.hash) {plan : ReorgPlan} {above below path : List BlockHeader}
    {ancestor : BlockHeader}
    (hspec : PlanSpec db.headers chain row.toBlockHeader plan above ancestor below path) (now : Nat) :
    Recorded (execAll now (plan.txn row.hash) db) (path ++ ancestor :: below) ∧
      ∃ events, (execAll now (plan.txn row.hash) db).journal.moves =
        db.journal.moves ++ events ∧
        Told chain (path ++ ancestor :: below) events (.ok plan.deactivated) := by
  have hafter := h.reorg hrow hspec
  have hhead : (path ++ ancestor :: below).head? = some row.toBlockHeader := by
    rw [← hspec.head]
    cases path <;> rfl
  have hlinked := h.linked
  rw [hspec.chain_eq] at hlinked
  have hb : Rebranch chain (path ++ ancestor :: below) above path (ancestor :: below) := by
    refine ⟨hspec.chain_eq, rfl, fun x hx hm => ?_, fun _ => List.cons_ne_nil _ _⟩
    rcases List.mem_append.mp hm with hm | hm
    · refine hspec.apart x hm ?_
      rw [hspec.chain_eq]
      exact List.mem_append_left _ hx
    · have hgt := chain_height_above hlinked x hx
      rcases List.mem_cons.mp hm with rfl | hm
      · omega
      · have := chain_height_below hlinked x hm
        omega
  have hquiet : ∀ stmt ∈ plan.unflagged, ¬stmt.Flags := by
    intro stmt hs
    simp only [ReorgPlan.unflagged, List.mem_cons, List.mem_append, List.mem_map,
      List.not_mem_nil, or_false] at hs
    rcases hs with rfl | ⟨x, -, rfl⟩ | rfl | rfl <;> exact id
  have hnew : ∀ old, chain.head? = some old → old.hash ≠ row.hash := by
    intro old hold
    rw [h.chainTip_eq htip, Option.some_inj] at hold
    exact hold ▸ hne
  have hfinal := hafter.toActiveChain
  rw [plan.txn_eq] at hfinal ⊢
  obtain ⟨hrec', events, hm, hp⟩ := recorded_of_flags hrec h.linked h.stored hquiet hfinal hb
    hspec.within hhead hnew now
  refine ⟨hrec', events, hm, ?_⟩
  rw [hspec.depth]
  by_cases ha : above = []
  · obtain ⟨tip, -, rfl⟩ := hp.quiet ha
    refine .onward ?_ (by simp [ChainEvent.isReorg]) fun d hd => ?_
    · rw [hspec.chain_eq, ha, List.nil_append]
      exact List.suffix_append _ _
    · cases hd
      rw [ha]
      rfl
  · obtain ⟨headers, tip, hlists, ht, rfl⟩ := hp.told ancestor below ha rfl
    exact .reorged hspec.chain_eq ha hb.apart hlists ht

theorem Told.of_zero {chain' : List BlockHeader} {events : List ChainEvent}
    {answer : Except Fault Nat} (h : Told chain chain' events (.ok 0))
    (hnone : ∀ depth, answer = .ok depth → depth = 0) : Told chain chain' events answer := by
  generalize hzero : (.ok 0 : Except Fault Nat) = zero at h
  cases h with
  | onward kept quiet _ => exact .onward kept quiet hnone
  | reorged split takes =>
    injection hzero with hzero
    exact absurd (List.length_eq_zero_iff.mp hzero.symm) takes

/-- **The tip's move is told**, however it ends. -/
theorem Settled.journaled {new : LinkedHeader} {tip : Option HeaderRow} {w w' : World}
    {answer : Except Fault Nat} (hsettled : Settled env new tip w answer w')
    (tree : HeaderTree params offered) (h : Live params offered w.db.headers chain)
    (hrec : Recorded w.db chain) (stored : row ∈ w.db.rows)
    (same : row.toBlockHeader = new.toBlockHeader)
    (link : new.previousHeaderId = none ∨ new.previousHeaderId = row.previousHeaderId)
    (flagged : tip = chainTip w.db.rows)
    (outworks : ∀ t, tip = some t → t.chainWork < row.chainWork) :
    Journaled params offered w.db chain answer w'.db := by
  have hhash : new.hash = row.hash := (congrArg BlockHeader.hash same).symm
  have hreorg : ∀ t plan now, tip = some t → planReorg w.db.rows new t.linked = .ok plan →
      ∃ chain', Live params offered (execAll now (plan.txn row.hash) w.db).headers chain' ∧
        chain'.head? = some row.toBlockHeader ∧
        Recorded (execAll now (plan.txn row.hash) w.db) chain' ∧
        ∃ events, (execAll now (plan.txn row.hash) w.db).journal.moves =
          w.db.journal.moves ++ events ∧ Told chain chain' events (.ok plan.deactivated) := by
    intro t plan now ht hplan
    obtain ⟨above, ancestor, below, path, hspec⟩ :=
      h.plan_spec tree ⟨row, stored, same, link⟩ (flagged.symm.trans ht) hplan
    rw [← same] at hspec
    have hne : t.hash ≠ row.hash := by
      intro he
      have := outworks t ht
      rw [HeaderTable.eq_of_hash (chainTip_mem (flagged.symm.trans ht)) stored he] at this
      exact Nat.lt_irrefl _ this
    refine ⟨path ++ ancestor :: below, ?_, ?_, reorg_journaled h hrec stored
      (flagged.symm.trans ht) hne hspec now⟩
    · rw [execAll_headers]
      exact h.reorg stored hspec
    · rw [← hspec.head]
      cases path <;> rfl
  cases hsettled with
  | failed fault w' hsame why =>
    rw [hsame]
    exact .same h hrec nofun
  | moved now w' stands left =>
    rw [left, hhash]
    cases ht : tip with
    | none =>
      have hempty : w.db.rows = [] := (h.empty_of_chainTip (flagged.symm.trans ht)).1
      rw [hempty] at stored
      cases stored
    | some t =>
      have hprev : row.previousHash = t.hash :=
        (congrArg BlockHeader.previousHash same).trans (stands t ht)
      have hquiet : ∀ stmt ∈ [Stmt.clearChainTip], ¬stmt.Flags := by simp [Stmt.Flags]
      exact .extension h hrec hquiet (h.moveTip tree stored (flagged.symm.trans ht) hprev) now
  | reorged t plan now w' ht apart planned takes left =>
    obtain ⟨chain', hlive', -, hrec', events, hm, htold⟩ := hreorg t plan now ht planned
    rw [left, hhash]
    exact ⟨chain', events, hlive', hrec', hm, htold⟩
  | crowned t plan now w₁ w' answer ht apart planned takes first second =>
    -- nothing was taken off, and the second transaction flags the row that is flagged
    obtain ⟨chain', hlive', hhead, hrec', events, hm, htold⟩ := hreorg t plan now ht planned
    rw [takes] at htold
    rw [← hhash, ← first] at hlive' hrec' hm
    rcases second with ⟨rfl, -, hdb⟩ | ⟨now', rfl, hdb⟩
    · rw [hdb]
      exact ⟨chain', events, hlive', hrec', hm, htold.of_zero nofun⟩
    · obtain ⟨r, hr, hre⟩ := hlive'.exists_chainTip hhead
      have hrhash : new.hash = r.hash := hhash.trans (congrArg BlockHeader.hash hre).symm
      obtain ⟨hrec'', hm''⟩ := hrec'.moveTip_same hlive' (chainTip_mem hr) (chainTip_isChainTip hr)
        now'
      rw [hdb, hrhash]
      refine ⟨chain', events, ?_, hrec'', hm''.trans hm, htold⟩
      rw [execAll_headers]
      exact hlive'.moveTip_same (chainTip_mem hr) (chainTip_isChainTip hr)

/-- **A call of `insert_header` is told.** -/
theorem Inserted.journaled {w w' : World} {answer : Except Fault InsertHeaderResult}
    (hins : Inserted env params header w answer w') (tree : HeaderTree params offered)
    (hoffered : offered header) (h : Live params offered w.db.headers chain)
    (hrec : Recorded w.db chain) :
    Journaled params offered w.db chain (answer.map (·.reorgDepth)) w'.db := by
  cases hins with
  | failed fault w' hsame why =>
    rw [hsame]
    exact .same h hrec nofun
  | dupe row found => exact .same h hrec fun d hd => by cases hd; rfl
  | stored a now w' pow fresh admitted alone left =>
    have hlive := h.insertion tree hoffered fresh (admission_ok admitted)
    rw [left]
    cases hact : a.isActive header with
    | true =>
      rw [hact, if_pos rfl] at hlive
      have htxn : a.txn header = [a.insertion header, .clearChainTip] ++
          [.setChainTipActive header.hash] := if_pos hact
      have hquiet : ∀ stmt ∈ [a.insertion header, .clearChainTip], ¬stmt.Flags := by
        simp [Stmt.Flags, Admission.insertion]
      rw [htxn] at hlive ⊢
      exact .extension h hrec hquiet hlive now
    | false =>
      rw [hact, if_neg Bool.false_ne_true] at hlive
      have hquiet : ∀ stmt ∈ a.txn header, ¬stmt.Flags := by
        rw [Admission.txn, hact]
        simp [Stmt.Flags, Admission.insertion]
      exact .quiet hrec hquiet hlive now fun d hd => by cases hd; rfl
  | settled a now w₁ w' depth pow fresh admitted takes beside first second =>
    have had := admission_ok admitted
    have hquiet : ∀ stmt ∈ a.txn header, ¬stmt.Flags := by
      rw [Admission.txn, beside]
      simp [Stmt.Flags, Admission.insertion]
    have hlive := h.insertion tree hoffered fresh had
    rw [beside, if_neg Bool.false_ne_true, ← execAll_headers now, ← first] at hlive
    obtain ⟨r, hr, hre, hrest⟩ := insertion_row fresh
    obtain ⟨hwork, -, htip⟩ := hrest beside
    rw [← execAll_headers now, ← first] at hr htip
    have hanswer : (depth.map fun reorgDepth => { a.result header with reorgDepth }).map
        (·.reorgDepth) = depth := by
      cases depth <;> rfl
    rw [hanswer]
    refine Journaled.after_quiet first hquiet ?_
    refine second.journaled tree hlive (first ▸ hrec.quiet hquiet now) hr hre (.inl rfl)
      (had.tip.trans htip.symm) fun t ht => ?_
    rw [hwork]
    unfold Admission.becomesTip at takes
    rw [ht] at takes
    exact of_decide_eq_true (Bool.and_eq_true_iff.mp takes).2

/-- **A call of `relink_orphan_and_reevaluate` is told.** -/
theorem Relinking.journaled {hash : String} {w w' : World}
    {answer : Except Fault InsertHeaderResult} (hrel : Relinking env params hash w answer w')
    (tree : HeaderTree params offered) (h : Live params offered w.db.headers chain)
    (hrec : Recorded w.db chain) :
    Journaled params offered w.db chain (answer.map (·.reorgDepth)) w'.db := by
  have hquiet : ∀ stored parent chainWork, ∀ stmt ∈ relinkTxn stored parent chainWork,
      ¬stmt.Flags := by
    simp [Stmt.Flags, relinkTxn]
  cases hrel with
  | failed fault w' hsame why =>
    rw [hsame]
    exact .same h hrec nofun
  | unknown planned => exact .same h hrec fun d hd => by cases hd; rfl
  | noParent planned => exact .same h hrec fun d hd => by cases hd; rfl
  | linked stored parent chainWork now w' planned left stays =>
    have hlink := planRelink_link planned
    have hlive := h.relink (headerForHash_mem hlink.found) (headerForHash_mem hlink.foundParent)
      (headerForHash_hash hlink.foundParent) chainWork
    rw [left]
    exact .quiet hrec (hquiet stored parent chainWork) hlive now fun d hd => by cases hd; rfl
  | settled stored parent chainWork now w₁ w' depth planned first takes second =>
    have hlink := planRelink_link planned
    have hlive := h.relink (headerForHash_mem hlink.found) (headerForHash_mem hlink.foundParent)
      (headerForHash_hash hlink.foundParent) chainWork
    have hrow : { stored with
        toRowCells := { stored.toRowCells with
          previousHeaderId := some parent.headerId, chainWork } } ∈
        (onHeadersAll (relinkTxn stored parent chainWork) w.db.headers).rows :=
      HeaderTable.mem_update.mpr ⟨stored, headerForHash_mem hlink.found,
        by rw [if_pos (beq_self_eq_true _)]⟩
    change Live params offered (onHeadersAll (relinkTxn stored parent chainWork) _) chain at hlive
    rw [← execAll_headers now, ← first] at hlive hrow
    have hanswer : (depth.map fun reorgDepth =>
        ({ dupe := true, isActiveTip := true, reorgDepth } : InsertHeaderResult)).map
        (·.reorgDepth) = depth := by
      cases depth <;> rfl
    rw [hanswer]
    refine Journaled.after_quiet first (hquiet stored parent chainWork) ?_
    refine second.journaled tree hlive (first ▸ hrec.quiet (hquiet stored parent chainWork) now)
      hrow rfl (.inr rfl) rfl fun t ht => ?_
    rw [ht] at takes
    exact of_decide_eq_true takes

end Calls

/-! ### The faithful record -/

/-- The nearest common ancestor of two headers, by the parents stored. -/
structure CommonAncestor (rows : List HeaderRow) (a b c : BlockHeader) : Prop where
  left : Forest.Up (parentOf rows) a c
  right : Forest.Up (parentOf rows) b c
  nearest : ∀ d, Forest.Up (parentOf rows) a d → Forest.Up (parentOf rows) b d →
    d.height ≤ c.height

/-- **A reorg event that is right** about the call that journalled it: it lists the headers
that were active above the common ancestor of the tip announced before and the new one, each
once, from the old tip down. -/
def ReorgRecord (before : Store) (answer : Except Fault InsertHeaderResult) (after : Store)
    (forkHeight depth : Nat) (headers : List BlockHeader) (newTip : BlockHeader) : Prop :=
  ∃ old tip ancestor, chainTip before.rows = some old ∧
    before.journal.newestTip = some (old.height, old.hash) ∧ chainTip after.rows = some tip ∧
    newTip = tip.toBlockHeader ∧
    CommonAncestor after.rows old.toBlockHeader tip.toBlockHeader ancestor ∧
    (∀ h, h ∈ headers ↔ ∃ r ∈ before.rows, r.isActive = true ∧ r.toBlockHeader = h ∧
      ancestor.height < h.height) ∧
    headers.Nodup ∧ headers.head? = some old.toBlockHeader ∧ headers.IsChain ChildOf ∧
    depth = headers.length ∧ (∃ result, answer = .ok result ∧ result.reorgDepth = depth) ∧
    forkHeight = ancestor.height + 1

/-- A row active before is inactive after. -/
def Deactivates (before after : Store) : Prop :=
  ∃ r ∈ before.rows, r.isActive = true ∧ ∃ r' ∈ after.rows, r'.hash = r.hash ∧ r'.isActive = false

/-- **The record of a call**: the newest tip event is of the flagged tip; the moves the
journal gained hold a reorg just where the call deactivated a row, at most one, and it is
right. -/
structure FaithfulRecord (before : Store) (answer : Except Fault InsertHeaderResult)
    (after : Store) : Prop where
  newest : after.journal.newestTip = (chainTip after.rows).map fun tip => (tip.height, tip.hash)
  gained : ∃ events, after.journal.moves = before.journal.moves ++ events ∧
    (∀ forkHeight depth headers newTip, .reorg forkHeight depth headers newTip ∈ events →
      ReorgRecord before answer after forkHeight depth (headers.map (·.toBlockHeader))
        newTip.toBlockHeader) ∧
    ((∃ e ∈ events, e.isReorg = true) ↔ Deactivates before after) ∧
    (events.filter (·.isReorg)).length ≤ 1

section Record

variable {env : Env} {params : ChainParams} {offered : BlockHeader → Prop} {before after : Store}
  {chain chain' above below path : List BlockHeader} {ancestor old new : BlockHeader}

theorem Recorded.newest_eq (h : Live params offered after.headers chain)
    (hrec : Recorded after chain) :
    after.journal.newestTip = (chainTip after.rows).map fun tip => (tip.height, tip.hash) := by
  rw [hrec.newest]
  cases ht : chainTip after.rows with
  | none =>
    rw [(h.empty_of_chainTip ht).2]
    rfl
  | some tip =>
    rw [h.chainTip_eq ht]
    rfl

/-- The ancestor a reorg was planned on is the nearest common one. -/
theorem commonAncestor_of_reorg (h : Live params offered after.headers (path ++ ancestor :: below))
    (hl : (above ++ ancestor :: below).IsChain ChildOf)
    (hs : ∀ x ∈ above ++ ancestor :: below, ∃ row ∈ after.rows, row.toBlockHeader = x)
    (hapart : ∀ x ∈ above, x ∉ path ++ ancestor :: below)
    (hold : (above ++ ancestor :: below).head? = some old)
    (hnew : (path ++ ancestor :: below).head? = some new) :
    CommonAncestor after.rows old new ancestor where
  left := up_of_linked hl hs hold (by simp)
  right := h.up_of_mem hnew (by simp)
  nearest d hleft hright := by
    have hd := h.up_chain (List.mem_of_head? hnew) hright
    by_contra hgt
    -- a nearer one would be on the old chain too
    have hle : d.height ≤ old.height := hleft.rank_le parentOf_rank
    have hne : above ++ ancestor :: below ≠ [] := by simp
    have hlast := List.getLast?_eq_some_getLast hne
    have hlo := chain_last_le hl hlast ancestor (by simp)
    obtain ⟨x, hx, hxd⟩ : ∃ x ∈ above ++ ancestor :: below, x.height = d.height :=
      chain_exists_height hl hold hlast (by omega) hle
    have heq : d = x := hleft.eq_of_rank parentOf_rank (up_of_linked hl hs hold hx) hxd.symm
    rw [← heq] at hx
    rcases List.mem_append.mp hx with hx | hx
    · exact hapart d hx hd
    · rcases List.mem_cons.mp hx with rfl | hx
      · omega
      · have := chain_height_below hl d hx
        omega

/-- What is told of a call is a faithful record of it. -/
theorem Journaled.faithful {answer : Except Fault InsertHeaderResult}
    (h : Live params offered before.headers chain) (hrec : Recorded before chain)
    (hkeeps : ∀ row ∈ before.rows, ∃ r ∈ after.rows, r.toBlockHeader = row.toBlockHeader)
    (hj : Journaled params offered before chain (answer.map (·.reorgDepth)) after) :
    FaithfulRecord before answer after := by
  obtain ⟨chain', events, hlive, hrec', hm, htold⟩ := hj
  refine ⟨hrec'.newest_eq hlive, events, hm, ?_⟩
  have hactive : ∀ r ∈ after.rows, ∀ x ∈ chain', r.hash = x.hash → r.isActive = true := by
    intro r hr x hx hh
    obtain ⟨r', hr', rfl⟩ := hlive.stored x hx
    rw [HeaderTable.eq_of_hash hr hr' hh]
    exact (hlive.active r' hr').mpr hx
  generalize hdepth : answer.map (·.reorgDepth) = depth at htold
  cases htold with
  | onward kept quiet none =>
    have hno : ¬∃ e ∈ events, e.isReorg = true := by
      rintro ⟨e, he, hr⟩
      rw [quiet e he] at hr
      cases hr
    refine ⟨fun _ _ _ _ he => absurd ⟨_, he, rfl⟩ hno, iff_of_false hno ?_, ?_⟩
    · rintro ⟨r, hr, hact, r', hr', hh, hoff⟩
      rw [hactive r' hr' _ (kept.subset ((h.active r hr).mp hact)) hh] at hoff
      cases hoff
    · rw [List.filter_eq_nil_iff.mpr fun e he => by rw [quiet e he]; exact Bool.false_ne_true]
      exact Nat.zero_le _
  | reorged split takes apart lists head =>
    rename_i above below path ancestor headers tip
    obtain ⟨result, rfl, hresult⟩ : ∃ result, answer = .ok result ∧
        result.reorgDepth = above.length := by
      cases answer with
      | error e => cases hdepth
      | ok result => exact ⟨result, rfl, Except.ok.inj hdepth⟩
    obtain ⟨top, rest, rfl⟩ := List.exists_cons_of_ne_nil takes
    have hl := h.linked
    have hhead : chain.head? = some top := by rw [split]; rfl
    obtain ⟨old, hold, rfl⟩ := h.exists_chainTip hhead
    obtain ⟨new, hnew, hne⟩ := hlive.exists_chainTip head
    refine ⟨?_, iff_of_true ⟨_, List.mem_cons_self, rfl⟩ ?_, ?_⟩
    · intro forkHeight depth headers' newTip he
      have he' := List.mem_cons.mp he |>.resolve_right (by simp)
      cases he'
      have hstored : ∀ x ∈ chain, ∃ row ∈ after.rows, row.toBlockHeader = x := by
        intro x hx
        obtain ⟨row, hrow, rfl⟩ := h.stored x hx
        exact hkeeps row hrow
      rw [split] at hl hstored
      refine ⟨old, new, ancestor, hold, ?_, hnew, hne.symm, ?_, ?_, ?_, ?_, ?_, ?_, ⟨result, rfl, hresult⟩,
        rfl⟩
      · rw [hrec.newest, hhead]
        rfl
      · rw [hne]
        exact commonAncestor_of_reorg hlive hl hstored apart rfl head
      · intro x
        rw [lists]
        constructor
        · intro hx
          obtain ⟨r, hr, rfl⟩ := h.stored x (split ▸ List.mem_append_left _ hx)
          exact ⟨r, hr, (h.active r hr).mpr (split ▸ List.mem_append_left _ hx), rfl,
            chain_height_above hl _ hx⟩
        · rintro ⟨r, hr, hact, rfl, hlt⟩
          have hx := (h.active r hr).mp hact
          rw [split] at hx
          refine (List.mem_append.mp hx).resolve_right fun hx => ?_
          rcases List.mem_cons.mp hx with heq | hx
          · rw [heq] at hlt
            omega
          · have := chain_height_below hl _ hx
            omega
      · rw [lists]
        exact (chain_nodup hl).of_append_left
      · rw [lists]
        rfl
      · rw [lists]
        exact (List.isChain_append.mp hl).1
      · rw [lists]
    · obtain ⟨r, hr, hre⟩ := hkeeps old (chainTip_mem hold)
      refine ⟨old, chainTip_mem hold, (h.active old (chainTip_mem hold)).mpr
        (List.mem_of_head? hhead), r, hr, congrArg BlockHeader.hash hre, ?_⟩
      rw [← Bool.not_eq_true, hlive.active r hr, hre]
      exact apart _ List.mem_cons_self
    · exact Nat.le_refl _

theorem Recorded.init : Recorded World.init.db [] := ⟨rfl, rfl, rfl⟩

end Record

/-! ### Runs -/

/-- The two calls whose record is kept. -/
inductive LiveOp
  | insertHeader (header : BlockHeader)
  | relinkOrphanAndReevaluate (hash : String)

/-- The writer of an operation. -/
def LiveOp.writer (env : Env) (params : ChainParams) : LiveOp → Writer InsertHeaderResult
  | insertHeader header => Chaintracks.insertHeader env params header
  | relinkOrphanAndReevaluate hash => Chaintracks.relinkOrphanAndReevaluate env params hash

/-- The header an operation offers is of a set. -/
def LiveOp.Offers (offered : BlockHeader → Prop) : LiveOp → Prop
  | insertHeader header => offered header
  | relinkOrphanAndReevaluate _ => True

/-- The world a run of operations leaves. -/
def runOps (env : Env) (params : ChainParams) (ops : List LiveOp) (w : World) : World :=
  ops.foldl (fun w op => (op.writer env params w).2) w

section Runs

variable {env : Env} {params : ChainParams} {offered : BlockHeader → Prop}

theorem LiveOp.journaled (env : Env) {op : LiveOp} (tree : HeaderTree params offered)
    (hoffers : op.Offers offered)
    {w : World} {chain : List BlockHeader} (h : Live params offered w.db.headers chain)
    (hrec : Recorded w.db chain) :
    Journaled params offered w.db chain ((op.writer env params w).1.map (·.reorgDepth))
      (op.writer env params w).2.db := by
  cases op with
  | insertHeader header => exact (insertHeader_cases rfl).journaled tree hoffers h hrec
  | relinkOrphanAndReevaluate hash => exact (relink_cases rfl).journaled tree h hrec

theorem LiveOp.keeps {op : LiveOp} (hoffers : op.Offers offered) (w : World) :
    ∀ row ∈ w.db.rows, ∃ r ∈ (op.writer env params w).2.db.rows,
      r.toBlockHeader = row.toBlockHeader := by
  intro row hrow
  cases op with
  | insertHeader header => exact steps_keep (via_insertHeader env params hoffers w) hrow
  | relinkOrphanAndReevaluate hash =>
    have hvia : Prog.Via (Step params (LiveMove params offered))
        (Chaintracks.relinkOrphanAndReevaluate env params hash) w := via_relink env params hash w
    exact steps_keep hvia hrow

/-- Every store a run of operations leaves is live, and its journal tells of the chain. -/
theorem recorded_runOps (env : Env) (tree : HeaderTree params offered) {ops : List LiveOp}
    (hoffers : ∀ op ∈ ops, op.Offers offered) {w : World} {chain : List BlockHeader}
    (h : Live params offered w.db.headers chain) (hrec : Recorded w.db chain) :
    ∃ chain', Live params offered (runOps env params ops w).db.headers chain' ∧
      Recorded (runOps env params ops w).db chain' := by
  induction ops generalizing w chain with
  | nil => exact ⟨chain, h, hrec⟩
  | cons op ops ih =>
    obtain ⟨hop, hops⟩ := List.forall_mem_cons.mp hoffers
    obtain ⟨chain', -, h', hrec', -⟩ := LiveOp.journaled env tree hop h hrec
    exact ih hops h' hrec'

/-- **The journal is a faithful record of the live chain**: of every operation after every
run of operations, whatever the database refused. -/
theorem faithfulRecord_run (env : Env) (params : ChainParams) (tree : HeaderTree params offered)
    (ops : List LiveOp) (op : LiveOp) (hops : ∀ op ∈ ops, op.Offers offered)
    (hop : op.Offers offered) :
    FaithfulRecord (runOps env params ops .init).db
      (op.writer env params (runOps env params ops .init)).1
      (op.writer env params (runOps env params ops .init)).2.db := by
  obtain ⟨chain, h, hrec⟩ := recorded_runOps env tree hops Live.init Recorded.init
  exact (LiveOp.journaled env tree hop h hrec).faithful h hrec (LiveOp.keeps hop _)

open Regtest in
/-- A reorg of two rows, one of them returned to later. -/
theorem faithfulRecord_run_reorg :
    FaithfulRecord
      (runOps host Regtest.params [.insertHeader genesis, .insertHeader a1, .insertHeader a2,
        .insertHeader b1, .insertHeader b2] .init).db
      ((LiveOp.insertHeader b3).writer host Regtest.params
        (runOps host Regtest.params [.insertHeader genesis, .insertHeader a1, .insertHeader a2,
          .insertHeader b1, .insertHeader b2] .init)).1
      ((LiveOp.insertHeader b3).writer host Regtest.params
        (runOps host Regtest.params [.insertHeader genesis, .insertHeader a1, .insertHeader a2,
          .insertHeader b1, .insertHeader b2] .init)).2.db :=
  faithfulRecord_run host Regtest.params regtest_tree _ _ (by simp [LiveOp.Offers, known])
    (by simp [LiveOp.Offers, known])

end Runs

end Chaintracks

import Chaintracks.Sync
import Chaintracks.Regtest
import Chaintracks.Library.Buckets

/-!
# The link check

`Chaintracks.linkCheckSpans` walks the children of an interval of heights span by span and
lists those whose parent by height is not the row they name; it stops when it has listed
`Chaintracks.linkMaxBroken` of them, and says from which height to ask again.

The list of a span is one list a height (`Chaintracks.brokenLinks_eq`), so spans do not
show: whatever the span, the answer is the first so many of the interval's broken links
(`Chaintracks.linkCheckSpans_eq`). Where an active row stands at the upper end, no broken
link and the right number of rows say that the interval is linked and has one row a height
(`Chaintracks.linked_iff`); where none stands there, rows below can be too many and make up
for it. Asking again loses nothing, and comes to an end where each height has fewer broken
links than one answer carries (`Chaintracks.askAgain_ends`): a broken link is a pair of
rows, and a height with few rows may have many.
-/

namespace Chaintracks

open HeaderRows

/-! ### The walk -/

/-- `LinkReport`, with all its fields. -/
structure LinkAnswer where
  fromHeight : Nat
  toHeight : Nat
  rows : Nat
  linked : Bool
  broken : List BrokenLink
  truncated : Bool
  checkedThrough : Nat
  deriving DecidableEq

section Walk

variable (rows : List HeaderRow)

/-- `SQL_COUNT_ACTIVE_BETWEEN`. -/
def countActiveBetween (lo hi : Nat) : Nat :=
  (rows.filter fun r => r.isActive && (lo ≤ r.height && r.height ≤ hi)).length

/-- The loop of `link_check_spans` from `lo`, with a bound on how often it turns: what is
listed when it stops, and where it was cut off. -/
def linkWalk (span hi : Nat) : Nat → Nat → List BrokenLink → List BrokenLink × Option Nat
  | 0, _, broken => (broken, none)
  | fuel + 1, lo, broken =>
    if lo < hi then
      -- the sum saturates at the largest height, which the minimum hides
      let mid := min (lo + max span 1) hi
      let room := linkMaxBroken - broken.length
      let found := (brokenLinks rows lo mid).take (room + 1)
      let broken := broken ++ found.take room
      if room < found.length then (broken, some ((broken.getLast?.map (·.height)).getD lo))
      else linkWalk span hi fuel mid broken
    else (broken, none)

/-- `link_check_spans`. -/
def linkCheckSpans (fromHeight : Nat) (toHeight : Option Nat) (span : Nat) : LinkAnswer :=
  let toHeight := max (toHeight.getD (((highestActive rows).map (·.height)).getD fromHeight))
    fromHeight
  let walked := linkWalk rows span toHeight (toHeight - fromHeight) fromHeight []
  { fromHeight := fromHeight
    toHeight := toHeight
    rows := countActiveBetween rows fromHeight toHeight
    linked := walked.1.isEmpty
    broken := walked.1
    truncated := walked.2.isSome
    checkedThrough := walked.2.getD toHeight }

/-- Heights one read of the link check covers. -/
def linkSpan : Nat := 50000

/-- `link_check`. -/
def linkCheck (fromHeight : Nat) (toHeight : Option Nat) : LinkAnswer :=
  linkCheckSpans rows fromHeight toHeight linkSpan

/-- Asking again from where the answer was cut off, at most so often: everything listed, if
it comes to an end. -/
def askAgain (toHeight : Nat) : Nat → Nat → Option (List BrokenLink)
  | 0, _ => none
  | fuel + 1, fromHeight =>
    let answer := linkCheck rows fromHeight (some toHeight)
    if answer.truncated then
      (askAgain toHeight fuel answer.checkedThrough).map (answer.broken ++ ·)
    else some answer.broken

end Walk

/-! ### One height at a time -/

/-- The broken links of one child: one for each row active below that it does not name, or
one where no row is active below. -/
def brokenBelow (rows : List HeaderRow) (child : HeaderRow) : List BrokenLink :=
  match rows.filter fun p => p.isActive && p.height == child.height - 1 with
  | [] => [⟨child.height - 1, none, child.previousHash, child.hash⟩]
  | below => (below.filter fun p => p.hash != child.previousHash).map fun p =>
      ⟨child.height - 1, some p.hash, child.previousHash, child.hash⟩

/-- The active rows at a height. -/
def activeAt (rows : List HeaderRow) (height : Nat) : List HeaderRow :=
  rows.filter fun r => r.isActive && r.height == height

/-- The broken links of the children at a height. -/
def brokenAt (rows : List HeaderRow) (height : Nat) : List BrokenLink :=
  (activeAt rows height).flatMap (brokenBelow rows)

section Heights

variable {rows : List HeaderRow} {lo mid hi h : Nat} {r : HeaderRow} {b : BrokenLink}

theorem mem_activeAt : r ∈ activeAt rows h ↔ r ∈ rows ∧ r.isActive = true ∧ r.height = h := by
  rw [activeAt, List.mem_filter, Bool.and_eq_true, beq_iff_eq]

/-- The active rows of an interval, one height at a time. -/
theorem activeHeadersBetween_eq : activeHeadersBetween rows lo hi =
    (List.range' lo (hi + 1 - lo)).flatMap (activeAt rows) := by
  have hin : ∀ r ∈ rows.filter fun r => r.isActive && (lo ≤ r.height && r.height ≤ hi),
      lo ≤ r.height ∧ r.height < lo + (hi + 1 - lo) := by
    rintro r hr
    simp only [List.mem_filter, Bool.and_eq_true, decide_eq_true_eq] at hr
    omega
  rw [activeHeadersBetween, Buckets.insertionSort_eq hin]
  refine List.flatMap_congr fun k hk => ?_
  rw [List.mem_range'_1] at hk
  rw [List.filter_filter, activeAt]
  refine List.filter_congr fun r _ => ?_
  rw [Bool.eq_iff_iff]
  simp only [Bool.and_eq_true, decide_eq_true_eq, beq_iff_eq]
  constructor
  · rintro ⟨hheight, hact, -⟩
    exact ⟨hact, hheight⟩
  · rintro ⟨hact, hheight⟩
    exact ⟨hheight, hact, by omega⟩

/-- **The broken links of an interval**, one height of its children at a time. -/
theorem brokenLinks_eq :
    brokenLinks rows lo hi = (List.range' (lo + 1) (hi - lo)).flatMap (brokenAt rows) := by
  have hrows : brokenLinks rows lo hi =
      (activeHeadersBetween rows (lo + 1) hi).flatMap (brokenBelow rows) := rfl
  rw [hrows, activeHeadersBetween_eq, List.flatMap_assoc, Nat.add_sub_add_right]
  rfl

/-- Two neighbouring intervals. -/
theorem brokenLinks_append (hlo : lo ≤ mid) (hhi : mid ≤ hi) :
    brokenLinks rows lo mid ++ brokenLinks rows mid hi = brokenLinks rows lo hi := by
  rw [brokenLinks_eq, brokenLinks_eq, brokenLinks_eq, ← Buckets.flatMap_append _ hlo hhi]

theorem brokenBelow_height (hb : b ∈ brokenBelow rows r) : b.height = r.height - 1 := by
  rw [brokenBelow] at hb
  split at hb
  · rw [List.mem_singleton] at hb
    rw [hb]
  · obtain ⟨p, -, rfl⟩ := List.mem_map.mp hb
    rfl

theorem mem_brokenLinks : b ∈ brokenLinks rows lo hi ↔
    lo ≤ b.height ∧ b.height < hi ∧ b ∈ brokenAt rows (b.height + 1) := by
  rw [brokenLinks_eq, List.mem_flatMap]
  constructor
  · rintro ⟨k, hk, hb⟩
    rw [List.mem_range'_1] at hk
    obtain ⟨r, hr, hbr⟩ := List.mem_flatMap.mp hb
    have hheight := brokenBelow_height hbr
    rw [(mem_activeAt.mp hr).2.2] at hheight
    have hk' : b.height + 1 = k := by omega
    exact ⟨by omega, by omega, hk' ▸ hb⟩
  · rintro ⟨hlo, hhi, hb⟩
    exact ⟨b.height + 1, List.mem_range'_1.mpr (by omega), hb⟩

/-- A child has no broken link exactly where one row or more are active below and it names
every one of them. -/
theorem brokenBelow_eq_nil : brokenBelow rows r = [] ↔
    activeAt rows (r.height - 1) ≠ [] ∧
      ∀ p ∈ activeAt rows (r.height - 1), p.hash = r.previousHash := by
  rw [brokenBelow]
  change (match activeAt rows (r.height - 1) with | [] => _ | below => _) = [] ↔ _
  cases hbelow : activeAt rows (r.height - 1) with
  | nil => simp
  | cons p below =>
    rw [List.map_eq_nil_iff, List.filter_eq_nil_iff]
    constructor
    · rintro h
      refine ⟨by simp, fun q hq => ?_⟩
      simpa using h q hq
    · rintro ⟨-, h⟩ q hq
      simpa using h q hq

end Heights

/-! ### Spans do not show -/

section Spans

variable {rows : List HeaderRow} {span lo hi fromHeight : Nat}

/-- What the walk answers of an interval's broken links: the first that fit, and where it
was cut off if not all did. -/
def cutOff (rows : List HeaderRow) (fromHeight hi : Nat) : List BrokenLink × Option Nat :=
  let broken := (brokenLinks rows fromHeight hi).take linkMaxBroken
  (broken, if linkMaxBroken < (brokenLinks rows fromHeight hi).length then
    some ((broken.getLast?.map (·.height)).getD fromHeight) else none)

/-- **The walk**, from where it stands: what it has listed is the broken links so far, and
fits. -/
theorem linkWalk_eq {fuel : Nat} (hfuel : hi - lo ≤ fuel) (hlo : fromHeight ≤ lo) (hhi : lo ≤ hi)
    (hroom : (brokenLinks rows fromHeight lo).length ≤ linkMaxBroken) :
    linkWalk rows span hi fuel lo (brokenLinks rows fromHeight lo) =
      cutOff rows fromHeight hi := by
  have hend : ∀ broken : List BrokenLink, broken.length ≤ linkMaxBroken →
      brokenLinks rows fromHeight hi = broken → (broken, none) = cutOff rows fromHeight hi := by
    rintro broken hle heq
    rw [cutOff, heq, List.take_of_length_le hle, if_neg (Nat.not_lt.mpr hle)]
  induction fuel generalizing lo with
  | zero =>
    obtain rfl : lo = hi := by omega
    exact hend _ hroom rfl
  | succ fuel ih =>
    rw [linkWalk]
    by_cases hlt : lo < hi
    · rw [if_pos hlt]
      dsimp only
      generalize hmid : min (lo + max span 1) hi = mid
      have hlomid : lo < mid := by omega
      have hmidhi : mid ≤ hi := by omega
      have hwhole := @brokenLinks_append rows _ _ _ hlo hlomid.le
      have hrest := @brokenLinks_append rows _ _ _ (hlo.trans hlomid.le) hmidhi
      have hlen := congrArg List.length hwhole
      have hlen' := congrArg List.length hrest
      rw [List.length_append] at hlen hlen'
      generalize hr : linkMaxBroken - (brokenLinks rows fromHeight lo).length = room
      have hfound : ((brokenLinks rows lo mid).take (room + 1)).length =
          min (room + 1) (brokenLinks rows lo mid).length := List.length_take
      by_cases hover : room < (brokenLinks rows lo mid).length
      · -- the span holds more than there is room for
        have hfirst : brokenLinks rows fromHeight lo ++
            ((brokenLinks rows lo mid).take (room + 1)).take room =
              (brokenLinks rows fromHeight hi).take linkMaxBroken := by
          rw [← hrest, ← hwhole, List.append_assoc, List.take_append, List.take_of_length_le hroom,
            hr, List.take_take, min_eq_left (Nat.le_succ room),
            List.take_append_of_le_length hover.le]
        have hpos : 0 < ((brokenLinks rows fromHeight hi).take linkMaxBroken).length := by
          rw [List.length_take]
          exact Nat.lt_min.mpr ⟨by decide, by omega⟩
        obtain ⟨b, hb⟩ : ∃ b, ((brokenLinks rows fromHeight hi).take linkMaxBroken).getLast? =
            some b := ⟨_, List.getLast?_eq_some_getLast (List.ne_nil_of_length_pos hpos)⟩
        rw [if_pos (by omega), cutOff, if_pos (by omega), hfirst, hb]
        rfl
      · rw [if_neg (by omega), List.take_take, min_eq_left (Nat.le_succ room),
          List.take_of_length_le (Nat.not_lt.mp hover), hwhole]
        exact ih (by omega) (by omega) hmidhi (by omega)
    · obtain rfl : lo = hi := by omega
      rw [if_neg hlt]
      exact hend _ hroom rfl

/-- **Spans do not show**: whatever the span, the answer is the first so many broken links
of the interval, and it is cut off exactly where there are more. -/
theorem linkCheckSpans_eq (rows : List HeaderRow) (span : Nat) {toHeight : Nat}
    (hle : fromHeight ≤ toHeight) :
    linkCheckSpans rows fromHeight (some toHeight) span =
      { fromHeight := fromHeight
        toHeight := toHeight
        rows := countActiveBetween rows fromHeight toHeight
        linked := ((brokenLinks rows fromHeight toHeight).take linkMaxBroken).isEmpty
        broken := (brokenLinks rows fromHeight toHeight).take linkMaxBroken
        truncated := (cutOff rows fromHeight toHeight).2.isSome
        checkedThrough := (cutOff rows fromHeight toHeight).2.getD toHeight } := by
  have hnone : brokenLinks rows fromHeight fromHeight = [] := by
    rw [brokenLinks_eq, Nat.sub_self]
    rfl
  have hwalk := @linkWalk_eq rows span fromHeight toHeight fromHeight _ le_rfl le_rfl hle
    (by rw [hnone]; exact Nat.zero_le _)
  rw [hnone] at hwalk
  rw [linkCheckSpans, Option.getD_some, max_eq_left hle, hwalk]
  rfl

/-- The report the heal works from is the check of the heights under the tip. -/
theorem linkState_broken (rows : List HeaderRow) (tip : Nat) :
    (linkState rows tip).broken =
      (linkCheck rows (linkState rows tip).fromHeight (some tip)).broken := by
  have hup : linkCheck rows (linkState rows tip).fromHeight (some tip) =
      linkCheck rows (linkState rows tip).fromHeight (some (linkState rows tip).toHeight) := by
    rw [linkCheck, linkCheck, linkCheckSpans, linkCheckSpans, Option.getD_some, Option.getD_some,
      max_eq_left (show (linkState rows tip).fromHeight ≤ (linkState rows tip).toHeight from
        le_max_right _ _)]
    rfl
  rw [hup, linkCheck, linkCheckSpans_eq rows linkSpan
    (show (linkState rows tip).fromHeight ≤ (linkState rows tip).toHeight from le_max_right _ _)]
  rfl

end Spans

/-! ### Linked, with one row a height -/

section Linked

variable {rows : List HeaderRow} {lo hi h : Nat} {r : HeaderRow}

/-- The rows of an interval of heights, by the number at each. -/
theorem countActiveBetween_eq : countActiveBetween rows lo hi =
    ((List.range' lo (hi + 1 - lo)).map fun k => (activeAt rows k).length).sum := by
  have hlen : countActiveBetween rows lo hi = (activeHeadersBetween rows lo hi).length := by
    rw [countActiveBetween, activeHeadersBetween, List.length_insertionSort]
  rw [hlen, activeHeadersBetween_eq, List.length_flatMap]

/-- The count of an interval whose heights below the last have one row each. -/
theorem countActiveBetween_of_one (hle : lo ≤ hi)
    (hone : ∀ h, lo ≤ h → h < hi → (activeAt rows h).length = 1) :
    countActiveBetween rows lo hi = hi - lo + (activeAt rows hi).length := by
  have hbelow : (List.range' lo (hi - lo)).map (fun k => (activeAt rows k).length) =
      List.replicate (hi - lo) 1 := by
    rw [List.map_congr_left (g := fun _ => 1), List.map_const', List.length_range']
    rintro k hk
    rw [List.mem_range'_1] at hk
    exact hone k hk.1 (by omega)
  rw [countActiveBetween_eq, Nat.succ_sub hle, List.range'_concat, List.map_append,
    List.sum_append, hbelow, List.sum_replicate, List.map_singleton, List.sum_singleton, Nat.one_mul,
    Nat.add_sub_cancel' hle, smul_eq_mul, Nat.mul_one]

/-- Exactly one active row at every height of the interval, each above the first naming the
one below. -/
structure LinkedBetween (rows : List HeaderRow) (lo hi : Nat) : Prop where
  one : ∀ h, lo ≤ h → h ≤ hi → ∃ r, activeAt rows h = [r]
  names : ∀ h, lo ≤ h → h < hi → ∀ p ∈ activeAt rows h, ∀ c ∈ activeAt rows (h + 1),
    c.previousHash = p.hash

/-- The interval's children name every row below them, and one stands there. -/
theorem brokenLinks_eq_nil : brokenLinks rows lo hi = [] ↔
    ∀ h, lo ≤ h → h < hi → ∀ c ∈ activeAt rows (h + 1),
      activeAt rows h ≠ [] ∧ ∀ p ∈ activeAt rows h, p.hash = c.previousHash := by
  rw [brokenLinks_eq, List.flatMap_eq_nil_iff]
  constructor
  · rintro hnone h hlo hlt c hc
    have hat := hnone (h + 1) (List.mem_range'_1.mpr (by omega))
    have hc' := List.flatMap_eq_nil_iff.mp hat c hc
    rw [brokenBelow_eq_nil, (mem_activeAt.mp hc).2.2] at hc'
    exact hc'
  · rintro hall k hk
    rw [List.mem_range'_1] at hk
    refine List.flatMap_eq_nil_iff.mpr fun c hc => ?_
    rw [brokenBelow_eq_nil, (mem_activeAt.mp hc).2.2]
    exact hall (k - 1) (by omega) (by omega) c (by rwa [Nat.sub_add_cancel (by omega)])

/-- Rows of one hash are one row. -/
theorem activeAt_single {t : HeaderTable} (hsome : activeAt t.rows h ≠ []) {hash : String}
    (hall : ∀ p ∈ activeAt t.rows h, p.hash = hash) : ∃ p, activeAt t.rows h = [p] := by
  obtain ⟨p, rest, hp⟩ := List.exists_cons_of_ne_nil hsome
  have hnodup : (activeAt t.rows h).Nodup :=
    (List.Nodup.of_map _ t.uniqueHash).filter _
  rw [hp] at hnodup hall
  refine ⟨p, hp.trans (congrArg (p :: ·) (List.eq_nil_iff_forall_not_mem.mpr fun q hq => ?_))⟩
  have hqp : q = p := by
    have hmem : ∀ r ∈ p :: rest, r ∈ t.rows := fun r hr => (mem_activeAt.mp (hp ▸ hr)).1
    exact HeaderTable.eq_of_hash (hmem q (List.mem_cons_of_mem _ hq)) (hmem p List.mem_cons_self)
      ((hall q (List.mem_cons_of_mem _ hq)).trans (hall p List.mem_cons_self).symm)
  exact (List.nodup_cons.mp hnodup).1 (hqp ▸ hq)

/-- **No broken link, and a row at the upper end**: every height below has exactly one. -/
theorem one_below {t : HeaderTable} (hnone : brokenLinks t.rows lo hi = [])
    (htop : activeAt t.rows hi ≠ []) (hlo : lo ≤ h) (hlt : h < hi) :
    ∃ p, activeAt t.rows h = [p] := by
  rw [brokenLinks_eq_nil] at hnone
  -- downward from the upper end: a height with a row has one below
  obtain ⟨n, hn⟩ : ∃ n, hi = h + 1 + n := ⟨hi - (h + 1), by omega⟩
  induction n generalizing h with
  | zero =>
    obtain ⟨c, hc⟩ := List.exists_mem_of_ne_nil _ htop
    have hc : c ∈ activeAt t.rows (h + 1) := hn ▸ hc
    obtain ⟨hsome, hall⟩ := hnone h hlo hlt c hc
    exact activeAt_single hsome hall
  | succ n ih =>
    obtain ⟨c, hc⟩ := @ih (h + 1) (by omega) (by omega) (by omega)
    obtain ⟨hsome, hall⟩ := hnone h hlo hlt c (by rw [hc]; exact List.mem_singleton_self c)
    exact activeAt_single hsome hall

/-- **No broken link and the right number of rows** say, where an active row stands at the
upper end, that each height has one active row and each names the one below. -/
theorem linked_iff {t : HeaderTable} (hle : lo ≤ hi) (htop : activeAt t.rows hi ≠ []) :
    brokenLinks t.rows lo hi = [] ∧ countActiveBetween t.rows lo hi = hi - lo + 1 ↔
      LinkedBetween t.rows lo hi := by
  constructor
  · rintro ⟨hnone, hcount⟩
    have hbelow := fun h hlo hlt => one_below (h := h) hnone htop hlo hlt
    rw [countActiveBetween_of_one hle fun h hlo hlt => by
      obtain ⟨p, hp⟩ := hbelow h hlo hlt
      rw [hp, List.length_singleton]] at hcount
    refine ⟨fun h hlo hhi => ?_, fun h hlo hlt p hp c hc => ?_⟩
    · rcases Nat.lt_or_eq_of_le hhi with hlt | rfl
      · exact hbelow h hlo hlt
      · exact List.length_eq_one_iff.mp (by omega)
    · exact ((brokenLinks_eq_nil.mp hnone h hlo hlt c hc).2 p hp).symm
  · rintro ⟨hone, hnames⟩
    have hlength : ∀ h, lo ≤ h → h ≤ hi → (activeAt t.rows h).length = 1 := by
      rintro h hlo hhi
      exact List.length_eq_one_iff.mpr (hone h hlo hhi)
    constructor
    · rw [brokenLinks_eq_nil]
      rintro h hlo hlt c hc
      refine ⟨?_, fun p hp => (hnames h hlo hlt p hp c hc).symm⟩
      rw [List.ne_nil_iff_length_pos, hlength h hlo hlt.le]
      exact Nat.one_pos
    · rw [countActiveBetween_of_one hle fun h hlo hlt => hlength h hlo hlt.le,
        hlength hi hle le_rfl]

end Linked

/-! ### Asking again -/

section Asking

variable {rows : List HeaderRow} {lo hi h fromHeight toHeight fuel : Nat} {b : BrokenLink}

/-- Broken links are listed upward. -/
theorem brokenLinks_ascending : (brokenLinks rows lo hi).Pairwise fun a b => a.height ≤ b.height := by
  have hat : ∀ k, ∀ b ∈ brokenAt rows k, b.height = k - 1 := by
    rintro k b hb
    obtain ⟨c, hc, hbc⟩ := List.mem_flatMap.mp hb
    rw [brokenBelow_height hbc, (mem_activeAt.mp hc).2.2]
  rw [brokenLinks_eq, List.pairwise_flatMap]
  constructor
  · rintro k -
    exact List.pairwise_of_forall_mem_list fun a ha b hb => by rw [hat k a ha, hat k b hb]
  · refine (List.pairwise_lt_range' 1 Nat.one_pos).imp fun {k k'} hlt => ?_
    rintro a ha b hb
    rw [hat k a ha, hat k' b hb]
    omega

/-- What an answer that was cut off says: the height of the last of its links, and that the
links it leaves out stand no lower. -/
theorem cutOff_some (hmore : linkMaxBroken < (brokenLinks rows lo hi).length) :
    ∃ last ∈ brokenLinks rows lo hi, (cutOff rows lo hi).2 = some last.height ∧
      ((brokenLinks rows lo hi).take linkMaxBroken).getLast? = some last ∧
      ∀ b ∈ (brokenLinks rows lo hi).drop linkMaxBroken, last.height ≤ b.height := by
  have hpos : 0 < ((brokenLinks rows lo hi).take linkMaxBroken).length := by
    rw [List.length_take]
    exact Nat.lt_min.mpr ⟨by decide, by omega⟩
  obtain ⟨last, hlast⟩ : ∃ b, ((brokenLinks rows lo hi).take linkMaxBroken).getLast? = some b :=
    ⟨_, List.getLast?_eq_some_getLast (List.ne_nil_of_length_pos hpos)⟩
  have hmem := List.mem_of_getLast? hlast
  refine ⟨last, List.mem_of_mem_take hmem, ?_, hlast, ?_⟩
  · rw [cutOff, if_pos hmore, hlast]
    rfl
  · rintro b hb
    have hasc := @brokenLinks_ascending rows lo hi
    rw [← List.take_append_drop linkMaxBroken (brokenLinks rows lo hi), List.pairwise_append] at hasc
    exact hasc.2.2 last hmem b hb

/-- An answer that was not cut off has them all. -/
theorem cutOff_none (hall : (brokenLinks rows lo hi).length ≤ linkMaxBroken) :
    (cutOff rows lo hi).2 = none := by
  rw [cutOff, if_neg (Nat.not_lt.mpr hall)]

/-- One turn of asking again. -/
theorem askAgain_succ (hle : fromHeight ≤ toHeight) : askAgain rows toHeight (fuel + 1) fromHeight =
    match (cutOff rows fromHeight toHeight).2 with
    | some height => (askAgain rows toHeight fuel height).map
        ((brokenLinks rows fromHeight toHeight).take linkMaxBroken ++ ·)
    | none => some ((brokenLinks rows fromHeight toHeight).take linkMaxBroken) := by
  rw [askAgain, linkCheck, linkCheckSpans_eq rows linkSpan hle]
  dsimp only
  cases (cutOff rows fromHeight toHeight).2 with
  | some height => rfl
  | none => rfl

/-- **Asking again loses nothing**: where it comes to an end, every broken link of the
interval was listed. -/
theorem askAgain_covers {all : List BrokenLink} (hle : fromHeight ≤ toHeight)
    (h : askAgain rows toHeight fuel fromHeight = some all) :
    ∀ b ∈ brokenLinks rows fromHeight toHeight, b ∈ all := by
  induction fuel generalizing fromHeight all with
  | zero => exact absurd h (by simp [askAgain])
  | succ fuel ih =>
    rw [askAgain_succ hle] at h
    by_cases hmore : linkMaxBroken < (brokenLinks rows fromHeight toHeight).length
    · obtain ⟨last, hlast, hcut, -, habove⟩ := cutOff_some hmore
      obtain ⟨hlo, hhi, -⟩ := mem_brokenLinks.mp hlast
      rw [hcut] at h
      obtain ⟨rest, hrest, rfl⟩ := Option.map_eq_some_iff.mp h
      rintro b hb
      rw [← List.take_append_drop linkMaxBroken (brokenLinks rows fromHeight toHeight),
        List.mem_append] at hb
      rcases hb with hb | hb
      · exact List.mem_append_left _ hb
      · -- what was left out stands in the interval asked for again
        obtain ⟨-, hbhi, hbat⟩ := mem_brokenLinks.mp (List.mem_of_mem_drop hb)
        exact List.mem_append_right _
          (ih hhi.le hrest b (mem_brokenLinks.mpr ⟨habove b hb, hbhi, hbat⟩))
    · rw [cutOff_none (Nat.not_lt.mp hmore), List.take_of_length_le (Nat.not_lt.mp hmore)] at h
      obtain rfl := Option.some_inj.mp h
      exact fun b hb => hb

/-- An answer that was cut off goes further up, where the first height did not fill it. -/
theorem cutOff_above (hfew : (brokenAt rows (lo + 1)).length < linkMaxBroken)
    (hmore : linkMaxBroken < (brokenLinks rows lo hi).length) :
    ∃ height, (cutOff rows lo hi).2 = some height ∧ lo < height ∧ height < hi := by
  obtain ⟨last, hlast, hcut, hget, -⟩ := cutOff_some hmore
  obtain ⟨-, hhi, -⟩ := mem_brokenLinks.mp hlast
  have hlohi : lo + 1 ≤ hi := by
    have := (mem_brokenLinks.mp hlast).1
    omega
  have hsplit := @brokenLinks_append rows lo (lo + 1) hi (Nat.le_add_right lo 1) hlohi
  have hfirst : brokenLinks rows lo (lo + 1) = brokenAt rows (lo + 1) := by
    rw [brokenLinks_eq, Nat.add_sub_cancel_left]
    simp
  rw [hfirst] at hsplit
  have hlen := congrArg List.length hsplit
  rw [List.length_append] at hlen
  -- the answer ends with a link of the heights above the first
  rw [← hsplit, List.take_append, List.take_of_length_le hfew.le] at hget
  have hrest : ((brokenLinks rows (lo + 1) hi).take
      (linkMaxBroken - (brokenAt rows (lo + 1)).length)) ≠ [] := by
    refine List.ne_nil_of_length_pos ?_
    rw [List.length_take]
    exact Nat.lt_min.mpr ⟨by omega, by omega⟩
  rw [List.getLast?_append_of_ne_nil _ hrest] at hget
  have habove := mem_brokenLinks.mp (List.mem_of_mem_take (List.mem_of_getLast? hget))
  exact ⟨_, hcut, habove.1, hhi⟩

/-- **Asking again comes to an end** where each height has fewer broken links than an answer
carries. -/
theorem askAgain_ends (hle : fromHeight ≤ toHeight)
    (hfew : ∀ h, fromHeight ≤ h → h < toHeight → (brokenAt rows (h + 1)).length < linkMaxBroken) :
    ∃ fuel all, askAgain rows toHeight fuel fromHeight = some all := by
  obtain ⟨n, hn⟩ : ∃ n, toHeight - fromHeight ≤ n := ⟨_, le_rfl⟩
  induction n generalizing fromHeight with
  | zero =>
    obtain rfl : fromHeight = toHeight := by omega
    have hnone : (cutOff rows fromHeight fromHeight).2 = none := by
      refine cutOff_none ?_
      rw [brokenLinks_eq, Nat.sub_self]
      exact Nat.zero_le _
    exact ⟨1, (brokenLinks rows fromHeight fromHeight).take linkMaxBroken,
      by rw [askAgain_succ le_rfl, hnone]⟩
  | succ n ih =>
    by_cases hmore : linkMaxBroken < (brokenLinks rows fromHeight toHeight).length
    · have hlt : fromHeight < toHeight := by
        by_contra hge
        obtain rfl : fromHeight = toHeight := by omega
        rw [brokenLinks_eq, Nat.sub_self] at hmore
        exact absurd hmore (Nat.not_lt_zero _)
      obtain ⟨height, hcut, hlo, hhi⟩ := cutOff_above (hfew fromHeight le_rfl hlt) hmore
      obtain ⟨fuel, all, hall⟩ := ih hhi.le
        (fun h hge hlt => hfew h (hlo.le.trans hge) hlt) (by omega)
      refine ⟨fuel + 1, (brokenLinks rows fromHeight toHeight).take linkMaxBroken ++ all, ?_⟩
      rw [askAgain_succ hle, hcut]
      dsimp only
      rw [hall, Option.map_some]
    · exact ⟨1, (brokenLinks rows fromHeight toHeight).take linkMaxBroken,
        by rw [askAgain_succ hle, cutOff_none (Nat.not_lt.mp hmore)]⟩

end Asking

/-- **The link check is sound, complete and span-independent.** Of every interval of
heights: where an active row stands at its upper end, it is reported linked with as many
rows as heights exactly where each height has one active row and each row above the first
names the one below; whatever the spans, the answer is the same; asking again while the
answer is cut off lists every broken link, if it comes to an end, and it does where each
height has fewer broken links than one answer carries. -/
theorem linkCheck_exact (t : HeaderTable) {lo hi : Nat} (hle : lo ≤ hi) :
    ((∃ r ∈ t.rows, r.isActive = true ∧ r.height = hi) →
        ((linkCheck t.rows lo (some hi)).linked = true ∧
          (linkCheck t.rows lo (some hi)).rows = hi - lo + 1 ↔ LinkedBetween t.rows lo hi)) ∧
      (∀ span span', linkCheckSpans t.rows lo (some hi) span =
        linkCheckSpans t.rows lo (some hi) span') ∧
      (∀ fuel all, askAgain t.rows hi fuel lo = some all →
        ∀ b ∈ brokenLinks t.rows lo hi, b ∈ all) ∧
      ((∀ h, lo ≤ h → h < hi → (brokenAt t.rows (h + 1)).length < linkMaxBroken) →
        ∃ fuel all, askAgain t.rows hi fuel lo = some all) := by
  refine ⟨?_, ?_, fun fuel all h => askAgain_covers hle h, askAgain_ends hle⟩
  · rintro ⟨r, hr, hact, hheight⟩
    have htop : activeAt t.rows hi ≠ [] :=
      List.ne_nil_of_mem (mem_activeAt.mpr ⟨hr, hact, hheight⟩)
    rw [linkCheck, linkCheckSpans_eq t.rows linkSpan hle, ← linked_iff hle htop]
    dsimp only
    rw [List.isEmpty_iff, List.take_eq_nil_iff, or_iff_right (by decide)]
  · rintro span span'
    rw [linkCheckSpans_eq t.rows span hle, linkCheckSpans_eq t.rows span' hle]

/-! ### Too many rows below, and too many links at a height -/

namespace Regtest

/-- An active row of a header. -/
def linkRow (header : BlockHeader) (headerId : Nat) : HeaderRow where
  toBlockHeader := header
  previousHeaderId := none
  isActive := true
  isChainTip := false
  chainWork := 0
  headerId := headerId

/-- The chain of `a2`. -/
def linkedTable : HeaderTable where
  rows := [linkRow genesis 1, linkRow a1 2, linkRow a2 3]
  uniqueHash := by decide +kernel
  uniqueId := by decide +kernel

/-- Two rivals at height 1, nothing at height 2, a row at height 3. -/
def rivalsBelowHole : HeaderTable where
  rows := [linkRow genesis 1, linkRow a1 2, linkRow b1 3, linkRow a3 4]
  uniqueHash := by decide +kernel
  uniqueId := by decide +kernel

/-- A hash that begins with two digits of a number. -/
def numberedHash (n : Nat) : String :=
  String.ofList (Char.ofNat (48 + n / 10) :: Char.ofNat (48 + n % 10) :: List.replicate 62 'f')

/-- Twenty rows at each of four heights, none of which names one below. -/
def looseRows : HeaderTable where
  rows := (List.range 80).map fun n =>
    linkRow { genesis with height := n / 20, hash := numberedHash n } (n + 1)
  uniqueHash := by decide +kernel
  uniqueId := by decide +kernel

/-- Thirty-two rows at height 5, and as many at height 6 that name none of them. -/
def crowdedHeights : HeaderTable where
  rows := (List.range 64).map fun n =>
    linkRow { genesis with height := 5 + n / 32, hash := numberedHash n } (n + 1)
  uniqueHash := by decide +kernel
  uniqueId := by decide +kernel

end Regtest

open Regtest in
/-- The chain of `a2` is linked. The loose rows are not: they have more broken links than one
answer carries, and asking again from where it was cut off lists them all. -/
theorem linkCheck_exact_chain :
    LinkedBetween linkedTable.rows 0 2 ∧ ¬LinkedBetween looseRows.rows 0 3 ∧
      (linkCheck looseRows.rows 0 (some 3)).truncated = true ∧
      ∃ fuel all, askAgain looseRows.rows 3 fuel 0 = some all ∧
        ∀ b ∈ brokenLinks looseRows.rows 0 3, b ∈ all := by
  obtain ⟨hlinked, -, -, -⟩ := linkCheck_exact linkedTable (show 0 ≤ 2 by decide)
  obtain ⟨hloose, -, hcovers, hends⟩ := linkCheck_exact looseRows (show 0 ≤ 3 by decide)
  have hbroken : (linkCheck looseRows.rows 0 (some 3)).linked = false := by decide +kernel
  have hfew : ∀ h < 3, (brokenAt looseRows.rows (h + 1)).length < linkMaxBroken := by
    decide +kernel
  obtain ⟨fuel, all, hall⟩ := hends fun h _ hlt => hfew h hlt
  refine ⟨(hlinked ?_).mp ?_, fun hchain => ?_, ?_, fuel, all, hall, hcovers fuel all hall⟩
  · decide +kernel
  · decide +kernel
  · have hreported := ((hloose (by decide +kernel)).mpr hchain).1
    rw [hbroken] at hreported
    cases hreported
  · decide +kernel

open Regtest in
/-- **What the check does not see**: two rivals make up for a hole at the upper end, and
two heights of thirty-two rows each have more broken links than one answer carries, so that
asking again from where it was cut off is asking the same. -/
theorem linkCheck_blind :
    ((linkCheck rivalsBelowHole.rows 0 (some 2)).linked = true ∧
        (linkCheck rivalsBelowHole.rows 0 (some 2)).rows = 2 - 0 + 1 ∧
        (highestActive rivalsBelowHole.rows).map (·.height) = some 3 ∧
        ¬LinkedBetween rivalsBelowHole.rows 0 2) ∧
      (highestActive crowdedHeights.rows).map (·.height) = some 6 ∧
      (∀ h, (activeAt crowdedHeights.rows h).length ≤ linkMaxBroken) ∧
      ∀ fuel, askAgain crowdedHeights.rows 6 fuel 5 = none := by
  refine ⟨⟨by decide +kernel, by decide +kernel, by decide +kernel, ?_⟩, by decide +kernel, ?_, ?_⟩
  · rintro ⟨hone, -⟩
    obtain ⟨r, hr⟩ := hone 2 (by decide) (by decide)
    have hhole : activeAt rivalsBelowHole.rows 2 = [] := by decide +kernel
    rw [hhole] at hr
    exact absurd hr (by simp)
  · rintro h
    refine (List.length_filter_le _ _).trans ?_
    decide +kernel
  · have hcut : (cutOff crowdedHeights.rows 5 6).2 = some 5 := by decide +kernel
    rintro fuel
    induction fuel with
    | zero => rfl
    | succ fuel ih =>
      rw [askAgain_succ (by decide), hcut]
      dsimp only
      rw [ih, Option.map_none]

end Chaintracks

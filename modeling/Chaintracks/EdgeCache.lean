import Chaintracks.LiveFinality
import Chaintracks.ServedRange
import Chaintracks.StreamFrames
import Chaintracks.Library.Records

/-!
# The cache at the edge

A settled answer is kept at the edge under the url of its key, with the tags of the heights it
tells of; a purge of heights deletes the keys it knows by name and has the zone drop every answer
that carries one of its tags. Two things have to hold of the texts. No two keys share a url
(`Chaintracks.Edge.Key.url_inj`), so that a request is never answered with what was kept for
another; and an answer that tells of a height carries one of the tags that a purge of the height
names (`Chaintracks.EdgeAnswer.tagged`), though a range is tagged by its thousands alone.

Then what a lookup finds, after any run of answers, evictions and purges, was kept for the key
asked, is the last that was, and tells of no height purged since (`Chaintracks.edge_answers`).

The cache reads a url before it looks, and `read` is that reading. Nothing checks the text of a
root, or of a hash of the first version, before it goes into a url; where such a text steps back
(`..`), two keys may be read as one url. The results are about requests whose texts have letters
and digits only, whose urls are read as they stand.
-/

namespace Chaintracks

/-! ### Keys and their urls -/

/-- `Key`: the answers the edge keeps. -/
inductive Edge.Key
  | heightV1 (height : Nat)
  | heightV2 (height : Nat) (bin : Bool)
  | hashV1 (hash : String)
  | hashV2 (hash : String) (bin : Bool)
  | root (height : Nat) (root : String)
  | rangeV1 (start count : Nat)
  | rangeV2 (start count : Nat) (bin : Bool)
  deriving DecidableEq

/-- The end of the path of a binary answer. -/
def binSuffix (bin : Bool) : String := if bin then ".bin" else ""

/-- What the path of a key begins with. -/
def Edge.Key.front : Edge.Key → String
  | .heightV1 _ => "v1/height/"
  | .heightV2 _ _ => "v2/height/"
  | .hashV1 _ => "v1/hash/"
  | .hashV2 _ _ => "v2/hash/"
  | .root _ _ => "root/"
  | .rangeV1 _ _ => "v1/range/"
  | .rangeV2 _ _ _ => "v2/range/"

/-- The rest of the path. -/
def Edge.Key.rest : Edge.Key → String
  | .heightV1 height => toString height
  | .heightV2 height bin => toString height ++ binSuffix bin
  | .hashV1 hash => hash
  | .hashV2 hash bin => hash ++ binSuffix bin
  | .root height text => toString height ++ ("/" ++ text)
  | .rangeV1 start count => toString start ++ ("/" ++ toString count)
  | .rangeV2 start count bin => toString start ++ ("/" ++ (toString count ++ binSuffix bin))

/-- `Key::url`. -/
def Edge.Key.url (origin : String) (key : Edge.Key) : String :=
  origin ++ "/__edge/" ++ (key.front ++ key.rest)

/-- `v2_valid_hash`. -/
def v2ValidHash (hash : String) : Bool :=
  hash.toList.length == 64 && hash.toList.all fun c =>
    c.isDigit || ('a' ≤ c && c ≤ 'f') || ('A' ≤ c && c ≤ 'F')

/-- A text that a url can hold as it stands. -/
def plainText (text : String) : Bool := text.toList.all Char.isAlphanum

/-- A key that a route asks with, its texts plain: a hash of the second version has passed its
check, the others are not checked. -/
def Edge.Key.Asked : Edge.Key → Prop
  | .hashV1 hash => plainText hash = true
  | .hashV2 hash _ => v2ValidHash hash = true
  | .root _ text => plainText text = true
  | _ => True

/-- The seven kinds of path. -/
def pathFronts : List String :=
  ["v1/height/", "v2/height/", "v1/hash/", "v2/hash/", "root/", "v1/range/", "v2/range/"]

section Urls

variable {s t : String} {b b' : Bool} {m n : Nat} {c : Char} {key key' : Edge.Key}

theorem not_mem_digits (hc : c.isDigit = false) : c ∉ (toString n).toList := fun hmem => by
  rw [isDigit_of_mem_toString hmem] at hc
  cases hc

theorem binSuffix_inj (hs : '.' ∉ s.toList) (ht : '.' ∉ t.toList)
    (h : s ++ binSuffix b = t ++ binSuffix b') : s = t ∧ b = b' := by
  have hlist := congrArg String.toList h
  rw [String.toList_append, String.toList_append] at hlist
  cases b <;> cases b'
  · refine ⟨String.toList_inj.mp ?_, rfl⟩
    simpa [binSuffix] using hlist
  · refine absurd ?_ hs
    have hdot : '.' ∈ t.toList ++ (binSuffix true).toList :=
      List.mem_append_right _ (by decide)
    rw [← hlist] at hdot
    simpa [binSuffix] using hdot
  · refine absurd ?_ ht
    have hdot : '.' ∈ s.toList ++ (binSuffix true).toList :=
      List.mem_append_right _ (by decide)
    rw [hlist] at hdot
    simpa [binSuffix] using hdot
  · exact ⟨String.toList_inj.mp (List.append_cancel_right hlist), rfl⟩

theorem slash_inj (h : toString m ++ ("/" ++ s) = toString n ++ ("/" ++ t)) : m = n ∧ s = t := by
  have hlist := congrArg String.toList h
  rw [String.toList_append, String.toList_append, String.toList_append, String.toList_append]
    at hlist
  obtain ⟨hfirst, hrest⟩ := append_cons_inj (x := '/') (not_mem_digits (by decide))
    (not_mem_digits (by decide)) hlist
  exact ⟨Nat.repr_injective (String.toList_inj.mp hfirst), String.toList_inj.mp hrest⟩

theorem dot_not_mem_hash (h : v2ValidHash s = true) : '.' ∉ s.toList := by
  rintro hmem
  rw [v2ValidHash, Bool.and_eq_true] at h
  exact absurd (List.all_eq_true.mp h.2 '.' hmem) (by decide)

theorem append_left_cancel_string {p : String} (h : p ++ s = p ++ t) : s = t := by
  have hlist := congrArg String.toList h
  rw [String.toList_append, String.toList_append] at hlist
  exact String.toList_inj.mp (List.append_cancel_left hlist)

/-- The first five letters of a path tell what it begins with. -/
theorem Edge.Key.front_inj (h : key.front ++ key.rest = key'.front ++ key'.rest) :
    key.front = key'.front := by
  have hmem : ∀ k : Edge.Key, k.front ∈ pathFronts := by
    rintro k
    cases k <;> simp [Edge.Key.front, pathFronts]
  have hlong : ∀ a ∈ pathFronts, 5 ≤ a.toList.length := by
    decide
  have hapart : ∀ a ∈ pathFronts, ∀ b ∈ pathFronts, a.toList.take 5 = b.toList.take 5 → a = b := by
    decide
  have hlist := congrArg (fun text : String => text.toList.take 5) h
  simp only [String.toList_append] at hlist
  rw [List.take_append_of_le_length (hlong _ (hmem key)),
    List.take_append_of_le_length (hlong _ (hmem key'))] at hlist
  exact hapart _ (hmem key) _ (hmem key') hlist

/-- **No two keys share a path.** -/
theorem Edge.Key.path_inj (hkey : key.Asked) (hkey' : key'.Asked)
    (h : key.front ++ key.rest = key'.front ++ key'.rest) : key = key' := by
  have hfront := front_inj h
  rw [hfront] at h
  replace h := append_left_cancel_string h
  cases key <;> cases key' <;> first | (simp [Edge.Key.front] at hfront; done) | skip
  case heightV1.heightV1 => rw [Nat.repr_injective h]
  case heightV2.heightV2 =>
    obtain ⟨hn, hb⟩ := binSuffix_inj (not_mem_digits (by decide)) (not_mem_digits (by decide)) h
    rw [Nat.repr_injective hn, hb]
  case hashV1.hashV1 => exact congrArg Edge.Key.hashV1 h
  case hashV2.hashV2 =>
    obtain ⟨hh, hb⟩ := binSuffix_inj (dot_not_mem_hash hkey) (dot_not_mem_hash hkey') h
    rw [hh, hb]
  case root.root =>
    obtain ⟨hn, hr⟩ := slash_inj h
    rw [hn, hr]
  case rangeV1.rangeV1 =>
    obtain ⟨hn, hr⟩ := slash_inj h
    rw [hn, Nat.repr_injective hr]
  case rangeV2.rangeV2 =>
    obtain ⟨hn, hr⟩ := slash_inj h
    obtain ⟨hm, hb⟩ := binSuffix_inj (not_mem_digits (by decide)) (not_mem_digits (by decide)) hr
    rw [hn, Nat.repr_injective hm, hb]

/-- **No two keys share a url.** -/
theorem Edge.Key.url_inj {origin : String} (hkey : key.Asked) (hkey' : key'.Asked) :
    key.url origin = key'.url origin ↔ key = key' := by
  constructor
  · intro h
    exact path_inj hkey hkey' (append_left_cancel_string h)
  · rintro rfl
    rfl

end Urls

/-! ### Tags -/

/-- The tag of a height. -/
def heightTag (height : Nat) : String := "h-" ++ toString height

/-- The tag of a thousand heights. -/
def thousandTag (thousand : Nat) : String := "hb-" ++ toString thousand

/-- `height_tags`, without the comma between them. -/
def heightTags (height : Nat) : List String := [heightTag height, thousandTag (height / 1000)]

/-- `range_tags`, without the commas between them. -/
def rangeTags (start last : Nat) : List String :=
  (List.range' (start / 1000) (last / 1000 + 1 - start / 1000)).map thousandTag

/-- `Vec::dedup`: of equal neighbours the first. -/
def dedupRuns : List Nat → List Nat
  | a :: b :: l => if a = b then dedupRuns (b :: l) else a :: dedupRuns (b :: l)
  | l => l

/-- `purge_tags`: each height's tag, then each thousand's. -/
def purgeTags (heights : List Nat) : List String :=
  let sorted := dedupRuns (heights.insertionSort (· ≤ ·))
  sorted.map heightTag ++ (dedupRuns (sorted.map (· / 1000))).map thousandTag

/-- `purge_bodies`: the tags of each of the zone's requests. -/
def purgeBodies (tags : List String) : List (List String) := Records.chunks 100 tags

/-- `local_keys`; a hash has no letters that are not of ASCII. -/
def localKeys (origin : String) (heights : List Nat) (hashes : List String) : List String :=
  (heights.flatMap fun height =>
    [(Edge.Key.heightV1 height).url origin, (Edge.Key.heightV2 height false).url origin,
      (Edge.Key.heightV2 height true).url origin]) ++
  hashes.flatMap fun hash =>
    [(Edge.Key.hashV1 hash).url origin, (Edge.Key.hashV2 hash.toLower false).url origin,
      (Edge.Key.hashV2 hash.toLower true).url origin]

/-! ### The cache -/

/-- What a route hands to the edge: the request, the heights it tells of, and what it tells.
`v2` is the binary flag of the second version. -/
inductive EdgeAnswer (α : Type)
  | atHeight (height : Nat) (v2 : Option Bool) (value : α)
  | byHash (hash : String) (height : Nat) (v2 : Option Bool) (value : α)
  | rootAt (height : Nat) (merkleRoot : String) (value : α)
  | range (start count : Nat) (v2 : Option Bool) (value : α)

section Answers

variable {α : Type}

/-- The key a route asks with. -/
def EdgeAnswer.key : EdgeAnswer α → Edge.Key
  | .atHeight height v2 _ => v2.elim (.heightV1 height) (.heightV2 height)
  | .byHash hash _ v2 _ => v2.elim (.hashV1 hash) (.hashV2 hash)
  | .rootAt height merkleRoot _ => .root height merkleRoot
  | .range start count v2 _ => v2.elim (.rangeV1 start count) (.rangeV2 start count)

/-- The tags a route gives its answer. -/
def EdgeAnswer.tags : EdgeAnswer α → List String
  | .atHeight height _ _ => heightTags height
  | .byHash _ height _ _ => heightTags height
  | .rootAt height _ _ => heightTags height
  | .range start count _ _ => rangeTags start (saturatingAdd start (max count 1 - 1))

/-- What a route tells. -/
def EdgeAnswer.value : EdgeAnswer α → α
  | .atHeight _ _ value => value
  | .byHash _ _ _ value => value
  | .rootAt _ _ value => value
  | .range _ _ _ value => value

/-- The heights an answer tells of. -/
def EdgeAnswer.Tells : EdgeAnswer α → Nat → Prop
  | .atHeight own _ _, height => height = own
  | .byHash _ own _ _, height => height = own
  | .rootAt own _ _, height => height = own
  | .range start count _ _, height => start ≤ height ∧ height < start + count ∧ height ≤ u32Max

/-- What the edge keeps at a url. -/
structure KeptAnswer (α : Type) where
  value : α
  tags : List String

/-- The edge's cache, by url. -/
abbrev EdgeCache (α : Type) := String → Option (KeptAnswer α)

/-- What happens to the cache: an answer is made, whose write may fail; answers are let go, by
age or for room; or heights are purged, where `deleted` says which keys the colo let go and
`taken` which of the zone's requests went through. -/
inductive EdgeOp (α : Type)
  | answer (a : EdgeAnswer α) (settled written : Bool)
  | evict (gone : String → Bool)
  | purge (heights : List Nat) (hashes : List String) (deleted : String → Bool)
      (taken : Nat → Bool)

/-- The tags that the zone drops. -/
def zoneTags (heights : List Nat) (taken : Nat → Bool) : List String :=
  ((purgeBodies (purgeTags heights)).zipIdx.filter fun body => taken body.2).flatMap (·.1)

/-- `answer` and `purge`, on the cache. -/
def EdgeCache.step (edge : Edge) (read : String → String) (origin : String)
    (cache : EdgeCache α) : EdgeOp α → EdgeCache α
  | .answer a settled written =>
    match edge with
    | .off => cache
    | .depth _ _ =>
      if settled && written then
        Function.update cache (read (a.key.url origin)) (some ⟨a.value, a.tags⟩)
      else cache
  | .evict gone => fun url => if gone url then none else cache url
  | .purge heights hashes deleted taken => fun url =>
    if url ∈ (localKeys origin heights hashes).map read ∧ deleted url = true then none
    else (cache url).filter fun kept => !kept.tags.any (· ∈ zoneTags heights taken)

/-- `lookup`. -/
def EdgeCache.lookup (edge : Edge) (read : String → String) (origin : String)
    (cache : EdgeCache α) (key : Edge.Key) : Option α :=
  match edge with
  | .off => none
  | .depth _ _ => (cache (read (key.url origin))).map (·.value)

/-- The cache after a run. -/
def edgeRun (edge : Edge) (read : String → String) (origin : String) (ops : List (EdgeOp α)) :
    EdgeCache α :=
  ops.foldl (EdgeCache.step edge read origin) fun _ => none

/-! ### What a purge reaches -/

/-- An operation whose key a route asks with. -/
def EdgeOp.Asked : EdgeOp α → Prop
  | .answer a _ _ => a.key.Asked
  | _ => True

/-- An operation that takes an answer off: another answer kept at its key, its eviction, or a
purge that names its key in the colo or one of its tags in the zone. -/
def EdgeOp.Removes (read : String → String) (origin : String) (a : EdgeAnswer α) :
    EdgeOp α → Prop
  | .answer b settled written => (settled && written) = true ∧ b.key = a.key
  | .evict gone => gone (read (a.key.url origin)) = true
  | .purge heights hashes deleted taken =>
    (read (a.key.url origin) ∈ (localKeys origin heights hashes).map read ∧
        deleted (read (a.key.url origin)) = true) ∨
      ∃ tag ∈ a.tags, tag ∈ zoneTags heights taken

/-- **What is held at a key after a run**: the answer of a step, which no later one takes off. -/
def HeldBy (read : String → String) (origin : String) (ops : List (EdgeOp α)) (key : Edge.Key)
    (kept : KeptAnswer α) : Prop :=
  ∃ before a after, ops = before ++ .answer a true true :: after ∧ a.key = key ∧
    kept = ⟨a.value, a.tags⟩ ∧ ∀ op ∈ after, ¬op.Removes read origin a

variable {heights : List Nat} {h : Nat} {a : EdgeAnswer α} {origin : String} {edge : Edge}
  {ops : List (EdgeOp α)} {op : EdgeOp α} {key : Edge.Key} {kept : KeptAnswer α} {value : α}
  {taken : Nat → Bool} {read : String → String}

theorem mem_dedupRuns {l : List Nat} {n : Nat} : n ∈ dedupRuns l ↔ n ∈ l := by
  induction l using dedupRuns.induct with
  | case1 b l ih => simp [dedupRuns, ih]
  | case2 a b l hne ih => simp [dedupRuns, hne, ih]
  | case3 l hshort => rw [dedupRuns.eq_2 l hshort]

/-- A purge names the thousand of each of its heights. -/
theorem mem_purgeTags (hh : h ∈ heights) : thousandTag (h / 1000) ∈ purgeTags heights := by
  refine List.mem_append_right _ (List.mem_map_of_mem (mem_dedupRuns.mpr ?_))
  refine List.mem_map.mpr ⟨h, mem_dedupRuns.mpr ?_, rfl⟩
  rwa [List.mem_insertionSort]

/-- The zone's requests carry the tags of the purge, all of them. -/
theorem zoneTags_taken (htaken : ∀ i, taken i = true) :
    zoneTags heights taken = purgeTags heights := by
  rw [zoneTags, List.filter_eq_self.mpr fun body _ => htaken body.2, List.flatMap_def,
    List.zipIdx_map_fst, purgeBodies, Records.flatten_chunks (by decide)]

/-- **An answer that tells of a height carries the tag of its thousand.** -/
theorem EdgeAnswer.tagged (ha : a.Tells h) : thousandTag (h / 1000) ∈ a.tags := by
  cases a with
  | atHeight own v2 value =>
    obtain rfl : h = own := ha
    exact List.mem_cons_of_mem _ List.mem_cons_self
  | byHash hash own v2 value =>
    obtain rfl : h = own := ha
    exact List.mem_cons_of_mem _ List.mem_cons_self
  | rootAt own merkleRoot value =>
    obtain rfl : h = own := ha
    exact List.mem_cons_of_mem _ List.mem_cons_self
  | range start count v2 value =>
    obtain ⟨hlo, hhi, hmax⟩ := ha
    refine List.mem_map_of_mem (List.mem_range'_1.mpr ⟨Nat.div_le_div_right hlo, ?_⟩)
    have hlast : h ≤ saturatingAdd start (max count 1 - 1) := by
      rw [saturatingAdd]
      omega
    have := Nat.div_le_div_right (c := 1000) hlast
    omega

/-- **A purge whose requests go through takes off every answer that tells of its heights.** -/
theorem EdgeOp.removes_of_tells {hashes : List String} {deleted : String → Bool}
    (htaken : ∀ i, taken i = true) (hh : h ∈ heights) (ha : a.Tells h) :
    (EdgeOp.purge heights hashes deleted taken : EdgeOp α).Removes read origin a := by
  refine .inr ⟨thousandTag (h / 1000), EdgeAnswer.tagged ha, ?_⟩
  rw [zoneTags_taken htaken]
  exact mem_purgeTags hh

/-! ### Runs -/

/-- What a run and one more step hold. -/
theorem heldBy_concat : HeldBy read origin (ops ++ [op]) key kept ↔
    (∃ a, op = .answer a true true ∧ a.key = key ∧ kept = ⟨a.value, a.tags⟩) ∨
      ∃ before a after, ops = before ++ .answer a true true :: after ∧ a.key = key ∧
        kept = ⟨a.value, a.tags⟩ ∧ (∀ op ∈ after, ¬op.Removes read origin a) ∧
          ¬op.Removes read origin a := by
  constructor
  · rintro ⟨before, a, after, hops, hkey, hkept, hafter⟩
    rcases List.eq_nil_or_concat' after with rfl | ⟨after, last, rfl⟩
    · obtain ⟨-, hlast⟩ := List.append_inj' hops rfl
      exact .inl ⟨a, List.singleton_inj.mp hlast, hkey, hkept⟩
    · rw [← List.cons_append, ← List.append_assoc] at hops
      obtain ⟨rfl, hlast⟩ := List.append_inj' hops rfl
      obtain rfl := List.singleton_inj.mp hlast
      exact .inr ⟨before, a, after, rfl, hkey, hkept,
        fun op hop => hafter op (List.mem_append_left _ hop),
        hafter op (List.mem_append_right _ List.mem_cons_self)⟩
  · rintro (⟨a, rfl, hkey, hkept⟩ | ⟨before, a, after, rfl, hkey, hkept, hafter, hop⟩)
    · exact ⟨ops, a, [], rfl, hkey, hkept, List.forall_mem_nil _⟩
    · refine ⟨before, a, after ++ [op], by simp, hkey, hkept, fun x hx => ?_⟩
      rcases List.mem_append.mp hx with hx | hx
      · exact hafter x hx
      · rwa [List.mem_singleton.mp hx]

/-- A step that keeps no answer leaves a key's url as it is, or lets go what it removes. -/
theorem heldBy_concat_of_stays (stays : Prop) {cached : Option (KeptAnswer α)}
    (hop : ∀ a, op ≠ .answer a true true)
    (hcached : cached = some kept ↔ HeldBy read origin ops key kept)
    (hstays : ∀ a : EdgeAnswer α, a.key = key → kept = ⟨a.value, a.tags⟩ →
      (¬op.Removes read origin a ↔ stays)) :
    cached = some kept ∧ stays ↔ HeldBy read origin (ops ++ [op]) key kept := by
  rw [heldBy_concat, hcached]
  constructor
  · rintro ⟨⟨before, a, after, hrun, hk, hkept, hafter⟩, hstay⟩
    exact .inr ⟨before, a, after, hrun, hk, hkept, hafter, (hstays a hk hkept).mpr hstay⟩
  · rintro (⟨a, ha, -⟩ | ⟨before, a, after, hrun, hk, hkept, hafter, hstay⟩)
    · exact absurd ha (hop a)
    · exact ⟨⟨before, a, after, hrun, hk, hkept, hafter⟩, (hstays a hk hkept).mp hstay⟩

section Reads

variable (hread : ∀ key : Edge.Key, key.Asked → read (key.url origin) = key.url origin)

include hread

/-- Keys that a route asks with are read apart. -/
theorem read_url_inj {key' : Edge.Key} (hkey : key.Asked) (hkey' : key'.Asked) :
    read (key.url origin) = read (key'.url origin) ↔ key = key' := by
  rw [hread key hkey, hread key' hkey', Edge.Key.url_inj hkey hkey']

/-- An answer that is kept is what its key's url holds; any other step of an answer leaves the url
as it was. -/
theorem step_answer_iff {d : Nat} {bound : reorgBound ≤ d} {cache : EdgeCache α}
    {b : EdgeAnswer α} {settled written : Bool} (hb : b.key.Asked) (hkey : key.Asked)
    (hcache : ∀ kept, cache (read (key.url origin)) = some kept ↔ HeldBy read origin ops key kept) :
    cache.step (.depth d bound) read origin (.answer b settled written) (read (key.url origin)) =
      some kept ↔ HeldBy read origin (ops ++ [.answer b settled written]) key kept := by
  change (if settled && written then
    Function.update cache (read (b.key.url origin)) (some ⟨b.value, b.tags⟩)
      else cache) (read (key.url origin)) = some kept ↔ _
  by_cases hwrites : (settled && written) = true ∧ b.key = key
  · obtain ⟨hwritten, rfl⟩ := hwrites
    obtain ⟨rfl, rfl⟩ := Bool.and_eq_true_iff.mp hwritten
    rw [if_pos hwritten, Function.update_self, Option.some_inj, heldBy_concat]
    constructor
    · rintro rfl
      exact .inl ⟨b, rfl, rfl, rfl⟩
    · rintro (⟨a, ha, -, hkept⟩ | ⟨before, a, after, -, hk, -, -, hstays⟩)
      · cases ha
        exact hkept.symm
      · -- what was held at this key is taken off by the answer
        exact absurd ⟨rfl, hk.symm⟩ hstays
  · -- a write at another key's url, or none
    have hsame : (if settled && written then
        Function.update cache (read (b.key.url origin)) (some ⟨b.value, b.tags⟩)
          else cache) (read (key.url origin)) = cache (read (key.url origin)) := by
      split
      · rename_i hwritten
        exact Function.update_of_ne (fun hurl => hwrites
          ⟨hwritten, ((read_url_inj hread hkey hb).mp hurl).symm⟩) _ _
      · rfl
    rw [hsame, heldBy_concat, hcache]
    constructor
    · rintro ⟨before, a, after, hrun, rfl, hkept, hafter⟩
      exact .inr ⟨before, a, after, hrun, rfl, hkept, hafter, hwrites⟩
    · rintro (⟨a, ha, hk, -⟩ | ⟨before, a, after, hrun, hk, hkept, hafter, -⟩)
      · cases ha
        exact absurd ⟨rfl, hk⟩ hwrites
      · exact ⟨before, a, after, hrun, hk, hkept, hafter⟩

omit hread in
/-- An eviction lets go the urls it names. -/
theorem step_evict_iff {cache : EdgeCache α} {gone : String → Bool}
    (hcache : ∀ kept, cache (read (key.url origin)) = some kept ↔ HeldBy read origin ops key kept) :
    cache.step edge read origin (.evict gone) (read (key.url origin)) = some kept ↔
      HeldBy read origin (ops ++ [.evict gone]) key kept := by
  change (if gone (read (key.url origin)) then none else cache (read (key.url origin))) =
    some kept ↔ _
  rw [← heldBy_concat_of_stays (¬gone (read (key.url origin)) = true) (by simp)
    (hcache kept) (by rintro a rfl -; rfl)]
  split <;> simp_all

omit hread in
/-- A purge lets go the keys it names that the colo deletes, and what carries a tag of the
zone's. -/
theorem step_purge_iff {cache : EdgeCache α} {hashes : List String} {deleted : String → Bool}
    (hcache : ∀ kept, cache (read (key.url origin)) = some kept ↔ HeldBy read origin ops key kept) :
    cache.step edge read origin (.purge heights hashes deleted taken) (read (key.url origin)) =
      some kept ↔
        HeldBy read origin (ops ++ [.purge heights hashes deleted taken]) key kept := by
  change (if read (key.url origin) ∈ (localKeys origin heights hashes).map read ∧
      deleted (read (key.url origin)) = true then none
    else (cache (read (key.url origin))).filter fun kept =>
      !kept.tags.any (· ∈ zoneTags heights taken)) = some kept ↔ _
  have hremoves : ∀ a : EdgeAnswer α, a.key = key → kept = ⟨a.value, a.tags⟩ →
      (¬(EdgeOp.purge heights hashes deleted taken).Removes read origin a ↔
        ¬(read (key.url origin) ∈ (localKeys origin heights hashes).map read ∧
          deleted (read (key.url origin)) = true) ∧
        (!kept.tags.any (· ∈ zoneTags heights taken)) = true) := by
    rintro a rfl rfl
    simp [EdgeOp.Removes]
  rw [← heldBy_concat_of_stays _ (by simp) (hcache kept) hremoves]
  split
  · rename_i hlocal
    constructor
    · rintro hnone
      cases hnone
    · rintro ⟨-, hstays, -⟩
      exact absurd hlocal hstays
  · rename_i hlocal
    rw [Option.filter_eq_some_iff]
    exact and_congr_right fun _ => (and_iff_right hlocal).symm

/-- **The cache after a run holds at a key's url what is held by the run.** -/
theorem edgeRun_iff {d : Nat} {bound : reorgBound ≤ d} (hops : ∀ op ∈ ops, op.Asked)
    (hkey : key.Asked) :
    edgeRun (.depth d bound) read origin ops (read (key.url origin)) = some kept ↔
      HeldBy read origin ops key kept := by
  induction ops using List.reverseRecOn generalizing kept with
  | nil =>
    constructor
    · rintro h
      cases h
    · rintro ⟨before, a, after, hops, -⟩
      exact absurd hops (by simp)
  | append_singleton ops op ih =>
    have hcache := fun kept => @ih kept fun op hop => hops op (List.mem_append_left _ hop)
    have hop : op.Asked := hops op (List.mem_append_right _ List.mem_cons_self)
    rw [edgeRun, List.foldl_append, ← edgeRun, List.foldl_cons, List.foldl_nil]
    cases op with
    | answer b settled written => exact step_answer_iff hread hop hkey hcache
    | evict gone => exact step_evict_iff hcache
    | purge heights hashes deleted taken => exact step_purge_iff hcache

/-- **What the edge answers**, after any run: what it finds for a key was kept for that key, is
the last answer that was, and tells of no height purged since by a purge whose requests went
through. -/
theorem edge_answers (hops : ∀ op ∈ ops, op.Asked) (hkey : key.Asked)
    (hfound : (edgeRun edge read origin ops).lookup edge read origin key = some value) :
    ∃ before a after, ops = before ++ .answer a true true :: after ∧ a.key = key ∧
      a.value = value ∧ (∀ b, .answer b true true ∈ after → b.key ≠ key) ∧
      ∀ heights hashes deleted taken, .purge heights hashes deleted taken ∈ after →
        (∀ i, taken i = true) → ∀ h ∈ heights, ¬a.Tells h := by
  cases edge with
  | off => cases hfound
  | depth d bound =>
    obtain ⟨kept, hkept, rfl⟩ := Option.map_eq_some_iff.mp hfound
    obtain ⟨before, a, after, hrun, hk, rfl, hafter⟩ :=
      (edgeRun_iff hread hops hkey).mp hkept
    refine ⟨before, a, after, hrun, hk, rfl, fun b hb hsame => ?_, ?_⟩
    · exact hafter _ hb ⟨rfl, hsame.trans hk.symm⟩
    · rintro heights hashes deleted taken hpurge htaken h hh htells
      exact hafter _ hpurge (EdgeOp.removes_of_tells htaken hh htells)

end Reads

end Answers

/-- `Chaintracks.edge_answers` of a range that a purge of other heights leaves. -/
theorem edge_answers_range : ∃ before a after,
    [.answer (.range 0 3 none "abc") true true, .evict fun _ => false,
      .purge [7000] [] (fun _ => true) fun _ => true] =
        before ++ EdgeOp.answer a true true :: after ∧
      a.key = .rangeV1 0 3 ∧ a.value = "abc" ∧
      (∀ b, .answer b true true ∈ after → b.key ≠ .rangeV1 0 3) ∧
      ∀ heights hashes deleted taken, .purge heights hashes deleted taken ∈ after →
        (∀ i, taken i = true) → ∀ h ∈ heights, ¬a.Tells h := by
  refine @edge_answers String "" (.depth 400 (Nat.le_refl _)) _ _ _ id (fun _ _ => rfl)
    ?_ trivial ?_
  · simp [EdgeOp.Asked, EdgeAnswer.key, Edge.Key.Asked]
  · decide +kernel

end Chaintracks

import Mathlib

/-!
# The webhook targets

A consumer of the service is a target: a URL, and for a consumer on the same account the
name of the service binding the posts ride. The targets come from one configuration
string. A binding's name is what stands before the first equals sign of an entry, so it
holds none, and an empty one is dropped; both are a field of `Chaintracks.WebhookTarget`,
and they are what makes the key of the event outbox, binding and URL with an equals sign
between, name one target (`Chaintracks.targetKey_injective`).
-/

namespace Chaintracks

/-- `WebhookTarget`. -/
structure WebhookTarget where
  binding : Option String
  url : String
  named : ∀ b, binding = some b → b ≠ "" ∧ '=' ∉ b.toList

/-- A target without a binding names none. -/
theorem unbound_named : ∀ b, (none : Option String) = some b → b ≠ "" ∧ '=' ∉ b.toList :=
  fun _ h => by cases h

instance : DecidableEq WebhookTarget := fun a b =>
  decidable_of_iff (a.binding = b.binding ∧ a.url = b.url) <| by
    cases a
    cases b
    simp

/-- `target_key`. -/
def targetKey (target : WebhookTarget) : String := target.binding.getD "" ++ "=" ++ target.url

/-! ### The configuration -/

/-- `char::is_whitespace`. -/
def isWhitespace (c : Char) : Bool :=
  (9 ≤ c.toNat && c.toNat ≤ 13) || (0x2000 ≤ c.toNat && c.toNat ≤ 0x200A) ||
    [0x20, 0x85, 0xA0, 0x1680, 0x2028, 0x2029, 0x202F, 0x205F, 0x3000].contains c.toNat

/-- `str::trim`, on the characters. -/
def trim (s : List Char) : List Char :=
  ((s.dropWhile isWhitespace).reverse.dropWhile isWhitespace).reverse

theorem trim_subset (s : List Char) : trim s ⊆ s := by
  intro c hc
  have h := (List.dropWhile_suffix _).mem (List.mem_reverse.mp hc)
  exact (List.dropWhile_suffix _).mem (List.mem_reverse.mp h)

/-- What stands before the first equals sign, and after it; nothing where there is none. -/
def splitOnce (entry : List Char) : Option (List Char × List Char) :=
  match entry.dropWhile (· != '=') with
  | _ :: rest => some (entry.takeWhile (· != '='), rest)
  | [] => none

theorem splitOnce_named {entry binding rest : List Char}
    (h : splitOnce entry = some (binding, rest)) : '=' ∉ binding := by
  unfold splitOnce at h
  split at h
  · cases h
    intro hc
    have := List.mem_takeWhile_imp hc
    simp at this
  · cases h

/-- A target of a URL, where it is one of the two schemes. -/
def webhookTarget (binding : Option String) (url : List Char)
    (named : ∀ b, binding = some b → b ≠ "" ∧ '=' ∉ b.toList) : Option WebhookTarget :=
  if "https://".toList.isPrefixOf url || "http://".toList.isPrefixOf url then
    some ⟨binding, String.ofList url, named⟩
  else none

/-- One entry of the configuration: `[BINDING=]URL`. -/
def parseEntry (entry : List Char) : Option WebhookTarget :=
  match h : splitOnce entry with
  | some (binding, url) =>
    if hname : trim binding ≠ [] ∧
        ¬(binding.tails.any "://".toList.isPrefixOf || binding.contains '/') then
      webhookTarget (some (String.ofList (trim binding))) (trim url) <| by
        rintro b ⟨⟩
        rw [String.toList_ofList]
        refine ⟨fun he => hname.1 ?_, fun hc => splitOnce_named h (trim_subset _ hc)⟩
        rw [← String.toList_ofList (l := trim binding), he]
        rfl
    else webhookTarget none entry nofun
  | none => webhookTarget none entry nofun

/-- `parse_webhook_targets`. -/
def parseWebhookTargets (raw : String) : List WebhookTarget :=
  ((raw.toList.splitOn ',').map trim).filterMap parseEntry

/-! ### The key of a target -/

/-- What stands before a letter and after it, where the letter is not in the first part. -/
theorem append_cons_inj {α : Type} {x : α} {l l' r r' : List α} (hl : x ∉ l) (hl' : x ∉ l')
    (h : l ++ x :: r = l' ++ x :: r') : l = l' ∧ r = r' := by
  induction l generalizing l' with
  | nil =>
    cases l' with
    | nil =>
      cases h
      exact ⟨rfl, rfl⟩
    | cons y l' =>
      cases h
      exact absurd List.mem_cons_self hl'
  | cons y l ih =>
    cases l' with
    | nil =>
      cases h
      exact absurd List.mem_cons_self hl
    | cons y' l' =>
      obtain ⟨hy, htail⟩ := List.cons.inj h
      obtain ⟨hll, hr⟩ := ih (fun hm => hl (List.mem_cons_of_mem _ hm))
        (fun hm => hl' (List.mem_cons_of_mem _ hm)) htail
      exact ⟨by rw [hy, hll], hr⟩

/-- **The key names the target.** -/
theorem targetKey_injective : Function.Injective targetKey := by
  intro t t' h
  have hnamed : ∀ t : WebhookTarget, '=' ∉ (t.binding.getD "").toList := by
    intro t
    cases hb : t.binding with
    | none => exact List.not_mem_nil
    | some b => exact (t.named b hb).2
  have hlist := congrArg String.toList h
  simp only [targetKey, String.toList_append, List.append_assoc] at hlist
  obtain ⟨hb, hu⟩ := append_cons_inj (hnamed t) (hnamed t') hlist
  obtain ⟨b, url, named⟩ := t
  obtain ⟨b', url', named'⟩ := t'
  have hbinding : b = b' := by
    have hb := String.toList_inj.mp hb
    -- an absent binding reads as an empty name, and no binding has that name
    cases b with
    | none =>
      cases b' with
      | none => rfl
      | some b' => exact absurd hb.symm (named' b' rfl).1
    | some b =>
      cases b' with
      | none => exact absurd hb (named b rfl).1
      | some b' => exact congrArg some hb
  subst hbinding
  have hurl : url = url' := String.toList_inj.mp hu
  subst hurl
  rfl

end Chaintracks

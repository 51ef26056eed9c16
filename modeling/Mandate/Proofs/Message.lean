import Mandate.Failure
import Mandate.Proofs.Declared
import Mandate.Proofs.Lines
import Mathlib.Data.List.GetD

/-!
# The texts that a message embeds

A message names capabilities and principals and repeats what others reported, so it has in it texts that it does
not choose. Everything else in it is made here, and no carriage return is made: numbers and addresses are
written in digits, and string values are quoted. So a message has a carriage return only from the texts that it
embeds.
-/

namespace Mandate

open Text

/-! ## Digits and quotes -/

namespace Text

theorem return_notMem_toDigits {base : Nat} (h : 1 < base) (n : Nat) : '\r' ∉ Nat.toDigits base n := by
  induction n using Nat.strong_induction_on with
  | _ n ih =>
      rw [Nat.toDigits_eq_if h]
      split
      case isTrue => simp
      case isFalse =>
        have fewer : n / base < n := Nat.div_lt_self (by omega) h
        simp [ih _ fewer]

theorem noReturn_nat (n : Nat) : NoReturn (toString n) := by
  show '\r' ∉ n.repr.toList
  rw [Nat.toList_repr]
  exact return_notMem_toDigits (by omega) n

theorem noReturn_int (n : Int) : NoReturn (toString n) := by
  cases n with
  | ofNat n => exact noReturn_nat n
  | negSucc n => exact noReturn_append.mpr ⟨by decide, noReturn_nat (n + 1)⟩

theorem noReturn_time (t : Timestamp) : NoReturn (toString t) := noReturn_nat t.toNat

theorem return_notMem_escape (c : Char) : '\r' ∉ escape c := by
  have digits : '\r' ∉ hexDigits c.toNat := return_notMem_toDigits (by omega) _
  rw [escape]
  split_ifs with zero tab ret
  case neg => simpa using Ne.symm ret
  all_goals simp [digits]

theorem noReturn_quoted (s : String) : NoReturn (quoted s) := by
  simp [NoReturn, quoted, return_notMem_escape]

/-- A digit of an alphabet without carriage returns is none. -/
theorem getD_ne_return {alphabet : List Char} {default : Char} (h : '\r' ∉ alphabet) (hd : default ≠ '\r')
    (d : Nat) : alphabet.getD d default ≠ '\r' := by
  by_cases inside : d < alphabet.length
  · rw [List.getD_eq_getElem _ _ inside]
    exact fun ret => h (ret ▸ List.getElem_mem inside)
  · rw [List.getD_eq_default _ _ (by omega)]
    exact hd

end Text

theorem Cid.noReturn_toText (c : Cid) : NoReturn c.toText := by
  cases c with
  | v0 digest length =>
      have digits : ∀ d, Base58.digitChar d ≠ '\r' := getD_ne_return (by decide) (by decide)
      simp [NoReturn, Cid.toText, Base58.encode, digits]
  | v1 codec hash digest length =>
      have digits : ∀ d, Base32.digitChar d ≠ '\r' := getD_ne_return (by decide) (by decide)
      simp [NoReturn, Cid.toText, Base32.encode, digits]

theorem Binary64.noReturn_positional (m : Nat) (e : Int) : NoReturn (positional m e) := by
  unfold positional
  split
  · exact noReturn_nat _
  · have digits : '\r' ∉ (toString m).toList := noReturn_nat m
    have filled : ∀ k, '\r' ∉ List.replicate k '0' ++ (toString m).toList := by simpa using digits
    simp only [NoReturn, String.toList_ofList, List.mem_append, List.mem_cons, not_or]
    exact ⟨fun ret => filled _ (List.mem_of_mem_take ret), by decide,
      fun ret => filled _ (List.mem_of_mem_drop ret)⟩

theorem Binary64.noReturn_toText (x : Binary64) : NoReturn x.toText := by
  have sign : NoReturn (if x.isNegative then "-" else "") := by
    split <;> exact noReturn_literal (by decide)
  unfold Binary64.toText
  split
  · exact noReturn_literal (by decide)
  · dsimp only
    split
    · exact noReturn_append.mpr ⟨sign, noReturn_literal (by decide)⟩
    · split
      · exact noReturn_append.mpr ⟨sign, noReturn_literal (by decide)⟩
      · exact noReturn_append.mpr ⟨sign, noReturn_positional _ _⟩

/-! ## Values and capabilities -/

namespace Ipld

mutual

/-- The text of a value has a carriage return only from a key: string values are quoted, keys are not. -/
theorem noReturn_toText : (v : Ipld) → (∀ k ∈ v.keys, NoReturn k) → NoReturn v.toText
  | null, _ => noReturn_literal (by decide)
  | bool b, _ => by cases b <;> exact noReturn_literal (by decide)
  | integer n, _ => noReturn_int n
  | float x, _ => x.noReturn_toText
  | string s, _ => noReturn_quoted s
  | bytes b, _ => by
      simp only [toText, noReturn_append]
      exact ⟨⟨noReturn_literal (by decide), noReturn_nat _⟩, noReturn_literal (by decide)⟩
  | list xs, h => by
      rw [keys, List.forall_mem_flatMap] at h
      simp only [toText, noReturn_append]
      refine ⟨⟨noReturn_literal (by decide), ?_⟩, noReturn_literal (by decide)⟩
      exact noReturn_intercalate (noReturn_literal (by decide)) (noReturn_itemTexts xs h)
  | map es, h => by
      rw [keys, List.forall_mem_flatMap] at h
      simp only [toText, noReturn_append]
      refine ⟨⟨noReturn_literal (by decide), ?_⟩, noReturn_literal (by decide)⟩
      exact noReturn_intercalate (noReturn_literal (by decide)) (noReturn_entryTexts es h)
  | link c, _ => by
      simp only [toText, Cid.linkText, noReturn_append]
      exact ⟨⟨noReturn_literal (by decide), c.noReturn_toText⟩, noReturn_literal (by decide)⟩

theorem noReturn_itemTexts : (xs : List Ipld) → (∀ x ∈ xs, ∀ k ∈ x.keys, NoReturn k) →
    ∀ t ∈ itemTexts xs, NoReturn t
  | [], _ => by simp [itemTexts]
  | x :: xs, h => by
      obtain ⟨first, others⟩ := List.forall_mem_cons.mp h
      rw [itemTexts, List.forall_mem_cons]
      exact ⟨noReturn_toText x first, noReturn_itemTexts xs others⟩

theorem noReturn_entryTexts : (es : List (String × Ipld)) →
    (∀ e ∈ es, ∀ k ∈ e.1 :: e.2.keys, NoReturn k) → ∀ t ∈ entryTexts es, NoReturn t
  | [], _ => by simp [entryTexts]
  | (key, x) :: es, h => by
      obtain ⟨first, others⟩ := List.forall_mem_cons.mp h
      obtain ⟨hk, hx⟩ := List.forall_mem_cons.mp first
      rw [entryTexts, List.forall_mem_cons]
      refine ⟨?_, noReturn_entryTexts es others⟩
      simp only [noReturn_append]
      exact ⟨⟨⟨noReturn_literal (by decide), hk⟩, noReturn_literal (by decide)⟩, noReturn_toText x hx⟩

end

end Ipld

namespace Capability

/-- The texts that stand in the text of a capability as they are: its ability, its resource and the keys of its
caveats, at any depth. -/
def texts (c : Capability) : List String := c.ability :: c.resource :: (Ipld.map c.caveats).keys

theorem noReturn_toText {c : Capability} (h : ∀ t ∈ c.texts, NoReturn t) : NoReturn c.toText := by
  simp only [texts, List.forall_mem_cons] at h
  obtain ⟨ability, resource, keys⟩ := h
  have caveats : NoReturn (Fields.toText c.caveats) := (Ipld.map c.caveats).noReturn_toText keys
  simp only [toText, noReturn_append, and_assoc]
  refine ⟨noReturn_literal (by decide), ability, noReturn_literal (by decide), resource,
    noReturn_literal (by decide), ?_, noReturn_literal (by decide)⟩
  split
  · exact noReturn_literal (by decide)
  · exact noReturn_append.mpr ⟨noReturn_literal (by decide), caveats⟩

end Capability

/-! ## Errors and failures -/

namespace Schema.Error

mutual

/-- The texts that an error holds. -/
def texts : Error → List String
  | type expected actual => [expected, actual]
  | literal expected actual => [expected, actual]
  | field name cause => name :: texts cause
  | element _ cause => texts cause
  | union actual causes => actual :: textsOfAll causes
  | intersection causes => textsOfAll causes
  | message text => [text]

def textsOfAll : List Error → List String
  | [] => []
  | e :: es => texts e ++ textsOfAll es

end

mutual

theorem noReturn_toText : (e : Error) → (∀ t ∈ e.texts, NoReturn t) → NoReturn e.toText
  | type expected actual, h => by
      simp only [texts, List.forall_mem_cons] at h
      unfold toText
      simp only [noReturn_append, and_assoc]
      exact ⟨noReturn_literal (by decide), h.1, noReturn_literal (by decide), h.2.1⟩
  | literal expected actual, h => by
      simp only [texts, List.forall_mem_cons] at h
      unfold toText
      simp only [noReturn_append, and_assoc]
      exact ⟨noReturn_literal (by decide), h.1, noReturn_literal (by decide), h.2.1⟩
  | field name cause, h => by
      simp only [texts, List.forall_mem_cons] at h
      unfold toText
      simp only [noReturn_append, and_assoc]
      exact ⟨noReturn_literal (by decide), h.1, noReturn_literal (by decide),
        noReturn_indent (noReturn_toText cause h.2)⟩
  | element index cause, h => by
      unfold toText
      simp only [noReturn_append, and_assoc]
      exact ⟨noReturn_literal (by decide), noReturn_nat index, noReturn_literal (by decide),
        noReturn_indent (noReturn_toText cause h)⟩
  | union actual causes, h => by
      simp only [texts, List.forall_mem_cons] at h
      unfold toText
      simp only [noReturn_append, and_assoc]
      exact ⟨noReturn_literal (by decide), h.1, noReturn_literal (by decide),
        noReturn_unlines (noReturn_itemTexts causes h.2)⟩
  | intersection causes, h => by
      unfold toText
      simp only [noReturn_append]
      exact ⟨noReturn_literal (by decide), noReturn_unlines (noReturn_itemTexts causes h)⟩
  | message text, h => h text (List.mem_singleton_self text)

theorem noReturn_itemTexts : (es : List Error) → (∀ t ∈ textsOfAll es, NoReturn t) →
    ∀ t ∈ itemTexts es, NoReturn t
  | [], _ => by simp [itemTexts]
  | e :: es, h => by
      simp only [textsOfAll, List.forall_mem_append] at h
      rw [itemTexts, List.forall_mem_cons]
      exact ⟨noReturn_listItem (noReturn_literal (by decide)) (noReturn_toText e h.1),
        noReturn_itemTexts es h.2⟩

end

end Schema.Error

namespace Failure

/-- The texts that the message of a failure embeds, without those of its causes. -/
def texts : Failure → List String
  | unknownCapability c => c.texts
  | malformedCapability c cause => c.texts ++ cause.texts
  | escalatedCapability claimed delegated cause =>
    cause.message :: (claimed :: delegated).flatMap Capability.texts
  | invalidAudience _ audience expected => [audience.toText, expected.toText]
  | expired .. => []
  | notValidBefore .. => []
  | unavailableProof _ cause => cause.toList
  | invalidSignature _ issuer => [issuer.toText]
  | unresolvablePrincipal did cause => [did.toText, cause]
  | unprovenCapability claim issuer => issuer.toText :: claim.flatMap Capability.texts
  | revoked _ cause => [cause.message]
  | invalidClaim claim _ => claim.flatMap Capability.texts
  | unauthorized c _ => c.texts

theorem noReturn_listText {cs : List Capability} (h : ∀ t ∈ cs.flatMap Capability.texts, NoReturn t) :
    NoReturn (listText cs) := by
  rw [List.forall_mem_flatMap] at h
  unfold listText
  split
  case h_1 c => exact Capability.noReturn_toText (h c (List.mem_singleton_self c))
  case h_2 =>
    have each : ∀ t ∈ cs.map Capability.toText, NoReturn t := by
      rw [List.forall_mem_map]
      exact fun c mem => Capability.noReturn_toText (h c mem)
    simp only [noReturn_append]
    exact ⟨⟨noReturn_literal (by decide), noReturn_intercalate (noReturn_literal (by decide)) each⟩,
      noReturn_literal (by decide)⟩

/-- The message of a failure without its causes has a carriage return only from a text that it embeds. -/
theorem noReturn_headText {f : Failure} (h : ∀ t ∈ f.texts, NoReturn t) : NoReturn f.headText := by
  unfold headText
  cases f with
  | unknownCapability c =>
      simp only [noReturn_append]
      exact ⟨⟨noReturn_literal (by decide), Capability.noReturn_toText h⟩, noReturn_literal (by decide)⟩
  | malformedCapability c cause =>
      simp only [texts, List.forall_mem_append] at h
      have ability : NoReturn c.ability := h.1 _ (List.mem_cons_self ..)
      simp only [noReturn_append, and_assoc]
      exact ⟨noReturn_literal (by decide), ability, noReturn_literal (by decide),
        Capability.noReturn_toText h.1, noReturn_literal (by decide),
        noReturn_indent (Schema.Error.noReturn_toText cause h.2)⟩
  | escalatedCapability claimed delegated cause =>
      simp only [texts, List.flatMap_cons, List.forall_mem_cons, List.forall_mem_append] at h
      simp only [noReturn_append, and_assoc]
      exact ⟨noReturn_literal (by decide), h.1, noReturn_literal (by decide),
        Capability.noReturn_toText h.2.1, noReturn_literal (by decide), noReturn_listText h.2.2⟩
  | invalidAudience delegation audience expected =>
      simp only [texts, List.forall_mem_cons] at h
      simp only [noReturn_append, and_assoc]
      exact ⟨noReturn_literal (by decide), delegation.noReturn_toText, noReturn_literal (by decide), h.1,
        noReturn_literal (by decide), h.2.1⟩
  | expired delegation time | notValidBefore delegation time =>
      simp only [noReturn_append, and_assoc]
      exact ⟨noReturn_literal (by decide), delegation.noReturn_toText, noReturn_literal (by decide),
        noReturn_time time⟩
  | unavailableProof link cause =>
      simp only [noReturn_append, and_assoc]
      refine ⟨noReturn_literal (by decide), link.noReturn_toText, noReturn_literal (by decide), ?_⟩
      cases cause with
      | none => exact noReturn_literal (by decide)
      | some reason =>
          exact noReturn_append.mpr ⟨noReturn_literal (by decide), h reason (List.mem_singleton_self _)⟩
  | invalidSignature delegation issuer =>
      simp only [texts, List.forall_mem_cons] at h
      simp only [noReturn_append, and_assoc]
      exact ⟨noReturn_literal (by decide), delegation.noReturn_toText, noReturn_literal (by decide), h.1⟩
  | unresolvablePrincipal did cause =>
      simp only [texts, List.forall_mem_cons] at h
      simp only [noReturn_append, and_assoc]
      exact ⟨noReturn_literal (by decide), h.1, noReturn_literal (by decide), h.2.1⟩
  | unprovenCapability claim issuer =>
      simp only [texts, List.forall_mem_cons] at h
      simp only [noReturn_append, and_assoc]
      exact ⟨noReturn_literal (by decide), noReturn_listText h.2, noReturn_literal (by decide), h.1,
        noReturn_literal (by decide)⟩
  | revoked delegation cause =>
      simp only [texts, List.forall_mem_cons] at h
      simp only [noReturn_append, and_assoc]
      exact ⟨noReturn_literal (by decide), delegation.noReturn_toText, noReturn_literal (by decide), h.1⟩
  | invalidClaim claim causes =>
      simp only [noReturn_append]
      exact ⟨⟨noReturn_literal (by decide), noReturn_listText h⟩, noReturn_literal (by decide)⟩
  | unauthorized c causes =>
      simp only [noReturn_append]
      exact ⟨⟨noReturn_literal (by decide), Capability.noReturn_toText h⟩, noReturn_literal (by decide)⟩

end Failure

end Mandate

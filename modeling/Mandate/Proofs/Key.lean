import Mandate.Principal
import Mandate.Proofs.Base58
import Mandate.Proofs.Did

/-!
# Keys and their texts

A key has one text and each text of a key has one key, so identifiers that name the same key are the same.
-/

namespace Mandate

namespace Ed25519.PublicKey

/-- The text that a key is shown as. -/
def text (k : PublicKey) : String :=
  "did:key:z" ++ String.ofList (Base58.encode (Did.keyMarker ++ k.bytes))

variable {k l : PublicKey} {bytes : Bytes}

@[simp] theorem length_bytes (k : PublicKey) : k.bytes.length = 32 := by
  by_contra other
  have none := k.decompress_bytes
  rw [Point.decompress?, if_neg other] at none
  cases none

theorem bytes_inj : k.bytes = l.bytes ↔ k = l := by
  refine ⟨fun same => ?_, congrArg PublicKey.bytes⟩
  have point : k.point = l.point :=
    Option.some.inj (k.decompress_bytes.symm.trans (same ▸ l.decompress_bytes))
  cases k
  cases l
  simp_all

theorem ofBytes?_eq_some_iff : ofBytes? bytes = some k ↔ k.bytes = bytes := by
  unfold ofBytes?
  split
  case h_1 point found =>
    rw [Option.some.injEq, ← bytes_inj, eq_comm]
  case h_2 none =>
    simp only [reduceCtorEq, false_iff]
    rintro rfl
    rw [k.decompress_bytes] at none
    cases none

theorem toText_did (k : PublicKey) : k.did.toText = k.text := by
  apply String.toList_inj.mp
  simp [Did.toText_toList, did, Did.ofKeyBytes, text]

theorem text_toList (k : PublicKey) :
    k.text.toList = "did:key:".toList ++ 'z' :: Base58.encode (Did.keyMarker ++ k.bytes) := by
  simp [text]

end Ed25519.PublicKey

open Ed25519

namespace Did

variable {s : String} {k : PublicKey}

theorem parseKey_text (k : PublicKey) : parseKey k.text = .ok k := by
  have header : Text.dropStart? "did:key:".toList k.text.toList =
      some ('z' :: Base58.encode (keyMarker ++ k.bytes)) :=
    Text.dropStart?_eq_some_iff.mpr k.text_toList
  have letter : Text.dropStart? ['z'] ('z' :: Base58.encode (keyMarker ++ k.bytes)) =
      some (Base58.encode (keyMarker ++ k.bytes)) :=
    Text.dropStart?_eq_some_iff.mpr rfl
  have length : (keyMarker ++ k.bytes).length = 34 := by simp [keyMarker]
  have digits : Base58.decode? (Base58.encode (keyMarker ++ k.bytes)) = some (keyMarker ++ k.bytes) :=
    Base58.decode?_encode (by rw [length]; decide)
  have marker : Text.dropStart? keyMarker (keyMarker ++ k.bytes) = some k.bytes :=
    Text.dropStart?_eq_some_iff.mpr rfl
  have made : PublicKey.ofBytes? k.bytes = some k := PublicKey.ofBytes?_eq_some_iff.mpr rfl
  simp only [parseKey, header, letter, digits, length, marker, made]
  rfl

theorem eq_text_of_parseKey (h : parseKey s = .ok k) : s = k.text := by
  unfold parseKey at h
  split at h
  case h_2 => cases h
  case h_1 identifier header =>
    split at h
    case h_2 => cases h
    case h_1 digits letter =>
      split at h
      case h_2 => cases h
      case h_1 bytes read =>
        by_cases length : bytes.length = 34
        case neg =>
          rw [if_pos length] at h
          cases h
        rw [if_neg (not_not.mpr length)] at h
        dsimp only at h
        split at h
        case h_2 => cases h
        case h_1 key marker =>
          split at h
          case h_2 => cases h
          case h_1 made =>
            cases h
            apply String.toList_inj.mp
            rw [Text.dropStart?_eq_some_iff.mp header, Text.dropStart?_eq_some_iff.mp letter,
              Base58.eq_encode_of_decode? read, Text.dropStart?_eq_some_iff.mp marker,
              ← PublicKey.ofBytes?_eq_some_iff.mp made, k.text_toList, List.singleton_append]

/-- A key is read from its text, and from no other. -/
theorem parseKey_eq_ok_iff : parseKey s = .ok k ↔ s = k.text :=
  ⟨eq_text_of_parseKey, fun same => same ▸ parseKey_text k⟩

end Did

theorem Ed25519.PublicKey.did_inj {k l : PublicKey} : k.did = l.did ↔ k = l := by
  refine ⟨fun same => ?_, congrArg PublicKey.did⟩
  have text : k.text = l.text := by rw [← k.toText_did, same, l.toText_did]
  exact Except.ok.inj ((Did.parseKey_text k).symm.trans (text ▸ Did.parseKey_text l))

namespace Directory

variable {d : Did} {v : Verifier}

/-- What identifiers themselves name are the keys that they are the identifiers of. -/
theorem keys_eq_ok_iff : keys d = .ok v ↔ ∃ k : PublicKey, d = k.did ∧ v = k.verifier := by
  have same (k : PublicKey) : Did.parseKey d.toText = .ok k ↔ d = k.did := by
    rw [Did.parseKey_eq_ok_iff, ← k.toText_did, Did.toText_inj]
  unfold keys
  split
  case h_1 k read =>
    rw [(same k).mp read]
    constructor
    · rintro ⟨⟩
      exact ⟨k, rfl, rfl⟩
    · rintro ⟨l, did, rfl⟩
      rw [(PublicKey.did_inj.mp did)]
  case h_2 e unread =>
    simp only [reduceCtorEq, false_iff]
    rintro ⟨k, named, -⟩
    rw [(same k).mpr named] at unread
    cases unread

/-- Keys and the texts that are read as keys correspond to each other one by one, so what identifiers
themselves name is told apart by their texts, and is named by the identifier that was looked up. -/
theorem keys_correspond_to_texts :
    (∀ bytes (k : PublicKey), PublicKey.ofBytes? bytes = some k →
      bytes.length = 32 ∧ ∃ l, Did.parseKey k.text = .ok l ∧ l.bytes = bytes) ∧
    (∀ s k, Did.parseKey s = .ok k → k.text = s) ∧
    (∀ d e v w, keys d = .ok v → keys e = .ok w → ∃ k l : PublicKey,
      (Did.parseKey d.toText = .ok k ∧ v = k.verifier) ∧
      (Did.parseKey e.toText = .ok l ∧ w = l.verifier) ∧
      (k.bytes = l.bytes ↔ d.toText = e.toText)) ∧
    (∀ k : PublicKey, Did.parse k.text = .ok k.did) ∧
    ∀ d v, keys d = .ok v → v.did = d := by
  have reads (k : PublicKey) : Did.parseKey k.did.toText = .ok k :=
    Did.parseKey_eq_ok_iff.mpr k.toText_did
  refine ⟨fun bytes k made => ?_, fun s k read => (Did.parseKey_eq_ok_iff.mp read).symm,
    fun d e v w found found' => ?_, fun k => Did.parse_eq_ok_iff.mpr k.toText_did.symm,
    fun d v found => ?_⟩
  · obtain rfl := PublicKey.ofBytes?_eq_some_iff.mp made
    exact ⟨k.length_bytes, k, Did.parseKey_text k, rfl⟩
  · obtain ⟨k, rfl, rfl⟩ := keys_eq_ok_iff.mp found
    obtain ⟨l, rfl, rfl⟩ := keys_eq_ok_iff.mp found'
    refine ⟨k, l, ⟨reads k, rfl⟩, ⟨reads l, rfl⟩, ?_⟩
    rw [PublicKey.bytes_inj, Did.toText_inj, PublicKey.did_inj]
  · obtain ⟨k, rfl, rfl⟩ := keys_eq_ok_iff.mp found
    rfl

end Directory

namespace Sample

/-- The key whose point generates the subgroup. -/
def generator : PublicKey := ⟨0x58 :: List.replicate 31 0x66, .base, by decide +kernel⟩

/-- The key of the opposite point, which differs in one bit. -/
def opposite : PublicKey := ⟨0x58 :: List.replicate 30 0x66 ++ [0xe6], .neg .base, by decide +kernel⟩

end Sample

theorem Directory.keys_correspond_to_texts_generator :
    (PublicKey.ofBytes? Sample.generator.bytes = some Sample.generator ∧
      ∃ l, Did.parseKey Sample.generator.text = .ok l ∧ l.bytes = Sample.generator.bytes) ∧
    (Did.parseKey "did:key:z6MkkQLV92bJ9Frad3fq3yWJzQqc6dpbE4rJWVaRjKCC2wRf" = .ok Sample.generator ∧
      Sample.generator.text = "did:key:z6MkkQLV92bJ9Frad3fq3yWJzQqc6dpbE4rJWVaRjKCC2wRf") ∧
    (keys Sample.generator.did = .ok Sample.generator.verifier ∧
      keys Sample.opposite.did = .ok Sample.opposite.verifier ∧
      Sample.generator.did.toText ≠ Sample.opposite.did.toText) := by
  have made : PublicKey.ofBytes? Sample.generator.bytes = some Sample.generator :=
    PublicKey.ofBytes?_eq_some_iff.mpr rfl
  have read : Did.parseKey "did:key:z6MkkQLV92bJ9Frad3fq3yWJzQqc6dpbE4rJWVaRjKCC2wRf" =
      .ok Sample.generator :=
    Did.parseKey_eq_ok_iff.mpr (by decide +kernel)
  have found (k : PublicKey) : keys k.did = .ok k.verifier := keys_eq_ok_iff.mpr ⟨k, rfl, rfl⟩
  obtain ⟨back, shown, apart, -⟩ := keys_correspond_to_texts
  refine ⟨⟨made, (back _ _ made).2⟩, ⟨read, shown _ _ read⟩, found _, found _, ?_⟩
  obtain ⟨k, l, ⟨first, -⟩, ⟨second, -⟩, same⟩ := apart _ _ _ _ (found Sample.generator)
    (found Sample.opposite)
  rw [Ne, ← same]
  rw [PublicKey.toText_did, Did.parseKey_text] at first second
  cases first
  cases second
  decide

end Mandate

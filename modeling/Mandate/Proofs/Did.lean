import Mandate.Did
import Mandate.Proofs.Coverage

/-!
# Identifiers and their texts

The method ends at the first colon, so an identifier is read from its text and from no other.
-/

namespace Mandate

namespace Text

theorem splitFirst?_eq_some_iff {c : Char} {s before after : List Char} :
    splitFirst? c s = some (before, after) ↔ c ∉ before ∧ s = before ++ c :: after := by
  induction s generalizing before with
  | nil => simp [splitFirst?]
  | cons x rest ih =>
      rw [splitFirst?]
      split
      case isTrue here =>
        subst here
        constructor
        · rintro ⟨⟩
          simp
        · rintro ⟨absent, same⟩
          cases before with
          | nil => simp_all
          | cons y before =>
              rw [List.cons_append, List.cons.injEq] at same
              exact absurd (by simp [same.1]) absent
      case isFalse other =>
        constructor
        · intro found
          obtain ⟨⟨start, rest'⟩, split, same⟩ := Option.map_eq_some_iff.mp found
          cases same
          obtain ⟨absent, rfl⟩ := ih.mp split
          exact ⟨by simpa [eq_comm, absent] using other, rfl⟩
        · rintro ⟨absent, same⟩
          cases before with
          | nil =>
              rw [List.nil_append, List.cons.injEq] at same
              exact absurd same.1 other
          | cons y before =>
              rw [List.cons_append, List.cons.injEq] at same
              obtain ⟨rfl, rfl⟩ := same
              rw [ih.mpr ⟨fun mem => absent (List.mem_cons_of_mem _ mem), rfl⟩]
              rfl

end Text

namespace Did

variable {d : Did} {s : String}

theorem toText_toList (d : Did) :
    d.toText.toList = "did:".toList ++ (d.method.toList ++ ':' :: d.identifier.toList) := by
  simp [toText]

theorem ofParts?_eq_some_iff {method identifier : String} :
    ofParts? method identifier = some d ↔ d.method = method ∧ d.identifier = identifier := by
  unfold ofParts?
  split
  case isTrue parts =>
    rw [Option.some.injEq]
    cases d
    simp [eq_comm]
  case isFalse parts =>
    simp only [reduceCtorEq, false_iff]
    rintro ⟨rfl, rfl⟩
    exact parts ⟨d.method_ne, d.colon_notMem, d.identifier_ne⟩

/-- An identifier is what its text is read as, and its text is all that is read as it. -/
theorem parse_eq_ok_iff : parse s = .ok d ↔ s = d.toText := by
  have lists : s = d.toText ↔ s.toList = d.toText.toList := String.toList_inj.symm
  rw [lists, toText_toList, parse]
  split
  case h_1 none =>
    simp only [reduceCtorEq, false_iff]
    intro same
    rw [Text.dropStart?_eq_some_iff.mpr same] at none
    cases none
  case h_2 rest found =>
    rw [Text.dropStart?_eq_some_iff.mp found, List.append_cancel_left_eq]
    constructor
    · intro parsed
      split at parsed
      case h_1 made =>
        cases parsed
        obtain ⟨⟨method, identifier⟩, cut, parts⟩ := Option.bind_eq_some_iff.mp made
        obtain ⟨-, rfl⟩ := Text.splitFirst?_eq_some_iff.mp cut
        obtain ⟨same, other⟩ := ofParts?_eq_some_iff.mp parts
        rw [same, other, String.toList_ofList, String.toList_ofList]
      case h_2 => cases parsed
    · rintro rfl
      have cut : Text.splitFirst? ':' (d.method.toList ++ ':' :: d.identifier.toList) =
          some (d.method.toList, d.identifier.toList) :=
        Text.splitFirst?_eq_some_iff.mpr ⟨d.colon_notMem, rfl⟩
      have made : ofParts? (String.ofList d.method.toList) (String.ofList d.identifier.toList) =
          some d := by
        rw [String.ofList_toList, String.ofList_toList]
        exact ofParts?_eq_some_iff.mpr ⟨rfl, rfl⟩
      simp only [cut, Option.bind_some, made]

theorem toText_inj {e : Did} : d.toText = e.toText ↔ d = e := by
  refine ⟨fun same => ?_, congrArg toText⟩
  have read : parse d.toText = .ok e := parse_eq_ok_iff.mpr same
  rw [parse_eq_ok_iff.mpr rfl] at read
  exact Except.ok.inj read

end Did

end Mandate

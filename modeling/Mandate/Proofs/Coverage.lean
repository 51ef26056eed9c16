import Mandate.Coverage
import Mandate.Proofs.Table
import Mathlib.Data.List.Infix

/-!
# What a delegation covers

Resolving a delegated resource against a claimed one gives the claimed one back or a directory that
contains it. So whatever is covered along a chain of resolutions is the resource at its start or a
directory of that, and a pattern that covers a directory covers what is in it.
-/

namespace Mandate

namespace Text

theorem startsWith_iff {s part : String} : startsWith s part = true ↔ part.toList <+: s.toList :=
  List.isPrefixOf_iff_prefix

theorem startsWith_trans {s t part : String} (h : startsWith s t = true)
    (h' : startsWith t part = true) : startsWith s part = true := by
  rw [startsWith_iff] at h h' ⊢
  exact h'.trans h

theorem dropStart?_eq_some_iff {α : Type} [BEq α] [LawfulBEq α] {start s rest : List α} :
    dropStart? start s = some rest ↔ s = start ++ rest := by
  induction start generalizing s with
  | nil => simp [dropStart?, eq_comm]
  | cons a start ih =>
      cases s with
      | nil => simp [dropStart?]
      | cons b s =>
          by_cases same : a = b
          · simp [dropStart?, same, ih]
          · have other : ¬ b = a := fun h => same h.symm
            simp [dropStart?, same, other]

end Text

namespace Pattern

theorem under_iff {stem value : List Char} :
    under stem value = true ↔ ∃ c rest, value = stem ++ c :: rest := by
  unfold under
  constructor
  · intro h
    split at h
    case h_1 c rest found => exact ⟨c, rest, Text.dropStart?_eq_some_iff.mp found⟩
    case h_2 => cases h
  · rintro ⟨c, rest, same⟩
    rw [Text.dropStart?_eq_some_iff.mpr same]

/-- The three ways to cover a value. -/
theorem covers_iff {pattern value : String} :
    covers pattern value = true ↔ pattern ≠ "" ∧ value ≠ "" ∧
      (pattern = "*" ∨ pattern = value ∨
        ∃ stem, stem? pattern.toList = some stem ∧ under stem value.toList = true) := by
  unfold covers
  by_cases empty : pattern = "" ∨ value = ""
  · rw [if_pos empty]
    rcases empty with rfl | rfl <;> simp
  · rw [if_neg empty]
    have hp : pattern ≠ "" := fun h => empty (Or.inl h)
    have hv : value ≠ "" := fun h => empty (Or.inr h)
    by_cases plain : pattern = "*" ∨ pattern = value
    · rw [if_pos plain]
      rcases plain with star | literal
      · exact iff_of_true rfl ⟨hp, hv, Or.inl star⟩
      · exact iff_of_true rfl ⟨hp, hv, Or.inr (Or.inl literal)⟩
    · rw [if_neg plain]
      have star : pattern ≠ "*" := fun h => plain (Or.inl h)
      have literal : pattern ≠ value := fun h => plain (Or.inr h)
      cases stem? pattern.toList <;> simp [hp, hv, star, literal]

/-- A pattern that covers a beginning of a text is that beginning or covers the text. -/
theorem covers_of_startsWith {pattern beginning s : String} (h : covers pattern beginning = true)
    (within : Text.startsWith s beginning = true) :
    pattern = beginning ∨ covers pattern s = true := by
  obtain ⟨hp, hb, ways⟩ := covers_iff.mp h
  obtain ⟨more, longer⟩ := Text.startsWith_iff.mp within
  have hs : s ≠ "" := by
    rintro rfl
    have none : beginning = "" ∧ more = [] := by simpa using congrArg List.length longer
    exact hb none.1
  rcases ways with star | literal | ⟨stem, hstem, below⟩
  · exact Or.inr (covers_iff.mpr ⟨hp, hs, Or.inl star⟩)
  · exact Or.inl literal
  · refine Or.inr (covers_iff.mpr ⟨hp, hs, Or.inr (Or.inr ⟨stem, hstem, ?_⟩)⟩)
    obtain ⟨c, rest, same⟩ := under_iff.mp below
    refine under_iff.mpr ⟨c, rest ++ more, ?_⟩
    rw [← longer, same, List.append_assoc, List.cons_append]

end Pattern

namespace Coverage

/-- What stands for a resource along a chain: the resource itself or a directory that contains it. -/
def Keeps (held resource : String) : Prop :=
  held = resource ∨ Text.endsWith held "/" = true ∧ Text.startsWith resource held = true

/-- What a delegation may name when a resource is to be proven. -/
def Admits (delegated resource : String) : Prop :=
  delegated = anyResource ∨ Pattern.covers delegated resource = true ∨
    Text.endsWith delegated "/" = true ∧ Text.startsWith resource delegated = true

theorem ability?_eq_some_iff {delegated claimed ability : String} :
    ability? delegated claimed = some ability ↔
      Pattern.covers delegated claimed = true ∧ ability = claimed := by
  unfold ability?
  split
  case isTrue covered => simp [covered, eq_comm]
  case isFalse uncovered => simp [uncovered]

/-- Resolving goes on to keep what the claim was kept for, and the delegation admits that. -/
theorem keeps_of_resource? {delegated held resolved resource : String} (kept : Keeps held resource)
    (h : resource? delegated held = some resolved) :
    Keeps resolved resource ∧ Admits delegated resource := by
  unfold resource? at h
  split at h
  case isTrue whole =>
    cases h
    refine ⟨kept, ?_⟩
    rcases whole with any | covered
    · exact Or.inl any
    · rcases kept with rfl | ⟨closed, within⟩
      · exact Or.inr (Or.inl covered)
      · rcases Pattern.covers_of_startsWith covered within with rfl | further
        · exact Or.inr (Or.inr ⟨closed, within⟩)
        · exact Or.inr (Or.inl further)
  case isFalse =>
    split at h
    case isTrue inside =>
      cases h
      obtain ⟨closed, within⟩ := Bool.and_eq_true_iff.mp inside
      have contained : Text.startsWith resource delegated = true := by
        rcases kept with rfl | ⟨-, outer⟩
        · exact within
        · exact Text.startsWith_trans outer within
      exact ⟨Or.inr ⟨closed, contained⟩, Or.inr (Or.inr ⟨closed, contained⟩)⟩
    case isFalse => cases h

/-- A delegated capability, resolved: the ability is the claimed one, and its caveats are looked up before
those of the claim. -/
theorem resolve?_eq_some {delegated claimed resolved : Capability}
    (h : resolve? delegated claimed = some resolved) :
    (Pattern.covers delegated.ability claimed.ability = true ∧
      resolved.ability = claimed.ability) ∧
    resource? delegated.resource claimed.resource = some resolved.resource ∧
    resolved.caveats = Table.override claimed.caveats delegated.caveats := by
  unfold resolve? at h
  obtain ⟨ability, ha, h⟩ := Option.bind_eq_some_iff.mp h
  obtain ⟨resource, hr, h⟩ := Option.bind_eq_some_iff.mp h
  cases h
  exact ⟨ability?_eq_some_iff.mp ha, hr, rfl⟩

end Coverage

end Mandate

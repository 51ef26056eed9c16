import Mandate.Proofs.Coverage

/-!
# Patterns segment by segment

Covering is computed on texts: a suffix is taken off the pattern and what is left is looked for at the
beginning of the value. Here it is said in terms of the segments between the slashes. Splitting loses
nothing, so a text begins with a stem exactly if its segments begin with those of the stem.
-/

namespace Mandate

namespace Text

variable {α : Type} [BEq α] [LawfulBEq α] {sep : α}

theorem splitOn_injective {xs ys : List α} (same : xs.splitOn sep = ys.splitOn sep) : xs = ys :=
  calc
    xs = [sep].intercalate (xs.splitOn sep) := (List.intercalate_splitOn sep).symm
    _ = [sep].intercalate (ys.splitOn sep) := by rw [same]
    _ = ys := List.intercalate_splitOn sep

theorem not_mem_of_mem_splitOn {xs part : List α} (h : part ∈ xs.splitOn sep) : sep ∉ part := by
  induction xs generalizing part with
  | nil =>
      rw [List.splitOn_nil, List.mem_singleton] at h
      simp [h]
  | cons x xs ih =>
      rw [List.splitOn_cons_eq_if_modifyHead] at h
      split at h
      case isTrue =>
        rcases List.mem_cons.mp h with rfl | later
        · exact List.not_mem_nil
        · exact ih later
      case isFalse other =>
        obtain ⟨first, rest, parts⟩ := List.exists_cons_of_ne_nil (List.splitOn_ne_nil sep xs)
        rw [parts, List.modifyHead_cons] at h
        rcases List.mem_cons.mp h with rfl | later
        · have apart : ¬ sep = x := fun same => other (beq_iff_eq.mpr same.symm)
          have clean : sep ∉ first := ih (parts ▸ List.mem_cons_self)
          simp [apart, clean]
        · exact ih (parts ▸ List.mem_cons_of_mem first later)

/-- Where the parts of a text are cut in two, the text has a separator there. -/
theorem exists_of_splitOn_eq_append {xs : List α} {before after : List (List α)}
    (h : xs.splitOn sep = before ++ after) (left : before ≠ []) (right : after ≠ []) :
    ∃ s t, xs = s ++ sep :: t ∧ s.splitOn sep = before ∧ t.splitOn sep = after := by
  have clean : ∀ part ∈ before ++ after, sep ∉ part := fun part mem =>
    not_mem_of_mem_splitOn (h ▸ mem)
  have hs : ([sep].intercalate before).splitOn sep = before :=
    List.splitOn_intercalate sep (fun part mem => clean part (List.mem_append_left _ mem)) left
  have ht : ([sep].intercalate after).splitOn sep = after :=
    List.splitOn_intercalate sep (fun part mem => clean part (List.mem_append_right _ mem)) right
  have joined : xs.splitOn sep =
      ([sep].intercalate before ++ sep :: [sep].intercalate after).splitOn sep := by
    rw [h, List.splitOn_append_cons_self, hs, ht]
  exact ⟨[sep].intercalate before, [sep].intercalate after, splitOn_injective joined, hs, ht⟩

end Text

namespace Pattern

/-- The parts of a text between its slashes. There is at least one, and any of them can be empty. -/
def segments (s : String) : List (List Char) :=
  s.toList.splitOn '/'

/-- The last of at least two segments is a star of its own, the ones before it are the first segments of
the value, and what the value has after those is more than one empty segment. -/
def Spans (pattern value : List (List Char)) : Prop :=
  2 ≤ pattern.length ∧ pattern.getLast? = some ['*'] ∧ pattern.dropLast <+: value ∧
    value.drop pattern.dropLast.length ≠ [] ∧ value.drop pattern.dropLast.length ≠ [[]]

instance (pattern value : List (List Char)) : Decidable (Spans pattern value) :=
  inferInstanceAs (Decidable (_ ∧ _))

theorem spans_iff_exists {pattern value : List (List Char)} :
    Spans pattern value ↔ ∃ first rest, first ≠ [] ∧ pattern = first ++ [['*']] ∧
      value = first ++ rest ∧ rest ≠ [] ∧ rest ≠ [[]] := by
  constructor
  · rintro ⟨two, last, ⟨rest, rfl⟩, more, filled⟩
    rw [List.drop_left] at more filled
    have cut : pattern = pattern.dropLast ++ [['*']] :=
      (List.dropLast_append_getLast? _ last).symm
    refine ⟨pattern.dropLast, rest, ?_, cut, rfl, more, filled⟩
    apply List.ne_nil_of_length_pos
    rw [List.length_dropLast]
    omega
  · rintro ⟨first, rest, some_first, rfl, rfl, more, filled⟩
    have long : 1 ≤ first.length := List.length_pos_of_ne_nil some_first
    rw [Spans, List.dropLast_concat, List.drop_left]
    refine ⟨?_, List.getLast?_concat, List.prefix_append first rest, more, filled⟩
    rw [List.length_append, List.length_singleton]
    omega

theorem splitOn_eq_nil_segment_iff {cs : List Char} : cs.splitOn '/' = [[]] ↔ cs = [] :=
  ⟨fun h => Text.splitOn_injective (h.trans (List.splitOn_nil '/').symm),
    fun h => h ▸ List.splitOn_nil '/'⟩

theorem splitOn_eq_star_iff {cs : List Char} : cs.splitOn '/' = [['*']] ↔ cs = ['*'] :=
  have alone : ['*'].splitOn '/' = [['*']] := List.splitOn_eq_singleton (by decide)
  ⟨fun h => Text.splitOn_injective (h.trans alone.symm), fun h => h ▸ alone⟩

theorem stem?_eq_some_iff {cs stem : List Char} :
    stem? cs = some stem ↔ ∃ s, cs = s ++ ['/', '*'] ∧ stem = s ++ ['/'] := by
  unfold stem?
  constructor
  · intro h
    split at h
    case h_1 rest ends =>
      cases h
      refine ⟨rest.reverse, ?_, List.reverse_cons⟩
      rw [← List.reverse_reverse cs, ends]
      simp
    case h_2 => cases h
  · rintro ⟨s, rfl, rfl⟩
    simp

/-- Lying under the stem of a pattern, in terms of segments. -/
theorem spans_iff {pattern value : String} :
    Spans (segments pattern) (segments value) ↔
      ∃ stem, stem? pattern.toList = some stem ∧ under stem value.toList = true := by
  constructor
  · intro h
    obtain ⟨first, rest, some_first, hp, hv, more, filled⟩ := spans_iff_exists.mp h
    obtain ⟨s, star, cut, hs, hstar⟩ :=
      Text.exists_of_splitOn_eq_append hp some_first (List.cons_ne_nil _ _)
    obtain ⟨s', t, cut', hs', ht⟩ := Text.exists_of_splitOn_eq_append hv some_first more
    have stems : s' = s := Text.splitOn_injective (hs'.trans hs.symm)
    have final : star = ['*'] := splitOn_eq_star_iff.mp hstar
    have follows : t ≠ [] := fun empty => filled (ht ▸ splitOn_eq_nil_segment_iff.mpr empty)
    obtain ⟨c, cs, rfl⟩ := List.exists_cons_of_ne_nil follows
    refine ⟨s ++ ['/'], stem?_eq_some_iff.mpr ⟨s, ?_, rfl⟩, under_iff.mpr ⟨c, cs, ?_⟩⟩
    · rw [cut, final]
    · rw [cut', stems, List.append_assoc, List.singleton_append]
  · rintro ⟨stem, hstem, below⟩
    obtain ⟨s, cut, rfl⟩ := stem?_eq_some_iff.mp hstem
    obtain ⟨c, cs, longer⟩ := under_iff.mp below
    refine spans_iff_exists.mpr ⟨s.splitOn '/', (c :: cs).splitOn '/', List.splitOn_ne_nil _ _,
      ?_, ?_, List.splitOn_ne_nil _ _, ?_⟩
    · show pattern.toList.splitOn '/' = _
      rw [cut, List.splitOn_append_cons_self, splitOn_eq_star_iff.mpr rfl]
    · show value.toList.splitOn '/' = _
      rw [longer, List.append_assoc, List.singleton_append, List.splitOn_append_cons_self]
    · exact fun empty => List.cons_ne_nil c cs (splitOn_eq_nil_segment_iff.mp empty)

/-- Covering is decided by the segments alone. So a star that is only part of a segment stands for
itself: unless the last segment is a star of its own, a pattern covers nothing but itself. -/
theorem covers_iff_segments (pattern value : String) :
    (covers pattern value = true ↔ pattern ≠ "" ∧ value ≠ "" ∧
      (pattern = "*" ∨ pattern = value ∨ Spans (segments pattern) (segments value))) ∧
    ((segments pattern).getLast? ≠ some ['*'] →
      (covers pattern value = true ↔ pattern ≠ "" ∧ pattern = value)) := by
  have whole : covers pattern value = true ↔ pattern ≠ "" ∧ value ≠ "" ∧
      (pattern = "*" ∨ pattern = value ∨ Spans (segments pattern) (segments value)) := by
    rw [covers_iff, spans_iff]
  refine ⟨whole, fun literal => whole.trans ⟨?_, ?_⟩⟩
  · rintro ⟨hp, -, rfl | same | ⟨-, star, -⟩⟩
    · exact absurd rfl literal
    · exact ⟨hp, same⟩
    · exact absurd star literal
  · rintro ⟨hp, rfl⟩
    exact ⟨hp, hp, Or.inr (Or.inl rfl)⟩

theorem covers_iff_segments_partial_star :
    covers "store/ab*" "store/abc" = false ∧ covers "store/ab*" "store/ab*" = true := by
  have literal := (covers_iff_segments "store/ab*" "store/abc").2 (by decide)
  have itself := (covers_iff_segments "store/ab*" "store/ab*").2 (by decide)
  refine ⟨?_, itself.mpr ⟨by decide, rfl⟩⟩
  rw [← Bool.not_eq_true, literal]
  decide

end Pattern

end Mandate

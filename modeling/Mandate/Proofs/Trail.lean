import Mandate.Proofs.Coverage
import Mandate.Url.Path

/-!
# Paths that go on

A path that ends in a slash keeps its segments when more is written after it, as long as the dots of what
is added take back no more than that has added itself. Where files are named, the first segment also says
whether there is a drive, so this needs a segment to be there already.
-/

namespace Mandate.Url

variable {file : Bool} {isSlash : Char → Bool}

/-- Whether the double dots among some segments take back no more than came before them, given how many
segments that may be. -/
def stays : (depth : Nat) → List (List Char) → Bool
  | _, [] => true
  | depth, part :: parts =>
    if isDoubleDot (clean part) then
      match depth with
      | 0 => false
      | depth + 1 => stays depth parts
    else if isSingleDot (clean part) then stays depth parts
    else stays (depth + 1) parts

/-! ## Splitting -/

theorem splitSegments_ne_nil (s : List Char) : splitSegments isSlash s ≠ [] := by
  cases s with
  | nil => simp [splitSegments]
  | cons c rest =>
      rw [splitSegments]
      split
      · simp
      · split <;> simp

@[simp] theorem clean_clean (s : List Char) : clean (clean s) = clean s := by
  simp [clean]

/-- Tabs and line ends are no slashes, so it does not matter when they are left out. -/
theorem splitSegments_clean (breaks : ∀ c, isBreak c = true → isSlash c = false) (s : List Char) :
    splitSegments isSlash (clean s) = (splitSegments isSlash s).map clean := by
  induction s with
  | nil => rfl
  | cons c rest ih =>
      by_cases slash : isSlash c = true
      · have kept : isBreak c = false := by
          cases h : isBreak c with
          | false => rfl
          | true => rw [breaks c h] at slash; cases slash
        have cleaned : clean (c :: rest) = c :: clean rest := by simp [clean, kept]
        rw [cleaned, splitSegments, splitSegments, if_pos slash, if_pos slash, ih]
        rfl
      · obtain ⟨part, parts, split⟩ := List.exists_cons_of_ne_nil (splitSegments_ne_nil rest)
        have whole : splitSegments isSlash (c :: rest) = (c :: part) :: parts := by
          rw [splitSegments, if_neg slash, split]
        rw [whole, List.map_cons]
        rw [split, List.map_cons] at ih
        cases broken : isBreak c with
        | true =>
            have cleaned : ∀ s, clean (c :: s) = clean s := by simp [clean, broken]
            rw [cleaned, cleaned, ih]
        | false =>
            have cleaned : ∀ s, clean (c :: s) = c :: clean s := by simp [clean, broken]
            rw [cleaned, cleaned, splitSegments, if_neg slash, ih]

theorem stays_clean (depth : Nat) (parts : List (List Char)) :
    stays depth (parts.map clean) = stays depth parts := by
  induction parts generalizing depth with
  | nil => rfl
  | cons part parts ih =>
      simp only [List.map_cons, stays, clean_clean, ih]

/-! ## Following a path -/

namespace Trail

/-- The trail after a part that others come after. -/
def step (file : Bool) (t : Trail) (part : List Char) : Trail :=
  if isDoubleDot (clean part) then ⟨shorten t.segments, t.hasDrive⟩
  else if isSingleDot (clean part) then t
  else t.append file part

end Trail

/-! ## Segments of a path that goes on -/

namespace Trail

/-- The segments of the path that has been read. -/
def parts (file : Bool) (t : Trail) : List (List Char) :=
  if file then dropEmptyFront t.segments.reverse else t.segments.reverse

end Trail

end Mandate.Url

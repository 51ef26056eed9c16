import Mandate.Text.Lines
import Mathlib.Data.List.Basic

/-!
# Lines and what they are joined to

Texts joined by line feeds have the lines of all of them, one text after the other, if each one ends within a
line. In particular a nested message that is moved right as an item of a list keeps its lines. What may come
between is a carriage return: one before a line feed is no part of any line.
-/

namespace Mandate.Text

/-! ## Texts without carriage returns -/

/-- Whether a text has no carriage return. -/
def NoReturn (s : String) : Prop := '\r' ∉ s.toList

instance (s : String) : Decidable (NoReturn s) := inferInstanceAs (Decidable (_ ∉ _))

section

variable {s t sep : String} {ls : List String}

@[simp] theorem noReturn_append : NoReturn (s ++ t) ↔ NoReturn s ∧ NoReturn t := by
  simp [NoReturn]

/-- A literal text is checked by its characters. -/
theorem noReturn_literal {cs : List Char} (h : '\r' ∉ cs) : NoReturn (String.ofList cs) := by
  rwa [NoReturn, String.toList_ofList]

theorem noReturn_intercalate (between : NoReturn sep) (h : ∀ l ∈ ls, NoReturn l) :
    NoReturn (sep.intercalate ls) := by
  induction ls with
  | nil => simp [NoReturn]
  | cons l ls ih =>
      obtain ⟨first, others⟩ := List.forall_mem_cons.mp h
      cases ls with
      | nil => simpa using first
      | cons k ls =>
          rw [String.intercalate_cons_cons, noReturn_append, noReturn_append]
          exact ⟨⟨first, between⟩, ih others⟩

theorem noReturn_unlines (h : ∀ l ∈ ls, NoReturn l) : NoReturn (unlines ls) :=
  noReturn_intercalate (noReturn_literal (by decide)) h

end

/-! ## The lines of a text -/

section

variable {current xs ys line : List Char} {x : Char}

/-- The line that a line feed ends, given what came before it on the line in reverse. -/
def ended (current : List Char) : List Char :=
  let line := match current with
    | '\r' :: before => before
    | line => line
  line.reverse

theorem ended_cons (h : x ≠ '\r') : ended (x :: current) = (x :: current).reverse := by
  simp [ended, h]

theorem ended_subset : ended current ⊆ current := by
  unfold ended
  split <;> intro c mem <;> simp_all

theorem linesFrom_nil :
    linesFrom current [] = if current.isEmpty then [] else [current.reverse] := rfl

theorem linesFrom_feed : linesFrom current ('\n' :: xs) = ended current :: linesFrom [] xs := rfl

theorem linesFrom_cons (h : x ≠ '\n') : linesFrom current (x :: xs) = linesFrom (x :: current) xs := by
  rw [linesFrom]
  exact h

/-- What comes after a line feed starts a line of its own. -/
theorem linesFrom_append_feed :
    linesFrom current (xs ++ '\n' :: ys) = linesFrom current (xs ++ ['\n']) ++ linesFrom [] ys := by
  induction xs generalizing current with
  | nil => simp [linesFrom_feed, linesFrom_nil]
  | cons x xs ih =>
      rw [List.cons_append, List.cons_append]
      by_cases feed : x = '\n'
      · rw [feed, linesFrom_feed, linesFrom_feed, ih, List.cons_append]
      · rw [linesFrom_cons feed, linesFrom_cons feed, ih]

/-- A line feed only ends the last line, if that has begun and does not end in a carriage return. -/
theorem linesFrom_concat_feed (feed : x ≠ '\n') (ret : x ≠ '\r') :
    linesFrom current (xs ++ [x, '\n']) = linesFrom current (xs ++ [x]) := by
  induction xs generalizing current with
  | nil =>
      rw [List.nil_append, List.nil_append, linesFrom_cons feed, linesFrom_cons feed, linesFrom_feed,
        ended_cons ret]
      rfl
  | cons y xs ih =>
      rw [List.cons_append, List.cons_append]
      by_cases other : y = '\n'
      · rw [other, linesFrom_feed, linesFrom_feed, ih]
      · rw [linesFrom_cons other, linesFrom_cons other, ih]

theorem linesFrom_ne_nil (h : current ≠ [] ∨ xs ≠ []) : linesFrom current xs ≠ [] := by
  induction xs generalizing current with
  | nil => simpa [linesFrom_nil] using h
  | cons x xs ih =>
      by_cases feed : x = '\n'
      · rw [feed, linesFrom_feed]
        exact List.cons_ne_nil _ _
      · rw [linesFrom_cons feed]
        exact ih (.inl (List.cons_ne_nil _ _))

/-- Without a line feed there is one line. -/
theorem linesFrom_of_notMem (h : '\n' ∉ xs) :
    linesFrom current xs = if current.isEmpty && xs.isEmpty then [] else [current.reverse ++ xs] := by
  induction xs generalizing current with
  | nil => cases current <;> simp [linesFrom_nil]
  | cons x xs ih =>
      simp only [List.mem_cons, not_or] at h
      rw [linesFrom_cons (Ne.symm h.1), ih h.2]
      simp

/-- The characters of a line are among those of the text, and none is a line feed. -/
theorem of_mem_linesFrom (h : line ∈ linesFrom current xs) (begun : '\n' ∉ current) :
    '\n' ∉ line ∧ line ⊆ current ++ xs := by
  induction xs generalizing current with
  | nil =>
      rw [linesFrom_nil] at h
      split at h
      · cases h
      · obtain rfl := List.mem_singleton.mp h
        simpa using begun
  | cons x xs ih =>
      by_cases feed : x = '\n'
      · rw [feed, linesFrom_feed] at h
        rcases List.mem_cons.mp h with rfl | later
        · exact ⟨fun mem => begun (ended_subset mem),
            fun c mem => List.mem_append_left _ (ended_subset mem)⟩
        · obtain ⟨none, among⟩ := ih later List.not_mem_nil
          exact ⟨none, fun c mem => List.mem_append_right _ (List.mem_cons_of_mem _ (among mem))⟩
      · rw [linesFrom_cons feed] at h
        have begun : '\n' ∉ x :: current := by simpa using ⟨Ne.symm feed, begun⟩
        obtain ⟨none, among⟩ := ih h begun
        exact ⟨none, fun c mem => by simpa [or_left_comm] using among mem⟩

end

/-- Whether a text ends within a line: it has a last character, and that is no part of the end of a line. -/
def EndsInLine (s : String) : Prop := ∃ xs x, s.toList = xs ++ [x] ∧ x ≠ '\n' ∧ x ≠ '\r'

/-- Whether a text is one line that is not empty. -/
structure IsLine (s : String) : Prop where
  ne : s ≠ ""
  noFeed : '\n' ∉ s.toList
  noReturn : NoReturn s

section

variable {s t line : String} {ls : List String}

theorem EndsInLine.append (h : EndsInLine t) : EndsInLine (s ++ t) := by
  obtain ⟨xs, x, ends, last⟩ := h
  exact ⟨s.toList ++ xs, x, by rw [String.toList_append, ends, List.append_assoc], last⟩

theorem isLine_literal {cs : List Char} (ne : cs ≠ []) (noFeed : '\n' ∉ cs) (noReturn : '\r' ∉ cs) :
    IsLine (String.ofList cs) where
  ne := by simpa using ne
  noFeed := by rwa [String.toList_ofList]
  noReturn := noReturn_literal noReturn

theorem IsLine.endsInLine (h : IsLine s) : EndsInLine s := by
  have ne : s.toList ≠ [] := by simpa using h.ne
  refine ⟨_, _, (List.dropLast_append_getLast ne).symm, ?_, ?_⟩
  · exact fun feed => h.noFeed (feed ▸ List.getLast_mem ne)
  · exact fun ret => h.noReturn (ret ▸ List.getLast_mem ne)

theorem IsLine.lines (h : IsLine s) : lines s = [s] := by
  have ne : s.toList ≠ [] := by simpa using h.ne
  rw [Text.lines, linesFrom_of_notMem h.noFeed]
  simp [ne]

theorem IsLine.append (h : IsLine s) (noFeed : '\n' ∉ t.toList) (noReturn : NoReturn t) :
    IsLine (s ++ t) where
  ne := by simp [h.ne]
  noFeed := by simpa using ⟨h.noFeed, noFeed⟩
  noReturn := noReturn_append.mpr ⟨h.noReturn, noReturn⟩

theorem noFeed_of_mem_lines (h : line ∈ lines s) : '\n' ∉ line.toList := by
  obtain ⟨xs, mem, rfl⟩ := List.mem_map.mp h
  rw [String.toList_ofList]
  exact (of_mem_linesFrom mem List.not_mem_nil).1

theorem noReturn_of_mem_lines (h : line ∈ lines s) (noReturn : NoReturn s) : NoReturn line := by
  obtain ⟨xs, mem, rfl⟩ := List.mem_map.mp h
  rw [NoReturn, String.toList_ofList]
  exact fun ret => noReturn ((of_mem_linesFrom mem List.not_mem_nil).2 ret)

theorem lines_ne_nil (h : s ≠ "") : lines s ≠ [] := by
  have ne : s.toList ≠ [] := by simpa using h
  simpa [lines] using linesFrom_ne_nil (.inr ne)

/-- A line feed separates the lines before it from those after it, if it does not come first on its line. -/
theorem lines_append_feed (h : EndsInLine s) : lines (s ++ "\n" ++ t) = lines s ++ lines t := by
  obtain ⟨xs, x, ends, feed, ret⟩ := h
  have joined : (s ++ "\n" ++ t).toList = (xs ++ [x]) ++ '\n' :: t.toList := by
    simp [ends]
  rw [lines, joined, linesFrom_append_feed, List.append_assoc, List.singleton_append,
    linesFrom_concat_feed feed ret, ← ends, List.map_append]
  rfl

/-- Texts that end within a line have the same lines alone and joined by line feeds. -/
theorem lines_unlines (h : ∀ l ∈ ls, EndsInLine l) : lines (unlines ls) = ls.flatMap lines := by
  induction ls with
  | nil => rfl
  | cons l ls ih =>
      obtain ⟨first, others⟩ := List.forall_mem_cons.mp h
      cases ls with
      | nil => simp [unlines]
      | cons k ls =>
          rw [unlines, String.intercalate_cons_cons, lines_append_feed first, List.flatMap_cons]
          exact congrArg (lines l ++ ·) (ih others)

theorem endsInLine_unlines (ne : ls ≠ []) (h : ∀ l ∈ ls, EndsInLine l) : EndsInLine (unlines ls) := by
  induction ls with
  | nil => exact absurd rfl ne
  | cons l ls ih =>
      cases ls with
      | nil => simpa [unlines] using h
      | cons k ls =>
          rw [unlines, String.intercalate_cons_cons]
          exact (ih (List.cons_ne_nil _ _) fun l mem => h l (List.mem_cons_of_mem _ mem)).append

end

/-! ## Items of lists -/

/-- The lines of a text as those of an item: a dash before the first, the margin before the others. -/
def item (margin : String) : List String → List String
  | [] => []
  | first :: rest => ("  - " ++ first) :: rest.map (margin ++ ·)

section

variable {margin s : String} {ls : List String}

theorem listItem_eq : listItem margin s = unlines (item margin (lines s)) := by
  rw [listItem]
  cases lines s <;> rfl

theorem noReturn_item (hm : NoReturn margin) (h : ∀ l ∈ ls, NoReturn l) :
    ∀ l ∈ item margin ls, NoReturn l := by
  cases ls with
  | nil => simp [item]
  | cons first rest =>
      obtain ⟨hf, hr⟩ := List.forall_mem_cons.mp h
      rw [item, List.forall_mem_cons, List.forall_mem_map]
      exact ⟨noReturn_append.mpr ⟨noReturn_literal (by decide), hf⟩, fun l mem => noReturn_append.mpr ⟨hm, hr l mem⟩⟩

theorem noReturn_listItem (hm : NoReturn margin) (h : NoReturn s) : NoReturn (listItem margin s) := by
  rw [listItem_eq]
  exact noReturn_unlines (noReturn_item hm fun l mem => noReturn_of_mem_lines mem h)

theorem noReturn_indent (h : NoReturn s) : NoReturn (indent s) := by
  apply noReturn_unlines
  rw [List.forall_mem_map]
  exact fun l mem => noReturn_append.mpr ⟨noReturn_literal (by decide), noReturn_of_mem_lines mem h⟩

theorem isLine_of_mem_item (hm : IsLine margin) (h : NoReturn s) :
    ∀ l ∈ item margin (lines s), IsLine l := by
  have whole : ∀ l ∈ lines s, '\n' ∉ l.toList ∧ NoReturn l :=
    fun l mem => ⟨noFeed_of_mem_lines mem, noReturn_of_mem_lines mem h⟩
  cases split : lines s with
  | nil => simp [item]
  | cons first rest =>
      rw [split] at whole
      obtain ⟨hf, hr⟩ := List.forall_mem_cons.mp whole
      have dash : IsLine "  - " := isLine_literal (by decide) (by decide) (by decide)
      rw [item, List.forall_mem_cons, List.forall_mem_map]
      exact ⟨dash.append hf.1 hf.2, fun l mem => hm.append (hr l mem).1 (hr l mem).2⟩

/-- A text has as many lines as an item of a list as it has on its own. -/
theorem lines_listItem (hm : IsLine margin) (h : NoReturn s) :
    lines (listItem margin s) = item margin (lines s) := by
  have each := isLine_of_mem_item hm h
  rw [listItem_eq, lines_unlines fun l mem => (each l mem).endsInLine]
  calc (item margin (lines s)).flatMap lines
      = (item margin (lines s)).flatMap fun l => [l] := List.flatMap_congr fun l mem => (each l mem).lines
    _ = item margin (lines s) := List.flatMap_singleton' _

theorem endsInLine_listItem (ne : s ≠ "") (hm : IsLine margin) (h : NoReturn s) :
    EndsInLine (listItem margin s) := by
  rw [listItem_eq]
  apply endsInLine_unlines
  · obtain ⟨first, rest, split⟩ := List.exists_cons_of_ne_nil (lines_ne_nil ne)
    rw [split]
    exact List.cons_ne_nil _ _
  · exact fun l mem => (isLine_of_mem_item hm h l mem).endsInLine

end

end Mandate.Text

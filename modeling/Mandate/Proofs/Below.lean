import Mandate.Proofs.Locator

/-!
# Locators below a directory

A text that ends in a slash and the text with more after it are taken apart in the same way: what is left
out around them, the scheme and the authority end before the slash does. So the two locators differ in the
path only, or in what comes after it, unless they name files and the slash is still that of the machine.
-/

namespace Mandate.Url

/-! ## What is left out -/

theorem splitBefore_clean {stop : Char → Bool} (breaks : ∀ c, isBreak c = true → stop c = false)
    (s : List Char) : (splitBefore stop (clean s)).1 = clean (splitBefore stop s).1 := by
  induction s with
  | nil => rfl
  | cons c s ih =>
      simp only [splitBefore, clean, List.filter_cons] at ih ⊢
      cases broken : isBreak c with
      | true => simp [breaks c broken, broken, ih]
      | false => cases ends : stop c <;> simp [ends, broken, ih]

theorem endsPath_of_isBreak {c : Char} (h : isBreak c = true) : endsPath c = false := by
  simp only [isBreak, Bool.or_eq_true, beq_iff_eq] at h
  rcases h with (rfl | rfl) | rfl <;> rfl

theorem isSlash_of_isBreak (special : Bool) {c : Char} (h : isBreak c = true) :
    isSlash special c = false := by
  simp only [isBreak, Bool.or_eq_true, beq_iff_eq] at h
  rcases h with (rfl | rfl) | rfl <;> cases special <;> rfl

/-- Tabs and line ends do not lead out of a directory. -/
theorem descends_clean {special : Bool} {s : List Char} :
    Descends special (clean s) ↔ Descends special s := by
  rw [Descends, Descends, splitBefore_clean fun _ => endsPath_of_isBreak,
    splitSegments_clean fun _ => isSlash_of_isBreak special, stays_clean]

theorem Keeps.clean {u : Url} {more : List Char} (h : u.Keeps more) : u.Keeps (clean more) := by
  intro parts path query fragment
  obtain ⟨anchored, below⟩ := h parts path query fragment
  exact ⟨anchored, descends_clean.mpr below⟩

theorem Closed.clean {s : List Char} (h : Closed s) : Closed (clean s) := by
  obtain ⟨start, rfl⟩ := h
  exact ⟨Url.clean start, clean_append start ['/']⟩

/-- A text without the controls and blanks at its end. -/
def trimEnd (s : List Char) : List Char := (s.reverse.dropWhile fun c => c.toNat ≤ 32).reverse

theorem trimEnd_append {s : List Char} (closed : Closed s) (rest : List Char) :
    trimEnd (s ++ rest) = s ++ trimEnd rest := by
  obtain ⟨start, rfl⟩ := closed
  have own : (start ++ ['/']).reverse.dropWhile (fun c => c.toNat ≤ 32) = (start ++ ['/']).reverse := by
    rw [List.reverse_append]
    rfl
  rw [trimEnd, List.reverse_append, List.dropWhile_append]
  split
  case isTrue blank =>
    rw [own, List.reverse_reverse, trimEnd, List.isEmpty_iff.mp blank]
    simp
  case isFalse =>
    rw [List.reverse_append, List.reverse_reverse]
    rfl

theorem trim_of_closed {s : List Char} (closed : Closed s) :
    trim s = s.dropWhile fun c => c.toNat ≤ 32 := by
  have whole := trimEnd_append (closed.dropWhile (p := fun c => c.toNat ≤ 32) rfl) []
  have none : trimEnd [] = [] := rfl
  rwa [List.append_nil, none, List.append_nil] at whole

theorem Closed.trim {s : List Char} (closed : Closed s) : Closed (trim s) := by
  rw [trim_of_closed closed]
  exact closed.dropWhile rfl

end Mandate.Url

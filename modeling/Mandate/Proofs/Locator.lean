import Mandate.Proofs.Citation
import Mandate.Proofs.Did
import Mandate.Proofs.Trail
import Mandate.Url.Parse

/-!
# Parts of locators that go on

A locator is read part by part from the left. A part that is closed is read without a look at what comes
after it, and a part that is not goes on with it, so its text becomes longer at the end. Paths are the
exception: double dots may lead out of what is added, and segments that come after the slash of a file are
dropped or moved if that has no segment of its own yet.
-/

namespace Mandate.Url

/-! ## Texts that end in a slash -/

def Closed (s : List Char) : Prop := ∃ start, s = start ++ ['/']

theorem Closed.of_append {s t : List Char} (h : Closed (s ++ t)) (some : t ≠ []) : Closed t := by
  obtain ⟨start, same⟩ := h
  have last : t.dropLast ++ [t.getLast some] = t := List.dropLast_append_getLast some
  rw [← last, ← List.append_assoc] at same
  obtain ⟨-, slash⟩ := List.append_inj' same rfl
  exact ⟨t.dropLast, by rw [← slash, last]⟩

theorem Closed.tail {c : Char} {s : List Char} (h : Closed (c :: s)) : s = [] ∨ Closed s := by
  by_cases empty : s = []
  · exact Or.inl empty
  · exact Or.inr (Closed.of_append (s := [c]) h empty)

/-- What is dropped at the front of a closed text is not its slash. -/
theorem Closed.dropWhile {s : List Char} (h : Closed s) {p : Char → Bool} (kept : p '/' = false) :
    Closed (s.dropWhile p) := by
  obtain ⟨start, rfl⟩ := h
  rw [List.dropWhile_append]
  split
  · exact ⟨[], by simp [kept]⟩
  · exact ⟨_, rfl⟩

theorem Closed.any {s : List Char} (h : Closed s) {stop : Char → Bool} (slash : stop '/' = true) :
    s.any stop = true := by
  obtain ⟨start, rfl⟩ := h
  simp [slash]

/-! ## Texts of locators -/

/-- What stands between the scheme and the path. -/
def front (a : Option Authority) (p : Path) : String :=
  match a with
  | some a => "//" ++ a.toText
  | none =>
    match p with
    | .segments ("" :: _ :: _) => "/."
    | _ => ""

/-- The query and the fragment, each after the character that begins it. -/
def ending (special : Bool) (s : List Char) : List Char :=
  let (query, fragment) := queryAndFragment special s
  (query.elim [] fun q => '?' :: q.toList) ++ fragment.elim [] fun f => '#' :: f.toList

@[simp] theorem percentEncode_append (inSet : Char → Bool) (s t : List Char) :
    percentEncode inSet (s ++ t) = percentEncode inSet s ++ percentEncode inSet t := by
  simp [percentEncode]

/-- Whether a character ends the path. -/
def endsPath (c : Char) : Bool := c == '?' || c == '#'

/-- Whether a text, read on as a path, stays below where it begins. -/
def Descends (special : Bool) (s : List Char) : Prop :=
  stays 0 (splitSegments (isSlash special) (splitBefore endsPath s).1) = true

instance (special : Bool) (s : List Char) : Decidable (Descends special s) :=
  inferInstanceAs (Decidable (_ = true))

/-- Whether more text after a locator stays below it. Only paths of segments can be left, and those are
over where a query or fragment has begun. Without a segment, a file may be one of another machine. -/
def Keeps (u : Url) (more : List Char) : Prop :=
  ∀ parts, u.path = .segments parts → u.query = none → u.fragment = none →
    (u.scheme = "file" → parts ≠ [""]) ∧ Descends (isSpecial u.scheme) more

@[simp] theorem clean_append (s t : List Char) : clean (s ++ t) = clean s ++ clean t := by
  simp [clean]

end Mandate.Url

import Mandate.Text.Affix

/-!
# Patterns of abilities and resources

A pattern is a star, a literal, or a literal whose last segment is a star of its own. A star that is only
part of a segment stands for itself.
-/

namespace Mandate.Pattern

/-- What precedes a last segment that is a star, the slash before it included. -/
def stem? (pattern : List Char) : Option (List Char) :=
  match pattern.reverse with
  | '*' :: '/' :: rest => some ('/' :: rest).reverse
  | _ => none

/-- Whether a value lies under a stem: something has to follow it. -/
def under (stem value : List Char) : Bool :=
  match Text.dropStart? stem value with
  | some (_ :: _) => true
  | _ => false

/-- Whether a pattern covers a value. Nothing is covered by or covers the empty text. -/
def covers (pattern value : String) : Bool :=
  if pattern = "" ∨ value = "" then false
  else if pattern = "*" ∨ pattern = value then true
  else
    match stem? pattern.toList with
    | some stem => under stem value.toList
    | none => false

end Mandate.Pattern

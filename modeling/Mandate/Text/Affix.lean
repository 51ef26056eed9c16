/-!
# Beginnings and ends of strings

Character by character, so that a law about strings is a law about lists.
-/

namespace Mandate.Text

/-- Whether `s` begins with `part`. -/
def startsWith (s part : String) : Bool := part.toList.isPrefixOf s.toList

/-- Whether `s` ends with `part`. -/
def endsWith (s part : String) : Bool := part.toList.isSuffixOf s.toList

/-- What is left of a list after a given beginning. -/
def dropStart? [BEq α] : (start s : List α) → Option (List α)
  | [], s => some s
  | a :: start, b :: s => if a == b then dropStart? start s else none
  | _ :: _, [] => none

/-- The characters before the first occurrence of `c` and those after it. -/
def splitFirst? (c : Char) : List Char → Option (List Char × List Char)
  | [] => none
  | x :: rest =>
    if x = c then some ([], rest)
    else (splitFirst? c rest).map fun (before, after) => (x :: before, after)

end Mandate.Text

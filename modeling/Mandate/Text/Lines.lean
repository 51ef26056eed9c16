/-!
# Lines of text

Lines end at a line feed, which takes a carriage return before it along. The text after the last line
feed is a line only when there is any. Nested messages are indented line by line.
-/

namespace Mandate.Text

/-- The lines of a character sequence, given the characters of the current line in reverse. -/
def linesFrom (current : List Char) : List Char → List (List Char)
  | [] => if current.isEmpty then [] else [current.reverse]
  | '\n' :: rest =>
    let line := match current with
      | '\r' :: before => before
      | line => line
    line.reverse :: linesFrom [] rest
  | c :: rest => linesFrom (c :: current) rest

/-- The lines of a text, without their ends. -/
def lines (s : String) : List String :=
  (linesFrom [] s.toList).map String.ofList

/-- Lines joined by line feeds. -/
def unlines (ls : List String) : String := String.intercalate "\n" ls

/-- A text with every line moved right by two columns. -/
def indent (s : String) : String :=
  unlines ((lines s).map ("  " ++ ·))

/-- A text as an item of a list: a dash before its first line, the margin before the others. -/
def listItem (margin s : String) : String :=
  match lines s with
  | [] => ""
  | first :: rest => unlines (("  - " ++ first) :: rest.map (margin ++ ·))

end Mandate.Text

import Mandate.Text.Affix
import Mandate.Url.Percent

/-!
# Paths of locators

A path is split at its slashes. A segment of one dot is dropped and one of two dots takes the segment
before it along, whether the dots are encoded or not; only the letter of a drive stays. Where files are
named, a drive at the front is written with a colon.

Tabs and line ends have no part in a path, except that one may divide the letter of a drive from what
follows.
-/

namespace Mandate.Url

def isBreak (c : Char) : Bool := c == '\t' || c == '\n' || c == '\r'

/-- The text without tabs and line ends. -/
def clean (s : List Char) : List Char := s.filter (!isBreak ·)

/-- The parts of a text between the characters that `isSlash` accepts. -/
def splitSegments (isSlash : Char → Bool) : List Char → List (List Char)
  | [] => [[]]
  | c :: rest =>
    if isSlash c then [] :: splitSegments isSlash rest
    else
      match splitSegments isSlash rest with
      | [] => [[c]]
      | part :: parts => (c :: part) :: parts

/-- A text with every encoded dot written as a dot. -/
def decodeDots : List Char → List Char
  | '%' :: '2' :: 'e' :: rest => '.' :: decodeDots rest
  | '%' :: '2' :: 'E' :: rest => '.' :: decodeDots rest
  | c :: rest => c :: decodeDots rest
  | [] => []

def isSingleDot (part : List Char) : Bool := decodeDots part == ['.']

def isDoubleDot (part : List Char) : Bool := decodeDots part == ['.', '.']

def isDriveLetter : List Char → Bool
  | [c, d] => c.isAlpha && (d == ':' || d == '|')
  | _ => false

/-- Whether a segment stays when two dots come after it: it is the letter of a drive, or begins with one
and a backslash. -/
def isLasting (part : List Char) : Bool :=
  isDriveLetter (part.take 2) && (part.drop 2).head?.all (· == '\\')

/-- The segments, last one first, that are left when two dots come after them. -/
def shorten : List (List Char) → List (List Char)
  | [] => []
  | part :: parts => if isLasting part then part :: parts else parts

/-- The letter of a drive and the name after it, where a tab or line end divides them. -/
def splitDrive? (part : List Char) : Option (List Char × List Char) := do
  let (letter, rest) ← Text.splitFirst? ':' part
  let drive := clean letter ++ [':']
  let name := clean rest
  if isDriveLetter drive && rest.head?.any isBreak && !name.isEmpty then some (drive, name) else none

/-- What has been read of a path. -/
structure Trail where
  /-- The segments that are left, the last one first. -/
  segments : List (List Char)
  /-- Whether a drive was named at the front. -/
  hasDrive : Bool

namespace Trail

/-- The first segment of a path that names a file. -/
def ofFirst (part : List Char) : Trail :=
  match splitDrive? part, clean part with
  | some (drive, name), _ => ⟨[name, drive], false⟩
  | none, [c, d] => if isDriveLetter [c, d] then ⟨[[c, ':']], true⟩ else ⟨[[c, d]], false⟩
  | none, name => ⟨[name], false⟩

/-- The trail with a segment added that is not made of dots. -/
def append (file : Bool) (t : Trail) (part : List Char) : Trail :=
  if file && t.segments.isEmpty then
    let first := ofFirst part
    ⟨first.segments, t.hasDrive || first.hasDrive⟩
  else ⟨clean part :: t.segments, t.hasDrive⟩

/-- The trail after some more parts of a path. Dots at the end leave an empty segment. -/
def follow (file : Bool) (t : Trail) : List (List Char) → Trail
  | [] => t
  | part :: parts =>
    let last := if parts.isEmpty then [[]] else []
    if isDoubleDot (clean part) then follow file ⟨last ++ shorten t.segments, t.hasDrive⟩ parts
    else if isSingleDot (clean part) then follow file ⟨last ++ t.segments, t.hasDrive⟩ parts
    else follow file (t.append file part) parts

end Trail

/-- Where files are named, empty segments at the front do not count. -/
def dropEmptyFront : List (List Char) → List (List Char)
  | [] :: part :: parts => dropEmptyFront (part :: parts)
  | parts => parts

/-- The segments of a path, the slash before the first one left out, and whether they begin with a drive. -/
def pathSegments (file : Bool) (isSlash : Char → Bool) (path : List Char) : List (List Char) × Bool :=
  let trail := Trail.follow file ⟨[], false⟩ (splitSegments isSlash path)
  let segments := trail.segments.reverse
  let segments := if file then dropEmptyFront segments else segments
  (segments.map (percentEncode inPathSet), trail.hasDrive)

end Mandate.Url

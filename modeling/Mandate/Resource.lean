import Mandate.Did
import Mandate.Schema.Error
import Mandate.Text.Quoted
import Mandate.Url.Parse

/-!
# Resources

What a capability is over is given as text and read as an identifier, as a locator or as it is. Rules
compare resources by the text of what was read.
-/

namespace Mandate

inductive Resource where
  | did (value : Did)
  | url (value : Url)
  | text (value : String)

namespace Resource

def toText : Resource → String
  | did d => d.toText
  | url u => u.toText
  | text s => s

/-- Reads a resource, or says what is wrong with it. -/
abbrev Reader := String → Except Schema.Error Resource

/-- Identifiers, of one method if one is given. -/
def readDid (method : Option String) : Reader := fun input =>
  match Did.parse input with
  | .error _ => .error (.message ("Expected a did: URI instead got " ++ Text.quoted input))
  | .ok d =>
    match method with
    | none => .ok (did d)
    | some m =>
      if d.method = m then .ok (did d)
      else .error (.message ("Expected a did:" ++ m ++ ": URI instead got " ++ Text.quoted input))

/-- A protocol without the colons at its end. -/
def schemeOf (protocol : String) : String :=
  String.ofList (protocol.toList.reverse.dropWhile (· == ':')).reverse

/-- Locators, of one protocol if one is given. -/
def readUrl (protocol : Option String) : Reader := fun input =>
  match Url.parse input with
  | .error e => .error (.message ("Invalid URI " ++ Text.quoted input ++ ": " ++ e.message))
  | .ok u =>
    match protocol with
    | none => .ok (url u)
    | some p =>
      if schemeOf p = u.scheme then .ok (url u)
      else .error (.message ("Expected " ++ p ++ " URI instead got " ++ input))

/-- Any text. -/
def readText : Reader := fun input => .ok (text input)

end Resource

end Mandate

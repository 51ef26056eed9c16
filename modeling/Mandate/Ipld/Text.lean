import Mandate.Binary64.Decimal
import Mandate.Cid.Text
import Mandate.Ipld
import Mandate.Text.Quoted

/-!
# Linked data as text

A compact form for diagnostics. Strings are quoted, but keys stand between quotes as they are; of bytes
only the number is told.
-/

namespace Mandate

def Cid.linkText (c : Cid) : String := "\x7b\"/\":\"" ++ c.toText ++ "\"\x7d"

namespace Ipld

mutual

def toText : Ipld → String
  | null => "null"
  | bool b => if b then "true" else "false"
  | integer n => toString n
  | float x => x.toText
  | string s => Text.quoted s
  | bytes b => "<" ++ toString b.length ++ " bytes>"
  | list xs => "[" ++ ",".intercalate (itemTexts xs) ++ "]"
  | map es => "\x7b" ++ ",".intercalate (entryTexts es) ++ "\x7d"
  | link c => c.linkText

def itemTexts : List Ipld → List String
  | [] => []
  | x :: xs => toText x :: itemTexts xs

def entryTexts : List (String × Ipld) → List String
  | [] => []
  | (k, x) :: es => ("\"" ++ k ++ "\":" ++ toText x) :: entryTexts es

end

end Ipld

/-- The text of caveats, that of the map of them. -/
def Fields.toText (f : Fields) : String := (Ipld.map f).toText

end Mandate

import Mandate.Text.Lines

/-!
# Why a value is refused

The failure of a composite schema holds the failures of its parts, so that the message leads to the
place in question.
-/

namespace Mandate.Schema

inductive Error where
  | type (expected actual : String)
  | literal (expected actual : String)
  | field (name : String) (cause : Error)
  | element (index : Nat) (cause : Error)
  | union (actual : String) (causes : List Error)
  | intersection (causes : List Error)
  | message (text : String)

namespace Error

mutual

def toText : Error → String
  | type expected actual => "Expected value of type " ++ expected ++ " instead got " ++ actual
  | literal expected actual => "Expected literal " ++ expected ++ " instead got " ++ actual
  | field name cause =>
    "Object contains invalid field \"" ++ name ++ "\":\n" ++ Text.indent (toText cause)
  | element index cause =>
    "Array contains invalid element at " ++ toString index ++ ":\n" ++ Text.indent (toText cause)
  | union actual causes =>
    "Value of type " ++ actual ++ " does not match any member of the union\n" ++
      Text.unlines (itemTexts causes)
  | intersection causes =>
    "Value does not conform to the intersection\n" ++ Text.unlines (itemTexts causes)
  | message text => text

def itemTexts : List Error → List String
  | [] => []
  | e :: es => Text.listItem "  " (toText e) :: itemTexts es

end

end Error

end Mandate.Schema

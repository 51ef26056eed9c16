import Mandate.Ipld.Text
import Mandate.Schema

/-!
# Schemas as text

How messages name the values that a schema accepts. Refinements are not mentioned.
-/

namespace Mandate

/-- The name of the type of a value. -/
def Ipld.typeName : Ipld → String
  | null => "null"
  | bool _ => "boolean"
  | integer _ => "integer"
  | float _ => "float"
  | string _ => "string"
  | bytes _ => "bytes"
  | list _ => "array"
  | map _ => "object"
  | link _ => "link"

/-- A scalar as it is; of other values the name of the type. -/
def Ipld.brief : Ipld → String
  | string s => Text.quoted s
  | integer n => toString n
  | float x => x.toText
  | bool b => if b then "true" else "false"
  | link c => c.toText
  | value => value.typeName

namespace Schema

mutual

def toText : Schema → String
  | unknown => "unknown"
  | null => "null"
  | boolean => "boolean"
  | integer => "integer"
  | float => "float"
  | string => "string"
  | bytes => "bytes"
  | link => "link"
  | literal value => value.brief
  | array item => "array<" ++ toText item ++ ">"
  | tuple members => "[" ++ ", ".intercalate (memberTexts members) ++ "]"
  | dictionary value => "dictionary<" ++ toText value ++ ">"
  | struct fields => "\x7b" ++ ", ".intercalate (fieldTexts fields) ++ "\x7d"
  | union members => " | ".intercalate (memberTexts members)
  | intersection members => " & ".intercalate (memberTexts members)
  | optional inner => toText inner ++ "?"
  | refined inner _ => toText inner

def memberTexts : List Schema → List String
  | [] => []
  | s :: rest => toText s :: memberTexts rest

/-- A question mark follows the name of a field that may be absent. -/
def fieldTexts : List (String × Schema) → List String
  | [] => []
  | (name, optional inner) :: rest => (name ++ "?: " ++ toText inner) :: fieldTexts rest
  | (name, s) :: rest => (name ++ ": " ++ toText s) :: fieldTexts rest

end

end Schema

end Mandate

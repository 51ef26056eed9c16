import Mandate.Ipld

/-!
# Schemas

A schema says which values are accepted and what is kept of them. Combinators build schemas from
schemas; refinements narrow a value whose type is settled.
-/

namespace Mandate

namespace Schema

/-- A condition on numbers or on strings. -/
inductive Refinement where
  | greaterThan (bound : Binary64)
  | lessThan (bound : Binary64)
  | startsWith (beginning : String)
  | endsWith (ending : String)

end Schema

inductive Schema where
  | unknown
  | null
  | boolean
  | integer
  | float
  | string
  | bytes
  | link
  | literal (value : Ipld)
  | array (item : Schema)
  | tuple (members : List Schema)
  | dictionary (value : Schema)
  /-- Maps with the declared fields, in the order of their names. -/
  | struct (fields : List (String × Schema))
  | union (members : List Schema)
  | intersection (members : List Schema)
  | optional (inner : Schema)
  | refined (inner : Schema) (condition : Schema.Refinement)

namespace Schema

/-- Maps with the given fields. -/
def ofFields (fields : List (String × Schema)) : Schema := struct (Table.ofList fields)

/-- Any map; nothing of it is kept. -/
def empty : Schema := struct []

/-- What either side accepts. A union on the left takes one more member. -/
def or : Schema → Schema → Schema
  | union members, s => union (members ++ [s])
  | s, t => union [s, t]

/-- What both sides accept. An intersection on the left takes one more member. -/
def and : Schema → Schema → Schema
  | intersection members, s => intersection (members ++ [s])
  | s, t => intersection [s, t]

/-- The same values, but a field may be absent. -/
def orAbsent : Schema → Schema
  | optional s => optional s
  | s => optional s

mutual

/-- Whether a field read with the schema may be absent. -/
def isOptional : Schema → Bool
  | unknown => true
  | optional _ => true
  | refined s _ => isOptional s
  | union members => anyOptional members
  | _ => false

def anyOptional : List Schema → Bool
  | [] => false
  | s :: rest => isOptional s || anyOptional rest

end

end Schema

end Mandate

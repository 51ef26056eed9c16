import Mandate.Schema.Read

/-!
# Records

A record takes some named fields out of caveats and gives each a plain type. Other fields are passed
over, and a null is the same as an absent field.
-/

namespace Mandate

namespace Record

/-- The type of a field: a count fits into 64 bits. -/
inductive FieldType where
  | count
  | text
  deriving DecidableEq, Repr

def FieldType.accepts : FieldType → Ipld → Bool
  | count, .integer n => 0 ≤ n && n < UInt64.size
  | text, .string _ => true
  | _, _ => false

structure Field where
  name : String
  type : FieldType
  required : Bool
  deriving DecidableEq, Repr

end Record

/-- The fields of a record. -/
abbrev Record := List Record.Field

namespace Record

/-- The fields of a record that are present, each of its type. -/
def decode? : Record → Fields → Option Fields
  | [], _ => some []
  | field :: rest, input =>
    match input.lookup field.name with
    | none | some .null => if field.required then none else decode? rest input
    | some v =>
      if field.type.accepts v then (decode? rest input).map (Table.insert field.name v) else none

/-- Reads caveats with a schema, then takes the record out of them. -/
def read (r : Record) (s : Schema) (input : Fields) : Except Schema.Error Fields :=
  match s.readFields input with
  | .error cause => .error cause
  | .ok fields =>
    match r.decode? fields with
    | some found => .ok found
    | none => .error (.message "Failed to decode caveats")

end Record

end Mandate

import Mandate.Schema.Error
import Mandate.Schema.Text
import Mandate.Text.Affix

/-!
# Reading values with a schema

Reading gives the accepted value or the reason against it. Integers become floats where floats are asked
for, and of a map only the declared fields are kept.
-/

namespace Mandate.Schema

/-- The error for a value of a type that the schema does not accept. -/
def mismatch (s : Schema) (v : Ipld) : Error := .type s.toText v.typeName

/-- The number that refinements compare, the nearest one in the case of an integer. -/
def number? : Ipld → Option Binary64
  | .integer n => some (.ofInt n)
  | .float x => some x
  | _ => none

/-- Whether a value meets a refinement. -/
def Refinement.check : Refinement → Ipld → Except Error Unit
  | greaterThan bound, v =>
    match number? v with
    | some x =>
      if bound.less x then .ok ()
      else .error (.message (x.toText ++ " is not greater than " ++ bound.toText))
    | none => .error (.message ("Expected a number instead got " ++ v.typeName))
  | lessThan bound, v =>
    match number? v with
    | some x =>
      if x.less bound then .ok ()
      else .error (.message (x.toText ++ " is not less than " ++ bound.toText))
    | none => .error (.message ("Expected a number instead got " ++ v.typeName))
  | startsWith beginning, v =>
    let refusal := Error.message
      ("Expected a string with \"" ++ beginning ++ "\" prefix instead got " ++ v.brief)
    match v with
    | .string s => if Text.startsWith s beginning then .ok () else .error refusal
    | _ => .error refusal
  | endsWith ending, v =>
    let refusal := Error.message
      ("Expected a string ending with \"" ++ ending ++ "\" instead got " ++ v.brief)
    match v with
    | .string s => if Text.endsWith s ending then .ok () else .error refusal
    | _ => .error refusal

/-- Reads the items of a list, the first one having the given index. -/
def readItems (read : Ipld → Except Error Ipld) : (index : Nat) → List Ipld →
    Except Error (List Ipld)
  | _, [] => .ok []
  | index, v :: vs =>
    match read v with
    | .error cause => .error (.element index cause)
    | .ok w => (readItems read (index + 1) vs).map (w :: ·)

/-- Reads the entries of a map. -/
def readEntries (read : Ipld → Except Error Ipld) : Fields → Except Error Fields
  | [] => .ok []
  | (key, v) :: rest =>
    match read v with
    | .error cause => .error (.field key cause)
    | .ok w => (readEntries read rest).map ((key, w) :: ·)

mutual

def readValue : Schema → Ipld → Except Error Ipld
  | unknown, v => .ok v
  | null, v => match v with
    | .null => .ok v
    | _ => .error (mismatch null v)
  | boolean, v => match v with
    | .bool _ => .ok v
    | _ => .error (mismatch boolean v)
  | integer, v => match v with
    | .integer _ => .ok v
    | _ => .error (mismatch integer v)
  | float, v => match v with
    | .float _ => .ok v
    | .integer n => .ok (.float (.ofInt n))
    | _ => .error (mismatch float v)
  | string, v => match v with
    | .string _ => .ok v
    | _ => .error (mismatch string v)
  | bytes, v => match v with
    | .bytes _ => .ok v
    | _ => .error (mismatch bytes v)
  | link, v => match v with
    | .link _ => .ok v
    | _ => .error (.message ("Expected link to be a CID instead of " ++ v.typeName))
  | literal expected, v =>
    if expected == v then .ok v else .error (.literal expected.brief v.brief)
  | array item, v => match v with
    | .list vs => (readItems (fun x => readValue item x) 0 vs).map .list
    | _ => .error (mismatch (array item) v)
  | tuple members, v => match v with
    | .list vs =>
      if members.length = vs.length then (readMembers members 0 vs).map .list
      else .error (.message ("Expected array with " ++ toString members.length ++
        " elements instead got " ++ toString vs.length))
    | _ => .error (mismatch (tuple members) v)
  | dictionary value, v => match v with
    | .map es => (readEntries (fun x => readValue value x) es).map .map
    | _ => .error (mismatch (dictionary value) v)
  | struct fields, v => match v with
    | .map es => (readStruct fields es).map .map
    | _ => .error (mismatch (struct fields) v)
  | union members, v =>
    match readFirst members v with
    | .ok w => .ok w
    | .error causes => .error (.union v.typeName causes)
  | intersection members, v =>
    match readEvery members v v with
    | (w, []) => .ok w
    | (_, causes) => .error (.intersection causes)
  | optional inner, v => readValue inner v
  | refined inner condition, v =>
    match readValue inner v with
    | .error cause => .error cause
    | .ok w => (condition.check w).map fun _ => w

/-- Reads as many values as there are schemas, each with its own. -/
def readMembers : List Schema → (index : Nat) → List Ipld → Except Error (List Ipld)
  | s :: rest, index, v :: vs =>
    match readValue s v with
    | .error cause => .error (.element index cause)
    | .ok w => (readMembers rest (index + 1) vs).map (w :: ·)
  | _, _, _ => .ok []

/-- Reads the declared fields in order, up to the first one at fault. -/
def readStruct : List (String × Schema) → Fields → Except Error Fields
  | [], _ => .ok []
  | (name, s) :: rest, input =>
    match input.lookup name with
    | some v =>
      match readValue s v with
      | .error cause => .error (.field name cause)
      | .ok w => (readStruct rest input).map ((name, w) :: ·)
    | none =>
      if s.isOptional then readStruct rest input
      else .error (.field name (.type s.toText "undefined"))

/-- What the first accepting schema reads, or the reasons of all. -/
def readFirst : List Schema → Ipld → Except (List Error) Ipld
  | [], _ => .error []
  | s :: rest, v =>
    match readValue s v with
    | .ok w => .ok w
    | .error cause =>
      match readFirst rest v with
      | .ok w => .ok w
      | .error causes => .error (cause :: causes)

/-- What the last accepting schema reads, or `output`, with the reasons of those that do not accept. -/
def readEvery : List Schema → Ipld → (output : Ipld) → Ipld × List Error
  | [], _, output => (output, [])
  | s :: rest, v, output =>
    match readValue s v with
    | .ok w => readEvery rest v w
    | .error cause =>
      let (w, causes) := readEvery rest v output
      (w, cause :: causes)

end

/-- Reads caveats. -/
def readFields (s : Schema) (input : Fields) : Except Error Fields :=
  match s with
  | struct fields => readStruct fields input
  | s =>
    match readValue s (.map input) with
    | .error cause => .error cause
    | .ok (.map fields) => .ok fields
    | .ok other => .error (mismatch s other)

end Mandate.Schema

import Mandate.Capability
import Mandate.Did.Key

/-!
# Values from JSON

Identifiers and keys are given as strings. A capability is an object, or an array of its parts in order;
its caveats are plain values, so that no value has a special form. An integer beyond 64 bits counts as
the nearest float.
-/

namespace Mandate

inductive Json where
  | null
  | bool (value : Bool)
  | integer (value : Int)
  | float (value : Binary64)
  | string (value : String)
  | array (items : List Json)
  | object (entries : List (String × Json))
  deriving Inhabited

namespace Json

mutual

def toIpld : Json → Ipld
  | null => .null
  | bool b => .bool b
  | integer n => if Int64.minValue.toInt ≤ n ∧ n < UInt64.size then .integer n else .float (.ofInt n)
  | float x => .float x
  | string s => .string s
  | array items => .list (itemsToIpld items)
  | object entries => .map (Table.ofList (entriesToIpld entries))

def itemsToIpld : List Json → List Ipld
  | [] => []
  | v :: vs => toIpld v :: itemsToIpld vs

def entriesToIpld : List (String × Json) → List (String × Ipld)
  | [] => []
  | (key, v) :: rest => (key, toIpld v) :: entriesToIpld rest

end

def toString? : Json → Option String
  | string s => some s
  | _ => none

/-- Caveats; other values than objects are refused. -/
def toFields? : Json → Option Fields
  | object entries => some (Table.ofList (entriesToIpld entries))
  | _ => none

def toDid? (v : Json) : Option Did := do
  match Did.parse (← v.toString?) with
  | .ok d => some d
  | .error _ => none

def toKey? (v : Json) : Option Ed25519.PublicKey := do
  match Did.parseKey (← v.toString?) with
  | .ok k => some k
  | .error _ => none

def toCapability? : Json → Option Capability
  | object entries => do
    let ability ← (← entries.lookup "can").toString?
    let resource ← (← entries.lookup "with").toString?
    let caveats ← match entries.lookup "nb" with
      | some v => v.toFields?
      | none => some []
    some ⟨ability, resource, caveats⟩
  | array [ability, resource] => do some ⟨← ability.toString?, ← resource.toString?, []⟩
  | array [ability, resource, caveats] => do
    some ⟨← ability.toString?, ← resource.toString?, ← caveats.toFields?⟩
  | _ => none

end Json

end Mandate

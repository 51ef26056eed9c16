import Mandate.Binary64
import Mandate.Cid
import Mandate.Table

/-!
# Linked data

The values that caveats and facts are made of. Two values are equal when they differ at most in the sign
of a zero or in which value that is not a number stands in for one.
-/

namespace Mandate

inductive Ipld where
  | null
  | bool (value : Bool)
  | integer (value : Int)
  | float (value : Binary64)
  | string (value : String)
  | bytes (value : Bytes)
  | list (items : List Ipld)
  | map (entries : List (String × Ipld))
  | link (cid : Cid)
  deriving Inhabited

/-- Named values: caveats, facts and the contents of maps. -/
abbrev Fields := Table String Ipld

namespace Ipld

mutual

def equal : Ipld → Ipld → Bool
  | null, null => true
  | bool a, bool b => a == b
  | integer a, integer b => a == b
  | float a, float b => a == b
  | string a, string b => a == b
  | bytes a, bytes b => a == b
  | list xs, list ys => equalItems xs ys
  | map es, map fs => equalEntries es fs
  | link a, link b => decide (a = b)
  | _, _ => false

def equalItems : List Ipld → List Ipld → Bool
  | [], [] => true
  | x :: xs, y :: ys => equal x y && equalItems xs ys
  | _, _ => false

def equalEntries : List (String × Ipld) → List (String × Ipld) → Bool
  | [], [] => true
  | (k, x) :: es, (l, y) :: fs => k == l && equal x y && equalEntries es fs
  | _, _ => false

end

instance : BEq Ipld := ⟨equal⟩

end Ipld

end Mandate

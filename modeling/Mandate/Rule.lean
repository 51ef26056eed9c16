import Mandate.Parsed
import Mandate.Pattern

/-!
# Derivation rules

A rule says whether a delegated capability covers a claimed one, or what the problem is. The common
checks are given here; a rule runs some of them in order and stops at the first problem.
-/

namespace Mandate

/-- Takes the claimed capability first and the delegated one second. -/
abbrev Rule := (claimed delegated : Parsed) → Except Problem Unit

namespace Rule

/-- The caveat that constrains nothing. -/
def isUnconstrained : Ipld → Bool
  | .string s => s == "*"
  | _ => false

/-- What a delegation sets a caveat to, if that constrains anything. -/
def constraint? (delegated : Parsed) (key : String) : Option Ipld :=
  (delegated.caveats.lookup key).filter fun v => !isUnconstrained v

/-- The rules of a list in order, up to the first problem. -/
def every (rules : List Rule) : Rule := fun claimed delegated =>
  match rules with
  | [] => .ok ()
  | rule :: rest =>
    match rule claimed delegated with
    | .error problem => .error problem
    | .ok () => every rest claimed delegated

/-- Both resources are the same. -/
def equalResource : Rule := fun claimed delegated =>
  let c := claimed.resource.toText
  let d := delegated.resource.toText
  if c = d then .ok () else .error ⟨"Can not derive " ++ c ++ " from " ++ d⟩

/-- The delegated resource is a pattern that covers the claimed one, or ends in a slash and contains
it. -/
def resourceWithin : Rule := fun claimed delegated =>
  let c := claimed.resource.toText
  let d := delegated.resource.toText
  if Pattern.covers d c || (Text.endsWith d "/" && Text.startsWith c d) then .ok ()
  else .error ⟨"Resource " ++ c ++ " does not match delegated " ++ d⟩

/-- A caveat that the delegation constrains has the same value in the claim. -/
def equalCaveat (key : String) : Rule := fun claimed delegated =>
  match constraint? delegated key with
  | none => .ok ()
  | some expected =>
    match claimed.caveats.lookup key with
    | none => .error ⟨key ++ ": undefined violates " ++ expected.toText⟩
    | some actual =>
      if actual == expected then .ok ()
      else .error ⟨key ++ ": " ++ actual.toText ++ " violates " ++ expected.toText⟩

/-- Whether the first number is greater than the second. Two integers are compared exactly; next to a
float, an integer counts as the nearest float. -/
def exceeds? : Ipld → Ipld → Option Bool
  | .integer n, .integer m => some (decide (m < n))
  | .integer n, .float y => some (y.less (.ofInt n))
  | .float x, .integer m => some ((Binary64.ofInt m).less x)
  | .float x, .float y => some (y.less x)
  | _, _ => none

/-- A caveat that the delegation constrains is a number in the claim, and no greater one. -/
def withinLimit (key : String) : Rule := fun claimed delegated =>
  match constraint? delegated key with
  | none => .ok ()
  | some limit =>
    match claimed.caveats.lookup key with
    | none => .error ⟨key ++ ": unbounded violates limit " ++ limit.toText⟩
    | some actual =>
      match exceeds? actual limit with
      | some false => .ok ()
      | some true => .error ⟨key ++ ": " ++ actual.toText ++ " violates limit " ++ limit.toText⟩
      | none =>
        .error ⟨key ++ ": can not compare " ++ actual.toText ++ " with limit " ++ limit.toText⟩

/-- The rule of descriptors that name none: the resource is within the delegated one, and every caveat
that the delegation sets has the same value in the claim. -/
def standard : Rule := fun claimed delegated =>
  every (resourceWithin :: (Table.keys delegated.caveats).map equalCaveat) claimed delegated

/-- A rule against all parsed capabilities of a value, from left to right. -/
def onLeaves (rule : Rule) (claimed : Parsed) (v : Value) : Except Problem Unit :=
  v.leaves.forM (rule claimed)

end Rule

end Mandate

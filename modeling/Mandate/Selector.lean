import Mandate.Match.Direct

/-!
# Selectors and matches

A selector looks for matches among sources. Selectors are built from descriptors: either of two, both of
two together, or one whose capabilities may also be proven by what another selects. A match of both is a
group, whose members are proven together.
-/

namespace Mandate

/-- Says whether a claimed capability is covered by what another selector matched. -/
abbrev Derivation := (claimed : Parsed) → (origin : Value) → Except Problem Unit

inductive Selector where
  | descriptor (d : Descriptor)
  | or (left right : Selector)
  | and (left right : Selector)
  /-- Selects what the target describes, which what the origin selects may prove. -/
  | derive (origin : Selector) (target : Descriptor) (rule : Derivation)

inductive Match where
  | direct (m : DirectMatch)
  | derived (m : DirectMatch) (origin : Selector) (rule : Derivation)
  | group (first : Match) (others : List Match)

namespace Match

/-- The members of a match in a group, unless there are none. -/
def ofMembers? : List Match → Option Match
  | [] => none
  | m :: ms => some (group m ms)

mutual

/-- The capabilities that the match stands for, resolved against what they prove. -/
def capabilities : Match → List Capability
  | direct m => [m.capability]
  | derived m _ _ => [m.capability]
  | group m ms => capabilities m ++ capabilitiesOfAll ms

def capabilitiesOfAll : List Match → List Capability
  | [] => []
  | m :: ms => capabilities m ++ capabilitiesOfAll ms

end

mutual

/-- The sources that the match was built from. -/
def sources : Match → List Source
  | direct m => [m.source]
  | derived m _ _ => [m.source]
  | group m ms => sources m ++ sourcesOfAll ms

def sourcesOfAll : List Match → List Source
  | [] => []
  | m :: ms => sources m ++ sourcesOfAll ms

end

/-- The delegation of the first source. -/
def delegation : Match → Delegation
  | direct m => m.source.delegation
  | derived m _ _ => m.source.delegation
  | group m _ => delegation m

mutual

def value : Match → Value
  | direct m => .one m.value
  | derived m _ _ => .one m.value
  | group m ms => .all (value m :: values ms)

def values : List Match → List Value
  | [] => []
  | m :: ms => value m :: values ms

end

end Match

namespace Selector

def select : Selector → List Source → Selection Match
  | descriptor d, sources => (d.select sources).map .direct
  | or l r, sources => (select l sources).append (select r sources)
  | and l r, sources =>
    let left := select l sources
    let right := select r sources
    ⟨left.found.flatMap fun m => right.found.map fun n => .group m [n],
      left.errors ++ right.errors, Selection.common left.unknown right.unknown⟩
  | derive origin target rule, sources =>
    (target.select sources).map fun m => .derived m origin rule

end Selector

end Mandate

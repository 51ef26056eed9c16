import Mandate.Failure
import Mandate.Resource

/-!
# Parsed capabilities

A capability whose resource and caveats were read. Selectors that combine others yield several of them
at once.
-/

namespace Mandate

structure Parsed where
  ability : String
  resource : Resource
  caveats : Fields

def Parsed.toText (p : Parsed) : String := p.ability ++ " on " ++ p.resource.toText

/-- What a selector makes of its sources. -/
inductive Value where
  | one (parsed : Parsed)
  | all (members : List Value)

namespace Value

mutual

/-- The parsed capabilities of a value, from left to right. -/
def leaves : Value → List Parsed
  | one p => [p]
  | all members => leavesOfAll members

def leavesOfAll : List Value → List Parsed
  | [] => []
  | v :: vs => leaves v ++ leavesOfAll vs

end

end Value

end Mandate

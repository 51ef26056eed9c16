import Mandate.Capability
import Mandate.Pattern

/-!
# What a delegated capability stands for

A delegated capability is brought into the shape of the claimed one: patterns become what is claimed, and
what the delegation leaves open is taken over from the claim.
-/

namespace Mandate.Coverage

/-- The resource that stands for every resource that the issuer holds. -/
def anyResource : String := "ucan:*"

/-- The claimed ability, if the delegated one covers it. -/
def ability? (delegated claimed : String) : Option String :=
  if Pattern.covers delegated claimed then some claimed else none

/-- The resource that a delegated one stands for when the claimed one is to be proven. A delegated
resource that ends in a slash and contains the claimed one stays as it is. -/
def resource? (delegated claimed : String) : Option String :=
  if delegated = anyResource ∨ Pattern.covers delegated claimed then some claimed
  else if Text.endsWith delegated "/" && Text.startsWith claimed delegated then some delegated
  else none

/-- The capability that a delegated one stands for: its own caveats override the claimed ones. -/
def resolve? (delegated claimed : Capability) : Option Capability := do
  let ability ← ability? delegated.ability claimed.ability
  let resource ← resource? delegated.resource claimed.resource
  some ⟨ability, resource, Table.override claimed.caveats delegated.caveats⟩

end Mandate.Coverage

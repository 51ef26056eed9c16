import Mandate.Did
import Mandate.Ipld.Text

/-!
# Capabilities

A capability is an ability over a resource, narrowed by caveats. What no caveat mentions is
unconstrained.
-/

namespace Mandate

structure Capability where
  /-- Segments between slashes, the last one possibly a star. -/
  ability : String
  resource : String
  caveats : Fields

namespace Capability

instance : BEq Capability where
  beq a b := a.ability == b.ability && a.resource == b.resource &&
    Ipld.equalEntries a.caveats b.caveats

/-- Whether the resource is the principal itself: everyone owns the resource that bears their name. -/
def isOwnedBy (c : Capability) (d : Did) : Bool := c.resource == d.toText

/-- The text for diagnostics; caveats are mentioned when there are any. -/
def toText (c : Capability) : String :=
  let caveats := if c.caveats.isEmpty then "" else ",\"nb\":" ++ Fields.toText c.caveats
  "\x7b\"can\":\"" ++ c.ability ++ "\",\"with\":\"" ++ c.resource ++ "\"" ++ caveats ++ "\x7d"

end Capability

end Mandate

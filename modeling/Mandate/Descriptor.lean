import Mandate.Coverage
import Mandate.Rule
import Mandate.Schema.Read

/-!
# Descriptors

A descriptor describes one kind of capability: its ability, how its resource and its caveats are read,
and when a delegated instance covers a claimed one.
-/

namespace Mandate

structure Descriptor where
  /-- A pattern of abilities. -/
  ability : String
  readResource : Resource.Reader
  readCaveats : Fields → Except Schema.Error Fields
  rule : Rule

namespace Descriptor

/-- Caveats are accepted as they are and the standard rule applies. -/
def plain (ability : String) (reader : Resource.Reader) : Descriptor :=
  ⟨ability, reader, Schema.unknown.readFields, Rule.standard⟩

/-- Reads the resource first and the caveats second. -/
def read (d : Descriptor) (c : Capability) : Except Schema.Error Parsed :=
  match d.readResource c.resource with
  | .error cause => .error (.field "with" cause)
  | .ok resource =>
    match d.readCaveats c.caveats with
    | .error cause => .error (.field "nb" cause)
    | .ok caveats => .ok ⟨c.ability, resource, caveats⟩

/-- A capability of another ability is unknown; one that does not read is malformed. -/
def parse (d : Descriptor) (c : Capability) : Except Failure Parsed :=
  if Pattern.covers d.ability c.ability then
    match d.read c with
    | .ok parsed => .ok parsed
    | .error cause => .error (.malformedCapability c cause)
  else .error (.unknownCapability c)

end Descriptor

end Mandate

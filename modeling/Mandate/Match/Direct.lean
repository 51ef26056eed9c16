import Mandate.Descriptor
import Mandate.Selection

/-!
# Direct matches

A descriptor matches the sources that it can parse. Such a match is proven by sources of the same kind:
each is resolved against the matched capability, read, and put to the rule.
-/

namespace Mandate

structure DirectMatch where
  descriptor : Descriptor
  value : Parsed
  /-- The capability as it is given, resolved against what it proves. -/
  capability : Capability
  source : Source

namespace Descriptor

def candidate (d : Descriptor) (s : Source) : Candidate DirectMatch :=
  match d.parse s.capability with
  | .ok value => .found ⟨d, value, s.capability, s⟩
  | .error (.unknownCapability c) => .unknown c
  | .error f => .rejected f

def select (d : Descriptor) (sources : List Source) : Selection DirectMatch :=
  .ofCandidates (sources.map d.candidate)

end Descriptor

namespace DirectMatch

/-- What becomes of a source that is to prove a match. -/
def candidate (m : DirectMatch) (s : Source) : Candidate DirectMatch :=
  match Coverage.resolve? s.capability m.capability with
  | none => .unknown s.capability
  | some resolved =>
    match m.descriptor.read resolved with
    | .error cause => .rejected (.malformedCapability s.capability cause)
    | .ok value =>
      match m.descriptor.rule m.value value with
      | .ok () => .found ⟨m.descriptor, value, resolved, s⟩
      | .error problem => .rejected (.escalatedCapability m.capability [resolved] problem)

def select (m : DirectMatch) (sources : List Source) : Selection DirectMatch :=
  .ofCandidates (sources.map m.candidate)

end DirectMatch

end Mandate

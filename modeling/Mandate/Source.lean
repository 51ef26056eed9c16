import Mandate.Delegation

/-!
# Sources

A source is one capability of a delegation, by its position. A match keeps its sources, so it is known
who issued what was matched and which proofs to follow next.
-/

namespace Mandate

structure Source where
  delegation : Delegation
  index : Fin delegation.capabilities.length

namespace Source

def capability (s : Source) : Capability := s.delegation.capabilities[s.index]

/-- One source for each capability of a delegation, in order. -/
def all (d : Delegation) : List Source := (List.finRange d.capabilities.length).map (⟨d, ·⟩)

end Source

end Mandate

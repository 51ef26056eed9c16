import Mandate.Match.Prove

/-!
# Authorizations

An authorized match with the authorizations of what proves it. A match that needed no proof has none.
-/

namespace Mandate

structure Authorization where
  matched : Match
  proofs : List Authorization

namespace Authorization

def delegation (a : Authorization) : Delegation := a.matched.delegation

/-- The delegations from this one to the root, by the first proof at every step. -/
def chain : Authorization → List Delegation
  | ⟨m, []⟩ => [m.delegation]
  | ⟨m, proof :: _⟩ => m.delegation :: chain proof

end Authorization

end Mandate

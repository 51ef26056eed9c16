import Mandate.Selector

/-!
# What proves a match

A match selects, among the capabilities of the proofs of its delegations, the matches that prove it. What
its issuers may issue on their own needs no proof and is pruned before.
-/

namespace Mandate

/-- Decides whether a principal may issue a capability without proof. -/
abbrev Issuance := Capability → Did → Bool

namespace DirectMatch

/-- Whether the issuer may issue the matched capability outright. -/
def isSelfIssued (m : DirectMatch) (mayIssue : Issuance) : Bool :=
  mayIssue m.capability m.source.delegation.issuer

/-- The matches that prove a derived one: those of its own kind stay derived, and those of the origin
that the rule accepts go on as they are. -/
def selectDerived (m : DirectMatch) (origin : Selector) (rule : Derivation) (sources : List Source) :
    Selection Match :=
  let own := m.select sources
  let other := origin.select sources
  let accepted := fun candidate : Match =>
    match rule m.value candidate.value with
    | .ok () => true
    | .error _ => false
  let rejection := fun candidate : Match =>
    match rule m.value candidate.value with
    | .ok () => none
    | .error problem =>
      some (Failure.escalatedCapability m.capability candidate.capabilities problem)
  { found := own.found.map (.derived · origin rule) ++ other.found.filter accepted
    errors := other.found.filterMap rejection ++ own.errors ++ other.errors
    unknown := Selection.common own.unknown other.unknown }

end DirectMatch

namespace Match

/-- The sources that are addressed to the issuer of a match. -/
def addressed (m : Match) (sources : List Source) : List Source :=
  sources.filter fun s => s.delegation.audience = m.delegation.issuer

mutual

/-- The matches among some sources that prove a match. A member of a group looks only at the sources
addressed to its issuer, and the group is proven by every choice of one match for each member. -/
def select : Match → List Source → Selection Match
  | direct m, sources => (m.select sources).map .direct
  | derived m origin rule, sources => m.selectDerived origin rule sources
  | group m ms, sources =>
    Selection.combine ofMembers? (select m (m.addressed sources) :: selectEach ms sources)

def selectEach : List Match → List Source → List (Selection Match)
  | [], _ => []
  | m :: ms, sources => select m (m.addressed sources) :: selectEach ms sources

end

mutual

/-- What is left to prove of a match. -/
def prune (mayIssue : Issuance) : Match → Option Match
  | direct m => if m.isSelfIssued mayIssue then none else some (direct m)
  | derived m origin rule =>
    if m.isSelfIssued mayIssue then none else some (derived m origin rule)
  | group m ms => ofMembers? ((prune mayIssue m).toList ++ pruneAll mayIssue ms)

def pruneAll (mayIssue : Issuance) : List Match → List Match
  | [] => []
  | m :: ms => (prune mayIssue m).toList ++ pruneAll mayIssue ms

end

end Match

end Mandate

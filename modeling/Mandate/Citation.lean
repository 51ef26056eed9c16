import Mandate.Context

/-!
# Gathering proofs

The proofs of a claim are what the delegations that it was selected from cite. Every one of them is
looked up if it is not attached, and checked on behalf of who cites it.
-/

namespace Mandate

/-- A delegation with one of the proofs that it cites. -/
structure Citation where
  citing : Delegation
  proof : Delegation.Proof

namespace Citation

/-- Citations of one proof by one issuer count once. -/
instance : BEq Citation :=
  ⟨fun a b => decide (a.citing.issuer = b.citing.issuer) && decide (a.proof.cid = b.proof.cid)⟩

/-- The citations of some delegations, the first one for each issuer and proof. -/
def ofDelegations (ds : List Delegation) : List Citation :=
  (ds.flatMap fun d => d.proofs.map (⟨d, ·⟩)).eraseDups

def link? : Delegation.Proof → Option Cid
  | .link c => some c
  | .inline _ => none

/-- The cited delegation, from among the looked up ones if it is not attached. -/
def delegation (resolved : List (Cid × Except Failure Delegation)) (c : Citation) :
    Except Failure Delegation :=
  match c.proof with
  | .inline d => .ok d
  | .link link => (resolved.lookup link).getD (.error (.unavailableProof link none))

/-- The cited delegation, if it passes the checks. -/
def check (ctx : Context) (resolved : List (Cid × Except Failure Delegation)) (c : Citation) :
    Except Failure Delegation := do
  let d ← c.delegation resolved
  ctx.checkProof c.citing d
  pure d

end Citation

/-- The capabilities of the proofs that passed, and why the others did not. -/
structure Gathered where
  sources : List Source
  failures : List Failure

namespace Gathered

/-- Sorts the results of checks; the first fatal failure stops everything. -/
def ofChecks : List (Except Failure Delegation) → Except Failure Gathered
  | [] => .ok ⟨[], []⟩
  | .ok d :: rest => (ofChecks rest).map fun g => ⟨Source.all d ++ g.sources, g.failures⟩
  | .error f :: rest =>
    if f.isFatal then .error f
    else (ofChecks rest).map fun g => ⟨g.sources, f :: g.failures⟩

end Gathered

namespace Context

/-- Gathers the proofs of the delegations that some sources belong to. -/
def gather (ctx : Context) (claimed : List Source) (cache : ProofCache) :
    Except Failure Gathered × ProofCache :=
  let citing := (claimed.map (·.delegation)).eraseDups
  let links := citing.flatMap fun d => d.proofs.filterMap Citation.link?
  let (resolved, cache) := ProofCache.resolveAll ctx.resolver links cache
  (Gathered.ofChecks ((Citation.ofDelegations citing).map (Citation.check ctx resolved)), cache)

end Context

end Mandate

import Mandate.Citation

/-!
# Access

An invocation is authorized by a search, depth first: every match of the claimed capability is tried in
order, and one that its issuer may not issue outright is proven by the matches that it selects among the
proofs of its delegations. The search goes one citation further with every step, so a number of steps
bounds it; it gives no answer only when that bound is too low.
-/

namespace Mandate

/-- A part of the search: it uses the cache, and has no result when the steps do not suffice. -/
abbrev Walk := StateT ProofCache Option

/-- How trying a match turns out. -/
inductive Trial where
  | accepted (authorization : Authorization)
  | rejected (causes : List Failure)
  /-- The whole search ends. -/
  | aborted (failure : Failure)

namespace Trial

/-- Tries matches in order up to the first one that is accepted, collecting why the others are not. -/
def first (attempt : Match → Walk Trial) : List Match → List Failure → Walk Trial
  | [], causes => pure (.rejected causes)
  | m :: ms, causes => do
    match ← attempt m with
    | .accepted a => pure (.accepted a)
    | .rejected more => first attempt ms (causes ++ more)
    | .aborted f => pure (.aborted f)

end Trial

namespace Context

/-- Proves a match that its issuer may not issue outright by authorizing what is left of it. -/
def prove (ctx : Context) (authorize : Match → Walk (Except Failure Authorization)) (m : Match) :
    Walk Trial :=
  match m.prune ctx.mayIssue with
  | none => pure (.accepted ⟨m, []⟩)
  | some remaining => do
    match ← authorize remaining with
    | .ok proof => pure (.accepted ⟨m, [proof]⟩)
    | .error f => pure (if f.isFatal then .aborted f else .rejected [f])

/-- Why a claim is not authorized, before any match among its proofs is tried. -/
def claimFailures (claim : Match) (gathered : Gathered) (selection : Selection Match) :
    List Failure :=
  let failures := gathered.failures ++ selection.failures
  if selection.found.isEmpty && failures.isEmpty then
    [.unprovenCapability claim.capabilities claim.delegation.issuer]
  else failures

/-- Finds a match among the proofs of a claim and proves it in turn. -/
def authorize (ctx : Context) : (steps : Nat) → Match → Walk (Except Failure Authorization)
  | 0, _ => failure
  | steps + 1, claim => do
    match ← modifyGet (ctx.gather claim.sources) with
    | .error fatal => pure (.error fatal)
    | .ok gathered =>
      let selection := claim.select gathered.sources
      match ← Trial.first (ctx.prove (authorize ctx steps)) selection.found
          (claimFailures claim gathered selection) with
      | .accepted a => pure (.ok a)
      | .rejected causes => pure (.error (.invalidClaim claim.capabilities causes))
      | .aborted f => pure (.error f)

/-- Puts a proven match of the invocation to the validator. Of a claim that was not proven, only the
causes are kept. -/
def settle (ctx : Context) (i : Invocation) : Trial → Trial
  | .accepted a =>
    match ctx.validate a with
    | .ok () => .accepted a
    | .error problem => .rejected [.revoked i.delegation.cid problem]
  | .rejected [.invalidClaim _ causes] => .rejected causes
  | t => t

/-- The malformed capability that ends the search when nothing was selected. -/
def malformed? (selection : Selection Match) : Option Failure :=
  if selection.found.isEmpty then
    selection.errors.find? fun
      | .malformedCapability .. => true
      | _ => false
  else none

/-- Authorizes an invocation in a bounded number of steps. -/
def accessWithin (ctx : Context) (steps : Nat) (i : Invocation) :
    Walk (Except Failure Authorization) :=
  match ctx.checkInvocation i with
  | .error f => pure (.error f)
  | .ok () =>
    let selection := ctx.selector.select (Source.all i.delegation)
    match malformed? selection with
    | some f => pure (.error f)
    | none => do
      let attempt := fun m => do return ctx.settle i (← ctx.prove (ctx.authorize steps) m)
      match ← Trial.first attempt selection.found selection.failures with
      | .accepted a => pure (.ok a)
      | .rejected causes => pure (.error (.unauthorized i.capability causes))
      | .aborted f => pure (.error f)

/-- More steps than there are delegations that a search can reach. -/
def reach (ctx : Context) (i : Invocation) (cache : ProofCache) : Nat :=
  let linked := match ctx.resolver with
    | some r => r.known
    | none => []
  (linked ++ cache.entries.map (·.2)).foldl (fun n d => n + d.size) (1 + i.delegation.size)

/-- As many steps as a search takes at most in practice. -/
def usualSteps : Nat := 1 <<< 16

/-- Authorizes an invocation. There is no answer only if delegations cite each other in a circle. How many
steps may be needed is counted only when the usual number of them does not suffice: the count visits an
attachment as often as it is attached. -/
def access (ctx : Context) (i : Invocation) : Walk (Except Failure Authorization) := fun cache =>
  match ctx.accessWithin usualSteps i cache with
  | some result => some result
  | none => ctx.accessWithin (ctx.reach i cache) i cache

end Context

end Mandate

import Mandate.Failure
import Mandate.Citation.Resolver

/-!
# Remembering linked proofs

A cache keeps what a resolver has fetched, by address, and which addresses it was asked for. Failures are
not kept, and neither is a delegation with another address than the one asked for.
-/

namespace Mandate

structure ProofCache where
  entries : Table Cid Delegation
  /-- The addresses that the resolver was asked for, in order. -/
  lookups : List Cid

namespace ProofCache

def empty : ProofCache := ⟨[], []⟩

def cached? (cache : ProofCache) (link : Cid) : Option Delegation := cache.entries.lookup link

/-- What a resolver makes of a link. -/
def fetch (resolver : Resolver) (link : Cid) : Except Failure Delegation :=
  match resolver.fetch link with
  | .error reason => .error (.unavailableProof link (some reason))
  | .ok d =>
    if d.cid = link then .ok d
    else .error (.unavailableProof link (some ("resolver returned " ++ d.cid.toText)))

/-- The delegation at a link, from the cache if it is there. -/
def resolve (resolver : Option Resolver) (link : Cid) (cache : ProofCache) :
    Except Failure Delegation × ProofCache :=
  match cache.cached? link, resolver with
  | some d, _ => (.ok d, cache)
  | none, none => (.error (.unavailableProof link none), cache)
  | none, some r =>
    let asked := cache.lookups ++ [link]
    match fetch r link with
    | .ok d => (.ok d, ⟨Table.insert link d cache.entries, asked⟩)
    | .error f => (.error f, ⟨cache.entries, asked⟩)

/-- The delegations at some links, one after the other. -/
def resolveEach (resolver : Option Resolver) : List Cid → ProofCache →
    List (Cid × Except Failure Delegation) × ProofCache
  | [], cache => ([], cache)
  | link :: links, cache =>
    let (result, cache) := resolve resolver link cache
    let (results, cache) := resolveEach resolver links cache
    ((link, result) :: results, cache)

/-- The delegations at some links, each link looked up once. -/
def resolveAll (resolver : Option Resolver) (links : List Cid) (cache : ProofCache) :
    List (Cid × Except Failure Delegation) × ProofCache :=
  resolveEach resolver links.eraseDups cache

end ProofCache

end Mandate

import Mandate.Delegation

/-!
# Stores

A store keeps delegations by their addresses. Inserting a delegation also inserts everything attached to
it.
-/

namespace Mandate

structure Store where
  delegations : Table Cid Delegation

namespace Store

def empty : Store := ⟨[]⟩

def get? (s : Store) (c : Cid) : Option Delegation := s.delegations.lookup c

/-- What is said of an address without a delegation. -/
def missingMessage (c : Cid) : String := "delegation with cid " ++ c.toText ++ " is missing"

/-- The delegations at some addresses, or the first address without one. -/
def getAll (s : Store) : List Cid → Except Cid (List Delegation)
  | [] => .ok []
  | c :: cs =>
    match s.get? c with
    | none => .error c
    | some d => (getAll s cs).map (d :: ·)

def contains (s : Store) (c : Cid) : Bool := (s.get? c).isSome

def size (s : Store) : Nat := s.delegations.length

mutual

/-- Adds a delegation to those found, after everything attached to it. Of several copies at one address the
first one found stays. -/
def gather : Delegation → List (Cid × Delegation) → List (Cid × Delegation)
  | ⟨payload, signature, bytes, cid, blocks⟩, found =>
    let found := gatherBlocks blocks found
    if (found.lookup cid).isSome then found
    else (cid, ⟨payload, signature, bytes, cid, blocks⟩) :: found

def gatherBlocks : List (Cid × Delegation) → List (Cid × Delegation) → List (Cid × Delegation)
  | [], found => found
  | (_, d) :: rest, found => gatherBlocks rest (gather d found)

end

/-- Copies that were stored before are replaced. -/
def insert (s : Store) (d : Delegation) : Store := ⟨Table.override s.delegations (gather d [])⟩

end Store

end Mandate

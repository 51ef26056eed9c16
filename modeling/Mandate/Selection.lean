import Mandate.Source
import Mandate.Failure

/-!
# Selections

Every source that is looked at becomes a match, or is recognized and rejected, or is not recognized. A
selection keeps the three apart and each in order.
-/

namespace Mandate

/-- What becomes of one source. -/
inductive Candidate (α : Type) where
  | found (item : α)
  | rejected (failure : Failure)
  | unknown (capability : Capability)

namespace Candidate

variable {α : Type}

def found? : Candidate α → Option α
  | found item => some item
  | _ => none

def rejected? : Candidate α → Option Failure
  | rejected f => some f
  | _ => none

def unknown? : Candidate α → Option Capability
  | unknown c => some c
  | _ => none

end Candidate

structure Selection (α : Type) where
  found : List α
  errors : List Failure
  unknown : List Capability

namespace Selection

variable {α β : Type}

def ofCandidates (cs : List (Candidate α)) : Selection α :=
  ⟨cs.filterMap Candidate.found?, cs.filterMap Candidate.rejected?, cs.filterMap Candidate.unknown?⟩

def map (f : α → β) (s : Selection α) : Selection β := ⟨s.found.map f, s.errors, s.unknown⟩

def append (s t : Selection α) : Selection α :=
  ⟨s.found ++ t.found, s.errors ++ t.errors, s.unknown ++ t.unknown⟩

/-- The capabilities of the first list that are in both. -/
def common (cs ds : List Capability) : List Capability := cs.filter ds.contains

/-- What was not matched: the rejected sources, then those not recognized. -/
def failures (s : Selection α) : List Failure :=
  s.errors ++ s.unknown.map .unknownCapability

/-- Every choice of one item from each list, the first list varying slowest. -/
def choices : List (List α) → List (List α)
  | [] => [[]]
  | items :: rest => items.flatMap fun item => (choices rest).map (item :: ·)

/-- The selections of several members that only count together. What no member recognizes is unknown. -/
def combine (ofMembers : List α → Option β) (members : List (Selection α)) : Selection β where
  found := (choices (members.map (·.found))).filterMap ofMembers
  errors := members.flatMap (·.errors)
  unknown :=
    match members with
    | [] => []
    | s :: rest => rest.foldl (fun known t => common known t.unknown) s.unknown

end Selection

end Mandate

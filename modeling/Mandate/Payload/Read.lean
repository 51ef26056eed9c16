import Mandate.Cbor.Skip
import Mandate.Cbor.Value.Read
import Mandate.Payload

/-!
# Reading payloads

The entries of a payload and of its capabilities may stand in any order. A name that is known stands at
most once, and entries under other names are passed over.
-/

namespace Mandate

open Cbor

namespace Capability

/-- What a capability is read from. -/
inductive Entry where
  | ability (value : String)
  | resource (value : String)
  | caveats (value : Fields)
  | unknown

namespace Entry

def ability? : Entry → Option String
  | ability a => some a
  | _ => none

def resource? : Entry → Option String
  | resource r => some r
  | _ => none

def caveats? : Entry → Option Fields
  | caveats c => some c
  | _ => none

def read? (depth : Nat) (name : String) (b : Bytes) : Option (Entry × Bytes) :=
  match name with
  | "can" => (readText? depth b).map fun (a, b) => (ability a, b)
  | "with" => (readText? depth b).map fun (r, b) => (resource r, b)
  | "nb" => (readFields? depth b).map fun (c, b) => (caveats c, b)
  | _ => (skip? depth b).map fun (_, b) => (unknown, b)

end Entry

def ofEntries? (entries : List Entry) : Option Capability := do
  some {
    ability := ← one? (entries.filterMap Entry.ability?)
    resource := ← one? (entries.filterMap Entry.resource?)
    caveats := ← atMostOne? [] (entries.filterMap Entry.caveats?) }

def read? : (depth : Nat) → Bytes → Option (Capability × Bytes)
  | 0, _ => none
  | depth + 1, b => do
    let (entries, b) ← readEntries? (Entry.read? depth) depth b
    some (← ofEntries? (entries.map (·.2)), b)

end Capability

def Did.read? (depth : Nat) (b : Bytes) : Option (Did × Bytes) := do
  let (text, b) ← readText? depth b
  match Did.parse text with
  | .ok did => some (did, b)
  | .error _ => none

def Timestamp.read? (_depth : Nat) (b : Bytes) : Option (Timestamp × Bytes) := do
  let (n, b) ← readArgument? .natural b
  some (UInt64.ofNat n, b)

namespace Payload

/-- What a payload is read from. -/
inductive Entry where
  | issuer (value : Did)
  | audience (value : Did)
  | capabilities (value : List Capability)
  | proofs (value : List Cid)
  | expiration (value : Option Timestamp)
  | notBefore (value : Option Timestamp)
  | facts (value : List Fields)
  | nonce (value : Option String)
  | unknown

namespace Entry

def issuer? : Entry → Option Did
  | issuer d => some d
  | _ => none

def audience? : Entry → Option Did
  | audience d => some d
  | _ => none

def capabilities? : Entry → Option (List Capability)
  | capabilities cs => some cs
  | _ => none

def proofs? : Entry → Option (List Cid)
  | proofs ps => some ps
  | _ => none

def expiration? : Entry → Option (Option Timestamp)
  | expiration t => some t
  | _ => none

def notBefore? : Entry → Option (Option Timestamp)
  | notBefore t => some t
  | _ => none

def facts? : Entry → Option (List Fields)
  | facts fs => some fs
  | _ => none

def nonce? : Entry → Option (Option String)
  | nonce n => some n
  | _ => none

def read? (depth : Nat) (name : String) (b : Bytes) : Option (Entry × Bytes) :=
  match name with
  | "iss" => (Did.read? depth b).map fun (d, b) => (issuer d, b)
  | "aud" => (Did.read? depth b).map fun (d, b) => (audience d, b)
  | "att" => (readList? Capability.read? depth b).map fun (cs, b) => (capabilities cs, b)
  | "prf" => (readList? readLink? depth b).map fun (ps, b) => (proofs ps, b)
  | "exp" => (readOptional? Timestamp.read? depth b).map fun (t, b) => (expiration t, b)
  | "nbf" => (readOptional? Timestamp.read? depth b).map fun (t, b) => (notBefore t, b)
  | "fct" => (readList? readFields? depth b).map fun (fs, b) => (facts fs, b)
  | "nnc" => (readOptional? readText? depth b).map fun (n, b) => (nonce n, b)
  | _ => (skip? depth b).map fun (_, b) => (unknown, b)

end Entry

def ofEntries? (entries : List Entry) : Option Payload := do
  some {
    issuer := ← one? (entries.filterMap Entry.issuer?)
    audience := ← one? (entries.filterMap Entry.audience?)
    capabilities := ← one? (entries.filterMap Entry.capabilities?)
    proofs := ← atMostOne? [] (entries.filterMap Entry.proofs?)
    expiration := ← atMostOne? none (entries.filterMap Entry.expiration?)
    notBefore := ← atMostOne? none (entries.filterMap Entry.notBefore?)
    facts := ← atMostOne? [] (entries.filterMap Entry.facts?)
    nonce := ← atMostOne? none (entries.filterMap Entry.nonce?) }

def read? : (depth : Nat) → Bytes → Option (Payload × Bytes)
  | 0, _ => none
  | depth + 1, b => do
    let (entries, b) ← readEntries? (Entry.read? depth) depth b
    some (← ofEntries? (entries.map (·.2)), b)

end Payload

end Mandate

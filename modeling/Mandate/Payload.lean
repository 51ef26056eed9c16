import Mandate.Capability
import Mandate.Cbor.Value
import Mandate.Did
import Mandate.Window

/-!
# Payloads

The part of a delegation that is signed: who grants which capabilities to whom, for how long and on the
strength of which other delegations. Its written form is a map under short names, which leaves out what
is absent.
-/

namespace Mandate

structure Payload where
  issuer : Did
  audience : Did
  capabilities : List Capability
  /-- The delegations that are cited, in order. -/
  proofs : List Cid
  expiration : Option Timestamp
  notBefore : Option Timestamp
  facts : List Fields
  nonce : Option String

namespace Capability

def toIpld (c : Capability) : Ipld :=
  let caveats := if c.caveats.isEmpty then [] else [("nb", .map c.caveats)]
  .map ([("can", .string c.ability)] ++ caveats ++ [("with", .string c.resource)])

end Capability

namespace Payload

def window (p : Payload) : Window := .between p.notBefore p.expiration

/-- A named entry for a value that may be absent. -/
def optionalEntry (name : String) (f : α → Ipld) : Option α → Fields
  | some a => [(name, f a)]
  | none => []

def timeToIpld (t : Timestamp) : Ipld := .integer t.toNat

def toIpld (p : Payload) : Ipld :=
  let facts := if p.facts.isEmpty then [] else [("fct", Ipld.list (p.facts.map .map))]
  .map (
    [("att", .list (p.capabilities.map Capability.toIpld)),
      ("aud", .string p.audience.toText)] ++
    optionalEntry "exp" timeToIpld p.expiration ++
    facts ++
    [("iss", .string p.issuer.toText)] ++
    optionalEntry "nbf" timeToIpld p.notBefore ++
    optionalEntry "nnc" .string p.nonce ++
    [("prf", .list (p.proofs.map .link))])

/-- The bytes that are signed, if the payload has a written form. -/
def encode? (p : Payload) : Option Bytes := Cbor.encode? p.toIpld

end Payload

end Mandate

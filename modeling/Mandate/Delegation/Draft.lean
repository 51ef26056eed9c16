import Mandate.Invocation

/-!
# Drafts

What a delegation is made of before it is signed. Delegations that are cited inline are attached, others
only linked.
-/

namespace Mandate

structure Draft where
  audience : Option Did
  capabilities : List Capability
  proofs : List Delegation.Proof
  expiration : Option Timestamp
  notBefore : Option Timestamp
  facts : List Fields
  nonce : Option String

namespace Draft

def payload (d : Draft) (issuer audience : Did) : Payload where
  issuer := issuer
  audience := audience
  capabilities := d.capabilities
  proofs := d.proofs.map (·.cid)
  expiration := d.expiration
  notBefore := d.notBefore
  facts := d.facts
  nonce := d.nonce

/-- The delegations that are cited inline. -/
def attached (d : Draft) : List Delegation :=
  d.proofs.filterMap fun
    | .inline p => some p
    | .link _ => none

/-- Signs in the name of the signer. The payload is encoded before it is signed. -/
def sign (d : Draft) (signer : Signer) : Except Delegation.Error Delegation :=
  match d.audience with
  | none => .error (.incomplete "audience")
  | some audience =>
    let payload := d.payload signer.did audience
    match payload.encode? with
    | none => .error .encode
    | some bytes =>
      match signer.sign bytes with
      | none => .error .sign
      | some signature => Delegation.ofSigned payload signature d.attached

/-- Signs an invocation, which has one capability. -/
def invoke (d : Draft) (signer : Signer) : Except Delegation.Error Invocation :=
  if d.capabilities.length = 1 then
    match d.sign signer with
    | .ok delegation => Invocation.ofDelegation delegation
    | .error e => .error e
  else .error (.notAnInvocation d.capabilities.length)

end Draft

end Mandate

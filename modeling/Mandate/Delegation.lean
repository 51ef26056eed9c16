import Mandate.Payload.Read
import Mandate.Principal

/-!
# Delegations

A delegation is a signed payload, addressed by its encoding. Delegations that it cites may be attached
to it, so that they need not be looked up.
-/

namespace Mandate

structure Delegation where
  payload : Payload
  signature : Bytes
  /-- The encoding that the delegation is addressed by. -/
  bytes : Bytes
  cid : Cid
  /-- The attached delegations by their addresses, in the order of these. -/
  blocks : List (Cid × Delegation)

namespace Delegation

/-- Why a delegation is not made. -/
inductive Error where
  | encode
  | decode
  | sign
  | incomplete (part : String)
  | emptyArchive
  | notAnInvocation (capabilities : Nat)
  deriving DecidableEq, Repr

def Error.message : Error → String
  | encode => "failed to encode delegation"
  | decode => "failed to decode delegation"
  | sign => "failed to sign delegation: signature error"
  | incomplete part => "delegation is missing its " ++ part
  | emptyArchive => "archive contains no delegation"
  | notAnInvocation n => "invocation must carry exactly one capability, found " ++ toString n

instance : BEq Delegation := ⟨fun a b => decide (a.cid = b.cid)⟩

def issuer (d : Delegation) : Did := d.payload.issuer

def audience (d : Delegation) : Did := d.payload.audience

def capabilities (d : Delegation) : List Capability := d.payload.capabilities

def window (d : Delegation) : Window := d.payload.window

mutual

/-- How many delegations are attached to a delegation, one to another, itself included. -/
def size : Delegation → Nat
  | ⟨_, _, _, _, blocks⟩ => 1 + sizeOfBlocks blocks

def sizeOfBlocks : List (Cid × Delegation) → Nat
  | [] => 0
  | (_, d) :: rest => size d + sizeOfBlocks rest

end

/-- A cited delegation, by its address only or attached. -/
inductive Proof where
  | link (cid : Cid)
  | inline (delegation : Delegation)

def Proof.cid : Proof → Cid
  | link c => c
  | inline d => d.cid

/-- The cited delegations in order, the attached ones as they are. -/
def proofs (d : Delegation) : List Proof :=
  d.payload.proofs.map fun c =>
    match d.blocks.lookup c with
    | some p => .inline p
    | none => .link c

/-- The delegation with another one attached; one that is not cited is left out. -/
def attach (d p : Delegation) : Delegation :=
  if p.cid ∈ d.payload.proofs then { d with blocks := Table.insert p.cid p d.blocks } else d

/-- The encoding of a signed payload. -/
def block? (signature : Bytes) (payload : Payload) : Option Bytes :=
  Cbor.encode? (.list [.bytes signature, payload.toIpld])

/-- The delegation of a signed payload, with the given ones attached. -/
def ofSigned (payload : Payload) (signature : Bytes) (attached : List Delegation) :
    Except Error Delegation :=
  match block? signature payload with
  | none => .error .encode
  | some bytes => .ok (attached.foldl attach ⟨payload, signature, bytes, .ofBlock bytes, []⟩)

/-- A signature and the payload that it is for. -/
def readBlock? : (depth : Nat) → Bytes → Option ((Bytes × Payload) × Bytes)
  | 0, _ => none
  | depth + 1, b => do
    let (size, b) ← Cbor.readArgument? .array b
    let (signature, b) ← Cbor.readBytes? depth b
    let (payload, b) ← Payload.read? depth b
    if size = 2 then some ((signature, payload), b) else none

/-- The delegation with a given encoding, to which nothing is attached. The encoding is kept as it is,
even where it could be shorter. -/
def ofBytes (bytes : Bytes) : Except Error Delegation :=
  match Cbor.readAll? (readBlock? Cbor.nestingLimit) bytes with
  | some (signature, payload) => .ok ⟨payload, signature, bytes, .ofBlock bytes, []⟩
  | none => .error .decode

/-- Why a signature is not accepted. -/
inductive SignatureError where
  | encoding
  | resolution (cause : String)
  | verification
  deriving DecidableEq, Repr

def SignatureError.message : SignatureError → String
  | encoding => "failed to encode payload: " ++ Error.encode.message
  | resolution cause => "failed to resolve issuer: " ++ cause
  | verification => "signature verification failed: signature error"

/-- Checks the signature over the payload, encoded afresh, with the verifier of the issuer. -/
def verifySignature (d : Delegation) (directory : Directory) : Except SignatureError Unit :=
  match d.payload.encode? with
  | none => .error .encoding
  | some payload =>
    match directory d.issuer with
    | .error cause => .error (.resolution cause)
    | .ok verifier =>
      if verifier.verifies payload d.signature then .ok () else .error .verification

end Delegation

end Mandate

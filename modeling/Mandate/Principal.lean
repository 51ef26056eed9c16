import Mandate.Did.Key

/-!
# Principals

A signer makes signatures in the name of an identifier and a verifier checks them. Which kind of
signature is in use is theirs to know. A directory finds the verifier of an identifier.
-/

namespace Mandate

structure Signer where
  did : Did
  /-- The signature of a payload, if the signer is able to make one. -/
  sign : Bytes → Option Bytes

structure Verifier where
  did : Did
  /-- Whether the second argument is a signature of the first. -/
  verifies : (payload signature : Bytes) → Bool

/-- Finds verifiers, or says why there is none. -/
abbrev Directory := Did → Except String Verifier

namespace Ed25519

def SecretKey.signer (k : SecretKey) : Signer := ⟨k.did, fun payload => some (k.sign payload)⟩

def PublicKey.verifier (k : PublicKey) : Verifier := ⟨k.did, k.verifies⟩

end Ed25519

namespace Directory

/-- Finds the keys that identifiers themselves carry. -/
def keys : Directory := fun did =>
  match Did.parseKey did.toText with
  | .ok k => .ok k.verifier
  | .error e => .error ("invalid ed25519 did:key: " ++ e.message)

/-- Asks the second directory only for what the first does not find. -/
def orElse (left right : Directory) : Directory := fun did =>
  match left did with
  | .ok v => .ok v
  | .error reason =>
    match right did with
    | .ok v => .ok v
    | .error other => .error (reason ++ "; " ++ other)

end Directory

end Mandate

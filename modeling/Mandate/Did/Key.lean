import Mandate.Did
import Mandate.Ed25519.Signature
import Mandate.Text.Base58

/-!
# Identifiers that are keys

The method `key` names a principal by its public key: after the letter `z` comes the base 58 text of a
marker for the kind of key and of the bytes of the key.
-/

namespace Mandate

namespace Did

open Ed25519

/-- What stands before the bytes of a key. -/
def keyMarker : Bytes := [0xed, 0x01]

/-- The identifier of the key with the given bytes. -/
def ofKeyBytes (bytes : Bytes) : Did where
  method := "key"
  identifier := String.ofList ('z' :: Base58.encode (keyMarker ++ bytes))
  method_ne := by decide
  colon_notMem := by decide
  identifier_ne := by
    intro h
    simpa using congrArg String.toList h

/-- Why a text does not name a key. -/
inductive KeyError where
  | noHeader
  | noBase58Letter
  | notBase58
  | otherMarker
  | notAKey
  deriving DecidableEq, Repr

def KeyError.message : KeyError → String
  | .noHeader => "invalid did header"
  | .noBase58Letter => "missing base58 prefix 'z'"
  | .notBase58 => "invalid base58 encoding"
  | .otherMarker => "not an ed25519-pub multicodec (0xED 0x01)"
  | .notAKey => "invalid key bytes"

/-- The key in a text that may be any. -/
def parseKey (s : String) : Except KeyError PublicKey := do
  let some identifier := Text.dropStart? "did:key:".toList s.toList | throw .noHeader
  let some digits := Text.dropStart? ['z'] identifier | throw .noBase58Letter
  let some bytes := Base58.decode? digits | throw .notBase58
  if bytes.length ≠ 34 then throw .notAKey
  let some key := Text.dropStart? keyMarker bytes | throw .otherMarker
  let some k := PublicKey.ofBytes? key | throw .notAKey
  pure k

end Did

namespace Ed25519

def PublicKey.did (k : PublicKey) : Did := Did.ofKeyBytes k.bytes

def SecretKey.did (k : SecretKey) : Did := Did.ofKeyBytes k.publicBytes

end Ed25519

end Mandate

import Mandate.Ed25519.Point
import Mandate.Hash.Sha2

/-!
# Signatures over the curve

A key pair is derived from a seed of 32 bytes. Verification is strict: the scalar is reduced, neither
point has small order, and the commitment is recomputed and compared byte by byte.
-/

namespace Mandate.Ed25519

/-- The digest of 64 bytes, as a number. -/
def digestNat (b : Bytes) : Nat := (sha512 b).toNatLittle

/-- A seed and what is derived from it. -/
structure SecretKey where
  seed : Bytes
  seed_length : seed.length = 32

namespace SecretKey

/-- Refuses a seed of another length than 32 bytes. -/
def ofSeed? (seed : Bytes) : Option SecretKey :=
  if h : seed.length = 32 then some ⟨seed, h⟩ else none

/-- What is said of a seed of another length. -/
def lengthMessage (seed : Bytes) : String :=
  "expected 32 seed bytes, got " ++ toString seed.length

/-- The secret scalar, a multiple of eight with a fixed highest bit. -/
def scalar (k : SecretKey) : Nat :=
  let low := Bytes.toNatLittle ((sha512 k.seed).take 32)
  low % (1 <<< 254) / 8 * 8 + 1 <<< 254

/-- What the one-time scalars are derived from. -/
def nonceSeed (k : SecretKey) : Bytes := (sha512 k.seed).drop 32

/-- The 32 bytes of the public key. -/
def publicBytes (k : SecretKey) : Bytes := (Point.base.multiple 255 k.scalar).compress

/-- The 64 bytes of the signature of a message. -/
def sign (k : SecretKey) (message : Bytes) : Bytes :=
  let r := digestNat (k.nonceSeed ++ message) % groupOrder
  let commitment := (Point.base.multiple 255 r).compress
  let challenge := digestNat (commitment ++ k.publicBytes ++ message) % groupOrder
  commitment ++ Bytes.ofNatLittle 32 ((r + challenge * k.scalar) % groupOrder)

end SecretKey

/-- The bytes of a public key with the point that they stand for. -/
structure PublicKey where
  bytes : Bytes
  point : Point
  decompress_bytes : Point.decompress? bytes = some point

namespace PublicKey

/-- Refuses bytes that stand for no point. -/
def ofBytes? (bytes : Bytes) : Option PublicKey :=
  match h : Point.decompress? bytes with
  | some point => some ⟨bytes, point, h⟩
  | none => none

/-- Whether a signature of a message was made with the key. -/
def verifies (k : PublicKey) (message signature : Bytes) : Bool :=
  if signature.length = 64 then
    let commitment := signature.take 32
    let s := Bytes.toNatLittle (signature.drop 32)
    match Point.decompress? commitment with
    | none => false
    | some r =>
      if groupOrder ≤ s || r.isSmallOrder || k.point.isSmallOrder then false
      else
        let challenge := digestNat (commitment ++ k.bytes ++ message) % groupOrder
        let expected := (k.point.neg.multiple 255 challenge).add (Point.base.multiple 255 s)
        expected.compress == commitment
  else false

end PublicKey

end Mandate.Ed25519

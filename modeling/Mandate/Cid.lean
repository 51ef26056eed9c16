import Mandate.Bytes

/-!
# Content identifiers

An identifier of the first kind is a digest of 32 bytes. One of the second kind also says how the content
is encoded and which hash function was used.
-/

namespace Mandate

inductive Cid where
  | v0 (digest : Bytes) (length_digest : digest.length = 32)
  | v1 (codec hash : UInt64) (digest : Bytes) (length_digest : digest.length ≤ 64)

namespace Cid

/-- Digests are compared up to the first byte in which they differ. -/
instance : DecidableEq Cid
  | v0 d _, v0 e _ => decidable_of_iff ((d == e) = true) (by simp)
  | v1 c h d _, v1 c' h' e _ => decidable_of_iff (c = c' ∧ h = h' ∧ (d == e) = true) (by simp)
  | v0 .., v1 .. => isFalse (by simp)
  | v1 .., v0 .. => isFalse (by simp)

/-- The code of the SHA-256 hash function. -/
def sha256Code : UInt64 := 0x12

/-- The code of the encoding that delegations use. -/
def dagCborCode : UInt64 := 0x71

/-- The code of the encoding that identifiers of the first kind imply. -/
def dagPbCode : UInt64 := 0x70

def version : Cid → Nat
  | v0 .. => 0
  | v1 .. => 1

def codec : Cid → UInt64
  | v0 .. => dagPbCode
  | v1 codec .. => codec

def hash : Cid → UInt64
  | v0 .. => sha256Code
  | v1 _ hash .. => hash

def digest : Cid → Bytes
  | v0 digest _ => digest
  | v1 _ _ digest _ => digest

/-- The parts that order identifiers, the most significant first. -/
def sortKey (c : Cid) : List Nat :=
  c.version :: c.codec.toNat :: c.hash.toNat :: c.digest.length :: c.digest.map (·.toNat)

instance : LT Cid := ⟨fun a b => a.sortKey < b.sortKey⟩

instance : DecidableLT Cid := fun a b => inferInstanceAs (Decidable (a.sortKey < b.sortKey))

end Cid

end Mandate

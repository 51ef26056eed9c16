import Mandate.Cid
import Mandate.Varint
import Mandate.Hash.Sha2

/-!
# Content identifiers as bytes

The first kind is written as its hash function, digest length and digest. The second kind has a version
and an encoding in front of these.
-/

namespace Mandate.Cid

def toBytes : Cid → Bytes
  | v0 digest _ => 0x12 :: 0x20 :: digest
  | v1 codec hash digest _ =>
    Varint.encode 1 ++ Varint.encode codec ++ Varint.encode hash ++
      Varint.encode (UInt64.ofNat digest.length) ++ digest

def ofParts? (codec hash : UInt64) (digest : Bytes) : Option Cid :=
  if h : digest.length ≤ 64 then some (v1 codec hash digest h) else none

def ofDigest? (digest : Bytes) : Option Cid :=
  if h : digest.length = 32 then some (v0 digest h) else none

/-- The identifier at the front; what comes after it is not looked at. -/
def ofBytes? (b : Bytes) : Option Cid := do
  let (version, b) ← Varint.read? b
  let (codec, b) ← Varint.read? b
  if version = 0x12 ∧ codec = 0x20 then ofDigest? (b.take 32)
  else if version = 1 then
    let (hash, b) ← Varint.read? b
    let (size, b) ← Varint.read? b
    if 64 < size then none
    else
      let (digest, _) ← b.take? size.toNat
      ofParts? codec hash digest
  else none

/-- The identifier of an encoded block. -/
def ofBlock (block : Bytes) : Cid :=
  v1 dagCborCode sha256Code (sha256 block) (by simp)

end Mandate.Cid

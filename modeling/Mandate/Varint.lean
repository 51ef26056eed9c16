import Mandate.Bytes

/-!
# Numbers of variable length

Seven bits to a byte, the lowest first; all bytes but the last have their top bit set. Only the
shortest form of a number is read, and no more than ten bytes.
-/

namespace Mandate.Varint

def encodeWithin : (width n : Nat) → Bytes
  | 0, _ => []
  | width + 1, n =>
    if n < 128 then [UInt8.ofNat n]
    else UInt8.ofNat (n % 128 + 128) :: encodeWithin width (n / 128)

def encode (n : UInt64) : Bytes := encodeWithin 10 n.toNat

/-- Reads at most `width` bytes; a last byte of zero is refused unless it is the `first`. -/
def readWithin : (width : Nat) → (first : Bool) → Bytes → Option (Nat × Bytes)
  | 0, _, _ => none
  | _ + 1, _, [] => none
  | width + 1, first, b :: rest =>
    if b < 128 then
      if b = 0 ∧ !first then none else some (b.toNat, rest)
    else
      (readWithin width false rest).map fun (n, rest) => (b.toNat - 128 + 128 * n, rest)

/-- The number at the front, and the bytes after it. -/
def read? (b : Bytes) : Option (UInt64 × Bytes) :=
  (readWithin 10 true b).map fun (n, rest) => (UInt64.ofNat n, rest)

end Mandate.Varint

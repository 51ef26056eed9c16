/-!
# Byte strings

Byte strings are lists, so that a reader takes bytes off the front and a law about it is an induction.
-/

namespace Mandate

abbrev Bytes := List UInt8

namespace Bytes

/-- The number whose digits in base 256 are given, most significant first. -/
def toNat (b : Bytes) : Nat := b.foldl (fun n byte => n * 256 + byte.toNat) 0

/-- The number whose digits in base 256 are given, least significant first. -/
def toNatLittle : Bytes → Nat
  | [] => 0
  | byte :: rest => byte.toNat + 256 * toNatLittle rest

/-- The lowest `width` bytes of a number, least significant first. -/
def ofNatLittle : (width n : Nat) → Bytes
  | 0, _ => []
  | width + 1, n => UInt8.ofNat n :: ofNatLittle width (n / 256)

/-- The lowest `width` bytes of a number, most significant first. -/
def ofNat (width n : Nat) : Bytes := (ofNatLittle width n).reverse

/-- The UTF-8 form of a text. -/
def ofString (s : String) : Bytes := s.toByteArray.data.toList

/-- The text with the given UTF-8 form. -/
def toString? (b : Bytes) : Option String := String.fromUTF8? ⟨b.toArray⟩

/-- The first `n` bytes and those after them. -/
def take? (n : Nat) (b : Bytes) : Option (Bytes × Bytes) :=
  if n ≤ b.length then some (b.take n, b.drop n) else none

/-- The whole chunks of `size` bytes, in order. -/
def chunks (size : Nat) (b : Bytes) : List Bytes :=
  (List.range (b.length / size)).map fun i => (b.drop (i * size)).take size

@[simp] theorem length_ofNatLittle (width n : Nat) : (ofNatLittle width n).length = width := by
  induction width generalizing n with
  | zero => rfl
  | succ width ih => simp [ofNatLittle, ih]

@[simp] theorem length_ofNat (width n : Nat) : (ofNat width n).length = width := by
  simp [ofNat]

@[simp] theorem toString?_ofString (s : String) : toString? (ofString s) = some s := by
  have h : String.fromUTF8? s.toByteArray = some s := by
    unfold String.fromUTF8?
    split
    · rfl
    · exact absurd s.isValidUTF8 (by simpa using ‹¬_›)
  simpa [toString?, ofString] using h

end Bytes

end Mandate

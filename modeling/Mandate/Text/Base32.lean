import Mandate.Bytes
import Mandate.Text.Radix

/-!
# Base 32 text of byte strings

Lower case and unpadded: every five bits are one digit, and the last digit is filled up with zero bits.
-/

namespace Mandate.Base32

/-- The digits in increasing order. -/
def alphabet : List Char := "abcdefghijklmnopqrstuvwxyz234567".toList

def digitChar (d : Nat) : Char := alphabet.getD d 'a'

def digitValue? (c : Char) : Option Nat := alphabet.idxOf? c

/-- The text of a byte string. -/
def encode (b : Bytes) : List Char :=
  let width := (b.length * 8 + 4) / 5
  (Radix.fixed 32 width (b.toNat <<< (width * 5 - b.length * 8))).map digitChar

/-- The byte string of a text; refuses foreign characters, superfluous digits and filling bits that
are not zero. -/
def decode? (s : List Char) : Option Bytes := do
  let digits ← s.mapM digitValue?
  let width := s.length * 5 / 8
  let filling := s.length * 5 - width * 8
  let value := Radix.toNat 32 digits
  if filling < 5 ∧ value % (1 <<< filling) = 0 then
    some ((Radix.fixed 256 width (value >>> filling)).map UInt8.ofNat)
  else none

end Mandate.Base32

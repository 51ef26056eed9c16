import Mandate.Bytes
import Mandate.Text.Radix

/-!
# Base 58 text of byte strings

A byte string is read as one number and written in base 58 with the digits and letters that are not
easily mistaken for one another. Zero bytes at the front are written as that many ones.
-/

namespace Mandate.Base58

/-- The digits in increasing order. -/
def alphabet : List Char :=
  "123456789ABCDEFGHJKLMNPQRSTUVWXYZabcdefghijkmnopqrstuvwxyz".toList

/-- The most bytes that a text may stand for after its leading ones. -/
def capacity : Nat := 132

def digitChar (d : Nat) : Char := alphabet.getD d '1'

def digitValue? (c : Char) : Option Nat := alphabet.idxOf? c

/-- The text of a byte string. -/
def encode (b : Bytes) : List Char :=
  let zeros := b.takeWhile (· == 0)
  List.replicate zeros.length '1' ++ (Radix.digits 58 b.toNat).map digitChar

/-- The byte string of a text; refuses foreign characters and numbers beyond the capacity. -/
def decode? (s : List Char) : Option Bytes := do
  let zeros := s.takeWhile (· == '1')
  let digits ← (s.drop zeros.length).mapM digitValue?
  let value := Radix.digits 256 (Radix.toNat 58 digits)
  if value.length ≤ capacity then
    some (List.replicate zeros.length 0 ++ value.map UInt8.ofNat)
  else none

end Mandate.Base58

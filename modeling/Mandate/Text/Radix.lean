/-!
# Positional digits

Numbers written in a base, most significant digit first.
-/

namespace Mandate.Radix

/-- The number with the given digits. -/
def toNat (base : Nat) (digits : List Nat) : Nat :=
  digits.foldl (fun n d => n * base + d) 0

/-- The lowest `width` digits of a number, put before `rest`. -/
def fixedOnto (base : Nat) : (width n : Nat) → List Nat → List Nat
  | 0, _, rest => rest
  | width + 1, n, rest => fixedOnto base width (n / base) (n % base :: rest)

/-- The lowest `width` digits of a number. -/
def fixed (base width n : Nat) : List Nat := fixedOnto base width n []

/-- The digits of a number without leading zeros; zero has none. -/
def digits (base n : Nat) : List Nat :=
  (fixed base (n.log2 + 1) n).dropWhile (· == 0)

end Mandate.Radix

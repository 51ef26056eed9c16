/-!
# Binary floating-point numbers of 64 bits

Numbers are kept as their bit patterns, and every operation is exact arithmetic on integers. Apart
from the values that are not numbers, the order of the numbers is the order of their patterns, once
the sign bit is read as a sign.
-/

namespace Mandate

structure Binary64 where
  bits : UInt64
  deriving DecidableEq, Repr

namespace Binary64

/-- The pattern without its sign bit. -/
def magnitude (x : Binary64) : Nat := x.bits.toNat % (1 <<< 63)

def isNegative (x : Binary64) : Bool := 1 <<< 63 ≤ x.bits.toNat

/-- The pattern of positive infinity. -/
def infinityBits : Nat := 2047 <<< 52

def isNaN (x : Binary64) : Bool := infinityBits < x.magnitude

def isFinite (x : Binary64) : Bool := x.magnitude < infinityBits

/-- The pattern as a signed number; both zeros give zero. -/
def rank (x : Binary64) : Int := if x.isNegative then -x.magnitude else x.magnitude

/-- The two zeros are the same, and so are any two values that are not numbers. -/
def same (x y : Binary64) : Bool :=
  if x.isNaN || y.isNaN then x.isNaN && y.isNaN else x.rank == y.rank

instance : BEq Binary64 := ⟨same⟩

/-- Numeric order; false whenever either side is not a number. -/
def less (x y : Binary64) : Bool := !x.isNaN && !y.isNaN && decide (x.rank < y.rank)

/-- `n` divided by two to the power `k`, rounded to the nearest integer, a half going to the even one. -/
def roundShift (n k : Nat) : Nat :=
  let quotient := n >>> k
  let twiceRest := 2 * (n % (1 <<< k))
  if twiceRest < 1 <<< k then quotient
  else if 1 <<< k < twiceRest then quotient + 1
  else quotient + quotient % 2

/-- The pattern of the number nearest to a natural number. A significand that rounds up to the next
power of two carries into the exponent. -/
def natBits (n : Nat) : Nat :=
  if n = 0 then 0
  else
    let e := n.log2
    let significand := if e ≤ 52 then n <<< (52 - e) else roundShift n (e - 52)
    min ((e + 1022) <<< 52 + significand) infinityBits

/-- The number nearest to an integer, a tie going to the even significand. -/
def ofInt (n : Int) : Binary64 :=
  ⟨UInt64.ofNat (natBits n.natAbs + if n < 0 then 1 <<< 63 else 0)⟩

/-- The value of a pattern of 32 bits. What is not a number stays so and becomes a quiet one. -/
def ofBits32 (raw : Nat) : Binary64 :=
  let sign := (raw >>> 31 % 2) <<< 63
  let exponent := raw >>> 23 % 256
  let fraction := raw % (1 <<< 23)
  let wide :=
    if exponent = 255 then
      infinityBits + if fraction = 0 then 0 else (fraction ||| 1 <<< 22) <<< 29
    else if exponent = 0 then
      if fraction = 0 then 0
      else
        let e := fraction.log2
        (e + 873) <<< 52 + fraction <<< (52 - e)
    else (exponent + 896) <<< 52 + fraction <<< 29
  ⟨UInt64.ofNat (sign + wide)⟩

/-- The integer significand of a finite number: its absolute value is this times two to the power
`exponent`. -/
def significand (x : Binary64) : Nat :=
  if x.magnitude < 1 <<< 52 then x.magnitude else x.magnitude % (1 <<< 52) + 1 <<< 52

def exponent (x : Binary64) : Int :=
  if x.magnitude < 1 <<< 52 then -1074 else (x.magnitude >>> 52 : Nat) - 1075

end Binary64

end Mandate

import Mandate.Binary64

/-!
# Decimal text of binary numbers

A finite number is written with the fewest digits that read back as the same number, and of those with
the nearest ones. The notation is positional, whatever the size of the number.
-/

namespace Mandate.Binary64

/-- A positive fraction `num / den`. -/
structure Ratio where
  num : Nat
  den : Nat

namespace Ratio

/-- `m` times a power of two. -/
def scaled (m : Nat) (e : Int) : Ratio :=
  if 0 ≤ e then ⟨m <<< e.toNat, 1⟩ else ⟨m, 1 <<< (-e).toNat⟩

/-- `m` times a power of ten. -/
def decimal (m : Nat) (e : Int) : Ratio :=
  if 0 ≤ e then ⟨m * Nat.pow 10 e.toNat, 1⟩ else ⟨m, Nat.pow 10 (-e).toNat⟩

def lt (x y : Ratio) : Bool := x.num * y.den < y.num * x.den

def le (x y : Ratio) : Bool := x.num * y.den ≤ y.num * x.den

/-- How many units of ten to the power `e` fit into the fraction. -/
def floorAt (x : Ratio) (e : Int) : Nat :=
  if 0 ≤ e then x.num / (x.den * Nat.pow 10 e.toNat) else x.num * Nat.pow 10 (-e).toNat / x.den

end Ratio

/-- The numbers that round to a given one, with the number itself. -/
structure Neighbourhood where
  low : Ratio
  value : Ratio
  high : Ratio
  /-- Whether the ends belong to it. -/
  closed : Bool

namespace Neighbourhood

/-- Of a finite number other than zero. Below a power of two the numbers are twice as dense. -/
def of (x : Binary64) : Neighbourhood :=
  let m := x.significand
  let below := if m = 1 <<< 52 ∧ 1 <<< 53 ≤ x.magnitude then 1 else 2
  let e := x.exponent - 2
  ⟨.scaled (4 * m - below) e, .scaled (4 * m) e, .scaled (4 * m + 2) e, m % 2 == 0⟩

def contains (n : Neighbourhood) (x : Ratio) : Bool :=
  if n.closed then n.low.le x && x.le n.high else n.low.lt x && x.lt n.high

/-- The multiple of ten to the power `e` that is nearest to the value among those inside, the greater
one if there are two. -/
def nearest? (n : Neighbourhood) (e : Int) : Option Nat :=
  let down := n.value.floorAt e
  let lower := Ratio.decimal down e
  let upper := Ratio.decimal (down + 1) e
  match n.contains lower, n.contains upper with
  | true, true =>
    let middle : Ratio := ⟨lower.num * upper.den + upper.num * lower.den, 2 * lower.den * upper.den⟩
    some (if n.value.lt middle then down else down + 1)
  | true, false => some down
  | false, true => some (down + 1)
  | false, false => none

end Neighbourhood

/-- The least `k` from a start on such that ten to the power `k` exceeds the fraction. -/
def decimalExponent (x : Ratio) : (fuel : Nat) → Int → Int
  | 0, k => k
  | fuel + 1, k => if x.lt (.decimal 1 k) then k else decimalExponent x fuel (k + 1)

/-- Digits as one number, and the power of ten that they count: the coarsest grid wins that has a point
in the neighbourhood. -/
def firstHit (n : Neighbourhood) (top : Int) : (fuel digits : Nat) → Nat × Int
  | 0, _ => (n.value.floorAt 0, 0)
  | fuel + 1, digits =>
    let e := top - digits
    match n.nearest? e with
    | some m => (m, e)
    | none => firstHit n top fuel (digits + 1)

/-- The shortest decimal form of a finite number other than zero. Seventeen digits always suffice, and
a carry to the next power of ten leaves a zero to drop. -/
def shortest (x : Binary64) : Nat × Int :=
  let n := Neighbourhood.of x
  let (m, e) := firstHit n (decimalExponent n.value 633 (-323)) 17 1
  if m % 10 = 0 then (m / 10, e + 1) else (m, e)

/-- A decimal number in positional notation. -/
def positional (m : Nat) (e : Int) : String :=
  if 0 ≤ e then toString (m * Nat.pow 10 e.toNat)
  else
    let places := (-e).toNat
    let digits := (toString m).toList
    let filled := List.replicate (places + 1 - digits.length) '0' ++ digits
    let whole := filled.take (filled.length - places)
    String.ofList (whole ++ '.' :: filled.drop (filled.length - places))

/-- The text of a number. -/
def toText (x : Binary64) : String :=
  if x.isNaN then "NaN"
  else
    let sign := if x.isNegative then "-" else ""
    if !x.isFinite then sign ++ "inf"
    else if x.magnitude = 0 then sign ++ "0"
    else
      let (m, e) := x.shortest
      sign ++ positional m e

end Mandate.Binary64

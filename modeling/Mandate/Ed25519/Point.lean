import Mandate.Bytes

/-!
# Points of the twisted Edwards curve

Arithmetic on the curve `-x² + y² = 1 + d x² y²` over the integers modulo `2^255 - 19`, in extended
coordinates. A point is written as its ordinate, with the parity of the abscissa in the top bit.
-/

namespace Mandate.Ed25519

/-- The order of the field. -/
def fieldOrder : Nat := 1 <<< 255 - 19

/-- The order of the subgroup that the base point generates. -/
def groupOrder : Nat := 1 <<< 252 + 27742317777372353535851937790883648493

namespace Field

def add (a b : Nat) : Nat := (a + b) % fieldOrder
def sub (a b : Nat) : Nat := (a + (fieldOrder - b % fieldOrder)) % fieldOrder
def mul (a b : Nat) : Nat := a * b % fieldOrder
def neg (a : Nat) : Nat := sub 0 a

/-- `a` to the power of the lowest `bits` bits of `n`. -/
def pow (a : Nat) : (bits n : Nat) → Nat
  | 0, _ => 1
  | bits + 1, n =>
    let half := pow a bits (n / 2)
    let square := mul half half
    if n % 2 = 1 then mul square a else square

def inverse (a : Nat) : Nat := pow a 255 (fieldOrder - 2)

/-- A square root of minus one. -/
def rootOfMinusOne : Nat := pow 2 253 ((fieldOrder - 1) / 4)

/-- A root of `u / v`, if there is one. -/
def rootOfRatio? (u v : Nat) : Option Nat :=
  let v₃ := mul (mul v v) v
  let v₇ := mul (mul v₃ v₃) v
  let r := mul (mul u v₃) (pow (mul u v₇) 252 ((fieldOrder - 5) / 8))
  let check := mul v (mul r r)
  if check = u % fieldOrder then some r
  else if check = neg u then some (mul r rootOfMinusOne)
  else none

end Field

open Mandate.Ed25519.Field

/-- The coefficient of the curve. -/
def curveCoefficient : Nat :=
  37095705934669439343138083508754565189542113879843219016388785533085940283555

/-- A point as `(x / z, y / z)` with `t = x y / z`. -/
structure Point where
  x : Nat
  y : Nat
  z : Nat
  t : Nat
  deriving DecidableEq, Repr

namespace Point

def identity : Point := ⟨0, 1, 1, 0⟩

def base : Point :=
  let x := 15112221349535400772501151409588531511454012693041857206046113283949847762202
  let y := 46316835694926478169428394003475163141307993866256225615783033603165251855960
  ⟨x, y, 1, mul x y⟩

def add (p q : Point) : Point :=
  let a := mul (sub p.y p.x) (sub q.y q.x)
  let b := mul (Field.add p.y p.x) (Field.add q.y q.x)
  let c := mul (mul (2 * p.t) q.t) curveCoefficient
  let d := mul (2 * p.z) q.z
  let e := sub b a
  let f := sub d c
  let g := Field.add d c
  let h := Field.add b a
  ⟨mul e f, mul g h, mul f g, mul e h⟩

def double (p : Point) : Point := add p p

def neg (p : Point) : Point := ⟨Field.neg p.x, p.y, p.z, Field.neg p.t⟩

/-- The multiple of a point by the lowest `bits` bits of `n`. -/
def multiple (p : Point) : (bits n : Nat) → Point
  | 0, _ => identity
  | bits + 1, n =>
    let half := multiple p bits (n / 2)
    let twice := double half
    if n % 2 = 1 then add twice p else twice

/-- Whether the order of the point divides eight. -/
def isSmallOrder (p : Point) : Bool :=
  let q := p.double.double.double
  q.x == 0 && q.y == q.z

/-- The 32 bytes of a point. -/
def compress (p : Point) : Bytes :=
  let inv := inverse p.z
  let x := mul p.x inv
  let y := mul p.y inv
  Bytes.ofNatLittle 32 (y + (x % 2) <<< 255)

/-- The point with the given 32 bytes. The ordinate may exceed the field, and the parity bit may ask
for the negative of zero. -/
def decompress? (b : Bytes) : Option Point :=
  if b.length = 32 then
    let raw := b.toNatLittle
    let y := raw % (1 <<< 255) % fieldOrder
    let square := mul y y
    (rootOfRatio? (sub square 1) (Field.add (mul curveCoefficient square) 1)).map fun r =>
      let x := if r % 2 = raw >>> 255 then r else Field.neg r
      ⟨x, y, 1, mul x y⟩
  else none

end Point

end Mandate.Ed25519

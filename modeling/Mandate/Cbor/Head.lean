import Mandate.Bytes

/-!
# Heads of binary items

An item begins with its kind, in the three high bits of its first byte, and an argument: a value, a length
or a tag, which stands in the low bits or in the bytes that follow. Arguments are written as short as
possible; in reading they may be longer.
-/

namespace Mandate.Cbor

inductive Kind where
  | natural
  | negative
  | bytes
  | text
  | array
  | map
  | tag
  /-- Truth values, null and floats. -/
  | simple
  deriving DecidableEq, Repr

namespace Kind

/-- The three high bits of the first byte. -/
def bits : Kind → UInt8
  | natural => 0x00
  | negative => 0x20
  | bytes => 0x40
  | text => 0x60
  | array => 0x80
  | map => 0xa0
  | tag => 0xc0
  | simple => 0xe0

/-- The kind of an item with a given first byte. -/
def ofByte (b : UInt8) : Kind :=
  match b.toNat / 32 with
  | 0 => natural
  | 1 => negative
  | 2 => bytes
  | 3 => text
  | 4 => array
  | 5 => map
  | 6 => tag
  | _ => simple

/-- The first byte of an item that goes on until a stop instead of giving its length. -/
def unsized (k : Kind) : UInt8 := k.bits ||| 0x1f

end Kind

/-- The first byte of what ends an item that does not give its length. -/
def stop : UInt8 := 0xff

/-- The tag of links. -/
def linkTag : Nat := 42

/-- How many levels may be entered, one within the other. -/
def nestingLimit : Nat := 256

/-- A head with the argument as short as possible. -/
def head? (k : Kind) (argument : Nat) : Option Bytes :=
  let first := fun info : Nat => k.bits ||| UInt8.ofNat info
  if argument < 24 then some [first argument]
  else if argument < UInt8.size then some (first 24 :: Bytes.ofNat 1 argument)
  else if argument < UInt16.size then some (first 25 :: Bytes.ofNat 2 argument)
  else if argument < UInt32.size then some (first 26 :: Bytes.ofNat 4 argument)
  else if argument < UInt64.size then some (first 27 :: Bytes.ofNat 8 argument)
  else none

/-- The argument of an item that is expected to be of a given kind. Bits that the kind itself has are not
looked at: an item passes for any kind that has all the bits of its own. -/
def readArgument? (k : Kind) : Bytes → Option (Nat × Bytes)
  | [] => none
  | b :: rest =>
    let info := (b &&& ~~~k.bits).toNat
    if info < 24 then some (info, rest)
    else if info < 28 then do
      let (argument, rest) ← Bytes.take? (1 <<< (info - 24)) rest
      some (argument.toNat, rest)
    else none

/-- What a reader makes of a byte string, provided that it leaves nothing of it. -/
def readAll? (read : Bytes → Option (α × Bytes)) (b : Bytes) : Option α :=
  match read b with
  | some (a, []) => some a
  | _ => none

/-- A number of items, one after the other. -/
def readMany? (read : Bytes → Option (α × Bytes)) : (count : Nat) → Bytes → Option (List α × Bytes)
  | 0, b => some ([], b)
  | count + 1, b => do
    let (x, b) ← read b
    let (xs, b) ← readMany? read count b
    some (x :: xs, b)

/-- The items before a stop, which is left out. There are fewer of them than `limit`. -/
def readUntilStop? (read : Bytes → Option (α × Bytes)) : (limit : Nat) → Bytes →
    Option (List α × Bytes)
  | 0, _ => none
  | limit + 1, b =>
    if b.head? = some stop then some ([], b.tail)
    else do
      let (x, b) ← read b
      let (xs, b) ← readUntilStop? read limit b
      some (x :: xs, b)

end Mandate.Cbor

import Mandate.Cbor.Head

/-!
# Passing over items

What is of no interest need not be linked data, only well formed: tags may be any, texts need not be in
UTF-8, the pieces of a byte string or text may be items of any kind, and there may be floats of 16 bits.
-/

namespace Mandate.Cbor

/-- The number of bytes, items or entries in an item; none if there is a stop after them. -/
def readSize? (k : Kind) (b : Bytes) : Option (Option Nat × Bytes) :=
  if b.head? = some k.unsized then some (none, b.tail)
  else do
    let (size, b) ← readArgument? k b
    some (some size, b)

/-- How many bytes follow the first one of an item of the last kind: a truth value, null, a value that is
not defined, or a float. -/
def simpleWidth? (first : UInt8) : Option Nat :=
  if first ∈ [0xf4, 0xf5, 0xf6, 0xf7] then some 0
  else if first = 0xf9 then some 2
  else if first = 0xfa then some 4
  else if first = 0xfb then some 8
  else none

/-- Passes over something twice, as over the two items of an entry. -/
def skipTwice? (skip : Bytes → Option (Unit × Bytes)) (b : Bytes) : Option (Unit × Bytes) := do
  let (_, b) ← skip b
  skip b

/-- Passes over an item. Each item is a level, and those inside it are further in. -/
def skip? : (depth : Nat) → Bytes → Option (Unit × Bytes)
  | 0, _ => none
  | depth + 1, b => do
    let first ← b.head?
    let kind := Kind.ofByte first
    let inner := if kind = .map then skipTwice? (skip? depth) else skip? depth
    match kind with
    | .natural | .negative =>
      let (_, b) ← readArgument? kind b
      some ((), b)
    | .bytes | .text | .array | .map =>
      match ← readSize? kind b with
      | (none, b) =>
        let (_, b) ← readUntilStop? inner b.length b
        some ((), b)
      | (some size, b) =>
        if kind = .bytes ∨ kind = .text then
          let (_, b) ← Bytes.take? size b
          some ((), b)
        else
          let (_, b) ← readMany? inner size b
          some ((), b)
    | .tag =>
      let (_, b) ← readArgument? kind b
      inner b
    | .simple =>
      let (_, b) ← Bytes.take? (← simpleWidth? first) b.tail
      some ((), b)

end Mandate.Cbor

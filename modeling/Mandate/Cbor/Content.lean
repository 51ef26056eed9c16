import Mandate.Cbor.Head

/-!
# Byte strings and texts in binary form

Their content stands in one piece, with its length in front, or in several up to a stop. Pieces may be
divided again, and only a text as a whole has to be in UTF-8.
-/

namespace Mandate.Cbor

def encodeString? (s : String) : Option Bytes := do
  let b := Bytes.ofString s
  some ((← head? .text b.length) ++ b)

def encodeBytes? (b : Bytes) : Option Bytes := do
  some ((← head? .bytes b.length) ++ b)

/-- Content in one piece. -/
def readWhole? (k : Kind) (b : Bytes) : Option (Bytes × Bytes) := do
  let (length, b) ← readArgument? k b
  Bytes.take? length b

/-- Content in one piece or several, divided at most `depth` times over. -/
def readContent? (k : Kind) : (depth : Nat) → Bytes → Option (Bytes × Bytes)
  | 0, b => readWhole? k b
  | depth + 1, b =>
    if b.head? = some k.unsized then do
      let (pieces, b) ← readUntilStop? (readContent? k depth) b.length b.tail
      some (pieces.flatten, b)
    else readWhole? k b

def readBytes? (depth : Nat) (b : Bytes) : Option (Bytes × Bytes) := readContent? .bytes depth b

def readText? (depth : Nat) (b : Bytes) : Option (String × Bytes) := do
  let (content, b) ← readContent? .text depth b
  some (← Bytes.toString? content, b)

end Mandate.Cbor

import Mandate.Cbor.Content
import Mandate.Cid.Wire
import Mandate.Ipld

/-!
# Linked data in binary form

Every value has one written form: numbers and lengths as short as possible, floats with 64 bits, and the
entries of a map by the length of their keys and then by their bytes. Integers beyond 64 bits and floats
that are not finite have none.
-/

namespace Mandate.Cbor

/-- A key of a map, in the order of the written form. -/
structure Key where
  text : String
  deriving DecidableEq

namespace Key

/-- The length, then the bytes. -/
def sortKey (k : Key) : List Nat :=
  let b := Bytes.ofString k.text
  b.length :: b.map (·.toNat)

instance : LT Key := ⟨fun a b => a.sortKey < b.sortKey⟩

instance : DecidableLT Key := fun a b => inferInstanceAs (Decidable (a.sortKey < b.sortKey))

end Key

def encodeInteger? (n : Int) : Option Bytes :=
  if 0 ≤ n then head? .natural n.toNat else head? .negative (-1 - n).toNat

def encodeLink? (c : Cid) : Option Bytes := do
  some ((← head? .tag linkTag) ++ (← encodeBytes? (0 :: c.toBytes)))

/-- The entries of a map, given their values as written, in the order of the keys. -/
def encodeEntries? (entries : List (Key × Bytes)) : Option Bytes := do
  let entries ← (Table.ofList entries).mapM fun (k, value) => do
    some ((← encodeString? k.text) ++ value)
  some ((← head? .map entries.length) ++ entries.flatten)

mutual

def encode? : Ipld → Option Bytes
  | .null => some [0xf6]
  | .bool b => some [if b then 0xf5 else 0xf4]
  | .integer n => encodeInteger? n
  | .float x => if x.isFinite then some (0xfb :: Bytes.ofNat 8 x.bits.toNat) else none
  | .string s => encodeString? s
  | .bytes b => encodeBytes? b
  | .list items => do
    let encoded ← encodeItems? items
    some ((← head? .array encoded.length) ++ encoded.flatten)
  | .map entries => do encodeEntries? (← encodeValues? entries)
  | .link c => encodeLink? c

def encodeItems? : List Ipld → Option (List Bytes)
  | [] => some []
  | v :: vs => do some ((← encode? v) :: (← encodeItems? vs))

def encodeValues? : List (String × Ipld) → Option (List (Key × Bytes))
  | [] => some []
  | (k, v) :: rest => do some ((⟨k⟩, ← encode? v) :: (← encodeValues? rest))

end

end Mandate.Cbor

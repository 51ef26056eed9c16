import Mandate.Cbor.Value

/-!
# Reading linked data from binary form

A value stands where its kind says, with its length in front; only the keys of a map and the bytes of a
link may be in pieces. Tags other than that of links, floats of 16 bits and what is not defined are
refused. A value is a level of its own, and an array or map is another.
-/

namespace Mandate.Cbor

/-- The identifier in a link: a zero byte stands before its bytes. What follows the tag must be of the kind
of byte strings, not only pass for one. -/
def readLink? (depth : Nat) (b : Bytes) : Option (Cid × Bytes) := do
  let (tag, b) ← readArgument? .tag b
  let kind := Kind.ofByte (← b.head?)
  let (content, b) ← readBytes? depth b
  match content with
  | 0 :: x :: more =>
    if tag = linkTag ∧ kind = .bytes then some (← Cid.ofBytes? (x :: more), b) else none
  | _ => none

/-- A truth value, null or a float of 32 or 64 bits. -/
def readSimple? : Bytes → Option (Ipld × Bytes)
  | 0xf4 :: rest => some (.bool false, rest)
  | 0xf5 :: rest => some (.bool true, rest)
  | 0xf6 :: rest => some (.null, rest)
  | 0xfa :: rest => do
    let (bits, rest) ← Bytes.take? 4 rest
    some (.float (Binary64.ofBits32 bits.toNat), rest)
  | 0xfb :: rest => do
    let (bits, rest) ← Bytes.take? 8 rest
    some (.float ⟨UInt64.ofNat bits.toNat⟩, rest)
  | _ => none

/-- A value that holds no others. -/
def readScalar? (depth : Nat) (b : Bytes) : Option (Ipld × Bytes) := do
  match Kind.ofByte (← b.head?) with
  | .natural =>
    let (n, b) ← readArgument? .natural b
    some (.integer n, b)
  | .negative =>
    let (n, b) ← readArgument? .negative b
    some (.integer (-1 - n), b)
  | .bytes =>
    let (content, b) ← readWhole? .bytes b
    some (.bytes content, b)
  | .text =>
    let (content, b) ← readWhole? .text b
    some (.string (← Bytes.toString? content), b)
  | .tag =>
    let (cid, b) ← readLink? depth b
    some (.link cid, b)
  | .simple => readSimple? b
  | .array | .map => none

/-- The entries of a map, given how the value of each key is read. -/
def readEntries? (read : String → Bytes → Option (α × Bytes)) (depth : Nat) (b : Bytes) :
    Option (List (String × α) × Bytes) := do
  let entry := fun b => do
    let (key, b) ← readText? depth b
    let (value, b) ← read key b
    some ((key, value), b)
  let (size, b) ← readArgument? .map b
  readMany? entry size b

/-- A value whose arrays and maps hold values in turn. In a map, keys stand once each. -/
def readValue? : (depth : Nat) → Bytes → Option (Ipld × Bytes)
  | 0, _ => none
  | 1, b => readScalar? 0 b
  | depth + 2, b => do
    match Kind.ofByte (← b.head?) with
    | .array =>
      let (size, b) ← readArgument? .array b
      let (items, b) ← readMany? (readValue? depth) size b
      some (.list items, b)
    | .map =>
      let (entries, b) ← readEntries? (fun _ => readValue? depth) depth b
      if (entries.map (·.1)).Nodup then some (.map (Table.ofList entries), b) else none
    | _ => readScalar? (depth + 1) b

/-- Caveats or a fact: of several entries with one key the last counts. -/
def readFields? : (depth : Nat) → Bytes → Option (Fields × Bytes)
  | 0, _ => none
  | depth + 1, b => do
    let (entries, b) ← readEntries? (fun _ => readValue? depth) depth b
    some (Table.ofList entries, b)

/-- An array, given how its items are read. -/
def readList? (read : Nat → Bytes → Option (α × Bytes)) : (depth : Nat) → Bytes →
    Option (List α × Bytes)
  | 0, _ => none
  | depth + 1, b => do
    let (size, b) ← readArgument? .array b
    readMany? (read depth) size b

/-- A value, or null for none. A value that may be null is a level further in. -/
def readOptional? (read : Nat → Bytes → Option (α × Bytes)) (depth : Nat) (b : Bytes) :
    Option (Option α × Bytes) :=
  match b, depth with
  | 0xf6 :: rest, _ => some (none, rest)
  | _, 0 => none
  | _, depth + 1 => (read depth b).map fun (a, b) => (some a, b)

/-- The value under a name that must stand exactly once. -/
def one? : List α → Option α
  | [a] => some a
  | _ => none

/-- The value under a name that stands at most once, or the default. -/
def atMostOne? (default : α) : List α → Option α
  | [] => some default
  | [a] => some a
  | _ => none

end Mandate.Cbor

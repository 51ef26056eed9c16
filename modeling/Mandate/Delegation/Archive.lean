import Mandate.Delegation

/-!
# Archives

An archive holds the encodings of a delegation and of everything attached to it, each once and after all
that it cites, so that reading it in order finds every attachment again.
-/

namespace Mandate.Delegation

mutual

/-- Adds the encodings that are not among the `seen` addresses to those collected. -/
def collect : Delegation → List Cid × List Bytes → List Cid × List Bytes
  | ⟨_, _, bytes, cid, blocks⟩, (seen, collected) =>
    if cid ∈ seen then (seen, collected)
    else
      let (seen, collected) := collectAll blocks (cid :: seen, collected)
      (seen, collected ++ [bytes])

def collectAll : List (Cid × Delegation) → List Cid × List Bytes → List Cid × List Bytes
  | [], state => state
  | (_, d) :: rest, state => collectAll rest (collect d state)

end

/-- The encodings of a delegation and of what is attached to it, its own last. -/
def encodings (d : Delegation) : List Bytes := (collect d ([], [])).2

def toArchive (d : Delegation) : Except Error Bytes :=
  match Cbor.encode? (.list (d.encodings.map .bytes)) with
  | some archive => .ok archive
  | none => .error .encode

/-- Reads encodings in order, attaching what was read before. -/
def readBlocks (known : Table Cid Delegation) (root : Option Delegation) :
    List Bytes → Except Error (Option Delegation)
  | [] => .ok root
  | block :: rest =>
    match ofBytes block with
    | .error e => .error e
    | .ok bare =>
      let d := (bare.payload.proofs.filterMap fun c => known.lookup c).foldl attach bare
      readBlocks (Table.insert d.cid d known) (some d) rest

/-- The delegation that an archive ends with. -/
def ofArchive (archive : Bytes) : Except Error Delegation :=
  match Cbor.readAll? (Cbor.readList? Cbor.readBytes? Cbor.nestingLimit) archive with
  | none => .error .decode
  | some blocks =>
    match readBlocks [] none blocks with
    | .error e => .error e
    | .ok none => .error .emptyArchive
    | .ok (some root) => .ok root

end Mandate.Delegation

/-!
# Tables

A table is an association list in increasing order of its keys, each key standing once. Tables built by
insertion keep that order, so equal tables are equal lists.
-/

namespace Mandate

abbrev Table (κ α : Type) := List (κ × α)

namespace Table

variable {κ α : Type} [LT κ] [DecidableLT κ]

/-- The table with a value at a key, in place of an earlier one. -/
def insert (k : κ) (v : α) : Table κ α → Table κ α
  | [] => [(k, v)]
  | (k', v') :: rest =>
    if k < k' then (k, v) :: (k', v') :: rest
    else if k' < k then (k', v') :: insert k v rest
    else (k, v) :: rest

/-- The table of some entries; of several with one key the last counts. -/
def ofList (entries : List (κ × α)) : Table κ α :=
  entries.foldl (fun t (k, v) => insert k v t) []

/-- The entries of the second table added to the first. -/
def override (t entries : Table κ α) : Table κ α :=
  entries.foldl (fun t (k, v) => insert k v t) t

def keys (t : Table κ α) : List κ := t.map (·.1)

def values (t : Table κ α) : List α := t.map (·.2)

/-- Whether the keys increase. -/
def Sorted (t : Table κ α) : Prop := t.Pairwise fun a b => a.1 < b.1

end Table

end Mandate

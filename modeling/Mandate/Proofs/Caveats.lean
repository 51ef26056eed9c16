import Mandate.Proofs.Language

/-!
# Caveats are read as the map of them

There are two ways to read caveats with a schema. A record reads its fields from them directly, and any other
schema reads the map of them as a value. Both come to the same: reading keeps the type of a value, except that an
integer may become a float, so whatever is read of a map is a map again.
-/

namespace Mandate

/-- Whether a value may be read as another one: it keeps its type, or is an integer that becomes a float. -/
def Ipld.MayBecome (v w : Ipld) : Prop :=
  w.typeName = v.typeName ∨ v.typeName = "integer" ∧ w.typeName = "float"

namespace Schema

section

variable {v : Ipld} {members : List Schema}

theorem mayBecome_refl : v.MayBecome v := .inl rfl

theorem mayBecome_union (h : ∀ s ∈ members, v.MayBecome (s.reading v)) :
    v.MayBecome ((union members).reading v) := by
  rw [reading_union]
  cases found : members.find? fun s => accepts s v with
  | none => exact mayBecome_refl
  | some s => exact h s (List.mem_of_find?_eq_some found)

theorem mayBecome_intersection (h : ∀ s ∈ members, v.MayBecome (s.reading v)) :
    v.MayBecome ((intersection members).reading v) := by
  rw [reading]
  split
  case h_1 s last => exact h s (List.mem_of_getLast? last)
  case h_2 => exact mayBecome_refl

/-- Reading keeps the type of a value, except that an integer may become a float. -/
theorem mayBecome_reading (s : Schema) (v : Ipld) : v.MayBecome (s.reading v) := by
  -- The recursion only follows the parts that read the whole value: whatever is read of its elements, a list
  -- stays a list and a map stays a map.
  cases s with
  | float =>
      cases v with
      | integer n => rw [reading]; exact .inr ⟨rfl, rfl⟩
      | _ => simp only [reading]; exact mayBecome_refl
  | array item | tuple members | dictionary value | struct fields =>
      cases v <;> simp only [reading] <;> exact .inl rfl
  | union members => exact mayBecome_union fun s _ => mayBecome_reading s v
  | intersection members => exact mayBecome_intersection fun s _ => mayBecome_reading s v
  | optional inner => rw [reading]; exact mayBecome_reading inner v
  | refined inner condition => rw [reading]; exact mayBecome_reading inner v
  | _ => simp only [reading]; exact mayBecome_refl
termination_by sizeOf s

end

section

variable {s : Schema} {f : Fields}

/-- What is read of a map is a map. -/
theorem exists_of_readValue_map {w : Ipld} (read : readValue s (.map f) = .ok w) : ∃ g, w = .map g := by
  obtain ⟨_, rfl⟩ := readValue_eq_ok_iff.mp read
  have kept := mayBecome_reading s (.map f)
  cases h : s.reading (.map f) with
  | map g => exact ⟨g, rfl⟩
  | _ => simp [h, Ipld.MayBecome, Ipld.typeName] at kept

/-- Reading the map of some caveats is reading the caveats. -/
theorem readValue_map (s : Schema) (f : Fields) :
    readValue s (.map f) = (readFields s f).map .map := by
  unfold readFields
  split
  case h_1 fields => rw [readValue]
  case h_2 =>
    cases read : readValue s (.map f) with
    | error e => rfl
    | ok w =>
        obtain ⟨g, rfl⟩ := exists_of_readValue_map read
        rfl

/-- Caveats and the map of them are read alike, and refused for the same reason. What is read of the map is
always a map, so there is never another kind of value to refuse afterwards. -/
theorem readFields_iff_readValue (s : Schema) (f : Fields) :
    (∀ g, readFields s f = .ok g ↔ readValue s (.map f) = .ok (.map g)) ∧
    (∀ e, readFields s f = .error e ↔ readValue s (.map f) = .error e) ∧
    ∀ w, readValue s (.map f) = .ok w → ∃ g, w = .map g ∧ readFields s f = .ok g := by
  rw [readValue_map]
  cases readFields s f with
  | error e => simp [Except.map]
  | ok g => simp [Except.map, eq_comm]

/-- The record in the union refuses these caveats, and the dictionary after it reads them as floats. -/
theorem readFields_iff_readValue_union :
    let s := optional (intersection [dictionary unknown,
      union [struct [("size", integer)], dictionary float]])
    let read := [("limit", Ipld.float (.ofInt 3)), ("quota", .float (.ofInt 5))]
    readValue s (.map [("limit", .integer 3), ("quota", .integer 5)]) = .ok (.map read) ∧
      readFields s [("limit", .integer 3), ("quota", .integer 5)] = .ok read := by
  intro s read
  have found : readValue s (.map [("limit", .integer 3), ("quota", .integer 5)]) = .ok (.map read) := by rfl
  exact ⟨found, ((readFields_iff_readValue s _).1 _).mpr found⟩

end

end Schema

end Mandate

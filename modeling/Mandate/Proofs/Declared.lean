import Mandate.Proofs.Caveats

/-!
# Only declared fields are read

A schema that says of every map which fields it may have lets nothing else through. What such a schema reads
has no keys, at any depth, but the names of fields that are declared somewhere in the schema. What takes part
of a value as it is cannot do that: a schema for all values, a dictionary, the literal of a map, and an
intersection of nothing.
-/

namespace Mandate

namespace Ipld

theorem sizeOf_lt_map {e : String × Ipld} {es : List (String × Ipld)} (h : e ∈ es) :
    sizeOf e.2 < sizeOf (map es) := by
  have smaller := List.sizeOf_lt_of_mem h
  obtain ⟨key, v⟩ := e
  simp only [Prod.mk.sizeOf_spec, map.sizeOf_spec] at smaller ⊢
  omega

/-- The keys of the maps in a value, at any depth. -/
def keys : Ipld → List String
  | list xs => xs.flatMap fun x => keys x
  | map es => es.flatMap fun e => e.1 :: keys e.2
  | _ => []
termination_by v => sizeOf v
decreasing_by
  · decreasing_tactic
  · exact sizeOf_lt_map (by assumption)

/-- Whether there is no map in a value. -/
def Mapless : Ipld → Prop
  | list xs => ∀ x ∈ xs, Mapless x
  | map _ => False
  | _ => True

mutual

/-- What equals a value without maps has no keys. -/
theorem keys_of_equal : (x y : Ipld) → equal x y = true → x.Mapless → y.keys = []
  | list xs, y, same, mapless => by
      cases y <;> simp only [equal, Bool.false_eq_true] at same
      rw [Mapless] at mapless
      rw [keys]
      exact keys_of_equalItems xs _ same mapless
  | map _, _, _, mapless => by simp [Mapless] at mapless
  | null, y, same, _ | bool _, y, same, _ | integer _, y, same, _ | float _, y, same, _
  | string _, y, same, _ | bytes _, y, same, _ | link _, y, same, _ => by
      cases y <;> simp [equal, keys] at same ⊢

theorem keys_of_equalItems : (xs ys : List Ipld) → equalItems xs ys = true → (∀ x ∈ xs, x.Mapless) →
    (ys.flatMap fun y => y.keys) = []
  | [], ys, same, _ => by cases ys <;> simp [equalItems] at same ⊢
  | x :: xs, ys, same, mapless => by
      cases ys with
      | nil => rfl
      | cons y ys =>
          simp only [equalItems, Bool.and_eq_true] at same
          obtain ⟨first, others⟩ := List.forall_mem_cons.mp mapless
          rw [List.flatMap_cons, keys_of_equal x y same.1 first, keys_of_equalItems xs ys same.2 others]
          rfl

end

end Ipld

namespace Schema

/-- The names of the fields that are declared in a schema, at any depth. -/
def declared : Schema → List String
  | array inner => declared inner
  | dictionary inner => declared inner
  | optional inner => declared inner
  | refined inner _ => declared inner
  | tuple members => members.flatMap fun s => declared s
  | union members => members.flatMap fun s => declared s
  | intersection members => members.flatMap fun s => declared s
  | struct fields => fields.flatMap fun f => f.1 :: declared f.2
  | _ => []
termination_by s => sizeOf s
decreasing_by
  all_goals try decreasing_tactic
  exact sizeOf_lt_struct (by assumption)

/-- Whether a schema says of every map which fields it may have. -/
def IsClosed : Schema → Prop
  | unknown => False
  | dictionary _ => False
  | literal value => value.Mapless
  | intersection members => members ≠ [] ∧ ∀ s ∈ members, IsClosed s
  | tuple members => ∀ s ∈ members, IsClosed s
  | union members => ∀ s ∈ members, IsClosed s
  | struct fields => ∀ f ∈ fields, IsClosed f.2
  | array inner => IsClosed inner
  | optional inner => IsClosed inner
  | refined inner _ => IsClosed inner
  | _ => True
termination_by s => sizeOf s
decreasing_by
  all_goals try decreasing_tactic
  exact sizeOf_lt_struct (by assumption)

section

variable {names : List String} {vs : List Ipld} {es f g : Fields} {s : Schema}

attribute [local simp] Ipld.keys declared IsClosed

theorem flatMap_subset_iff {α β : Type} {f : α → List β} {as : List α} {bs : List β} :
    as.flatMap f ⊆ bs ↔ ∀ a ∈ as, f a ⊆ bs := by
  simp only [List.subset_def, List.mem_flatMap]
  exact ⟨fun h a mem b found => h ⟨a, mem, found⟩, fun h b ⟨a, mem, found⟩ => h a mem found⟩

theorem subset_flatMap {α β : Type} {f : α → List β} {as : List α} {a : α} (mem : a ∈ as) :
    f a ⊆ as.flatMap f :=
  fun _ found => List.mem_flatMap.mpr ⟨a, mem, found⟩

theorem keys_list_subset_iff : (Ipld.list vs).keys ⊆ names ↔ ∀ v ∈ vs, v.keys ⊆ names := by
  rw [Ipld.keys, flatMap_subset_iff]

theorem keys_map_subset_iff :
    (Ipld.map es).keys ⊆ names ↔ ∀ e ∈ es, e.1 ∈ names ∧ e.2.keys ⊆ names := by
  simp only [Ipld.keys, flatMap_subset_iff, List.cons_subset]

/-- What is read with a schema has no keys but those that the schema declares. -/
def Confined (s : Schema) : Prop := ∀ v, s.accepts v = true → (s.reading v).keys ⊆ s.declared

theorem confined_literal {expected : Ipld} (mapless : expected.Mapless) : (literal expected).Confined := by
  intro v h
  rw [accepts] at h
  have none := Ipld.keys_of_equal expected v h mapless
  simp [reading, none]

theorem Confined.array {item : Schema} (h : item.Confined) : (array item).Confined := by
  intro v accepted
  cases v <;> simp only [accepts, Bool.false_eq_true, List.all_eq_true] at accepted
  rw [reading, declared, keys_list_subset_iff, List.forall_mem_map]
  exact fun v mem => h v (accepted v mem)

theorem Confined.tuple {members : List Schema} (h : ∀ s ∈ members, s.Confined) :
    (tuple members).Confined := by
  intro v accepted
  cases v <;> simp only [accepts_tuple, accepts, Bool.false_eq_true, Bool.and_eq_true,
    List.all_eq_true] at accepted
  rw [reading_tuple, declared, keys_list_subset_iff, List.forall_mem_map]
  intro e mem
  have member := (List.of_mem_zip mem).1
  exact List.Subset.trans (h e.1 member e.2 (accepted.2 e mem)) (subset_flatMap member)

/-- Of a record, the declared fields are read, each of them with its own schema. -/
theorem Confined.struct {fields : List (String × Schema)} (h : ∀ f ∈ fields, f.2.Confined) :
    (struct fields).Confined := by
  intro v accepted
  cases v <;> simp only [accepts_struct, accepts, Bool.false_eq_true, List.all_eq_true] at accepted
  rw [reading, declared, keys_map_subset_iff]
  intro e mem
  obtain ⟨f, field, read⟩ := List.mem_filterMap.mp mem
  obtain ⟨v, found, rfl⟩ := Option.map_eq_some_iff.mp read
  have fit := accepted f field
  rw [found, fits] at fit
  have among := subset_flatMap (f := fun f : String × Schema => f.1 :: declared f.2) field
  rw [List.cons_subset] at among
  exact ⟨among.1, List.Subset.trans (h f field v fit) among.2⟩

theorem Confined.union {members : List Schema} (h : ∀ s ∈ members, s.Confined) :
    (union members).Confined := by
  intro v accepted
  rw [accepts_union, List.any_eq_true] at accepted
  rw [reading_union, declared]
  cases found : members.find? fun s => accepts s v with
  | none =>
      obtain ⟨s, member, accepted⟩ := accepted
      exact absurd accepted (List.find?_eq_none.mp found s member)
  | some s =>
      have member := List.mem_of_find?_eq_some found
      have accepted : accepts s v = true := List.find?_some (p := fun s => accepts s v) found
      exact List.Subset.trans (h s member v accepted) (subset_flatMap member)

/-- The last member is heard. Without any member the value would pass as it is. -/
theorem Confined.intersection {members : List Schema} (nonempty : members ≠ [])
    (h : ∀ s ∈ members, s.Confined) : (intersection members).Confined := by
  intro v accepted
  rw [accepts_intersection, List.all_eq_true] at accepted
  rw [reading, declared]
  split
  case h_1 s last =>
    have member := List.mem_of_getLast? last
    exact List.Subset.trans (h s member v (accepted s member)) (subset_flatMap member)
  case h_2 last => exact absurd (List.getLast?_eq_none_iff.mp last) nonempty

theorem Confined.optional {inner : Schema} (h : inner.Confined) : (optional inner).Confined := by
  intro v accepted
  rw [accepts] at accepted
  rw [reading, declared]
  exact h v accepted

theorem Confined.refined {inner : Schema} {condition : Refinement} (h : inner.Confined) :
    (refined inner condition).Confined := by
  intro v accepted
  rw [accepts, Bool.and_eq_true] at accepted
  rw [reading, declared]
  exact h v accepted.1

theorem confined_of_isClosed (s : Schema) (closed : s.IsClosed) : s.Confined := by
  cases s with
  | unknown | dictionary _ => simp at closed
  | null | boolean | integer | float | string | bytes | link =>
      -- what is read is the value, or a number for a number
      intro v accepted
      cases v <;> simp [accepts] at accepted <;> simp [reading]
  | literal expected =>
      rw [IsClosed] at closed
      exact confined_literal closed
  | array item =>
      rw [IsClosed] at closed
      exact (confined_of_isClosed item closed).array
  | tuple members =>
      rw [IsClosed] at closed
      exact .tuple fun s mem => confined_of_isClosed s (closed s mem)
  | struct fields =>
      rw [IsClosed] at closed
      exact .struct fun f mem => confined_of_isClosed f.2 (closed f mem)
  | union members =>
      rw [IsClosed] at closed
      exact .union fun s mem => confined_of_isClosed s (closed s mem)
  | intersection members =>
      rw [IsClosed] at closed
      exact .intersection closed.1 fun s mem => confined_of_isClosed s (closed.2 s mem)
  | optional inner =>
      rw [IsClosed] at closed
      exact (confined_of_isClosed inner closed).optional
  | refined inner condition =>
      rw [IsClosed] at closed
      exact (confined_of_isClosed inner closed).refined
termination_by sizeOf s
decreasing_by
  all_goals try decreasing_tactic
  subst_vars
  exact sizeOf_lt_struct (by assumption)

/-- Caveats are read as the map of them is. -/
theorem readValue_of_readFields (h : readFields s f = .ok g) : readValue s (.map f) = .ok (.map g) := by
  rw [readValue_map, h]
  rfl

/-- What is read with a closed schema, be it a value or caveats, has no key at any depth but the names of
fields that the schema declares. -/
theorem keys_declared (s : Schema) (closed : s.IsClosed) :
    (∀ v w, readValue s v = .ok w → ∀ k ∈ w.keys, k ∈ s.declared) ∧
    ∀ f g, readFields s f = .ok g → ∀ k ∈ (Ipld.map g).keys, k ∈ s.declared := by
  have values : ∀ v w, readValue s v = .ok w → ∀ k ∈ w.keys, k ∈ s.declared := by
    intro v w read k mem
    obtain ⟨accepted, rfl⟩ := readValue_eq_ok_iff.mp read
    exact confined_of_isClosed s closed v accepted mem
  exact ⟨values, fun f g read => values _ _ (readValue_of_readFields read)⟩

/-- Neither the undeclared keys of the caveats nor what only an earlier member declares are read. -/
theorem keys_declared_nested :
    let s := intersection [struct [("size", integer)],
      struct [("meta", optional (struct [("tag", string)])), ("size", float)]]
    let read := [("meta", Ipld.map [("tag", .string "x")]), ("size", .float (.ofInt 3))]
    readFields s [("admin", .bool true), ("meta", .map [("sudo", .null), ("tag", .string "x")]),
        ("size", .integer 3)] = .ok read ∧
      (∀ k ∈ (Ipld.map read).keys, k ∈ s.declared) ∧ "admin" ∉ s.declared := by
  intro s read
  have closed : s.IsClosed := by simp [s]
  have names : s.declared = ["size", "meta", "tag", "size"] := by simp [s]
  have accepted : readFields s [("admin", .bool true), ("meta", .map [("sudo", .null), ("tag", .string "x")]),
      ("size", .integer 3)] = .ok read := by rfl
  exact ⟨accepted, (keys_declared s closed).2 _ _ accepted, by simp [names]⟩

end

end Schema

end Mandate

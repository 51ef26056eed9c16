import Mandate.Schema.Read
import Mandate.Proofs.Table

/-!
# The language of a schema

A schema has a language, the values that it accepts. Of each value in it something is read, and against each
other value there is something to be said. All three are defined here by recursion on the schema, without
the order in which a reader goes through the parts of a value, and the reader does what they say.
-/

namespace Mandate.Schema

namespace Refinement

/-- Whether a value meets a refinement. Numbers of both kinds are compared as floating-point numbers. -/
def holds : Refinement → Ipld → Bool
  | greaterThan bound, v => (number? v).any bound.less
  | lessThan bound, v => (number? v).any fun x => x.less bound
  | startsWith beginning, .string s => Text.startsWith s beginning
  | endsWith ending, .string s => Text.endsWith s ending
  | _, _ => false

/-- What is said of a value that is not in the given relation to a number. -/
def outOfBounds (v : Ipld) (relation : String) (bound : Binary64) : Error :=
  match number? v with
  | some x => .message (x.toText ++ relation ++ bound.toText)
  | none => .message ("Expected a number instead got " ++ v.typeName)

/-- What is said of a value that does not meet a refinement. -/
def violation : Refinement → Ipld → Error
  | greaterThan bound, v => outOfBounds v " is not greater than " bound
  | lessThan bound, v => outOfBounds v " is not less than " bound
  | startsWith beginning, v =>
    .message ("Expected a string with \"" ++ beginning ++ "\" prefix instead got " ++ v.brief)
  | endsWith ending, v =>
    .message ("Expected a string ending with \"" ++ ending ++ "\" instead got " ++ v.brief)

theorem check_eq (c : Refinement) (v : Ipld) :
    c.check v = if c.holds v then .ok () else .error (c.violation v) := by
  cases c with
  | greaterThan bound | lessThan bound =>
      simp only [check, holds, violation, outOfBounds]
      split <;> simp [*]
  | startsWith part | endsWith part => cases v <;> rfl

end Refinement

/-! ## Reading part by part -/

/-- Going through a list up to the first failure either maps the whole list or ends with the first element
at fault. -/
theorem mapM_eq_ite {α β ε : Type} {f : α → Except ε β} {p : α → Bool} {g : α → β} {fault : α → ε}
    {as : List α} (each : ∀ a ∈ as, f a = if p a then .ok (g a) else .error (fault a)) (other : ε) :
    as.mapM f = if as.all p then .ok (as.map g)
      else .error (match as.find? fun a => !p a with
        | some a => fault a
        | none => other) := by
  induction as with
  | nil => rfl
  | cons a rest ih =>
      have first := each a (List.mem_cons_self ..)
      have others := ih fun b mem => each b (List.mem_cons_of_mem _ mem)
      rw [List.mapM_cons, first, others, List.find?_cons, List.all_cons]
      cases p a with
      | false => rfl
      | true => cases rest.all p <;> rfl

theorem map_ite {α β ε : Type} (f : α → β) (b : Bool) (a : α) (e : ε) :
    (if b then .ok a else .error e : Except ε α).map f = if b then .ok (f a) else .error e := by
  cases b <;> rfl

theorem all_zipIdx {α : Type} (p : α → Bool) (as : List α) :
    as.zipIdx.all (fun e => p e.1) = as.all p := by
  conv => rhs; rw [← List.zipIdx_map_fst 0 as, List.all_map]
  rfl

theorem map_zipIdx {α β : Type} (f : α → β) (as : List α) :
    as.zipIdx.map (fun e => f e.1) = as.map f := by
  conv => rhs; rw [← List.zipIdx_map_fst 0 as, List.map_map]
  rfl

section

variable {read : Ipld → Except Error Ipld} {vs : List Ipld} {es : Fields} {members : List Schema}
  {fields : List (String × Schema)} {i : Nat}

theorem readItems_eq_mapM :
    readItems read i vs = (vs.zipIdx i).mapM fun e => (read e.1).mapError (Error.element e.2) := by
  induction vs generalizing i with
  | nil => rfl
  | cons v vs ih =>
      rw [readItems, ih, List.zipIdx_cons, List.mapM_cons]
      cases read v <;> rfl

theorem readEntries_eq_mapM :
    readEntries read es = es.mapM fun e => (read e.2).mapError (Error.field e.1) |>.map (e.1, ·) := by
  induction es with
  | nil => rfl
  | cons e es ih =>
      rw [readEntries, ih, List.mapM_cons]
      cases read e.2 <;> rfl

theorem readMembers_eq_mapM : readMembers members i vs =
    ((members.zip vs).zipIdx i).mapM fun e => (readValue e.1.1 e.1.2).mapError (Error.element e.2) := by
  induction members generalizing vs i with
  | nil => cases vs <;> rfl
  | cons s members ih =>
      cases vs with
      | nil => rfl
      | cons v vs =>
          rw [readMembers, ih, List.zip_cons_cons, List.zipIdx_cons, List.mapM_cons]
          cases readValue s v <;> rfl

/-- What is read of a declared field, if it is there. -/
def readField (es : Fields) (f : String × Schema) : Except Error (Option (String × Ipld)) :=
  match es.lookup f.1 with
  | some v => (readValue f.2 v).mapError (.field f.1) |>.map fun w => some (f.1, w)
  | none => if f.2.isOptional then .ok none else .error (.field f.1 (.type f.2.toText "undefined"))

theorem readStruct_eq_mapM :
    readStruct fields es = (fields.mapM (readField es)).map fun found => found.filterMap id := by
  induction fields with
  | nil => rfl
  | cons f fields ih =>
      obtain ⟨name, s⟩ := f
      rw [readStruct, ih, List.mapM_cons, readField]
      cases es.lookup name with
      | none => cases s.isOptional <;> cases fields.mapM (readField es) <;> rfl
      | some v =>
          dsimp only
          cases readValue s v <;> cases fields.mapM (readField es) <;> rfl

end

/-! ## The language of a schema -/

section

variable {f : String × Schema} {fields : List (String × Schema)}

theorem sizeOf_lt_struct (h : f ∈ fields) : sizeOf f.2 < sizeOf (struct fields) := by
  have smaller := List.sizeOf_lt_of_mem h
  obtain ⟨name, s⟩ := f
  simp only [Prod.mk.sizeOf_spec, struct.sizeOf_spec] at smaller ⊢
  omega

end

mutual

/-- Whether a value is in the language of a schema. -/
def accepts : Schema → Ipld → Bool
  | unknown, _ => true
  | null, .null => true
  | boolean, .bool _ => true
  | integer, .integer _ => true
  | float, .float _ => true
  | float, .integer _ => true
  | string, .string _ => true
  | bytes, .bytes _ => true
  | link, .link _ => true
  | literal expected, v => expected == v
  | array item, .list vs => vs.all fun v => accepts item v
  | tuple members, .list vs =>
    members.length == vs.length && (members.attach.zip vs).all fun (s, v) => accepts s v
  | dictionary value, .map es => es.all fun e => accepts value e.2
  | struct fields, .map es =>
    fields.attach.all fun f =>
      match es.lookup f.1.1 with
      | some v => accepts f.1.2 v
      | none => f.1.2.isOptional
  | union members, v => members.attach.any fun s => accepts s v
  | intersection members, v => members.attach.all fun s => accepts s v
  | optional inner, v => accepts inner v
  | refined inner condition, v => accepts inner v && condition.holds (reading inner v)
  | _, _ => false
termination_by s => sizeOf s
decreasing_by
  -- a part that is only known by its membership is smaller than the whole
  all_goals try decreasing_tactic
  · have member := s.2
    decreasing_tactic
  · exact sizeOf_lt_struct f.2
  · have member := s.2
    decreasing_tactic
  · have member := s.2
    decreasing_tactic

/-- What is read of a value in the language of a schema. -/
def reading : Schema → Ipld → Ipld
  | float, .integer n => .float (.ofInt n)
  | array item, .list vs => .list (vs.map fun v => reading item v)
  | tuple members, .list vs => .list ((members.attach.zip vs).map fun (s, v) => reading s v)
  | dictionary value, .map es => .map (es.map fun e => (e.1, reading value e.2))
  | struct fields, .map es =>
    .map (fields.filterMap fun f => (es.lookup f.1).map fun v => (f.1, reading f.2 v))
  | union members, v =>
    match members.attach.find? fun (s : {s // s ∈ members}) => accepts s v with
    | some s => reading s v
    | none => v
  | intersection members, v =>
    match _last : members.getLast? with
    | some s => reading s v
    | none => v
  | optional inner, v => reading inner v
  | refined inner _, v => reading inner v
  | _, v => v
termination_by s => sizeOf s
decreasing_by
  all_goals try decreasing_tactic
  · have member := s.2
    decreasing_tactic
  · exact sizeOf_lt_struct ‹_›
  · have member := s.2
    decreasing_tactic
  · have member := s.2
    decreasing_tactic
  · have member := List.mem_of_getLast? _last
    decreasing_tactic

end

/-- Whether a field that is read with a schema may have a value, or be absent. -/
def fits (s : Schema) : Option Ipld → Bool
  | some v => accepts s v
  | none => s.isOptional

section

variable {v : Ipld} {vs : List Ipld} {es : List (String × Ipld)} {members : List Schema}
  {fields : List (String × Schema)}

theorem zip_eq_map_attach :
    members.zip vs = (members.attach.zip vs).map (Prod.map Subtype.val id) := by
  rw [← List.zip_map_left, List.attach_map_subtype_val]

theorem accepts_tuple : accepts (tuple members) (.list vs) =
    (members.length == vs.length && (members.zip vs).all fun e => accepts e.1 e.2) := by
  rw [accepts, zip_eq_map_attach, List.all_map]
  rfl

theorem accepts_struct :
    accepts (struct fields) (.map es) = fields.all fun f => fits f.2 (es.lookup f.1) := by
  have inside : fields.all (fun f => fits f.2 (es.lookup f.1)) =
      fields.attach.all fun f => fits f.1.2 (es.lookup f.1.1) := by
    conv => lhs; rw [← List.attach_map_subtype_val fields, List.all_map]
    rfl
  rw [accepts, inside]
  rfl

theorem accepts_union : accepts (union members) v = members.any fun s => accepts s v := by
  rw [accepts]
  simp

theorem accepts_intersection :
    accepts (intersection members) v = members.all fun s => accepts s v := by
  rw [accepts]
  simp

theorem reading_tuple :
    reading (tuple members) (.list vs) = .list ((members.zip vs).map fun e => reading e.1 e.2) := by
  rw [reading, zip_eq_map_attach, List.map_map]
  rfl

theorem reading_union : reading (union members) v =
    match members.find? fun s => accepts s v with
    | some s => reading s v
    | none => v := by
  have inside : members.find? (fun s => accepts s v) =
      (members.attach.find? fun s => accepts s.1 v).map Subtype.val := by
    conv => lhs; rw [← List.attach_map_subtype_val members, List.find?_map]
    rfl
  rw [reading, inside]
  cases List.find? (fun s : {s // s ∈ members} => accepts s.1 v) members.attach <;> rfl

end

/-- What is said of a value outside the language of a schema. -/
def violation : Schema → Ipld → Error
  | link, v => .message ("Expected link to be a CID instead of " ++ v.typeName)
  | literal expected, v => .literal expected.brief v.brief
  -- a list or a map of the right kind that is rejected has a part at fault, so there is always one to find
  | array item, .list vs =>
    match vs.zipIdx.find? fun e => !accepts item e.1 with
    | some (v, i) => .element i (violation item v)
    | none => mismatch (array item) (.list vs)
  | tuple members, .list vs =>
    if members.length = vs.length then
      match _found : (members.zip vs).zipIdx.find? fun e => !accepts e.1.1 e.1.2 with
      | some ((s, v), i) => .element i (violation s v)
      | none => mismatch (tuple members) (.list vs)
    else .message ("Expected array with " ++ toString members.length ++ " elements instead got " ++
      toString vs.length)
  | dictionary value, .map es =>
    match es.find? fun e => !accepts value e.2 with
    | some (key, v) => .field key (violation value v)
    | none => mismatch (dictionary value) (.map es)
  | struct fields, .map es =>
    match _found : fields.find? fun f => !fits f.2 (es.lookup f.1) with
    | some (name, s) =>
      .field name <|
        match es.lookup name with
        | some v => violation s v
        | none => .type s.toText "undefined"
    | none => mismatch (struct fields) (.map es)
  | union members, v => .union v.typeName (members.map fun s => violation s v)
  | intersection members, v =>
    .intersection ((members.filter fun s => !accepts s v).map fun s => violation s v)
  | optional inner, v => violation inner v
  | refined inner condition, v =>
    if accepts inner v then condition.violation (reading inner v) else violation inner v
  | s, v => mismatch s v
termination_by s => sizeOf s
decreasing_by
  all_goals try decreasing_tactic
  · have among := (List.mem_zipIdx (List.mem_of_find?_eq_some _found)).2.2
    have member := (List.of_mem_zip (among ▸ List.getElem_mem _)).1
    decreasing_tactic
  · exact sizeOf_lt_struct (List.mem_of_find?_eq_some _found)

/-- What a schema makes of a value. -/
def verdict (s : Schema) (v : Ipld) : Except Error Ipld :=
  if s.accepts v then .ok (s.reading v) else .error (s.violation v)

section

variable {members : List Schema}

/-- The first of some schemas that accepts a value reads it. -/
theorem readFirst_eq {v : Ipld} (each : ∀ s ∈ members, readValue s v = s.verdict v) :
    readFirst members v = match members.find? fun s => accepts s v with
      | some s => .ok (reading s v)
      | none => .error (members.map fun s => violation s v) := by
  induction members with
  | nil => rfl
  | cons s members ih =>
      have others := ih fun t mem => each t (List.mem_cons_of_mem _ mem)
      rw [readFirst, each s (List.mem_cons_self ..), others, verdict, List.find?_cons]
      cases accepts s v with
      | true => rfl
      | false => cases members.find? fun s => accepts s v <;> rfl

/-- All schemas read a value, and the last one that accepts it is heard. -/
theorem readEvery_eq {v output : Ipld} (each : ∀ s ∈ members, readValue s v = s.verdict v) :
    readEvery members v output =
      ((((members.filter fun s => accepts s v).getLast?.map fun s => reading s v).getD output),
        (members.filter fun s => !accepts s v).map fun s => violation s v) := by
  induction members generalizing output with
  | nil => rfl
  | cons s members ih =>
      -- what was heard last stands until another member accepts, so the output varies
      have others := fun w => @ih w fun t mem => each t (List.mem_cons_of_mem _ mem)
      rw [readEvery, each s (List.mem_cons_self ..), verdict, List.filter_cons, List.filter_cons]
      cases accepts s v with
      | false => simp [others]
      | true => simp [others, List.getLast?_cons, Option.map_some]

end

/-! ## The reader -/

section

variable {item value inner : Schema} {members : List Schema} {fields : List (String × Schema)}
  {condition : Refinement}

attribute [local simp] readValue verdict accepts reading violation

theorem readValue_array (parts : ∀ v, readValue item v = item.verdict v) (v : Ipld) :
    readValue (array item) v = (array item).verdict v := by
  cases v with
  | list vs =>
      have each : ∀ e ∈ vs.zipIdx, (readValue item e.1).mapError (Error.element e.2) =
          if accepts item e.1 then .ok (reading item e.1)
          else .error (Error.element e.2 (violation item e.1)) := by
        intro e _
        rw [parts, verdict]
        cases accepts item e.1 <;> rfl
      rw [readValue, readItems_eq_mapM, mapM_eq_ite each (mismatch (array item) (.list vs)), map_ite,
        all_zipIdx, map_zipIdx, verdict, accepts, reading, violation]
      cases vs.zipIdx.find? fun e => !accepts item e.1 <;> rfl
  | _ => simp

theorem readValue_tuple (parts : ∀ s ∈ members, ∀ v, readValue s v = s.verdict v) (v : Ipld) :
    readValue (tuple members) v = (tuple members).verdict v := by
  cases v with
  | list vs =>
      have each : ∀ e ∈ (members.zip vs).zipIdx, (readValue e.1.1 e.1.2).mapError (Error.element e.2) =
          if accepts e.1.1 e.1.2 then .ok (reading e.1.1 e.1.2)
          else .error (Error.element e.2 (violation e.1.1 e.1.2)) := by
        rintro ⟨⟨s, v⟩, i⟩ mem
        have among := (List.mem_zipIdx mem).2.2
        rw [parts s (List.of_mem_zip (among ▸ List.getElem_mem _)).1, verdict]
        cases accepts s v <;> rfl
      rw [readValue, verdict, accepts_tuple, reading_tuple, violation]
      by_cases same : members.length = vs.length
      · rw [readMembers_eq_mapM, mapM_eq_ite each (mismatch (tuple members) (.list vs)), map_ite,
          all_zipIdx fun e : Schema × Ipld => accepts e.1 e.2,
          map_zipIdx fun e : Schema × Ipld => reading e.1 e.2, if_pos same, if_pos same, beq_of_eq same,
          Bool.true_and]
        cases (members.zip vs).zipIdx.find? fun e => !accepts e.1.1 e.1.2 <;> rfl
      · simp [same]
  | _ => simp

theorem readValue_dictionary (parts : ∀ v, readValue value v = value.verdict v) (v : Ipld) :
    readValue (dictionary value) v = (dictionary value).verdict v := by
  cases v with
  | map es =>
      have each : ∀ e ∈ es, ((readValue value e.2).mapError (Error.field e.1) |>.map (e.1, ·)) =
          if accepts value e.2 then .ok (e.1, reading value e.2)
          else .error (Error.field e.1 (violation value e.2)) := by
        intro e _
        rw [parts, verdict]
        cases accepts value e.2 <;> rfl
      rw [readValue, readEntries_eq_mapM, mapM_eq_ite each (mismatch (dictionary value) (.map es)), map_ite,
        verdict, accepts, reading, violation]
      cases es.find? fun e => !accepts value e.2 <;> rfl
  | _ => simp

theorem readValue_struct (parts : ∀ f ∈ fields, ∀ v, readValue f.2 v = f.2.verdict v) (v : Ipld) :
    readValue (struct fields) v = (struct fields).verdict v := by
  cases v with
  | map es =>
      have each : ∀ f ∈ fields, readField es f =
          if fits f.2 (es.lookup f.1) then .ok ((es.lookup f.1).map fun v => (f.1, reading f.2 v))
          else .error (.field f.1 (match es.lookup f.1 with
            | some v => violation f.2 v
            | none => .type f.2.toText "undefined")) := by
        intro f mem
        rw [readField]
        cases es.lookup f.1 with
        | none => rfl
        | some v =>
            dsimp only
            rw [parts f mem, verdict, fits]
            cases accepts f.2 v <;> rfl
      rw [readValue, readStruct_eq_mapM, mapM_eq_ite each (mismatch (struct fields) (.map es)), map_ite,
        map_ite, verdict, accepts_struct, reading, violation, List.filterMap_map]
      cases fields.find? fun f => !fits f.2 (es.lookup f.1) <;> rfl
  | _ => simp

theorem readValue_union (parts : ∀ s ∈ members, ∀ v, readValue s v = s.verdict v) (v : Ipld) :
    readValue (union members) v = (union members).verdict v := by
  rw [readValue, readFirst_eq fun s mem => parts s mem v, verdict, accepts_union, reading_union, violation]
  cases found : members.find? fun s => accepts s v with
  | some s =>
      have mem := List.mem_of_find?_eq_some found
      have holds := List.find?_some found
      rw [if_pos (List.any_eq_true.mpr ⟨s, mem, holds⟩)]
  | none =>
      have nobody : ¬ (members.any fun s => accepts s v) = true := by
        simpa using List.find?_eq_none.mp found
      rw [if_neg nobody]

theorem readValue_intersection (parts : ∀ s ∈ members, ∀ v, readValue s v = s.verdict v) (v : Ipld) :
    readValue (intersection members) v = (intersection members).verdict v := by
  rw [readValue, readEvery_eq fun s mem => parts s mem v, verdict, accepts_intersection, reading, violation]
  cases rejecting : members.filter fun s => !accepts s v with
  | nil =>
      have all : ∀ s ∈ members, accepts s v = true := by
        simpa using List.filter_eq_nil_iff.mp rejecting
      rw [List.filter_eq_self.mpr all, if_pos (List.all_eq_true.mpr all)]
      cases members.getLast? <;> rfl
  | cons s rest =>
      have mem : s ∈ members.filter fun s => !accepts s v := rejecting ▸ List.mem_cons_self ..
      rw [if_neg]
      · rfl
      · intro all
        have refused := (List.mem_filter.mp mem).2
        rw [List.all_eq_true.mp all s (List.mem_filter.mp mem).1] at refused
        cases refused

theorem readValue_refined (parts : ∀ v, readValue inner v = inner.verdict v) (v : Ipld) :
    readValue (refined inner condition) v = (refined inner condition).verdict v := by
  rw [readValue, parts, verdict, verdict, accepts, reading, violation]
  cases accepts inner v with
  | false => rfl
  | true =>
      simp only [if_true, Bool.true_and, Refinement.check_eq]
      cases condition.holds (reading inner v) <;> rfl

/-- The reader does what the language of a schema says. -/
theorem readValue_eq_verdict (s : Schema) (v : Ipld) : readValue s v = s.verdict v := by
  -- by recursion on the schema, for all values at once, as each part of a schema reads part of the value
  cases s with
  | unknown => simp
  | null | boolean | integer | float | string | bytes | link =>
      cases v <;> simp
  | literal expected => simp
  | array item => exact readValue_array (readValue_eq_verdict item) v
  | tuple members => exact readValue_tuple (fun s _ => readValue_eq_verdict s) v
  | dictionary value => exact readValue_dictionary (readValue_eq_verdict value) v
  | struct fields => exact readValue_struct (fun f _ => readValue_eq_verdict f.2) v
  | union members => exact readValue_union (fun s _ => readValue_eq_verdict s) v
  | intersection members => exact readValue_intersection (fun s _ => readValue_eq_verdict s) v
  | optional inner => rw [readValue, readValue_eq_verdict inner, verdict, verdict, accepts, reading, violation]
  | refined inner condition => exact readValue_refined (readValue_eq_verdict inner) v
termination_by sizeOf s
decreasing_by
  all_goals try decreasing_tactic
  exact sizeOf_lt_struct (by assumption)

end

section

variable {s : Schema} {v w : Ipld} {e : Error}

theorem readValue_eq_ok_iff : readValue s v = .ok w ↔ s.accepts v = true ∧ w = s.reading v := by
  rw [readValue_eq_verdict, verdict]
  cases s.accepts v <;> simp [eq_comm]

end

end Mandate.Schema

import Mandate.Proofs.Link
import Mandate.Proofs.Table

/-!
# Linked data is read back

A value is read back from its written form if no more levels are nested in it than the reader enters, and
is refused otherwise. The entries of a map are written by the length of their keys, read in that order,
and sorted again. So this needs maps to be in order to begin with, as they are wherever a table is built.
-/

namespace Mandate

namespace Ipld

mutual

/-- How many levels a reader enters for a value: one, and one more for an array or a map. -/
def levels : Ipld → Nat
  | list items => levelsOfItems items + 2
  | map entries => levelsOfEntries entries + 2
  | _ => 1

def levelsOfItems : List Ipld → Nat
  | [] => 0
  | v :: vs => max (levels v) (levelsOfItems vs)

def levelsOfEntries : List (String × Ipld) → Nat
  | [] => 0
  | (_, v) :: rest => max (levels v) (levelsOfEntries rest)

end

theorem levelsOfItems_le_iff {items : List Ipld} {depth : Nat} :
    levelsOfItems items ≤ depth ↔ ∀ v ∈ items, v.levels ≤ depth := by
  induction items with
  | nil => simp [levelsOfItems]
  | cons v vs ih => simp [levelsOfItems, ih]

theorem levelsOfEntries_le_iff {entries : List (String × Ipld)} {depth : Nat} :
    levelsOfEntries entries ≤ depth ↔ ∀ e ∈ entries, e.2.levels ≤ depth := by
  induction entries with
  | nil => simp [levelsOfEntries]
  | cons e rest ih => simp [levelsOfEntries, ih]

/-- A value that holds no others. -/
def IsScalar : Ipld → Prop
  | list _ => False
  | map _ => False
  | _ => True

/-- All maps in a value are in the order of their keys. -/
inductive Ordered : Ipld → Prop where
  | scalar {v : Ipld} (h : v.IsScalar) : Ordered v
  | list {items : List Ipld} (each : ∀ v ∈ items, Ordered v) : Ordered (list items)
  | map {entries : Fields} (sorted : entries.Sorted) (each : ∀ e ∈ entries, Ordered e.2) :
      Ordered (map entries)

end Ipld

namespace Fields

/-- How many levels a reader enters for caveats. -/
def levels (f : Fields) : Nat := Ipld.levelsOfEntries f + 1

/-- Caveats in order, with all maps in them. -/
def Ordered (f : Fields) : Prop := f.Sorted ∧ ∀ e ∈ f, e.2.Ordered

end Fields

namespace Cbor

variable {α β : Type}

instance : IsStrictTotalOrder Key (· < ·) where
  irrefl k := lt_irrefl k.sortKey
  trans a b c hab hbc := by
    change a.sortKey < b.sortKey at hab
    exact lt_trans hab hbc
  trichotomous a b hab hba := by
    have same : a.sortKey = b.sortKey := le_antisymm (not_lt.mp hba) (not_lt.mp hab)
    have bytes : (Bytes.ofString a.text).map (·.toNat) = (Bytes.ofString b.text).map (·.toNat) :=
      (List.cons.inj same).2
    have texts := Bytes.ofString_injective
      (List.map_injective_iff.mpr (fun _ _ => UInt8.toNat_inj.mp) bytes)
    cases a
    cases b
    exact congrArg Key.mk texts

/-- Entries in the order in which they are written. -/
def arrange (entries : List (String × β)) : List (String × β) :=
  (Table.ofList (entries.map fun e => (Key.mk e.1, e.2))).map fun e => (e.1.text, e.2)

theorem perm_arrange {entries : List (String × β)} (h : (entries.map (·.1)).Nodup) :
    (arrange entries).Perm entries := by
  have keys : ((entries.map fun e => (Key.mk e.1, e.2)).map (·.1)).Nodup := by
    have same : (entries.map fun e => (Key.mk e.1, e.2)).map (·.1) =
        (entries.map (·.1)).map Key.mk := by simp
    rw [same]
    exact List.Pairwise.map Key.mk (fun a b differ same => differ (congrArg Key.text same)) h
  have arranged := (Table.perm_ofList keys).map fun e => (e.1.text, e.2)
  simpa [arrange, Function.comp_def] using arranged

/-- Entries that are in the order in which they are written stay so. -/
theorem arrange_eq_self {entries : List (String × β)}
    (h : (entries.map (·.1)).Pairwise fun a b => Key.mk a < Key.mk b) : arrange entries = entries := by
  have sorted : Table.Sorted (entries.map fun e => (Key.mk e.1, e.2)) := by
    have apart := List.pairwise_map.mp h
    exact List.pairwise_map.mpr apart
  rw [arrange, Table.ofList_of_perm sorted (.refl _)]
  simp [Function.comp_def]

/-! ## Parts -/

/-- The written form of a value that has one. -/
def encoding (v : Ipld) : Bytes := (encode? v).getD []

theorem encode?_eq_encoding {v : Ipld} {b : Bytes} (h : encode? v = some b) :
    encode? v = some (encoding v) := by
  rw [encoding, h]
  rfl

theorem encodeItems?_eq_some {items : List Ipld} {encoded : List Bytes}
    (h : encodeItems? items = some encoded) :
    encoded = items.map encoding ∧ ∀ v ∈ items, encode? v = some (encoding v) := by
  induction items generalizing encoded with
  | nil =>
      cases h
      simp
  | cons v vs ih =>
      rw [encodeItems?] at h
      obtain ⟨b, first, h⟩ := Option.bind_eq_some_iff.mp h
      obtain ⟨bs, others, same⟩ := Option.bind_eq_some_iff.mp h
      cases same
      obtain ⟨rfl, each⟩ := ih others
      refine ⟨?_, List.forall_mem_cons.mpr ⟨encode?_eq_encoding first, each⟩⟩
      rw [List.map_cons, encoding, first]
      rfl

/-- The number of items of an array is read, and then one item after the other. -/
theorem Reads.readArray {ι : Type} {items : List ι} (content : ι → Ipld)
    (read : Bytes → Option (α × Bytes)) (value : ι → Option α) {b : Bytes}
    (written : encode? (.list (items.map content)) = some b)
    (h : ∀ i ∈ items, ∀ c, encode? (content i) = some c → Reads read c (value i)) (rest : Bytes) :
    ∃ size contents, readArgument? .array (b ++ rest) = some (size, contents) ∧
      readMany? read size contents = (items.mapM value).map (·, rest) := by
  rw [encode?] at written
  simp only [Option.bind_eq_bind, Option.bind_eq_some_iff, Option.some.injEq] at written
  obtain ⟨encoded, written, head, begun, rfl⟩ := written
  obtain ⟨rfl, each⟩ := encodeItems?_eq_some written
  rw [List.length_map, List.length_map] at begun
  rw [List.append_assoc, reads_head begun, List.map_map, ← List.flatMap_def]
  exact ⟨_, _, rfl,
    Reads.readMany (fun i mem => h i mem _ (each _ (List.mem_map_of_mem mem))) rest⟩

theorem encodeValues?_eq_some {entries : List (String × Ipld)} {encoded : List (Key × Bytes)}
    (h : encodeValues? entries = some encoded) :
    encoded = (entries.map fun e => (Key.mk e.1, encoding e.2)) ∧
      ∀ e ∈ entries, encode? e.2 = some (encoding e.2) := by
  induction entries generalizing encoded with
  | nil =>
      cases h
      simp
  | cons e rest ih =>
      rw [encodeValues?] at h
      obtain ⟨b, first, h⟩ := Option.bind_eq_some_iff.mp h
      obtain ⟨bs, others, same⟩ := Option.bind_eq_some_iff.mp h
      cases same
      obtain ⟨rfl, each⟩ := ih others
      refine ⟨?_, List.forall_mem_cons.mpr ⟨encode?_eq_encoding first, each⟩⟩
      rw [List.map_cons, encoding, first]
      rfl

/-- Entries as written are a head and each key before its value. -/
theorem encodeEntries?_eq_some {entries : List (String × Bytes)} {b : Bytes}
    (h : encodeEntries? (entries.map fun e => (Key.mk e.1, e.2)) = some b) :
    ∃ head, head? .map (arrange entries).length = some head ∧
      (∀ e ∈ arrange entries, encodeString? e.1 = some (encoding (.string e.1))) ∧
      b = head ++ (arrange entries).flatMap fun e => encoding (.string e.1) ++ e.2 := by
  simp only [encodeEntries?, Option.bind_eq_bind, Option.bind_eq_some_iff, Option.some.injEq] at h
  obtain ⟨written, each, head, begun, rfl⟩ := h
  have all : ∀ t : Table Key Bytes, ∀ written,
      (t.mapM fun e => do some ((← encodeString? e.1.text) ++ e.2)) = some written →
      (∀ e ∈ t, encodeString? e.1.text = some (encoding (.string e.1.text))) ∧
        written = t.map fun e => encoding (.string e.1.text) ++ e.2 := by
    intro t
    induction t with
    | nil =>
        intro written each
        cases each
        simp
    | cons e t ih =>
        intro written each
        rw [List.mapM_cons] at each
        simp only [Option.bind_eq_bind, Option.bind_eq_some_iff, Option.pure_def,
          Option.some.injEq] at each
        obtain ⟨_, ⟨key, first, rfl⟩, others, rest, rfl⟩ := each
        obtain ⟨keys, rfl⟩ := ih others rest
        have form : encode? (.string e.1.text) = some key := by
          rw [encode?]
          exact first
        refine ⟨List.forall_mem_cons.mpr ⟨?_, keys⟩, ?_⟩
        · rw [encoding, form]
          exact first
        · rw [List.map_cons]
          simp [encoding, form]
  obtain ⟨keys, rfl⟩ := all _ _ each
  refine ⟨head, ?_, ?_, ?_⟩
  · simpa [arrange] using begun
  · intro e mem
    obtain ⟨e', mem', rfl⟩ := List.mem_map.mp mem
    exact keys e' mem'
  · simp [arrange, List.flatMap_def, Function.comp_def]

/-- The entries of a map are read in the order in which they are written, if all are read. -/
theorem Reads.readEntries {parts : List (String × β)} (content : β → Ipld)
    (read : String → Bytes → Option (α × Bytes)) (value : String → β → Option α) {b : Bytes}
    (written : encode? (.map (parts.map fun e => (e.1, content e.2))) = some b)
    (distinct : (parts.map (·.1)).Nodup)
    (h : ∀ e ∈ parts, ∀ c, encode? (content e.2) = some c → Reads (read e.1) c (value e.1 e.2))
    (depth : Nat) :
    Reads (readEntries? read depth) b
      ((arrange parts).mapM fun e => (value e.1 e.2).map fun a => (e.1, a)) := by
  rw [encode?] at written
  obtain ⟨values, encoded, written⟩ := Option.bind_eq_some_iff.mp written
  obtain ⟨rfl, each⟩ := encodeValues?_eq_some encoded
  have form : ((parts.map fun e => (e.1, content e.2)).map fun e => (Key.mk e.1, encoding e.2)) =
      (parts.map fun e => (e.1, encoding (content e.2))).map fun e => (Key.mk e.1, e.2) := by
    simp
  rw [form] at written
  obtain ⟨head, begun, keys, rfl⟩ := encodeEntries?_eq_some written
  have arranged : (arrange (parts.map fun e => (e.1, encoding (content e.2)))) =
      (arrange parts).map fun e => (e.1, encoding (content e.2)) := by
    have moved := Table.ofList_map (fun x => encoding (content x))
      (parts.map fun e => (Key.mk e.1, e.2))
    simp only [List.map_map] at moved
    simp only [arrange, List.map_map]
    exact (congrArg _ moved).trans (by simp)
  rw [arranged] at begun keys ⊢
  rw [List.length_map] at begun
  rw [List.flatMap_map]
  intro rest
  rw [List.append_assoc, readEntries?, reads_head begun]
  refine Reads.readMany (fun e mem => ?_) rest
  intro rest
  have member : e ∈ parts := (perm_arrange distinct).mem_iff.mp mem
  have named := reads_text (keys _ (List.mem_map.mpr ⟨e, mem, rfl⟩)) depth
    (encoding (content e.2) ++ rest)
  have valued := h e member _ (each _ (List.mem_map.mpr ⟨e, member, rfl⟩)) rest
  simp only [List.append_assoc, Option.map_some, Option.bind_eq_bind] at named valued ⊢
  simp only [named, Option.bind_some, valued]
  cases value e.1 e.2 <;> rfl

/-! ## Values -/

/-- The kind of item that a value is written as. -/
def kindOf : Ipld → Kind
  | .integer n => if 0 ≤ n then .natural else .negative
  | .bytes _ => .bytes
  | .string _ => .text
  | .list _ => .array
  | .map _ => .map
  | .link _ => .tag
  | _ => .simple

theorem kindOf_scalar {v : Ipld} (h : v.IsScalar) : kindOf v ≠ .array ∧ kindOf v ≠ .map := by
  cases v with
  | list items => cases h
  | map entries => cases h
  | integer n =>
      rw [kindOf]
      split <;> simp
  | _ => simp [kindOf]

/-- The first byte that is written tells the kind. -/
theorem kind_of_encode {v : Ipld} {b : Bytes} (h : encode? v = some b) (rest : Bytes) :
    ∃ first, (b ++ rest).head? = some first ∧ Kind.ofByte first = kindOf v := by
  have of_head : ∀ {k argument head more}, head? k argument = some head →
      ∃ first, (head ++ more).head? = some first ∧ Kind.ofByte first = k := by
    intro k argument head more begun
    obtain ⟨first, _, rfl, kind, -⟩ := exists_first_of_head begun
    exact ⟨first, rfl, kind⟩
  cases v with
  | null =>
      cases h
      exact ⟨0xf6, rfl, rfl⟩
  | bool value =>
      cases h
      cases value
      · exact ⟨0xf4, rfl, rfl⟩
      · exact ⟨0xf5, rfl, rfl⟩
  | integer n =>
      rw [encode?, encodeInteger?] at h
      rw [kindOf]
      split at h
      case isTrue natural =>
        rw [if_pos natural]
        exact of_head h
      case isFalse negative =>
        rw [if_neg negative]
        exact of_head h
  | float x =>
      rw [encode?] at h
      split at h
      · cases h
        exact ⟨0xfb, rfl, rfl⟩
      · cases h
  | string s =>
      obtain ⟨head, begun, rfl⟩ := encodeString?_eq_some h
      rw [List.append_assoc]
      exact of_head begun
  | bytes content =>
      obtain ⟨head, begun, rfl⟩ := encodeBytes?_eq_some h
      rw [List.append_assoc]
      exact of_head begun
  | list items =>
      rw [encode?] at h
      simp only [Option.bind_eq_bind, Option.bind_eq_some_iff, Option.some.injEq] at h
      obtain ⟨_, -, head, begun, rfl⟩ := h
      rw [List.append_assoc]
      exact of_head begun
  | map entries =>
      rw [encode?] at h
      simp only [encodeEntries?, Option.bind_eq_bind, Option.bind_eq_some_iff,
        Option.some.injEq] at h
      obtain ⟨_, -, _, -, head, begun, rfl⟩ := h
      rw [List.append_assoc]
      exact of_head begun
  | link c =>
      rw [encode?] at h
      simp only [encodeLink?, Option.bind_eq_bind, Option.bind_eq_some_iff, Option.some.injEq] at h
      obtain ⟨head, begun, _, -, rfl⟩ := h
      rw [List.append_assoc]
      exact of_head begun

theorem reads_scalar {v : Ipld} {b : Bytes} (scalar : v.IsScalar) (h : encode? v = some b)
    (depth : Nat) : Reads (readScalar? depth) b (some v) := by
  intro rest
  obtain ⟨first, begins, kind⟩ := kind_of_encode h rest
  simp only [readScalar?, begins, Option.bind_eq_bind, Option.bind_some, kind]
  cases v with
  | null =>
      cases h
      rfl
  | bool value =>
      cases h
      cases value <;> rfl
  | integer n =>
      rw [encode?, encodeInteger?] at h
      rw [kindOf]
      split at h
      case isTrue natural =>
        simp only [if_pos natural, reads_head h rest, Option.map_some, Option.bind_some,
          Int.toNat_of_nonneg natural]
      case isFalse negative =>
        have whole : -1 - ((-1 - n).toNat : Int) = n := by omega
        simp only [if_neg negative, reads_head h rest, Option.map_some, Option.bind_some, whole]
  | float x =>
      rw [encode?] at h
      split at h
      case isTrue finite =>
        cases h
        have fits : x.bits.toNat < 256 ^ 8 := lt_of_lt_of_le x.bits.toNat_lt (by decide)
        have taken : Bytes.take? 8 (Bytes.ofNat 8 x.bits.toNat ++ rest) =
            some (Bytes.ofNat 8 x.bits.toNat, rest) := by
          simpa using Bytes.take?_append (Bytes.ofNat 8 x.bits.toNat) rest
        simp only [kindOf, List.cons_append, readSimple?, taken, Option.bind_eq_bind,
          Option.bind_some, Bytes.toNat_ofNat fits, UInt64.ofNat_toNat, Option.map_some]
      case isFalse => cases h
  | string s =>
      obtain ⟨head, begun, rfl⟩ := encodeString?_eq_some h
      simp only [kindOf, reads_whole begun rest, Option.map_some, Option.bind_some,
        Bytes.toString?_ofString]
  | bytes content =>
      obtain ⟨head, begun, rfl⟩ := encodeBytes?_eq_some h
      simp only [kindOf, reads_whole begun rest, Option.map_some, Option.bind_some]
  | list items => cases scalar
  | map entries => cases scalar
  | link c =>
      rw [encode?] at h
      simp only [kindOf, reads_link h depth rest, Option.map_some, Option.bind_some]

/-- At the last level there is no room for an array or a map. -/
theorem readValue?_one {v : Ipld} {b : Bytes} (h : encode? v = some b) (nested : ¬ v.IsScalar)
    (rest : Bytes) : readValue? 1 (b ++ rest) = none := by
  obtain ⟨first, begins, kind⟩ := kind_of_encode h rest
  simp only [readValue?, readScalar?, begins, Option.bind_eq_bind, Option.bind_some, kind]
  cases v with
  | list items => rfl
  | map entries => rfl
  | _ => exact absurd trivial nested

/-- The entries of a map are read back if its values are. -/
theorem reads_entries {entries : Fields} (sorted : entries.Sorted) {b : Bytes}
    (h : encode? (.map entries) = some b) {depth : Nat}
    (each : ∀ e ∈ entries, ∀ c, encode? e.2 = some c →
      Reads (readValue? depth) c (if e.2.levels ≤ depth then some e.2 else none)) (keyDepth : Nat) :
    Reads (readEntries? (fun _ => readValue? depth) keyDepth) b
      (if Ipld.levelsOfEntries entries ≤ depth then some (arrange entries) else none) := by
  have distinct := Table.nodup_keys sorted
  have written : encode? (.map (entries.map fun e => (e.1, e.2))) = some b := by simpa using h
  have read := Reads.readEntries (fun v => v) (fun _ => readValue? depth)
    (fun _ v => if v.levels ≤ depth then some v else none) written distinct each keyDepth
  have all : ((arrange entries).mapM fun e =>
      (if e.2.levels ≤ depth then some e.2 else none).map fun v => (e.1, v)) =
        if Ipld.levelsOfEntries entries ≤ depth then some (arrange entries) else none := by
    have tested := mapM_guard (fun e : String × Ipld => e.2.levels ≤ depth) (arrange entries)
    have same : (∀ e ∈ arrange entries, e.2.levels ≤ depth) ↔
        Ipld.levelsOfEntries entries ≤ depth := by
      rw [Ipld.levelsOfEntries_le_iff]
      exact forall_congr' fun e => imp_congr_left (perm_arrange distinct).mem_iff
    simp only [same] at tested
    rw [← tested]
    congr 1
    funext e
    split <;> rfl
  rw [all] at read
  exact read

/-- Sorting the entries as read gives the table that was written. -/
theorem ofList_arrange {entries : Fields} (sorted : entries.Sorted) :
    ((arrange entries).map (·.1)).Nodup ∧ Table.ofList (arrange entries) = entries := by
  have same := perm_arrange (Table.nodup_keys sorted)
  exact ⟨(same.map _).nodup_iff.mpr (Table.nodup_keys sorted), Table.ofList_of_perm sorted same⟩

/-- A value is read back by a reader that enters as many levels as there are, and by no other. -/
theorem reads_value {v : Ipld} (ordered : v.Ordered) {b : Bytes} (h : encode? v = some b)
    (depth : Nat) : Reads (readValue? depth) b (if v.levels ≤ depth then some v else none) := by
  induction ordered generalizing b depth with
  | @scalar v scalar =>
      have one : v.levels = 1 := by
        cases v <;> first | rfl | cases scalar
      intro rest
      rw [one]
      match depth with
      | 0 => rfl
      | 1 => exact reads_scalar scalar h 0 rest
      | depth + 2 =>
          obtain ⟨first, begins, kind⟩ := kind_of_encode h rest
          have read := reads_scalar scalar h (depth + 1) rest
          simp only [readValue?, begins, Option.bind_eq_bind, Option.bind_some, kind]
          rw [if_pos (by omega)]
          split
          case h_1 array => exact absurd array (kindOf_scalar scalar).1
          case h_2 map => exact absurd map (kindOf_scalar scalar).2
          case h_3 => exact read
  | @list items each ih =>
      intro rest
      rw [Ipld.levels]
      match depth with
      | 0 => rfl
      | 1 => simp [readValue?_one h (fun scalar => scalar) rest]
      | depth + 2 =>
          obtain ⟨first, begins, kind⟩ := kind_of_encode h rest
          have written : encode? (.list (items.map id)) = some b := by
            rw [List.map_id]
            exact h
          obtain ⟨size, contents, sized, read⟩ := Reads.readArray id (readValue? depth)
            (fun v => if v.levels ≤ depth then some v else none) written
            (fun v mem c written => ih v mem written depth) rest
          rw [mapM_guard fun v : Ipld => v.levels ≤ depth] at read
          simp only [readValue?, begins, Option.bind_eq_bind, Option.bind_some, kind, kindOf, sized,
            read, Nat.add_le_add_iff_right, Ipld.levelsOfItems_le_iff]
          split <;> rfl
  | @map entries sorted each ih =>
      intro rest
      rw [Ipld.levels]
      match depth with
      | 0 => rfl
      | 1 => simp [readValue?_one h (fun scalar => scalar) rest]
      | depth + 2 =>
          obtain ⟨first, begins, kind⟩ := kind_of_encode h rest
          have read := reads_entries sorted h (fun e mem c written => ih e mem written depth)
            depth rest
          obtain ⟨distinct, table⟩ := ofList_arrange sorted
          simp only [readValue?, begins, Option.bind_eq_bind, Option.bind_some, kind, kindOf, read,
            Nat.add_le_add_iff_right]
          split
          case isTrue => simp [distinct, table]
          case isFalse => rfl

/-- A list of anything is read back item by item. -/
theorem Reads.readList {ι : Type} {items : List ι} (content : ι → Ipld)
    (read : Nat → Bytes → Option (α × Bytes)) (value : ι → Option α) {b : Bytes}
    (written : encode? (.list (items.map content)) = some b) (depth : Nat)
    (h : ∀ i ∈ items, ∀ c, encode? (content i) = some c → Reads (read depth) c (value i)) :
    Reads (readList? read (depth + 1)) b (items.mapM value) := by
  intro rest
  obtain ⟨size, contents, sized, items⟩ := Reads.readArray content (read depth) value written h rest
  simp only [readList?, sized, Option.bind_eq_bind, Option.bind_some, items]

/-- A value that is there is not taken for an absent one. -/
theorem Reads.readOptional {read : Nat → Bytes → Option (α × Bytes)} {v : Ipld} {b : Bytes}
    (written : encode? v = some b) (other : kindOf v ≠ .simple) {depth : Nat} {result : Option α}
    (h : Reads (read depth) b result) :
    Reads (readOptional? read (depth + 1)) b (result.map some) := by
  intro rest
  obtain ⟨first, begins, kind⟩ := kind_of_encode written rest
  have present : first ≠ 0xf6 := by
    rintro rfl
    exact other kind.symm
  rw [readOptional?, h rest]
  · cases result <;> rfl
  · intro more absent
    rw [absent] at begins
    exact present (Option.some.inj begins).symm

/-- Caveats and facts are read back under the same condition. -/
theorem reads_fields {f : Fields} (ordered : f.Ordered) {b : Bytes}
    (h : encode? (.map f) = some b) (depth : Nat) :
    Reads (readFields? depth) b (if f.levels ≤ depth then some f else none) := by
  intro rest
  cases depth with
  | zero => rfl
  | succ depth =>
      have read := reads_entries ordered.1 h
        (fun e mem c written => reads_value (ordered.2 e mem) written depth) depth rest
      simp only [readFields?, read, Fields.levels, Nat.add_le_add_iff_right, Option.bind_eq_bind]
      split
      case isTrue => simp [(ofList_arrange ordered.1).2]
      case isFalse => rfl

end Cbor

end Mandate

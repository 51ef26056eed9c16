import Mandate.Proofs.Value
import Mandate.Proofs.Written

/-!
# Numbers that are not written

Apart from its size, only one thing keeps a value from being written: a float in it that is infinite or not a
number. So a payload whose texts and lists are of a size that can be counted is written just if all floats in
its caveats and facts are finite.
-/

namespace Mandate

namespace Ipld

/-- All floats in a value are finite. -/
inductive Finite : Ipld → Prop where
  | scalar {v : Ipld} (h : v.IsScalar) (number : ∀ x, v = float x → x.isFinite = true) : Finite v
  | list {items : List Ipld} (each : ∀ v ∈ items, Finite v) : Finite (list items)
  | map {entries : Fields} (each : ∀ e ∈ entries, Finite e.2) : Finite (map entries)

theorem Finite.each_list {items : List Ipld} (h : (Ipld.list items).Finite) : ∀ v ∈ items, v.Finite := by
  cases h with
  | scalar scalar => cases scalar
  | list each => exact each

theorem Finite.each_map {entries : Fields} (h : (Ipld.map entries).Finite) :
    ∀ e ∈ entries, e.2.Finite := by
  cases h with
  | scalar scalar => cases scalar
  | map each => exact each

/-- A value has a written form. -/
def Written (v : Ipld) : Prop := ∃ b, Cbor.encode? v = some b

/-- Only floats that are not finite can keep a value from being written. -/
def Writable (v : Ipld) : Prop := v.Finite → v.Written

end Ipld

namespace Cbor

open Ipld

theorem exists_head (k : Kind) {argument : Nat} (h : argument < UInt64.size) :
    ∃ b, head? k argument = some b := by
  simp only [head?, if_pos h]
  split_ifs <;> exact ⟨_, rfl⟩

theorem exists_mapM {α β : Type} {f : α → Option β} {items : List α}
    (h : ∀ a ∈ items, ∃ b, f a = some b) :
    ∃ made, items.mapM f = some made ∧ made.length = items.length := by
  induction items with
  | nil => exact ⟨[], rfl, rfl⟩
  | cons a items ih =>
      obtain ⟨⟨b, first⟩, others⟩ := List.forall_mem_cons.mp h
      obtain ⟨made, rest, length⟩ := ih others
      exact ⟨b :: made, by rw [List.mapM_cons, first, rest]; rfl, by simp [length]⟩

/-! ## What is written -/

theorem written_string {s : String} (h : (Bytes.ofString s).length < UInt64.size) :
    Written (.string s) := by
  obtain ⟨head, begun⟩ := exists_head .text h
  exact ⟨head ++ Bytes.ofString s, by rw [encode?, encodeString?, begun]; rfl⟩

theorem exists_encodeBytes {b : Bytes} (h : b.length < UInt64.size) :
    ∃ c, encodeBytes? b = some c := by
  obtain ⟨head, begun⟩ := exists_head .bytes h
  exact ⟨head ++ b, by rw [encodeBytes?, begun]; rfl⟩

theorem written_bytes {b : Bytes} (h : b.length < UInt64.size) : Written (.bytes b) :=
  exists_encodeBytes h

theorem written_natural {n : Nat} (h : n < UInt64.size) : Written (.integer n) := by
  obtain ⟨b, begun⟩ := exists_head .natural h
  exact ⟨b, by rw [encode?, encodeInteger?, if_pos (Int.natCast_nonneg n), Int.toNat_natCast, begun]⟩

theorem written_negative {n : Nat} (h : n < UInt64.size) : Written (.integer (-1 - n)) := by
  obtain ⟨b, begun⟩ := exists_head .negative h
  have below : ¬ (0 : Int) ≤ -1 - n := by omega
  have same : (-1 - (-1 - n : Int)).toNat = n := by omega
  exact ⟨b, by rw [encode?, encodeInteger?, if_neg below, same, begun]⟩

theorem length_encodeWithin_le (width n : Nat) : (Varint.encodeWithin width n).length ≤ width := by
  induction width generalizing n with
  | zero => rfl
  | succ width ih =>
      rw [Varint.encodeWithin]
      split
      · simp
      · simpa using ih (n / 128)

theorem length_toBytes_le (c : Cid) : c.toBytes.length ≤ 104 := by
  cases c with
  | v0 digest length => simp [Cid.toBytes, length]
  | v1 codec hash digest length =>
      have version := length_encodeWithin_le 10 (1 : UInt64).toNat
      have content := length_encodeWithin_le 10 codec.toNat
      have function := length_encodeWithin_le 10 hash.toNat
      have size := length_encodeWithin_le 10 (UInt64.ofNat digest.length).toNat
      simp only [Cid.toBytes, Varint.encode, List.length_append]
      omega

theorem written_link (c : Cid) : Written (.link c) := by
  have short : (0 :: c.toBytes).length < UInt64.size :=
    Nat.lt_of_le_of_lt (Nat.succ_le_succ (length_toBytes_le c)) (by decide)
  obtain ⟨tag, tagged⟩ := exists_head .tag (by decide : linkTag < UInt64.size)
  obtain ⟨content, written⟩ := exists_encodeBytes short
  exact ⟨tag ++ content, by rw [encode?, encodeLink?, tagged, written]; rfl⟩

theorem written_list {items : List Ipld} (each : ∀ v ∈ items, v.Written)
    (short : items.length < UInt64.size) : Written (.list items) := by
  have all : ∃ encoded, encodeItems? items = some encoded ∧ encoded.length = items.length := by
    clear short
    induction items with
    | nil => exact ⟨[], rfl, rfl⟩
    | cons v items ih =>
        obtain ⟨⟨b, first⟩, others⟩ := List.forall_mem_cons.mp each
        obtain ⟨encoded, rest, length⟩ := ih others
        exact ⟨b :: encoded, by rw [encodeItems?, first, rest]; rfl, by simp [length]⟩
  obtain ⟨encoded, written, length⟩ := all
  obtain ⟨head, begun⟩ := exists_head .array (length ▸ short)
  exact ⟨head ++ encoded.flatten, by rw [encode?, written]; simp [begun]⟩

theorem exists_encodeEntries {entries : List (Key × Bytes)}
    (keys : ∀ e ∈ entries, (string e.1.text).Written) (short : entries.length < UInt64.size) :
    ∃ b, encodeEntries? entries = some b := by
  have each : ∀ e ∈ Table.ofList entries,
      ∃ b, (do some ((← encodeString? e.1.text) ++ e.2)) = some b := by
    intro e mem
    obtain ⟨key, written⟩ := keys e (Table.mem_ofList mem)
    rw [encode?] at written
    exact ⟨key ++ e.2, Option.bind_eq_some_iff.mpr ⟨key, written, rfl⟩⟩
  obtain ⟨written, parts, length⟩ := exists_mapM each
  have few : written.length < UInt64.size :=
    length ▸ (Table.length_ofList_le entries).trans_lt short
  obtain ⟨head, begun⟩ := exists_head .map few
  exact ⟨head ++ written.flatten,
    Option.bind_eq_some_iff.mpr ⟨written, parts, Option.bind_eq_some_iff.mpr ⟨head, begun, rfl⟩⟩⟩

theorem written_map {entries : Fields} (each : ∀ e ∈ entries, (string e.1).Written ∧ e.2.Written)
    (short : entries.length < UInt64.size) : Written (.map entries) := by
  have values : encodeValues? entries = some (entries.map fun e => (Key.mk e.1, encoding e.2)) := by
    clear short
    induction entries with
    | nil => rfl
    | cons e entries ih =>
        obtain ⟨⟨-, b, first⟩, others⟩ := List.forall_mem_cons.mp each
        rw [encodeValues?, encode?_eq_encoding first, ih others]
        rfl
  have keys : ∀ e ∈ entries.map fun e => (Key.mk e.1, encoding e.2), (string e.1.text).Written :=
    List.forall_mem_map.mpr fun e mem => (each e mem).1
  obtain ⟨b, written⟩ := exists_encodeEntries keys (by rwa [List.length_map])
  exact ⟨b, by rw [encode?, values]; exact written⟩

theorem writable_list {items : List Ipld} (each : ∀ v ∈ items, v.Writable)
    (short : items.length < UInt64.size) : Writable (.list items) :=
  fun finite => written_list (fun v mem => each v mem (finite.each_list v mem)) short

theorem writable_map {entries : Fields} (each : ∀ e ∈ entries, (string e.1).Written ∧ e.2.Writable)
    (short : entries.length < UInt64.size) : Writable (.map entries) :=
  fun finite => written_map
    (fun e mem => ⟨(each e mem).1, (each e mem).2 (finite.each_map e mem)⟩) short

/-! ## What is not -/

mutual

theorem finite_of_encode : (v : Ipld) → {b : Bytes} → encode? v = some b → v.Finite
  | .float x, _, h => .scalar trivial fun y same => by
      cases same
      exact isFinite_of_encode h
  | .list items, _, h => .list fun v mem => by
      rw [encode?] at h
      obtain ⟨encoded, written, -⟩ := Option.bind_eq_some_iff.mp h
      exact finite_of_encodeItems items written v mem
  | .map entries, _, h => .map fun e mem => by
      rw [encode?] at h
      obtain ⟨encoded, written, -⟩ := Option.bind_eq_some_iff.mp h
      exact finite_of_encodeValues entries written e mem
  | .null, _, _ | .bool _, _, _ | .integer _, _, _ | .string _, _, _ | .bytes _, _, _ | .link _, _, _ =>
    .scalar trivial fun _ same => by cases same

theorem finite_of_encodeItems : (items : List Ipld) → {encoded : List Bytes} →
    encodeItems? items = some encoded → ∀ v ∈ items, v.Finite
  | [], _, _ => by simp
  | v :: items, _, h => by
      rw [encodeItems?] at h
      obtain ⟨b, first, h⟩ := Option.bind_eq_some_iff.mp h
      obtain ⟨bs, others, -⟩ := Option.bind_eq_some_iff.mp h
      exact List.forall_mem_cons.mpr
        ⟨finite_of_encode v first, finite_of_encodeItems items others⟩

theorem finite_of_encodeValues : (entries : List (String × Ipld)) → {encoded : List (Key × Bytes)} →
    encodeValues? entries = some encoded → ∀ e ∈ entries, e.2.Finite
  | [], _, _ => by simp
  | (k, v) :: entries, _, h => by
      rw [encodeValues?] at h
      obtain ⟨b, first, h⟩ := Option.bind_eq_some_iff.mp h
      obtain ⟨bs, others, -⟩ := Option.bind_eq_some_iff.mp h
      exact List.forall_mem_cons.mpr
        ⟨finite_of_encode v first, finite_of_encodeValues entries others⟩

end

end Cbor

end Mandate

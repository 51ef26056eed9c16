import Mandate.Cbor.Content
import Mathlib.Algebra.Group.Nat.Defs

/-!
# What is written at the front is read back

A reader is described by what it makes of a given byte string at the front, whatever follows that. Numbers,
the heads of items, and contents in one piece are read back as they were written.
-/

namespace Mandate

namespace Bytes

theorem toNatLittle_ofNatLittle (width n : Nat) (h : n < 256 ^ width) :
    toNatLittle (ofNatLittle width n) = n := by
  induction width generalizing n with
  | zero =>
      obtain rfl : n = 0 := by simpa using h
      rfl
  | succ width ih =>
      have rest : n / 256 < 256 ^ width := by
        rw [Nat.div_lt_iff_lt_mul (by decide), ← Nat.pow_succ]
        exact h
      rw [ofNatLittle, toNatLittle, ih _ rest, UInt8.toNat_ofNat']
      omega

theorem toNat_reverse (b : Bytes) : toNat b.reverse = toNatLittle b := by
  induction b with
  | nil => rfl
  | cons byte rest ih =>
      have last : toNat (rest.reverse ++ [byte]) = toNat rest.reverse * 256 + byte.toNat := by
        simp [toNat]
      rw [List.reverse_cons, last, ih, toNatLittle]
      omega

/-- A number is read back from as many bytes as it fits into. -/
theorem toNat_ofNat {width n : Nat} (h : n < 256 ^ width) : toNat (ofNat width n) = n := by
  rw [ofNat, toNat_reverse, toNatLittle_ofNatLittle width n h]

@[simp] theorem take?_append (b rest : Bytes) : take? b.length (b ++ rest) = some (b, rest) := by
  simp [take?]

theorem ofString_injective : Function.Injective ofString := by
  intro s t same
  have read := congrArg toString? same
  simpa using read

end Bytes

namespace Cbor

variable {α β : Type}

/-- What a reader makes of a byte string at the front, whatever follows it. -/
def Reads (read : Bytes → Option (α × Bytes)) (b : Bytes) (result : Option α) : Prop :=
  ∀ rest, read (b ++ rest) = result.map (·, rest)

theorem Reads.map {read : Bytes → Option (α × Bytes)} {b : Bytes} {result : Option α}
    (h : Reads read b result) (f : α → β) :
    Reads (fun b => (read b).map fun (a, b) => (f a, b)) b (result.map f) := by
  intro rest
  simp only [h rest, Option.map_map]
  rfl

/-- A reader that leaves nothing has read the whole. -/
theorem Reads.readAll {read : Bytes → Option (α × Bytes)} {b : Bytes} {result : Option α}
    (h : Reads read b result) : readAll? read b = result := by
  have whole := h []
  rw [List.append_nil] at whole
  rw [readAll?, whole]
  cases result <;> rfl

/-- Items that are read one by one are read in order, up to the first that is not read. -/
theorem Reads.readMany {ι : Type} {read : Bytes → Option (α × Bytes)} {items : List ι}
    {written : ι → Bytes} {value : ι → Option α}
    (h : ∀ i ∈ items, Reads read (written i) (value i)) :
    Reads (readMany? read items.length) (items.flatMap written) (items.mapM value) := by
  induction items with
  | nil =>
      intro rest
      rfl
  | cons i items ih =>
      intro rest
      have first := h i List.mem_cons_self
      have others := ih fun j mem => h j (List.mem_cons_of_mem i mem)
      rw [List.flatMap_cons, List.append_assoc, List.length_cons, readMany?, first]
      rw [List.mapM_cons]
      cases value i with
      | none => rfl
      | some a =>
          simp only [Option.map_some, Option.bind_eq_bind, Option.bind_some, others rest]
          cases items.mapM value <;> rfl

/-- Items that are read if they pass a test are all read if all pass it. -/
theorem mapM_guard (P : α → Prop) [DecidablePred P] (items : List α) :
    (items.mapM fun a => if P a then some a else none) =
      if ∀ a ∈ items, P a then some items else none := by
  induction items with
  | nil => rfl
  | cons a items ih =>
      rw [List.mapM_cons, ih]
      by_cases first : P a
      · rw [if_pos first]
        by_cases others : ∀ b ∈ items, P b
        · rw [if_pos others, if_pos (List.forall_mem_cons.mpr ⟨first, others⟩)]
          rfl
        · rw [if_neg others, if_neg fun all => others (List.forall_mem_cons.mp all).2]
          rfl
      · rw [if_neg first, if_neg fun all => first (List.forall_mem_cons.mp all).1]
        rfl

theorem mapM_eq_none {ι : Type} {items : List ι} {value : ι → Option α} {i : ι} (mem : i ∈ items)
    (h : value i = none) : items.mapM value = none := by
  induction items with
  | nil => cases mem
  | cons j items ih =>
      rw [List.mapM_cons]
      rcases List.mem_cons.mp mem with rfl | later
      · rw [h]
        rfl
      · rw [ih later]
        cases value j <;> rfl

/-! ## Heads -/

/-- The low bits of the first byte are told apart from the kind. -/
theorem low_bits (k : Kind) {info : Nat} (h : info < 32) :
    ((k.bits ||| UInt8.ofNat info) &&& ~~~k.bits).toNat = info := by
  have each : ∀ k : Kind, ∀ i : Fin 32,
      ((k.bits ||| UInt8.ofNat i.val) &&& ~~~k.bits).toNat = i.val := by
    intro k
    cases k <;> decide
  exact each k ⟨info, h⟩

theorem ofByte_first (k : Kind) {info : Nat} (h : info < 32) :
    Kind.ofByte (k.bits ||| UInt8.ofNat info) = k := by
  have each : ∀ k : Kind, ∀ i : Fin 32, Kind.ofByte (k.bits ||| UInt8.ofNat i.val) = k := by
    intro k
    cases k <;> decide
  exact each k ⟨info, h⟩

theorem first_ne_unsized (k : Kind) {info : Nat} (h : info < 31) :
    k.bits ||| UInt8.ofNat info ≠ k.unsized := by
  have each : ∀ k : Kind, ∀ i : Fin 31, k.bits ||| UInt8.ofNat i.val ≠ k.unsized := by
    intro k
    cases k <;> decide
  exact each k ⟨info, h⟩

/-- The form of a head: low bits that are the argument, or tell how many bytes it takes. -/
theorem head?_eq_some {k : Kind} {argument : Nat} {b : Bytes} (h : head? k argument = some b) :
    (argument < 24 ∧ b = [k.bits ||| UInt8.ofNat argument]) ∨
      ∃ width < 4, argument < 256 ^ 2 ^ width ∧
        b = (k.bits ||| UInt8.ofNat (24 + width)) :: Bytes.ofNat (2 ^ width) argument := by
  simp only [head?] at h
  split at h
  case isTrue small => exact Or.inl ⟨small, (Option.some.inj h).symm⟩
  case isFalse =>
    refine Or.inr ?_
    split at h
    case isTrue one => exact ⟨0, by decide, one, (Option.some.inj h).symm⟩
    case isFalse =>
      split at h
      case isTrue two => exact ⟨1, by decide, two, (Option.some.inj h).symm⟩
      case isFalse =>
        split at h
        case isTrue four => exact ⟨2, by decide, four, (Option.some.inj h).symm⟩
        case isFalse =>
          split at h
          case isTrue eight => exact ⟨3, by decide, eight, (Option.some.inj h).symm⟩
          case isFalse => cases h

/-- The argument of a head is read back. -/
theorem reads_head {k : Kind} {argument : Nat} {b : Bytes} (h : head? k argument = some b) :
    Reads (readArgument? k) b (some argument) := by
  intro rest
  rcases head?_eq_some h with ⟨small, rfl⟩ | ⟨width, bound, fits, rfl⟩
  · simp only [List.cons_append, List.nil_append, readArgument?]
    rw [low_bits k (by omega), if_pos small]
    rfl
  · simp only [List.cons_append, readArgument?]
    rw [low_bits k (by omega), if_neg (by omega), if_pos (by omega)]
    have size : 1 <<< (24 + width - 24) = (Bytes.ofNat (2 ^ width) argument).length := by
      rw [Bytes.length_ofNat, Nat.one_shiftLeft, Nat.add_sub_cancel_left]
    rw [size, Bytes.take?_append]
    simp [Bytes.toNat_ofNat fits]

/-- A head begins with a byte of its kind, which is not that of an item without a length. -/
theorem exists_first_of_head {k : Kind} {argument : Nat} {b : Bytes}
    (h : head? k argument = some b) :
    ∃ first more, b = first :: more ∧ Kind.ofByte first = k ∧ first ≠ k.unsized := by
  rcases head?_eq_some h with ⟨small, rfl⟩ | ⟨width, bound, -, rfl⟩
  · exact ⟨_, _, rfl, ofByte_first k (by omega), first_ne_unsized k (by omega)⟩
  · exact ⟨_, _, rfl, ofByte_first k (by omega), first_ne_unsized k (by omega)⟩

/-! ## Contents -/

/-- Content after a head that gives its length. -/
theorem reads_whole {k : Kind} {content b : Bytes} (h : head? k content.length = some b) :
    Reads (readWhole? k) (b ++ content) (some content) := by
  intro rest
  rw [List.append_assoc, readWhole?, reads_head h]
  exact Bytes.take?_append content rest

theorem reads_content {k : Kind} {content b : Bytes} (h : head? k content.length = some b)
    (depth : Nat) : Reads (readContent? k depth) (b ++ content) (some content) := by
  cases depth with
  | zero => exact reads_whole h
  | succ depth =>
      intro rest
      obtain ⟨first, more, rfl, -, sized⟩ := exists_first_of_head h
      have whole := reads_whole h rest
      simp only [List.cons_append] at whole ⊢
      rw [readContent?, if_neg (by simpa using sized)]
      exact whole

theorem encodeBytes?_eq_some {content b : Bytes} (h : encodeBytes? content = some b) :
    ∃ head, head? .bytes content.length = some head ∧ b = head ++ content := by
  obtain ⟨head, written, same⟩ := Option.bind_eq_some_iff.mp h
  exact ⟨head, written, (Option.some.inj same).symm⟩

theorem encodeString?_eq_some {s : String} {b : Bytes} (h : encodeString? s = some b) :
    ∃ head, head? .text (Bytes.ofString s).length = some head ∧ b = head ++ Bytes.ofString s := by
  obtain ⟨head, written, same⟩ := Option.bind_eq_some_iff.mp h
  exact ⟨head, written, (Option.some.inj same).symm⟩

theorem reads_bytes {content b : Bytes} (h : encodeBytes? content = some b) (depth : Nat) :
    Reads (readBytes? depth) b (some content) := by
  obtain ⟨head, written, rfl⟩ := encodeBytes?_eq_some h
  exact reads_content written depth

theorem reads_text {s : String} {b : Bytes} (h : encodeString? s = some b) (depth : Nat) :
    Reads (readText? depth) b (some s) := by
  obtain ⟨head, written, rfl⟩ := encodeString?_eq_some h
  intro rest
  rw [readText?, reads_content written depth]
  simp

end Cbor

end Mandate

import Mathlib.Algebra.Group.Nat.Defs
import Mathlib.Data.List.GetD
import Mathlib.Data.List.Induction
import Mathlib.Data.List.TakeWhile
import Mandate.Text.Base58

/-!
# Digits, and the text of byte strings in base 58

A number has one list of digits without leading zeros, and every such list is that of a number. The bytes of
a byte string are digits as well, so that its text is a change of base; what neither number shows, the zeros
in front, is counted apart. Each byte string has one text and each text in use stands for one byte string.
-/

namespace Mandate

namespace Radix

section Leading

variable {α : Type} [BEq α] [LawfulBEq α] {a : α} {rest : List α}

theorem exists_leading (a : α) (l : List α) :
    ∃ count rest, l = List.replicate count a ++ rest ∧ rest.head? ≠ some a := by
  refine ⟨(l.takeWhile (· == a)).length, l.dropWhile (· == a), ?_, fun first => ?_⟩
  · have copies : l.takeWhile (· == a) = List.replicate (l.takeWhile (· == a)).length a :=
      List.eq_replicate_of_mem fun b mem => eq_of_beq (List.mem_takeWhile_imp (p := (· == a)) mem)
    rw [← copies, List.takeWhile_append_dropWhile]
  · have other := List.head?_dropWhile_not (· == a) l
    rw [first] at other
    simp at other

theorem takeWhile_replicate_append (other : rest.head? ≠ some a) (count : Nat) :
    (List.replicate count a ++ rest).takeWhile (· == a) = List.replicate count a := by
  rw [List.takeWhile_append_of_pos fun b mem => beq_iff_eq.mpr (List.eq_of_mem_replicate mem)]
  cases rest with
  | nil => simp
  | cons b rest =>
      have apart : (b == a) = false := by simpa using other
      simp [apart]

theorem dropWhile_replicate_append (other : rest.head? ≠ some a) (count : Nat) :
    (List.replicate count a ++ rest).dropWhile (· == a) = rest := by
  rw [List.dropWhile_append_of_pos fun b mem => beq_iff_eq.mpr (List.eq_of_mem_replicate mem)]
  cases rest with
  | nil => rfl
  | cons b rest =>
      have apart : (b == a) = false := by simpa using other
      simp [apart]

end Leading

variable {base width n d : Nat} {ds : List Nat}

@[simp] theorem toNat_nil : toNat base [] = 0 := rfl

@[simp] theorem toNat_concat : toNat base (ds ++ [d]) = toNat base ds * base + d := by
  simp [toNat]

theorem fixedOnto_eq (base width n : Nat) (rest : List Nat) :
    fixedOnto base width n rest = fixed base width n ++ rest := by
  induction width generalizing n rest with
  | zero => rfl
  | succ width ih =>
      rw [fixed, fixedOnto, fixedOnto, ih, ih (n / base) [n % base], List.append_assoc]
      rfl

@[simp] theorem fixed_zero : fixed base 0 n = [] := rfl

theorem fixed_succ : fixed base (width + 1) n = fixed base width (n / base) ++ [n % base] :=
  fixedOnto_eq base width (n / base) [n % base]

theorem lt_of_mem_fixed (positive : 0 < base) (mem : d ∈ fixed base width n) : d < base := by
  induction width generalizing n with
  | zero => cases mem
  | succ width ih =>
      rw [fixed_succ, List.mem_append, List.mem_singleton] at mem
      rcases mem with higher | rfl
      · exact ih higher
      · exact Nat.mod_lt n positive

theorem toNat_fixed (small : n < base ^ width) : toNat base (fixed base width n) = n := by
  induction width generalizing n with
  | zero => simp at small; simp [small]
  | succ width ih =>
      have higher : n / base < base ^ width := Nat.div_lt_of_lt_mul (by rwa [← Nat.pow_succ'])
      rw [fixed_succ, toNat_concat, ih higher, Nat.div_add_mod']

theorem fixed_toNat (bounded : ∀ d ∈ ds, d < base) : fixed base ds.length (toNat base ds) = ds := by
  induction ds using List.reverseRecOn with
  | nil => rfl
  | append_singleton ds d ih =>
      have last : d < base := bounded d (by simp)
      have quotient : (toNat base ds * base + d) / base = toNat base ds := by
        rw [Nat.add_comm, Nat.add_mul_div_right d _ (Nat.zero_lt_of_lt last),
          Nat.div_eq_of_lt last, Nat.zero_add]
      have remainder : (toNat base ds * base + d) % base = d := by
        rw [Nat.add_comm, Nat.add_mul_mod_self_right, Nat.mod_eq_of_lt last]
      rw [toNat_concat, List.length_append, List.length_singleton, fixed_succ, quotient, remainder,
        ih fun e mem => bounded e (List.mem_append_left _ mem)]

theorem toNat_lt (bounded : ∀ d ∈ ds, d < base) : toNat base ds < base ^ ds.length := by
  induction ds using List.reverseRecOn with
  | nil => simp
  | append_singleton ds d ih =>
      have last : d < base := bounded d (by simp)
      have higher : toNat base ds + 1 ≤ base ^ ds.length :=
        ih fun e mem => bounded e (List.mem_append_left _ mem)
      calc toNat base (ds ++ [d]) = toNat base ds * base + d := toNat_concat
        _ < (toNat base ds + 1) * base := by rw [Nat.succ_mul]; exact Nat.add_lt_add_left last _
        _ ≤ base ^ ds.length * base := Nat.mul_le_mul_right base higher
        _ = base ^ (ds ++ [d]).length := by simp [Nat.pow_succ]

/-- More digits than a number has are zeros in front. -/
theorem fixed_add (small : n < base ^ width) (more : Nat) :
    fixed base (more + width) n = List.replicate more 0 ++ fixed base width n := by
  induction width generalizing n with
  | zero =>
      obtain rfl : n = 0 := by simpa using small
      induction more with
      | zero => rfl
      | succ more ih =>
          rw [Nat.add_zero] at ih ⊢
          rw [fixed_succ, Nat.zero_div, ih]
          simp [List.replicate_succ']
  | succ width ih =>
      have higher : n / base < base ^ width := Nat.div_lt_of_lt_mul (by rwa [← Nat.pow_succ'])
      rw [← Nat.add_assoc, fixed_succ, ih higher, fixed_succ, List.append_assoc]

theorem dropWhile_fixed_of_le {wide : Nat} (small : n < base ^ width) (le : width ≤ wide) :
    (fixed base wide n).dropWhile (· == 0) = (fixed base width n).dropWhile (· == 0) := by
  obtain ⟨more, rfl⟩ := Nat.exists_eq_add_of_le' le
  rw [fixed_add small, List.dropWhile_append_of_pos]
  intro d mem
  rw [List.eq_of_mem_replicate mem, beq_self_eq_true]

theorem lt_pow_log2 (proper : 1 < base) (n : Nat) : n < base ^ (n.log2 + 1) :=
  Nat.lt_of_lt_of_le Nat.lt_log2_self (Nat.pow_le_pow_left proper _)

/-- As many digits as a number has room in show all of it. -/
theorem dropWhile_fixed (proper : 1 < base) (small : n < base ^ width) :
    (fixed base width n).dropWhile (· == 0) = digits base n := by
  rcases Nat.le_total width (n.log2 + 1) with le | le
  · exact (dropWhile_fixed_of_le small le).symm
  · exact dropWhile_fixed_of_le (lt_pow_log2 proper n) le

theorem toNat_replicate_append (count : Nat) :
    toNat base (List.replicate count 0 ++ ds) = toNat base ds := by
  induction count with
  | zero => rfl
  | succ count ih => simpa [toNat, List.replicate_succ] using ih

theorem toNat_dropWhile : toNat base (ds.dropWhile (· == 0)) = toNat base ds := by
  obtain ⟨count, rest, rfl, other⟩ := exists_leading 0 ds
  rw [dropWhile_replicate_append other, toNat_replicate_append]

theorem toNat_digits (proper : 1 < base) (n : Nat) : toNat base (digits base n) = n := by
  rw [digits, toNat_dropWhile, toNat_fixed (lt_pow_log2 proper n)]

/-- The digits of a number that is given by digits are those, without the zeros in front. -/
theorem digits_toNat (proper : 1 < base) (bounded : ∀ d ∈ ds, d < base) :
    digits base (toNat base ds) = ds.dropWhile (· == 0) := by
  rw [← dropWhile_fixed proper (toNat_lt bounded), fixed_toNat bounded]

theorem lt_of_mem_digits (proper : 1 < base) (mem : d ∈ digits base n) : d < base :=
  lt_of_mem_fixed (Nat.zero_lt_of_lt proper) (List.dropWhile_subset _ mem)

theorem head?_digits (base n : Nat) : (digits base n).head? ≠ some 0 := by
  obtain ⟨count, rest, split, other⟩ := exists_leading 0 (fixed base (n.log2 + 1) n)
  rwa [digits, split, dropWhile_replicate_append other]

end Radix

namespace Base58

variable {b : Bytes} {s : List Char} {count : Nat}

theorem digitValue?_digitChar : ∀ {d : Nat}, d < 58 → digitValue? (digitChar d) = some d := by
  decide

theorem digitChar_eq_one_iff : ∀ {d : Nat}, d < 58 → (digitChar d = '1' ↔ d = 0) := by
  decide

theorem digitChar_of_digitValue? {c : Char} {d : Nat} (h : digitValue? c = some d) :
    d < 58 ∧ digitChar d = c := by
  obtain ⟨small, same, -⟩ := List.idxOf?_eq_some_iff.mp h
  refine ⟨small, ?_⟩
  rw [digitChar, List.getD_eq_getElem (l := alphabet) '1' small, same]

theorem mapM_digitValue?_eq_some_iff {ds : List Nat} :
    s.mapM digitValue? = some ds ↔ (∀ d ∈ ds, d < 58) ∧ s = ds.map digitChar := by
  induction s generalizing ds with
  | nil => cases ds <;> simp
  | cons c s ih =>
      rw [List.mapM_cons]
      constructor
      · intro read
        obtain ⟨d, first, read⟩ := Option.bind_eq_some_iff.mp read
        obtain ⟨ds, others, ⟨⟩⟩ := Option.bind_eq_some_iff.mp read
        obtain ⟨small, rfl⟩ := digitChar_of_digitValue? first
        obtain ⟨bounded, rfl⟩ := ih.mp others
        exact ⟨List.forall_mem_cons.mpr ⟨small, bounded⟩, rfl⟩
      · rintro ⟨bounded, same⟩
        cases ds with
        | nil => cases same
        | cons d ds =>
            obtain ⟨rfl, rfl⟩ := List.cons.inj same
            obtain ⟨small, bounded⟩ := List.forall_mem_cons.mp bounded
            rw [digitValue?_digitChar small, ih.mpr ⟨bounded, rfl⟩]
            rfl

theorem toNat_eq (b : Bytes) : b.toNat = Radix.toNat 256 (b.map UInt8.toNat) :=
  List.foldl_map.symm

theorem map_toNat_map_ofNat {ds : List Nat} (bounded : ∀ d ∈ ds, d < 256) :
    (ds.map UInt8.ofNat).map UInt8.toNat = ds := by
  rw [List.map_map]
  exact (List.map_congr_left fun d mem => UInt8.toNat_ofNat_of_lt (bounded d mem)).trans ds.map_id

theorem encode_replicate_append {rest : Bytes} (other : rest.head? ≠ some 0) :
    encode (List.replicate count 0 ++ rest) =
      List.replicate count '1' ++ (Radix.digits 58 (Bytes.toNat rest)).map digitChar := by
  have zeros := Radix.takeWhile_replicate_append other count
  rw [encode, zeros, List.length_replicate, toNat_eq, toNat_eq, List.map_append,
    List.map_replicate, UInt8.toNat_zero, Radix.toNat_replicate_append]

theorem decode?_replicate_append {rest : List Char} (other : rest.head? ≠ some '1') :
    decode? (List.replicate count '1' ++ rest) = (rest.mapM digitValue?).bind fun ds =>
      let value := Radix.digits 256 (Radix.toNat 58 ds)
      if value.length ≤ capacity then some (List.replicate count 0 ++ value.map UInt8.ofNat)
      else none := by
  have ones := Radix.takeWhile_replicate_append other count
  have after : (List.replicate count '1' ++ rest).drop count = rest := by simp
  rw [decode?, ones, List.length_replicate, after]
  rfl

/-- The bytes of a byte string without zeros in front are the digits of its number. -/
theorem digits_toNat {rest : Bytes} (other : rest.head? ≠ some 0) :
    Radix.digits 256 (Bytes.toNat rest) = rest.map UInt8.toNat := by
  have bounded : ∀ d ∈ rest.map UInt8.toNat, d < 256 :=
    List.forall_mem_map.mpr fun byte _ => byte.toNat_lt
  have noZero : (rest.map UInt8.toNat).head? ≠ some 0 := by
    cases rest with
    | nil => simp
    | cons byte rest => simpa [← UInt8.toNat_inj] using other
  rw [toNat_eq, Radix.digits_toNat (by decide) bounded]
  exact Radix.dropWhile_replicate_append noZero 0

/-- A byte string is read from its text. -/
theorem decode?_encode (short : b.length ≤ capacity) : decode? (encode b) = some b := by
  obtain ⟨count, rest, rfl, other⟩ := Radix.exists_leading 0 b
  have small : ∀ d ∈ Radix.digits 58 (Bytes.toNat rest), d < 58 := fun d =>
    Radix.lt_of_mem_digits (by decide)
  have noOne : ((Radix.digits 58 (Bytes.toNat rest)).map digitChar).head? ≠ some '1' := by
    have noZero := Radix.head?_digits 58 (Bytes.toNat rest)
    cases ds : Radix.digits 58 (Bytes.toNat rest) with
    | nil => simp
    | cons d ds =>
        rw [ds] at noZero small
        simpa [digitChar_eq_one_iff (small d List.mem_cons_self)] using noZero
  have fits : (Radix.digits 256 (Bytes.toNat rest)).length ≤ capacity := by
    rw [digits_toNat other, List.length_map]
    exact Nat.le_trans (by simp) short
  have letters := mapM_digitValue?_eq_some_iff.mpr ⟨small, rfl⟩
  have same : (rest.map UInt8.toNat).map UInt8.ofNat = rest := by
    simp [List.map_map, Function.comp_def]
  rw [encode_replicate_append other, decode?_replicate_append noOne, letters, Option.bind_some,
    Radix.toNat_digits (by decide), if_pos fits, digits_toNat other, same]

/-- A text that is read as a byte string is the text of that byte string. -/
theorem eq_encode_of_decode? (h : decode? s = some b) : s = encode b := by
  obtain ⟨count, rest, rfl, other⟩ := Radix.exists_leading '1' s
  rw [decode?_replicate_append other] at h
  obtain ⟨ds, letters, made⟩ := Option.bind_eq_some_iff.mp h
  obtain ⟨small, rfl⟩ := mapM_digitValue?_eq_some_iff.mp letters
  obtain ⟨-, ⟨⟩⟩ := Option.ite_none_right_eq_some.mp made
  have noZero : ds.head? ≠ some 0 := by
    cases ds with
    | nil => simp
    | cons d ds => simpa [digitChar_eq_one_iff (small d List.mem_cons_self)] using other
  have back := map_toNat_map_ofNat fun d (mem : d ∈ Radix.digits 256 (Radix.toNat 58 ds)) =>
    Radix.lt_of_mem_digits (by decide) mem
  have noZeroByte : ((Radix.digits 256 (Radix.toNat 58 ds)).map UInt8.ofNat).head? ≠ some 0 := by
    intro first
    apply Radix.head?_digits 256 (Radix.toNat 58 ds)
    rw [← back, List.head?_map, first]
    rfl
  rw [encode_replicate_append noZeroByte, toNat_eq, back, Radix.toNat_digits (by decide),
    Radix.digits_toNat (by decide) small]
  exact congrArg (fun ds => _ ++ List.map digitChar ds)
    (Radix.dropWhile_replicate_append noZero 0).symm

end Base58

end Mandate

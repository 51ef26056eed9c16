import Mandate.Binary64
import Mathlib.Order.MinMax
import Mathlib.Tactic.NormNum

/-!
# Rounding keeps the order of integers

The pattern of the number nearest to an integer is its exponent above a significand between two powers of
two, so it grows with the integer: from one exponent to the next by the exponent, and within one exponent
by the significand. Below two to the power 53 nothing is rounded, and the order is strict.
-/

namespace Mandate.Binary64

theorem roundShift_bounds (n k : Nat) :
    n / 2 ^ k ≤ roundShift n k ∧ roundShift n k ≤ n / 2 ^ k + 1 := by
  simp only [roundShift, Nat.shiftRight_eq_div_pow]
  split
  · omega
  · split <;> omega

/-- Rounding a quotient keeps the order. -/
theorem roundShift_mono {n m : Nat} (k : Nat) (h : n ≤ m) : roundShift n k ≤ roundShift m k := by
  rcases Nat.lt_or_eq_of_le (Nat.div_le_div_right h : n / 2 ^ k ≤ m / 2 ^ k) with less | same
  · have most := (roundShift_bounds n k).2
    have least := (roundShift_bounds m k).1
    omega
  · have rests : n % 2 ^ k ≤ m % 2 ^ k := by
      have hn := Nat.div_add_mod n (2 ^ k)
      have hm := Nat.div_add_mod m (2 ^ k)
      rw [same] at hn
      omega
    simp only [roundShift, Nat.shiftRight_eq_div_pow, Nat.one_shiftLeft, same]
    generalize n % 2 ^ k = r at rests
    generalize m % 2 ^ k = t at rests
    repeat' split
    all_goals omega

/-- The significand of a natural number that is not zero, its leading bit included. -/
def scaled (n : Nat) : Nat :=
  if n.log2 ≤ 52 then n <<< (52 - n.log2) else roundShift n (n.log2 - 52)

theorem natBits_of_ne_zero {n : Nat} (h : n ≠ 0) :
    natBits n = min ((n.log2 + 1022) * 2 ^ 52 + scaled n) infinityBits := by
  simp only [natBits, h, if_false, Nat.shiftLeft_eq, scaled]

theorem scaled_bounds {n : Nat} (h : n ≠ 0) : 2 ^ 52 ≤ scaled n ∧ scaled n ≤ 2 ^ 53 := by
  have low := Nat.log2_self_le h
  have high := @Nat.lt_log2_self n
  unfold scaled
  split
  case isTrue small =>
    have width : 2 ^ n.log2 * 2 ^ (52 - n.log2) = 2 ^ 52 := by
      rw [← Nat.pow_add]
      congr 1
      omega
    rw [Nat.shiftLeft_eq]
    constructor
    · rw [← width]
      exact Nat.mul_le_mul_right _ low
    · calc n * 2 ^ (52 - n.log2) ≤ 2 ^ (n.log2 + 1) * 2 ^ (52 - n.log2) :=
            Nat.mul_le_mul_right _ high.le
        _ = 2 ^ 53 := by rw [Nat.pow_succ, Nat.mul_right_comm, width]; norm_num
  case isFalse large =>
    have whole : 2 ^ n.log2 = 2 ^ 52 * 2 ^ (n.log2 - 52) := by
      rw [← Nat.pow_add]
      congr 1
      omega
    obtain ⟨least, most⟩ := roundShift_bounds n (n.log2 - 52)
    have quotient : 2 ^ 52 ≤ n / 2 ^ (n.log2 - 52) := by
      rw [Nat.le_div_iff_mul_le (Nat.two_pow_pos _), ← whole]
      exact low
    have bound : n / 2 ^ (n.log2 - 52) < 2 ^ 53 := by
      rw [Nat.div_lt_iff_lt_mul (Nat.two_pow_pos _)]
      calc n < 2 ^ (n.log2 + 1) := high
        _ = 2 ^ 53 * 2 ^ (n.log2 - 52) := by rw [Nat.pow_succ, whole, Nat.mul_right_comm]; norm_num
    omega

/-- The significand is exact up to 53 bits. -/
theorem scaled_of_lt {n : Nat} (h : n ≠ 0) (small : n < 2 ^ 53) :
    n.log2 ≤ 52 ∧ scaled n = n * 2 ^ (52 - n.log2) := by
  have short : n.log2 ≤ 52 := by
    have := (Nat.log2_lt h).mpr small
    omega
  exact ⟨short, by rw [scaled, if_pos short, Nat.shiftLeft_eq]⟩

theorem log2_mono {n m : Nat} (hn : n ≠ 0) (h : n ≤ m) : n.log2 ≤ m.log2 := by
  have low := Nat.log2_self_le hn
  have high := @Nat.lt_log2_self m
  have := (Nat.pow_lt_pow_iff_right (by decide : 1 < 2)).mp (low.trans_lt (h.trans_lt high))
  omega

theorem scaled_mono {n m : Nat} (same : n.log2 = m.log2) (h : n ≤ m) : scaled n ≤ scaled m := by
  unfold scaled
  rw [same]
  split
  · simp only [Nat.shiftLeft_eq]
    exact Nat.mul_le_mul_right _ h
  · exact roundShift_mono _ h

/-- Rounding keeps the order of natural numbers. -/
theorem natBits_mono {n m : Nat} (h : n ≤ m) : natBits n ≤ natBits m := by
  by_cases hn : n = 0
  · simp [hn, natBits]
  · have hm : m ≠ 0 := by omega
    rw [natBits_of_ne_zero hn, natBits_of_ne_zero hm]
    apply min_le_min_right
    have bn := scaled_bounds hn
    have bm := scaled_bounds hm
    rcases Nat.lt_or_eq_of_le (log2_mono hn h) with less | same
    · omega
    · have := scaled_mono same h
      rw [same]
      omega

/-- Below two to the power 53 the order is strict. -/
theorem natBits_lt {n m : Nat} (small : n < 2 ^ 53) (h : n < m) : natBits n < natBits m := by
  have hm : m ≠ 0 := by omega
  have bm := (scaled_bounds hm).1
  rw [natBits_of_ne_zero hm]
  by_cases hn : n = 0
  · simp only [hn, natBits, if_true, infinityBits, Nat.shiftLeft_eq]
    omega
  · obtain ⟨short, exact⟩ := scaled_of_lt hn small
    have width : 2 ^ (n.log2 + 1) * 2 ^ (52 - n.log2) = 2 ^ 53 := by
      rw [← Nat.pow_add]
      congr 1
      omega
    have below : scaled n < 2 ^ 53 := by
      rw [exact, ← width]
      exact Nat.mul_lt_mul_of_pos_right Nat.lt_log2_self (Nat.two_pow_pos _)
    have finite : (n.log2 + 1022) * 2 ^ 52 + scaled n < infinityBits := by
      simp only [infinityBits, Nat.shiftLeft_eq]
      omega
    have grows : (n.log2 + 1022) * 2 ^ 52 + scaled n < (m.log2 + 1022) * 2 ^ 52 + scaled m := by
      rcases Nat.lt_or_eq_of_le (log2_mono hn h.le) with less | same
      · omega
      · have significands : scaled n < scaled m := by
          rw [exact, scaled, ← same, if_pos short, Nat.shiftLeft_eq]
          exact Nat.mul_lt_mul_of_pos_right h (Nat.two_pow_pos _)
        omega
    rw [natBits_of_ne_zero hn, min_eq_left finite.le]
    exact lt_min grows finite

theorem natBits_le_infinityBits (n : Nat) : natBits n ≤ infinityBits := by
  unfold natBits
  split
  · exact Nat.zero_le _
  · exact min_le_right _ _

theorem natBits_lt_sign (n : Nat) : natBits n < 2 ^ 63 :=
  (natBits_le_infinityBits n).trans_lt (by decide)

theorem toNat_bits_ofInt (n : Int) :
    (ofInt n).bits.toNat = natBits n.natAbs + if n < 0 then 2 ^ 63 else 0 := by
  have bound := natBits_lt_sign n.natAbs
  simp only [ofInt, UInt64.toNat_ofNat', Nat.one_shiftLeft]
  apply Nat.mod_eq_of_lt
  split <;> omega

theorem magnitude_ofInt (n : Int) : (ofInt n).magnitude = natBits n.natAbs := by
  have bound := natBits_lt_sign n.natAbs
  rw [magnitude, toNat_bits_ofInt, Nat.one_shiftLeft]
  split <;> omega

theorem isNegative_ofInt (n : Int) : (ofInt n).isNegative = decide (n < 0) := by
  have bound := natBits_lt_sign n.natAbs
  rw [isNegative, toNat_bits_ofInt, Nat.one_shiftLeft]
  by_cases h : n < 0
  · rw [if_pos h, decide_eq_true h]
    exact decide_eq_true (Nat.le_add_left _ _)
  · rw [if_neg h, decide_eq_false h]
    exact decide_eq_false (by omega)

@[simp] theorem isNaN_ofInt (n : Int) : (ofInt n).isNaN = false := by
  rw [isNaN, magnitude_ofInt]
  exact decide_eq_false (Nat.not_lt.mpr (natBits_le_infinityBits _))

/-- The rounded integer, read as a signed pattern. -/
theorem rank_ofInt (n : Int) :
    (ofInt n).rank = if n < 0 then -(natBits n.natAbs : Int) else natBits n.natAbs := by
  rw [rank, magnitude_ofInt, isNegative_ofInt]
  simp

/-- Rounding keeps the order of integers. -/
theorem rank_ofInt_mono {n m : Int} (h : n ≤ m) : (ofInt n).rank ≤ (ofInt m).rank := by
  rw [rank_ofInt, rank_ofInt]
  split
  case isTrue negative =>
    split
    · have := @natBits_mono m.natAbs n.natAbs (by omega)
      omega
    · omega
  case isFalse =>
    rw [if_neg (by omega)]
    have := @natBits_mono n.natAbs m.natAbs (by omega)
    omega

/-- Against an integer of at most 53 bits, rounding makes no integer seem smaller than it is. -/
theorem le_of_rank_ofInt_le {n m : Int} (low : -2 ^ 53 ≤ m) (high : m < 2 ^ 53)
    (h : (ofInt n).rank ≤ (ofInt m).rank) : n ≤ m := by
  by_contra exceeds
  rw [rank_ofInt, rank_ofInt] at h
  split at h
  case isTrue negative =>
    rw [if_pos (by omega)] at h
    have := @natBits_lt n.natAbs m.natAbs (by omega) (by omega)
    omega
  case isFalse =>
    split at h
    · have := @natBits_lt 0 m.natAbs (by omega) (by omega)
      omega
    · have := @natBits_lt m.natAbs n.natAbs (by omega) (by omega)
      omega

/-- Integers that round to numbers of one rank round to one number. -/
theorem ofInt_eq_of_rank_eq {n m : Int} (h : (ofInt n).rank = (ofInt m).rank) :
    ofInt n = ofInt m := by
  have zero : ∀ k : Int, natBits k.natAbs = 0 → ¬ k < 0 := by
    intro k none negative
    have := @natBits_lt 0 k.natAbs (by omega) (by omega)
    omega
  rw [rank_ofInt, rank_ofInt] at h
  have parts : natBits n.natAbs = natBits m.natAbs ∧ (n < 0 ↔ m < 0) := by
    split at h <;> split at h
    case isTrue.isTrue hn hm => exact ⟨by omega, iff_of_true hn hm⟩
    case isTrue.isFalse hn hm => exact (zero n (by omega) hn).elim
    case isFalse.isTrue hn hm => exact (zero m (by omega) hm).elim
    case isFalse.isFalse hn hm => exact ⟨by omega, iff_of_false hn hm⟩
  simp only [ofInt, parts.1, parts.2]

/-- Of two numbers, one is no less than the other if its rank is not. -/
theorem less_eq_false_iff {x y : Binary64} (hx : x.isNaN = false) (hy : y.isNaN = false) :
    x.less y = false ↔ y.rank ≤ x.rank := by
  simp [less, hx, hy]

end Mandate.Binary64

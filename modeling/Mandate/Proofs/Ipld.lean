import Mandate.Ipld

/-!
# Equality of linked data

Values that count as equal need not be the same: zeros have signs, and there are many values that are not
numbers. Equality is reflexive and transitive all the same.
-/

namespace Mandate

namespace Binary64

theorem same_refl (x : Binary64) : same x x = true := by
  unfold same
  cases x.isNaN <;> simp

theorem same_trans {x y z : Binary64} (h : same x y = true) (h' : same y z = true) :
    same x z = true := by
  unfold same at h h' ⊢
  cases hx : x.isNaN <;> cases hy : y.isNaN <;> cases hz : z.isNaN <;> simp_all

end Binary64

namespace Ipld

mutual

theorem equal_refl : (x : Ipld) → equal x x = true
  | null => rfl
  | bool a => beq_self_eq_true a
  | integer n => beq_self_eq_true n
  | float a => Binary64.same_refl a
  | string s => beq_self_eq_true s
  | bytes b => beq_self_eq_true b
  | list xs => equalItems_refl xs
  | map es => equalEntries_refl es
  | link _ => decide_eq_true rfl

theorem equalItems_refl : (xs : List Ipld) → equalItems xs xs = true
  | [] => rfl
  | x :: xs => by rw [equalItems, equal_refl x, equalItems_refl xs, Bool.and_self]

theorem equalEntries_refl : (es : List (String × Ipld)) → equalEntries es es = true
  | [] => rfl
  | (k, x) :: es => by
      rw [equalEntries, equal_refl x, equalEntries_refl es, beq_self_eq_true, Bool.and_self,
        Bool.and_self]

end

mutual

theorem equal_trans : (x y z : Ipld) → equal x y = true → equal y z = true → equal x z = true
  | null, y, z, h, h' => by cases y <;> cases z <;> simp_all [equal]
  | bool a, y, z, h, h' => by cases y <;> cases z <;> simp_all [equal]
  | integer n, y, z, h, h' => by cases y <;> cases z <;> simp_all [equal]
  | float a, y, z, h, h' => by
      cases y <;> simp only [equal, Bool.false_eq_true] at h
      cases z <;> simp only [equal, Bool.false_eq_true] at h'
      exact Binary64.same_trans h h'
  | string s, y, z, h, h' => by cases y <;> cases z <;> simp_all [equal]
  | bytes b, y, z, h, h' => by cases y <;> cases z <;> simp_all [equal]
  | list xs, y, z, h, h' => by
      cases y <;> simp only [equal, Bool.false_eq_true] at h
      cases z <;> simp only [equal, Bool.false_eq_true] at h'
      exact equalItems_trans xs _ _ h h'
  | map es, y, z, h, h' => by
      cases y <;> simp only [equal, Bool.false_eq_true] at h
      cases z <;> simp only [equal, Bool.false_eq_true] at h'
      exact equalEntries_trans es _ _ h h'
  | link c, y, z, h, h' => by cases y <;> cases z <;> simp_all [equal]

theorem equalItems_trans : (xs ys zs : List Ipld) → equalItems xs ys = true →
    equalItems ys zs = true → equalItems xs zs = true
  | [], ys, zs, h, h' => by cases ys <;> cases zs <;> simp_all [equalItems]
  | x :: xs, ys, zs, h, h' => by
      cases ys with
      | nil => simp [equalItems] at h
      | cons y ys =>
          cases zs with
          | nil => simp [equalItems] at h'
          | cons z zs =>
              simp only [equalItems, Bool.and_eq_true] at h h' ⊢
              exact ⟨equal_trans x y z h.1 h'.1, equalItems_trans xs ys zs h.2 h'.2⟩

theorem equalEntries_trans : (es fs gs : List (String × Ipld)) → equalEntries es fs = true →
    equalEntries fs gs = true → equalEntries es gs = true
  | [], fs, gs, h, h' => by cases fs <;> cases gs <;> simp_all [equalEntries]
  | (k, x) :: es, fs, gs, h, h' => by
      cases fs with
      | nil => simp [equalEntries] at h
      | cons f fs =>
          cases gs with
          | nil => simp [equalEntries] at h'
          | cons g gs =>
              obtain ⟨l, y⟩ := f
              obtain ⟨m, z⟩ := g
              simp only [equalEntries, Bool.and_eq_true, beq_iff_eq] at h h' ⊢
              exact ⟨⟨h.1.1.trans h'.1.1, equal_trans x y z h.1.2 h'.1.2⟩,
                equalEntries_trans es fs gs h.2 h'.2⟩

end

/-- A value that is equal to another value than a given text is not that text. -/
theorem ne_string_of_equal {x y : Ipld} {s : String} (h : (x == y) = true) (other : y ≠ .string s) :
    x ≠ .string s := by
  rintro rfl
  cases y <;> simp_all [BEq.beq, equal]

end Ipld

end Mandate

import Mandate.Proofs.Window
import Mathlib.Data.List.Perm.Basic

/-!
# Bounds on a line of times

Times stand at the odd places of a line. A bound that is part of its window stands at the place of its
time, an excluded one in the gap next to that, and an open one at the end of the line. No two bounds on one
side stand at one place, and the narrower of two is the one further in. So windows form a semilattice under
intersection, and the order in which windows are intersected does not matter.

Whether any time is left is another question, as two places need not have a time between them. A window is
called valid without a look at bounds that are excluded.
-/

namespace Mandate

namespace Bound

variable {a b c : Bound} {t : Timestamp}

/-- Where a lower bound stands, behind the place of a time that it excludes. -/
def placeFrom : Bound → Nat
  | unbounded => 0
  | included t => 2 * t.toNat + 1
  | excluded t => 2 * t.toNat + 2

/-- Where an upper bound stands, before the place of a time that it excludes. -/
def placeUntil : Bound → Nat
  | unbounded => 2 * UInt64.size
  | included t => 2 * t.toNat + 1
  | excluded t => 2 * t.toNat

theorem eq_of_placeFrom_eq (h : a.placeFrom = b.placeFrom) : a = b := by
  cases a <;> cases b <;>
    simp only [placeFrom, included.injEq, excluded.injEq, reduceCtorEq, ← UInt64.toNat_inj] at h ⊢ <;> omega

theorem eq_of_placeUntil_eq (h : a.placeUntil = b.placeUntil) : a = b := by
  cases a <;> cases b <;>
    simp only [placeUntil, included.injEq, excluded.injEq, reduceCtorEq, ← UInt64.toNat_inj] at h ⊢ <;>
    grind [UInt64.toNat_lt_size]

theorem placeUntil_le (b : Bound) : b.placeUntil ≤ 2 * UInt64.size := by
  cases b <;> simp only [placeUntil] <;> grind [UInt64.toNat_lt_size]

/-- The narrower of two lower bounds is the one further on. -/
theorem placeFrom_later : (a.later b).placeFrom = max a.placeFrom b.placeFrom := by
  cases a <;> cases b <;>
    simp only [later, max_eq, UInt64.le_iff_toNat_le] <;> (try split) <;> simp only [placeFrom] <;> omega

theorem placeUntil_earlier : (a.earlier b).placeUntil = min a.placeUntil b.placeUntil := by
  cases a with
  | unbounded => exact (Nat.min_eq_right b.placeUntil_le).symm
  | included s | excluded s =>
      cases b with
      | unbounded => exact (Nat.min_eq_left (placeUntil_le _)).symm
      | included t | excluded t =>
          simp only [earlier, min_eq, UInt64.le_iff_toNat_le]
          split <;> simp only [placeUntil] <;> omega

theorem later_comm : a.later b = b.later a :=
  eq_of_placeFrom_eq (by rw [placeFrom_later, placeFrom_later, Nat.max_comm])

theorem later_assoc : (a.later b).later c = a.later (b.later c) :=
  eq_of_placeFrom_eq (by simp only [placeFrom_later, Nat.max_assoc])

theorem later_self : a.later a = a :=
  eq_of_placeFrom_eq (by rw [placeFrom_later, Nat.max_self])

theorem later_unbounded : a.later unbounded = a :=
  eq_of_placeFrom_eq (by rw [placeFrom_later, placeFrom, Nat.max_zero])

theorem earlier_comm : a.earlier b = b.earlier a :=
  eq_of_placeUntil_eq (by rw [placeUntil_earlier, placeUntil_earlier, Nat.min_comm])

theorem earlier_assoc : (a.earlier b).earlier c = a.earlier (b.earlier c) :=
  eq_of_placeUntil_eq (by simp only [placeUntil_earlier, Nat.min_assoc])

theorem earlier_self : a.earlier a = a :=
  eq_of_placeUntil_eq (by rw [placeUntil_earlier, Nat.min_self])

theorem earlier_unbounded : a.earlier unbounded = a := by
  cases a <;> rfl

/-- The first time that a lower bound admits. -/
def first : Bound → Nat
  | unbounded => 0
  | included t => t.toNat
  | excluded t => t.toNat + 1

/-- The first time that an upper bound no longer admits. -/
def past : Bound → Nat
  | unbounded => UInt64.size
  | included t => t.toNat + 1
  | excluded t => t.toNat

theorem admitsFrom_iff : a.admitsFrom t = true ↔ a.first ≤ t.toNat := by
  cases a with
  | unbounded => exact iff_of_true rfl (Nat.zero_le _)
  | included s => exact decide_eq_true_iff.trans UInt64.le_iff_toNat_le
  | excluded s =>
      rw [first, ← Nat.lt_iff_add_one_le, ← UInt64.lt_iff_toNat_lt]
      exact decide_eq_true_iff

theorem admitsUntil_iff : a.admitsUntil t = true ↔ t.toNat < a.past := by
  cases a with
  | unbounded => exact iff_of_true rfl t.toNat_lt_size
  | included s =>
      rw [past, Nat.lt_add_one_iff, ← UInt64.le_iff_toNat_le]
      exact decide_eq_true_iff
  | excluded s => exact decide_eq_true_iff.trans UInt64.lt_iff_toNat_lt

theorem past_le_size (b : Bound) : b.past ≤ UInt64.size := by
  cases b <;> simp only [past] <;> grind [UInt64.toNat_lt_size]

/-- Whether it is left out of the window that it bounds. -/
def isExcluded : Bound → Bool
  | excluded _ => true
  | _ => false

theorem isExcluded_later (ha : a.isExcluded = false) (hb : b.isExcluded = false) :
    (a.later b).isExcluded = false := by
  cases a <;> cases b <;> simp_all [isExcluded, later]

theorem isExcluded_earlier (ha : a.isExcluded = false) (hb : b.isExcluded = false) :
    (a.earlier b).isExcluded = false := by
  cases a <;> cases b <;> simp_all [isExcluded, earlier]

end Bound

namespace Window

variable {v w : Window} {t : Timestamp}

theorem check_intersect_eq_ok_iff :
    (v.intersect w).check t = .ok () ↔ v.check t = .ok () ∧ w.check t = .ok () := by
  simp only [check_eq_ok_iff, contains_intersect, Bool.and_eq_true]

instance : Std.Commutative intersect :=
  ⟨fun _ _ => congrArg₂ mk Bound.later_comm Bound.earlier_comm⟩

instance : Std.Associative intersect :=
  ⟨fun _ _ _ => congrArg₂ mk Bound.later_assoc Bound.earlier_assoc⟩

instance : Std.IdempotentOp intersect :=
  ⟨fun _ => congrArg₂ mk Bound.later_self Bound.earlier_self⟩

theorem intersect_unbounded (w : Window) : w.intersect unbounded = w :=
  congrArg₂ mk Bound.later_unbounded Bound.earlier_unbounded

theorem unbounded_intersect (w : Window) : unbounded.intersect w = w :=
  (Std.Commutative.comm unbounded w).trans (intersect_unbounded w)

/-- Intersecting is exact at every time, a time is checked as it is contained, and neither order nor
repetition matter, however many windows are intersected. -/
theorem intersect_exact (u v w : Window) (t : Timestamp) :
    ((v.intersect w).check t = .ok () ↔ v.check t = .ok () ∧ w.check t = .ok ()) ∧
    (w.check t = .ok () ↔ w.contains t = true) ∧
    v.intersect w = w.intersect v ∧
    (u.intersect v).intersect w = u.intersect (v.intersect w) ∧
    w.intersect w = w ∧
    w.intersect unbounded = w ∧ unbounded.intersect w = w ∧
    ∀ vs ws : List Window, vs.Perm ws → vs.foldl intersect u = ws.foldl intersect u :=
  ⟨check_intersect_eq_ok_iff, check_eq_ok_iff, Std.Commutative.comm v w, Std.Associative.assoc u v w,
    Std.IdempotentOp.idempotent w, intersect_unbounded w, unbounded_intersect w,
    fun _ _ order => order.foldl_op_eq⟩

/-- Three windows with bounds of each kind, intersected in one order and in the reverse one. -/
theorem intersect_exact_reversed :
    [between (some 3) (some 9), ⟨.excluded 3, .unbounded⟩, ⟨.unbounded, .excluded 9⟩].foldl intersect
        unbounded = ⟨.excluded 3, .excluded 9⟩ ∧
    [⟨.unbounded, .excluded 9⟩, ⟨.excluded 3, .unbounded⟩, between (some 3) (some 9)].foldl intersect
        unbounded = ⟨.excluded 3, .excluded 9⟩ := by
  have ordered := (intersect_exact unbounded unbounded unbounded 0).2.2.2.2.2.2.2
  exact ⟨rfl, ordered _ _ (List.reverse_perm [between (some 3) (some 9), ⟨.excluded 3, .unbounded⟩,
    ⟨.unbounded, .excluded 9⟩])⟩

/-! ## Whether any time is left -/

theorem contains_iff : w.contains t = true ↔ w.notBefore.first ≤ t.toNat ∧ t.toNat < w.expiration.past := by
  rw [contains, Bool.and_eq_true, Bound.admitsFrom_iff, Bound.admitsUntil_iff]

/-- A time is left if the first time that the lower bound admits is still admitted by the upper one. -/
theorem exists_check_iff : (∃ t, w.check t = .ok ()) ↔ w.notBefore.first < w.expiration.past := by
  simp only [check_eq_ok_iff, contains_iff]
  constructor
  · rintro ⟨t, early, late⟩
    exact Nat.lt_of_le_of_lt early late
  · intro left
    have small : w.notBefore.first < UInt64.size := Nat.lt_of_lt_of_le left w.expiration.past_le_size
    refine ⟨UInt64.ofNat w.notBefore.first, ?_⟩
    rw [UInt64.toNat_ofNat_of_lt' small]
    exact ⟨Nat.le_refl _, left⟩

/-- Whether neither bound is excluded, as in the windows of delegations. -/
def isClosed (w : Window) : Bool := !w.notBefore.isExcluded && !w.expiration.isExcluded

theorem isClosed_intersect (hv : v.isClosed = true) (hw : w.isClosed = true) :
    (v.intersect w).isClosed = true := by
  simp only [isClosed, Bool.and_eq_true, Bool.not_eq_true'] at hv hw ⊢
  exact ⟨Bound.isExcluded_later hv.1 hw.1, Bound.isExcluded_earlier hv.2 hw.2⟩

theorem isClosed_foldl {ws : List Window} (hv : v.isClosed = true) (hws : ∀ w ∈ ws, w.isClosed = true) :
    (ws.foldl intersect v).isClosed = true :=
  List.foldlRecOn (motive := fun v => v.isClosed = true) ws intersect hv
    fun _ hu w mem => isClosed_intersect hu (hws w mem)

theorem isValid_iff_first_lt_past :
    w.isValid = true ↔ w.notBefore.first < w.expiration.past ∨ w.isClosed = false := by
  obtain ⟨start, finish⟩ := w
  cases start with
  | unbounded => cases finish <;> simp [isValid, isClosed, Bound.isExcluded, Bound.first, Bound.past]
  | included s =>
      cases finish with
      | unbounded => exact iff_of_true rfl (Or.inl s.toNat_lt_size)
      | included e =>
          have order : (s.toNat < e.toNat + 1) = (s ≤ e) := by
            rw [Nat.lt_add_one_iff, ← UInt64.le_iff_toNat_le]
          simp [isValid, isClosed, Bound.isExcluded, Bound.first, Bound.past, order]
      | excluded _ => exact iff_of_true rfl (Or.inr rfl)
  | excluded s => exact iff_of_true rfl (Or.inr rfl)

/-- A window is called valid exactly if some time is left in it or one of its bounds is excluded. So what is
intersected from windows with no excluded bound is valid exactly if some time is left. -/
theorem isValid_iff (w : Window) :
    (w.isValid = true ↔ (∃ t, w.check t = .ok ()) ∨ w.isClosed = false) ∧
    ((∃ t, w.check t = .ok ()) ↔ w.notBefore.first < w.expiration.past) ∧
    ∀ ws : List Window, (∀ w ∈ ws, w.isClosed = true) →
      ((ws.foldl intersect unbounded).isValid = true ↔
        ∃ t, (ws.foldl intersect unbounded).check t = .ok ()) := by
  have valid : ∀ w : Window, w.isValid = true ↔ (∃ t, w.check t = .ok ()) ∨ w.isClosed = false :=
    fun w => by rw [exists_check_iff, isValid_iff_first_lt_past]
  refine ⟨valid w, exists_check_iff, fun ws closed => ?_⟩
  rw [valid, isClosed_foldl rfl closed]
  simp

theorem isValid_iff_crossed :
    ([between (some 300) none, between none (some 200)].foldl intersect unbounded).isValid = false ∧
    ¬ ∃ t, ([between (some 300) none, between none (some 200)].foldl intersect unbounded).check t =
      .ok () := by
  have closed : ∀ w ∈ [between (some 300) none, between none (some 200)], w.isClosed = true := by decide
  have exact := (isValid_iff unbounded).2.2 _ closed
  exact ⟨rfl, fun left => Bool.noConfusion (exact.mpr left)⟩

/-- Between five, which is excluded, and five there is no time, but the window is called valid. -/
theorem isValid_without_time :
    ∃ w, w = intersect ⟨.excluded 5, .unbounded⟩ ⟨.unbounded, .included 5⟩ ∧
      w.isValid = true ∧ ¬ ∃ t, w.check t = .ok () :=
  ⟨_, rfl, rfl, fun left => absurd (exists_check_iff.mp left) (by decide)⟩

end Window

end Mandate

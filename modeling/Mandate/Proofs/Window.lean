import Mandate.Window

/-!
# Windows as sets of times

A window is read in two ways, as the times that it contains and as the check of a time, which agree. The
times that the intersection of windows contains are those that each of the windows contains, whichever of
the bounds are open, included or excluded.
-/

namespace Mandate

namespace Bound

variable {a b : Bound} {t : Timestamp}

theorem max_eq (s t : Timestamp) : max s t = if s ≤ t then t else s := rfl

theorem min_eq (s t : Timestamp) : min s t = if s ≤ t then s else t := rfl

/-- The narrower of two lower bounds admits the times that both admit. -/
theorem admitsFrom_later : (a.later b).admitsFrom t = (a.admitsFrom t && b.admitsFrom t) := by
  cases a <;> cases b <;> simp only [later, admitsFrom, max_eq] <;> grind

theorem admitsUntil_earlier : (a.earlier b).admitsUntil t = (a.admitsUntil t && b.admitsUntil t) := by
  cases a <;> cases b <;> simp only [earlier, admitsUntil, min_eq] <;> grind

end Bound

namespace Window

variable {v w : Window} {t : Timestamp}

/-- The two readings of a window agree. -/
theorem check_eq_ok_iff : w.check t = .ok () ↔ w.contains t = true := by
  obtain ⟨start, finish⟩ := w
  cases start <;> cases finish <;>
    simp only [check, contains, Bound.admitsFrom, Bound.admitsUntil, Bool.and_eq_true,
      decide_eq_true_eq, Bool.true_and, Bool.and_true] <;>
    (repeat' split) <;> simp_all [UInt64.not_lt, UInt64.not_le]

theorem contains_intersect : (v.intersect w).contains t = (v.contains t && w.contains t) := by
  simp only [contains, intersect, Bound.admitsFrom_later, Bound.admitsUntil_earlier, Bool.and_assoc,
    Bool.and_left_comm]

@[simp] theorem contains_unbounded (t : Timestamp) : unbounded.contains t = true := rfl

/-- The intersection of some windows, one after the other. -/
def intersectAll (ws : List Window) : Window := ws.foldr intersect unbounded

/-- It contains the times that all of them contain. -/
theorem contains_intersectAll_iff {ws : List Window} :
    (intersectAll ws).contains t = true ↔ ∀ w ∈ ws, w.contains t = true := by
  induction ws with
  | nil => simp [intersectAll]
  | cons w ws ih =>
      rw [List.forall_mem_cons, ← ih, intersectAll, List.foldr_cons, contains_intersect, Bool.and_eq_true]
      rfl

end Window

end Mandate

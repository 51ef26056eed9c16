import Mandate.Failure
import Mathlib.Data.List.Basic

/-!
# The outline of a failure

A failure with its causes is a tree, and a node of it has an address: which cause to follow, and which of the
causes of that, down to the node. The outline has all nodes in the order of their addresses, each node before its
causes. A walk that keeps what is still to come on a stack yields just these and ends.
-/

namespace Mandate.Failure

/-! ## Nodes and their addresses -/

theorem sizeOf_cause_lt {f c : Failure} (h : c ∈ f.causes) : sizeOf c < sizeOf f := by
  cases f with
  | invalidClaim claim causes | unauthorized capability causes =>
      have smaller : sizeOf c < sizeOf causes := List.sizeOf_lt_of_mem h
      simp only [invalidClaim.sizeOf_spec, unauthorized.sizeOf_spec]
      omega
  | _ => cases h

/-- What holds of a failure if it holds of its causes holds of every failure. -/
@[elab_as_elim]
theorem induct {P : Failure → Prop} (step : ∀ f, (∀ c ∈ f.causes, P c) → P f) (f : Failure) : P f :=
  step f fun c _ => induct step c
termination_by sizeOf f
decreasing_by exact sizeOf_cause_lt (by assumption)

/-- The node with an address: each number says which cause to follow. -/
def node? : Failure → List Nat → Option Failure
  | f, [] => some f
  | f, i :: rest => f.causes[i]?.bind fun c => node? c rest

mutual

/-- The nodes of a failure with their addresses, each before its causes. -/
def outline : Failure → List (List Nat × Failure)
  | invalidClaim claim causes => ([], invalidClaim claim causes) :: outlineFrom 0 causes
  | unauthorized capability causes => ([], unauthorized capability causes) :: outlineFrom 0 causes
  | f => [([], f)]

def outlineFrom : (index : Nat) → List Failure → List (List Nat × Failure)
  | _, [] => []
  | index, f :: fs => (outline f).map (fun e => (index :: e.1, e.2)) ++ outlineFrom (index + 1) fs

end

section

variable {f g : Failure} {fs : List Failure} {p : List Nat} {i : Nat}

theorem outline_eq (f : Failure) : f.outline = ([], f) :: outlineFrom 0 f.causes := by
  cases f <;> rfl

theorem walk_eq (f : Failure) : f.walk = f :: walkAll f.causes := by
  cases f <;> rfl

theorem walk_ne_nil : f.walk ≠ [] := by
  rw [walk_eq]
  exact List.cons_ne_nil _ _

theorem mem_walkAll : g ∈ walkAll fs ↔ ∃ f ∈ fs, g ∈ f.walk := by
  induction fs with
  | nil => simp [walkAll]
  | cons f fs ih => simp [walkAll, ih]

theorem map_snd_outlineFrom (h : ∀ f ∈ fs, f.outline.map (·.2) = f.walk) :
    (outlineFrom i fs).map (·.2) = walkAll fs := by
  induction fs generalizing i with
  | nil => rfl
  | cons f fs ih =>
      obtain ⟨first, others⟩ := List.forall_mem_cons.mp h
      rw [outlineFrom, walkAll, List.map_append, List.map_map, ih others, ← first]
      rfl

/-- The outline has the nodes in the order of the walk. -/
theorem map_snd_outline (f : Failure) : f.outline.map (·.2) = f.walk := by
  induction f using induct with
  | step f ih => rw [outline_eq, walk_eq, List.map_cons, map_snd_outlineFrom ih]

theorem mem_outlineFrom_iff : (p, g) ∈ outlineFrom i fs ↔
    ∃ j q c, p = (i + j) :: q ∧ fs[j]? = some c ∧ (q, g) ∈ c.outline := by
  induction fs generalizing i with
  | nil => simp [outlineFrom]
  | cons f fs ih =>
      rw [outlineFrom, List.mem_append, List.mem_map, ih]
      constructor
      · rintro (⟨⟨q, n⟩, mem, same⟩ | ⟨j, q, c, rfl, found, mem⟩)
        · cases same
          exact ⟨0, q, f, rfl, rfl, mem⟩
        · exact ⟨j + 1, q, c, by rw [Nat.add_right_comm, Nat.add_assoc], found, mem⟩
      · rintro ⟨j, q, c, rfl, found, mem⟩
        cases j with
        | zero =>
            cases found
            exact .inl ⟨(q, g), mem, rfl⟩
        | succ j => exact .inr ⟨j, q, c, by rw [Nat.add_right_comm, Nat.add_assoc], found, mem⟩

/-- The outline has every node under its address. -/
theorem mem_outline_iff : (p, g) ∈ f.outline ↔ f.node? p = some g := by
  induction f using induct generalizing p with
  | step f ih =>
      rw [outline_eq, List.mem_cons, mem_outlineFrom_iff]
      cases p with
      | nil => simp [node?, eq_comm]
      | cons k q =>
          simp only [Prod.mk.injEq, reduceCtorEq, false_and, false_or, Nat.zero_add, List.cons.injEq, node?,
            Option.bind_eq_some_iff]
          constructor
          · rintro ⟨j, r, c, ⟨rfl, rfl⟩, found, mem⟩
            exact ⟨c, found, (ih c (List.mem_of_getElem? found)).mp mem⟩
          · rintro ⟨c, found, node⟩
            exact ⟨k, q, c, ⟨rfl, rfl⟩, found, (ih c (List.mem_of_getElem? found)).mpr node⟩

theorem pairwise_outlineFrom (h : ∀ f ∈ fs, f.outline.Pairwise fun a b => a.1 < b.1) :
    (outlineFrom i fs).Pairwise fun a b => a.1 < b.1 := by
  induction fs generalizing i with
  | nil => exact .nil
  | cons f fs ih =>
      obtain ⟨first, others⟩ := List.forall_mem_cons.mp h
      rw [outlineFrom, List.pairwise_append, List.pairwise_map]
      refine ⟨first.imp fun less => List.cons_lt_cons_self.mpr less, ih others, ?_⟩
      rintro a left ⟨q, n⟩ right
      obtain ⟨e, -, rfl⟩ := List.mem_map.mp left
      obtain ⟨j, r, c, rfl, -, -⟩ := mem_outlineFrom_iff.mp right
      exact List.cons_lt_cons_iff.mpr (.inl (by omega))

/-- The addresses increase: a node comes before its causes, and these one after the other. -/
theorem pairwise_outline (f : Failure) : f.outline.Pairwise fun a b => a.1 < b.1 := by
  induction f using induct with
  | step f ih =>
      rw [outline_eq, List.pairwise_cons]
      refine ⟨?_, pairwise_outlineFrom ih⟩
      rintro ⟨p, n⟩ mem
      obtain ⟨j, q, c, rfl, -, -⟩ := mem_outlineFrom_iff.mp mem
      exact List.nil_lt_cons _ _

end

/-! ## Walking with a stack -/

/-- What a walk does next: it takes the last of the failures that are pending, and puts the causes of it back,
the first one last. -/
def next? (pending : List Failure) : Option (Failure × List Failure) :=
  pending.getLast?.map fun f => (f, pending.dropLast ++ f.causes.reverse)

/-- The walk through what is pending yields some failures and ends. -/
inductive Yields : (pending fs : List Failure) → Prop
  | done {pending : List Failure} (h : next? pending = none) : Yields pending []
  | more {pending later fs : List Failure} {f : Failure} (h : next? pending = some (f, later))
      (rest : Yields later fs) : Yields pending (f :: fs)

section

variable {pending fs gs : List Failure}

theorem Yields.unique (first : Yields pending fs) (second : Yields pending gs) : fs = gs := by
  induction first generalizing gs with
  | done none =>
      cases second with
      | done => rfl
      | more some => rw [none] at some; cases some
  | more some _ ih =>
      cases second with
      | done none => rw [some] at none; cases none
      | more same rest =>
          rw [some] at same
          cases same
          rw [ih rest]

theorem yields_walkAll {cs : List Failure}
    (each : ∀ c ∈ cs, ∀ pending fs, Yields pending fs → Yields (pending ++ [c]) (c.walk ++ fs))
    (below : Yields pending fs) : Yields (pending ++ cs.reverse) (walkAll cs ++ fs) := by
  induction cs with
  | nil => simpa [walkAll] using below
  | cons c cs ih =>
      obtain ⟨first, others⟩ := List.forall_mem_cons.mp each
      rw [List.reverse_cons, ← List.append_assoc, walkAll, List.append_assoc (walk c)]
      exact first _ _ (ih others)

/-- A walk goes through all of the failure on top before what is pending below. -/
theorem yields_walk_append (f : Failure) (below : Yields pending fs) :
    Yields (pending ++ [f]) (f.walk ++ fs) := by
  -- generalized to any stack below, so that the causes of a failure can be walked one on top of the other
  induction f using induct generalizing pending fs with
  | step f ih =>
      have next : next? (pending ++ [f]) = some (f, pending ++ f.causes.reverse) := by
        simp [next?]
      rw [walk_eq, List.cons_append]
      exact .more next (yields_walkAll (fun c mem _ _ => ih c mem) below)

theorem yields_iff (f : Failure) : Yields [f] fs ↔ fs = f.walk := by
  have walked : Yields [f] f.walk := by
    simpa using yields_walk_append f (.done rfl : Yields [] [])
  constructor
  · exact fun other => other.unique walked
  · rintro rfl
    exact walked

end

end Mandate.Failure

import Mandate.Store

/-!
# Looking up linked proofs

A resolver fetches the delegations that are cited by address only. It knows finitely many delegations and
fetches no others.
-/

namespace Mandate

structure Resolver where
  /-- The delegation for an address, or why there is none. -/
  fetch : Cid → Except String Delegation
  known : List Delegation
  fetch_mem : ∀ {c d}, fetch c = .ok d → d ∈ known

namespace Resolver

theorem mem_values_of_lookup {t : List (Cid × Delegation)} {c : Cid} {d : Delegation}
    (h : t.lookup c = some d) : d ∈ t.map (·.2) := by
  induction t with
  | nil => simp at h
  | cons entry rest ih =>
    obtain ⟨k, v⟩ := entry
    simp only [List.lookup_cons] at h
    split at h
    · simp_all
    · exact List.mem_cons_of_mem _ (ih h)

/-- Fetches from a store. -/
def ofStore (s : Store) : Resolver where
  fetch c := match s.get? c with
    | some d => .ok d
    | none => .error (Store.missingMessage c)
  known := s.delegations.map (·.2)
  fetch_mem := by
    intro c d h
    split at h
    · cases h
      exact mem_values_of_lookup ‹_›
    · cases h

/-- Fetches nothing, for the same reason always. -/
def failing (reason : String) : Resolver where
  fetch _ := .error reason
  known := []
  fetch_mem := by
    intro c d h
    cases h

/-- Gives some answers in place of another resolver, which need not be the delegations asked for. -/
def withAnswers (answers : Table Cid Delegation) (r : Resolver) : Resolver where
  fetch c := match answers.lookup c with
    | some d => .ok d
    | none => r.fetch c
  known := answers.map (·.2) ++ r.known
  fetch_mem := by
    intro c d h
    split at h
    · cases h
      exact List.mem_append_left _ (mem_values_of_lookup ‹_›)
    · exact List.mem_append_right _ (r.fetch_mem h)

end Resolver

end Mandate

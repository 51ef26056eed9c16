import Mandate.Proofs.Delegation
import Mandate.Store

/-!
# What a store holds

A store that delegations were inserted into, in any order, has a copy at the address of each of them and of
everything attached to them, and nothing else. Which copy it is may depend on the order.
-/

namespace Mandate

namespace Store

open Delegation

variable {c : Cid} {d e q : Delegation}

/-! ## What one insertion finds -/

mutual

/-- What is found in a delegation is a part of it, at its own address. -/
theorem mem_gather : (d : Delegation) → {found : List (Cid × Delegation)} →
    (c, q) ∈ gather d found → (c, q) ∈ found ∨ q ∈ d.nested ∧ q.cid = c
  | ⟨payload, signature, bytes, cid, blocks⟩, found, mem => by
      rw [gather] at mem
      rw [nested]
      split at mem
      · exact (mem_gatherBlocks blocks mem).imp_right (And.imp_left (List.mem_cons_of_mem _))
      · rcases List.mem_cons.mp mem with same | mem
        · obtain ⟨rfl, rfl⟩ := Prod.mk.inj same
          exact Or.inr ⟨List.mem_cons_self, rfl⟩
        · exact (mem_gatherBlocks blocks mem).imp_right (And.imp_left (List.mem_cons_of_mem _))

theorem mem_gatherBlocks : (blocks : List (Cid × Delegation)) → {found : List (Cid × Delegation)} →
    (c, q) ∈ gatherBlocks blocks found → (c, q) ∈ found ∨ q ∈ nestedOfBlocks blocks ∧ q.cid = c
  | [], found, mem => Or.inl mem
  | (_, d) :: rest, found, mem => by
      rw [gatherBlocks] at mem
      rw [nestedOfBlocks]
      rcases mem_gatherBlocks rest mem with mem | ⟨inner, same⟩
      · exact (mem_gather d mem).imp_right (And.imp_left (List.mem_append_left _))
      · exact Or.inr ⟨List.mem_append_right _ inner, same⟩

end

mutual

/-- There is something at the address of each part of a delegation, and where there was before. -/
theorem isSome_lookup_gather : (d : Delegation) → (found : List (Cid × Delegation)) →
    ((gather d found).lookup c).isSome ↔ (found.lookup c).isSome ∨ ∃ e ∈ d.nested, e.cid = c
  | ⟨payload, signature, bytes, cid, blocks⟩, found => by
      rw [gather, nested]
      have inner := isSome_lookup_gatherBlocks blocks found
      by_cases same : c = cid
      · subst same
        have here : ((if ((gatherBlocks blocks found).lookup c).isSome = true
            then gatherBlocks blocks found
            else (c, ⟨payload, signature, bytes, c, blocks⟩) :: gatherBlocks blocks found).lookup
              c).isSome = true := by
          split
          case isTrue h => exact h
          case isFalse => simp
        simp [here]
      · have differ : (c == cid) = false := by simpa using same
        have unchanged : ((if ((gatherBlocks blocks found).lookup cid).isSome = true
            then gatherBlocks blocks found
            else (cid, ⟨payload, signature, bytes, cid, blocks⟩) :: gatherBlocks blocks found).lookup
              c) = (gatherBlocks blocks found).lookup c := by
          split
          · rfl
          · rw [List.lookup_cons, differ]
        rw [unchanged, inner]
        simp [Ne.symm same]

theorem isSome_lookup_gatherBlocks : (blocks : List (Cid × Delegation)) →
    (found : List (Cid × Delegation)) →
      ((gatherBlocks blocks found).lookup c).isSome ↔
        (found.lookup c).isSome ∨ ∃ e ∈ nestedOfBlocks blocks, e.cid = c
  | [], found => by simp [gatherBlocks, nestedOfBlocks]
  | (_, d) :: rest, found => by
      rw [gatherBlocks, isSome_lookup_gatherBlocks rest, isSome_lookup_gather d, nestedOfBlocks]
      simp only [List.mem_append, or_and_right, exists_or, or_assoc]

end

/-! ## What a history of insertions leaves -/

/-- The store that some delegations were inserted into, one after the other. -/
def ofInsertions (ds : List Delegation) : Store := ds.foldl insert .empty

theorem foldl_insert (ds : List Delegation) (s : Store) :
    (∀ c q, (c, q) ∈ (ds.foldl insert s).delegations →
      (c, q) ∈ s.delegations ∨ ∃ d ∈ ds, q ∈ d.nested ∧ q.cid = c) ∧
    ∀ c, ((ds.foldl insert s).get? c).isSome ↔
      (s.get? c).isSome ∨ ∃ d ∈ ds, ∃ e ∈ d.nested, e.cid = c := by
  induction ds generalizing s with
  | nil => exact ⟨fun c q mem => Or.inl mem, fun c => by simp⟩
  | cons d ds ih =>
      obtain ⟨held, answers⟩ := ih (s.insert d)
      refine ⟨?_, ?_⟩
      · intro c q mem
        rcases held c q mem with inserted | ⟨d', hd', part⟩
        · rcases Table.mem_override inserted with old | new
          · exact Or.inl old
          · rcases mem_gather d new with none | part
            · cases none
            · exact Or.inr ⟨d, List.mem_cons_self, part⟩
        · exact Or.inr ⟨d', List.mem_cons_of_mem _ hd', part⟩
      · intro c
        have one : ((s.insert d).get? c).isSome ↔
            (s.get? c).isSome ∨ ∃ e ∈ d.nested, e.cid = c := by
          rw [get?, insert, Table.isSome_lookup_override, isSome_lookup_gather]
          simp [get?]
        rw [List.foldl_cons, answers, one]
        simp only [List.mem_cons, exists_eq_or_imp, or_assoc]

/-- A store only gives parts of what was inserted, each at its own address. -/
theorem mem_of_get? {ds : List Delegation} (h : (ofInsertions ds).get? c = some q) :
    ∃ d ∈ ds, q ∈ d.nested ∧ q.cid = c := by
  rcases (foldl_insert ds empty).1 c q (Table.mem_of_lookup h) with none | part
  · cases none
  · exact part

/-- A store has something at the address of every part of what was inserted. -/
theorem exists_get? {ds : List Delegation} (hd : d ∈ ds) (he : e ∈ d.nested) :
    ∃ q, (ofInsertions ds).get? e.cid = some q :=
  Option.isSome_iff_exists.mp (((foldl_insert ds empty).2 e.cid).mpr (Or.inr ⟨d, hd, e, he, rfl⟩))

end Store

end Mandate

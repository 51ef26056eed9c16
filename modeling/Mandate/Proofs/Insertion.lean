import Mandate.Proofs.Attached
import Mandate.Proofs.Obtained
import Mandate.Proofs.Representation
import Mathlib.Data.Finset.Card

/-!
# Insertion by a list of what is pending

A store inserts a delegation in rounds: one that is pending is put at its address, over what was there, and
what is attached to it becomes pending, as often as it is attached. The rounds end, one for each part, and
leave what a gathering of the parts leaves. So a store is known from what was inserted, in whatever order
and however often, but for the attachments of the copies that it gives.
-/

namespace Mandate

namespace Store

open Delegation

variable {c : Cid} {d q : Delegation} {ds : List Delegation} {s : Store}

/-! ## Rounds -/

/-- Puts a delegation at its address, and nothing of what is attached to it. -/
def keep (s : Store) (d : Delegation) : Store := ⟨Table.insert d.cid d s.delegations⟩

/-- One round of an insertion. What is pending is a stack, on which attachments come in the order of their
addresses. -/
def round : List Delegation × Store → List Delegation × Store
  | ([], s) => ([], s)
  | (d :: pending, s) => ((d.blocks.map (·.2)).reverse ++ pending, s.keep d)

mutual

/-- The parts of a delegation in the order in which the rounds come to them. -/
def visited : Delegation → List Delegation
  | ⟨payload, signature, bytes, cid, blocks⟩ =>
    ⟨payload, signature, bytes, cid, blocks⟩ :: visitedOfBlocks blocks

def visitedOfBlocks : List (Cid × Delegation) → List Delegation
  | [] => []
  | (_, d) :: rest => visitedOfBlocks rest ++ visited d

end

mutual

/-- As many rounds as a delegation has parts take it, and nothing below it, from the stack. -/
theorem iterate_round : (d : Delegation) → (pending : List Delegation) → (s : Store) →
    round^[d.size] (d :: pending, s) = (pending, (visited d).foldl keep s)
  | ⟨_, _, _, _, blocks⟩, pending, s => by
      rw [Delegation.size, Nat.add_comm, Function.iterate_succ_apply, round, visited, List.foldl_cons]
      exact iterate_round_blocks blocks pending _

theorem iterate_round_blocks : (blocks : List (Cid × Delegation)) → (pending : List Delegation) →
    (s : Store) → round^[sizeOfBlocks blocks] ((blocks.map (·.2)).reverse ++ pending, s) =
      (pending, (visitedOfBlocks blocks).foldl keep s)
  | [], _, _ => rfl
  | (_, d) :: rest, pending, s => by
      rw [sizeOfBlocks, Function.iterate_add_apply, List.map_cons, List.reverse_cons, List.append_assoc,
        iterate_round_blocks rest, visitedOfBlocks, List.foldl_append]
      exact iterate_round d pending _

end

/-! ## Rounds and gathering -/

/-- Adds a delegation to those found, unless there is one at its address. -/
def addFound (d : Delegation) (found : List (Cid × Delegation)) : List (Cid × Delegation) :=
  if (found.lookup d.cid).isSome then found else (d.cid, d) :: found

mutual

/-- Gathering goes through the parts in the opposite order, and keeps the first where rounds keep the last. -/
theorem gather_eq_foldr : (d : Delegation) → (found : List (Cid × Delegation)) →
    gather d found = (visited d).foldr addFound found
  | ⟨_, _, _, _, blocks⟩, found => by
      rw [gather, visited, List.foldr_cons, gatherBlocks_eq_foldr blocks]
      rfl

theorem gatherBlocks_eq_foldr : (blocks : List (Cid × Delegation)) →
    (found : List (Cid × Delegation)) →
      gatherBlocks blocks found = (visitedOfBlocks blocks).foldr addFound found
  | [], _ => rfl
  | (_, d) :: rest, found => by
      rw [gatherBlocks, gatherBlocks_eq_foldr rest, gather_eq_foldr d, visitedOfBlocks,
        List.foldr_append]

end

theorem lookup_addFound (d : Delegation) (found : List (Cid × Delegation)) :
    (addFound d found).lookup c = (found.lookup c).or (if c = d.cid then some d else none) := by
  unfold addFound
  by_cases same : c = d.cid
  · subst same
    cases there : found.lookup d.cid <;> simp [there]
  · have differ : (c == d.cid) = false := by simpa using same
    split <;> simp [List.lookup_cons, differ]

theorem nodup_foldr_addFound (ds : List Delegation) :
    ((ds.foldr addFound []).map (·.1)).Nodup := by
  induction ds with
  | nil => exact List.nodup_nil
  | cons d ds ih =>
      rw [List.foldr_cons, addFound]
      split
      case isTrue => exact ih
      case isFalse new =>
        exact List.nodup_cons.mpr ⟨fun there => new (Table.isSome_lookup_iff.mpr there), ih⟩

theorem get?_keep (s : Store) (d : Delegation) :
    (s.keep d).get? c = if c = d.cid then some d else s.get? c := by
  rw [get?, keep]
  split
  case isTrue same => rw [same, Table.lookup_insert_self]
  case isFalse other => exact Table.lookup_insert_of_ne d _ other

theorem get?_foldl_keep (ds : List Delegation) (s : Store) :
    (ds.foldl keep s).get? c = ((ds.foldr addFound []).lookup c).or (s.get? c) := by
  induction ds generalizing s with
  | nil => rfl
  | cons d ds ih =>
      rw [List.foldl_cons, ih, List.foldr_cons, lookup_addFound, get?_keep, Option.or_assoc]
      split <;> rfl

theorem sorted_foldl_keep (ds : List Delegation) (h : s.delegations.Sorted) :
    (ds.foldl keep s).delegations.Sorted := by
  induction ds generalizing s with
  | nil => exact h
  | cons d ds ih => exact ih (Table.sorted_insert h)

/-- The rounds leave the store that the delegation is inserted into at once. -/
theorem foldl_keep_visited (h : s.delegations.Sorted) : (visited d).foldl keep s = s.insert d := by
  have answers (c : Cid) : ((visited d).foldl keep s).get? c = (s.insert d).get? c := by
    rw [get?_foldl_keep, ← gather_eq_foldr]
    refine (Table.lookup_override_of_nodup ?_ c).symm
    rw [gather_eq_foldr]
    exact nodup_foldr_addFound _
  exact congrArg mk (Table.ext_lookup (sorted_foldl_keep _ h) (Table.sorted_override h) answers)

/-! ## What is stored, and what of it depends on the order -/

theorem sorted_ofInsertions (ds : List Delegation) : (ofInsertions ds).delegations.Sorted := by
  have all : ∀ s : Store, s.delegations.Sorted → (ds.foldl insert s).delegations.Sorted := by
    induction ds with
    | nil => exact fun s h => h
    | cons d ds ih => exact fun s h => ih _ (Table.sorted_override h)
  exact all .empty List.Pairwise.nil

/-- Inserting one more delegation ends, when all that became pending is stored. -/
theorem iterate_round_ofInsertions (ds : List Delegation) (d : Delegation) :
    round^[d.size] ([d], ofInsertions ds) = ([], ofInsertions (ds ++ [d])) := by
  rw [iterate_round, foldl_keep_visited (sorted_ofInsertions ds), ofInsertions, ofInsertions,
    List.foldl_append]
  rfl

theorem contains_iff : (ofInsertions ds).contains c = true ↔ ∃ d ∈ ds, ∃ e ∈ d.nested, e.cid = c := by
  refine ((foldl_insert ds .empty).2 c).trans (or_iff_right ?_)
  simp [get?, empty]

theorem contains_of_mem_nested (h : (ofInsertions ds).get? c = some q) {e : Delegation} (he : e ∈ q.nested) :
    (ofInsertions ds).contains e.cid = true := by
  obtain ⟨d, hd, part, -⟩ := mem_of_get? h
  exact contains_iff.mpr ⟨d, hd, e, nested_trans part he, rfl⟩

theorem size_ofInsertions (ds : List Delegation) :
    (ofInsertions ds).size = ((ds.flatMap nested).map (·.cid)).toFinset.card := by
  have same : ((ds.flatMap nested).map (·.cid)).toFinset =
      ((ofInsertions ds).delegations.map (·.1)).toFinset := by
    ext c
    rw [List.mem_toFinset, List.mem_toFinset, ← Table.isSome_lookup_iff]
    refine Iff.trans ?_ contains_iff.symm
    simp only [List.mem_map, List.mem_flatMap]
    constructor
    · rintro ⟨e, ⟨d, hd, he⟩, own⟩
      exact ⟨d, hd, e, he, own⟩
    · rintro ⟨d, hd, e, he, own⟩
      exact ⟨e, ⟨d, hd, he⟩, own⟩
  rw [same, List.toFinset_card_of_nodup (Table.nodup_keys (sorted_ofInsertions ds)), List.length_map]
  rfl

section

variable {ds' : List Delegation} (same : ∀ d, d ∈ ds' ↔ d ∈ ds)

include same

theorem contains_congr : (ofInsertions ds').contains c = (ofInsertions ds).contains c := by
  rw [Bool.eq_iff_iff, contains_iff, contains_iff]
  simp only [same]

theorem size_congr : (ofInsertions ds').size = (ofInsertions ds).size := by
  rw [size_ofInsertions, size_ofInsertions]
  congr 1
  ext c
  simp [same]

/-- In another order another copy may be stored, which differs in what is attached to it at most. -/
theorem copies_of_get? {q' : Delegation} (obtained : ∀ d ∈ ds, d.Obtained)
    (found : (ofInsertions ds).get? c = some q) (found' : (ofInsertions ds').get? c = some q') :
    q.bare = q'.bare ∨ q.bytes ≠ q'.bytes ∧ sha256 q.bytes = sha256 q'.bytes := by
  have obtained' : ∀ d ∈ ds', d.Obtained := fun d hd => obtained d ((same d).mp hd)
  obtain ⟨-, -, -, own⟩ := mem_of_get? found
  obtain ⟨-, -, -, own'⟩ := mem_of_get? found'
  exact (Obtained.stored obtained found).represented.self.bare_eq_or_collision
    (Obtained.stored obtained' found').represented.self (own.trans own'.symm)

end

/-! ## Several addresses -/

theorem getAll_eq_ok_iff {cs : List Cid} {found : List Delegation} :
    s.getAll cs = .ok found ↔ cs.map s.get? = found.map some := by
  induction cs generalizing found with
  | nil => cases found <;> simp [getAll]
  | cons c cs ih =>
      rw [getAll, List.map_cons]
      cases s.get? c with
      | none => cases found <;> simp
      | some d =>
          cases found with
          | nil => cases s.getAll cs <;> simp [Except.map]
          | cons q found =>
              rw [List.map_cons, List.cons.injEq, ← ih]
              cases s.getAll cs <;> simp [Except.map]

/-- What is missing is the first address without a delegation. -/
theorem getAll_eq_error_iff {cs : List Cid} :
    s.getAll cs = .error c ↔ cs.find? (fun b => !s.contains b) = some c := by
  induction cs with
  | nil => simp [getAll]
  | cons first cs ih =>
      rw [getAll, List.find?_cons]
      cases found : s.get? first with
      | none => simp [contains, found]
      | some d =>
          have present : s.contains first = true := by simp [contains, found]
          simp only [present, Bool.not_true, ← ih]
          cases s.getAll cs <;> simp [Except.map]

theorem exists_getAll_iff {cs : List Cid} :
    (∃ found, s.getAll cs = .ok found) ↔ ∀ c ∈ cs, s.contains c = true := by
  constructor
  · rintro ⟨found, all⟩ c mem
    have answered : s.get? c ∈ found.map some :=
      getAll_eq_ok_iff.mp all ▸ List.mem_map_of_mem mem
    obtain ⟨d, -, same⟩ := List.mem_map.mp answered
    rw [contains, ← same, Option.isSome_some]
  · intro present
    cases outcome : s.getAll cs with
    | ok found => exact ⟨found, rfl⟩
    | error c =>
        have missing := getAll_eq_error_iff.mp outcome
        have absent := List.find?_some missing
        simp [present c (List.mem_of_find?_eq_some missing)] at absent

/-- The rounds of an insertion end. Then the store holds a delegation for each address in all that was
inserted, and so for what is attached to one that it holds, and it never loses one. The same insertions in
another order, or repeated, make a store with the same addresses, whose delegations differ in what is attached
to them at most, short of a collision. Of several addresses the first one without a delegation is reported. -/
theorem contents_ofInsertions (ds : List Delegation) :
    (∀ d, round^[d.size] ([d], ofInsertions ds) = ([], ofInsertions (ds ++ [d]))) ∧
    (∀ c, (ofInsertions ds).contains c = true ↔ ∃ d ∈ ds, ∃ e ∈ d.nested, e.cid = c) ∧
    (∀ c, (ofInsertions ds).contains c = true → ∃ q, (ofInsertions ds).get? c = some q ∧ q.cid = c ∧
      (∃ d ∈ ds, q ∈ d.nested) ∧ ∀ e ∈ q.nested, (ofInsertions ds).contains e.cid = true) ∧
    (ofInsertions ds).size = ((ds.flatMap nested).map (·.cid)).toFinset.card ∧
    (∀ later c, (ofInsertions ds).contains c = true → (ofInsertions (ds ++ later)).contains c = true) ∧
    (∀ ds', (∀ d, d ∈ ds' ↔ d ∈ ds) →
      (∀ c, (ofInsertions ds').contains c = (ofInsertions ds).contains c) ∧
      (ofInsertions ds').size = (ofInsertions ds).size ∧
      ((∀ d ∈ ds, d.Obtained) → ∀ c q q', (ofInsertions ds).get? c = some q →
        (ofInsertions ds').get? c = some q' →
          q.bare = q'.bare ∨ q.bytes ≠ q'.bytes ∧ sha256 q.bytes = sha256 q'.bytes)) ∧
    ∀ cs, ((∃ found, (ofInsertions ds).getAll cs = .ok found) ↔
        ∀ c ∈ cs, (ofInsertions ds).contains c = true) ∧
      (∀ found, (ofInsertions ds).getAll cs = .ok found → cs.map (ofInsertions ds).get? = found.map some) ∧
      ∀ c, (ofInsertions ds).getAll cs = .error c ↔
        (ofInsertions ds).contains c = false ∧ ∃ before after, cs = before ++ c :: after ∧
          ∀ b ∈ before, (ofInsertions ds).contains b = true := by
  refine ⟨iterate_round_ofInsertions ds, fun c => contains_iff, fun c stored => ?_, size_ofInsertions ds,
    fun later c stored => ?_, fun ds' same => ?_, fun cs => ⟨exists_getAll_iff, ?_, fun c => ?_⟩⟩
  · obtain ⟨q, found⟩ := Option.isSome_iff_exists.mp stored
    obtain ⟨d, hd, part, own⟩ := mem_of_get? found
    exact ⟨q, found, own, ⟨d, hd, part⟩, fun e he => contains_of_mem_nested found he⟩
  · obtain ⟨d, hd, part⟩ := contains_iff.mp stored
    exact contains_iff.mpr ⟨d, List.mem_append_left later hd, part⟩
  · exact ⟨fun c => contains_congr same, size_congr same,
      fun obtained c q q' found found' => copies_of_get? same obtained found found'⟩
  · exact fun found all => getAll_eq_ok_iff.mp all
  · rw [getAll_eq_error_iff, List.find?_eq_some_iff_append]
    simp

end Store

/-- A delegation is stored with everything attached to it if it comes after its parts, and with nothing if it
comes before. It is the same otherwise. -/
theorem Store.contents_scattered :
    ∃ path d q q', Sample.twice true = .ok (path, d) ∧ d.nested.length = 6 ∧
      Store.round^[6] ([d], .empty) = ([], .ofInsertions [d]) ∧
      (Store.ofInsertions (Sample.scattered d)).size = 4 ∧
      (Store.ofInsertions (Sample.scattered d).reverse).size = 4 ∧
      (Store.ofInsertions (Sample.scattered d)).get? d.cid = some q ∧
      (Store.ofInsertions (Sample.scattered d).reverse).get? d.cid = some q' ∧
      q.blocks.length = 0 ∧ q'.blocks.length = 2 ∧ q.bare = q'.bare := by
  have holds : (Sample.twice true).toOption.any (fun (_, d) =>
      decide (d.nested.length = 6 ∧ (Store.ofInsertions (Sample.scattered d)).size = 4) &&
        ((Store.ofInsertions (Sample.scattered d)).get? d.cid).any fun q =>
          ((Store.ofInsertions (Sample.scattered d).reverse).get? d.cid).any fun q' =>
            decide (q.blocks.length = 0 ∧ q'.blocks.length = 2 ∧ q.bytes = q'.bytes)) = true := by
    decide +kernel
  obtain ⟨⟨path, d⟩, made, holds⟩ := Sample.exists_of_any holds
  obtain ⟨counts, copies⟩ := Bool.and_eq_true_iff.mp holds
  obtain ⟨six, four⟩ := of_decide_eq_true counts
  obtain ⟨q, found, copies⟩ := (Option.any_eq_true _ _).mp copies
  obtain ⟨q', found', copies⟩ := (Option.any_eq_true _ _).mp copies
  obtain ⟨bare, full, same⟩ := of_decide_eq_true copies
  have obtained (e : Delegation) (mem : e ∈ Sample.scattered d) : e.Obtained :=
    (Sample.built_scattered (Sample.built_twice made) e mem).obtained
  obtain ⟨rounds, -⟩ := Store.contents_ofInsertions []
  obtain ⟨-, -, -, -, -, orders, -⟩ := Store.contents_ofInsertions (Sample.scattered d)
  obtain ⟨-, size, copy⟩ := orders (Sample.scattered d).reverse (by simp)
  have once := rounds d
  rw [← Delegation.length_nested, six] at once
  exact ⟨path, d, q, q', made, six, once, four, size.trans four, found, found', bare, full,
    (copy obtained d.cid q q' found found').resolve_right fun collision => collision.1 same⟩

end Mandate

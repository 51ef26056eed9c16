import Mandate.Citation.Cache
import Mandate.Proofs.Table
import Mathlib.Logic.Relation

/-!
# A cache changes no answer

What a link resolves to depends on the resolver and on the cache at hand, and looking links up leaves that
as it is: a lookup only adds the answer that the resolver had given anyway. So a search may be reasoned
about with the cache that it starts from. Caches that arise from lookups alone hold nothing but what the
resolver gives under the address asked for, never lose it, and the resolver is not asked for it again.
-/

namespace Mandate.ProofCache

/-- What a link resolves to: what is remembered, or else what the resolver gives. -/
def answer (resolver : Option Resolver) (cache : ProofCache) (link : Cid) :
    Except Failure Delegation :=
  match cache.cached? link, resolver with
  | some d, _ => .ok d
  | none, none => .error (.unavailableProof link none)
  | none, some r => fetch r link

/-- Two caches in front of one resolver that resolve every link alike. -/
def Agree (resolver : Option Resolver) (c d : ProofCache) : Prop :=
  ∀ link, answer resolver c link = answer resolver d link

/-- The caches that lookups with one resolver lead to. -/
inductive Reached (resolver : Option Resolver) : ProofCache → Prop where
  | empty : Reached resolver .empty
  | resolve {cache : ProofCache} (earlier : Reached resolver cache) (link : Cid) :
      Reached resolver (ProofCache.resolve resolver link cache).2

/-- One lookup leads from a cache to another one. -/
def Lookup (resolver : Option Resolver) (c d : ProofCache) : Prop :=
  ∃ link, (resolve resolver link c).2 = d

/-- Lookups, one after the other, lead from a cache to another one. -/
def Leads (resolver : Option Resolver) : ProofCache → ProofCache → Prop :=
  Relation.ReflTransGen (Lookup resolver)

variable {resolver : Option Resolver} {c d e : ProofCache}

theorem Agree.refl (c : ProofCache) : Agree resolver c c := fun _ => rfl

theorem Agree.symm (h : Agree resolver c d) : Agree resolver d c := fun link => (h link).symm

theorem Agree.trans (h : Agree resolver c d) (h' : Agree resolver d e) : Agree resolver c e :=
  fun link => (h link).trans (h' link)

theorem fetch_eq_ok_iff {r : Resolver} {link : Cid} {p : Delegation} :
    fetch r link = .ok p ↔ r.fetch link = .ok p ∧ p.cid = link := by
  simp only [fetch]
  split
  case h_1 reason failed => simp [failed]
  case h_2 q found =>
    rw [found]
    split
    case isTrue same =>
      constructor
      · rintro ⟨⟩
        exact ⟨rfl, same⟩
      · rintro ⟨⟨⟩, -⟩
        rfl
    case isFalse other =>
      constructor
      · rintro ⟨⟩
      · rintro ⟨⟨⟩, same⟩
        exact absurd same other

/-- An answer is in the cache, or the resolver gives it now. -/
theorem answer_eq_ok_iff {cache : ProofCache} {link : Cid} {p : Delegation} :
    answer resolver cache link = .ok p ↔ cache.cached? link = some p ∨
      cache.cached? link = none ∧ ∃ r, resolver = some r ∧ fetch r link = .ok p := by
  unfold answer
  cases cache.cached? link with
  | some q => simp
  | none => cases resolver <;> simp

/-- No lookup fails in a way that ends a search. -/
theorem not_fatal_of_answer {cache : ProofCache} {link : Cid} {f : Failure}
    (h : answer resolver cache link = .error f) : f.isFatal = false := by
  unfold answer at h
  split at h
  case h_1 => cases h
  case h_2 =>
    cases h
    rfl
  case h_3 r _ =>
    unfold fetch at h
    split at h
    · cases h
      rfl
    · split at h
      · cases h
      · cases h
        rfl

theorem resolve_fst (link : Cid) (cache : ProofCache) :
    (resolve resolver link cache).1 = answer resolver cache link := by
  unfold resolve answer
  cases cache.cached? link with
  | some p => rfl
  | none =>
      cases resolver with
      | none => rfl
      | some r => cases fetched : fetch r link <;> simp [fetched]

/-- What a lookup does to a cache: nothing if the answer is there or there is nobody to ask. Otherwise the
resolver is asked, and only a delegation with the address asked for is added. -/
theorem resolve_snd (resolver : Option Resolver) (link : Cid) (cache : ProofCache) :
    (resolve resolver link cache).2 = cache ∨
      cache.cached? link = none ∧ ∃ r, resolver = some r ∧
        (resolve resolver link cache).2.lookups = cache.lookups ++ [link] ∧
        ((∃ f, fetch r link = .error f ∧ (resolve resolver link cache).2.entries = cache.entries) ∨
          ∃ p, fetch r link = .ok p ∧
            (resolve resolver link cache).2.entries = Table.insert link p cache.entries) := by
  cases cached : cache.cached? link with
  | some p => exact Or.inl (by simp [resolve, cached])
  | none =>
      cases resolver with
      | none => exact Or.inl (by simp [resolve, cached])
      | some r =>
          refine Or.inr ⟨rfl, r, rfl, ?_⟩
          cases fetched : fetch r link <;> simp [resolve, cached, fetched]

/-- A lookup remembers what it finds, and forgets or replaces nothing. -/
theorem cached?_resolve (resolver : Option Resolver) (link other : Cid) (cache : ProofCache) :
    (resolve resolver link cache).2.cached? other = cache.cached? other ∨
      other = link ∧ cache.cached? link = none ∧ ∃ r p, resolver = some r ∧ fetch r link = .ok p ∧
        (resolve resolver link cache).2.cached? link = some p := by
  rcases resolve_snd resolver link cache with
    same | ⟨absent, r, given, -, ⟨f, -, kept⟩ | ⟨p, fetched, stored⟩⟩
  · exact Or.inl (by rw [same])
  · exact Or.inl (by rw [cached?, kept]; rfl)
  · by_cases same : other = link
    · refine Or.inr ⟨same, absent, r, p, given, fetched, ?_⟩
      rw [cached?, stored, Table.lookup_insert_self]
    · refine Or.inl ?_
      rw [cached?, stored, Table.lookup_insert_of_ne p _ same]
      rfl

/-- What a lookup finds is remembered. -/
theorem cached?_of_resolve {link : Cid} {cache : ProofCache} {p : Delegation}
    (found : (resolve resolver link cache).1 = .ok p) :
    (resolve resolver link cache).2.cached? link = some p := by
  rw [resolve_fst] at found
  rcases answer_eq_ok_iff.mp found with cached | ⟨absent, r, rfl, fetched⟩
  · simp [resolve, cached]
  · have stored : (resolve (some r) link cache).2.entries = Table.insert link p cache.entries := by
      simp [resolve, absent, fetched]
    rw [cached?, stored, Table.lookup_insert_self]

/-- A lookup for which there is no delegation with the address asked for leaves what is remembered. -/
theorem entries_resolve {link : Cid} (cache : ProofCache)
    (missing : ∀ r p, resolver = some r → r.fetch link = .ok p → p.cid ≠ link) :
    (resolve resolver link cache).2.entries = cache.entries := by
  rcases resolve_snd resolver link cache with
    same | ⟨-, r, given, -, ⟨f, -, kept⟩ | ⟨p, fetched, -⟩⟩
  · rw [same]
  · exact kept
  · obtain ⟨found, own⟩ := fetch_eq_ok_iff.mp fetched
    exact absurd own (missing r p given found)

/-- Resolving a link leaves what every link resolves to. -/
theorem agree_resolve (link : Cid) (cache : ProofCache) :
    Agree resolver (resolve resolver link cache).2 cache := by
  intro other
  rcases cached?_resolve resolver link other cache with
    same | ⟨rfl, absent, r, p, rfl, fetched, stored⟩
  · simp only [answer, same]
  · simp only [answer, stored, absent, fetched]

/-! ## Lookups one after the other -/

theorem leads_resolve (link : Cid) (cache : ProofCache) :
    Leads resolver cache (resolve resolver link cache).2 := .single ⟨link, rfl⟩

theorem leads_resolveEach (links : List Cid) (cache : ProofCache) :
    Leads resolver cache (resolveEach resolver links cache).2 := by
  induction links generalizing cache with
  | nil => exact .refl
  | cons link links ih => exact (leads_resolve link cache).trans (ih _)

theorem leads_resolveAll (links : List Cid) (cache : ProofCache) :
    Leads resolver cache (resolveAll resolver links cache).2 :=
  leads_resolveEach links.eraseDups cache

/-- However many lookups leave what every link resolves to. -/
theorem Leads.agree (h : Leads resolver c d) : Agree resolver d c := by
  induction h with
  | refl => exact Agree.refl c
  | tail _ step ih =>
      obtain ⟨link, rfl⟩ := step
      exact (agree_resolve link _).trans ih

theorem Leads.reached (h : Leads resolver c d) (start : c.Reached resolver) : d.Reached resolver := by
  induction h with
  | refl => exact start
  | tail _ step ih =>
      obtain ⟨link, rfl⟩ := step
      exact ih.resolve link

/-- What was remembered still is, and the resolver was not asked for it again. -/
theorem Leads.cached? {link : Cid} {p : Delegation} (h : Leads resolver c d)
    (cached : c.cached? link = some p) :
    d.cached? link = some p ∧ d.lookups.count link = c.lookups.count link := by
  induction h with
  | refl => exact ⟨cached, rfl⟩
  | @tail between _ _ step ih =>
      obtain ⟨other, rfl⟩ := step
      obtain ⟨kept, count⟩ := ih
      rcases resolve_snd resolver other between with same | ⟨absent, -, -, asked, -⟩
      · rw [same]
        exact ⟨kept, count⟩
      · have differ : other ≠ link := by
          rintro rfl
          rw [kept] at absent
          cases absent
        refine ⟨?_, ?_⟩
        · rcases cached?_resolve resolver other link between with still | ⟨same, -⟩
          · rw [still, kept]
          · exact absurd same.symm differ
        · rw [asked, List.count_append, count, List.count_singleton, if_neg (by simpa using differ),
            Nat.add_zero]

theorem resolveEach_fst (links : List Cid) (cache : ProofCache) :
    (resolveEach resolver links cache).1 = links.map fun l => (l, answer resolver cache l) := by
  induction links generalizing cache with
  | nil => rfl
  | cons link links ih =>
      have unchanged : Agree resolver _ cache := agree_resolve link cache
      simp only [resolveEach, List.map_cons, ih, resolve_fst, unchanged _]

theorem resolve_congr (same : Agree resolver c d) (link : Cid) :
    (resolve resolver link c).1 = (resolve resolver link d).1 := by
  rw [resolve_fst, resolve_fst, same link]

theorem resolveAll_congr (same : Agree resolver c d) (links : List Cid) :
    (resolveAll resolver links c).1 = (resolveAll resolver links d).1 := by
  simp only [resolveAll, resolveEach_fst, same _]

/-- Looking several links up finds for each of them what it resolves to. -/
theorem lookup_resolveAll {links : List Cid} {link : Cid} (h : link ∈ links) (cache : ProofCache) :
    (resolveAll resolver links cache).1.lookup link = some (answer resolver cache link) := by
  have mem : link ∈ links.eraseDups := List.mem_eraseDups.mpr h
  rw [resolveAll, resolveEach_fst]
  generalize links.eraseDups = distinct at mem
  induction distinct with
  | nil => simp at mem
  | cons l ls ih =>
      rw [List.map_cons, List.lookup_cons]
      by_cases same : link = l
      · simp [same]
      · have differ : (link == l) = false := by simpa using same
        simp only [differ]
        exact ih ((List.mem_cons.mp mem).resolve_left same)

/-- A cache that lookups led to holds only what the resolver gives, under its own address. -/
theorem Reached.fetch_of_cached {cache : ProofCache} (h : Reached resolver cache) {link : Cid}
    {p : Delegation} (cached : cache.cached? link = some p) :
    ∃ r, resolver = some r ∧ fetch r link = .ok p := by
  induction h generalizing link p with
  | empty => simp [cached?, ProofCache.empty] at cached
  | @resolve cache _ other ih =>
      have now : answer resolver cache link = .ok p := by
        rw [← agree_resolve other cache link, answer_eq_ok_iff]
        exact Or.inl cached
      rcases answer_eq_ok_iff.mp now with earlier | ⟨-, fetched⟩
      · exact ih earlier
      · exact fetched

/-- With a cache that lookups led to, a link resolves to what the resolver gives for it. -/
theorem Reached.fetch_of_answer {cache : ProofCache} (h : Reached resolver cache) {link : Cid}
    {p : Delegation} (answered : answer resolver cache link = .ok p) :
    ∃ r, resolver = some r ∧ r.fetch link = .ok p ∧ p.cid = link := by
  have fetched : ∃ r, resolver = some r ∧ fetch r link = .ok p := by
    rcases answer_eq_ok_iff.mp answered with cached | ⟨-, now⟩
    · exact h.fetch_of_cached cached
    · exact now
  obtain ⟨r, same, found⟩ := fetched
  exact ⟨r, same, fetch_eq_ok_iff.mp found⟩

/-- A link that the resolver has an answer for is asked for once at most, and then it is remembered. -/
theorem Reached.asked {cache : ProofCache} (h : Reached resolver cache) {r : Resolver} {link : Cid}
    {p : Delegation} (given : resolver = some r) (fetched : fetch r link = .ok p) :
    link ∉ cache.lookups ∨ cache.cached? link = some p ∧ cache.lookups.count link = 1 := by
  induction h with
  | empty => exact Or.inl (by simp [ProofCache.empty])
  | @resolve cache _ other ih =>
      rcases resolve_snd resolver other cache with same | ⟨absent, r', given', asked, told⟩
      · rw [same]
        exact ih
      obtain rfl := Option.some.inj (given.symm.trans given')
      by_cases same : other = link
      · subst same
        have fresh : other ∉ cache.lookups := ih.resolve_right fun held => by simp [held.1] at absent
        rcases told with ⟨f, failed, -⟩ | ⟨q, found, stored⟩
        · rw [fetched] at failed
          cases failed
        · obtain rfl := Except.ok.inj (fetched.symm.trans found)
          refine Or.inr ⟨?_, ?_⟩
          · rw [cached?, stored, Table.lookup_insert_self]
          · rw [asked, List.count_append, List.count_eq_zero.mpr fresh, List.count_singleton_self]
      · rw [asked, List.mem_append, List.mem_singleton, not_or, List.count_append,
          List.count_singleton, if_neg (by simpa using same), Nat.add_zero]
        refine ih.imp (fun fresh => ⟨fresh, fun equal => same equal.symm⟩) (fun held => ⟨?_, held.2⟩)
        rcases cached?_resolve resolver other link cache with still | ⟨equal, -⟩
        · rw [still, held.1]
        · exact absurd equal.symm same

end Mandate.ProofCache

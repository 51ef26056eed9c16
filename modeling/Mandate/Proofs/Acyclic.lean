import Mandate.Proofs.Match
import Mandate.Proofs.Steps
import Mathlib.Data.List.Perm.Subperm
import Mathlib.Logic.Relation

/-!
# Searches that come to an end

A search follows citations, one with every step. Where citations lead in no circle, no path of them visits
a delegation twice, and all that a path can visit is attached to the invocation or held by the resolver or
the cache. The number of steps that an access falls back to counts exactly these.
-/

namespace Mandate

namespace Context

open Delegation Relation

variable {ctx : Context} {cache : ProofCache} {i : Invocation}

/-- From a delegation on, citations lead in no circle. -/
def Acyclic (ctx : Context) (cache : ProofCache) (d : Delegation) : Prop :=
  ∀ e, ReflTransGen (ctx.Cites cache) d e → ¬ TransGen (ctx.Cites cache) e e

theorem Acyclic.congr {others : ProofCache} {d : Delegation} (h : ctx.Acyclic cache d)
    (same : ProofCache.Agree ctx.resolver others cache) : ctx.Acyclic others d := by
  rw [Acyclic, cites_congr same]
  exact h

/-- Where nothing can be looked up, only what is attached is there to be cited. -/
theorem Cites.attached {d p : Delegation} (h : ctx.Cites cache d p) (alone : ctx.resolver = none)
    (empty : cache.entries = []) : ∃ c, (c, p) ∈ d.blocks := by
  obtain ⟨q, listed, found⟩ := h
  obtain ⟨c, -, rfl⟩ := List.mem_map.mp listed
  split at found
  case h_1 q attached =>
    cases found
    exact ⟨c, Table.mem_of_lookup attached⟩
  case h_2 => simp [cited, ProofCache.answer, ProofCache.cached?, alone, empty] at found

/-- Following citations from a delegation on comes to an end. -/
abbrev Founded (ctx : Context) (cache : ProofCache) : Delegation → Prop :=
  Acc fun p d => ctx.Cites cache d p

/-- Where following citations comes to an end, it leads in no circle. -/
theorem acyclic_of_founded {d : Delegation} (founded : ctx.Founded cache d) : ctx.Acyclic cache d := by
  induction founded with
  | intro d _ ih =>
      intro e path circle
      -- A circle through a delegation is one through what that cites.
      rcases path.cases_head with rfl | ⟨p, cites, rest⟩
      · obtain ⟨p, cites, back⟩ := TransGen.head'_iff.mp circle
        exact ih p cites d back circle
      · exact ih p cites e rest circle

/-- Following what is only attached comes to an end, for it gets smaller. -/
theorem founded_of_unlinked (alone : ctx.resolver = none) (empty : cache.entries = []) (d : Delegation) :
    ctx.Founded cache d := by
  refine Subrelation.accessible (fun {p d} cites => ?_) ((measure Delegation.size).wf.apply d)
  obtain ⟨c, attached⟩ := cites.attached alone empty
  exact Delegation.size_lt_of_attached attached

/-- What is only attached cannot cite itself. -/
theorem acyclic_of_unlinked (alone : ctx.resolver = none) (empty : cache.entries = [])
    (d : Delegation) : ctx.Acyclic cache d :=
  acyclic_of_founded (founded_of_unlinked alone empty d)

/-- Along citations from a delegation on, fewer than so many follow. -/
def Within (ctx : Context) (cache : ProofCache) : Nat → Delegation → Prop
  | 0, _ => False
  | n + 1, d => ∀ p, ctx.Cites cache d p → Within ctx cache n p

theorem Within.mono {few many : Nat} {d : Delegation} (h : ctx.Within cache few d) (le : few ≤ many) :
    ctx.Within cache many d := by
  induction few generalizing d many with
  | zero => exact h.elim
  | succ few ih =>
      cases many with
      | zero => omega
      | succ many => exact fun p cites => ih (h p cites) (Nat.le_of_succ_le_succ le)

/-- Where citations come to an end from each of some delegations on, one number of steps is enough for all. -/
theorem exists_within_all {ds : List Delegation} (h : ∀ d ∈ ds, ∃ steps, ctx.Within cache steps d) :
    ∃ steps, ∀ d ∈ ds, ctx.Within cache steps d := by
  induction ds with
  | nil => exact ⟨0, fun d mem => by cases mem⟩
  | cons e ds ih =>
      obtain ⟨few, first⟩ := h e List.mem_cons_self
      obtain ⟨many, rest⟩ := ih fun d mem => h d (List.mem_cons_of_mem _ mem)
      refine ⟨max few many, List.forall_mem_cons.mpr ⟨first.mono (Nat.le_max_left _ _), ?_⟩⟩
      exact fun d mem => (rest d mem).mono (Nat.le_max_right _ _)

/-- So it is for the delegations that some sources belong to. -/
theorem exists_within {claimed : List Source}
    (h : ∀ s ∈ claimed, ∃ steps, ctx.Within cache steps s.delegation) :
    ∃ steps, ∀ s ∈ claimed, ctx.Within cache steps s.delegation := by
  obtain ⟨steps, all⟩ := exists_within_all (List.forall_mem_map.mpr h)
  exact ⟨steps, List.forall_mem_map.mp all⟩

/-- Of what is only attached, fewer follow than it has parts. -/
theorem within_of_unlinked (alone : ctx.resolver = none) (empty : cache.entries = []) {n : Nat}
    {d : Delegation} (small : d.size ≤ n) : ctx.Within cache n d := by
  induction n generalizing d with
  | zero =>
      obtain ⟨payload, signature, bytes, cid, blocks⟩ := d
      rw [size] at small
      omega
  | succ n ih =>
      intro p cites
      obtain ⟨c, attached⟩ := cites.attached alone empty
      have smaller := size_lt_of_attached attached
      exact ih (by omega)

/-- The delegations that can be looked up. -/
def linked (ctx : Context) (cache : ProofCache) : List Delegation :=
  (match ctx.resolver with
    | some r => r.known
    | none => []) ++ cache.entries.map (·.2)

/-- All that a search for an invocation can come across. -/
def territory (ctx : Context) (i : Invocation) (cache : ProofCache) : List Delegation :=
  i.delegation.nested ++ (ctx.linked cache).flatMap nested

theorem length_territory (ctx : Context) (i : Invocation) (cache : ProofCache) :
    (ctx.territory i cache).length + 1 = ctx.reach i cache := by
  have count : ∀ (ds : List Delegation) (n : Nat),
      ds.foldl (fun n d => n + d.size) n = n + (ds.flatMap nested).length := by
    intro ds
    induction ds with
    | nil => exact fun _ => rfl
    | cons d ds ih =>
        intro n
        rw [List.foldl_cons, ih, List.flatMap_cons, List.length_append, length_nested,
          Nat.add_assoc]
  have steps := count (ctx.linked cache) (1 + i.delegation.size)
  rw [territory, List.length_append, length_nested]
  change _ = (ctx.linked cache).foldl (fun n d => n + d.size) (1 + i.delegation.size)
  omega

/-- Answers are among what can be looked up. -/
theorem mem_linked_of_answer {link : Cid} {p : Delegation}
    (h : cache.answer ctx.resolver link = .ok p) : p ∈ ctx.linked cache := by
  rcases ProofCache.answer_eq_ok_iff.mp h with cached | ⟨-, r, same, fetched⟩
  · exact List.mem_append_right _ (Resolver.mem_values_of_lookup cached)
  · obtain ⟨found, -⟩ := ProofCache.fetch_eq_ok_iff.mp fetched
    refine List.mem_append_left _ ?_
    rw [same]
    exact r.fetch_mem found

/-- Citations lead nowhere else. -/
theorem Cites.mem_territory {citing proof : Delegation} (h : ctx.Cites cache citing proof)
    (mem : citing ∈ ctx.territory i cache) : proof ∈ ctx.territory i cache := by
  obtain ⟨p, listed, found⟩ := h
  obtain ⟨c, -, rfl⟩ := List.mem_map.mp listed
  split at found
  case h_1 q attached =>
    cases found
    have block := Table.mem_of_lookup attached
    rcases List.mem_append.mp mem with inner | outer
    · exact List.mem_append_left _ (mem_nested_of_attached block _ inner)
    · obtain ⟨e, he, inner⟩ := List.mem_flatMap.mp outer
      exact List.mem_append_right _
        (List.mem_flatMap.mpr ⟨e, he, mem_nested_of_attached block e inner⟩)
  case h_2 =>
    exact List.mem_append_right _
      (List.mem_flatMap.mpr ⟨proof, mem_linked_of_answer found, proof.self_mem_nested⟩)

/-- A path that visits nothing twice is no longer than the territory, so from its end on at most the
rest of the territory follows. -/
theorem within_of_path (acyclic : ctx.Acyclic cache i.delegation) {n : Nat} {d : Delegation}
    {visited : List Delegation} (start : ReflTransGen (ctx.Cites cache) i.delegation d)
    (path : ∀ v ∈ visited, TransGen (ctx.Cites cache) v d) (distinct : (d :: visited).Nodup)
    (inside : d :: visited ⊆ ctx.territory i cache)
    (long : (ctx.territory i cache).length ≤ visited.length + n) : ctx.Within cache n d := by
  -- Each step visits a delegation that is new on the path, for want of circles, while the territory stays.
  induction n generalizing d visited with
  | zero =>
      have short := (List.subperm_of_subset distinct inside).length_le
      rw [List.length_cons] at short
      omega
  | succ n ih =>
      intro p cites
      have fresh : p ∉ d :: visited := by
        intro mem
        rcases List.mem_cons.mp mem with rfl | earlier
        · exact acyclic p start (.single cites)
        · exact acyclic p (start.tail cites) ((path p earlier).tail cites)
      refine ih (start.tail cites) ?_ (List.nodup_cons.mpr ⟨fresh, distinct⟩) ?_ ?_
      · intro v mem
        rcases List.mem_cons.mp mem with rfl | earlier
        · exact .single cites
        · exact (path v earlier).tail cites
      · exact List.cons_subset.mpr ⟨cites.mem_territory (inside List.mem_cons_self), inside⟩
      · rw [List.length_cons]
        omega

/-- As many steps as an access counts are enough for the invocation. -/
theorem within_reach (acyclic : ctx.Acyclic cache i.delegation) :
    ctx.Within cache (ctx.reach i cache) i.delegation := by
  have inside : [i.delegation] ⊆ ctx.territory i cache :=
    List.cons_subset.mpr ⟨List.mem_append_left _ i.delegation.self_mem_nested, List.nil_subset _⟩
  refine within_of_path acyclic .refl ?_ (List.pairwise_singleton _ _) inside ?_
  · simp
  · rw [← ctx.length_territory i cache, List.length_nil]
    omega

theorem exists_outcome_prove {steps : Nat} {m : Match}
    (h : ∀ rest, m.prune ctx.mayIssue = some rest →
      ∃ result, (ctx.authorize steps rest).outcome cache = some result) :
    ∃ trial, (ctx.prove (ctx.authorize steps) m).outcome cache = some trial := by
  cases pruned : m.prune ctx.mayIssue with
  | none => exact ⟨_, outcome_prove_issued pruned⟩
  | some rest =>
      obtain ⟨result, authorized⟩ := h rest pruned
      exact ⟨_, by rw [outcome_prove_left (ctx.steady_authorize steps) pruned, authorized]; rfl⟩

/-- Authorizing a claim comes to an end if every path from its delegations on does. -/
theorem exists_outcome_authorize {steps : Nat} {claim : Match}
    (h : ∀ s ∈ claim.sources, ctx.Within cache steps s.delegation) :
    ∃ result, (ctx.authorize steps claim).outcome cache = some result := by
  induction steps generalizing claim with
  | zero =>
      obtain ⟨s, mem⟩ := List.exists_mem_of_ne_nil _ claim.sources_ne_nil
      exact (h s mem).elim
  | succ steps ih =>
      rw [outcome_authorize_succ]
      cases gathered : (ctx.gather claim.sources cache).1 with
      | error f => exact ⟨_, rfl⟩
      | ok g =>
          have steady := steady_prove (ctx.steady_authorize steps)
          have each : ∀ m ∈ (claim.select g.sources).found,
              ∃ trial, (ctx.prove (ctx.authorize steps) m).outcome cache = some trial := by
            intro m selected
            refine exists_outcome_prove fun rest pruned => ih fun s mem => ?_
            obtain ⟨t, ht, cites, -⟩ := cites_of_selected gathered selected
              (Match.mem_sources_of_prune m pruned mem)
            exact h t ht s.delegation cites
          obtain ⟨trial, tried⟩ := Trial.exists_outcome_first steady
            (claimFailures claim g (claim.select g.sources)) each
          exact ⟨conclude claim trial, by simp only [tried, Option.map_some]⟩

theorem exists_outcome_prove_selected {steps : Nat} (enough : ctx.Within cache steps i.delegation)
    {m : Match} (selected : m ∈ (ctx.selector.select (Source.all i.delegation)).found) :
    ∃ trial, (ctx.prove (ctx.authorize steps) m).outcome cache = some trial := by
  refine exists_outcome_prove fun rest pruned => exists_outcome_authorize fun s mem => ?_
  rw [Selector.delegation_eq_of_mem_sources selected (Match.mem_sources_of_prune m pruned mem)]
  exact enough

/-- A bounded search has an outcome if every path from the invocation on has one within the bound. -/
theorem exists_outcome_accessWithin {steps : Nat} (enough : ctx.Within cache steps i.delegation) :
    ∃ result, (ctx.accessWithin steps i).outcome cache = some result := by
  cases checked : ctx.checkInvocation i with
  | error f => exact ⟨.error f, by rw [accessWithin, checked]; rfl⟩
  | ok _ =>
      rw [outcome_accessWithin checked]
      simp only
      split
      · exact ⟨_, rfl⟩
      · have each : ∀ m ∈ (ctx.selector.select (Source.all i.delegation)).found,
            ∃ trial, (ctx.attempt steps i m).outcome cache = some trial := by
          intro m selected
          obtain ⟨trial, proven⟩ := exists_outcome_prove_selected enough selected
          exact ⟨_, by rw [outcome_attempt, proven]; rfl⟩
        obtain ⟨trial, tried⟩ := Trial.exists_outcome_first (ctx.steady_attempt _ i)
          (ctx.selector.select (Source.all i.delegation)).failures each
        exact ⟨settled i trial, by simp only [tried, Option.map_some]⟩

/-- Where citations lead in no circle, an access has an outcome. -/
theorem exists_access (acyclic : ctx.Acyclic cache i.delegation) :
    ∃ result, (ctx.access i).outcome cache = some result := by
  obtain ⟨result, within⟩ := exists_outcome_accessWithin (within_reach acyclic)
  exact ⟨result, outcome_access within⟩

end Context

end Mandate

import Mandate.Proofs.Completeness
import Mandate.Proofs.Denial

/-!
# Proofs that pass

Of what the delegations of a claim cite, some proofs are there and pass their checks, and some do not. Where
all issuers can be resolved this split is all that gathering makes, so provability can be said in terms of
the proofs that pass alone, and what an access grants in terms of provability.
-/

namespace Mandate

namespace Gathered

/-- What is gathered are the capabilities of what passed and, apart from them, the failures. -/
theorem eq_of_ofChecks {checks : List (Except Failure Delegation)} {g : Gathered}
    (h : ofChecks checks = .ok g) :
    g.sources = (checks.filterMap Except.toOption).flatMap Source.all ∧
      (checks.filter fun c => c.toOption.isNone) = g.failures.map .error := by
  induction checks generalizing g with
  | nil =>
      cases h
      exact ⟨rfl, rfl⟩
  | cons check rest ih =>
      cases check with
      | ok d =>
          obtain ⟨more, later, rfl⟩ := map_eq_ok_iff.mp h
          obtain ⟨sources, failures⟩ := ih later
          exact ⟨congrArg (Source.all d ++ ·) sources, failures⟩
      | error f =>
          rw [ofChecks] at h
          split at h
          · cases h
          · obtain ⟨more, later, rfl⟩ := map_eq_ok_iff.mp h
            obtain ⟨sources, failures⟩ := ih later
            exact ⟨sources, congrArg (Except.error f :: ·) failures⟩

end Gathered

theorem Source.capabilities_all (d : Delegation) : (Source.all d).map (·.capability) = d.capabilities := by
  rw [Source.all, List.map_map]
  exact List.map_get_finRange d.capabilities

namespace Context

open Citation

variable {ctx : Context} {cache : ProofCache} {i : Invocation} {claimed : List Source}

/-- The proofs that pass, of those that the delegations of some sources cite. -/
def passing (ctx : Context) (cache : ProofCache) (claimed : List Source) : List Delegation :=
  (ofSources claimed).filterMap fun c => (c.verdict ctx cache).toOption

/-- The citations whose proof is not there or does not pass. -/
def failing (ctx : Context) (cache : ProofCache) (claimed : List Source) : List Citation :=
  (ofSources claimed).filter fun c => (c.verdict ctx cache).toOption.isNone

/-- The capabilities of the proofs that pass. -/
def valid (ctx : Context) (cache : ProofCache) (claimed : List Source) : List Source :=
  (ctx.passing cache claimed).flatMap Source.all

theorem mem_passing_iff {d : Delegation} :
    d ∈ ctx.passing cache claimed ↔
      ∃ c ∈ ofSources claimed, ctx.cited cache c.proof = .ok d ∧ ctx.Accepts c.citing d := by
  simp only [passing, List.mem_filterMap, toOption_eq_some_iff, verdict_eq_ok_iff]

theorem mem_valid_iff {s : Source} :
    s ∈ ctx.valid cache claimed ↔ s.delegation ∈ ctx.passing cache claimed := by
  simp only [valid, List.mem_flatMap, Source.mem_all]
  constructor
  · rintro ⟨d, mem, rfl⟩
    exact mem
  · intro mem
    exact ⟨_, mem, rfl⟩

theorem capabilities_valid (ctx : Context) (cache : ProofCache) (claimed : List Source) :
    (ctx.valid cache claimed).map (·.capability) =
      (ctx.passing cache claimed).flatMap (·.capabilities) := by
  simp only [valid, List.map_flatMap, Source.capabilities_all]

/-- What is gathered, if anything is, are the capabilities of the proofs that pass and one failure for each
citation whose proof does not. -/
theorem eq_of_gather {g : Gathered} (h : (ctx.gather claimed cache).1 = .ok g) :
    g.sources = ctx.valid cache claimed ∧
      List.Forall₂ (fun c f => c.verdict ctx cache = .error f) (ctx.failing cache claimed) g.failures := by
  rw [gather_fst] at h
  obtain ⟨sources, failures⟩ := Gathered.eq_of_ofChecks h
  constructor
  · rw [sources, List.filterMap_map]
    rfl
  · have paired : (ctx.failing cache claimed).map (verdict ctx cache) = g.failures.map .error := by
      rw [← failures, List.filter_map]
      rfl
    rw [← List.forall₂_eq_eq_eq, List.forall₂_map_left_iff, List.forall₂_map_right_iff] at paired
    exact paired

theorem gather_eq_valid (h : ∀ s ∈ claimed, ctx.Resolvable cache s.delegation) :
    ∃ failures, (ctx.gather claimed cache).1 = .ok ⟨ctx.valid cache claimed, failures⟩ := by
  obtain ⟨g, gathered⟩ := Resolvable.gather h
  obtain ⟨same, -⟩ := eq_of_gather gathered
  exact ⟨g.failures, by rw [gathered, ← same]⟩

/-- A match whose issuers can all be resolved is provable exactly if what is left of it, if anything is, has
a provable match among the capabilities of the proofs that pass. -/
theorem provable_iff {m : Match} (h : ∀ s ∈ m.sources, ctx.Resolvable cache s.delegation) :
    ctx.Provable cache m ↔ ∀ rest, m.prune ctx.mayIssue = some rest →
      ∃ n ∈ (rest.select (ctx.valid cache rest.sources)).found, ctx.Provable cache n := by
  constructor
  · rintro (⟨none⟩ | ⟨pruned, gathered, selected, proven⟩) rest left
    · rw [none] at left
      cases left
    · obtain rfl := Option.some.inj (pruned.symm.trans left)
      rw [(eq_of_gather gathered).1] at selected
      exact ⟨_, selected, proven⟩
  · intro proves
    cases pruned : m.prune ctx.mayIssue with
    | none => exact .issued pruned
    | some rest =>
        obtain ⟨n, selected, proven⟩ := proves rest pruned
        obtain ⟨failures, gathered⟩ := gather_eq_valid (Resolvable.left h pruned)
        exact .delegated pruned gathered selected proven

/-- What is found among the proofs that pass is as resolvable as what they were cited for. -/
theorem Resolvable.valid {s : Source} (h : ∀ t ∈ claimed, ctx.Resolvable cache t.delegation)
    (mem : s ∈ ctx.valid cache claimed) : ctx.Resolvable cache s.delegation := by
  obtain ⟨failures, gathered⟩ := gather_eq_valid h
  obtain ⟨t, ht, cites, -⟩ := cites_of_mem_gather gathered mem
  exact (h t ht).cites cites

/-! ## Matches of one capability -/

section Direct

variable {m n : DirectMatch}

/-- One match proves another of the same kind, with a capability of a proof that passes. -/
def Follows (ctx : Context) (cache : ProofCache) (m n : DirectMatch) : Prop :=
  n ∈ (m.select (ctx.valid cache [m.source])).found

theorem Follows.resolvable (h : ctx.Follows cache m n)
    (resolvable : ctx.Resolvable cache m.source.delegation) :
    ctx.Resolvable cache n.source.delegation := by
  obtain ⟨s, mem, covered⟩ := DirectMatch.mem_found_select.mp h
  obtain ⟨_, _, -, -, -, rfl⟩ := DirectMatch.candidate_eq_found covered
  exact Resolvable.valid (by simpa using resolvable) mem

theorem provable_direct_iff (resolvable : ctx.Resolvable cache m.source.delegation) :
    ctx.Provable cache (.direct m) ↔ m.isSelfIssued ctx.mayIssue = true ∨
      ∃ n, ctx.Follows cache m n ∧ ctx.Provable cache (.direct n) := by
  rw [provable_iff (by simpa [Match.sources] using resolvable)]
  simp only [Match.prune_direct_eq_some_iff, and_imp]
  cases issued : m.isSelfIssued ctx.mayIssue with
  | true => simp
  | false => simp [Match.select, Selection.map, Match.sources, Follows]

/-- A match of one capability is provable exactly if a line of such matches leads from it to one that its
issuer may issue. -/
theorem provable_direct_iff_exists (resolvable : ctx.Resolvable cache m.source.delegation) :
    ctx.Provable cache (.direct m) ↔
      ∃ n, Relation.ReflTransGen (ctx.Follows cache) m n ∧ n.isSelfIssued ctx.mayIssue = true := by
  constructor
  · intro proven
    generalize direct : Match.direct m = whole at proven
    induction proven generalizing m with
    | issued pruned =>
        subst direct
        exact ⟨m, .refl, by simpa [Match.prune] using pruned⟩
    | @delegated _ rest k g pruned gathered selected proven ih =>
        subst direct
        obtain ⟨-, rfl⟩ := Match.prune_direct_eq_some_iff.mp pruned
        rw [(eq_of_gather gathered).1] at selected
        obtain ⟨n, found, rfl⟩ := List.mem_map.mp selected
        have step : ctx.Follows cache m n := found
        obtain ⟨last, line, issued⟩ := ih (step.resolvable resolvable) rfl
        exact ⟨last, .head step line, issued⟩
  · rintro ⟨n, line, issued⟩
    induction line using Relation.ReflTransGen.head_induction_on with
    | refl => exact (provable_direct_iff resolvable).mpr (Or.inl issued)
    | head step _ ih =>
        rw [provable_direct_iff resolvable]
        exact Or.inr ⟨_, step, ih (step.resolvable resolvable)⟩

theorem isSelfIssued_of_not_provable (h : ¬ ctx.Provable cache (.direct m)) :
    m.isSelfIssued ctx.mayIssue = false := by
  by_contra issued
  apply h
  apply Provable.issued
  simpa [Match.prune] using issued

end Direct

/-! ## Access in terms of provability -/

/-- What a trial says about whether a match is provable. -/
def Tells (ctx : Context) (cache : ProofCache) (m : Match) : Trial → Prop
  | .accepted _ => ctx.Provable cache m
  | .rejected _ => ¬ ctx.Provable cache m
  | .aborted _ => False

theorem Decides.tells {m : Match} {trial : Trial} (h : ctx.Decides cache m trial) :
    ctx.Tells cache m trial := by
  cases trial with
  | accepted a => exact h.provable
  | rejected causes => exact h
  | aborted f => exact h

/-- A validator that agrees with everything leaves a trial as telling as it was. -/
theorem tells_of_attempt {steps : Nat} {m : Match} {trial : Trial}
    (agrees : ∀ a, ctx.validate a = .ok ()) (resolvable : ctx.Resolvable cache i.delegation)
    (selected : m ∈ (ctx.selector.select (Source.all i.delegation)).found)
    (h : (ctx.attempt steps i m).outcome cache = some trial) : ctx.Tells cache m trial := by
  rw [outcome_attempt] at h
  obtain ⟨proven, searched, rfl⟩ := Option.map_eq_some_iff.mp h
  have told := (decides_of_selected resolvable selected searched).tells
  cases proven with
  | accepted a =>
      rw [settle_eq_accepted_iff.mpr ⟨rfl, agrees a⟩]
      exact told
  | rejected causes =>
      unfold settle
      split
      case h_1 same => cases same
      · exact told
      · exact told
  | aborted f => exact told.elim

/-- An access that comes to an end grants what passes its own checks and has a provable match, if the
validator agrees with everything. -/
theorem exists_ok_iff_provable {result : Except Failure Authorization}
    (agrees : ∀ a, ctx.validate a = .ok ()) (resolvable : ctx.Resolvable cache i.delegation)
    (h : (ctx.access i).outcome cache = some result) :
    (∃ a, result = .ok a) ↔ ctx.checkInvocation i = .ok () ∧
      ∃ m ∈ (ctx.selector.select (Source.all i.delegation)).found, ctx.Provable cache m := by
  obtain ⟨steps, within⟩ := exists_accessWithin h
  cases checked : ctx.checkInvocation i with
  | error f =>
      rw [accessWithin, checked] at within
      cases within
      simp
  | ok u =>
      rw [outcome_accessWithin checked] at within
      simp only at within
      split at within
      case h_1 f malformed =>
        cases within
        simp [found_eq_nil_of_malformed? malformed]
      case h_2 =>
        obtain ⟨trial, tried, rfl⟩ := Option.map_eq_some_iff.mp within
        have turned := Trial.tried_of_outcome_first (ctx.steady_attempt steps i)
          (fun m selected _ => tells_of_attempt agrees resolvable selected) tried
        cases trial with
        | accepted a =>
            obtain ⟨before, m, after, split, proven, -⟩ := turned
            refine iff_of_true ⟨a, rfl⟩ ⟨rfl, m, ?_, proven⟩
            rw [split]
            simp
        | rejected causes =>
            refine iff_of_false (by simp [settled]) ?_
            rintro ⟨-, m, selected, proven⟩
            obtain ⟨_, unprovable⟩ := turned m selected
            exact unprovable proven
        | aborted f =>
            obtain ⟨_, -, never⟩ := turned
            exact never.elim

end Context

end Mandate

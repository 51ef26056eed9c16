import Mandate.Proofs.Accounting
import Mandate.Proofs.Line
import Mandate.Proofs.Outline

/-!
# What a denial looks like

A search that fails reports a tree of failures. Whatever goes wrong in one branch of it stays in the branch
and becomes a cause of the claim above, so every claim that fails has causes; what ends the search stands
alone. Only the invoked capability itself may be denied without a cause, when it is stranded in a pair of
selectors.
-/

namespace Mandate

namespace Failure

variable {f : Failure}

/-- Whether a failure may stand somewhere below a denial. A failed claim needs causes there. -/
def isBranch : Failure → Bool
  | unresolvablePrincipal .. => false
  | revoked .. => false
  | unauthorized .. => false
  | invalidClaim _ causes => !causes.isEmpty
  | _ => true

/-- A failure of one branch of a search: it and all below it may stand below a denial. -/
def Branch (f : Failure) : Prop := ∀ n ∈ f.walk, n.isBranch = true

theorem Branch.of_walk (alone : f.walk = [f]) (h : f.isBranch = true) : f.Branch := by
  intro n mem
  rw [alone] at mem
  rwa [List.mem_singleton.mp mem]

/-- A failure of a single check or of a single capability. It stays in its branch and has no causes. -/
def isElementary : Failure → Bool
  | unresolvablePrincipal .. => false
  | unprovenCapability .. => false
  | revoked .. => false
  | invalidClaim .. => false
  | unauthorized .. => false
  | _ => true

theorem walk_of_isElementary (h : f.isElementary = true) : f.walk = [f] := by
  cases f <;> first | rfl | cases h

theorem Branch.of_isElementary (h : f.isElementary = true) : f.Branch := by
  refine .of_walk (walk_of_isElementary h) ?_
  cases f <;> first | rfl | cases h

/-- A claim that failed for causes in branches of its own is a branch. -/
theorem Branch.invalidClaim {claim : List Capability} {causes : List Failure} (some : causes ≠ [])
    (below : ∀ f ∈ causes, f.Branch) : (Failure.invalidClaim claim causes).Branch := by
  intro n mem
  rcases List.mem_cons.mp mem with rfl | later
  · simpa [isBranch] using some
  · obtain ⟨f, hf, mem⟩ := mem_walkAll.mp later
    exact below f hf n mem

theorem eq_of_isFatal (h : f.isFatal = true) : ∃ did cause, f = .unresolvablePrincipal did cause := by
  cases f with
  | unresolvablePrincipal did cause => exact ⟨did, cause, rfl⟩
  | _ => cases h

/-- A denial that stands alone names no cause. -/
theorem eq_unauthorized (alone : f.walk.map name = ["Unauthorized"]) : ∃ c, f = .unauthorized c [] := by
  cases f with
  | unauthorized c causes =>
      cases causes with
      | nil => exact ⟨c, rfl⟩
      | cons e es => simp [walk, walkAll, walk_ne_nil] at alone
  | _ => simp [walk, name] at alone

end Failure

open Failure

/-! ## Failures of checks and of selections -/

namespace Context

variable {ctx : Context} {cache : ProofCache} {f : Failure}

theorem checkAudience_eq_error {d : Delegation} {expected : Did} (h : checkAudience d expected = .error f) :
    f = .invalidAudience d.cid d.audience expected ∧ d.audience ≠ expected := by
  unfold checkAudience at h
  split at h
  · cases h
  case isFalse differ =>
    cases h
    exact ⟨rfl, differ⟩

theorem isElementary_of_checkTime {d : Delegation} (h : ctx.checkTime d = .error f) :
    f.isElementary = true := by
  unfold checkTime at h
  split at h
  · cases h
  · cases h
    rfl
  · cases h
    rfl

theorem checkSignature_eq_error {d : Delegation} (h : ctx.checkSignature d = .error f) :
    (∃ cause, f = .unresolvablePrincipal d.issuer cause) ∨ f = .invalidSignature d.cid d.issuer := by
  unfold checkSignature at h
  split at h
  · cases h
  case h_2 cause unresolved =>
    cases h
    exact Or.inl ⟨cause, rfl⟩
  · cases h
    exact Or.inr rfl
  · cases h
    exact Or.inr rfl

/-- An invocation that does not pass its own checks fails with the first of them. What is wrong with its time
is reported as the cause of a denial. -/
theorem checkInvocation_eq_error {i : Invocation} (h : ctx.checkInvocation i = .error f) :
    ctx.checkSignature i.delegation = .error f ∨
    (∃ expected, ctx.authority = some expected ∧ checkAudience i.delegation expected = .error f) ∨
    ∃ e, ctx.checkTime i.delegation = .error e ∧ f = .unauthorized i.capability [e] := by
  unfold checkInvocation at h
  rw [seq_eq_error_iff] at h
  refine h.imp_right fun ⟨_, rest⟩ => ?_
  cases authority : ctx.authority <;> cases time : ctx.checkTime i.delegation <;>
    rw [authority, time] at rest
  case none.ok => cases rest
  case none.error e =>
    cases rest
    exact Or.inr ⟨e, rfl, rfl⟩
  case some.ok expected _ =>
    rcases seq_eq_error_iff.mp rest with audience | ⟨-, passed⟩
    · exact Or.inl ⟨expected, rfl, audience⟩
    · cases passed
  case some.error expected e =>
    rcases seq_eq_error_iff.mp rest with audience | ⟨-, refused⟩
    · exact Or.inl ⟨expected, rfl, audience⟩
    · cases refused
      exact Or.inr ⟨e, rfl, rfl⟩

/-- A proof that is not accepted fails for that alone, unless its issuer cannot be resolved. -/
theorem isElementary_of_checkProof {citing proof : Delegation}
    (h : ctx.checkProof citing proof = .error f) (harmless : f.isFatal = false) :
    f.isElementary = true := by
  unfold checkProof at h
  rw [seq_eq_error_iff, seq_eq_error_iff] at h
  rcases h with audience | ⟨-, time | ⟨-, signature⟩⟩
  · obtain ⟨rfl, -⟩ := checkAudience_eq_error audience
    rfl
  · exact isElementary_of_checkTime time
  · rcases checkSignature_eq_error signature with ⟨cause, rfl⟩ | rfl
    · cases harmless
    · rfl

theorem isElementary_of_answer {resolver : Option Resolver} {link : Cid}
    (h : cache.answer resolver link = .error f) : f.isElementary = true := by
  unfold ProofCache.answer at h
  split at h
  · cases h
  · cases h
    rfl
  · unfold ProofCache.fetch at h
    split at h
    · cases h
      rfl
    · split at h
      · cases h
      · cases h
        rfl

theorem isElementary_of_verdict {c : Citation} (h : c.verdict ctx cache = .error f)
    (harmless : f.isFatal = false) : f.isElementary = true := by
  unfold Citation.verdict at h
  cases found : ctx.cited cache c.proof with
  | error e =>
      rw [found] at h
      cases h
      unfold cited at found
      split at found
      · cases found
      · exact isElementary_of_answer found
  | ok d =>
      rw [found] at h
      change (ctx.checkProof c.citing d >>= fun _ => pure d) = _ at h
      rw [seq_eq_error_iff] at h
      rcases h with rejected | ⟨-, same⟩
      · exact isElementary_of_checkProof rejected harmless
      · cases same

end Context

namespace Gathered

theorem map_eq_ok_iff {α β ε : Type} {x : Except ε α} {g : α → β} {b : β} :
    x.map g = .ok b ↔ ∃ a, x = .ok a ∧ g a = b := by
  cases x <;> simp [Except.map]

theorem map_eq_error_iff {α β ε : Type} {x : Except ε α} {g : α → β} {e : ε} :
    x.map g = .error e ↔ x = .error e := by
  cases x <;> simp [Except.map]

/-- What is sorted out of some checks are those that failed, none of which ends the search. -/
theorem mem_failures {checks : List (Except Failure Delegation)} {g : Gathered} {f : Failure}
    (h : ofChecks checks = .ok g) (mem : f ∈ g.failures) : .error f ∈ checks ∧ f.isFatal = false := by
  induction checks generalizing g with
  | nil =>
      cases h
      cases mem
  | cons check rest ih =>
      cases check with
      | ok d =>
          obtain ⟨more, later, rfl⟩ := map_eq_ok_iff.mp h
          exact (ih later mem).imp_left (List.mem_cons_of_mem _)
      | error e =>
          rw [ofChecks] at h
          split at h
          · cases h
          case isFalse harmless =>
            obtain ⟨more, later, rfl⟩ := map_eq_ok_iff.mp h
            rcases List.mem_cons.mp mem with rfl | mem
            · exact ⟨List.mem_cons_self, by simpa using harmless⟩
            · exact (ih later mem).imp_left (List.mem_cons_of_mem _)

/-- Nothing is gathered only where a check ends the search. -/
theorem isFatal_of_ofChecks {checks : List (Except Failure Delegation)} {f : Failure}
    (h : ofChecks checks = .error f) : f.isFatal = true := by
  induction checks with
  | nil => cases h
  | cons check rest ih =>
      cases check with
      | ok d => exact ih (map_eq_error_iff.mp h)
      | error e =>
          rw [ofChecks] at h
          split at h
          case isTrue fatal =>
            cases h
            exact fatal
          case isFalse => exact ih (map_eq_error_iff.mp h)

end Gathered

namespace Descriptor

/-- A descriptor reports no errors but malformed capabilities of the given sources. -/
theorem eq_of_mem_errors {d : Descriptor} {given : List Source} {f : Failure}
    (mem : f ∈ (d.select given).errors) :
    ∃ s ∈ given, ∃ cause, f = .malformedCapability s.capability cause := by
  obtain ⟨c, candidate, rejected⟩ := List.mem_filterMap.mp mem
  obtain ⟨s, hs, rfl⟩ := List.mem_map.mp candidate
  refine ⟨s, hs, ?_⟩
  unfold Descriptor.candidate at rejected
  split at rejected
  · cases rejected
  · cases rejected
  case h_3 e other parsed =>
    cases rejected
    unfold parse at parsed
    split at parsed
    · split at parsed
      · cases parsed
      case h_2 cause _ =>
        cases parsed
        exact ⟨cause, rfl⟩
    · exact absurd (Except.error.inj parsed).symm (other _)

end Descriptor

namespace Selector

/-- Neither does any other selector. -/
theorem eq_of_mem_errors {selector : Selector} {given : List Source} {f : Failure}
    (mem : f ∈ (selector.select given).errors) :
    ∃ s ∈ given, ∃ cause, f = .malformedCapability s.capability cause := by
  induction selector with
  | descriptor d => exact Descriptor.eq_of_mem_errors mem
  | derive origin target rule => exact Descriptor.eq_of_mem_errors mem
  | or l r left right => exact (List.mem_append.mp mem).elim left right
  | and l r left right => exact (List.mem_append.mp mem).elim left right

end Selector

namespace DirectMatch

theorem isElementary_of_mem_errors {m : DirectMatch} {given : List Source} {f : Failure}
    (mem : f ∈ (m.select given).errors) : f.isElementary = true := by
  obtain ⟨c, candidate, rejected⟩ := List.mem_filterMap.mp mem
  obtain ⟨s, -, rfl⟩ := List.mem_map.mp candidate
  unfold DirectMatch.candidate at rejected
  split at rejected
  · cases rejected
  · split at rejected
    · cases rejected
      rfl
    · split at rejected
      · cases rejected
      · cases rejected
        rfl

end DirectMatch

namespace Match

/-- The errors of a selection that is to prove a match are about single capabilities. -/
theorem isElementary_of_mem_errors (m : Match) {given : List Source} {f : Failure}
    (mem : f ∈ (m.select given).errors) : f.isElementary = true := by
  induction m using induct generalizing given with
  | direct d => exact DirectMatch.isElementary_of_mem_errors mem
  | derived d origin rule =>
      simp only [select, DirectMatch.selectDerived, List.mem_append] at mem
      rcases mem with (refused | mem) | mem
      · obtain ⟨n, -, rejected⟩ := List.mem_filterMap.mp refused
        split at rejected
        · cases rejected
        · cases rejected
          rfl
      · exact DirectMatch.isElementary_of_mem_errors mem
      · obtain ⟨s, -, cause, rfl⟩ := Selector.eq_of_mem_errors mem
        rfl
  | group m ms ih =>
      rw [select_group] at mem
      simp only [Selection.combine, List.flatMap_map] at mem
      obtain ⟨k, hk, mem⟩ := List.mem_flatMap.mp mem
      exact ih k hk mem

end Match

namespace Selection

variable {α : Type}

/-- What was not matched is reported for itself. -/
theorem mem_failures_iff {s : Selection α} {f : Failure} :
    f ∈ s.failures ↔ f ∈ s.errors ∨ ∃ c ∈ s.unknown, f = .unknownCapability c := by
  rw [failures, List.mem_append, List.mem_map]
  exact or_congr_right (exists_congr fun _ => and_congr_right fun _ => eq_comm)

/-- What was not matched is reported in branches if the errors are. -/
theorem branch_of_mem_failures {s : Selection α} (errors : ∀ f ∈ s.errors, f.Branch) {f : Failure}
    (mem : f ∈ s.failures) : f.Branch := by
  rcases mem_failures_iff.mp mem with error | ⟨c, -, rfl⟩
  · exact errors f error
  · exact .of_walk rfl rfl

theorem failures_eq_nil_iff {s : Selection α} : s.failures = [] ↔ s.errors = [] ∧ s.unknown = [] := by
  simp [failures]

end Selection

/-! ## Failures of the search -/

namespace Trial

open Walk

/-- Matches that are all rejected collect causes: those there were before and those of each attempt, of
which there are some. -/
theorem causes_of_outcome_first {resolver : Option Resolver} {attempt : Match → Walk Trial}
    (steady : ∀ m, Steady resolver (attempt m)) {P : Failure → Prop} {ms : List Match}
    {causes all : List Failure} {cache : ProofCache}
    (each : ∀ m ∈ ms, ∀ more, (attempt m).outcome cache = some (.rejected more) →
      more ≠ [] ∧ ∀ f ∈ more, P f)
    (start : ∀ f ∈ causes, P f) (tried : (first attempt ms causes).outcome cache = some (.rejected all)) :
    (∀ f ∈ all, P f) ∧ (all = [] ↔ causes = [] ∧ ms = []) := by
  induction ms generalizing causes with
  | nil =>
      cases tried
      exact ⟨start, by simp⟩
  | cons m ms ih =>
      rw [outcome_first_cons steady] at tried
      obtain ⟨t, attempted, rest⟩ := Option.bind_eq_some_iff.mp tried
      cases t with
      | accepted a => cases rest
      | aborted f => cases rest
      | rejected more =>
          obtain ⟨some, held⟩ := each m List.mem_cons_self more attempted
          obtain ⟨below, empty⟩ := ih (fun k hk => each k (List.mem_cons_of_mem _ hk))
            (fun f hf => (List.mem_append.mp hf).elim (start f) (held f)) rest
          refine ⟨below, ?_⟩
          simp [empty, some]

end Trial

namespace Context

open Walk

variable {ctx : Context} {cache : ProofCache} {i : Invocation} {f : Failure}

/-- A claim that failed, with causes in branches of its own. -/
def Unproven (claim : Match) (f : Failure) : Prop :=
  ∃ causes, f = .invalidClaim claim.capabilities causes ∧ causes ≠ [] ∧ ∀ c ∈ causes, c.Branch

theorem Unproven.branch {claim : Match} (h : Unproven claim f) : f.Branch := by
  obtain ⟨causes, rfl, some, below⟩ := h
  exact .invalidClaim some below

/-- What is said of a claim before a match is tried: what its proofs and their capabilities failed for, or,
if there is nothing to be said of these, that the claim is unproven. -/
theorem mem_claimFailures {claim : Match} {g : Gathered}
    (gathered : (ctx.gather claim.sources cache).1 = .ok g) {f : Failure}
    (mem : f ∈ claimFailures claim g (claim.select g.sources)) :
    f.isElementary = true ∨
      f = .unprovenCapability claim.capabilities claim.delegation.issuer ∧ g.failures = [] ∧
        (claim.select g.sources).found = [] ∧ (claim.select g.sources).failures = [] := by
  simp only [claimFailures] at mem
  split at mem
  case isTrue nothing =>
    obtain ⟨found, silent⟩ := Bool.and_eq_true_iff.mp nothing
    obtain ⟨passed, failures⟩ := List.append_eq_nil_iff.mp (List.isEmpty_iff.mp silent)
    exact Or.inr ⟨List.mem_singleton.mp mem, passed, List.isEmpty_iff.mp found, failures⟩
  case isFalse =>
    refine Or.inl ?_
    rcases List.mem_append.mp mem with failed | unmatched
    · rw [gather_fst] at gathered
      obtain ⟨check, harmless⟩ := Gathered.mem_failures gathered failed
      obtain ⟨c, -, verdict⟩ := List.mem_map.mp check
      exact isElementary_of_verdict verdict harmless
    · rcases Selection.mem_failures_iff.mp unmatched with error | ⟨c, -, rfl⟩
      · exact claim.isElementary_of_mem_errors error
      · rfl

theorem branch_of_claimFailures {claim : Match} {g : Gathered}
    (gathered : (ctx.gather claim.sources cache).1 = .ok g) {f : Failure}
    (mem : f ∈ claimFailures claim g (claim.select g.sources)) : f.Branch := by
  rcases mem_claimFailures gathered mem with elementary | ⟨rfl, -⟩
  · exact .of_isElementary elementary
  · exact .of_walk rfl rfl

theorem claimFailures_ne_nil {claim : Match} {g : Gathered} {selection : Selection Match}
    (none : selection.found = []) : claimFailures claim g selection ≠ [] := by
  simp only [claimFailures]
  split
  · simp
  case isFalse h => simpa [none] using h

/-- How a match that is not proven turns out: rejected for what is left of it, or the search ends. -/
def Failing : Trial → Prop
  | .accepted _ => True
  | .rejected causes => ∃ claim e, causes = [e] ∧ Unproven claim e
  | .aborted e => e.isFatal = true

theorem failing_of_prove {authorize : Match → Walk (Except Failure Authorization)}
    (steady : ∀ m, Steady ctx.resolver (authorize m))
    (unproven : ∀ claim e, (authorize claim).outcome cache = some (.error e) →
      e.isFatal = true ∨ Unproven claim e) {m : Match} {trial : Trial}
    (h : (ctx.prove authorize m).outcome cache = some trial) : Failing trial := by
  cases pruned : m.prune ctx.mayIssue with
  | none =>
      rw [outcome_prove_issued pruned] at h
      cases h
      trivial
  | some rest =>
      rw [outcome_prove_left steady pruned] at h
      obtain ⟨result, authorized, rfl⟩ := Option.map_eq_some_iff.mp h
      cases result with
      | ok p => trivial
      | error e =>
          simp only
          split
          case isTrue fatal => exact fatal
          case isFalse harmless =>
            exact ⟨rest, e, rfl, (unproven rest e authorized).resolve_left harmless⟩

/-- A claim that is not authorized failed for causes in its branches, unless the search ended. -/
theorem unproven_of_authorize {steps : Nat} {claim : Match}
    (h : (ctx.authorize steps claim).outcome cache = some (.error f)) :
    f.isFatal = true ∨ Unproven claim f := by
  induction steps generalizing claim f with
  | zero => cases h
  | succ steps ih =>
      have steady := steady_prove (ctx.steady_authorize steps)
      have failing : ∀ m t, (ctx.prove (ctx.authorize steps) m).outcome cache = some t → Failing t :=
        fun _ _ => failing_of_prove (ctx.steady_authorize steps) fun _ _ => ih
      rw [outcome_authorize_succ] at h
      cases gathered : (ctx.gather claim.sources cache).1 with
      | error e =>
          rw [gathered] at h
          cases h
          rw [gather_fst] at gathered
          exact Or.inl (Gathered.isFatal_of_ofChecks gathered)
      | ok g =>
          rw [gathered] at h
          obtain ⟨trial, tried, concluded⟩ := Option.map_eq_some_iff.mp h
          cases trial with
          | accepted a => cases concluded
          | rejected causes =>
              cases concluded
              refine Or.inr ⟨causes, rfl, ?_⟩
              obtain ⟨below, empty⟩ := Trial.causes_of_outcome_first (P := Branch) steady
                (fun m _ more rejected => by
                  obtain ⟨rest, e, rfl, unproven⟩ := failing m _ rejected
                  exact ⟨by simp, by simpa using unproven.branch⟩)
                (fun _ => branch_of_claimFailures gathered) tried
              refine ⟨fun none => ?_, below⟩
              obtain ⟨silent, unmatched⟩ := empty.mp none
              exact claimFailures_ne_nil unmatched silent
          | aborted e =>
              cases concluded
              obtain ⟨m, -, aborted⟩ := Trial.tried_of_outcome_first steady
                (fun m _ t => failing m t) tried
              exact Or.inl aborted

/-! ## Failures of an access -/

/-- The selector finds nothing in an invocation and has nothing to say about it. -/
def Unmentioned (ctx : Context) (i : Invocation) : Prop :=
  let selection := ctx.selector.select (Source.all i.delegation)
  selection.found = [] ∧ selection.errors = [] ∧ selection.unknown = []

/-- Why an invocation may be denied. -/
inductive Denial (ctx : Context) (i : Invocation) : Failure → Prop where
  | signature : Denial ctx i (.invalidSignature i.delegation.cid i.delegation.issuer)
  | audience {expected : Did} (authority : ctx.authority = some expected)
      (differ : i.delegation.audience ≠ expected) :
      Denial ctx i (.invalidAudience i.delegation.cid i.delegation.audience expected)
  | principal (did : Did) (cause : String) : Denial ctx i (.unresolvablePrincipal did cause)
  | malformed (cause : Schema.Error) : Denial ctx i (.malformedCapability i.capability cause)
  /-- The causes belong to branches, or the validator refused what was proven. There is none only if the
  invocation is in order and the selector, which lost its capability, says nothing about it. -/
  | unauthorized {causes : List Failure}
      (below : ∀ f ∈ causes, f.Branch ∨ ∃ problem, f = .revoked i.delegation.cid problem)
      (empty : causes = [] ↔ ctx.checkInvocation i = .ok () ∧ ctx.Unmentioned i)
      (stranded : causes = [] → ∀ s ∈ Source.all i.delegation,
        ctx.selector.Stranded s (Source.all i.delegation)) :
      Denial ctx i (.unauthorized i.capability causes)

theorem Denial.of_isFatal (h : f.isFatal = true) : ctx.Denial i f := by
  obtain ⟨did, cause, rfl⟩ := Failure.eq_of_isFatal h
  exact .principal did cause

/-- A selector that says nothing about an invocation has lost its capability. -/
theorem Unmentioned.stranded (h : ctx.Unmentioned i) {s : Source} (mem : s ∈ Source.all i.delegation) :
    ctx.selector.Stranded s (Source.all i.delegation) := by
  obtain ⟨found, errors, unknown⟩ := h
  rcases ctx.selector.accounts_or_stranded mem with accounts | lost
  case inr => exact lost
  cases accounts with
  | used uses => exact absurd found uses.found_ne_nil
  | rejected error mem names => simp [errors] at error
  | unknown mem => simp [unknown] at mem

/-- An invocation that does not pass its own checks is denied for that. -/
theorem denial_of_checkInvocation (h : ctx.checkInvocation i = .error f) : ctx.Denial i f := by
  have unchecked : ctx.checkInvocation i ≠ .ok () := by simp [h]
  rcases checkInvocation_eq_error h with signature | ⟨expected, authority, audience⟩ | ⟨e, time, rfl⟩
  · rcases checkSignature_eq_error signature with ⟨cause, rfl⟩ | rfl
    · exact .principal _ _
    · exact .signature
  · obtain ⟨rfl, differ⟩ := checkAudience_eq_error audience
    exact .audience authority differ
  · refine .unauthorized ?_ ?_ (fun none => by cases none)
    · intro c mem
      obtain rfl := List.mem_singleton.mp mem
      exact Or.inl (.of_isElementary (isElementary_of_checkTime time))
    · simp [unchecked]

/-- How a match of an invocation that is not accepted turns out: rejected by the validator, or for the causes
of the claim that is left of it, or the search ends. -/
def Refused (i : Invocation) : Trial → Prop
  | .accepted _ => True
  | .rejected causes =>
    causes ≠ [] ∧ ∀ f ∈ causes, f.Branch ∨ ∃ problem, f = .revoked i.delegation.cid problem
  | .aborted e => e.isFatal = true

theorem refused_of_attempt {steps : Nat} {m : Match} {trial : Trial}
    (h : (ctx.attempt steps i m).outcome cache = some trial) : Refused i trial := by
  rw [outcome_attempt] at h
  obtain ⟨t, proven, rfl⟩ := Option.map_eq_some_iff.mp h
  have failing : Failing t :=
    failing_of_prove (ctx.steady_authorize steps) (fun _ _ => unproven_of_authorize) proven
  cases t with
  | accepted a =>
      simp only [settle]
      split
      · trivial
      · exact ⟨by simp, by simp⟩
  | rejected more =>
      obtain ⟨claim, e, rfl, inner, rfl, some, below⟩ := failing
      exact ⟨some, fun f mem => Or.inl (below f mem)⟩
  | aborted e => exact failing

/-- Whenever an access is denied, it is for one of these reasons. -/
theorem denial_of_access {later : ProofCache} (h : ctx.access i cache = some (.error f, later)) :
    ctx.Denial i f := by
  have denied : (ctx.access i).outcome cache = some (.error f) := by
    rw [Walk.outcome, h]
    rfl
  obtain ⟨steps, within⟩ := exists_accessWithin denied
  cases checked : ctx.checkInvocation i with
  | error e =>
      rw [accessWithin, checked] at within
      cases within
      exact denial_of_checkInvocation checked
  | ok u =>
      rw [outcome_accessWithin checked] at within
      simp only at within
      split at within
      case h_1 e malformed =>
        cases within
        unfold malformed? at malformed
        split at malformed
        · obtain ⟨s, mem, cause, rfl⟩ :=
            Selector.eq_of_mem_errors (List.mem_of_find?_eq_some malformed)
          rw [capability_of_mem_all mem]
          exact .malformed cause
        · cases malformed
      case h_2 =>
        obtain ⟨trial, tried, settled⟩ := Option.map_eq_some_iff.mp within
        cases trial with
        | accepted a => cases settled
        | rejected causes =>
            cases settled
            have reported : ∀ f ∈ (ctx.selector.select (Source.all i.delegation)).failures,
                f.Branch ∨ ∃ problem, f = .revoked i.delegation.cid problem := by
              intro f mem
              refine Or.inl (Selection.branch_of_mem_failures ?_ mem)
              intro f mem
              obtain ⟨s, -, cause, rfl⟩ := Selector.eq_of_mem_errors mem
              exact .of_walk rfl rfl
            obtain ⟨below, empty⟩ := Trial.causes_of_outcome_first (ctx.steady_attempt steps i)
              (fun _ _ _ rejected => refused_of_attempt rejected) reported tried
            have silent : causes = [] ↔ ctx.Unmentioned i := by
              rw [empty, Selection.failures_eq_nil_iff, Unmentioned]
              tauto
            refine .unauthorized below ?_ fun none s => (silent.mp none).stranded
            simp [silent, checked]
        | aborted e =>
            cases settled
            obtain ⟨m, -, aborted⟩ := Trial.tried_of_outcome_first (ctx.steady_attempt steps i)
              (fun _ _ _ => refused_of_attempt) tried
            exact .of_isFatal aborted

end Context

/-! ## A denied chain and a denial without a cause -/

namespace Sample

/-- Whether an invocation is denied with a failure that passes a test. -/
def denies (ctx : Context) (made : Except Delegation.Error Invocation) (test : Failure → Bool) : Bool :=
  match made with
  | .ok i =>
    match ctx.access i .empty with
    | some (.error f, _) => test f
    | _ => false
  | .error _ => false

theorem exists_of_denies {ctx : Context} {made : Except Delegation.Error Invocation}
    {test : Failure → Bool} (h : denies ctx made test = true) :
    ∃ i f later, made = .ok i ∧ ctx.access i .empty = some (.error f, later) ∧ test f = true := by
  unfold denies at h
  split at h
  case h_1 i =>
    split at h
    case h_1 f later denied => exact ⟨i, f, later, rfl, denied, h⟩
    case h_2 => cases h
  case h_2 => cases h

/-- What Alice asks of the service on her own. -/
def request : Except Delegation.Error Invocation := do
  Invocation.ofDelegation (← grant alice service "store/add" [] [])

end Sample

/-- Carol exceeds what Alice allowed: Bob's claim fails below hers, which is reported under the denial. -/
theorem Context.denial_of_access_chain :
    ∃ i f later,
      Sample.chain [("size", .integer 5)] [] [("size", .integer 9)] = .ok i ∧
      (Sample.context Sample.limited).access i .empty = some (.error f, later) ∧
      f.walk.map Failure.name = ["Unauthorized", "InvalidClaim", "EscalatedCapability"] ∧
      (Sample.context Sample.limited).Denial i f := by
  have denies : Sample.denies (Sample.context Sample.limited)
      (Sample.chain [("size", .integer 5)] [] [("size", .integer 9)])
      (fun f => decide (f.walk.map Failure.name =
        ["Unauthorized", "InvalidClaim", "EscalatedCapability"])) = true := by
    decide +kernel
  obtain ⟨i, f, later, made, denied, names⟩ := Sample.exists_of_denies denies
  exact ⟨i, f, later, made, denied, of_decide_eq_true names, denial_of_access denied⟩

/-- Alice may add, but a pair of selectors that also wants an upload denies it and names no cause. -/
theorem Context.denied_unpaired :
    ∃ i c later, Sample.request = .ok i ∧
      (Sample.context (Sample.adding.and Sample.uploading)).access i .empty =
        some (.error (.unauthorized c []), later) := by
  have denies : Sample.denies (Sample.context (Sample.adding.and Sample.uploading)) Sample.request
      (fun f => decide (f.walk.map Failure.name = ["Unauthorized"])) = true := by
    decide +kernel
  obtain ⟨i, f, later, made, denied, alone⟩ := Sample.exists_of_denies denies
  obtain ⟨c, rfl⟩ := Failure.eq_unauthorized (of_decide_eq_true alone)
  exact ⟨i, c, later, made, denied⟩

end Mandate

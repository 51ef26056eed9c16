import Mandate.Proofs.Valid

/-!
# What a denial reports

With a single descriptor, a claim that cannot be proven fails for one cause for each proof that it cites and
that does not pass, and for one cause for each capability of those that do pass. The causes stand in this
order: proofs, then capabilities that do not cover the claim, then capabilities of no known kind, then
capabilities that do cover it, which fail for causes of their own. A claim that cites nothing fails for that.
-/

namespace Mandate

/-! ## Proofs that do not pass -/

namespace Window

variable {w : Window} {now t : Timestamp}

theorem check_eq_expired (h : w.check now = .error (.expired t)) :
    (w.expiration = .included t ∨ w.expiration = .excluded t) ∧ w.expiration.admitsUntil now = false := by
  obtain ⟨start, finish⟩ := w
  cases start <;> cases finish <;> simp only [check] at h <;> (repeat' split at h) <;>
    simp_all [Bound.admitsUntil]

theorem check_eq_notValidBefore (h : w.check now = .error (.notValidBefore t)) :
    (w.notBefore = .included t ∨ w.notBefore = .excluded t) ∧ w.expiration.admitsUntil now = true ∧
      w.notBefore.admitsFrom now = false := by
  obtain ⟨start, finish⟩ := w
  cases start <;> cases finish <;> simp only [check] at h <;> (repeat' split at h) <;>
    simp_all [Bound.admitsUntil, Bound.admitsFrom]

end Window

namespace ProofCache

/-- What does not resolve is not available, for some reason. -/
theorem answer_eq_error {resolver : Option Resolver} {cache : ProofCache} {link : Cid} {f : Failure}
    (h : answer resolver cache link = .error f) : ∃ reason, f = .unavailableProof link reason := by
  unfold answer at h
  split at h
  · cases h
  · cases h
    exact ⟨none, rfl⟩
  case h_3 r _ =>
    unfold fetch at h
    split at h
    case h_1 reason _ =>
      cases h
      exact ⟨some reason, rfl⟩
    · split at h
      · cases h
      · cases h
        exact ⟨_, rfl⟩

end ProofCache

namespace Context

variable {ctx : Context} {cache : ProofCache} {c : Citation} {f : Failure}

/-- Why a cited proof does not pass: the first of the checks that it fails. -/
inductive Dismissed (ctx : Context) (cache : ProofCache) (c : Citation) : Failure → Prop where
  | unavailable {link : Cid} {reason : Option String} (linked : c.proof = .link link)
      (missing : cache.answer ctx.resolver link = .error (.unavailableProof link reason)) :
      Dismissed ctx cache c (.unavailableProof link reason)
  | misaddressed {p : Delegation} (available : ctx.cited cache c.proof = .ok p)
      (differ : p.audience ≠ c.citing.issuer) :
      Dismissed ctx cache c (.invalidAudience p.cid p.audience c.citing.issuer)
  | expired {p : Delegation} {t : Timestamp} (available : ctx.cited cache c.proof = .ok p)
      (addressed : p.audience = c.citing.issuer)
      (bound : p.window.expiration = .included t ∨ p.window.expiration = .excluded t)
      (late : p.window.expiration.admitsUntil ctx.now = false) :
      Dismissed ctx cache c (.expired p.cid t)
  | early {p : Delegation} {t : Timestamp} (available : ctx.cited cache c.proof = .ok p)
      (addressed : p.audience = c.citing.issuer)
      (bound : p.window.notBefore = .included t ∨ p.window.notBefore = .excluded t)
      (timely : p.window.expiration.admitsUntil ctx.now = true)
      (early : p.window.notBefore.admitsFrom ctx.now = false) :
      Dismissed ctx cache c (.notValidBefore p.cid t)
  | unsigned {p : Delegation} (available : ctx.cited cache c.proof = .ok p)
      (addressed : p.audience = c.citing.issuer) (timely : p.window.contains ctx.now = true)
      (unsigned : ¬ p.SignedUnder ctx.directory) :
      Dismissed ctx cache c (.invalidSignature p.cid p.issuer)

theorem checkTime_eq_error {p : Delegation} (h : ctx.checkTime p = .error f) :
    (∃ t, f = .expired p.cid t ∧ p.window.check ctx.now = .error (.expired t)) ∨
      ∃ t, f = .notValidBefore p.cid t ∧ p.window.check ctx.now = .error (.notValidBefore t) := by
  unfold checkTime at h
  split at h
  · cases h
  case h_2 t late =>
    cases h
    exact Or.inl ⟨t, rfl, late⟩
  case h_3 t early =>
    cases h
    exact Or.inr ⟨t, rfl, early⟩

/-- A proof that is there and whose issuer can be resolved is dismissed for the check that it fails. -/
theorem dismissed_of_checkProof {p : Delegation} (available : ctx.cited cache c.proof = .ok p)
    (resolves : ∃ v, ctx.directory p.issuer = .ok v) (h : ctx.checkProof c.citing p = .error f) :
    ctx.Dismissed cache c f := by
  unfold checkProof at h
  rw [seq_eq_error_iff, seq_eq_error_iff, checkAudience_eq_ok_iff, checkTime_eq_ok_iff] at h
  rcases h with audience | ⟨addressed, time | ⟨timely, signature⟩⟩
  · obtain ⟨rfl, differ⟩ := checkAudience_eq_error audience
    exact .misaddressed available differ
  · rcases checkTime_eq_error time with ⟨t, rfl, late⟩ | ⟨t, rfl, soon⟩
    · obtain ⟨bound, late⟩ := Window.check_eq_expired late
      exact .expired available addressed bound late
    · obtain ⟨bound, timely, soon⟩ := Window.check_eq_notValidBefore soon
      exact .early available addressed bound timely soon
  · obtain ⟨v, known⟩ := resolves
    have harmless := checkSignature_not_fatal known signature
    rcases checkSignature_eq_error signature with ⟨cause, rfl⟩ | rfl
    · cases harmless
    · refine .unsigned available addressed timely fun signed => ?_
      rw [checkSignature_eq_ok_iff.mpr signed] at signature
      cases signature

/-- A citation whose proof does not pass is dismissed for a reason of its own. -/
theorem dismissed_of_verdict (h : c.verdict ctx cache = .error f)
    (resolves : ∀ p, ctx.cited cache c.proof = .ok p → ∃ v, ctx.directory p.issuer = .ok v) :
    ctx.Dismissed cache c f := by
  unfold Citation.verdict at h
  rcases available : ctx.cited cache c.proof with e | p
  · rw [available] at h
    cases h
    cases proof : c.proof with
    | inline q =>
        rw [proof] at available
        cases available
    | link link =>
        rw [proof] at available
        obtain ⟨reason, rfl⟩ := ProofCache.answer_eq_error available
        exact .unavailable proof available
  · rw [available] at h
    change (ctx.checkProof c.citing p >>= fun _ => pure p) = _ at h
    rw [seq_eq_error_iff] at h
    rcases h with rejected | ⟨-, same⟩
    · exact dismissed_of_checkProof available (resolves p available) rejected
    · cases same

end Context

/-! ## Capabilities that prove nothing -/

namespace DirectMatch

variable {m n : DirectMatch} {s : Source} {given : List Source} {f : Failure}

/-- A capability is of the claimed kind: it can be resolved against the claim. -/
def Resolves (m : DirectMatch) (s : Source) : Prop :=
  (Coverage.resolve? s.capability m.capability).isSome = true

/-- A capability covers the claimed one: resolved against it, it can be read, and the rule accepts it. -/
def Derives (m : DirectMatch) (s : Source) : Prop :=
  ∃ resolved value, Coverage.resolve? s.capability m.capability = some resolved ∧
    m.descriptor.read resolved = .ok value ∧ m.descriptor.rule m.value value = .ok ()

/-- Why a capability of the claimed kind does not cover the claim. -/
inductive Refuses (m : DirectMatch) (s : Source) : Failure → Prop where
  | malformed {resolved : Capability} {cause : Schema.Error}
      (resolves : Coverage.resolve? s.capability m.capability = some resolved)
      (unread : m.descriptor.read resolved = .error cause) :
      Refuses m s (.malformedCapability s.capability cause)
  | escalated {resolved : Capability} {value : Parsed} {problem : Problem}
      (resolves : Coverage.resolve? s.capability m.capability = some resolved)
      (read : m.descriptor.read resolved = .ok value)
      (refused : m.descriptor.rule m.value value = .error problem) :
      Refuses m s (.escalatedCapability m.capability [resolved] problem)

theorem derives_iff : m.Derives s ↔ (m.candidate s).found?.isSome = true := by
  unfold Derives candidate
  cases Coverage.resolve? s.capability m.capability with
  | none => simp [Candidate.found?]
  | some resolved =>
      simp only [Option.some.injEq, exists_and_left, exists_eq_left']
      cases m.descriptor.read resolved with
      | error cause => simp [Candidate.found?]
      | ok value =>
          simp only [Except.ok.injEq, exists_eq_left']
          cases m.descriptor.rule m.value value <;> simp [Candidate.found?]

instance (m : DirectMatch) (s : Source) : Decidable (m.Resolves s) :=
  inferInstanceAs (Decidable (_ = true))

instance (m : DirectMatch) (s : Source) : Decidable (m.Derives s) :=
  decidable_of_iff _ derives_iff.symm

theorem Derives.resolves (h : m.Derives s) : m.Resolves s := by
  obtain ⟨resolved, _, resolves, -⟩ := h
  rw [Resolves, resolves]
  rfl

/-- The three things that can become of a capability. -/
theorem candidate_cases (m : DirectMatch) (s : Source) :
    (¬ m.Resolves s ∧ m.candidate s = .unknown s.capability) ∨
      (m.Resolves s ∧ ¬ m.Derives s ∧ ∃ f, m.candidate s = .rejected f ∧ m.Refuses s f) ∨
      (m.Derives s ∧ ∃ n, m.candidate s = .found n) := by
  rw [derives_iff]
  unfold Resolves candidate
  cases resolves : Coverage.resolve? s.capability m.capability with
  | none => exact Or.inl ⟨by simp, rfl⟩
  | some resolved =>
      refine Or.inr ?_
      simp only
      cases read : m.descriptor.read resolved with
      | error cause => exact Or.inl ⟨rfl, by simp [Candidate.found?], _, rfl, .malformed resolves read⟩
      | ok value =>
          simp only
          cases refused : m.descriptor.rule m.value value with
          | error problem =>
              exact Or.inl ⟨rfl, by simp [Candidate.found?], _, rfl, .escalated resolves read refused⟩
          | ok _ => exact Or.inr ⟨rfl, _, rfl⟩

/-- What a match makes of some sources, each kind of result in the order of the sources that have it. -/
structure Sorts (m : DirectMatch) (given : List Source) (selection : Selection DirectMatch) : Prop where
  found : List.Forall₂ (fun s n => m.candidate s = .found n) (given.filter fun s => m.Derives s)
    selection.found
  errors : List.Forall₂ m.Refuses (given.filter fun s => m.Resolves s ∧ ¬ m.Derives s) selection.errors
  unknown : selection.unknown = (given.filter fun s => ¬ m.Resolves s).map (·.capability)

theorem select_cons_found (h : m.candidate s = .found n) :
    m.select (s :: given) =
      { m.select given with found := n :: (m.select given).found } := by
  rw [select, List.map_cons, h]
  rfl

theorem select_cons_rejected (h : m.candidate s = .rejected f) :
    m.select (s :: given) =
      { m.select given with errors := f :: (m.select given).errors } := by
  rw [select, List.map_cons, h]
  rfl

theorem select_cons_unknown (h : m.candidate s = .unknown s.capability) :
    m.select (s :: given) =
      { m.select given with unknown := s.capability :: (m.select given).unknown } := by
  rw [select, List.map_cons, h]
  rfl

theorem sorts (m : DirectMatch) (given : List Source) : m.Sorts given (m.select given) := by
  induction given with
  | nil => exact ⟨.nil, .nil, rfl⟩
  | cons s given ih =>
      obtain ⟨found, errors, unknown⟩ := ih
      rcases m.candidate_cases s with ⟨foreign, become⟩ | ⟨resolves, refused, f, become, why⟩ |
        ⟨derives, n, become⟩
      · have refused : ¬ m.Derives s := fun derives => foreign derives.resolves
        rw [select_cons_unknown become]
        exact ⟨by simpa [refused] using found, by simpa [foreign] using errors,
          by simpa [foreign] using unknown⟩
      · rw [select_cons_rejected become]
        exact ⟨by simpa [refused] using found, by simpa [resolves, refused, why] using errors,
          by simpa [resolves] using unknown⟩
      · have resolves := derives.resolves
        rw [select_cons_found become]
        exact ⟨by simpa [derives, become] using found, by simpa [derives] using errors,
          by simpa [resolves] using unknown⟩

/-- No capability is left out or counted twice. -/
theorem length_eq_filters (m : DirectMatch) (given : List Source) :
    given.length = (given.filter fun s => m.Resolves s ∧ ¬ m.Derives s).length +
      (given.filter fun s => ¬ m.Resolves s).length + (given.filter fun s => m.Derives s).length := by
  have kinds := List.length_eq_length_filter_add (l := given) fun s => decide (m.Resolves s)
  have known := List.length_eq_length_filter_add (l := given.filter fun s => m.Resolves s)
    fun s => decide (m.Derives s)
  have derives : (given.filter fun s => m.Resolves s).filter (fun s => m.Derives s) =
      given.filter fun s => m.Derives s := by
    rw [List.filter_filter]
    refine List.filter_congr fun s _ => ?_
    rw [← Bool.decide_and, decide_eq_decide]
    exact and_iff_left_of_imp Derives.resolves
  have refused : (given.filter fun s => m.Resolves s).filter (fun s => !decide (m.Derives s)) =
      given.filter fun s => m.Resolves s ∧ ¬ m.Derives s := by
    simp [List.filter_filter, and_comm]
  simp only [derives, refused] at known
  simp only [decide_not]
  omega

theorem Sorts.length_eq {selection : Selection DirectMatch} (h : m.Sorts given selection) :
    given.length = selection.errors.length + selection.unknown.length + selection.found.length := by
  rw [← h.errors.length_eq, ← h.found.length_eq, h.unknown, List.length_map]
  exact m.length_eq_filters given

end DirectMatch

/-! ## Distinct citations -/

namespace Citation

/-- The citations that count for one source are of each address that its delegation cites, once. -/
theorem cids_ofSources (s : Source) :
    (ofSources [s]).map (·.proof.cid) = (s.delegation.proofs.map (·.cid)).eraseDups := by
  have single : ofSources [s] = (s.delegation.proofs.map (⟨s.delegation, ·⟩)).eraseDups := by
    simp [ofSources, ofDelegations, List.eraseDups_cons]
  rw [single, ← eraseDups_map, List.map_map]
  · rfl
  · intro a ha b hb
    obtain ⟨p, -, rfl⟩ := List.mem_map.mp ha
    obtain ⟨q, -, rfl⟩ := List.mem_map.mp hb
    change _ = (decide (_ = _) && decide (_ = _))
    rw [decide_eq_true rfl, Bool.true_and]
    rfl

end Citation

/-! ## Denied claims -/

namespace Trial

open Walk

/-- Matches of which every attempt is rejected for one cause are rejected for these in order, after the
causes there were before. -/
theorem rejected_of_outcome_first {resolver : Option Resolver} {attempt : Match → Walk Trial}
    (steady : ∀ m, Steady resolver (attempt m)) {R : Match → Failure → Prop} {ms : List Match}
    {causes : List Failure} {cache : ProofCache} {trial : Trial}
    (each : ∀ m ∈ ms, ∀ t, (attempt m).outcome cache = some t → ∃ f, t = .rejected [f] ∧ R m f)
    (tried : (first attempt ms causes).outcome cache = some trial) :
    ∃ claims, trial = .rejected (causes ++ claims) ∧ List.Forall₂ R ms claims := by
  induction ms generalizing causes with
  | nil =>
      cases tried
      exact ⟨[], by rw [List.append_nil], .nil⟩
  | cons m ms ih =>
      rw [outcome_first_cons steady] at tried
      obtain ⟨t, attempted, rest⟩ := Option.bind_eq_some_iff.mp tried
      obtain ⟨f, rfl, related⟩ := each m List.mem_cons_self t attempted
      obtain ⟨claims, rfl, later⟩ := ih (fun k hk => each k (List.mem_cons_of_mem _ hk)) rest
      exact ⟨f :: claims, by rw [List.append_assoc, List.singleton_append], .cons related later⟩

end Trial

namespace Context

open Citation

variable {ctx : Context} {cache : ProofCache} {i : Invocation} {m : DirectMatch} {f : Failure}

/-- A claim that is not proven, and why: it cites nothing, or nothing with a capability, or there is one cause
for each proof that does not pass and for each capability of those that do. -/
inductive Denied (ctx : Context) (cache : ProofCache) : DirectMatch → Failure → Prop where
  | unproven {m : DirectMatch} (failing : ctx.failing cache [m.source] = [])
      (valid : ctx.valid cache [m.source] = []) :
      Denied ctx cache m (.invalidClaim [m.capability]
        [.unprovenCapability [m.capability] m.source.delegation.issuer])
  | rejected {m : DirectMatch} {below : List DirectMatch} {dismissals refusals claims : List Failure}
      (some : ctx.failing cache [m.source] ≠ [] ∨ ctx.valid cache [m.source] ≠ [])
      (dismissed : List.Forall₂ (ctx.Dismissed cache) (ctx.failing cache [m.source]) dismissals)
      (refused : List.Forall₂ m.Refuses
        ((ctx.valid cache [m.source]).filter fun s => m.Resolves s ∧ ¬ m.Derives s) refusals)
      (derived : List.Forall₂ (fun s n => m.candidate s = .found n)
        ((ctx.valid cache [m.source]).filter fun s => m.Derives s) below)
      (denied : List.Forall₂ (Denied ctx cache) below claims) :
      Denied ctx cache m (.invalidClaim [m.capability] (dismissals ++ refusals ++
        ((ctx.valid cache [m.source]).filter fun s => ¬ m.Resolves s).map
          (fun s => .unknownCapability s.capability) ++ claims))

theorem Denied.not_fatal (h : ctx.Denied cache m f) : f.isFatal = false := by
  cases h <;> rfl

/-- What is said of a claim before a match is tried, put together with the claims of the matches. -/
theorem denied_of_claims {failures claims : List Failure}
    (dismissed : List.Forall₂ (ctx.Dismissed cache) (ctx.failing cache [m.source]) failures)
    (denied : List.Forall₂ (ctx.Denied cache) (m.select (ctx.valid cache [m.source])).found claims) :
    ctx.Denied cache m (.invalidClaim [m.capability]
      (claimFailures (.direct m) ⟨ctx.valid cache [m.source], failures⟩
        ((Match.direct m).select (ctx.valid cache [m.source])) ++ claims)) := by
  have sorted := m.sorts (ctx.valid cache [m.source])
  have total := sorted.length_eq
  by_cases nothing : ctx.failing cache [m.source] = [] ∧ ctx.valid cache [m.source] = []
  · obtain ⟨failing, valid⟩ := nothing
    rw [failing, List.forall₂_nil_left_iff] at dismissed
    have none : (m.select []).found = [] := rfl
    rw [valid, none, List.forall₂_nil_left_iff] at denied
    subst dismissed denied
    rw [valid]
    exact .unproven failing valid
  · have some : ctx.failing cache [m.source] ≠ [] ∨ ctx.valid cache [m.source] ≠ [] := by
      rwa [← not_and_or]
    have said : claimFailures (.direct m) ⟨ctx.valid cache [m.source], failures⟩
        ((Match.direct m).select (ctx.valid cache [m.source])) =
        failures ++ (m.select (ctx.valid cache [m.source])).failures := by
      rw [claimFailures]
      refine if_neg fun silent => nothing ?_
      simp only [Match.select, Selection.map, Bool.and_eq_true, List.isEmpty_iff,
        List.map_eq_nil_iff, List.append_eq_nil_iff] at silent
      obtain ⟨found, failed, unmatched⟩ := silent
      obtain ⟨errors, unknown⟩ := Selection.failures_eq_nil_iff.mp unmatched
      rw [found, errors, unknown] at total
      subst failed
      exact ⟨List.forall₂_nil_right_iff.mp dismissed, List.length_eq_zero_iff.mp total⟩
    rw [said, Selection.failures, sorted.unknown, List.map_map, ← List.append_assoc]
    exact .rejected some dismissed sorted.errors sorted.found denied

/-- The failures that are gathered for a claim are those of the proofs that do not pass. -/
theorem dismissed_of_gather (resolvable : ctx.Resolvable cache m.source.delegation) {g : Gathered}
    (gathered : (ctx.gather [m.source] cache).1 = .ok g) :
    List.Forall₂ (ctx.Dismissed cache) (ctx.failing cache [m.source]) g.failures := by
  obtain ⟨-, failed⟩ := eq_of_gather gathered
  have counts : ∀ c ∈ ctx.failing cache [m.source], c ∈ ofSources [m.source] :=
    fun c mem => List.mem_of_mem_filter mem
  refine ((List.forall₂_and_left _ _).mpr ⟨counts, failed⟩).imp ?_
  rintro c f ⟨counted, verdict⟩
  refine dismissed_of_verdict verdict fun p available => ?_
  obtain ⟨⟨s, hs, citing⟩, proof⟩ := mem_ofSources counted
  obtain rfl := List.mem_singleton.mp hs
  rw [← citing] at proof
  exact resolvable p (.single ⟨c.proof, proof, available⟩)

/-- One step of the search: a match that is not provable is rejected for its denied claim. -/
theorem rejected_of_prove {authorize : Match → Walk (Except Failure Authorization)}
    (steady : ∀ m, Walk.Steady ctx.resolver (authorize m)) (unprovable : ¬ ctx.Provable cache (.direct m))
    (denied : ∀ result, (authorize (.direct m)).outcome cache = some result →
      ∃ f, result = .error f ∧ ctx.Denied cache m f)
    {trial : Trial} (h : (ctx.prove authorize (.direct m)).outcome cache = some trial) :
    ∃ f, trial = .rejected [f] ∧ ctx.Denied cache m f := by
  have left : (Match.direct m).prune ctx.mayIssue = some (.direct m) :=
    Match.prune_direct_eq_some_iff.mpr ⟨isSelfIssued_of_not_provable unprovable, rfl⟩
  rw [outcome_prove_left steady left] at h
  obtain ⟨result, authorized, rfl⟩ := Option.map_eq_some_iff.mp h
  obtain ⟨f, rfl, why⟩ := denied result authorized
  refine ⟨f, ?_, why⟩
  simp only [why.not_fatal]
  rfl

/-- All steps of the search: a claim that is not provable is denied, whichever the number of steps that
sufficed. -/
theorem denied_of_authorize {steps : Nat} {result : Except Failure Authorization}
    (resolvable : ctx.Resolvable cache m.source.delegation) (unprovable : ¬ ctx.Provable cache (.direct m))
    (h : (ctx.authorize steps (.direct m)).outcome cache = some result) :
    ∃ f, result = .error f ∧ ctx.Denied cache m f := by
  induction steps generalizing m result with
  | zero => cases h
  | succ steps ih =>
      obtain ⟨failures, gathered⟩ := gather_eq_valid (List.forall_mem_singleton.mpr resolvable)
      rw [outcome_authorize_succ, Match.sources, gathered] at h
      obtain ⟨trial, tried, rfl⟩ := Option.map_eq_some_iff.mp h
      have each : ∀ k ∈ ((Match.direct m).select (ctx.valid cache [m.source])).found, ∀ t,
          (ctx.prove (ctx.authorize steps) k).outcome cache = some t →
            ∃ f, t = .rejected [f] ∧ ∃ n, k = .direct n ∧ ctx.Denied cache n f := by
        intro k selected t proven
        obtain ⟨n, found, rfl⟩ := List.mem_map.mp selected
        have below : ¬ ctx.Provable cache (.direct n) := fun provable =>
          unprovable ((provable_direct_iff resolvable).mpr (Or.inr ⟨n, found, provable⟩))
        have resolves : ctx.Resolvable cache n.source.delegation :=
          Follows.resolvable found resolvable
        obtain ⟨f, rejected, why⟩ := rejected_of_prove (ctx.steady_authorize steps) below
          (fun _ => ih resolves below) proven
        exact ⟨f, rejected, n, rfl, why⟩
      obtain ⟨claims, rfl, denied⟩ := Trial.rejected_of_outcome_first
        (steady_prove (ctx.steady_authorize steps)) each tried
      have below : List.Forall₂ (ctx.Denied cache) (m.select (ctx.valid cache [m.source])).found claims := by
        refine (List.forall₂_map_left_iff.mp denied).imp ?_
        rintro n f ⟨_, same, why⟩
        cases same
        exact why
      exact ⟨_, rfl, denied_of_claims (dismissed_of_gather resolvable gathered) below⟩

/-- There are as many causes as there are proofs that do not pass and capabilities of those that do, unless
there are none of either. -/
theorem Denied.length_causes {claim : List Capability} {causes : List Failure}
    (h : ctx.Denied cache m (.invalidClaim claim causes)) :
    (ctx.failing cache [m.source] = [] ∧ ctx.valid cache [m.source] = [] ∧
        causes = [.unprovenCapability [m.capability] m.source.delegation.issuer]) ∨
      causes ≠ [] ∧
        causes.length = (ctx.failing cache [m.source]).length + (ctx.valid cache [m.source]).length := by
  cases h with
  | unproven failing valid => exact Or.inl ⟨failing, valid, rfl⟩
  | @rejected _ below dismissals refusals claims some dismissed refused derived denied =>
      have total := m.length_eq_filters (ctx.valid cache [m.source])
      have first := dismissed.length_eq
      rw [derived.length_eq, denied.length_eq, refused.length_eq] at total
      refine Or.inr ?_
      rw [← List.length_pos_iff]
      simp only [List.length_append, List.length_map]
      refine ⟨?_, by omega⟩
      rcases some with some | some
      · have := List.length_pos_iff.mpr some
        omega
      · have := List.length_pos_iff.mpr some
        omega

/-! ## Denied invocations -/

/-- What a descriptor that parses the invoked capability makes of an invocation. -/
theorem select_invoked {d : Descriptor} {v : Parsed} (parsed : d.parse i.capability = .ok v) :
    ∃ s, Source.all i.delegation = [s] ∧ s.delegation = i.delegation ∧
      (Selector.descriptor d).select (Source.all i.delegation) =
        ⟨[.direct ⟨d, v, i.capability, s⟩], [], []⟩ := by
  have single : (Source.all i.delegation).length = 1 := by
    simp [Source.all, i.capabilities_eq]
  obtain ⟨s, only⟩ := List.length_eq_one_iff.mp single
  have mem : s ∈ Source.all i.delegation := by simp [only]
  have invoked : s.capability = i.capability := capability_of_mem_all mem
  refine ⟨s, only, Source.mem_all.mp mem, ?_⟩
  have found : d.candidate s = .found ⟨d, v, i.capability, s⟩ := by
    simp [Descriptor.candidate, invoked, parsed]
  rw [only, Selector.select, Descriptor.select, List.map_singleton, found]
  rfl

/-- A match of the invocation that is not provable is rejected for the causes of its claim, not for the claim. -/
theorem rejected_of_attempt {steps : Nat} (resolvable : ctx.Resolvable cache m.source.delegation)
    (unprovable : ¬ ctx.Provable cache (.direct m)) {trial : Trial}
    (h : (ctx.attempt steps i (.direct m)).outcome cache = some trial) :
    ∃ causes, trial = .rejected causes ∧ ctx.Denied cache m (.invalidClaim [m.capability] causes) := by
  rw [outcome_attempt] at h
  obtain ⟨t, proven, rfl⟩ := Option.map_eq_some_iff.mp h
  obtain ⟨f, rfl, denied⟩ := rejected_of_prove (ctx.steady_authorize steps) unprovable
    (fun _ => denied_of_authorize resolvable unprovable) proven
  cases denied with
  | unproven failing valid => exact ⟨_, rfl, .unproven failing valid⟩
  | rejected some dismissed refused derived denied =>
      exact ⟨_, rfl, .rejected some dismissed refused derived denied⟩

/-- Where the invocation is all that a selector finds and it is rejected, the access is unauthorized for the
causes of that. -/
theorem unauthorized_of_rejected {m : Match} {P : List Failure → Prop} {result : Except Failure Authorization}
    (checked : ctx.checkInvocation i = .ok ())
    (single : ctx.selector.select (Source.all i.delegation) = ⟨[m], [], []⟩)
    (rejects : ∀ steps trial, (ctx.attempt steps i m).outcome cache = some trial →
      ∃ causes, trial = .rejected causes ∧ P causes)
    (h : (ctx.access i).outcome cache = some result) :
    ∃ causes, result = .error (.unauthorized i.capability causes) ∧ P causes := by
  obtain ⟨steps, within⟩ := exists_accessWithin h
  rw [outcome_accessWithin checked, single] at within
  change Option.map (settled i) ((Trial.first (ctx.attempt steps i) [m] []).outcome cache) = _ at within
  rw [Trial.outcome_first_cons (ctx.steady_attempt steps i)] at within
  obtain ⟨trial, tried, rfl⟩ := Option.map_eq_some_iff.mp within
  obtain ⟨t, attempted, rest⟩ := Option.bind_eq_some_iff.mp tried
  obtain ⟨causes, rfl, why⟩ := rejects steps t attempted
  cases rest
  exact ⟨causes, rfl, why⟩

/-- An invocation of what a descriptor parses, in order in itself but without a path of accepted proofs, is
unauthorized where the access comes to an end, as it does where citations lead in no circle. Its causes are
those of its claim: one for each proof that it cites and that does not pass, of the first check that it fails,
and one for each capability of those that pass, or else that nothing was found. Proofs that are cited count
once. -/
theorem reports_every_rejection {d : Descriptor} {v : Parsed} (selects : ctx.selector = .descriptor d)
    (checked : ctx.checkInvocation i = .ok ()) (parsed : d.parse i.capability = .ok v)
    (resolvable : ctx.Resolvable cache i.delegation)
    (unproven : ∀ m ∈ (ctx.selector.select (Source.all i.delegation)).found, ¬ ctx.Path cache m) :
    (∀ s, (ofSources [s]).map (·.proof.cid) = (s.delegation.proofs.map (·.cid)).eraseDups) ∧
    (∀ result later, ctx.access i cache = some (result, later) →
      ∃ s causes, Source.all i.delegation = [s] ∧ result = .error (.unauthorized i.capability causes) ∧
        ctx.Denied cache ⟨d, v, i.capability, s⟩ (.invalidClaim [i.capability] causes) ∧
        ((ctx.failing cache [s] = [] ∧ ctx.valid cache [s] = [] ∧
            causes = [.unprovenCapability [i.capability] i.delegation.issuer]) ∨
          causes ≠ [] ∧ causes.length = (ctx.failing cache [s]).length +
            ((ctx.passing cache [s]).flatMap (·.capabilities)).length)) ∧
    (ctx.Acyclic cache i.delegation → ∃ result later, ctx.access i cache = some (result, later)) := by
  refine ⟨cids_ofSources, fun result later accessed => ?_, fun acyclic => ?_⟩
  · have outcome : (ctx.access i).outcome cache = some result :=
      Walk.outcome_eq_some_iff.mpr ⟨later, accessed⟩
    obtain ⟨s, only, invoked, selection⟩ := select_invoked parsed
    rw [← selects] at selection
    rw [selection] at unproven
    have resolves : ctx.Resolvable cache s.delegation := by
      rw [invoked]
      exact resolvable
    have unprovable : ¬ ctx.Provable cache (.direct ⟨d, v, i.capability, s⟩) :=
      fun provable => unproven _ (List.mem_singleton_self _) provable.path
    obtain ⟨causes, rfl, denied⟩ := unauthorized_of_rejected checked selection
      (fun _ _ => rejected_of_attempt resolves unprovable) outcome
    refine ⟨s, causes, only, rfl, denied, ?_⟩
    rw [← capabilities_valid, List.length_map, ← invoked]
    exact denied.length_causes
  · obtain ⟨result, outcome⟩ := exists_access acyclic
    exact ⟨result, Walk.outcome_eq_some_iff.mp outcome⟩

end Context

/-! ## Four proofs that do not help -/

namespace Sample

/-- What the selector of limited additions is made of. -/
def additions : Descriptor :=
  ⟨"store/add", Resource.readText, Schema.unknown.readFields, Rule.withinLimit "size"⟩

/-- Carol adds too much: what Alice let her add is less, what Alice let Bob do is not for her, what else Alice
let her do is no addition, and what Bob let her add is not his. -/
def excessive : Except Delegation.Error Invocation := do
  let less ← grant alice carol "store/add" [("size", .integer 5)] []
  let bobs ← grant alice bob "store/add" [] []
  let upload ← grant alice carol "upload/add" [] []
  let unfounded ← grant bob carol "store/add" [] []
  let claimed ← grant carol service "store/add" [("size", .integer 9)] [less, bobs, upload, unfounded]
  Invocation.ofDelegation claimed

end Sample

/-- All four are reported, in order of what is wrong with them. -/
theorem Context.reports_every_rejection_excessive :
    ∃ i f later s causes, Sample.excessive = .ok i ∧
      (Sample.context Sample.limited).access i .empty = some (.error f, later) ∧
      f = .unauthorized i.capability causes ∧ f.walk.map Failure.name =
        ["Unauthorized", "InvalidAudience", "EscalatedCapability", "UnknownCapability", "InvalidClaim",
          "UnprovenCapability"] ∧
      causes.length = ((Sample.context Sample.limited).failing .empty [s]).length +
        (((Sample.context Sample.limited).passing .empty [s]).flatMap (·.capabilities)).length := by
  have reads : Sample.excessive.toOption.any (fun i =>
      (Sample.additions.parse i.capability).toOption.isSome &&
        ((Sample.context Sample.limited).checkInvocation i).toOption.isSome) = true := by
    decide +kernel
  have denies : Sample.denies (Sample.context Sample.limited) Sample.excessive
      (fun f => decide (f.walk.map Failure.name = ["Unauthorized", "InvalidAudience",
        "EscalatedCapability", "UnknownCapability", "InvalidClaim", "UnprovenCapability"])) = true := by
    decide +kernel
  obtain ⟨i, f, later, made, denied, names⟩ := Sample.exists_of_denies denies
  obtain ⟨_, same, read⟩ := Sample.exists_of_any reads
  obtain rfl := Except.ok.inj (made.symm.trans same)
  obtain ⟨parsed, checked⟩ := Bool.and_eq_true_iff.mp read
  obtain ⟨v, parsed⟩ := Option.isSome_iff_exists.mp parsed
  obtain ⟨u, checked⟩ := Option.isSome_iff_exists.mp checked
  have resolvable : (Sample.context Sample.limited).Resolvable .empty i.delegation :=
    fun e _ => ⟨_, rfl⟩
  have outcome : ((Sample.context Sample.limited).access i).outcome .empty = some (.error f) :=
    Walk.outcome_eq_some_iff.mpr ⟨later, denied⟩
  have unproven : ∀ m ∈ ((Sample.context Sample.limited).selector.select (Source.all i.delegation)).found,
      ¬ (Sample.context Sample.limited).Path .empty m := by
    intro m selected path
    have granted := (exists_ok_iff_provable (fun _ => rfl) resolvable outcome).mpr
      ⟨toOption_eq_some_iff.mp checked, m, selected, path.provable (resolvable.invoked selected)⟩
    simp at granted
  obtain ⟨-, reports, -⟩ := reports_every_rejection (d := Sample.additions) rfl
    (toOption_eq_some_iff.mp checked) (toOption_eq_some_iff.mp parsed) resolvable unproven
  obtain ⟨s, causes, -, same, -, counted⟩ := reports _ later denied
  obtain rfl := Except.error.inj same
  refine ⟨i, _, later, s, causes, made, denied, rfl, of_decide_eq_true names, ?_⟩
  rcases counted with ⟨-, -, rfl⟩ | ⟨-, counted⟩
  · simp [Failure.walk, Failure.walkAll, Failure.name] at names
  · exact counted

end Mandate

import Mandate.Citation
import Mandate.Proofs.Cache
import Mandate.Proofs.Delegation
import Mandate.Proofs.Match
import Mandate.Proofs.Window

/-!
# What gathering finds

Gathering looks up what the delegations of a claim cite and keeps the capabilities of those proofs that
pass the checks. What it keeps is said here without the order of the checks and without the lookups that
happen on the way: a source is gathered exactly when some citation that counts leads to its delegation
and that delegation is accepted on behalf of who cites it.
-/

namespace Mandate

namespace Delegation

/-- The verifier found for the issuer accepts the signature over the payload, encoded afresh. -/
def SignedUnder (d : Delegation) (directory : Directory) : Prop :=
  ∃ payload verifier, d.payload.encode? = some payload ∧ directory d.issuer = .ok verifier ∧
    verifier.verifies payload d.signature = true

theorem verifySignature_eq_ok_iff {d : Delegation} {directory : Directory} :
    d.verifySignature directory = .ok () ↔ d.SignedUnder directory := by
  unfold verifySignature SignedUnder
  cases d.payload.encode? with
  | none => simp
  | some payload =>
      cases directory d.issuer with
      | error cause => simp
      | ok verifier => cases h : verifier.verifies payload d.signature <;> simp [h]

end Delegation

namespace Context

variable {ctx : Context} {cache : ProofCache}

/-- What is asked of a proof on behalf of who cites it. -/
structure Accepts (ctx : Context) (citing proof : Delegation) : Prop where
  audience_eq : proof.audience = citing.issuer
  contains_now : proof.window.contains ctx.now = true
  signed : proof.SignedUnder ctx.directory

/-- The delegation that a citation stands for, looked up if it is not attached. -/
def cited (ctx : Context) (cache : ProofCache) : Delegation.Proof → Except Failure Delegation
  | .inline d => .ok d
  | .link c => cache.answer ctx.resolver c

/-- One delegation cites another, by its address or with it attached. -/
def Cites (ctx : Context) (cache : ProofCache) (citing proof : Delegation) : Prop :=
  ∃ p ∈ citing.proofs, ctx.cited cache p = .ok proof

section Checks

variable {ε α β : Type}

theorem bind_eq_ok_iff {x : Except ε α} {f : α → Except ε β} {b : β} :
    x >>= f = .ok b ↔ ∃ a, x = .ok a ∧ f a = .ok b := by
  cases x <;> simp [bind, Except.bind]

theorem toOption_eq_some_iff {x : Except ε α} {a : α} : x.toOption = some a ↔ x = .ok a := by
  cases x <;> simp [Except.toOption]

/-- Of two checks, both pass. -/
theorem seq_eq_ok_iff {x : Except ε Unit} {y : Except ε β} {b : β} :
    (x >>= fun _ => y) = .ok b ↔ x = .ok () ∧ y = .ok b := by
  cases x <;> simp [bind, Except.bind]

/-- Of two checks, the first one that fails tells why. -/
theorem seq_eq_error_iff {x : Except ε Unit} {y : Except ε β} {e : ε} :
    (x >>= fun _ => y) = .error e ↔ x = .error e ∨ x = .ok () ∧ y = .error e := by
  cases x <;> simp [bind, Except.bind]

end Checks

theorem checkTime_eq_ok_iff {d : Delegation} :
    ctx.checkTime d = .ok () ↔ d.window.contains ctx.now = true := by
  rw [← Window.check_eq_ok_iff]
  unfold checkTime
  split <;> simp_all

theorem checkSignature_eq_ok_iff {d : Delegation} :
    ctx.checkSignature d = .ok () ↔ d.SignedUnder ctx.directory := by
  rw [← Delegation.verifySignature_eq_ok_iff]
  unfold checkSignature
  split <;> simp_all

theorem checkAudience_eq_ok_iff {d : Delegation} {expected : Did} :
    checkAudience d expected = .ok () ↔ d.audience = expected := by
  unfold checkAudience
  split <;> simp_all

theorem checkProof_eq_ok_iff {citing proof : Delegation} :
    ctx.checkProof citing proof = .ok () ↔ ctx.Accepts citing proof := by
  unfold checkProof
  rw [seq_eq_ok_iff, seq_eq_ok_iff, checkAudience_eq_ok_iff, checkTime_eq_ok_iff,
    checkSignature_eq_ok_iff]
  constructor
  · rintro ⟨audience, time, signed⟩
    exact ⟨audience, time, signed⟩
  · rintro ⟨audience, time, signed⟩
    exact ⟨audience, time, signed⟩

theorem checkAudience_not_fatal {d : Delegation} {expected : Did} {f : Failure}
    (h : checkAudience d expected = .error f) : f.isFatal = false := by
  unfold checkAudience at h
  split at h
  · cases h
  · cases h
    rfl

theorem checkTime_not_fatal {d : Delegation} {f : Failure} (h : ctx.checkTime d = .error f) :
    f.isFatal = false := by
  unfold checkTime at h
  split at h
  · cases h
  · cases h
    rfl
  · cases h
    rfl

theorem checkSignature_not_fatal {d : Delegation} {f : Failure} {v : Verifier}
    (resolves : ctx.directory d.issuer = .ok v) (h : ctx.checkSignature d = .error f) :
    f.isFatal = false := by
  unfold checkSignature at h
  split at h
  · cases h
  case h_2 cause unresolved =>
    unfold Delegation.verifySignature at unresolved
    rw [resolves] at unresolved
    split at unresolved
    · cases unresolved
    · simp only at unresolved
      split at unresolved <;> cases unresolved
  · cases h
    rfl
  · cases h
    rfl

/-- Only an issuer that cannot be resolved makes a check end the search. -/
theorem checkProof_not_fatal {citing proof : Delegation} {f : Failure} {v : Verifier}
    (resolves : ctx.directory proof.issuer = .ok v)
    (h : ctx.checkProof citing proof = .error f) : f.isFatal = false := by
  unfold checkProof at h
  rw [seq_eq_error_iff, seq_eq_error_iff] at h
  rcases h with audience | ⟨-, time | ⟨-, signature⟩⟩
  · exact checkAudience_not_fatal audience
  · exact checkTime_not_fatal time
  · exact checkSignature_not_fatal resolves signature

end Context

namespace Source

@[simp] theorem mem_all {s : Source} {d : Delegation} : s ∈ Source.all d ↔ s.delegation = d := by
  obtain ⟨e, index⟩ := s
  constructor
  · intro mem
    obtain ⟨_, -, same⟩ := List.mem_map.mp mem
    cases same
    rfl
  · rintro rfl
    exact List.mem_map.mpr ⟨index, List.mem_finRange index, rfl⟩

end Source

namespace Selector

/-- What is selected from a delegation is built from the capabilities of this delegation. -/
theorem delegation_eq_of_mem_sources {selector : Selector} {d : Delegation} {m : Match}
    (h : m ∈ (selector.select (Source.all d)).found) {s : Source} (mem : s ∈ m.sources) :
    s.delegation = d :=
  Source.mem_all.mp (mem_of_mem_sources h mem)

end Selector

namespace Gathered

/-- A source is gathered exactly when its delegation passed. -/
theorem mem_sources_iff {checks : List (Except Failure Delegation)} {g : Gathered}
    (h : ofChecks checks = .ok g) (s : Source) :
    s ∈ g.sources ↔ .ok s.delegation ∈ checks := by
  induction checks generalizing g with
  | nil =>
      cases h
      simp
  | cons check rest ih =>
      cases check with
      | ok d =>
          simp only [ofChecks] at h
          cases later : ofChecks rest with
          | error f => simp [later, Except.map] at h
          | ok more =>
              simp only [later, Except.map, Except.ok.injEq] at h
              subst h
              simp [ih later]
      | error f =>
          simp only [ofChecks] at h
          split at h
          · cases h
          · cases later : ofChecks rest with
            | error f => simp [later, Except.map] at h
            | ok more =>
                simp only [later, Except.map, Except.ok.injEq] at h
                subst h
                simp [ih later]

/-- Unless a check fails in a way that ends the search, something is gathered. -/
theorem exists_ofChecks {checks : List (Except Failure Delegation)}
    (h : ∀ f, .error f ∈ checks → f.isFatal = false) : ∃ g, ofChecks checks = .ok g := by
  induction checks with
  | nil => exact ⟨_, rfl⟩
  | cons check rest ih =>
      obtain ⟨g, later⟩ := ih (fun f hf => h f (List.mem_cons_of_mem _ hf))
      cases check with
      | ok d => exact ⟨_, by simp only [ofChecks, later, Except.map]; rfl⟩
      | error f =>
          have harmless := h f List.mem_cons_self
          exact ⟨_, by simp only [ofChecks, harmless, later, Except.map]; rfl⟩

end Gathered

namespace Citation

variable {ctx : Context} {cache : ProofCache}

/-- The citations that count for some sources: those of their delegations, one for each issuer and
proof. -/
def ofSources (claimed : List Source) : List Citation :=
  ofDelegations (claimed.map (·.delegation)).eraseDups

/-- The cited delegation, if it is there and accepted. -/
def verdict (ctx : Context) (cache : ProofCache) (c : Citation) : Except Failure Delegation := do
  let d ← ctx.cited cache c.proof
  ctx.checkProof c.citing d
  pure d

/-- Dropping repetitions adds nothing, however elements are compared. -/
theorem mem_of_mem_eraseDups {α : Type} [BEq α] {a : α} :
    (as : List α) → a ∈ as.eraseDups → a ∈ as
  | [], mem => by simp at mem
  | b :: bs, mem => by
      rw [List.eraseDups_cons] at mem
      rcases List.mem_cons.mp mem with rfl | later
      · exact List.mem_cons_self
      · have smaller := mem_of_mem_eraseDups (bs.filter fun c => !c == b) later
        exact List.mem_cons_of_mem _ (List.mem_filter.mp smaller).1
termination_by as => as.length
decreasing_by
  exact Nat.lt_succ_of_le (List.length_filter_le _ bs)

/-- Of what was dropped as a repetition, something like it was kept. -/
theorem exists_mem_eraseDups {α : Type} [BEq α] {a : α} :
    (as : List α) → a ∈ as → ∃ b ∈ as.eraseDups, b = a ∨ (a == b) = true
  | [], mem => by cases mem
  | c :: cs, mem => by
      rw [List.eraseDups_cons]
      rcases List.mem_cons.mp mem with rfl | later
      · exact ⟨a, List.mem_cons_self, Or.inl rfl⟩
      · by_cases same : (a == c) = true
        · exact ⟨c, List.mem_cons_self, Or.inr same⟩
        · have kept : a ∈ cs.filter fun b => !b == c := List.mem_filter.mpr ⟨later, by simpa using same⟩
          obtain ⟨b, hb, like⟩ := exists_mem_eraseDups (cs.filter fun b => !b == c) kept
          exact ⟨b, List.mem_cons_of_mem _ hb, like⟩
termination_by as => as.length
decreasing_by
  exact Nat.lt_succ_of_le (List.length_filter_le _ cs)

/-- Dropping repetitions keeps step with a map that keeps which elements count as equal. -/
theorem eraseDups_map {α β : Type} [BEq α] [BEq β] {f : α → β} :
    (as : List α) → (∀ a ∈ as, ∀ b ∈ as, (f a == f b) = (a == b)) →
      (as.map f).eraseDups = as.eraseDups.map f
  | [], _ => rfl
  | a :: as, same => by
      have kept : (as.map f).filter (fun b => !b == f a) = (as.filter fun b => !b == a).map f := by
        rw [List.filter_map]
        congr 1
        exact List.filter_congr fun b hb =>
          congrArg (!·) (same b (List.mem_cons_of_mem _ hb) a List.mem_cons_self)
      have smaller := eraseDups_map (as.filter fun b => !b == a) fun b hb c hc =>
        same b (List.mem_cons_of_mem _ (List.mem_of_mem_filter hb)) c
          (List.mem_cons_of_mem _ (List.mem_of_mem_filter hc))
      rw [List.map_cons, List.eraseDups_cons, List.eraseDups_cons, List.map_cons, kept, smaller]
termination_by as => as.length
decreasing_by
  exact Nat.lt_succ_of_le (List.length_filter_le _ as)

theorem mem_ofDelegations {ds : List Delegation} {c : Citation} (h : c ∈ ofDelegations ds) :
    c.citing ∈ ds ∧ c.proof ∈ c.citing.proofs := by
  obtain ⟨d, hd, mem⟩ := List.mem_flatMap.mp (mem_of_mem_eraseDups _ h)
  obtain ⟨p, hp, rfl⟩ := List.mem_map.mp mem
  exact ⟨hd, hp⟩

/-- A citation that counts comes from a delegation of one of the sources. -/
theorem mem_ofSources {claimed : List Source} {c : Citation} (h : c ∈ ofSources claimed) :
    (∃ s ∈ claimed, s.delegation = c.citing) ∧ c.proof ∈ c.citing.proofs := by
  obtain ⟨citing, proof⟩ := mem_ofDelegations h
  exact ⟨List.mem_map.mp (mem_of_mem_eraseDups _ citing), proof⟩

theorem verdict_eq_ok_iff {c : Citation} {d : Delegation} :
    c.verdict ctx cache = .ok d ↔
      ctx.cited cache c.proof = .ok d ∧ ctx.Accepts c.citing d := by
  unfold verdict
  rw [Context.bind_eq_ok_iff]
  constructor
  · rintro ⟨p, found, checked⟩
    rw [Context.seq_eq_ok_iff, Context.checkProof_eq_ok_iff] at checked
    obtain ⟨accepted, same⟩ := checked
    cases same
    exact ⟨found, accepted⟩
  · rintro ⟨found, accepted⟩
    refine ⟨d, found, ?_⟩
    rw [Context.seq_eq_ok_iff, Context.checkProof_eq_ok_iff]
    exact ⟨accepted, rfl⟩

end Citation

namespace Context

open Citation

variable {ctx : Context} {cache : ProofCache} {claimed : List Source}

/-- Gathering sorts the verdicts on the citations that count. Lookups that happen on the way give what
they would have given before. -/
theorem gather_fst (ctx : Context) (claimed : List Source) (cache : ProofCache) :
    (ctx.gather claimed cache).1 =
      Gathered.ofChecks ((ofSources claimed).map (verdict ctx cache)) := by
  unfold gather ofSources
  simp only
  congr 1
  apply List.map_congr_left
  -- Every address that is checked was among those looked up before.
  rintro ⟨d, p⟩ mem
  obtain ⟨citing, proof⟩ := mem_ofDelegations mem
  cases p with
  | inline q => rfl
  | link c =>
      have linked : c ∈ ((claimed.map (·.delegation)).eraseDups).flatMap
          fun d => d.proofs.filterMap link? :=
        List.mem_flatMap.mpr ⟨d, citing, List.mem_filterMap.mpr ⟨.link c, proof, rfl⟩⟩
      simp only [check, delegation, verdict, cited,
        ProofCache.lookup_resolveAll linked cache, Option.getD_some]

/-- Gathering uses the cache for lookups alone. -/
theorem leads_gather (ctx : Context) (claimed : List Source) (cache : ProofCache) :
    ProofCache.Leads ctx.resolver cache (ctx.gather claimed cache).2 :=
  ProofCache.leads_resolveAll _ cache

theorem cited_congr {c d : ProofCache} (h : ProofCache.Agree ctx.resolver c d)
    (p : Delegation.Proof) : ctx.cited c p = ctx.cited d p := by
  cases p with
  | inline q => rfl
  | link l => exact h l

theorem cites_congr {c d : ProofCache} (h : ProofCache.Agree ctx.resolver c d) :
    ctx.Cites c = ctx.Cites d := by
  funext citing proof
  simp only [Cites, cited_congr h]

theorem gather_congr {c d : ProofCache} (h : ProofCache.Agree ctx.resolver c d)
    (claimed : List Source) : (ctx.gather claimed c).1 = (ctx.gather claimed d).1 := by
  have same : verdict ctx c = verdict ctx d := by
    funext citation
    simp only [verdict, cited_congr h]
  rw [gather_fst, gather_fst, same]

/-- A source is gathered exactly when a citation that counts leads to its delegation, and that is
accepted. -/
theorem mem_gather_iff {g : Gathered} (h : (ctx.gather claimed cache).1 = .ok g) (s : Source) :
    s ∈ g.sources ↔ ∃ c ∈ ofSources claimed,
      ctx.cited cache c.proof = .ok s.delegation ∧ ctx.Accepts c.citing s.delegation := by
  rw [gather_fst] at h
  simp only [Gathered.mem_sources_iff h, List.mem_map, verdict_eq_ok_iff]

/-- What is gathered for some sources is cited by one of them and accepted on its behalf. -/
theorem cites_of_mem_gather {g : Gathered} (h : (ctx.gather claimed cache).1 = .ok g) {s : Source}
    (mem : s ∈ g.sources) :
    ∃ t ∈ claimed, ctx.Cites cache t.delegation s.delegation ∧
      ctx.Accepts t.delegation s.delegation := by
  obtain ⟨c, counts, found, accepted⟩ := (mem_gather_iff h s).mp mem
  obtain ⟨⟨t, ht, same⟩, proof⟩ := mem_ofSources counts
  refine ⟨t, ht, ⟨c.proof, ?_, found⟩, ?_⟩
  · rw [same]
    exact proof
  · rw [same]
    exact accepted

/-- What proves a claim is built from delegations that the claim cites and accepts. -/
theorem cites_of_selected {claim m : Match} {g : Gathered}
    (gathered : (ctx.gather claim.sources cache).1 = .ok g)
    (selected : m ∈ (claim.select g.sources).found) {s : Source} (mem : s ∈ m.sources) :
    ∃ t ∈ claim.sources, ctx.Cites cache t.delegation s.delegation ∧
      ctx.Accepts t.delegation s.delegation :=
  cites_of_mem_gather gathered (Match.mem_of_mem_sources claim selected mem)

/-- When all issuers that are met can be resolved, gathering comes to an end with sources. -/
theorem exists_gather
    (h : ∀ s ∈ claimed, ∀ p, ctx.Cites cache s.delegation p →
      ∃ v, ctx.directory p.issuer = .ok v) :
    ∃ g, (ctx.gather claimed cache).1 = .ok g := by
  rw [gather_fst]
  apply Gathered.exists_ofChecks
  intro f failed
  obtain ⟨c, counts, same⟩ := List.mem_map.mp failed
  obtain ⟨⟨s, hs, citing⟩, proof⟩ := mem_ofSources counts
  unfold verdict at same
  cases found : ctx.cited cache c.proof with
  | error e =>
      rw [found] at same
      cases same
      cases p : c.proof with
      | inline q => simp [p, cited] at found
      | link l =>
          rw [p] at found
          exact ProofCache.not_fatal_of_answer found
  | ok d =>
      obtain ⟨v, resolves⟩ := h s hs d (by rw [citing]; exact ⟨c.proof, proof, found⟩)
      rw [found] at same
      have rejected : ctx.checkProof c.citing d = .error f := by
        cases checked : ctx.checkProof c.citing d with
        | error e => simpa [bind, Except.bind, checked] using same
        | ok u => simp [bind, Except.bind, checked, pure, Except.pure] at same
      exact checkProof_not_fatal resolves rejected

/-- A citation names its proof by address. -/
theorem Cites.cid_mem {citing proof : Delegation} (h : ctx.Cites cache citing proof)
    (wf : citing.WellFormed) (reached : cache.Reached ctx.resolver) :
    proof.cid ∈ citing.payload.proofs := by
  obtain ⟨p, mem, found⟩ := h
  obtain ⟨c, listed, rfl⟩ := List.mem_map.mp mem
  split at found
  case h_1 q attached =>
    cases found
    rw [wf.cid_eq c _ (Table.mem_of_lookup attached)]
    exact listed
  case h_2 =>
    obtain ⟨r, -, -, same⟩ := reached.fetch_of_answer found
    rw [same]
    exact listed

end Context

end Mandate

import Mandate.Access
import Mandate.Proofs.Citation

/-!
# The search without its cache

A search carries a cache along, yet no lookup changes what a later one gives. So each part of the search
has an outcome that depends only on how links resolve at its start, and the outcome of a whole is composed
of the outcomes of its parts. The equations proved here are all that later proofs use of the search; none
of them mentions a cache that was changed on the way.
-/

namespace Mandate

namespace Walk

variable {α β : Type} {resolver : Option Resolver}

/-- What a part of the search results in, started with a cache. -/
def outcome (w : Walk α) (cache : ProofCache) : Option α := (w cache).map (·.1)

theorem outcome_eq_some_iff {w : Walk α} {cache : ProofCache} {a : α} :
    w.outcome cache = some a ↔ ∃ later, w cache = some (a, later) := by
  simp [outcome]

/-- A part of the search that depends on how links resolve, and uses the cache for lookups alone. -/
structure Steady (resolver : Option Resolver) (w : Walk α) : Prop where
  leads : ∀ {c d : ProofCache} {a : α}, w c = some (a, d) → ProofCache.Leads resolver c d
  outcome_congr : ∀ {c d : ProofCache}, ProofCache.Agree resolver c d → w.outcome c = w.outcome d

theorem Steady.agree {w : Walk α} (h : Steady resolver w) {c d : ProofCache} {a : α}
    (ran : w c = some (a, d)) : ProofCache.Agree resolver d c :=
  (h.leads ran).agree

/-- From where links resolve alike, it has no different results. -/
theorem Steady.unique {w : Walk α} (h : Steady resolver w) {c d c' d' : ProofCache} {a b : α}
    (same : ProofCache.Agree resolver c d) (hc : w c = some (a, c')) (hd : w d = some (b, d')) : a = b := by
  have outcomes := h.outcome_congr same
  rw [outcome, hc, outcome, hd] at outcomes
  exact Option.some.inj outcomes

@[simp] theorem outcome_pure (a : α) (cache : ProofCache) :
    outcome (pure a : Walk α) cache = some a := rfl

theorem Steady.pure (a : α) : Steady resolver (Pure.pure a : Walk α) where
  leads h := by
    cases h
    exact .refl
  outcome_congr _ := rfl

theorem Steady.failure : Steady resolver (Alternative.failure : Walk α) where
  leads h := by cases h
  outcome_congr _ := rfl

/-- What looks links up, and gives what depends on how they resolve, is such a part. -/
theorem Steady.lookup {f : ProofCache → α × ProofCache}
    (leads : ∀ c, ProofCache.Leads resolver c (f c).2)
    (congr : ∀ {c d}, ProofCache.Agree resolver c d → (f c).1 = (f d).1) :
    Steady resolver (modifyGet f : Walk α) where
  leads := by
    intro c d a h
    obtain rfl := congrArg Prod.snd (Option.some.inj h)
    exact leads c
  outcome_congr same := congrArg some (congr same)

/-- A sequence with a result went through its first part to its second. -/
theorem exists_of_bind_eq_some {w : Walk α} {f : α → Walk β} {c d : ProofCache} {b : β}
    (h : (w >>= f) c = some (b, d)) : ∃ a later, w c = some (a, later) ∧ f a later = some (b, d) := by
  obtain ⟨⟨a, later⟩, first, second⟩ := Option.bind_eq_some_iff.mp h
  exact ⟨a, later, first, second⟩

/-- A sequence results in what its second part results in, from the same start. -/
theorem outcome_bind {w : Walk α} {f : α → Walk β} (hw : Steady resolver w)
    (hf : ∀ a, Steady resolver (f a)) (cache : ProofCache) :
    outcome (w >>= f) cache = (w.outcome cache).bind fun a => (f a).outcome cache := by
  cases ran : w cache with
  | none => simp [outcome, bind, StateT.bind, ran]
  | some result =>
      obtain ⟨a, later⟩ := result
      have same := (hf a).outcome_congr (hw.agree ran)
      simpa [outcome, bind, StateT.bind, ran] using same

theorem Steady.bind {w : Walk α} {f : α → Walk β} (hw : Steady resolver w)
    (hf : ∀ a, Steady resolver (f a)) : Steady resolver (w >>= f) where
  leads := by
    intro c d b h
    -- The second walk starts from the cache that the first one leaves.
    obtain ⟨a, later, first, second⟩ := exists_of_bind_eq_some h
    exact (hw.leads first).trans ((hf a).leads second)
  outcome_congr := by
    intro c d same
    rw [outcome_bind hw hf, outcome_bind hw hf, hw.outcome_congr same]
    congr 1
    funext a
    exact (hf a).outcome_congr same

end Walk

namespace Trial

open Walk

variable {resolver : Option Resolver} {attempt : Match → Walk Trial}

theorem steady_first (h : ∀ m, Steady resolver (attempt m)) (ms : List Match)
    (causes : List Failure) : Steady resolver (first attempt ms causes) := by
  induction ms generalizing causes with
  | nil => exact .pure _
  | cons m ms ih =>
      refine (h m).bind ?_
      intro trial
      cases trial with
      | accepted a => exact .pure _
      | rejected more => exact ih _
      | aborted f => exact .pure _

theorem outcome_first_cons (h : ∀ m, Steady resolver (attempt m)) (m : Match) (ms : List Match)
    (causes : List Failure) (cache : ProofCache) :
    (first attempt (m :: ms) causes).outcome cache = ((attempt m).outcome cache).bind fun
      | .accepted a => some (.accepted a)
      | .rejected more => (first attempt ms (causes ++ more)).outcome cache
      | .aborted f => some (.aborted f) := by
  rw [first, outcome_bind (h m)]
  · congr 1
    funext trial
    cases trial <;> rfl
  · intro trial
    cases trial with
    | accepted a => exact .pure _
    | rejected more => exact steady_first h _ _
    | aborted f => exact .pure _

/-- How matches tried in order turn out, given how single attempts may: accepted with the first one that
is not rejected, rejected with all of them, or aborted with one. -/
def Tried (turns : Match → Trial → Prop) (ms : List Match) : Trial → Prop
  | .accepted a => ∃ before m after, ms = before ++ m :: after ∧ turns m (.accepted a) ∧
      ∀ k ∈ before, ∃ causes, turns k (.rejected causes)
  | .rejected _ => ∀ m ∈ ms, ∃ causes, turns m (.rejected causes)
  | .aborted f => ∃ m ∈ ms, turns m (.aborted f)

theorem Tried.cons {turns : Match → Trial → Prop} {m : Match} {ms : List Match} {trial : Trial}
    {causes : List Failure} (rejected : turns m (.rejected causes)) (h : Tried turns ms trial) :
    Tried turns (m :: ms) trial := by
  cases trial with
  | accepted a =>
      obtain ⟨before, n, after, rfl, accepted, earlier⟩ := h
      refine ⟨m :: before, n, after, rfl, accepted, ?_⟩
      intro k hk
      rcases List.mem_cons.mp hk with rfl | later
      · exact ⟨causes, rejected⟩
      · exact earlier k later
  | rejected all =>
      intro k hk
      rcases List.mem_cons.mp hk with rfl | later
      · exact ⟨causes, rejected⟩
      · exact h k later
  | aborted f =>
      obtain ⟨n, hn, aborted⟩ := h
      exact ⟨n, List.mem_cons_of_mem _ hn, aborted⟩

/-- What holds of every single attempt tells how the matches in order turn out. -/
theorem tried_of_outcome_first (h : ∀ m, Steady resolver (attempt m)) {ms : List Match}
    {causes : List Failure} {cache : ProofCache} {turns : Match → Trial → Prop} {trial : Trial}
    (each : ∀ m ∈ ms, ∀ t, (attempt m).outcome cache = some t → turns m t)
    (tried : (first attempt ms causes).outcome cache = some trial) : Tried turns ms trial := by
  induction ms generalizing causes with
  | nil =>
      cases tried
      exact fun m hm => by cases hm
  | cons m ms ih =>
      rw [outcome_first_cons h] at tried
      obtain ⟨t, attempted, rest⟩ := Option.bind_eq_some_iff.mp tried
      have turned := each m List.mem_cons_self t attempted
      cases t with
      | accepted a =>
          cases rest
          exact ⟨[], m, ms, rfl, turned, by simp⟩
      | rejected more =>
          exact (ih (fun k hk => each k (List.mem_cons_of_mem _ hk)) rest).cons turned
      | aborted f =>
          cases rest
          exact ⟨m, List.mem_cons_self, turned⟩

/-- Trying matches in order has an outcome if every single attempt has one. -/
theorem exists_outcome_first (h : ∀ m, Steady resolver (attempt m)) {ms : List Match}
    (causes : List Failure) {cache : ProofCache}
    (each : ∀ m ∈ ms, ∃ trial, (attempt m).outcome cache = some trial) :
    ∃ trial, (first attempt ms causes).outcome cache = some trial := by
  induction ms generalizing causes with
  | nil => exact ⟨_, rfl⟩
  | cons n ms ih =>
      obtain ⟨trial, tried⟩ := each n List.mem_cons_self
      rw [outcome_first_cons h, tried]
      cases trial with
      | accepted a => exact ⟨_, rfl⟩
      | rejected more => exact ih _ (fun m hm => each m (List.mem_cons_of_mem _ hm))
      | aborted f => exact ⟨_, rfl⟩

end Trial

namespace Context

open Walk

variable {ctx : Context} {cache : ProofCache}

theorem steady_gather (ctx : Context) (claimed : List Source) :
    Steady ctx.resolver (modifyGet (ctx.gather claimed) : Walk (Except Failure Gathered)) :=
  .lookup (ctx.leads_gather claimed) fun same => gather_congr same claimed

section Prove

variable {authorize : Match → Walk (Except Failure Authorization)}

theorem steady_prove (h : ∀ m, Steady ctx.resolver (authorize m)) (m : Match) :
    Steady ctx.resolver (ctx.prove authorize m) := by
  unfold prove
  split
  · exact .pure _
  case h_2 rest _ =>
    refine (h rest).bind ?_
    intro result
    cases result <;> exact .pure _

/-- What its issuers may issue outright needs no proof. -/
theorem outcome_prove_issued {m : Match} (h : m.prune ctx.mayIssue = none) :
    (ctx.prove authorize m).outcome cache = some (.accepted ⟨m, []⟩) := by
  unfold prove
  simp [h]

/-- Otherwise what is left is authorized. -/
theorem outcome_prove_left (hs : ∀ m, Steady ctx.resolver (authorize m)) {m rest : Match}
    (h : m.prune ctx.mayIssue = some rest) :
    (ctx.prove authorize m).outcome cache = ((authorize rest).outcome cache).map fun
      | .ok proof => .accepted ⟨m, [proof]⟩
      | .error f => if f.isFatal then .aborted f else .rejected [f] := by
  unfold prove
  simp only [h]
  rw [outcome_bind (hs rest)]
  · rw [Option.map_eq_bind]
    congr 1
    funext result
    cases result <;> rfl
  · intro result
    cases result <;> exact .pure _

end Prove

theorem steady_authorize (ctx : Context) (steps : Nat) (claim : Match) :
    Steady ctx.resolver (ctx.authorize steps claim) := by
  induction steps generalizing claim with
  | zero => exact .failure
  | succ steps ih =>
      refine (ctx.steady_gather claim.sources).bind ?_
      intro result
      cases result with
      | error f => exact .pure _
      | ok gathered =>
          refine (Trial.steady_first (steady_prove ih) _ _).bind ?_
          intro trial
          cases trial <;> exact .pure _

/-- How the trial of the matches for a claim settles the claim. -/
def conclude (claim : Match) : Trial → Except Failure Authorization
  | .accepted a => .ok a
  | .rejected causes => .error (.invalidClaim claim.capabilities causes)
  | .aborted f => .error f

/-- A claim is authorized by the first match among the sources gathered for it that can be proven. -/
theorem outcome_authorize_succ (ctx : Context) (steps : Nat) (claim : Match) (cache : ProofCache) :
    (ctx.authorize (steps + 1) claim).outcome cache =
      match (ctx.gather claim.sources cache).1 with
      | .error fatal => some (.error fatal)
      | .ok g =>
        ((Trial.first (ctx.prove (ctx.authorize steps)) (claim.select g.sources).found
          (claimFailures claim g (claim.select g.sources))).outcome cache).map (conclude claim) := by
  have proves := steady_prove (ctx.steady_authorize steps)
  rw [authorize, outcome_bind (ctx.steady_gather claim.sources)]
  · change Option.bind (some (ctx.gather claim.sources cache).1) _ = _
    rw [Option.bind_some]
    cases (ctx.gather claim.sources cache).1 with
    | error fatal => rfl
    | ok g =>
        simp only
        rw [outcome_bind (Trial.steady_first proves _ _), Option.map_eq_bind]
        · congr 1
          funext trial
          cases trial <;> rfl
        · intro trial
          cases trial <;> exact .pure _
  · intro result
    cases result with
    | error f => exact .pure _
    | ok gathered =>
        refine (Trial.steady_first proves _ _).bind ?_
        intro trial
        cases trial <;> exact .pure _

/-- Proves a match of the invocation and puts it to the validator. -/
def attempt (ctx : Context) (steps : Nat) (i : Invocation) (m : Match) : Walk Trial := do
  return ctx.settle i (← ctx.prove (ctx.authorize steps) m)

theorem steady_attempt (ctx : Context) (steps : Nat) (i : Invocation) (m : Match) :
    Steady ctx.resolver (ctx.attempt steps i m) :=
  (steady_prove (ctx.steady_authorize steps) m).bind fun _ => .pure _

theorem outcome_attempt (ctx : Context) (steps : Nat) (i : Invocation) (m : Match)
    (cache : ProofCache) :
    (ctx.attempt steps i m).outcome cache =
      ((ctx.prove (ctx.authorize steps) m).outcome cache).map (ctx.settle i) := by
  rw [attempt, outcome_bind (steady_prove (ctx.steady_authorize steps) m), Option.map_eq_bind]
  · rfl
  · exact fun _ => .pure _

/-- How the trial of the matches of an invocation settles the invocation. -/
def settled (i : Invocation) : Trial → Except Failure Authorization
  | .accepted a => .ok a
  | .rejected causes => .error (.unauthorized i.capability causes)
  | .aborted f => .error f

theorem found_eq_nil_of_malformed? {selection : Selection Match} {f : Failure}
    (h : malformed? selection = some f) : selection.found = [] := by
  unfold malformed? at h
  split at h
  case isTrue empty => exact List.isEmpty_iff.mp empty
  case isFalse => cases h

/-- The search for an invocation that passes its own checks. -/
theorem outcome_accessWithin {i : Invocation} (checked : ctx.checkInvocation i = .ok ())
    (steps : Nat) (cache : ProofCache) :
    (ctx.accessWithin steps i).outcome cache =
      let selection := ctx.selector.select (Source.all i.delegation)
      match malformed? selection with
      | some f => some (.error f)
      | none =>
        ((Trial.first (ctx.attempt steps i) selection.found selection.failures).outcome cache).map
          (settled i) := by
  rw [accessWithin, checked]
  simp only
  cases malformed? (ctx.selector.select (Source.all i.delegation)) with
  | some f => rfl
  | none =>
      change outcome (Trial.first (ctx.attempt steps i) _ _ >>= _) cache = _
      rw [outcome_bind (Trial.steady_first (ctx.steady_attempt steps i) _ _), Option.map_eq_bind]
      · congr 1
        funext trial
        cases trial <;> rfl
      · intro trial
        cases trial <;> exact .pure _

theorem steady_accessWithin (ctx : Context) (steps : Nat) (i : Invocation) :
    Steady ctx.resolver (ctx.accessWithin steps i) := by
  unfold accessWithin
  split
  · exact .pure _
  · simp only
    split
    · exact .pure _
    · refine (Trial.steady_first (ctx.steady_attempt steps i) _ _).bind ?_
      intro trial
      cases trial <;> exact .pure _

end Context

end Mandate

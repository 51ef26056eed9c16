import Mandate.Proofs.Acyclic
import Mandate.Proofs.Attached
import Mandate.Proofs.Bare

/-!
# Wherever proofs come from

A search needs the delegations that are cited, and it does not matter how it gets hold of them: attached, or
looked up, or now one and now the other. As long as every citation leads to a copy of the same content, the
search goes the way of one that starts from bare delegations and looks up the bare copy of everything that is
cited. So searches that are supplied with the same content in different ways have the same outcome.
-/

namespace Mandate

open Delegation

/-- Looks up the parts of a delegation, without what is attached to them. -/
def Resolver.ofParts (root : Delegation) : Resolver where
  fetch c := match root.nested.find? fun e => e.cid = c with
    | some e => .ok e.bare
    | none => .error ""
  known := root.nested.map bare
  fetch_mem := by
    intro c d h
    split at h
    case h_1 e found =>
      cases h
      exact List.mem_map.mpr ⟨e, List.mem_of_find?_eq_some found, rfl⟩
    case h_2 => cases h

/-! ## Citations without attachments -/

namespace Citation

/-- The citation of a proof by its address only, by who has nothing attached. -/
def bare (c : Citation) : Citation := ⟨c.citing.bare, .link c.proof.cid⟩

theorem beq_bare (a b : Citation) : (a.bare == b.bare) = (a == b) := rfl

theorem proofs_bare (d : Delegation) : d.bare.proofs = d.payload.proofs.map .link :=
  List.map_congr_left fun _ _ => rfl

theorem ofDelegations_bare {ds : List Delegation}
    (own : ∀ d ∈ ds, d.proofs.map (·.cid) = d.payload.proofs) :
    ofDelegations (ds.map Delegation.bare) = (ofDelegations ds).map bare := by
  rw [ofDelegations, ofDelegations, ← eraseDups_map _ fun a _ b _ => beq_bare a b, List.map_flatMap,
    List.flatMap_map]
  congr 1
  refine List.flatMap_congr fun d mem => ?_
  rw [proofs_bare, ← own d mem, List.map_map, List.map_map, List.map_map]
  rfl

theorem ofSources_bare {claimed : List Source}
    (own : ∀ s ∈ claimed, s.delegation.proofs.map (·.cid) = s.delegation.payload.proofs) :
    ofSources (claimed.map Source.bare) = (ofSources claimed).map bare := by
  have delegations : (claimed.map Source.bare).map (·.delegation) =
      (claimed.map (·.delegation)).map Delegation.bare := by
    rw [List.map_map, List.map_map]
    rfl
  have same : ∀ d e : Delegation, (d.bare == e.bare) = (d == e) := fun _ _ => rfl
  rw [ofSources, ofSources, delegations, eraseDups_map _ fun d _ e _ => same d e, ofDelegations_bare]
  intro d mem
  obtain ⟨s, hs, rfl⟩ := List.mem_map.mp (mem_of_mem_eraseDups _ mem)
  exact own s hs

end Citation

namespace Gathered

def bare (g : Gathered) : Gathered := ⟨g.sources.map Source.bare, g.failures⟩

theorem ofChecks_bare (checks : List (Except Failure Delegation)) :
    ofChecks (checks.map (·.map Delegation.bare)) = (ofChecks checks).map bare := by
  induction checks with
  | nil => rfl
  | cons check rest ih =>
      cases check with
      | ok d =>
          change (ofChecks (rest.map (·.map Delegation.bare))).map
            (fun g => Gathered.mk (Source.all d.bare ++ g.sources) g.failures) = _
          rw [ih, ofChecks]
          cases ofChecks rest with
          | error f => rfl
          | ok g => simp [Except.map, bare, Source.all_bare]
      | error f =>
          change (if f.isFatal then .error f else (ofChecks (rest.map (·.map Delegation.bare))).map
            fun g => Gathered.mk g.sources (f :: g.failures)) = _
          rw [ih, ofChecks]
          split
          · rfl
          · cases ofChecks rest <;> rfl

end Gathered

namespace Context

variable {ctx : Context} {cache : ProofCache} {root : Delegation} {P : Delegation → Prop}

/-- A search is supplied with the parts of a delegation: it only meets copies of parts, which have some
property, and each citation leads to such a copy at its address. -/
structure Supplies (ctx : Context) (cache : ProofCache) (root : Delegation) (P : Delegation → Prop) :
    Prop where
  part : ∀ {d}, P d → ∃ e ∈ root.nested, d.bare = e.bare
  own : ∀ {d}, P d → ∀ c p, d.blocks.lookup c = some p → p.cid = c
  cited : ∀ {d}, P d → ∀ p ∈ d.proofs, ∃ q, ctx.cited cache p = .ok q ∧ q.cid = p.cid ∧ P q

/-- The same context with the parts of a delegation to look up. -/
def supplied (ctx : Context) (root : Delegation) : Context := { ctx with resolver := some (.ofParts root) }

theorem Supplies.map_cid (h : ctx.Supplies cache root P) {d : Delegation} (hd : P d) :
    d.proofs.map (·.cid) = d.payload.proofs :=
  map_cid_proofs fun c p attached => h.own hd c p attached

theorem Supplies.of_cites (h : ctx.Supplies cache root P) {d q : Delegation} (hd : P d)
    (cites : ctx.Cites cache d q) : P q ∧ q.cid ∈ d.payload.proofs := by
  obtain ⟨p, mem, found⟩ := cites
  obtain ⟨q', found', same, hq⟩ := h.cited hd p mem
  obtain rfl := Except.ok.inj (found.symm.trans found')
  refine ⟨hq, ?_⟩
  rw [← h.map_cid hd, same]
  exact List.mem_map.mpr ⟨p, mem, rfl⟩

/-- The bare copy of a part is found at its address. -/
theorem answer_ofParts (whole : root.Whole) {e : Delegation} (he : e ∈ root.nested) :
    ProofCache.empty.answer (some (.ofParts root)) e.cid = .ok e.bare := by
  have fetched : (Resolver.ofParts root).fetch e.cid = .ok e.bare := by
    simp only [Resolver.ofParts]
    split
    case h_1 e' found =>
      have same : e'.cid = e.cid := by simpa using List.find?_some found
      rw [whole.bare_eq e' (List.mem_of_find?_eq_some found) e he same]
    case h_2 none =>
      exact absurd (List.find?_eq_none.mp none e he) (by simp)
  exact ProofCache.answer_eq_ok_iff.mpr
    (Or.inr ⟨rfl, _, rfl, ProofCache.fetch_eq_ok_iff.mpr ⟨fetched, rfl⟩⟩)

/-- The verdict on a citation does not depend on where the proof comes from. -/
theorem Supplies.verdict_bare (h : ctx.Supplies cache root P) (whole : root.Whole) {c : Citation}
    (hc : P c.citing) (mem : c.proof ∈ c.citing.proofs) :
    (c.verdict ctx cache).map Delegation.bare = c.bare.verdict (ctx.supplied root) .empty := by
  obtain ⟨q, found, same, hq⟩ := h.cited hc c.proof mem
  obtain ⟨e, he, content⟩ := h.part hq
  have looked : (ctx.supplied root).cited .empty c.bare.proof = .ok q.bare := by
    have cid : e.cid = c.proof.cid := (cid_eq_of_bare content).symm.trans same
    change ProofCache.answer (some (.ofParts root)) .empty c.proof.cid = _
    rw [← cid, content]
    exact answer_ofParts whole he
  have check : (ctx.supplied root).checkProof c.bare.citing q.bare = ctx.checkProof c.citing q := rfl
  simp only [Citation.verdict, found, looked, bind, Except.bind, check]
  cases ctx.checkProof c.citing q <;> rfl

/-- Wherever proofs come from, the same is gathered. -/
theorem Supplies.gather_bare (h : ctx.Supplies cache root P) (whole : root.Whole)
    {claimed : List Source} (held : ∀ s ∈ claimed, P s.delegation) :
    (ctx.gather claimed cache).1.map Gathered.bare =
      ((ctx.supplied root).gather (claimed.map Source.bare) .empty).1 := by
  rw [gather_fst, gather_fst, ← Gathered.ofChecks_bare,
    Citation.ofSources_bare fun s mem => h.map_cid (held s mem), List.map_map, List.map_map]
  congr 1
  refine List.map_congr_left fun c counts => ?_
  obtain ⟨⟨s, hs, citing⟩, proof⟩ := Citation.mem_ofSources counts
  exact h.verdict_bare whole (citing ▸ held s hs) proof

end Context

/-! ## The search without attachments -/

namespace Authorization

mutual

/-- The same tree of matches, with every source bare. -/
def bare : Authorization → Authorization
  | ⟨m, proofs⟩ => ⟨m.bare, bareAll proofs⟩

def bareAll : List Authorization → List Authorization
  | [] => []
  | a :: rest => bare a :: bareAll rest

end

@[simp] theorem bare_leaf (m : Match) : bare ⟨m, []⟩ = ⟨m.bare, []⟩ := by
  simp [bare, bareAll]

@[simp] theorem bare_step (m : Match) (p : Authorization) : bare ⟨m, [p]⟩ = ⟨m.bare, [p.bare]⟩ := by
  simp [bare, bareAll]

end Authorization

namespace Invocation

def bare (i : Invocation) : Invocation := ⟨i.delegation.bare, i.capability, i.capabilities_eq⟩

/-- An invocation is determined by its delegation. -/
theorem eq_of_delegation : {i j : Invocation} → i.delegation = j.delegation → i = j
  | ⟨d, c, h⟩, ⟨_, c', h'⟩, rfl => by
      obtain rfl : c = c' := by simpa using h.symm.trans h'
      rfl

end Invocation

namespace Trial

open Walk

def bare : Trial → Trial
  | accepted a => accepted a.bare
  | rejected causes => rejected causes
  | aborted f => aborted f

/-- If single attempts turn out the same without attachments, so do attempts in order. -/
theorem outcome_first_bare {resolver resolver' : Option Resolver} {attempt attempt' : Match → Walk Trial}
    (steady : ∀ m, Steady resolver (attempt m)) (steady' : ∀ m, Steady resolver' (attempt' m))
    {ms : List Match} {causes : List Failure} {cache cache' : ProofCache} {trial : Trial}
    (each : ∀ m ∈ ms, ∀ t, (attempt m).outcome cache = some t →
      (attempt' m.bare).outcome cache' = some t.bare)
    (tried : (first attempt ms causes).outcome cache = some trial) :
    (first attempt' (ms.map Match.bare) causes).outcome cache' = some trial.bare := by
  induction ms generalizing causes with
  | nil =>
      cases tried
      rfl
  | cons m ms ih =>
      rw [outcome_first_cons steady] at tried
      obtain ⟨t, attempted, rest⟩ := Option.bind_eq_some_iff.mp tried
      rw [List.map_cons, outcome_first_cons steady', each m List.mem_cons_self t attempted]
      cases t with
      | accepted a =>
          cases rest
          rfl
      | rejected more => exact ih (fun k hk => each k (List.mem_cons_of_mem _ hk)) rest
      | aborted f =>
          cases rest
          rfl

end Trial

namespace Context

open Walk

variable {ctx : Context} {cache : ProofCache} {root : Delegation} {P : Delegation → Prop} {i : Invocation}

theorem outcome_prove_bare {authorize authorize' : Match → Walk (Except Failure Authorization)}
    (steady : ∀ m, Steady ctx.resolver (authorize m))
    (steady' : ∀ m, Steady (ctx.supplied root).resolver (authorize' m)) {m : Match}
    (authorized : ∀ rest, m.prune ctx.mayIssue = some rest → ∀ r,
      (authorize rest).outcome cache = some r →
        (authorize' rest.bare).outcome .empty = some (r.map Authorization.bare)) {trial : Trial}
    (h : (ctx.prove authorize m).outcome cache = some trial) :
    ((ctx.supplied root).prove authorize' m.bare).outcome .empty = some trial.bare := by
  have same : m.bare.prune (ctx.supplied root).mayIssue = (m.prune ctx.mayIssue).map Match.bare :=
    Match.prune_bare ctx.mayIssue m
  cases pruned : m.prune ctx.mayIssue with
  | none =>
      rw [outcome_prove_issued pruned] at h
      cases h
      rw [pruned] at same
      rw [outcome_prove_issued same]
      simp [Trial.bare]
  | some rest =>
      rw [outcome_prove_left steady pruned] at h
      obtain ⟨r, proven, rfl⟩ := Option.map_eq_some_iff.mp h
      rw [pruned] at same
      rw [outcome_prove_left steady' same, authorized rest pruned r proven]
      cases r with
      | ok p => simp [Except.map, Trial.bare]
      | error f =>
          simp only [Except.map, Option.map_some]
          split <;> rfl

theorem claimFailures_bare (claim : Match) (g : Gathered) (selection : Selection Match) :
    claimFailures claim.bare g.bare (selection.map Match.bare) = claimFailures claim g selection := by
  simp only [claimFailures, Selection.map, Selection.failures, Gathered.bare, Match.capabilities_bare,
    Match.delegation_bare, List.isEmpty_map]
  rfl

theorem conclude_bare (claim : Match) (trial : Trial) :
    conclude claim.bare trial.bare = (conclude claim trial).map Authorization.bare := by
  cases trial <;> simp [conclude, Trial.bare, Except.map]

/-- A claim that is authorized, or not, is so without attachments. -/
theorem Supplies.outcome_authorize_bare (h : ctx.Supplies cache root P) (whole : root.Whole)
    {steps : Nat} {claim : Match} (held : ∀ s ∈ claim.sources, P s.delegation)
    {r : Except Failure Authorization} (authorized : (ctx.authorize steps claim).outcome cache = some r) :
    ((ctx.supplied root).authorize steps claim.bare).outcome .empty = some (r.map Authorization.bare) := by
  induction steps generalizing claim r with
  | zero => cases authorized
  | succ steps ih =>
      have gathers := h.gather_bare whole held
      rw [outcome_authorize_succ] at authorized ⊢
      rw [Match.sources_bare, ← gathers]
      cases gathered : (ctx.gather claim.sources cache).1 with
      | error f =>
          rw [gathered] at authorized
          cases authorized
          rfl
      | ok g =>
          rw [gathered] at authorized
          obtain ⟨trial, tried, rfl⟩ := Option.map_eq_some_iff.mp authorized
          have selects : claim.bare.select g.bare.sources = (claim.select g.sources).map Match.bare :=
            claim.select_bare g.sources
          change ((Trial.first _ (claim.bare.select g.bare.sources).found
            (claimFailures claim.bare g.bare (claim.bare.select g.bare.sources))).outcome _).map
              (conclude claim.bare) = _
          rw [selects, claimFailures_bare, ← conclude_bare]
          refine Option.map_eq_some_iff.mpr ⟨trial.bare, ?_, rfl⟩
          refine Trial.outcome_first_bare (steady_prove (ctx.steady_authorize steps))
            (steady_prove ((ctx.supplied root).steady_authorize steps)) ?_ tried
          intro m selected t proven
          refine outcome_prove_bare (ctx.steady_authorize steps)
            ((ctx.supplied root).steady_authorize steps) ?_ proven
          intro rest pruned r authorized
          -- What is left of a selected match comes from proofs that were cited by the claim.
          refine ih (fun s mem => ?_) authorized
          obtain ⟨t, ht, cites, -⟩ :=
            cites_of_selected gathered selected (Match.mem_sources_of_prune m pruned mem)
          exact (h.of_cites (held t ht) cites).1

theorem malformed?_bare (selection : Selection Match) :
    malformed? (selection.map Match.bare) = malformed? selection := by
  simp only [malformed?, Selection.map, List.isEmpty_map]

theorem settle_bare (blind : ∀ a, ctx.validate a.bare = ctx.validate a) (trial : Trial) :
    (ctx.supplied root).settle i.bare trial.bare = (ctx.settle i trial).bare := by
  cases trial with
  | accepted a =>
      have same : (ctx.supplied root).validate a.bare = ctx.validate a := blind a
      simp only [settle, Trial.bare, same]
      cases ctx.validate a <;> rfl
  | rejected causes =>
      simp only [Trial.bare]
      unfold settle
      split <;> simp_all
  | aborted f => rfl

theorem settled_bare (trial : Trial) :
    settled i.bare trial.bare = (settled i trial).map Authorization.bare := by
  cases trial <;> rfl

/-- A bounded search that has an outcome has the same one without attachments. -/
theorem Supplies.outcome_accessWithin_bare (h : ctx.Supplies cache root P) (whole : root.Whole)
    (blind : ∀ a, ctx.validate a.bare = ctx.validate a) (invoked : P i.delegation) {steps : Nat}
    {r : Except Failure Authorization} (within : (ctx.accessWithin steps i).outcome cache = some r) :
    ((ctx.supplied root).accessWithin steps i.bare).outcome .empty = some (r.map Authorization.bare) := by
  have same : (ctx.supplied root).checkInvocation i.bare = ctx.checkInvocation i := rfl
  cases checked : ctx.checkInvocation i with
  | error f =>
      rw [accessWithin, checked] at within
      cases within
      rw [accessWithin, same, checked]
      rfl
  | ok _ =>
      rw [outcome_accessWithin checked] at within
      rw [outcome_accessWithin (same.trans checked)]
      have selects : (ctx.supplied root).selector.select (Source.all i.bare.delegation) =
          (ctx.selector.select (Source.all i.delegation)).map Match.bare :=
        (congrArg ctx.selector.select (Source.all_bare i.delegation)).trans
          (ctx.selector.select_bare (Source.all i.delegation))
      simp only [selects, malformed?_bare]
      simp only at within
      split at within
      case h_1 f malformed =>
        cases within
        rfl
      case h_2 =>
        obtain ⟨trial, tried, rfl⟩ := Option.map_eq_some_iff.mp within
        rw [← settled_bare]
        refine Option.map_eq_some_iff.mpr ⟨trial.bare, ?_, rfl⟩
        refine Trial.outcome_first_bare (ctx.steady_attempt steps i)
          ((ctx.supplied root).steady_attempt steps i.bare) ?_ tried
        intro m selected t attempted
        rw [outcome_attempt] at attempted ⊢
        obtain ⟨trial, proven, rfl⟩ := Option.map_eq_some_iff.mp attempted
        rw [← settle_bare blind]
        refine Option.map_eq_some_iff.mpr ⟨trial.bare, ?_, rfl⟩
        refine outcome_prove_bare (ctx.steady_authorize steps)
          ((ctx.supplied root).steady_authorize steps) ?_ proven
        intro rest pruned r authorized
        refine h.outcome_authorize_bare whole (fun s mem => ?_) authorized
        rw [Selector.delegation_eq_of_mem_sources selected (Match.mem_sources_of_prune m pruned mem)]
        exact invoked

/-! ## The search comes to an end -/

/-- Along citations the parts of a whole delegation get smaller. -/
theorem Supplies.size_lt_of_cites (h : ctx.Supplies cache root P) (whole : root.Whole)
    {d q e e' : Delegation} (hd : P d) (cites : ctx.Cites cache d q) (he : e ∈ root.nested)
    (he' : e' ∈ root.nested) (start : d.cid = e.cid) (stop : q.cid = e'.cid) : e'.size < e.size := by
  obtain ⟨part, hp, content⟩ := h.part hd
  have same := content.trans (whole.bare_eq part hp e he ((cid_eq_of_bare content).symm.trans start))
  have listed := (h.of_cites hd cites).2
  rw [payload_eq_of_bare same] at listed
  obtain ⟨p, hp, -, own, smaller⟩ := whole.complete.exists_part whole.intact he listed
  rwa [whole.coherent.size_eq whole.intact he' hp (stop.symm.trans own.symm)]

/-- So following them comes to an end. -/
theorem Supplies.founded (h : ctx.Supplies cache root P) (whole : root.Whole) {d : Delegation} (hd : P d) :
    ctx.Founded cache d := by
  -- Copies may have other sizes, so the induction is on the size of the part that a copy is of.
  obtain ⟨part, hp, content⟩ := h.part hd
  have start := cid_eq_of_bare content
  clear content
  induction size : part.size using Nat.strong_induction_on generalizing d part with
  | _ n ih =>
      subst size
      refine .intro d fun q cites => ?_
      have hq := (h.of_cites hd cites).1
      obtain ⟨next, hn, content⟩ := h.part hq
      have stop := cid_eq_of_bare content
      exact ih next.size (h.size_lt_of_cites whole hd cites hp hn start stop) hq next hn stop rfl

/-- An access has an outcome, which a search without attachments has as well in enough steps. -/
theorem Supplies.exists_access_bare (h : ctx.Supplies cache root P) (whole : root.Whole)
    (blind : ∀ a, ctx.validate a.bare = ctx.validate a) (invoked : P i.delegation) :
    ∃ r steps, (ctx.access i).outcome cache = some r ∧ ∀ more, steps ≤ more →
      ((ctx.supplied root).accessWithin more i.bare).outcome .empty = some (r.map Authorization.bare) := by
  obtain ⟨r, accessed⟩ := exists_access (acyclic_of_founded (h.founded whole invoked))
  obtain ⟨steps, within⟩ := exists_accessWithin accessed
  have bare := h.outcome_accessWithin_bare whole blind invoked within
  exact ⟨r, steps, accessed, fun more enough => (prolongs_accessWithin enough i.bare).outcome bare⟩

/-- Two searches that are supplied with the same parts, in whatever ways, have the same outcome up to
attachments. -/
theorem Supplies.access_eq {ctx' : Context} {cache' : ProofCache} {P' : Delegation → Prop}
    {j : Invocation} (h : ctx.Supplies cache root P) (h' : ctx'.Supplies cache' root P')
    (whole : root.Whole) (blind : ∀ a, ctx.validate a.bare = ctx.validate a)
    (context : ctx'.supplied root = ctx.supplied root) (invocation : j.bare = i.bare)
    (invoked : P i.delegation) (invoked' : P' j.delegation) {r : Except Failure Authorization}
    (accessed : (ctx.access i).outcome cache = some r) :
    ∃ r', (ctx'.access j).outcome cache' = some r' ∧
      r'.map Authorization.bare = r.map Authorization.bare := by
  have blind' : ∀ a, ctx'.validate a.bare = ctx'.validate a := by
    have same : (ctx'.supplied root).validate = (ctx.supplied root).validate := by rw [context]
    change ctx'.validate = ctx.validate at same
    rwa [same]
  obtain ⟨s, steps, found, ideal⟩ := h.exists_access_bare whole blind invoked
  obtain rfl := Option.some.inj (found.symm.trans accessed)
  obtain ⟨r', steps', found', ideal'⟩ := h'.exists_access_bare whole blind' invoked'
  refine ⟨r', found', ?_⟩
  have here := ideal (max steps steps') (Nat.le_max_left _ _)
  have there := ideal' (max steps steps') (Nat.le_max_right _ _)
  rw [context, invocation, here] at there
  exact (Option.some.inj there).symm

end Context

end Mandate

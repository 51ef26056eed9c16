import Mandate.Proofs.Match
import Mandate.Proofs.Steps

/-!
# What an authorization stands for

A granted authorization is a tree of matches. At every node the issuers of the match may issue it
themselves, or what they may not is covered by the one proof below, which was selected among capabilities
of accepted proofs. The tree is described first, the search is then shown to build no others, and the
description is last put in terms of addresses, issuers, times and signatures.
-/

namespace Mandate

namespace Authorization

mutual

/-- All that a tree consists of, itself first. -/
def nodes : Authorization → List Authorization
  | ⟨m, proofs⟩ => ⟨m, proofs⟩ :: nodesOfAll proofs

def nodesOfAll : List Authorization → List Authorization
  | [] => []
  | a :: rest => nodes a ++ nodesOfAll rest

end

@[simp] theorem nodes_leaf (m : Match) : nodes ⟨m, []⟩ = [⟨m, []⟩] := by
  simp [nodes, nodesOfAll]

@[simp] theorem nodes_step (m : Match) (p : Authorization) : nodes ⟨m, [p]⟩ = ⟨m, [p]⟩ :: p.nodes := by
  simp [nodes, nodesOfAll]

theorem self_mem_nodes (a : Authorization) : a ∈ a.nodes := by
  obtain ⟨m, proofs⟩ := a
  rw [nodes]
  exact List.mem_cons_self

end Authorization

namespace Context

variable {ctx : Context} {cache : ProofCache} {i : Invocation} {P : Delegation → Prop}

/-- The trees that the rules of the search allow, whatever the order in which it tries matches. -/
inductive Proves (ctx : Context) (cache : ProofCache) : Authorization → Prop where
  | issued {m : Match} (pruned : m.prune ctx.mayIssue = none) : Proves ctx cache ⟨m, []⟩
  | delegated {m rest : Match} {g : Gathered} {p : Authorization}
      (pruned : m.prune ctx.mayIssue = some rest)
      (gathered : (ctx.gather rest.sources cache).1 = .ok g)
      (selected : p.matched ∈ (rest.select g.sources).found)
      (proven : Proves ctx cache p) : Proves ctx cache ⟨m, [p]⟩

/-- One step of the search: the proof of a match is one of the trees allowed for it. -/
theorem proves_of_prove {authorize : Match → Walk (Except Failure Authorization)}
    (steady : ∀ m, Walk.Steady ctx.resolver (authorize m))
    (sound : ∀ claim p, (authorize claim).outcome cache = some (.ok p) →
      ∃ g, (ctx.gather claim.sources cache).1 = .ok g ∧
        p.matched ∈ (claim.select g.sources).found ∧ ctx.Proves cache p)
    {m : Match} {a : Authorization}
    (h : (ctx.prove authorize m).outcome cache = some (.accepted a)) :
    a.matched = m ∧ ctx.Proves cache a := by
  cases pruned : m.prune ctx.mayIssue with
  | none =>
      rw [outcome_prove_issued pruned] at h
      cases h
      exact ⟨rfl, .issued pruned⟩
  | some rest =>
      rw [outcome_prove_left steady pruned] at h
      obtain ⟨result, authorized, same⟩ := Option.map_eq_some_iff.mp h
      cases result with
      | ok p =>
          cases same
          obtain ⟨g, gathered, selected, proven⟩ := sound rest p authorized
          exact ⟨rfl, .delegated pruned gathered selected proven⟩
      | error f =>
          simp only at same
          split at same <;> cases same

/-- All steps of the search: an authorized claim has a proof among what is gathered for it. -/
theorem proves_of_authorize {steps : Nat} {claim : Match} {a : Authorization}
    (h : (ctx.authorize steps claim).outcome cache = some (.ok a)) :
    ∃ g, (ctx.gather claim.sources cache).1 = .ok g ∧
      a.matched ∈ (claim.select g.sources).found ∧ ctx.Proves cache a := by
  induction steps generalizing claim a with
  | zero => cases h
  | succ steps ih =>
      rw [outcome_authorize_succ] at h
      cases gathered : (ctx.gather claim.sources cache).1 with
      | error f =>
          rw [gathered] at h
          cases h
      | ok g =>
          rw [gathered] at h
          obtain ⟨trial, tried, concluded⟩ := Option.map_eq_some_iff.mp h
          cases trial with
          | accepted b =>
              cases concluded
              obtain ⟨before, m, after, split, proven, -⟩ := Trial.tried_of_outcome_first
                (steady_prove (ctx.steady_authorize steps)) (fun _ _ _ found => found) tried
              obtain ⟨rfl, tree⟩ :=
                proves_of_prove (ctx.steady_authorize steps) (fun _ _ => ih) proven
              refine ⟨g, rfl, ?_, tree⟩
              rw [split]
              simp
          | rejected causes => cases concluded
          | aborted f => cases concluded

/-- Only a proven match that the validator lets pass is settled as accepted. -/
theorem settle_eq_accepted_iff {trial : Trial} {a : Authorization} :
    ctx.settle i trial = .accepted a ↔ trial = .accepted a ∧ ctx.validate a = .ok () := by
  cases trial with
  | accepted b =>
      constructor
      · intro same
        simp only [settle] at same
        split at same
        case h_1 valid =>
          cases same
          exact ⟨rfl, valid⟩
        case h_2 => cases same
      · rintro ⟨same, valid⟩
        cases same
        simp only [settle, valid]
  | rejected causes =>
      simp only [reduceCtorEq, false_and, iff_false]
      unfold settle
      split <;> simp_all
  | aborted f => simp [settle]

theorem checkInvocation_eq_ok_iff :
    ctx.checkInvocation i = .ok () ↔
      i.delegation.SignedUnder ctx.directory ∧
      (∀ authority, ctx.authority = some authority → i.delegation.audience = authority) ∧
      i.delegation.window.contains ctx.now = true := by
  unfold checkInvocation
  rw [seq_eq_ok_iff, checkSignature_eq_ok_iff, ← checkTime_eq_ok_iff]
  refine and_congr_right fun _ => ?_
  cases ctx.authority with
  | none => cases ctx.checkTime i.delegation <;> simp [pure, Except.pure]
  | some authority =>
      simp only [Option.some.injEq, forall_eq']
      rw [seq_eq_ok_iff, checkAudience_eq_ok_iff]
      refine and_congr_right fun _ => ?_
      cases ctx.checkTime i.delegation <;> simp [pure, Except.pure]

/-- An access that is granted, before delegations are looked into. -/
theorem proves_of_access {a : Authorization} {later : ProofCache}
    (h : ctx.access i cache = some (.ok a, later)) :
    ctx.checkInvocation i = .ok () ∧
      a.matched ∈ (ctx.selector.select (Source.all i.delegation)).found ∧
      ctx.validate a = .ok () ∧ ctx.Proves cache a := by
  have granted : (ctx.access i).outcome cache = some (.ok a) := Walk.outcome_eq_some_iff.mpr ⟨later, h⟩
  obtain ⟨steps, within⟩ := exists_accessWithin granted
  have checked : ctx.checkInvocation i = .ok () := by
    cases result : ctx.checkInvocation i with
    | ok _ => rfl
    | error f =>
        rw [accessWithin, result] at within
        cases within
  rw [outcome_accessWithin checked] at within
  simp only at within
  split at within
  · cases within
  · obtain ⟨trial, tried, settled⟩ := Option.map_eq_some_iff.mp within
    cases trial with
    | accepted b =>
        cases settled
        obtain ⟨before, m, after, split, attempted, -⟩ := Trial.tried_of_outcome_first
          (ctx.steady_attempt steps i) (fun _ _ _ found => found) tried
        rw [outcome_attempt] at attempted
        obtain ⟨trial, proven, accepted⟩ := Option.map_eq_some_iff.mp attempted
        obtain ⟨rfl, valid⟩ := settle_eq_accepted_iff.mp accepted
        obtain ⟨rfl, tree⟩ :=
          proves_of_prove (ctx.steady_authorize steps) (fun _ _ => proves_of_authorize) proven
        refine ⟨checked, ?_, valid, tree⟩
        rw [split]
        simp
    | rejected causes => cases settled
    | aborted f => cases settled

/-- What a search for an invocation can meet has a property: the invocation, what the resolver knows, and
all that is attached to these. -/
structure MeetsOnly (ctx : Context) (P : Delegation → Prop) (i : Invocation) : Prop where
  invoked : i.delegation.Hereditary P
  known : ∀ r, ctx.resolver = some r → ∀ d ∈ r.known, d.Hereditary P

/-- What is cited was attached to who cites it, or is known to the resolver. -/
theorem Cites.hereditary {citing proof : Delegation} (h : ctx.Cites cache citing proof)
    (meets : ctx.MeetsOnly P i) (reached : cache.Reached ctx.resolver) (hc : citing.Hereditary P) :
    proof.Hereditary P := by
  obtain ⟨p, mem, found⟩ := h
  obtain ⟨c, -, rfl⟩ := List.mem_map.mp mem
  split at found
  case h_1 q attached =>
    cases found
    exact hc.of_lookup attached
  case h_2 =>
    obtain ⟨r, same, fetched, -⟩ := reached.fetch_of_answer found
    exact meets.known r same proof (r.fetch_mem fetched)

theorem hereditary_of_mem_gather {claimed : List Source} {g : Gathered}
    (meets : ctx.MeetsOnly P i) (reached : cache.Reached ctx.resolver)
    (hc : ∀ t ∈ claimed, t.delegation.Hereditary P)
    (gathered : (ctx.gather claimed cache).1 = .ok g) {s : Source} (mem : s ∈ g.sources) :
    s.delegation.Hereditary P := by
  obtain ⟨t, ht, cites, -⟩ := cites_of_mem_gather gathered mem
  exact cites.hereditary meets reached (hc t ht)

/-- Why a node of an authorization may stand. -/
inductive Justified (ctx : Context) : Authorization → Prop where
  /-- The issuers may issue all of the match. -/
  | issued {m : Match} (pruned : m.prune ctx.mayIssue = none) : Justified ctx ⟨m, []⟩
  /-- What they may not is covered by a match among capabilities of proofs that are cited, by their
  address, by who claims it, and accepted on behalf of them. -/
  | delegated {m rest : Match} {sources : List Source} {p : Authorization}
      (pruned : m.prune ctx.mayIssue = some rest)
      (selected : p.matched ∈ (rest.select sources).found)
      (sources_mem : ∀ s ∈ p.matched.sources, s ∈ sources)
      (cited : ∀ s ∈ sources, ∃ t ∈ rest.sources,
        s.delegation.cid ∈ t.delegation.payload.proofs ∧ ctx.Accepts t.delegation s.delegation) :
      Justified ctx ⟨m, [p]⟩

/-- Every node of a proven tree is justified, given well-formed delegations. -/
theorem Proves.justified {a n : Authorization} (h : ctx.Proves cache a)
    (meets : ctx.MeetsOnly Delegation.WellFormed i) (reached : cache.Reached ctx.resolver)
    (hs : ∀ s ∈ a.matched.sources, s.delegation.Hereditary Delegation.WellFormed) (mem : n ∈ a.nodes) :
    ctx.Justified n := by
  induction h with
  | issued pruned =>
      obtain rfl : n = _ := by simpa using mem
      exact .issued pruned
  | @delegated m rest g p pruned gathered selected proven ih =>
      have hrest : ∀ t ∈ rest.sources, t.delegation.Hereditary Delegation.WellFormed :=
        fun t ht => hs t (Match.mem_sources_of_prune m pruned ht)
      have among : ∀ s ∈ p.matched.sources, s ∈ g.sources :=
        fun s hs => Match.mem_of_mem_sources rest selected hs
      rw [Authorization.nodes_step] at mem
      rcases List.mem_cons.mp mem with rfl | below
      · refine .delegated pruned selected among ?_
        intro s hs
        obtain ⟨t, ht, cites, accepts⟩ := cites_of_mem_gather gathered hs
        exact ⟨t, ht, cites.cid_mem (hrest t ht).self reached, accepts⟩
      · exact ih (fun s hs => hereditary_of_mem_gather meets reached hrest gathered (among s hs)) below

/-- A granted access: the invocation passed its checks, the authorization is of a capability that it
invokes, the validator agreed, and every step down to those who may issue it is justified. -/
theorem access_sound {a : Authorization} {later : ProofCache}
    (meets : ctx.MeetsOnly Delegation.WellFormed i) (reached : cache.Reached ctx.resolver)
    (h : ctx.access i cache = some (.ok a, later)) :
    (i.delegation.SignedUnder ctx.directory ∧
      (∀ authority, ctx.authority = some authority → i.delegation.audience = authority) ∧
      i.delegation.window.contains ctx.now = true) ∧
    a.matched ∈ (ctx.selector.select (Source.all i.delegation)).found ∧
    ctx.validate a = .ok () ∧
    ∀ n ∈ a.nodes, ctx.Justified n := by
  obtain ⟨checked, selected, valid, tree⟩ := proves_of_access h
  refine ⟨checkInvocation_eq_ok_iff.mp checked, selected, valid, ?_⟩
  intro n mem
  refine tree.justified meets reached ?_ mem
  intro s hs
  rw [Selector.delegation_eq_of_mem_sources selected hs]
  exact meets.invoked

end Context

/-! ## A chain of three delegations -/

namespace Sample

def alice : Did := .ofKeyBytes [1]

def bob : Did := .ofKeyBytes [2]

def carol : Did := .ofKeyBytes [3]

def service : Did := .ofKeyBytes [4]

/-- Signs a payload with itself. -/
def echo (d : Did) : Signer := ⟨d, some⟩

/-- Delegates one capability over what Alice owns. -/
def grant (issuer audience : Did) (ability : String) (caveats : Fields) (proofs : List Delegation) :
    Except Delegation.Error Delegation :=
  Draft.sign ⟨some audience, [⟨ability, alice.toText, caveats⟩], proofs.map .inline, none, none,
    [], none⟩ (echo issuer)

/-- What Alice lets Bob do, Bob lets Carol do, and Carol does, each with caveats of their own. -/
def chain (alices bobs carols : Fields) : Except Delegation.Error Invocation := do
  let root ← grant alice bob "store/*" alices []
  let middle ← grant bob carol "store/*" bobs [root]
  let claimed ← grant carol service "store/add" carols [middle]
  Invocation.ofDelegation claimed

/-- Everyone may issue what bears their name, and the echoed signatures are accepted. -/
def context (selector : Selector) : Context where
  selector := selector
  directory := fun d => .ok ⟨d, fun payload signature => payload == signature⟩
  authority := some service
  resolver := none
  mayIssue := Capability.isOwnedBy
  validate := fun _ => .ok ()
  now := 0

/-- Additions to a store, of limited size. -/
def limited : Selector :=
  .descriptor ⟨"store/add", Resource.readText, Schema.unknown.readFields, Rule.withinLimit "size"⟩

theorem exists_of_any {α ε : Type} {made : Except ε α} {P : α → Bool}
    (h : made.toOption.any P = true) : ∃ a, made = .ok a ∧ P a = true := by
  cases made with
  | error e => simp [Except.toOption] at h
  | ok a => exact ⟨a, rfl, by simpa [Except.toOption] using h⟩

/-- Whether an invocation is granted by an authorization that passes a test. -/
def grants (ctx : Context) (made : Except Delegation.Error Invocation)
    (test : Authorization → Bool) : Bool :=
  match made with
  | .ok i =>
    match ctx.access i .empty with
    | some (.ok a, _) => test a
    | _ => false
  | .error _ => false

theorem exists_of_grants {ctx : Context} {made : Except Delegation.Error Invocation}
    {test : Authorization → Bool} (h : grants ctx made test = true) :
    ∃ i a later, made = .ok i ∧ ctx.access i .empty = some (.ok a, later) ∧ test a = true := by
  unfold grants at h
  split at h
  case h_1 i =>
    split at h
    case h_1 a later granted => exact ⟨i, a, later, rfl, granted, h⟩
    case h_2 => cases h
  case h_2 => cases h

theorem wellFormed_grant {issuer audience : Did} {ability : String} {caveats : Fields}
    {proofs : List Delegation} {d : Delegation} (sorted : caveats.Sorted)
    (hp : ∀ p ∈ proofs, p.Hereditary Delegation.WellFormed)
    (h : grant issuer audience ability caveats proofs = .ok d) :
    d.Hereditary Delegation.WellFormed := by
  refine Draft.wellFormed_sign ?_ ?_ h
  · simpa using sorted
  · simpa using hp

theorem meetsOnly_chain (selector : Selector) {alices bobs carols : Fields} {i : Invocation}
    (ha : alices.Sorted) (hb : bobs.Sorted) (hc : carols.Sorted)
    (h : chain alices bobs carols = .ok i) :
    (context selector).MeetsOnly Delegation.WellFormed i where
  invoked := by
    obtain ⟨root, made, h⟩ := Context.bind_eq_ok_iff.mp h
    obtain ⟨middle, passed, h⟩ := Context.bind_eq_ok_iff.mp h
    obtain ⟨claimed, signed, h⟩ := Context.bind_eq_ok_iff.mp h
    have hroot := wellFormed_grant ha (by simp) made
    have hmiddle := wellFormed_grant hb (by simpa using hroot) passed
    have hclaimed := wellFormed_grant hc (by simpa using hmiddle) signed
    rw [Invocation.delegation_ofDelegation h]
    exact hclaimed
  known r none := by cases none

end Sample

/-- Bob sets no limit of his own, so Carol is held to what Alice said. -/
theorem Context.access_sound_chain :
    ∃ i a later,
      Sample.chain [("size", .integer 9)] [] [("size", .integer 5)] = .ok i ∧
      (Sample.context Sample.limited).access i .empty = some (.ok a, later) ∧
      a.nodes.length = 3 ∧ ∀ n ∈ a.nodes, (Sample.context Sample.limited).Justified n := by
  have grants : Sample.grants (Sample.context Sample.limited)
      (Sample.chain [("size", .integer 9)] [] [("size", .integer 5)])
      (fun a => decide (a.nodes.length = 3)) = true := by
    decide +kernel
  obtain ⟨i, a, later, made, granted, long⟩ := Sample.exists_of_grants grants
  have meets : (Sample.context Sample.limited).MeetsOnly Delegation.WellFormed i :=
    Sample.meetsOnly_chain _ (by simp [Table.Sorted]) (by simp [Table.Sorted])
      (by simp [Table.Sorted]) made
  exact ⟨i, a, later, made, granted, of_decide_eq_true long, (access_sound meets .empty granted).2.2.2⟩

end Mandate

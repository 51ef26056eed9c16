import Mandate.Proofs.Chain
import Mandate.Proofs.Denial

/-!
# Who is blamed for a missing proof

A claim for which nothing is found, and of which there is nothing else to say, is reported with the issuer of
its first member. That is an issuer of one of its capabilities, but not always the one whose member lacks a
proof: in a group it can be any member that is not backed, and it is the first one's issuer who is blamed. If
all members have one issuer, as where the selector pairs nothing, the blame is right.
-/

namespace Mandate

namespace Selection

/-- Nothing can be chosen from some lists only if one of them is empty. -/
theorem exists_nil_of_choices {α : Type} {lists : List (List α)} (h : choices lists = []) :
    [] ∈ lists := by
  induction lists with
  | nil => cases h
  | cons list lists ih =>
      cases list with
      | nil => exact List.mem_cons_self
      | cons a as =>
          rw [choices, List.flatMap_cons, List.append_eq_nil_iff, List.map_eq_nil_iff] at h
          exact List.mem_cons_of_mem _ (ih h.1)

end Selection

namespace Match

variable {given : List Source}

/-- Nothing proves a match exactly if one of its leaves is proven by nothing that it is shown. -/
theorem found_eq_nil_iff {m : Match} :
    (m.select given).found = [] ↔ ∃ v ∈ m.views given, (v.1.select v.2).found = [] := by
  have leaf_by_leaf := map_leaves_select m given
  constructor
  · intro none
    rw [none, List.map_nil, eq_comm, List.map_eq_nil_iff] at leaf_by_leaf
    obtain ⟨v, view, empty⟩ := List.mem_map.mp (Selection.exists_nil_of_choices leaf_by_leaf)
    exact ⟨v, view, empty⟩
  · rintro ⟨v, view, empty⟩
    have nothing : [] ∈ (m.views given).map fun v => (v.1.select v.2).found :=
      List.mem_map.mpr ⟨v, view, empty⟩
    rw [Selection.choices_eq_nil nothing, List.map_nil, List.map_eq_nil_iff] at leaf_by_leaf
    exact leaf_by_leaf

/-- None of some sources that are addressed to the issuer of a match proves it, alone or with others. -/
def Unbacked (given : List Source) (m : Match) : Prop :=
  ∀ shown, shown ⊆ given → (∀ s ∈ shown, s.delegation.audience = m.delegation.issuer) →
    (m.select shown).found = []

theorem unbacked_of_found {m : Match} (h : (m.select given).found = []) : m.Unbacked given := by
  intro shown among _
  rw [List.eq_nil_iff_forall_not_mem] at h ⊢
  exact fun n found => h n (m.found_mono among found)

theorem unbacked_iff {m : Match} : m.Unbacked given ↔ (m.select (m.addressed given)).found = [] := by
  constructor
  · intro h
    exact h _ (addressed_subset m given) fun s hs => (mem_addressed.mp hs).2
  · intro h shown among heard
    refine unbacked_of_found h shown (fun s hs => ?_) heard
    exact mem_addressed.mpr ⟨among hs, heard s hs⟩

/-- Each member of a match speaks for one issuer. What is no group has no other member than itself. -/
def Separate : Match → Prop
  | group m ms => Concordant m ms
  | _ => True

theorem separate_of_issuer {m : Match} {issuer : Did}
    (leaves : ∀ l ∈ m.leaves, l.delegation.issuer = issuer) : m.Separate := by
  cases m with
  | direct m => trivial
  | derived m origin rule => trivial
  | group m ms =>
      intro k hk l hl
      have below : ∀ l ∈ k.leaves, l.delegation.issuer = issuer := by
        intro l hl
        rw [leaves_group] at leaves
        exact leaves l (List.mem_flatMap.mpr ⟨k, hk, hl⟩)
      obtain ⟨first, mem, same⟩ := k.exists_first_leaf
      rw [below l hl, ← same, below first mem]

/-- If nothing proves a match whose members speak for one issuer each, then one of its leaves is not backed
by what is addressed to it. -/
theorem Separate.exists_unbacked {m : Match} (h : m.Separate) (none : (m.select given).found = []) :
    ∃ l ∈ m.leaves, l.Unbacked given := by
  cases m with
  | direct m => exact ⟨_, List.mem_singleton_self _, unbacked_of_found none⟩
  | derived m origin rule => exact ⟨_, List.mem_singleton_self _, unbacked_of_found none⟩
  | group m ms =>
      obtain ⟨v, view, empty⟩ := found_eq_nil_iff.mp none
      rw [Concordant.views h] at view
      obtain ⟨l, hl, rfl⟩ := List.mem_map.mp view
      exact ⟨l, hl, unbacked_iff.mpr empty⟩

theorem Lone.leaves_eq {m : Match} (h : m.Lone) : m.leaves = [m] := by
  cases m with
  | direct m => simp [leaves]
  | derived m origin rule => simp [leaves]
  | group m ms => exact h.elim

theorem capabilities_eq_flatMap_leaves (m : Match) : m.capabilities = m.leaves.flatMap capabilities := by
  induction m using induct with
  | direct m => simp [leaves]
  | derived m origin rule => simp [leaves]
  | group m ms ih =>
      rw [capabilities_group, leaves_group, List.flatMap_assoc]
      exact List.flatMap_congr ih

end Match

/-! ## Failures that blame somebody -/

open Failure

namespace Context

open Walk

variable {ctx : Context} {cache : ProofCache} {i : Invocation} {f : Failure}

/-- The claims that a search for an invocation may come to: what is left of a match of the invocation, and of
a match that is found for a claim. -/
inductive Claims (ctx : Context) (cache : ProofCache) (i : Invocation) : Match → Prop where
  | invoked {m rest : Match} (selected : m ∈ (ctx.selector.select (Source.all i.delegation)).found)
      (left : m.prune ctx.mayIssue = some rest) : Claims ctx cache i rest
  | proving {claim m rest : Match} {g : Gathered} (above : Claims ctx cache i claim)
      (gathered : (ctx.gather claim.sources cache).1 = .ok g)
      (selected : m ∈ (claim.select g.sources).found) (left : m.prune ctx.mayIssue = some rest) :
      Claims ctx cache i rest

/-- All claims are made of the selector; without pairs in it, none is a group. -/
theorem Claims.lone {m : Match} (h : ctx.Claims cache i m) (unpaired : ctx.selector.Unpaired) :
    ctx.selector.MadeOf m ∧ m.Lone := by
  induction h with
  | invoked selected left =>
      have made := Selector.madeOf_of_mem_found selected
      have lone := unpaired.found selected
      obtain rfl := lone.eq_of_prune left
      exact ⟨made, lone⟩
  | proving above gathered selected left ih =>
      have made := ih.1.select selected
      have lone := unpaired.select ih.1 ih.2 selected
      obtain rfl := lone.eq_of_prune left
      exact ⟨made, lone⟩

/-- A claim all proofs of which passed, and of whose capabilities none proves it or is worth a report. -/
structure Unanswered (ctx : Context) (cache : ProofCache) (claim : Match) (g : Gathered) : Prop where
  gathered : (ctx.gather claim.sources cache).1 = .ok g
  passed : g.failures = []
  found : (claim.select g.sources).found = []
  failures : (claim.select g.sources).failures = []

/-- Whoever is blamed in a failure for a claim is the issuer of an unanswered claim that the search came to. -/
def Blames (ctx : Context) (cache : ProofCache) (i : Invocation) (f : Failure) : Prop :=
  ∀ claim issuer, .unprovenCapability claim issuer ∈ f.walk →
    ∃ m g, ctx.Claims cache i m ∧ m.capabilities = claim ∧ m.delegation.issuer = issuer ∧
      ctx.Unanswered cache m g

theorem Blames.of_walk (alone : f.walk = [f]) (other : f.name ≠ "UnprovenCapability") :
    ctx.Blames cache i f := by
  intro claim issuer mem
  rw [alone, List.mem_singleton] at mem
  exact absurd (mem ▸ rfl) other

theorem Blames.of_isElementary (h : f.isElementary = true) : ctx.Blames cache i f := by
  refine .of_walk (walk_of_isElementary h) ?_
  cases f <;> first | (cases h; done) | simp [name]

theorem Blames.of_isFatal (h : f.isFatal = true) : ctx.Blames cache i f := by
  obtain ⟨did, cause, rfl⟩ := eq_of_isFatal h
  exact .of_walk rfl (by simp [name])

/-- A failure that collects others blames whom they blame. -/
theorem Blames.of_causes (other : f.name ≠ "UnprovenCapability")
    (below : ∀ c ∈ f.causes, ctx.Blames cache i c) : ctx.Blames cache i f := by
  intro claim issuer mem
  rw [walk_eq] at mem
  rcases List.mem_cons.mp mem with rfl | later
  · exact absurd rfl other
  · obtain ⟨c, hc, mem⟩ := mem_walkAll.mp later
    exact below c hc claim issuer mem

theorem Blames.cause {claim : List Capability} {causes : List Failure}
    (h : ctx.Blames cache i (.invalidClaim claim causes)) (mem : f ∈ causes) : ctx.Blames cache i f :=
  fun capabilities issuer unproven =>
    h capabilities issuer (List.mem_cons_of_mem _ (mem_walkAll.mpr ⟨f, mem, unproven⟩))

theorem blames_of_claimFailures {claim : Match} {g : Gathered} (reached : ctx.Claims cache i claim)
    (gathered : (ctx.gather claim.sources cache).1 = .ok g)
    (mem : f ∈ claimFailures claim g (claim.select g.sources)) : ctx.Blames cache i f := by
  rcases mem_claimFailures gathered mem with elementary | ⟨rfl, passed, found, failures⟩
  · exact .of_isElementary elementary
  · intro capabilities issuer mem
    obtain ⟨rfl, rfl⟩ : capabilities = claim.capabilities ∧ issuer = claim.delegation.issuer := by
      simpa [walk] using mem
    exact ⟨claim, g, reached, rfl, rfl, ⟨gathered, passed, found, failures⟩⟩

/-- How a match that is not proven turns out: rejected for what is left of it, or the search ends. -/
theorem blames_of_prove {authorize : Match → Walk (Except Failure Authorization)} {m : Match}
    (steady : ∀ m, Steady ctx.resolver (authorize m))
    (left : ∀ rest, m.prune ctx.mayIssue = some rest → ∀ e,
      (authorize rest).outcome cache = some (.error e) → ctx.Blames cache i e)
    {causes : List Failure} (h : (ctx.prove authorize m).outcome cache = some (.rejected causes)) :
    causes ≠ [] ∧ ∀ f ∈ causes, ctx.Blames cache i f := by
  cases pruned : m.prune ctx.mayIssue with
  | none =>
      rw [outcome_prove_issued pruned] at h
      cases h
  | some rest =>
      rw [outcome_prove_left steady pruned] at h
      obtain ⟨result, authorized, rejected⟩ := Option.map_eq_some_iff.mp h
      cases result with
      | ok p => cases rejected
      | error e =>
          simp only at rejected
          split at rejected
          · cases rejected
          · cases rejected
            refine ⟨List.cons_ne_nil _ _, fun f mem => ?_⟩
            rw [List.mem_singleton.mp mem]
            exact left rest pruned e authorized

/-- A claim that the search comes to, and that it does not authorize, blames whom claims below it blame. -/
theorem blames_of_authorize {steps : Nat} {claim : Match} (reached : ctx.Claims cache i claim)
    (h : (ctx.authorize steps claim).outcome cache = some (.error f)) : ctx.Blames cache i f := by
  induction steps generalizing claim f with
  | zero => cases h
  | succ steps ih =>
      have steady := steady_prove (ctx.steady_authorize steps)
      rw [outcome_authorize_succ] at h
      cases gathered : (ctx.gather claim.sources cache).1 with
      | error e =>
          rw [gathered] at h
          cases h
          rw [gather_fst] at gathered
          exact .of_isFatal (Gathered.isFatal_of_ofChecks gathered)
      | ok g =>
          rw [gathered] at h
          obtain ⟨trial, tried, concluded⟩ := Option.map_eq_some_iff.mp h
          cases trial with
          | accepted a => cases concluded
          | rejected causes =>
              cases concluded
              obtain ⟨below, -⟩ := Trial.causes_of_outcome_first (P := ctx.Blames cache i) steady
                (fun m selected _ rejected => blames_of_prove (ctx.steady_authorize steps)
                  (fun _ left _ failed => ih (.proving reached gathered selected left) failed) rejected)
                (fun _ => blames_of_claimFailures reached gathered) tried
              exact .of_causes (by simp [name]) below
          | aborted e =>
              cases concluded
              obtain ⟨m, -, fatal⟩ := Trial.tried_of_outcome_first steady
                (fun _ _ _ => failing_of_prove (ctx.steady_authorize steps)
                  fun _ _ => unproven_of_authorize) tried
              exact .of_isFatal fatal

/-- How a match of the invocation that is rejected turns out: the validator refused it, or the claim that is
left of it failed. -/
theorem blames_of_attempt {steps : Nat} {m : Match} {causes : List Failure}
    (selected : m ∈ (ctx.selector.select (Source.all i.delegation)).found)
    (h : (ctx.attempt steps i m).outcome cache = some (.rejected causes)) :
    causes ≠ [] ∧ ∀ f ∈ causes, ctx.Blames cache i f := by
  refine ⟨(refused_of_attempt h).1, ?_⟩
  rw [outcome_attempt] at h
  obtain ⟨trial, proven, settled⟩ := Option.map_eq_some_iff.mp h
  cases trial with
  | accepted a =>
      simp only [settle] at settled
      split at settled
      · cases settled
      · cases settled
        intro f mem
        obtain rfl := List.mem_singleton.mp mem
        exact .of_walk rfl (by simp [name])
  | rejected more =>
      obtain ⟨-, below⟩ := blames_of_prove (ctx.steady_authorize steps)
        (fun _ left _ failed => blames_of_authorize (.invoked selected left) failed) proven
      unfold settle at settled
      split at settled
      case h_1 a same => cases same
      case h_2 claim inner same =>
        cases same
        cases settled
        exact fun f mem => (below _ List.mem_cons_self).cause mem
      case h_3 =>
        cases settled
        exact below
  | aborted e => cases settled

/-- An invocation that does not pass its own checks blames nobody. -/
theorem blames_of_checkInvocation (h : ctx.checkInvocation i = .error f) : ctx.Blames cache i f := by
  rcases checkInvocation_eq_error h with signature | ⟨expected, -, audience⟩ | ⟨e, time, rfl⟩
  · rcases checkSignature_eq_error signature with ⟨cause, rfl⟩ | rfl
    · exact .of_isFatal rfl
    · exact .of_isElementary rfl
  · obtain ⟨rfl, -⟩ := checkAudience_eq_error audience
    exact .of_isElementary rfl
  · refine .of_causes (by simp [name]) fun c mem => ?_
    rw [List.mem_singleton.mp mem]
    exact .of_isElementary (isElementary_of_checkTime time)

/-- What a selector does not match blames nobody either. -/
theorem blames_of_selection (mem : f ∈ (ctx.selector.select (Source.all i.delegation)).failures) :
    ctx.Blames cache i f := by
  rcases Selection.mem_failures_iff.mp mem with error | ⟨c, -, rfl⟩
  · obtain ⟨s, -, cause, rfl⟩ := Selector.eq_of_mem_errors error
    exact .of_isElementary rfl
  · exact .of_isElementary rfl

/-- What an invocation is denied for blames only issuers of unanswered claims. -/
theorem blames_of_access {later : ProofCache} (h : ctx.access i cache = some (.error f, later)) :
    ctx.Blames cache i f := by
  have denied : (ctx.access i).outcome cache = some (.error f) := by
    rw [Walk.outcome, h]
    rfl
  obtain ⟨steps, within⟩ := exists_accessWithin denied
  cases checked : ctx.checkInvocation i with
  | error e =>
      rw [accessWithin, checked] at within
      cases within
      exact blames_of_checkInvocation checked
  | ok u =>
      rw [outcome_accessWithin checked] at within
      simp only at within
      split at within
      case h_1 e malformed =>
        cases within
        unfold malformed? at malformed
        split at malformed
        · exact blames_of_selection
            (Selection.mem_failures_iff.mpr (Or.inl (List.mem_of_find?_eq_some malformed)))
        · cases malformed
      case h_2 =>
        obtain ⟨trial, tried, settled⟩ := Option.map_eq_some_iff.mp within
        cases trial with
        | accepted a => cases settled
        | rejected causes =>
            cases settled
            obtain ⟨below, -⟩ := Trial.causes_of_outcome_first (P := ctx.Blames cache i)
              (ctx.steady_attempt steps i) (fun _ selected _ => blames_of_attempt selected)
              (fun _ => blames_of_selection) tried
            exact .of_causes (by simp [name]) below
        | aborted e =>
            cases settled
            obtain ⟨m, -, fatal⟩ := Trial.tried_of_outcome_first (ctx.steady_attempt steps i)
              (fun _ _ _ => refused_of_attempt) tried
            exact .of_isFatal fatal

end Context

/-! ## Whose proof is missing -/

namespace Sample

/-- The first claim that an invocation comes to. -/
def firstClaim (ctx : Context) (i : Invocation) : Option Match := do
  let m ← (ctx.selector.select (Source.all i.delegation)).found.head?
  m.prune ctx.mayIssue

/-- The first claim that another one comes to. -/
def nextClaim (ctx : Context) (claim : Match) : Option Match := do
  let g ← (ctx.gather claim.sources .empty).1.toOption
  let m ← (claim.select g.sources).found.head?
  m.prune ctx.mayIssue

theorem claims_firstClaim {ctx : Context} {i : Invocation} {m : Match} (h : firstClaim ctx i = some m) :
    ctx.Claims .empty i m := by
  obtain ⟨n, first, left⟩ := Option.bind_eq_some_iff.mp h
  exact .invoked (List.mem_of_mem_head? first) left

theorem claims_nextClaim {ctx : Context} {i : Invocation} {claim m : Match}
    (above : ctx.Claims .empty i claim) (h : nextClaim ctx claim = some m) : ctx.Claims .empty i m := by
  obtain ⟨g, gathered, h⟩ := Option.bind_eq_some_iff.mp h
  obtain ⟨n, first, left⟩ := Option.bind_eq_some_iff.mp h
  exact .proving above (Context.toOption_eq_some_iff.mp gathered) (List.mem_of_mem_head? first) left

/-- Alice lets Bob add, and he lets Carol. A service lets her upload, which nobody let the service do. Carol
wants to synchronize, which takes both. -/
def halfway : Except Delegation.Error Invocation := do
  let root ← grant alice bob "store/add" [] []
  let add ← grant bob carol "store/add" [] [root]
  let upload ← grant service carol "upload/add" [] []
  Invocation.ofDelegation (← grant carol service "account/sync" [] [add, upload])

/-- Bob lets Carol add, which nobody let him do. -/
def unfounded : Except Delegation.Error Invocation := do
  let add ← grant bob carol "store/add" [] []
  Invocation.ofDelegation (← grant carol service "store/add" [] [add])

/-- Whether a failure blames a principal for a claim that passes a test. -/
def isBlaming (principal : Did) (test : List Capability → Bool) : Failure → Bool
  | .unprovenCapability claim issuer => test claim && decide (issuer = principal)
  | _ => false

theorem exists_of_isBlaming {principal : Did} {test : List Capability → Bool} {f : Failure}
    (h : f.walk.any (isBlaming principal test) = true) :
    ∃ claim, .unprovenCapability claim principal ∈ f.walk ∧ test claim = true := by
  obtain ⟨n, mem, blaming⟩ := List.any_eq_true.mp h
  unfold isBlaming at blaming
  split at blaming
  case h_1 claim issuer =>
    obtain ⟨passes, same⟩ := Bool.and_eq_true_iff.mp blaming
    exact ⟨claim, of_decide_eq_true same ▸ mem, passes⟩
  case h_2 => cases blaming

/-- What Carol needs to synchronize. -/
def both : List Capability :=
  [⟨"store/add", alice.toText, []⟩, ⟨"upload/add", alice.toText, []⟩]

/-- Whether some capabilities are these two. -/
def isBoth : List Capability → Bool
  | [⟨a, r, []⟩, ⟨b, s, []⟩] =>
    decide (a = "store/add" ∧ r = alice.toText ∧ b = "upload/add" ∧ s = alice.toText)
  | _ => false

theorem eq_both {cs : List Capability} (h : isBoth cs = true) : cs = both := by
  unfold isBoth at h
  split at h
  case h_1 =>
    obtain ⟨rfl, rfl, rfl, rfl⟩ := of_decide_eq_true h
    rfl
  case h_2 => cases h

end Sample

namespace Context

variable {ctx : Context} {cache : ProofCache} {i : Invocation} {f : Failure}

/-- Whoever is blamed for a missing proof issued a member of a claim that the search came to, all proofs of
which passed and none of which proves it. If each member speaks for one issuer, then either a member of who
is blamed is not backed by what is addressed to them, or a member of somebody else is not. The blame is right
where nobody else has members, and so wherever the selector pairs nothing. -/
theorem blame_of_access {later : ProofCache} (h : ctx.access i cache = some (.error f, later))
    {claim : List Capability} {issuer : Did} (mem : .unprovenCapability claim issuer ∈ f.walk) :
    ∃ m g, ctx.Claims cache i m ∧ m.capabilities = claim ∧ ctx.Unanswered cache m g ∧
      (∃ l ∈ m.leaves, l.delegation.issuer = issuer ∧ l.capabilities ⊆ claim) ∧
      (m.Separate → (∃ l ∈ m.leaves, l.delegation.issuer = issuer ∧ l.Unbacked g.sources) ∨
        ∃ l ∈ m.leaves, l.delegation.issuer ≠ issuer ∧ l.Unbacked g.sources) ∧
      (ctx.selector.Unpaired ∨ (∀ l ∈ m.leaves, l.delegation.issuer = issuer) →
        ∃ l ∈ m.leaves, l.delegation.issuer = issuer ∧ l.Unbacked g.sources) := by
  obtain ⟨m, g, reached, rfl, rfl, unanswered⟩ := blames_of_access h claim issuer mem
  obtain ⟨first, hf, same⟩ := m.exists_first_leaf
  refine ⟨m, g, reached, rfl, unanswered, ⟨first, hf, by rw [same], ?_⟩, fun separate => ?_, ?_⟩
  · rw [m.capabilities_eq_flatMap_leaves]
    exact fun c hc => List.mem_flatMap.mpr ⟨first, hf, hc⟩
  · obtain ⟨l, hl, unbacked⟩ := separate.exists_unbacked unanswered.found
    by_cases own : l.delegation.issuer = m.delegation.issuer
    · exact Or.inl ⟨l, hl, own, unbacked⟩
    · exact Or.inr ⟨l, hl, own, unbacked⟩
  · intro single
    have own : ∀ l ∈ m.leaves, l.delegation.issuer = m.delegation.issuer := by
      rcases single with unpaired | own
      · intro l hl
        rw [(reached.lone unpaired).2.leaves_eq, List.mem_singleton] at hl
        rw [hl]
      · exact own
    obtain ⟨l, hl, unbacked⟩ := (Match.separate_of_issuer own).exists_unbacked unanswered.found
    exact ⟨l, hl, own l hl, unbacked⟩

/-- Bob passes on what nobody gave him, and he is the one to blame. -/
theorem blame_of_access_unfounded :
    ∃ i f later claim m g l, Sample.unfounded = .ok i ∧
      (Sample.context Sample.limited).access i .empty = some (.error f, later) ∧
      .unprovenCapability claim Sample.bob ∈ f.walk ∧
      (Sample.context Sample.limited).Claims .empty i m ∧ m.capabilities = claim ∧
      ((Sample.context Sample.limited).gather m.sources .empty).1 = .ok g ∧
      l ∈ m.leaves ∧ l.delegation.issuer = Sample.bob ∧ l.Unbacked g.sources := by
  have denies : Sample.denies (Sample.context Sample.limited) Sample.unfounded (fun f =>
      f.walk.any (Sample.isBlaming Sample.bob fun _ => true)) = true := by
    decide +kernel
  obtain ⟨i, f, later, made, denied, seen⟩ := Sample.exists_of_denies denies
  obtain ⟨claim, blamed, -⟩ := Sample.exists_of_isBlaming seen
  have unpaired : (Sample.context Sample.limited).selector.Unpaired := by
    intro l r pair
    cases pair
  obtain ⟨m, g, reached, capabilities, unanswered, -, -, right⟩ := blame_of_access denied blamed
  obtain ⟨l, hl, own, unbacked⟩ := right (Or.inl unpaired)
  exact ⟨i, f, later, claim, m, g, l, made, denied, blamed, reached, capabilities,
    unanswered.gathered, hl, own, unbacked⟩

/-- Bob is blamed, although all that he issued of the claim is proven by what he was let do, which passed. -/
theorem blamed_although_backed :
    ∃ i f later m g, Sample.halfway = .ok i ∧
      (Sample.context Sample.syncing).access i .empty = some (.error f, later) ∧
      .unprovenCapability Sample.both Sample.bob ∈ f.walk ∧
      (Sample.context Sample.syncing).Claims .empty i m ∧ m.capabilities = Sample.both ∧
      ((Sample.context Sample.syncing).gather m.sources .empty).1 = .ok g ∧
      (∃ l ∈ m.leaves, l.delegation.issuer = Sample.bob) ∧
      ∀ l ∈ m.leaves, l.delegation.issuer = Sample.bob →
        ∃ s ∈ g.sources, s.delegation.audience = Sample.bob ∧ (l.select [s]).found.isEmpty = false := by
  have denies : Sample.denies (Sample.context Sample.syncing) Sample.halfway (fun f =>
      f.walk.any (Sample.isBlaming Sample.bob Sample.isBoth)) = true := by
    decide +kernel
  have holds : Sample.halfway.toOption.any (fun i =>
      (Sample.firstClaim (Sample.context Sample.syncing) i).any fun top =>
        (Sample.nextClaim (Sample.context Sample.syncing) top).any fun m =>
          Sample.isBoth m.capabilities &&
          ((Sample.context Sample.syncing).gather m.sources .empty).1.toOption.any fun g =>
            decide ((∃ l ∈ m.leaves, l.delegation.issuer = Sample.bob) ∧
              ∀ l ∈ m.leaves, l.delegation.issuer = Sample.bob → ∃ s ∈ g.sources,
                s.delegation.audience = Sample.bob ∧ (l.select [s]).found.isEmpty = false)) = true := by
    decide +kernel
  obtain ⟨i, f, later, made, denied, seen⟩ := Sample.exists_of_denies denies
  obtain ⟨claim, blamed, whole⟩ := Sample.exists_of_isBlaming seen
  obtain rfl := Sample.eq_both whole
  obtain ⟨_, same, holds⟩ := Sample.exists_of_any holds
  obtain rfl := Except.ok.inj (made.symm.trans same)
  obtain ⟨top, first, holds⟩ := (Option.any_eq_true _ _).mp holds
  obtain ⟨m, next, holds⟩ := (Option.any_eq_true _ _).mp holds
  obtain ⟨capabilities, holds⟩ := Bool.and_eq_true_iff.mp holds
  obtain ⟨g, gathered, backed⟩ := Sample.exists_of_any holds
  have reached := Sample.claims_nextClaim (Sample.claims_firstClaim first) next
  exact ⟨i, f, later, m, g, made, denied, blamed, reached, Sample.eq_both capabilities, gathered,
    of_decide_eq_true backed⟩

end Context

end Mandate

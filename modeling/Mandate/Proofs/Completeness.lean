import Mandate.Proofs.Acyclic
import Mandate.Proofs.Soundness

/-!
# The search misses no proof

What can be proven is described without the order in which the search goes: a match is provable when its
issuers may issue it, or when what is left of it has a provable match among the sources gathered for it.
The search finds the first tree of this kind, depth first, and says no only where there is none. So no
proof that fails, for whatever reason, keeps the search from one that does not.
-/

namespace Mandate

namespace Context

variable {ctx : Context} {cache : ProofCache} {i : Invocation}

/-- A match with some proof, wherever it stands among the candidates. -/
inductive Provable (ctx : Context) (cache : ProofCache) : Match → Prop where
  | issued {m : Match} (pruned : m.prune ctx.mayIssue = none) : Provable ctx cache m
  | delegated {m rest n : Match} {g : Gathered} (pruned : m.prune ctx.mayIssue = some rest)
      (gathered : (ctx.gather rest.sources cache).1 = .ok g)
      (selected : n ∈ (rest.select g.sources).found) (proven : Provable ctx cache n) :
      Provable ctx cache m

/-- The first proof of a match: of the candidates at every step, the first one that is provable. -/
inductive FirstProof (ctx : Context) (cache : ProofCache) : Match → Authorization → Prop where
  | issued {m : Match} (pruned : m.prune ctx.mayIssue = none) : FirstProof ctx cache m ⟨m, []⟩
  | delegated {m rest n : Match} {g : Gathered} {before after : List Match} {p : Authorization}
      (pruned : m.prune ctx.mayIssue = some rest)
      (gathered : (ctx.gather rest.sources cache).1 = .ok g)
      (selected : (rest.select g.sources).found = before ++ n :: after)
      (unprovable : ∀ k ∈ before, ¬ Provable ctx cache k)
      (proven : FirstProof ctx cache n p) : FirstProof ctx cache m ⟨m, [p]⟩

/-- A match with a proof from a choice of the proofs that were accepted, whatever else is cited. -/
inductive Path (ctx : Context) (cache : ProofCache) : Match → Prop where
  | issued {m : Match} (pruned : m.prune ctx.mayIssue = none) : Path ctx cache m
  | delegated {m rest n : Match} {chosen : List Source} (pruned : m.prune ctx.mayIssue = some rest)
      (accepted : ∀ s ∈ chosen, ∃ c ∈ Citation.ofSources rest.sources,
        ctx.cited cache c.proof = .ok s.delegation ∧ ctx.Accepts c.citing s.delegation)
      (selected : n ∈ (rest.select chosen).found) (path : Path ctx cache n) : Path ctx cache m

/-- Whatever is cited from a delegation on, the keys of its issuers are known. -/
def Resolvable (ctx : Context) (cache : ProofCache) (d : Delegation) : Prop :=
  ∀ e, Relation.ReflTransGen (ctx.Cites cache) d e → ∃ v, ctx.directory e.issuer = .ok v

theorem Resolvable.congr {others : ProofCache} {d : Delegation} (h : ctx.Resolvable cache d)
    (same : ProofCache.Agree ctx.resolver others cache) : ctx.Resolvable others d := by
  rw [Resolvable, cites_congr same]
  exact h

theorem Resolvable.cites {d e : Delegation} (h : ctx.Resolvable cache d) (cites : ctx.Cites cache d e) :
    ctx.Resolvable cache e :=
  fun _ path => h _ (.head cites path)

theorem Resolvable.gather {claimed : List Source}
    (h : ∀ s ∈ claimed, ctx.Resolvable cache s.delegation) :
    ∃ g, (ctx.gather claimed cache).1 = .ok g :=
  exists_gather fun s hs p cites => h s hs p (.single cites)

/-- What proves a claim is as resolvable as the claim. -/
theorem Resolvable.selected {claim m : Match} {g : Gathered}
    (h : ∀ s ∈ claim.sources, ctx.Resolvable cache s.delegation)
    (gathered : (ctx.gather claim.sources cache).1 = .ok g)
    (selected : m ∈ (claim.select g.sources).found) :
    ∀ s ∈ m.sources, ctx.Resolvable cache s.delegation := by
  intro s mem
  obtain ⟨t, ht, cites, -⟩ := cites_of_selected gathered selected mem
  exact (h t ht).cites cites

theorem Resolvable.invoked {selector : Selector} {m : Match} {d : Delegation}
    (h : ctx.Resolvable cache d) (selected : m ∈ (selector.select (Source.all d)).found) :
    ∀ s ∈ m.sources, ctx.Resolvable cache s.delegation := by
  intro s mem
  rw [Selector.delegation_eq_of_mem_sources selected mem]
  exact h

/-- What is left of a match is as resolvable as the match. -/
theorem Resolvable.left {m rest : Match} (h : ∀ s ∈ m.sources, ctx.Resolvable cache s.delegation)
    (pruned : m.prune ctx.mayIssue = some rest) :
    ∀ s ∈ rest.sources, ctx.Resolvable cache s.delegation :=
  fun s mem => h s (Match.mem_sources_of_prune m pruned mem)

theorem FirstProof.provable {m : Match} {a : Authorization} (h : ctx.FirstProof cache m a) :
    ctx.Provable cache m := by
  induction h with
  | issued pruned => exact .issued pruned
  | delegated pruned gathered selected _ _ ih =>
      exact .delegated pruned gathered (by rw [selected]; simp) ih

/-- Of two ways to split a list at its first element of a kind, there is one. -/
theorem split_unique {α : Type} (p : α → Prop) {l b b' c c' : List α} {m m' : α}
    (h : l = b ++ m :: c) (h' : l = b' ++ m' :: c') (hm : p m) (hm' : p m')
    (hb : ∀ k ∈ b, ¬ p k) (hb' : ∀ k ∈ b', ¬ p k) : b = b' ∧ m = m' := by
  subst h
  induction b generalizing b' with
  | nil =>
      cases b' with
      | nil =>
          cases h'
          exact ⟨rfl, rfl⟩
      | cons k b' =>
          cases h'
          exact absurd hm (hb' m List.mem_cons_self)
  | cons k b ih =>
      cases b' with
      | nil =>
          cases h'
          exact absurd hm' (hb m' List.mem_cons_self)
      | cons k' b' =>
          rw [List.cons_append, List.cons_append] at h'
          injection h' with same rest
          obtain ⟨rfl, rfl⟩ := ih (fun x hx => hb x (List.mem_cons_of_mem _ hx))
            (fun x hx => hb' x (List.mem_cons_of_mem _ hx)) rest
          exact ⟨by rw [same], rfl⟩

/-- There is at most one first proof. -/
theorem FirstProof.unique {m : Match} {a b : Authorization} (ha : ctx.FirstProof cache m a)
    (hb : ctx.FirstProof cache m b) : a = b := by
  induction ha generalizing b with
  | issued pruned =>
      cases hb with
      | issued _ => rfl
      | delegated pruned' => simp [pruned] at pruned'
  | delegated pruned gathered selected unprovable proven ih =>
      cases hb with
      | issued pruned' => simp [pruned] at pruned'
      | delegated pruned' gathered' selected' unprovable' proven' =>
          obtain rfl := Option.some.inj (pruned.symm.trans pruned')
          obtain rfl := Except.ok.inj (gathered.symm.trans gathered')
          obtain ⟨-, rfl⟩ := split_unique (ctx.Provable cache) selected selected'
            proven.provable proven'.provable unprovable unprovable'
          rw [ih proven']

/-- What a trial says about a match that all issuers are known for. -/
def Decides (ctx : Context) (cache : ProofCache) (m : Match) : Trial → Prop
  | .accepted a => ctx.FirstProof cache m a
  | .rejected _ => ¬ ctx.Provable cache m
  | .aborted _ => False

/-- What an authorized claim says about the matches that may prove it. -/
def Settles (ctx : Context) (cache : ProofCache) (candidates : List Match) :
    Except Failure Authorization → Prop
  | .ok a => ∃ before m after, candidates = before ++ m :: after ∧
      (∀ k ∈ before, ¬ ctx.Provable cache k) ∧ ctx.FirstProof cache m a
  | .error f => f.isFatal = false ∧ ∀ m ∈ candidates, ¬ ctx.Provable cache m

/-- One step of the search decides a match if claims are settled by the steps below. -/
theorem decides_of_prove {authorize : Match → Walk (Except Failure Authorization)}
    (steady : ∀ m, Walk.Steady ctx.resolver (authorize m)) {m : Match}
    (complete : ∀ rest result, m.prune ctx.mayIssue = some rest →
      (authorize rest).outcome cache = some result →
      ∃ g, (ctx.gather rest.sources cache).1 = .ok g ∧
        ctx.Settles cache (rest.select g.sources).found result)
    {trial : Trial} (h : (ctx.prove authorize m).outcome cache = some trial) :
    ctx.Decides cache m trial := by
  cases pruned : m.prune ctx.mayIssue with
  | none =>
      rw [outcome_prove_issued pruned] at h
      cases h
      exact .issued pruned
  | some rest =>
      rw [outcome_prove_left steady pruned] at h
      obtain ⟨result, authorized, rfl⟩ := Option.map_eq_some_iff.mp h
      obtain ⟨g, gathered, settled⟩ := complete rest result pruned authorized
      cases result with
      | ok p =>
          obtain ⟨before, n, after, split, unprovable, proven⟩ := settled
          exact .delegated pruned gathered split unprovable proven
      | error f =>
          obtain ⟨harmless, unprovable⟩ := settled
          simp only [harmless]
          rintro (⟨none⟩ | ⟨pruned', gathered', selected, proven⟩)
          · rw [pruned] at none
            cases none
          · obtain rfl := Option.some.inj (pruned.symm.trans pruned')
            obtain rfl := Except.ok.inj (gathered.symm.trans gathered')
            exact unprovable _ selected proven

/-- All steps of the search: a claim is settled, whichever the number of steps that sufficed. -/
theorem settles_of_authorize {steps : Nat} {claim : Match} {result : Except Failure Authorization}
    (hs : ∀ s ∈ claim.sources, ctx.Resolvable cache s.delegation)
    (h : (ctx.authorize steps claim).outcome cache = some result) :
    ∃ g, (ctx.gather claim.sources cache).1 = .ok g ∧
      ctx.Settles cache (claim.select g.sources).found result := by
  -- The claim changes with every step, and so does what is gathered for it.
  induction steps generalizing claim result with
  | zero => cases h
  | succ steps ih =>
      obtain ⟨g, gathered⟩ := Resolvable.gather hs
      rw [outcome_authorize_succ, gathered] at h
      obtain ⟨trial, tried, rfl⟩ := Option.map_eq_some_iff.mp h
      have steady := steady_prove (ctx.steady_authorize steps)
      have decides : ∀ m ∈ (claim.select g.sources).found, ∀ trial,
          (ctx.prove (ctx.authorize steps) m).outcome cache = some trial →
            ctx.Decides cache m trial := by
        intro m selected trial proven
        have resolves := Resolvable.selected hs gathered selected
        exact decides_of_prove (ctx.steady_authorize steps)
          (fun rest result pruned => ih (Resolvable.left resolves pruned)) proven
      refine ⟨g, gathered, ?_⟩
      have turned := Trial.tried_of_outcome_first steady decides tried
      cases trial with
      | accepted a =>
          obtain ⟨before, m, after, split, proven, rejected⟩ := turned
          refine ⟨before, m, after, split, ?_, proven⟩
          intro k hk
          obtain ⟨_, unprovable⟩ := rejected k hk
          exact unprovable
      | rejected causes =>
          refine ⟨rfl, ?_⟩
          intro m selected
          obtain ⟨_, unprovable⟩ := turned m selected
          exact unprovable
      | aborted f =>
          obtain ⟨_, -, never⟩ := turned
          exact never.elim

/-- The first proof of a match, with which the validator agrees. -/
structure Granted (ctx : Context) (cache : ProofCache) (m : Match) (a : Authorization) : Prop where
  first : ctx.FirstProof cache m a
  valid : ctx.validate a = .ok ()

theorem Granted.unique {m : Match} {a b : Authorization} (ha : ctx.Granted cache m a)
    (hb : ctx.Granted cache m b) : a = b :=
  ha.first.unique hb.first

/-- What an attempt says about a match, the validator included. -/
def Grants (ctx : Context) (cache : ProofCache) (m : Match) : Trial → Prop
  | .accepted a => ctx.Granted cache m a
  | .rejected _ => ∀ a, ¬ ctx.Granted cache m a
  | .aborted _ => False

section Access

variable (resolvable : ctx.Resolvable cache i.delegation) {m : Match}
  (selected : m ∈ (ctx.selector.select (Source.all i.delegation)).found)

include resolvable selected

theorem decides_of_selected {steps : Nat} {trial : Trial}
    (h : (ctx.prove (ctx.authorize steps) m).outcome cache = some trial) :
    ctx.Decides cache m trial := by
  refine decides_of_prove (ctx.steady_authorize steps) ?_ h
  intro rest result pruned authorized
  exact settles_of_authorize (Resolvable.left (resolvable.invoked selected) pruned) authorized

/-- What the attempt at a match says about it. -/
theorem grants_of_attempt {steps : Nat} {trial : Trial}
    (h : (ctx.attempt steps i m).outcome cache = some trial) : ctx.Grants cache m trial := by
  rw [outcome_attempt] at h
  obtain ⟨proven, searched, rfl⟩ := Option.map_eq_some_iff.mp h
  have decided := decides_of_selected resolvable selected searched
  cases proven with
  | accepted a =>
      cases valid : ctx.validate a with
      | ok _ =>
          rw [settle_eq_accepted_iff.mpr ⟨rfl, valid⟩]
          exact ⟨decided, valid⟩
      | error problem =>
          simp only [settle, valid]
          intro b granted
          rw [← granted.first.unique decided, granted.valid] at valid
          cases valid
  | rejected causes =>
      have none : ∀ a, ¬ ctx.Granted cache m a := fun a granted => decided granted.first.provable
      unfold settle
      split
      case h_1 same => cases same
      · exact none
      · exact none
  | aborted f => exact decided.elim

/-- A provable match has its first proof, where the search comes to an end. -/
theorem exists_firstProof (acyclic : ctx.Acyclic cache i.delegation)
    (provable : ctx.Provable cache m) : ∃ a, ctx.FirstProof cache m a := by
  obtain ⟨trial, proven⟩ := exists_outcome_prove_selected (within_reach acyclic) selected
  have decided := decides_of_selected resolvable selected proven
  cases trial with
  | accepted a => exact ⟨a, decided⟩
  | rejected causes => exact (decided provable).elim
  | aborted f => exact decided.elim

end Access

/-- What the result of an access says about the matches that the invocation is selected as. -/
def Answers (ctx : Context) (cache : ProofCache) (candidates : List Match) :
    Except Failure Authorization → Prop
  | .ok a => ∃ before m after, candidates = before ++ m :: after ∧ ctx.Granted cache m a ∧
      ∀ k ∈ before, ∀ b, ¬ ctx.Granted cache k b
  | .error _ => ∀ m ∈ candidates, ∀ a, ¬ ctx.Granted cache m a

/-- The granted authorization is the first one there is. -/
theorem Answers.eq_ok_iff {candidates : List Match} {result : Except Failure Authorization}
    (h : ctx.Answers cache candidates result) (a : Authorization) :
    result = .ok a ↔ ∃ before m after, candidates = before ++ m :: after ∧ ctx.Granted cache m a ∧
      ∀ k ∈ before, ∀ b, ¬ ctx.Granted cache k b := by
  constructor
  · rintro rfl
    exact h
  · rintro ⟨before, m, after, split, granted, refused⟩
    cases result with
    | error f => exact (h m (by rw [split]; simp) a granted).elim
    | ok b =>
        obtain ⟨before', m', after', split', granted', refused'⟩ := h
        obtain ⟨-, rfl⟩ := split_unique (fun m => ∃ c, ctx.Granted cache m c) split split'
          ⟨a, granted⟩ ⟨b, granted'⟩
          (fun k hk ⟨c, hc⟩ => refused k hk c hc) (fun k hk ⟨c, hc⟩ => refused' k hk c hc)
        rw [granted.unique granted']

/-- Something is granted exactly if one of the matches is. -/
theorem Answers.exists_ok_iff {candidates : List Match} {result : Except Failure Authorization}
    (h : ctx.Answers cache candidates result) :
    (∃ a, result = .ok a) ↔ ∃ m ∈ candidates, ∃ a, ctx.Granted cache m a := by
  constructor
  · rintro ⟨a, rfl⟩
    obtain ⟨before, m, after, split, granted, -⟩ := h
    exact ⟨m, by rw [split]; simp, a, granted⟩
  · rintro ⟨m, selected, a, granted⟩
    cases result with
    | ok b => exact ⟨b, rfl⟩
    | error f => exact (h m selected a granted).elim

theorem answers_of_access {result : Except Failure Authorization}
    (checked : ctx.checkInvocation i = .ok ()) (resolvable : ctx.Resolvable cache i.delegation)
    (h : (ctx.access i).outcome cache = some result) :
    ctx.Answers cache (ctx.selector.select (Source.all i.delegation)).found result := by
  obtain ⟨steps, within⟩ := exists_accessWithin h
  rw [outcome_accessWithin checked] at within
  simp only at within
  split at within
  case h_1 f malformed =>
    cases within
    rw [found_eq_nil_of_malformed? malformed]
    exact fun m mem => by cases mem
  case h_2 =>
    obtain ⟨trial, tried, rfl⟩ := Option.map_eq_some_iff.mp within
    have turned := Trial.tried_of_outcome_first (ctx.steady_attempt steps i)
      (fun m selected _ => grants_of_attempt resolvable selected) tried
    cases trial with
    | accepted a =>
        obtain ⟨before, m, after, split, granted, rejected⟩ := turned
        refine ⟨before, m, after, split, granted, ?_⟩
        intro k hk
        obtain ⟨_, refused⟩ := rejected k hk
        exact refused
    | rejected causes =>
        intro m selected
        obtain ⟨_, refused⟩ := turned m selected
        exact refused
    | aborted f =>
        obtain ⟨_, -, never⟩ := turned
        exact never.elim

/-- What is proven by a choice of the accepted proofs is proven by all of them. -/
theorem Path.provable {m : Match} (h : ctx.Path cache m)
    (hs : ∀ s ∈ m.sources, ctx.Resolvable cache s.delegation) : ctx.Provable cache m := by
  induction h with
  | issued pruned => exact .issued pruned
  | @delegated m rest n chosen pruned accepted selected path ih =>
      have left := Resolvable.left hs pruned
      obtain ⟨g, gathered⟩ := Resolvable.gather left
      have among : chosen ⊆ g.sources :=
        fun s mem => (mem_gather_iff gathered s).mpr (accepted s mem)
      have found := Match.found_mono rest among selected
      exact .delegated pruned gathered found (ih (Resolvable.selected left gathered found))

theorem Provable.path {m : Match} (h : ctx.Provable cache m) : ctx.Path cache m := by
  induction h with
  | issued pruned => exact .issued pruned
  | delegated pruned gathered selected proven ih =>
      exact .delegated pruned (fun s mem => (mem_gather_iff gathered s).mp mem) selected ih

/-- An access has an outcome. It is granted exactly if a selected match is provable and the validator
agrees with its first proof, then with that of the first such match; and a provable match is one with a
path of accepted proofs, whatever else is cited along it. -/
theorem access_complete (checked : ctx.checkInvocation i = .ok ())
    (resolvable : ctx.Resolvable cache i.delegation) (acyclic : ctx.Acyclic cache i.delegation) :
    ∃ result later, ctx.access i cache = some (result, later) ∧
      ((∃ a, result = .ok a) ↔
        ∃ m ∈ (ctx.selector.select (Source.all i.delegation)).found,
          ctx.Provable cache m ∧ ∃ a, ctx.FirstProof cache m a ∧ ctx.validate a = .ok ()) ∧
      (∀ a, result = .ok a ↔ ∃ before m after,
        (ctx.selector.select (Source.all i.delegation)).found = before ++ m :: after ∧
        ctx.Granted cache m a ∧ ∀ k ∈ before, ∀ b, ¬ ctx.Granted cache k b) ∧
      (∀ m ∈ (ctx.selector.select (Source.all i.delegation)).found,
        (ctx.Provable cache m ↔ ∃! a, ctx.FirstProof cache m a) ∧
        (ctx.Provable cache m ↔ ctx.Path cache m)) := by
  obtain ⟨_, outcome⟩ := exists_access acyclic
  obtain ⟨⟨result, later⟩, accessed, rfl⟩ := Option.map_eq_some_iff.mp outcome
  have said := answers_of_access checked resolvable outcome
  refine ⟨result, later, accessed, ?_, said.eq_ok_iff, ?_⟩
  · rw [said.exists_ok_iff]
    refine exists_congr fun m => and_congr_right fun _ => ?_
    constructor
    · rintro ⟨a, first, valid⟩
      exact ⟨first.provable, a, first, valid⟩
    · rintro ⟨-, a, first, valid⟩
      exact ⟨a, first, valid⟩
  · intro m selected
    have resolves := resolvable.invoked selected
    refine ⟨⟨?_, ?_⟩, Provable.path, fun path => path.provable resolves⟩
    · intro provable
      obtain ⟨a, first⟩ := exists_firstProof resolvable selected acyclic provable
      exact ⟨a, first, fun b other => other.unique first⟩
    · rintro ⟨a, first, -⟩
      exact first.provable

/-- Carol may add to the store by a proof that is found. -/
theorem access_complete_chain :
    ∃ i m a, Sample.chain [("size", .integer 9)] [] [("size", .integer 5)] = .ok i ∧
      m ∈ (Sample.limited.select (Source.all i.delegation)).found ∧
      (Sample.context Sample.limited).Path .empty m ∧
      (Sample.context Sample.limited).FirstProof .empty m a ∧ a.nodes.length = 3 := by
  have grants : Sample.grants (Sample.context Sample.limited)
      (Sample.chain [("size", .integer 9)] [] [("size", .integer 5)])
      (fun a => decide (a.nodes.length = 3)) = true := by
    decide +kernel
  obtain ⟨i, a, later, made, granted, long⟩ := Sample.exists_of_grants grants
  have checked := (proves_of_access granted).1
  have resolvable : (Sample.context Sample.limited).Resolvable .empty i.delegation :=
    fun e _ => ⟨_, rfl⟩
  obtain ⟨result, _, accessed, -, first, provable⟩ :=
    access_complete checked resolvable (acyclic_of_unlinked rfl rfl _)
  rw [granted] at accessed
  cases accessed
  obtain ⟨before, m, after, split, proof, -⟩ := (first a).mp rfl
  have selected : m ∈ (Sample.limited.select (Source.all i.delegation)).found := by
    have found : (Sample.limited.select (Source.all i.delegation)).found = before ++ m :: after :=
      split
    rw [found]
    simp
  exact ⟨i, m, a, made, selected, (provable m selected).2.mp proof.first.provable, proof.first,
    of_decide_eq_true long⟩

end Context

end Mandate

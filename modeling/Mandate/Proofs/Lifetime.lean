import Mandate.Proofs.Valid

/-!
# How long an authorization lasts

An authorization stands on the delegations of all sources in its tree, and time matters to a search only in
that it accepts delegations within their windows. So what was granted once is granted at all times that the
windows of these delegations share: other proofs may be accepted or refused then, but those that the
authorization was built from are accepted, and each match in it is selected from these alone.
-/

namespace Mandate

namespace Authorization

/-- The delegations that an authorization stands on, those of all sources in its tree. -/
def delegations (a : Authorization) : List Delegation :=
  a.nodes.flatMap fun n => n.matched.sources.map (·.delegation)

/-- The intersection of their windows. -/
def window (a : Authorization) : Window := .intersectAll (a.delegations.map (·.window))

variable {a : Authorization} {m : Match} {t : Timestamp}

theorem contains_window_iff :
    a.window.contains t = true ↔
      ∀ n ∈ a.nodes, ∀ s ∈ n.matched.sources, s.delegation.window.contains t = true := by
  simp only [window, Window.contains_intersectAll_iff, delegations, List.forall_mem_map,
    List.forall_mem_flatMap]

theorem contains_window_leaf_iff :
    (window ⟨m, []⟩).contains t = true ↔ ∀ s ∈ m.sources, s.delegation.window.contains t = true := by
  simp only [contains_window_iff, nodes_leaf, List.forall_mem_singleton]

theorem contains_window_step_iff :
    (window ⟨m, [a]⟩).contains t = true ↔
      (∀ s ∈ m.sources, s.delegation.window.contains t = true) ∧ a.window.contains t = true := by
  simp only [contains_window_iff, nodes_step, List.forall_mem_cons]

theorem contains_of_window (h : a.window.contains t = true) :
    ∀ s ∈ a.matched.sources, s.delegation.window.contains t = true :=
  contains_window_iff.mp h a a.self_mem_nodes

end Authorization

namespace Context

variable {ctx : Context} {cache others : ProofCache} {i : Invocation} {a : Authorization} {t : Timestamp}

/-- The same context at another time. -/
def atTime (ctx : Context) (t : Timestamp) : Context := { ctx with now := t }

/-- A proven tree stands on delegations that are valid now, if the match at its root does. -/
theorem Proves.contains_now (h : ctx.Proves cache a)
    (valid : ∀ s ∈ a.matched.sources, s.delegation.window.contains ctx.now = true) :
    a.window.contains ctx.now = true := by
  induction h with
  | issued _ => exact Authorization.contains_window_leaf_iff.mpr valid
  | @delegated m rest g p _ gathered selected _ ih =>
      refine Authorization.contains_window_step_iff.mpr ⟨valid, ih fun s mem => ?_⟩
      obtain ⟨_, _, -, accepted⟩ := cites_of_selected gathered selected mem
      exact accepted.contains_now

/-- At a time in its window, the proofs in a tree are accepted, and they lead from its match to who may
issue it. -/
theorem Proves.path (h : ctx.Proves cache a) (same : ProofCache.Agree ctx.resolver others cache)
    (inside : a.window.contains t = true) : (ctx.atTime t).Path others a.matched := by
  induction h with
  | issued pruned => exact .issued pruned
  | @delegated m rest g p pruned gathered selected _ ih =>
      have below := (Authorization.contains_window_step_iff.mp inside).2
      refine .delegated pruned (fun s mem => ?_) (Match.found_of_sources rest selected (List.Subset.refl _))
        (ih below)
      have among : s ∈ g.sources := Match.mem_of_mem_sources rest selected mem
      obtain ⟨c, counts, found, accepted⟩ := (mem_gather_iff gathered s).mp among
      refine ⟨c, counts, ?_, accepted.audience_eq, Authorization.contains_of_window below s mem,
        accepted.signed⟩
      exact (cited_congr same _).trans found

/-- What is granted is granted with delegations that are all valid now. It would be granted as well at every
other time at which they all are, with any cache that resolves links alike; where citations lead in no circle,
an access has an outcome then. -/
theorem access_window (agrees : ∀ a, ctx.validate a = .ok ())
    (resolvable : ctx.Resolvable cache i.delegation) {later : ProofCache}
    (h : ctx.access i cache = some (.ok a, later)) :
    a.window.contains ctx.now = true ∧
    ∀ t, a.window.contains t = true → ∀ others, ProofCache.Agree ctx.resolver others cache →
      (∀ result, ((ctx.atTime t).access i).outcome others = some result → ∃ b, result = .ok b) ∧
      (ctx.Acyclic cache i.delegation → ∃ b, ((ctx.atTime t).access i).outcome others = some (.ok b)) := by
  obtain ⟨checked, selected, -, tree⟩ := proves_of_access h
  obtain ⟨signed, addressed, now⟩ := checkInvocation_eq_ok_iff.mp checked
  have invoked : ∀ s ∈ a.matched.sources, s.delegation = i.delegation :=
    fun s mem => Selector.delegation_eq_of_mem_sources selected mem
  refine ⟨tree.contains_now fun s mem => by rw [invoked s mem, now], fun t inside others same => ?_⟩
  have begun : (ctx.atTime t).checkInvocation i = .ok () := by
    obtain ⟨s, mem⟩ := List.exists_mem_of_ne_nil _ a.matched.sources_ne_nil
    refine checkInvocation_eq_ok_iff.mpr ⟨signed, addressed, ?_⟩
    rw [← invoked s mem]
    exact Authorization.contains_of_window inside s mem
  have resolves : (ctx.atTime t).Resolvable others i.delegation := resolvable.congr same
  have provable : (ctx.atTime t).Provable others a.matched :=
    (tree.path same inside).provable (resolves.invoked selected)
  have accepts : ∀ a, (ctx.atTime t).validate a = .ok () := agrees
  have granted : ∀ result, ((ctx.atTime t).access i).outcome others = some result →
      ∃ b, result = .ok b := by
    intro result ended
    exact (exists_ok_iff_provable accepts resolves ended).mpr ⟨begun, _, selected, provable⟩
  refine ⟨granted, fun acyclic => ?_⟩
  have ends : (ctx.atTime t).Acyclic others i.delegation := acyclic.congr same
  obtain ⟨result, ended⟩ := exists_access ends
  obtain ⟨b, rfl⟩ := granted result ended
  exact ⟨b, ended⟩

end Context

/-! ## A chain that lapses -/

namespace Sample

/-- What Alice lets Bob do up to a time, Bob lets Carol do from a time on, and Carol does. -/
def lapsing (start finish : Timestamp) : Except Delegation.Error Invocation := do
  let root ← Draft.sign ⟨some bob, [⟨"store/*", alice.toText, []⟩], [], some finish, none, [], none⟩
    (echo alice)
  let middle ← Draft.sign
    ⟨some carol, [⟨"store/add", alice.toText, []⟩], [.inline root], none, some start, [], none⟩ (echo bob)
  Invocation.ofDelegation (← grant carol service "store/add" [] [middle])

end Sample

/-- Granted at five, Carol's invocation is granted up to the time that Alice set. -/
theorem Context.access_window_lapsing :
    ∃ i a b later, Sample.lapsing 3 9 = .ok i ∧
      ((Sample.context Sample.limited).atTime 5).access i .empty = some (.ok a, later) ∧
      a.window = .between (some 3) (some 9) ∧
      ((Sample.context Sample.limited).atTime 9 |>.access i).outcome .empty = some (.ok b) := by
  have grants : Sample.grants ((Sample.context Sample.limited).atTime 5) (Sample.lapsing 3 9)
      (fun a => decide (a.window = .between (some 3) (some 9))) = true := by
    decide +kernel
  obtain ⟨i, a, later, made, granted, shared⟩ := Sample.exists_of_grants grants
  have shared : a.window = .between (some 3) (some 9) := of_decide_eq_true shared
  have resolvable : ((Sample.context Sample.limited).atTime 5).Resolvable .empty i.delegation :=
    fun e _ => ⟨_, rfl⟩
  have inside : a.window.contains 9 = true := by
    rw [shared]
    decide
  obtain ⟨-, lasts⟩ := access_window (fun _ => rfl) resolvable granted
  obtain ⟨b, again⟩ := (lasts 9 inside .empty (.refl _)).2 (acyclic_of_unlinked rfl rfl _)
  exact ⟨i, a, b, later, made, granted, shared, again⟩

end Mandate

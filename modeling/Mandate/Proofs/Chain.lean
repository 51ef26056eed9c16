import Mandate.Proofs.Parts

/-!
# What a chain tells

The chain of an authorization, which a validator looks through, has one delegation for each node: that of
the first source of its match. Where a selector pairs nothing, each match has one source, so the chain has
all that the authorization rests on. Where it pairs something, a node below the invocation may rest on
several delegations, and the chain tells one of them.
-/

namespace Mandate

namespace Match

/-- A match that is no group. -/
def Lone : Match → Prop
  | .group _ _ => False
  | _ => True

theorem Lone.sources_eq {m : Match} (h : m.Lone) : ∃ s, m.sources = [s] ∧ s.delegation = m.delegation := by
  cases m with
  | direct m => exact ⟨m.source, rfl, rfl⟩
  | derived m origin rule => exact ⟨m.source, rfl, rfl⟩
  | group m ms => exact h.elim

/-- What is left of a match that is no group is the match. -/
theorem Lone.eq_of_prune {mayIssue : Issuance} {m rest : Match} (h : m.Lone)
    (pruned : m.prune mayIssue = some rest) : m = rest := by
  cases m with
  | direct m => exact (prune_direct_eq_some_iff.mp pruned).2
  | derived m origin rule => exact (prune_derived_eq_some_iff.mp pruned).2
  | group m ms => exact h.elim

/-- The delegation of a match is that of its first source. -/
theorem exists_first_source (m : Match) : ∃ s others, m.sources = s :: others ∧
    s.delegation = m.delegation := by
  induction m using induct with
  | direct m => exact ⟨m.source, [], rfl, rfl⟩
  | derived m origin rule => exact ⟨m.source, [], rfl, rfl⟩
  | group m ms ih =>
      obtain ⟨s, others, first, same⟩ := ih m List.mem_cons_self
      refine ⟨s, others ++ ms.flatMap sources, ?_, same⟩
      rw [sources_group, List.flatMap_cons, first, List.cons_append]

end Match

namespace Selector

variable {s t : Selector} {given : List Source}

/-- No part of a selector is a pair. -/
def Unpaired (s : Selector) : Prop := ∀ l r, ¬ (and l r).Part s

theorem Unpaired.of_part (h : s.Unpaired) (part : t.Part s) : t.Unpaired :=
  fun l r pair => h l r (pair.trans part)

/-- Without pairs no group is found. -/
theorem Unpaired.found (h : s.Unpaired) {m : Match} (found : m ∈ (s.select given).found) : m.Lone := by
  induction s with
  | descriptor d =>
      obtain ⟨n, -, rfl⟩ := List.mem_map.mp found
      trivial
  | or l r left right =>
      rcases List.mem_append.mp found with found | found
      · exact left (h.of_part (.left_or .self)) found
      · exact right (h.of_part (.right_or .self)) found
  | and l r left right => exact (h l r .self).elim
  | derive origin target rule =>
      obtain ⟨n, -, rfl⟩ := List.mem_map.mp found
      trivial

/-- Nor does a group prove a match that is none. -/
theorem Unpaired.select (h : s.Unpaired) {m n : Match} (made : s.MadeOf m) (lone : m.Lone)
    (found : n ∈ (m.select given).found) : n.Lone := by
  cases m with
  | direct m =>
      obtain ⟨k, -, rfl⟩ := List.mem_map.mp found
      trivial
  | derived m origin rule =>
      rcases Match.mem_found_selectDerived.mp found with ⟨k, -, rfl⟩ | ⟨other, -⟩
      · trivial
      · have part : (derive origin m.descriptor rule).Part s := madeOf_derived.mp made
        exact (h.of_part (Part.trans (.origin .self) part)).found other
  | group m ms => exact lone.elim

end Selector

namespace Context

variable {ctx : Context} {cache : ProofCache} {i : Invocation} {a n : Authorization}

/-- A proven tree has one delegation in its chain for each of its nodes. -/
theorem Proves.chain_eq (h : ctx.Proves cache a) : a.chain = a.nodes.map (·.matched.delegation) := by
  induction h with
  | issued pruned => simp [Authorization.chain]
  | delegated pruned gathered selected proven ih => simp [Authorization.chain, ih]

/-- A tree that begins with a match that is no group has no groups, if there are no pairs. -/
theorem Proves.lone {selector : Selector} (h : ctx.Proves cache a) (unpaired : selector.Unpaired)
    (made : selector.MadeOf a.matched) (lone : a.matched.Lone) (mem : n ∈ a.nodes) : n.matched.Lone := by
  induction h with
  | issued pruned =>
      obtain rfl : n = _ := by simpa using mem
      exact lone
  | @delegated m rest g p pruned gathered selected proven ih =>
      obtain rfl := lone.eq_of_prune pruned
      rw [Authorization.nodes_step] at mem
      rcases List.mem_cons.mp mem with rfl | below
      · exact lone
      · exact ih (made.select selected) (unpaired.select made lone selected) below

/-- A validator that refuses every chain with something revoked. -/
def Revokes (ctx : Context) (revoked : Cid → Prop) : Prop :=
  ∀ a : Authorization, (∃ d ∈ a.chain, revoked d.cid) → ∃ problem, ctx.validate a = .error problem

/-- The chain of what is granted has one delegation for each node, that of the first source of its match; the
sources of the match at the top have no other. So a validator that looks through chains for what is revoked
accepts no authorization with something revoked among these. Without pairs each match has one source, and
then it accepts none that rests on something revoked at all. -/
theorem chain_of_access {later : ProofCache} (h : ctx.access i cache = some (.ok a, later)) :
    a.chain = a.nodes.map (·.matched.delegation) ∧
    (∀ n ∈ a.nodes, ∃ s others, n.matched.sources = s :: others ∧ s.delegation ∈ a.chain) ∧
    (∀ s ∈ a.matched.sources, s.delegation ∈ a.chain) ∧
    (∀ revoked, ctx.Revokes revoked → ∀ d ∈ a.chain, ¬ revoked d.cid) ∧
    (ctx.selector.Unpaired →
      (∀ n ∈ a.nodes, ∀ s ∈ n.matched.sources, s.delegation ∈ a.chain) ∧
      ∀ revoked, ctx.Revokes revoked →
        ∀ n ∈ a.nodes, ∀ s ∈ n.matched.sources, ¬ revoked s.delegation.cid) := by
  obtain ⟨-, selected, valid, tree⟩ := proves_of_access h
  have chain := tree.chain_eq
  have first : ∀ n ∈ a.nodes, n.matched.delegation ∈ a.chain := by
    intro n mem
    rw [chain]
    exact List.mem_map_of_mem mem
  have accepted : ∀ revoked, ctx.Revokes revoked → ∀ d ∈ a.chain, ¬ revoked d.cid := by
    intro revoked revokes d mem bad
    obtain ⟨problem, refused⟩ := revokes a ⟨d, mem, bad⟩
    rw [valid] at refused
    cases refused
  refine ⟨chain, ?_, ?_, accepted, ?_⟩
  · intro n mem
    obtain ⟨s, others, split, same⟩ := n.matched.exists_first_source
    refine ⟨s, others, split, ?_⟩
    rw [same]
    exact first n mem
  · intro s mem
    obtain ⟨t, others, split, same⟩ := a.matched.exists_first_source
    have invoked : t.delegation = i.delegation :=
      Selector.delegation_eq_of_mem_sources selected (by rw [split]; exact List.mem_cons_self)
    rw [Selector.delegation_eq_of_mem_sources selected mem, ← invoked, same]
    exact first a a.self_mem_nodes
  · intro unpaired
    have complete : ∀ n ∈ a.nodes, ∀ s ∈ n.matched.sources, s.delegation ∈ a.chain := by
      intro n mem s hs
      have lone := tree.lone unpaired (Selector.madeOf_of_mem_found selected) (unpaired.found selected) mem
      obtain ⟨t, only, same⟩ := lone.sources_eq
      rw [only] at hs
      rw [List.mem_singleton.mp hs, same]
      exact first n mem
    exact ⟨complete, fun revoked revokes n mem s hs => accepted revoked revokes _ (complete n mem s hs)⟩

end Context

/-! ## Revoked delegations -/

namespace Sample

/-- Refuses every chain with one of some delegations. -/
def refusing (revoked : List Cid) (a : Authorization) : Except Problem Unit :=
  if a.chain.any fun d => revoked.contains d.cid then .error ⟨"revoked"⟩ else .ok ()

/-- A context that refuses every chain with one of some delegations. -/
def guarded (selector : Selector) (revoked : List Cid) : Context :=
  { context selector with validate := refusing revoked }

theorem revokes_guarded (selector : Selector) (revoked : List Cid) :
    (guarded selector revoked).Revokes (· ∈ revoked) := by
  rintro a ⟨d, mem, bad⟩
  refine ⟨⟨"revoked"⟩, if_pos ?_⟩
  exact List.any_eq_true.mpr ⟨d, mem, List.contains_iff_mem.mpr bad⟩

/-- Synchronizing takes both adding and uploading. -/
def syncing : Selector :=
  .derive (adding.and uploading) (.plain "account/sync" Resource.readText) fun _ _ => .ok ()

/-- Alice lets Carol add and, apart from that, upload, so that Carol may synchronize. -/
def sync : Except Delegation.Error (Delegation × Invocation) := do
  let add ← grant alice carol "store/add" [] []
  let upload ← grant alice carol "upload/add" [] []
  return (upload, ← Invocation.ofDelegation (← grant carol service "account/sync" [] [add, upload]))

end Sample

/-- What Carol adds rests on nothing that was revoked, as that was something else that Alice let her do. -/
theorem Context.chain_of_access_chain :
    ∃ i a later upload, Sample.chain [("size", .integer 9)] [] [("size", .integer 5)] = .ok i ∧
      Sample.grant Sample.alice Sample.carol "upload/add" [] [] = .ok upload ∧
      (Sample.guarded Sample.limited [upload.cid]).access i .empty = some (.ok a, later) ∧
      a.nodes.length = 3 ∧ ∀ n ∈ a.nodes, ∀ s ∈ n.matched.sources,
        s.delegation ∈ a.chain ∧ s.delegation.cid ≠ upload.cid := by
  have holds : (Sample.grant Sample.alice Sample.carol "upload/add" [] []).toOption.any (fun upload =>
      Sample.grants (Sample.guarded Sample.limited [upload.cid])
        (Sample.chain [("size", .integer 9)] [] [("size", .integer 5)])
        (fun a => decide (a.nodes.length = 3))) = true := by
    decide +kernel
  obtain ⟨upload, made, grants⟩ := Sample.exists_of_any holds
  obtain ⟨i, a, later, invoked, granted, long⟩ := Sample.exists_of_grants grants
  have unpaired : (Sample.guarded Sample.limited [upload.cid]).selector.Unpaired := by
    intro l r pair
    cases pair
  obtain ⟨-, -, -, -, whole⟩ := chain_of_access granted
  obtain ⟨complete, accepted⟩ := whole unpaired
  refine ⟨i, a, later, upload, invoked, made, granted, of_decide_eq_true long, ?_⟩
  intro n mem s hs
  refine ⟨complete n mem s hs, fun same => ?_⟩
  exact accepted _ (Sample.revokes_guarded Sample.limited [upload.cid]) n mem s hs
    (List.mem_singleton.mpr same)

/-- That Carol may upload was revoked, and all chains with it are refused. Still she may synchronize, with an
authorization that rests on it: the chain only has what lets her add. -/
theorem Context.chain_incomplete_paired :
    ∃ upload i a later n s, Sample.sync = .ok (upload, i) ∧
      (Sample.guarded Sample.syncing [upload.cid]).Revokes (· ∈ [upload.cid]) ∧
      (Sample.guarded Sample.syncing [upload.cid]).access i .empty = some (.ok a, later) ∧
      n ∈ a.nodes ∧ s ∈ n.matched.sources ∧ s.delegation.cid = upload.cid ∧ s.delegation ∉ a.chain := by
  have holds : Sample.sync.toOption.any (fun (upload, i) =>
      Sample.grants (Sample.guarded Sample.syncing [upload.cid]) (.ok i) (fun a =>
        a.nodes.any fun n => n.matched.sources.any fun s => decide (s.delegation.cid = upload.cid))) =
      true := by
    decide +kernel
  obtain ⟨⟨upload, i⟩, made, grants⟩ := Sample.exists_of_any holds
  obtain ⟨_, a, later, same, granted, rests⟩ := Sample.exists_of_grants grants
  obtain rfl := Except.ok.inj same
  obtain ⟨n, mem, rests⟩ := List.any_eq_true.mp rests
  obtain ⟨s, hs, revoked⟩ := List.any_eq_true.mp rests
  have revokes := Sample.revokes_guarded Sample.syncing [upload.cid]
  refine ⟨upload, i, a, later, n, s, made, revokes, granted, mem, hs, of_decide_eq_true revoked, ?_⟩
  intro listed
  obtain ⟨-, -, valid, -⟩ := proves_of_access granted
  obtain ⟨problem, refused⟩ := revokes a ⟨_, listed, List.mem_singleton.mpr (of_decide_eq_true revoked)⟩
  rw [valid] at refused
  cases refused

end Mandate

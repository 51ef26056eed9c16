import Mandate.Proofs.Line

/-!
# No escalation under the standard rule

Each delegated capability is only compared with the one that was resolved just above it. Against the
invoked capability every one that was resolved keeps the same bounds: it has the invoked ability, its
resource is the invoked one or a directory of that, and the caveats that it constrains are set by the
invocation to the same values. What the delegations say themselves is then no less than what is invoked.
-/

namespace Mandate

namespace Rule

/-- A caveat that passed is not constrained, or has an equal value in the claim. -/
theorem equalCaveat_eq_ok_iff {key : String} {claimed delegated : Parsed} :
    equalCaveat key claimed delegated = .ok () ↔
      ∀ v, delegated.caveats.lookup key = some v → v ≠ .string "*" →
        ∃ u, claimed.caveats.lookup key = some u ∧ (u == v) = true := by
  rw [← forall_constraint_iff]
  unfold equalCaveat
  cases constraint? delegated key with
  | none => simp
  | some expected => cases claimed.caveats.lookup key <;> simp

/-- What the standard rule accepts has no other constraints than the claim. -/
theorem caveats_of_standard {claimed delegated : Parsed}
    (h : standard claimed delegated = .ok ()) {key : String} {v : Ipld}
    (found : delegated.caveats.lookup key = some v) (constrained : v ≠ .string "*") :
    ∃ u, claimed.caveats.lookup key = some u ∧ (u == v) = true := by
  have mem : key ∈ Table.keys delegated.caveats :=
    List.mem_map.mpr ⟨(key, v), Table.mem_of_lookup found, rfl⟩
  have checked := every_eq_ok_iff.mp h (equalCaveat key)
    (List.mem_cons_of_mem _ (List.mem_map.mpr ⟨key, mem, rfl⟩))
  exact equalCaveat_eq_ok_iff.mp checked v found constrained

end Rule

namespace Capability

/-- A delegated capability, as it is given, leaves room for a claimed one. -/
structure Admits (delegated claimed : Capability) : Prop where
  ability : Pattern.covers delegated.ability claimed.ability = true
  resource : Coverage.Admits delegated.resource claimed.resource
  caveats : ∀ k v, delegated.caveats.lookup k = some v → v ≠ .string "*" →
    ∃ u, claimed.caveats.lookup k = some u ∧ (u == v) = true

/-- A resolved capability stays within what an invoked one is about. -/
structure Bounded (invoked resolved : Capability) : Prop where
  ability : resolved.ability = invoked.ability
  resource : Coverage.Keeps resolved.resource invoked.resource
  caveats : ∀ k v, resolved.caveats.lookup k = some v → v ≠ .string "*" →
    ∃ u, invoked.caveats.lookup k = some u ∧ (u == v) = true

theorem Bounded.refl (c : Capability) : Bounded c c where
  ability := rfl
  resource := Or.inl rfl
  caveats _ v found _ := ⟨v, found, Ipld.equal_refl v⟩

end Capability

namespace Context

open Capability

variable {ctx : Context} {cache : ProofCache} {i : Invocation} {invoked : Capability}
  {m n : DirectMatch} {s : Source} {a : Authorization}

/-- One hop: what is resolved next keeps the bounds, and what it was resolved from leaves room for the
invoked capability. -/
theorem bounded_of_candidate (standard : m.descriptor.rule = Rule.standard)
    (plain : m.descriptor.readCaveats = Schema.unknown.readFields)
    (kept : m.value.caveats = m.capability.caveats) (bounded : Bounded invoked m.capability)
    (sorted : s.capability.caveats.Sorted) (h : m.candidate s = .found n) :
    Bounded invoked n.capability ∧ s.capability.Admits invoked ∧
      n.value.caveats = n.capability.caveats := by
  obtain ⟨resolved, value, covered, read, accepted, rfl⟩ := DirectMatch.candidate_eq_found h
  obtain ⟨⟨ability, same⟩, resource, caveats⟩ := Coverage.resolve?_eq_some covered
  obtain ⟨keeps, admits⟩ := Coverage.keeps_of_resource? bounded.resource resource
  have verbatim : value.caveats = resolved.caveats := Descriptor.caveats_of_read plain read
  rw [standard] at accepted
  have constraints : ∀ k v, resolved.caveats.lookup k = some v → v ≠ .string "*" →
      ∃ u, invoked.caveats.lookup k = some u ∧ (u == v) = true := by
    intro k v found constrained
    rw [← verbatim] at found
    obtain ⟨w, above, equal⟩ := Rule.caveats_of_standard accepted found constrained
    rw [kept] at above
    -- An equal value is no asterisk either, so the bound above applies to it.
    obtain ⟨u, set, same⟩ :=
      bounded.caveats k w above (Ipld.ne_string_of_equal equal constrained)
    exact ⟨u, set, Ipld.equal_trans u w v same equal⟩
  refine ⟨⟨same.trans bounded.ability, keeps, constraints⟩, ⟨?_, admits, ?_⟩, verbatim⟩
  · rw [← bounded.ability]
    exact ability
  · intro k v found
    refine constraints k v ?_
    rw [caveats, Table.lookup_override sorted, found]
    rfl

/-- The whole line: every delegation along it leaves room for the invoked capability, and its root is
bounded by that too. -/
theorem Line.admits (h : ctx.Line m a) (standard : m.descriptor.rule = Rule.standard)
    (plain : m.descriptor.readCaveats = Schema.unknown.readFields)
    (kept : m.value.caveats = m.capability.caveats) (bounded : Bounded invoked m.capability) :
    (∃ granted, a.trail = m.source.capability :: granted ∧ ∀ c ∈ granted, c.Admits invoked) ∧
      ∃ r, a.root = .direct r ∧ r.isSelfIssued ctx.mayIssue = true ∧
        Bounded invoked r.capability := by
  induction h with
  | @root m issued => exact ⟨⟨[], rfl, by simp⟩, m, rfl, issued, bounded⟩
  | @step m n s p covered wellFormed signed line ih =>
      obtain ⟨bound, admits, verbatim⟩ := bounded_of_candidate standard plain kept bounded
        (wellFormed.caveats_sorted _ (List.getElem_mem _)) covered
      obtain ⟨_, _, -, -, -, rfl⟩ := DirectMatch.candidate_eq_found covered
      obtain ⟨⟨granted, trail, rest⟩, root⟩ := ih standard plain verbatim bound
      refine ⟨⟨s.capability :: granted, ?_, ?_⟩, root⟩
      · rw [Authorization.trail, trail]
        rfl
      · intro c mem
        rcases List.mem_cons.mp mem with rfl | below
        · exact admits
        · exact rest c below

/-- Along a granted authorization of a plain descriptor, no delegation is exceeded by what is invoked, and
what the root issued outright is the invoked resource or a directory of it. -/
theorem no_escalation {ability : String} {reader : Resource.Reader} {later : ProofCache}
    (selects : ctx.selector = .descriptor (.plain ability reader))
    (meets : ctx.MeetsOnly Delegation.WellFormed i) (reached : cache.Reached ctx.resolver)
    (h : ctx.access i cache = some (.ok a, later)) :
    (∃ granted, a.trail = i.capability :: granted ∧ ∀ c ∈ granted, c.Admits i.capability) ∧
    ∃ r, a.root = .direct r ∧
      ctx.mayIssue r.capability r.source.delegation.issuer = true ∧
      (ctx.mayIssue = isOwnedBy →
        r.source.delegation.issuer.toText = i.capability.resource ∨
        Text.endsWith r.source.delegation.issuer.toText "/" = true ∧
          Text.startsWith i.capability.resource r.source.delegation.issuer.toText = true) := by
  obtain ⟨m, described, parsed, claimed, -, invoked, line⟩ :=
    line_of_access selects meets reached h
  obtain ⟨-, read⟩ := Descriptor.parse_eq_ok parsed
  have kept : m.value.caveats = m.capability.caveats := by
    rw [claimed]
    exact Descriptor.caveats_of_read rfl read
  obtain ⟨trail, r, root, issued, bounded⟩ := line.admits (by rw [described]; rfl)
    (by rw [described]; rfl) kept (by rw [claimed]; exact .refl i.capability)
  rw [invoked] at trail
  refine ⟨trail, r, root, issued, ?_⟩
  intro default
  have owner : r.capability.resource = r.source.delegation.issuer.toText := by
    have owned : ctx.mayIssue r.capability r.source.delegation.issuer = true := issued
    rw [default] at owned
    exact beq_iff_eq.mp owned
  rw [← owner]
  exact bounded.resource

/-- Carol repeats the size that Alice allowed, which Bob passed on. -/
theorem no_escalation_chain :
    ∃ i a later,
      Sample.chain [("size", .integer 5)] [] [("size", .integer 5)] = .ok i ∧
      (Sample.context (.descriptor (.plain "store/add" (Resource.readDid none)))).access i .empty =
        some (.ok a, later) ∧
      a.nodes.length = 3 ∧
      ∃ granted, a.trail = i.capability :: granted ∧ ∀ c ∈ granted, c.Admits i.capability := by
  have grants : Sample.grants
      (Sample.context (.descriptor (.plain "store/add" (Resource.readDid none))))
      (Sample.chain [("size", .integer 5)] [] [("size", .integer 5)])
      (fun a => decide (a.nodes.length = 3)) = true := by
    decide +kernel
  obtain ⟨i, a, later, made, granted, long⟩ := Sample.exists_of_grants grants
  have meets := Sample.meetsOnly_chain
    (.descriptor (.plain "store/add" (Resource.readDid none)))
    (by simp [Table.Sorted]) (by simp [Table.Sorted]) (by simp [Table.Sorted]) made
  exact ⟨i, a, later, made, granted, of_decide_eq_true long,
    (no_escalation rfl meets .empty granted).1⟩

end Context

end Mandate

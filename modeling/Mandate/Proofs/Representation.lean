import Mandate.Proofs.Store
import Mandate.Proofs.Supply

/-!
# Attached, archived and stored proofs

A complete delegation carries its proofs along. It may also be archived and read again, or be cut down to its
own bytes while a store keeps the rest. In each of these forms it supplies a search with the same parts, so
an invocation has the same outcome in all of them.
-/

namespace Mandate

open Delegation

namespace Delegation

/-- A copy of a part, whatever is attached to it, that says what the part says. -/
structure Copy (root d : Delegation) : Prop where
  intact : d.Hereditary Intact
  bytes : ∀ e ∈ root.nested, ∀ q ∈ d.nested, q.cid = e.cid → q.bytes = e.bytes
  part : ∃ e ∈ root.nested, d.cid = e.cid

/-- A copy of a part that was known when an archive was read. -/
structure Retrieved (root : Delegation) (known : Table Cid Delegation) (d : Delegation) : Prop where
  intact : d.Hereditary Intact
  part : ∃ e ∈ root.nested, known.lookup e.cid = some d

theorem Copy.bare_eq {root d e : Delegation} (copy : Copy root d) (whole : root.Whole)
    (decodes : root.Decodes) (he : e ∈ root.nested) (same : d.cid = e.cid) : d.bare = e.bare :=
  ((whole.intact.of_mem_nested he).self.bare_eq copy.intact.self
    (copy.bytes e he d d.self_mem_nested same).symm (decodes e he)).symm

/-- A whole delegation without its attachments is a copy of itself. -/
theorem Copy.of_bare {root : Delegation} (consistent : root.Consistent) (whole : root.Whole) :
    Copy root root.bare where
  intact := .of_blocks_nil ⟨whole.intact.self.content, by simp [bare], by simp [bare]⟩ rfl
  bytes e he q hq same := by
    obtain rfl : q = root.bare := by simpa using hq
    exact consistent root root.self_mem_nested e he same
  part := ⟨root, root.self_mem_nested, rfl⟩

end Delegation

namespace Invocation

/-- A copy of an invocation is an invocation. -/
theorem exists_ofDelegation {d : Delegation} (i : Invocation) (same : d.bare = i.delegation.bare) :
    ∃ j, ofDelegation d = .ok j ∧ j.delegation = d ∧ j.bare = i.bare := by
  have one : d.capabilities = [i.capability] := by
    rw [capabilities, payload_eq_of_bare same]
    exact i.capabilities_eq
  have made : ∃ j, ofDelegation d = .ok j := by
    unfold ofDelegation
    split
    · exact ⟨_, rfl⟩
    case h_2 other => exact absurd one (other i.capability)
  obtain ⟨j, made⟩ := made
  have delegation := delegation_ofDelegation made
  refine ⟨j, made, delegation, eq_of_delegation ?_⟩
  change j.delegation.bare = i.delegation.bare
  rw [delegation, same]

end Invocation

namespace Context

variable {ctx : Context} {cache : ProofCache} {root : Delegation}

/-- What is attached supplies a search without any lookup. -/
theorem supplies_attached (whole : root.Whole) : ctx.Supplies cache root (· ∈ root.nested) where
  part hd := ⟨_, hd, rfl⟩
  own hd c p attached := (whole.intact.of_mem_nested hd).self.own c p (Table.mem_of_lookup attached)
  cited hd p listed := by
    obtain ⟨c, cites, rfl⟩ := List.mem_map.mp listed
    obtain ⟨q, hq, attached, -⟩ := whole.complete.exists_part whole.intact hd cites
    rw [attached]
    exact ⟨q, rfl, rfl, hq⟩

/-- What is restored from an archive supplies a search without any lookup. -/
theorem supplies_restored (whole : root.Whole) (decodes : root.Decodes) {known : Table Cid Delegation}
    (restored : Restored root known) : ctx.Supplies cache root (Retrieved root known) := by
  have content : ∀ {d e}, d.Hereditary Intact → e ∈ root.nested → known.lookup e.cid = some d →
      d.bare = e.bare := by
    intro d e hd he copy
    exact ((whole.intact.of_mem_nested he).self.bare_eq hd.self (restored.bytes d e he copy).symm
      (decodes e he)).symm
  refine ⟨?_, ?_, ?_⟩
  · rintro d ⟨hd, e, he, copy⟩
    exact ⟨e, he, content hd he copy⟩
  · rintro d ⟨hd, -⟩ c p attached
    exact hd.self.own c p (Table.mem_of_lookup attached)
  · rintro d ⟨hd, e, he, copy⟩ p listed
    obtain ⟨c, cites, rfl⟩ := List.mem_map.mp listed
    rw [payload_eq_of_bare (content hd he copy)] at cites
    obtain ⟨q, found, attached⟩ := restored.attached d e he copy c
      ((whole.complete.mem_addresses_iff whole.intact he).mpr cites)
    obtain ⟨part, hp, -, rfl, -⟩ := whole.complete.exists_part whole.intact he cites
    rw [attached]
    exact ⟨q, rfl, rfl, hd.of_lookup attached, part, hp, found⟩

/-- A link resolves to what the resolver gives, remembered or not. -/
theorem answer_of_fetch {r : Resolver} (reached : cache.Reached (some r)) {link : Cid} {q : Delegation}
    (fetched : ProofCache.fetch r link = .ok q) : cache.answer (some r) link = .ok q := by
  cases cached : cache.cached? link with
  | none => exact ProofCache.answer_eq_ok_iff.mpr (Or.inr ⟨cached, r, rfl, fetched⟩)
  | some p =>
      obtain ⟨_, same, earlier⟩ := reached.fetch_of_cached cached
      obtain rfl := Option.some.inj same
      obtain rfl := Except.ok.inj (earlier.symm.trans fetched)
      exact ProofCache.answer_eq_ok_iff.mpr (Or.inl cached)

/-- A store that a delegation was inserted into supplies a search, attached or looked up. -/
theorem supplies_stored {ds : List Delegation} (whole : root.Whole) (decodes : root.Decodes)
    (built : ∀ d ∈ ds, d.Built) (inserted : root ∈ ds)
    (consistent : ∀ e ∈ root.nested, ∀ d ∈ ds, ∀ q ∈ d.nested, q.cid = e.cid → q.bytes = e.bytes)
    (looksUp : ctx.resolver = some (.ofStore (.ofInsertions ds)))
    (reached : cache.Reached ctx.resolver) : ctx.Supplies cache root (Copy root) := by
  rw [looksUp] at reached
  refine ⟨?_, ?_, ?_⟩
  · intro d copy
    obtain ⟨e, he, same⟩ := copy.part
    exact ⟨e, he, copy.bare_eq whole decodes he same⟩
  · intro d copy c p attached
    exact copy.intact.self.own c p (Table.mem_of_lookup attached)
  · intro d copy p listed
    obtain ⟨c, cites, rfl⟩ := List.mem_map.mp listed
    obtain ⟨e, he, same⟩ := copy.part
    rw [payload_eq_of_bare (copy.bare_eq whole decodes he same)] at cites
    obtain ⟨part, hp, -, rfl, -⟩ := whole.complete.exists_part whole.intact he cites
    split
    case h_1 q attached =>
      have block := Table.mem_of_lookup attached
      have below : q ∈ d.nested := mem_nested_of_attached block d d.self_mem_nested
      exact ⟨q, rfl, rfl, copy.intact.of_lookup attached,
        fun e he r hr => copy.bytes e he r (nested_trans below hr), part, hp,
        copy.intact.self.own _ q block⟩
    case h_2 =>
      obtain ⟨q, stored⟩ := Store.exists_get? inserted hp
      obtain ⟨d', hd', below, own⟩ := Store.mem_of_get? stored
      have fetched : ProofCache.fetch (.ofStore (.ofInsertions ds)) part.cid = .ok q := by
        refine ProofCache.fetch_eq_ok_iff.mpr ⟨?_, own⟩
        simp only [Resolver.ofStore, stored]
      refine ⟨q, ?_, own, (built d' hd').intact.of_mem_nested below,
        fun e he r hr => consistent e he d' hd' r (nested_trans below hr), part, hp, own⟩
      change cache.answer ctx.resolver part.cid = _
      rw [looksUp]
      exact answer_of_fetch reached fetched

/-- An invocation with everything attached has one outcome, whichever way its proofs are carried: attached to
it, in an archive that it is read from, or in a store that it was inserted into and that looks them up for its
own bytes. The outcomes are the same up to what is attached to the delegations of an authorization, for every
validator that does not look at that. -/
theorem access_of_complete {i : Invocation} {ds : List Delegation} {cache cache' stored : ProofCache}
    (blind : ∀ a, ctx.validate a.bare = ctx.validate a) (complete : i.delegation.Complete)
    (decodes : i.delegation.Decodes) (built : ∀ d ∈ ds, d.Built) (inserted : i.delegation ∈ ds)
    (consistent : ∀ e ∈ i.delegation.nested, ∀ d ∈ ds, ∀ q ∈ d.nested, q.cid = e.cid → q.bytes = e.bytes)
    (count : i.delegation.encodings.length < UInt64.size)
    (sizes : ∀ b ∈ i.delegation.encodings, b.length < UInt64.size)
    (reached : stored.Reached (some (.ofStore (.ofInsertions ds)))) :
    ∃ archive restored bare j k,
      (i.delegation.toArchive = .ok archive ∧ ofArchive archive = .ok restored ∧
        Invocation.ofDelegation restored = .ok j) ∧
      (ofBytes i.delegation.bytes = .ok bare ∧ Invocation.ofDelegation bare = .ok k) ∧
      ∃ r r' r'', (ctx.access i).outcome cache = some r ∧ (ctx.access j).outcome cache' = some r' ∧
        ({ ctx with resolver := some (.ofStore (.ofInsertions ds)) }.access k).outcome stored = some r'' ∧
        r'.map Authorization.bare = r.map Authorization.bare ∧
        r''.map Authorization.bare = r.map Authorization.bare := by
  have own : i.delegation.Consistent :=
    fun e he e' he' same => (consistent e he i.delegation inserted e' he' same.symm).symm
  have whole := complete.whole own decodes (built _ inserted)
  -- The archive.
  obtain ⟨archive, written⟩ := exists_encode_of_bytes count sizes
  have made : i.delegation.toArchive = .ok archive := by
    rw [toArchive, written]
  obtain ⟨known, result⟩ := readBlocks_encodings whole.intact.self decodes
  have read := ofArchive_of_toArchive made result
  obtain ⟨known', restored, copy⟩ := whole.coherent.exists_restored own decodes whole.intact result
  obtain ⟨j, invoked, hj, sameJ⟩ := i.exists_ofDelegation (bare_restore known i.delegation)
  -- The bytes alone.
  obtain ⟨bare, alone⟩ := decodes _ i.delegation.self_mem_nested
  obtain rfl := whole.intact.self.content bare alone
  obtain ⟨k, invoked', hk, sameK⟩ := i.exists_ofDelegation (d := i.delegation.bare) rfl
  refine ⟨archive, _, _, j, k, ⟨made, read, invoked⟩, ⟨alone, invoked'⟩, ?_⟩
  have attached : ctx.Supplies cache i.delegation (· ∈ i.delegation.nested) := supplies_attached whole
  have archived : ctx.Supplies cache' i.delegation (Retrieved i.delegation known') :=
    supplies_restored whole decodes restored
  have looked : Supplies { ctx with resolver := some (.ofStore (.ofInsertions ds)) } stored
      i.delegation (Copy i.delegation) :=
    supplies_stored whole decodes built inserted consistent rfl reached
  obtain ⟨r, -, accessed, -⟩ :=
    attached.exists_access_bare whole blind i.delegation.self_mem_nested
  obtain ⟨r', accessed', same'⟩ := attached.access_eq archived whole blind rfl sameJ
    i.delegation.self_mem_nested
    (hj ▸ ⟨(Built.restored read).intact, _, i.delegation.self_mem_nested, copy⟩) accessed
  obtain ⟨r'', accessed'', same''⟩ := attached.access_eq looked whole blind rfl sameK
    i.delegation.self_mem_nested (hk ▸ Copy.of_bare own whole) accessed
  exact ⟨r, r', r'', accessed, accessed', accessed'', same', same''⟩

end Context

/-! ## A chain in three forms -/

namespace Sample

theorem built_grant {issuer audience : Did} {ability : String} {caveats : Fields}
    {proofs : List Delegation} {d : Delegation} (ordered : caveats.Ordered)
    (hp : ∀ p ∈ proofs, p.Built) (h : grant issuer audience ability caveats proofs = .ok d) : d.Built :=
  .signed ⟨by simpa using ordered, by simp⟩ (by simpa using hp) h

theorem built_chain {alices bobs carols : Fields} {i : Invocation} (ha : alices.Ordered)
    (hb : bobs.Ordered) (hc : carols.Ordered) (h : chain alices bobs carols = .ok i) :
    i.delegation.Built := by
  obtain ⟨root, made, h⟩ := Context.bind_eq_ok_iff.mp h
  obtain ⟨middle, passed, h⟩ := Context.bind_eq_ok_iff.mp h
  obtain ⟨claimed, signed, h⟩ := Context.bind_eq_ok_iff.mp h
  have hroot := built_grant ha (by simp) made
  have hmiddle := built_grant hb (by simpa using hroot) passed
  rw [Invocation.delegation_ofDelegation h]
  exact built_grant hc (by simpa using hmiddle) signed

theorem ordered_size (n : Int) : Fields.Ordered [("size", .integer n)] := by
  simpa [Fields.Ordered, Table.Sorted] using Ipld.Ordered.scalar (v := .integer n) trivial

/-- A delegation and then, on their own, all of its parts. -/
def scattered (d : Delegation) : List Delegation :=
  d :: d.nested.filterMap fun e => (Delegation.ofBytes e.bytes).toOption

theorem built_scattered {d : Delegation} (built : d.Built) : ∀ e ∈ scattered d, e.Built := by
  intro e mem
  rcases List.mem_cons.mp mem with rfl | part
  · exact built
  · obtain ⟨p, -, read⟩ := List.mem_filterMap.mp part
    cases made : Delegation.ofBytes p.bytes with
    | error f => simp [made, Except.toOption] at read
    | ok e' =>
        obtain rfl : e' = e := by simpa [made, Except.toOption] using read
        exact .read made

/-- The parts on their own have no other bytes at their addresses than the whole has. -/
theorem consistent_scattered {d : Delegation} (built : d.Built) (consistent : d.Consistent) :
    ∀ e ∈ d.nested, ∀ d' ∈ scattered d, ∀ q ∈ d'.nested, q.cid = e.cid → q.bytes = e.bytes := by
  intro e he d' mem q hq same
  rcases List.mem_cons.mp mem with rfl | part
  · exact consistent q hq e he same
  · obtain ⟨p, hp, read⟩ := List.mem_filterMap.mp part
    cases made : Delegation.ofBytes p.bytes with
    | error f => simp [made, Except.toOption] at read
    | ok d'' =>
        obtain rfl : d'' = d' := by simpa [made, Except.toOption] using read
        obtain rfl := (built.intact.of_mem_nested hp).self.content d'' made
        obtain rfl : q = p.bare := by simpa using hq
        exact consistent p hp e he same

end Sample

/-- Carol's invocation is granted with Bob's and Alice's delegations attached, from an archive, and from a
store in which all copies with attachments were replaced by bare ones. -/
theorem Context.access_of_complete_chain :
    ∃ i a later, Sample.chain [("size", .integer 9)] [] [("size", .integer 5)] = .ok i ∧
      (Sample.context Sample.limited).access i .empty = some (.ok a, later) ∧ a.nodes.length = 3 ∧
      ∃ archive restored bare j k,
        (i.delegation.toArchive = .ok archive ∧ Delegation.ofArchive archive = .ok restored ∧
          Invocation.ofDelegation restored = .ok j) ∧
        (Delegation.ofBytes i.delegation.bytes = .ok bare ∧ Invocation.ofDelegation bare = .ok k) ∧
        ∃ r r' r'', ((Sample.context Sample.limited).access i).outcome .empty = some r ∧
          ((Sample.context Sample.limited).access j).outcome .empty = some r' ∧
          ({ Sample.context Sample.limited with
            resolver := some (.ofStore (.ofInsertions (Sample.scattered i.delegation))) }.access
              k).outcome .empty = some r'' ∧
          r'.map Authorization.bare = r.map Authorization.bare ∧
          r''.map Authorization.bare = r.map Authorization.bare := by
  have grants : Sample.grants (Sample.context Sample.limited)
      (Sample.chain [("size", .integer 9)] [] [("size", .integer 5)])
      (fun a => decide (a.nodes.length = 3)) = true := by
    decide +kernel
  have holds : (Sample.chain [("size", .integer 9)] [] [("size", .integer 5)]).toOption.any (fun i =>
      decide (i.delegation.Complete ∧ i.delegation.Decodes ∧ i.delegation.Consistent ∧
        i.delegation.encodings.length = 3 ∧
        ∀ b ∈ i.delegation.encodings, b.length < UInt64.size)) = true := by
    decide +kernel
  obtain ⟨i, a, later, made, granted, long⟩ := Sample.exists_of_grants grants
  rw [made] at holds
  obtain ⟨complete, decodes, consistent, count, sizes⟩ := of_decide_eq_true holds
  have built : i.delegation.Built :=
    Sample.built_chain (Sample.ordered_size 9) (by simp [Fields.Ordered, Table.Sorted])
      (Sample.ordered_size 5) made
  exact ⟨i, a, later, made, granted, of_decide_eq_true long,
    access_of_complete (fun _ => rfl) complete decodes (Sample.built_scattered built)
      List.mem_cons_self (Sample.consistent_scattered built consistent) (by rw [count]; decide) sizes
      .empty⟩

end Mandate

import Mandate.Proofs.Archive

/-!
# Delegations with everything attached

A delegation is complete if everything that it cites is attached to it, and everything that is cited there
too, down to what cites nothing. Then the content at an address determines all that is below it, so copies
at one address agree on what is attached to them.
-/

namespace Mandate.Delegation

variable {d e e' root : Delegation}

@[simp] theorem nested_bare (d : Delegation) : d.bare.nested = [d.bare] := by
  simp [bare, nested, nestedOfBlocks]

/-- A part of a part is a part. -/
theorem nested_trans (hd : d ∈ root.nested) (he : e ∈ d.nested) : e ∈ root.nested := by
  induction h : root.size using Nat.strong_induction_on generalizing root with
  | _ n ih =>
      obtain ⟨payload, signature, bytes, cid, blocks⟩ := root
      rw [nested] at hd
      rcases List.mem_cons.mp hd with rfl | inner
      · exact he
      · obtain ⟨c, p, attached, below⟩ := mem_nestedOfBlocks.mp inner
        rw [nested]
        exact List.mem_cons_of_mem _ (mem_nestedOfBlocks.mpr
          ⟨c, p, attached, ih p.size (h ▸ size_lt_of_attached attached) below rfl⟩)

/-- The attachments of a delegation that was made in any way stand in the order of their addresses. -/
theorem Built.sorted (built : d.Built) : d.Hereditary fun d => Table.Sorted d.blocks := by
  have keeps : ∀ d p : Delegation, Table.Sorted d.blocks → Table.Sorted (d.attach p).blocks := by
    intro d p h
    unfold attach
    split
    · exact Table.sorted_insert h
    · exact h
  induction built with
  | signed _ _ h ih => exact Draft.hereditary_sign keeps List.Pairwise.nil ih h
  | read h =>
      obtain ⟨_, _, -, rfl⟩ := eq_of_ofBytes h
      exact .of_blocks_nil List.Pairwise.nil rfl
  | attached _ _ hd hp => exact hd.attach keeps hp
  | restored h =>
      refine hereditary_ofArchive keeps (fun _ _ read => ?_) h
      obtain ⟨_, _, -, rfl⟩ := eq_of_ofBytes read
      exact List.Pairwise.nil

theorem cid_eq_of_bare (h : d.bare = e.bare) : d.cid = e.cid := by
  change d.bare.cid = e.bare.cid
  rw [h]

theorem payload_eq_of_bare (h : d.bare = e.bare) : d.payload = e.payload := by
  change d.bare.payload = e.bare.payload
  rw [h]

/-- Intact delegations with the same bytes say the same. -/
theorem Intact.bare_eq (he : e.Intact) (he' : e'.Intact) (same : e.bytes = e'.bytes)
    (decodes : ∃ bare, ofBytes e.bytes = .ok bare) : e.bare = e'.bare := by
  obtain ⟨bare, read⟩ := decodes
  rw [← he.content bare read]
  rw [same] at read
  exact he'.content bare read

/-- Whether everything that is cited is attached, at any depth. -/
def Complete (d : Delegation) : Prop :=
  ∀ e ∈ d.nested, ∀ c ∈ e.payload.proofs, (e.blocks.lookup c).isSome = true

instance (d : Delegation) : Decidable d.Complete :=
  inferInstanceAs (Decidable (∀ e ∈ d.nested, ∀ c ∈ e.payload.proofs, _ = _))

/-- What a part of a complete delegation cites is a smaller part. -/
theorem Complete.exists_part (complete : root.Complete) (intact : root.Hereditary Intact)
    (he : e ∈ root.nested) {c : Cid} (cites : c ∈ e.payload.proofs) :
    ∃ p ∈ root.nested, e.blocks.lookup c = some p ∧ p.cid = c ∧ p.size < e.size := by
  obtain ⟨p, found⟩ := Option.isSome_iff_exists.mp (complete e he c cites)
  have attached := Table.mem_of_lookup found
  exact ⟨p, mem_nested_of_attached attached root he, found,
    (intact.of_mem_nested he).self.own c p attached, size_lt_of_attached attached⟩

/-- To a part of a complete delegation just what it cites is attached. -/
theorem Complete.mem_addresses_iff (complete : root.Complete) (intact : root.Hereditary Intact)
    (he : e ∈ root.nested) {c : Cid} : c ∈ e.addresses ↔ c ∈ e.payload.proofs := by
  constructor
  · intro mem
    obtain ⟨⟨_, p⟩, attached, rfl⟩ := List.mem_map.mp mem
    exact (intact.of_mem_nested he).self.cited _ p attached
  · intro cites
    obtain ⟨p, -, found, -⟩ := complete.exists_part intact he cites
    exact List.mem_map.mpr ⟨(c, p), Table.mem_of_lookup found, rfl⟩

/-- What a complete delegation is like if its parts can be told apart by their addresses: copies at one
address say the same and have the same attached. -/
structure Whole (root : Delegation) : Prop where
  complete : root.Complete
  intact : root.Hereditary Intact
  bare_eq : ∀ e ∈ root.nested, ∀ e' ∈ root.nested, e.cid = e'.cid → e.bare = e'.bare
  coherent : root.Coherent

/-- A complete delegation is whole, if equal addresses mean equal bytes and all parts can be read. -/
theorem Complete.whole (complete : root.Complete) (consistent : root.Consistent)
    (decodes : root.Decodes) (built : root.Built) : root.Whole := by
  have intact := built.intact
  have content : ∀ e ∈ root.nested, ∀ e' ∈ root.nested, e.cid = e'.cid → e.bare = e'.bare :=
    fun e he e' he' same => (intact.of_mem_nested he).self.bare_eq (intact.of_mem_nested he').self
      (consistent e he e' he' same) (decodes e he)
  refine ⟨complete, intact, content, ?_⟩
  intro e he e' he' same
  have ordered : ∀ e ∈ root.nested, e.addresses.Pairwise (· < ·) :=
    fun e he => List.pairwise_map.mpr (built.sorted.of_mem_nested he).self
  have perm : e.addresses.Perm e'.addresses := by
    refine (List.perm_ext_iff_of_nodup ?_ ?_).mpr fun c => ?_
    · exact (ordered e he).imp fun less => ne_of_irrefl less
    · exact (ordered e' he').imp fun less => ne_of_irrefl less
    · rw [complete.mem_addresses_iff intact he, complete.mem_addresses_iff intact he',
        payload_eq_of_bare (content e he e' he' same)]
  refine perm.eq_of_pairwise ?_ (ordered e he) (ordered e' he')
  intro a b _ _ less greater
  exact absurd greater (asymm less)

end Mandate.Delegation

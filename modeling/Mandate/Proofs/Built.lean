import Mandate.Proofs.Reading
import Mandate.Proofs.Sealed

/-!
# How delegations come about

A delegation is signed, read, attached to or restored from an archive, in any order. However it came
about, each part of it is addressed by its bytes, is what is read from these if they can be read at all,
and has attachments only at their own addresses and only such as it cites.
-/

namespace Mandate.Delegation

/-- A delegation that is made in any of the ways there are. -/
inductive Built : Delegation → Prop where
  | signed {draft : Draft} {signer : Signer} {d : Delegation} (ordered : draft.Ordered)
      (inline : ∀ p, .inline p ∈ draft.proofs → Built p) (h : draft.sign signer = .ok d) : Built d
  | read {bytes : Bytes} {d : Delegation} (h : ofBytes bytes = .ok d) : Built d
  | attached {d p : Delegation} (hd : Built d) (hp : Built p) : Built (d.attach p)
  | restored {archive : Bytes} {d : Delegation} (h : ofArchive archive = .ok d) : Built d

/-- What relates a delegation to its bytes and to its attachments. -/
structure Intact (d : Delegation) : Prop where
  content : ∀ e, ofBytes d.bytes = .ok e → e = d.bare
  own : ∀ c p, (c, p) ∈ d.blocks → p.cid = c
  cited : ∀ c p, (c, p) ∈ d.blocks → c ∈ d.payload.proofs

variable {d : Delegation}

@[simp] theorem attach_bytes (d p : Delegation) : (d.attach p).bytes = d.bytes := by
  change (d.attach p).bare.bytes = d.bare.bytes
  rw [bare_attach]

@[simp] theorem attach_signature (d p : Delegation) : (d.attach p).signature = d.signature := by
  change (d.attach p).bare.signature = d.bare.signature
  rw [bare_attach]

@[simp] theorem attach_cid (d p : Delegation) : (d.attach p).cid = d.cid := by
  change (d.attach p).bare.cid = d.bare.cid
  rw [bare_attach]

theorem Intact.attach (hd : d.Intact) (p : Delegation) : (d.attach p).Intact where
  content := by simpa using hd.content
  own c q mem := by
    rcases mem_blocks_attach mem with ⟨rfl, rfl⟩ | earlier
    · rfl
    · exact hd.own c q earlier
  cited c q mem := by
    rw [attach_payload]
    by_cases listed : p.cid ∈ d.payload.proofs
    · rcases mem_blocks_attach mem with ⟨rfl, rfl⟩ | earlier
      · exact listed
      · exact hd.cited c q earlier
    · rw [Delegation.attach, if_neg listed] at mem
      exact hd.cited c q mem

theorem intact_ofBytes {bytes : Bytes} (h : ofBytes bytes = .ok d) : d.Intact := by
  obtain ⟨_, _, -, rfl⟩ := eq_of_ofBytes h
  refine ⟨?_, by simp, by simp⟩
  intro e read
  exact (Except.ok.inj (h.symm.trans read)).symm

/-- A signed delegation is what is read from its bytes, if they can be read. -/
theorem intact_sign {draft : Draft} {signer : Signer} (ordered : draft.Ordered)
    (h : draft.sign signer = .ok d) : d.bare.Intact := by
  refine ⟨?_, by simp [bare], by simp [bare]⟩
  intro e read
  obtain ⟨audience, _, -, payload, -, -, block, address⟩ := Draft.sign_eq_ok h
  have inOrder : d.payload.Ordered := by
    rw [payload]
    exact ordered.payload _ _
  change ofBytes d.bytes = .ok e at read
  rw [ofBytes_block inOrder block, ← address] at read
  split at read
  · exact (Except.ok.inj read).symm
  · cases read

/-- Every part of a delegation is intact, whatever was done to make it. -/
theorem Built.intact (built : d.Built) : d.Hereditary Intact := by
  have keeps : ∀ d p : Delegation, d.Intact → (d.attach p).Intact := fun _ p hd => hd.attach p
  induction built with
  | signed ordered _ h ih => exact Draft.hereditary_sign keeps (intact_sign ordered h) ih h
  | read h =>
      refine .of_blocks_nil (intact_ofBytes h) ?_
      obtain ⟨_, _, -, rfl⟩ := eq_of_ofBytes h
      rfl
  | attached _ _ hd hp => exact hd.attach keeps hp
  | restored h => exact hereditary_ofArchive keeps (fun _ _ read => intact_ofBytes read) h

/-- Each part of a delegation is what the whole is. -/
theorem Hereditary.of_mem_nested {P : Delegation → Prop} {d e : Delegation} (h : d.Hereditary P)
    (mem : e ∈ d.nested) : e.Hereditary P := by
  induction h with
  | @intro d self attached ih =>
      obtain ⟨payload, signature, bytes, cid, blocks⟩ := d
      rw [nested] at mem
      rcases List.mem_cons.mp mem with rfl | inner
      · exact .intro self attached
      · obtain ⟨c, p, block, below⟩ := mem_nestedOfBlocks.mp inner
        exact ih c p block below

end Mandate.Delegation

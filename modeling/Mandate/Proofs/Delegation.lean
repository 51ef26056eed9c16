import Mandate.Delegation.Archive
import Mandate.Delegation.Draft
import Mandate.Proofs.Table

/-!
# What holds of a delegation with all that is attached to it

Attaching is the only way in which one delegation comes to contain another, so a property that every
fresh delegation has, and that attaching keeps, holds at any depth. Well-formedness is such a property:
every attachment stands at its own address, and the caveats of the capabilities are tables in order.
-/

namespace Mandate

namespace Delegation

/-- A property of a delegation and of everything attached to it, one to another. -/
inductive Hereditary (P : Delegation → Prop) : Delegation → Prop where
  | intro {d : Delegation} (self : P d)
      (attached : ∀ c p, (c, p) ∈ d.blocks → Hereditary P p) : Hereditary P d

/-- What the data of a delegation promises apart from its signature. -/
structure WellFormed (d : Delegation) : Prop where
  cid_eq : ∀ c p, (c, p) ∈ d.blocks → p.cid = c
  caveats_sorted : ∀ c ∈ d.capabilities, c.caveats.Sorted

variable {P : Delegation → Prop} {d p : Delegation}

theorem Hereditary.self (h : d.Hereditary P) : P d := by
  cases h with
  | intro self _ => exact self

theorem Hereditary.attached (h : d.Hereditary P) {c : Cid} (mem : (c, p) ∈ d.blocks) :
    p.Hereditary P := by
  cases h with
  | intro _ attached => exact attached c p mem

theorem Hereditary.of_lookup (h : d.Hereditary P) {c : Cid} (found : d.blocks.lookup c = some p) :
    p.Hereditary P :=
  h.attached (Table.mem_of_lookup found)

/-- Without attachments there is nothing more to show. -/
theorem Hereditary.of_blocks_nil (h : P d) (none : d.blocks = []) : d.Hereditary P :=
  .intro h (fun c p mem => by simp [none] at mem)

theorem mem_blocks_attach {c : Cid} {q : Delegation} (mem : (c, q) ∈ (d.attach p).blocks) :
    (c = p.cid ∧ q = p) ∨ (c, q) ∈ d.blocks := by
  unfold attach at mem
  split at mem
  · exact (Table.mem_insert mem).imp_left (by simp)
  · exact Or.inr mem

@[simp] theorem attach_payload (d p : Delegation) : (d.attach p).payload = d.payload := by
  unfold attach
  split <;> rfl

@[simp] theorem attach_capabilities (d p : Delegation) :
    (d.attach p).capabilities = d.capabilities := by
  simp [capabilities]

/-! ## Without attachments -/

/-- The delegation without what is attached to it. -/
def bare (d : Delegation) : Delegation := { d with blocks := [] }

@[simp] theorem bare_attach (d p : Delegation) : (d.attach p).bare = d.bare := by
  unfold attach
  split <;> rfl

@[simp] theorem bare_attachAll (d : Delegation) (ps : List Delegation) :
    (ps.foldl attach d).bare = d.bare := by
  induction ps generalizing d with
  | nil => rfl
  | cons p ps ih => rw [List.foldl_cons, ih, bare_attach]

theorem ofSigned_eq_ok {payload : Payload} {signature : Bytes} {attached : List Delegation}
    (h : ofSigned payload signature attached = .ok d) :
    ∃ bytes, block? signature payload = some bytes ∧
      d.bare = ⟨payload, signature, bytes, .ofBlock bytes, []⟩ ∧ d = attached.foldl attach d.bare := by
  unfold ofSigned at h
  split at h
  · cases h
  case h_2 bytes written =>
    obtain rfl := Except.ok.inj h
    have same : (attached.foldl attach ⟨payload, signature, bytes, .ofBlock bytes, []⟩).bare =
        ⟨payload, signature, bytes, .ofBlock bytes, []⟩ := bare_attachAll _ attached
    exact ⟨bytes, written, same, by rw [same]⟩

/-- What is read keeps the bytes that it was read from. -/
theorem eq_of_ofBytes {bytes : Bytes} (h : ofBytes bytes = .ok d) :
    ∃ signature payload, Cbor.readAll? (readBlock? Cbor.nestingLimit) bytes = some (signature, payload) ∧
      d = ⟨payload, signature, bytes, .ofBlock bytes, []⟩ := by
  unfold ofBytes at h
  split at h
  case h_1 signature payload read =>
    cases h
    exact ⟨signature, payload, read, rfl⟩
  case h_2 => cases h

/-! ## What attaching keeps -/

theorem Hereditary.attach (keeps : ∀ d p : Delegation, P d → P (d.attach p)) (hd : d.Hereditary P)
    (hp : p.Hereditary P) : (d.attach p).Hereditary P := by
  refine .intro (keeps d p hd.self) ?_
  intro c q mem
  rcases mem_blocks_attach mem with ⟨-, rfl⟩ | earlier
  · exact hp
  · exact hd.attached earlier

theorem Hereditary.attachAll {ps : List Delegation} (keeps : ∀ d p : Delegation, P d → P (d.attach p))
    (hd : d.Hereditary P) (hps : ∀ p ∈ ps, p.Hereditary P) :
    (ps.foldl Delegation.attach d).Hereditary P := by
  induction ps generalizing d with
  | nil => exact hd
  | cons p ps ih =>
      exact ih (hd.attach keeps (hps p List.mem_cons_self))
        (fun q hq => hps q (List.mem_cons_of_mem _ hq))

theorem WellFormed.attach (hd : d.WellFormed) (p : Delegation) : (d.attach p).WellFormed where
  cid_eq c q mem := by
    rcases mem_blocks_attach mem with ⟨rfl, rfl⟩ | earlier
    · rfl
    · exact hd.cid_eq c q earlier
  caveats_sorted := by simpa using hd.caveats_sorted

/-! ## Proofs -/

theorem map_cid_proofs (own : ∀ c p, d.blocks.lookup c = some p → p.cid = c) :
    d.proofs.map (·.cid) = d.payload.proofs := by
  rw [proofs, List.map_map]
  refine (List.map_congr_left fun c _ => ?_).trans (List.map_id _)
  simp only [Function.comp_apply]
  split
  case h_1 p attached => exact own c p attached
  case h_2 => rfl

/-- What is cited is a proof in the same place, inline if it is attached. -/
theorem exists_proof (own : ∀ c p, d.blocks.lookup c = some p → p.cid = c) {i : Nat} {c : Cid}
    (cites : d.payload.proofs[i]? = some c) :
    ∃ q, d.proofs[i]? = some q ∧ q.cid = c ∧ ∀ p, q = .inline p ↔ d.blocks.lookup c = some p := by
  rw [proofs, List.getElem?_map, cites]
  cases found : d.blocks.lookup c with
  | some p => exact ⟨.inline p, by simp [found], own c p found, by simp⟩
  | none => exact ⟨.link c, by simp [found], rfl, by simp⟩

/-! ## Parts of a delegation -/

mutual

/-- A delegation and all that is attached to it, one to another. -/
def nested : Delegation → List Delegation
  | ⟨payload, signature, bytes, cid, blocks⟩ =>
    ⟨payload, signature, bytes, cid, blocks⟩ :: nestedOfBlocks blocks

def nestedOfBlocks : List (Cid × Delegation) → List Delegation
  | [] => []
  | (_, d) :: rest => nested d ++ nestedOfBlocks rest

end

mutual

theorem length_nested : (d : Delegation) → d.nested.length = d.size
  | ⟨_, _, _, _, blocks⟩ => by
      rw [nested, size, List.length_cons, length_nestedOfBlocks blocks, Nat.add_comm]

theorem length_nestedOfBlocks : (blocks : List (Cid × Delegation)) →
    (nestedOfBlocks blocks).length = sizeOfBlocks blocks
  | [] => rfl
  | (_, d) :: rest => by
      rw [nestedOfBlocks, sizeOfBlocks, List.length_append, length_nested d,
        length_nestedOfBlocks rest]

end

theorem self_mem_nested (d : Delegation) : d ∈ d.nested := by
  cases d
  simp [nested]

theorem mem_nestedOfBlocks {e : Delegation} {blocks : List (Cid × Delegation)} :
    e ∈ nestedOfBlocks blocks ↔ ∃ c p, (c, p) ∈ blocks ∧ e ∈ p.nested := by
  induction blocks with
  | nil => simp [nestedOfBlocks]
  | cons block rest ih =>
      obtain ⟨c, p⟩ := block
      rw [nestedOfBlocks, List.mem_append, ih]
      simp only [List.mem_cons, Prod.mk.injEq]
      constructor
      · rintro (here | ⟨c', q, later, below⟩)
        · exact ⟨c, p, Or.inl ⟨rfl, rfl⟩, here⟩
        · exact ⟨c', q, Or.inr later, below⟩
      · rintro ⟨c', q, ⟨rfl, rfl⟩ | later, below⟩
        · exact Or.inl below
        · exact Or.inr ⟨c', q, later, below⟩

theorem size_lt_of_attached {d p : Delegation} {c : Cid} (attached : (c, p) ∈ d.blocks) :
    p.size < d.size := by
  have counted : ∀ blocks : List (Cid × Delegation), (c, p) ∈ blocks →
      p.size ≤ sizeOfBlocks blocks := by
    intro blocks mem
    induction blocks with
    | nil => cases mem
    | cons block rest ih =>
        rw [sizeOfBlocks]
        rcases List.mem_cons.mp mem with rfl | later
        · exact Nat.le_add_right _ _
        · exact (ih later).trans (Nat.le_add_left _ _)
  obtain ⟨_, _, _, _, blocks⟩ := d
  have below := counted blocks attached
  rw [size]
  omega

mutual

/-- What is attached to a part of a delegation is a part of it too. -/
theorem mem_nested_of_attached {d p : Delegation} {c : Cid} (attached : (c, p) ∈ d.blocks) :
    (e : Delegation) → d ∈ e.nested → p ∈ e.nested
  | ⟨payload, signature, bytes, cid, blocks⟩, mem => by
      rw [nested] at mem ⊢
      rcases List.mem_cons.mp mem with rfl | inner
      · exact List.mem_cons_of_mem _ (mem_nestedOfBlocks.mpr ⟨c, p, attached, p.self_mem_nested⟩)
      · exact List.mem_cons_of_mem _ (mem_nestedOfBlocks_of_attached attached blocks inner)

theorem mem_nestedOfBlocks_of_attached {d p : Delegation} {c : Cid}
    (attached : (c, p) ∈ d.blocks) : (blocks : List (Cid × Delegation)) →
      d ∈ nestedOfBlocks blocks → p ∈ nestedOfBlocks blocks
  | [], mem => by simp [nestedOfBlocks] at mem
  | (_, e) :: rest, mem => by
      rw [nestedOfBlocks] at mem ⊢
      rcases List.mem_append.mp mem with here | later
      · exact List.mem_append_left _ (mem_nested_of_attached attached e here)
      · exact List.mem_append_right _ (mem_nestedOfBlocks_of_attached attached rest later)

end

end Delegation

namespace Invocation

theorem delegation_ofDelegation {d : Delegation} {i : Invocation} (h : ofDelegation d = .ok i) :
    i.delegation = d := by
  unfold ofDelegation at h
  split at h
  · cases h
    rfl
  · cases h

end Invocation

namespace Draft

open Delegation

variable {draft : Draft} {signer : Signer} {d : Delegation}

/-- What signing comes to. -/
theorem ofSigned_of_sign (h : draft.sign signer = .ok d) :
    ∃ audience signed signature, draft.audience = some audience ∧
      (draft.payload signer.did audience).encode? = some signed ∧
      signer.sign signed = some signature ∧
      ofSigned (draft.payload signer.did audience) signature draft.attached = .ok d := by
  unfold sign at h
  split at h
  · cases h
  case h_2 audience named =>
    simp only at h
    split at h
    · cases h
    case h_2 signed written =>
      split at h
      · cases h
      case h_2 signature made => exact ⟨audience, signed, signature, named, written, made, h⟩

/-- What a signed delegation is made of. -/
theorem sign_eq_ok (h : draft.sign signer = .ok d) :
    ∃ audience signed, draft.audience = some audience ∧
      d.payload = draft.payload signer.did audience ∧ d.payload.encode? = some signed ∧
      signer.sign signed = some d.signature ∧ block? d.signature d.payload = some d.bytes ∧
      d.cid = .ofBlock d.bytes := by
  obtain ⟨audience, signed, signature, named, written, made, sealed⟩ := ofSigned_of_sign h
  obtain ⟨bytes, block, same, -⟩ := ofSigned_eq_ok sealed
  have payload : d.payload = draft.payload signer.did audience := congrArg Delegation.payload same
  have given : d.signature = signature := congrArg Delegation.signature same
  have encoding : d.bytes = bytes := congrArg Delegation.bytes same
  have cid : d.cid = .ofBlock bytes := congrArg Delegation.cid same
  rw [payload, given, encoding, cid]
  exact ⟨audience, signed, named, rfl, written, made, block, rfl⟩

/-- A signed delegation has what it cites inline, and nothing else, attached. -/
theorem hereditary_sign {P : Delegation → Prop} (keeps : ∀ d p : Delegation, P d → P (d.attach p))
    (self : P d.bare) (inline : ∀ p, .inline p ∈ draft.proofs → p.Hereditary P)
    (h : draft.sign signer = .ok d) : d.Hereditary P := by
  obtain ⟨_, _, _, -, -, -, sealed⟩ := ofSigned_of_sign h
  obtain ⟨_, -, -, attached⟩ := ofSigned_eq_ok sealed
  rw [attached]
  refine Hereditary.attachAll keeps (.of_blocks_nil self rfl) ?_
  intro p mem
  obtain ⟨proof, cited, same⟩ := List.mem_filterMap.mp mem
  cases proof with
  | inline q =>
      cases same
      exact inline p cited
  | link c => cases same

/-- Whoever signs, a draft with ordered caveats becomes a well-formed delegation if what it cites inline is
well-formed. -/
theorem wellFormed_sign (hc : ∀ c ∈ draft.capabilities, c.caveats.Sorted)
    (hp : ∀ p, .inline p ∈ draft.proofs → p.Hereditary WellFormed)
    (h : draft.sign signer = .ok d) : d.Hereditary WellFormed := by
  obtain ⟨audience, _, -, payload, -⟩ := sign_eq_ok h
  have capabilities : d.capabilities = draft.capabilities := congrArg Payload.capabilities payload
  refine hereditary_sign (fun d p hd => hd.attach p) ⟨by simp [bare], ?_⟩ hp h
  change ∀ c ∈ d.capabilities, _
  rw [capabilities]
  exact hc

end Draft

end Mandate

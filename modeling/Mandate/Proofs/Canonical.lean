import Mandate.Proofs.Sealed

/-!
# What the address of a delegation depends on

Signing writes a delegation in one way, so the address of a signed delegation is that of its signature and
payload. Reading accepts other spellings of the same content and takes the address from the bytes as they
are, while the signature is checked over the payload as it would be written. So whoever holds a delegation
can give it another address at which it is just as valid.
-/

namespace Mandate

open Cbor

namespace Delegation

/-- Whether a delegation stands in the form in which signing writes it. -/
structure IsCanonical (d : Delegation) : Prop where
  block : block? d.signature d.payload = some d.bytes
  address : d.cid = .ofBlock d.bytes

variable {d e : Delegation} {bytes other : Bytes}

/-- The content of a delegation in canonical form determines its bytes and its address. -/
theorem IsCanonical.unique (hd : d.IsCanonical) (he : e.IsCanonical) (payloads : e.payload = d.payload)
    (signatures : e.signature = d.signature) : e.bytes = d.bytes ∧ e.cid = d.cid := by
  have written := he.block
  rw [payloads, signatures, hd.block] at written
  have same : e.bytes = d.bytes := (Option.some.inj written).symm
  exact ⟨same, by rw [he.address, hd.address, same]⟩

theorem isCanonical_sign {draft : Draft} {signer : Signer} (h : draft.sign signer = .ok d) :
    d.IsCanonical := by
  obtain ⟨_, _, -, -, -, -, block, address⟩ := Draft.sign_eq_ok h
  exact ⟨block, address⟩

/-- Of the head of a block, only its size is looked at. -/
theorem ofBytes_respell (same : readArgument? .array other = readArgument? .array bytes)
    (h : ofBytes bytes = .ok d) : ofBytes other = .ok { d with bytes := other, cid := .ofBlock other } := by
  obtain ⟨signature, payload, read, rfl⟩ := eq_of_ofBytes h
  have blocks : readBlock? nestingLimit other = readBlock? nestingLimit bytes := by
    rw [nestingLimit, readBlock?, readBlock?, same]
  rw [readAll?, ← blocks] at read
  rw [ofBytes, readAll?, read]

/-- A block begins with a head of size two. -/
theorem exists_head_of_ofBytes (h : ofBytes bytes = .ok d) :
    ∃ rest, readArgument? .array bytes = some (2, rest) := by
  obtain ⟨signature, payload, read, -⟩ := eq_of_ofBytes h
  unfold readAll? at read
  split at read
  case h_1 block whole =>
    rw [nestingLimit] at whole
    obtain ⟨⟨size, rest⟩, head, whole⟩ := Option.bind_eq_some_iff.mp whole
    obtain ⟨_, -, whole⟩ := Option.bind_eq_some_iff.mp whole
    obtain ⟨_, -, whole⟩ := Option.bind_eq_some_iff.mp whole
    simp only at whole
    split at whole
    case isTrue two => exact ⟨rest, by rw [head, two]⟩
    case isFalse => cases whole
  case h_2 => cases read

/-- A block with its size in the first byte, as it is written. -/
def shortSpelling (rest : Bytes) : Bytes := 0x82 :: rest

/-- A block with its size in a byte of its own. -/
def longSpelling (rest : Bytes) : Bytes := 0x98 :: 0x02 :: rest

theorem readArgument?_shortSpelling (rest : Bytes) :
    readArgument? .array (shortSpelling rest) = some (2, rest) := rfl

theorem readArgument?_longSpelling (rest : Bytes) :
    readArgument? .array (longSpelling rest) = some (2, rest) := by
  have one : Bytes.take? 1 (0x02 :: rest) = some ([0x02], rest) := Bytes.take?_append [0x02] rest
  change (Bytes.take? 1 (0x02 :: rest)).bind (fun r => some (Bytes.toNat r.1, r.2)) = _
  rw [one]
  rfl

/-- Whatever is read can be spelled in another way. -/
theorem exists_other_spelling (h : ofBytes bytes = .ok d) :
    ∃ other, other ≠ bytes ∧ readArgument? .array other = readArgument? .array bytes := by
  obtain ⟨rest, head⟩ := exists_head_of_ofBytes h
  rw [head]
  by_cases short : bytes = shortSpelling rest
  · refine ⟨longSpelling rest, ?_, readArgument?_longSpelling rest⟩
    rw [short]
    simp [longSpelling, shortSpelling]
  · exact ⟨shortSpelling rest, Ne.symm short, readArgument?_shortSpelling rest⟩

/-- What is read from bytes is addressed by just these bytes. If it is in canonical form, it has the address
of every signed delegation with the same content. Canonical or not, there are other bytes from which the
same content is read, with the same verdict on its signature and an address of their own. -/
theorem address_ofBytes (h : ofBytes bytes = .ok d) :
    (d.bytes = bytes ∧ d.cid = .ofBlock bytes) ∧
    (block? d.signature d.payload = some bytes →
      ∀ (draft : Draft) (signer : Signer) (e : Delegation), draft.sign signer = .ok e →
        e.payload = d.payload → e.signature = d.signature → e.bytes = bytes ∧ e.cid = d.cid) ∧
    ∃ other e, other ≠ bytes ∧ ofBytes other = .ok e ∧
      (e.payload = d.payload ∧ e.signature = d.signature) ∧
      (e.bytes = other ∧ e.cid = .ofBlock other) ∧
      ∀ directory, e.verifySignature directory = d.verifySignature directory := by
  obtain ⟨signature, payload, read, same⟩ := eq_of_ofBytes h
  have kept : d.bytes = bytes ∧ d.cid = .ofBlock bytes := by
    rw [same]
    exact ⟨rfl, rfl⟩
  refine ⟨kept, ?_, ?_⟩
  · intro written draft signer e signed payloads signatures
    have canonical : d.IsCanonical := by
      refine ⟨?_, ?_⟩
      · rw [written, kept.1]
      · rw [kept.1, kept.2]
    obtain ⟨bytes', cid⟩ := canonical.unique (isCanonical_sign signed) payloads signatures
    exact ⟨bytes'.trans kept.1, cid⟩
  · obtain ⟨other, differ, head⟩ := exists_other_spelling h
    refine ⟨other, _, differ, ofBytes_respell head h, ⟨rfl, rfl⟩, ⟨rfl, rfl⟩, ?_⟩
    exact verifySignature_congr rfl rfl

end Delegation

namespace Sample

/-- What Alice lets Bob do with her store. -/
def granted : Draft :=
  ⟨some bob, [⟨"store/*", alice.toText, []⟩], [], none, none, [], none⟩

theorem ordered_granted : granted.Ordered where
  capabilities := by simp [granted, Fields.Ordered, Table.Sorted]
  facts := by simp [granted]

/-- What Bob has in hand, and its bytes with the size of the block in a byte of its own. -/
theorem exists_granted :
    ∃ d rest, granted.sign (echo alice) = .ok d ∧
      d.bytes = Delegation.shortSpelling rest ∧ Delegation.ofBytes d.bytes = .ok d.bare ∧
      Cid.ofBlock (Delegation.longSpelling rest) ≠ d.cid ∧
      d.verifySignature (context limited).directory = .ok () := by
  have signs : (granted.sign (echo alice)).toOption.any (fun d =>
      d.bytes.head? == some 0x82 && decide d.payload.Readable &&
        decide (Cid.ofBlock (Delegation.longSpelling d.bytes.tail) ≠ d.cid) &&
        (d.verifySignature (context limited).directory).toBool) = true := by
    decide +kernel
  obtain ⟨d, made, h⟩ := exists_of_any signs
  simp only [Bool.and_eq_true, beq_iff_eq, decide_eq_true_eq] at h
  obtain ⟨⟨⟨short, readable⟩, differ⟩, verified⟩ := h
  obtain ⟨audience, signed, named, payload, -, -, block, address⟩ := Draft.sign_eq_ok made
  have ordered : d.payload.Ordered := by
    rw [payload]
    exact ordered_granted.payload _ _
  refine ⟨d, d.bytes.tail, made, ?_, ?_, differ, ?_⟩
  · exact List.eq_cons_of_mem_head? short
  · rw [Delegation.ofBytes_block ordered block, if_pos readable, ← address]
    rfl
  · cases verdict : d.verifySignature (context limited).directory with
    | ok => rfl
    | error e => simp [verdict, Except.toBool] at verified

end Sample

/-- What Bob got from Alice, he can hand on under another address. -/
theorem Delegation.address_ofBytes_granted :
    ∃ d other e, Sample.granted.sign (Sample.echo Sample.alice) = .ok d ∧
      Delegation.ofBytes d.bytes = .ok d.bare ∧ other ≠ d.bytes ∧
      Delegation.ofBytes other = .ok e ∧ e.payload = d.payload ∧ e.signature = d.signature ∧
      e.cid = .ofBlock other := by
  obtain ⟨d, rest, made, -, read, -⟩ := Sample.exists_granted
  obtain ⟨-, -, other, e, differ, respelled, ⟨payload, signature⟩, ⟨-, address⟩, -⟩ :=
    Delegation.address_ofBytes read
  exact ⟨d, other, e, made, read, differ, respelled, payload, signature, address⟩

/-- The bytes of a grant with a longer head are read, although no writer makes them, to a valid delegation
of the same content at another address. -/
theorem Delegation.ofBytes_not_canonical :
    ∃ d rest e, Sample.granted.sign (Sample.echo Sample.alice) = .ok d ∧
      d.bytes = Delegation.shortSpelling rest ∧
      Delegation.ofBytes (Delegation.longSpelling rest) = .ok e ∧
      Delegation.block? e.signature e.payload ≠ some e.bytes ∧
      e.payload = d.payload ∧ e.signature = d.signature ∧ e.cid ≠ d.cid ∧
      e.verifySignature (Sample.context Sample.limited).directory = .ok () := by
  obtain ⟨d, rest, made, short, read, differ, verified⟩ := Sample.exists_granted
  have head : readArgument? .array (longSpelling rest) = readArgument? .array d.bytes := by
    rw [short, readArgument?_longSpelling, readArgument?_shortSpelling]
  have block : block? d.signature d.payload = some d.bytes := (isCanonical_sign made).block
  refine ⟨d, rest, _, made, short, ofBytes_respell head read, ?_, rfl, rfl, differ, ?_⟩
  · intro written
    have same : longSpelling rest = d.bytes := Option.some.inj (written.symm.trans block)
    simp [short, longSpelling, shortSpelling] at same
  · exact (verifySignature_congr (d := d) rfl rfl _).trans verified

end Mandate

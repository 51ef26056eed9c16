import Mandate.Proofs.Payload
import Mandate.Proofs.Soundness
import Mathlib.Algebra.Order.BigOperators.Group.List

/-!
# Signed delegations are read back

A signed delegation is a block of its signature and its payload. Reading that block gives back the
delegation without its attachments, unless some caveat or fact has more levels than the reader enters: the
writer goes to any depth, the reader does not.
-/

namespace Mandate

open Cbor

/-- Whether no caveat or fact has more levels than are left where the reader of a block meets it. -/
def Payload.Readable (p : Payload) : Prop := p.Fits (nestingLimit - 5)

instance (p : Payload) : Decidable p.Readable := inferInstanceAs (Decidable (p.Fits _))

/-- Some reader enters levels enough for a payload. -/
theorem Payload.exists_fits (p : Payload) : ∃ depth, p.Fits depth := by
  refine ⟨(p.capabilities.map (·.caveats.levels)).sum + (p.facts.map Fields.levels).sum, ?_, ?_⟩
  · intro c hc
    have counted : c.caveats.levels ≤ (p.capabilities.map (·.caveats.levels)).sum :=
      List.le_sum_of_mem (List.mem_map_of_mem hc)
    omega
  · intro f hf
    have counted : Fields.levels f ≤ (p.facts.map Fields.levels).sum :=
      List.le_sum_of_mem (List.mem_map_of_mem hf)
    omega

namespace Delegation

variable {payload : Payload} {signature bytes : Bytes}

/-- Signatures are checked without a look at attachments or bytes. -/
theorem verifySignature_congr {d d' : Delegation} (payloads : d'.payload = d.payload)
    (signatures : d'.signature = d.signature) (directory : Directory) :
    d'.verifySignature directory = d.verifySignature directory := by
  simp only [verifySignature, issuer, payloads, signatures]

/-- A block is read back by a reader for which its payload fits, and by no other. -/
theorem reads_block (ordered : payload.Ordered) (h : block? signature payload = some bytes)
    (depth : Nat) :
    Reads (readBlock? (depth + 5)) bytes
      (if payload.Fits depth then some (signature, payload) else none) := by
  rw [block?, encode?] at h
  simp only [Option.bind_eq_bind, Option.bind_eq_some_iff, Option.some.injEq] at h
  obtain ⟨encoded, written, head, begun, rfl⟩ := h
  obtain ⟨rfl, each⟩ := encodeItems?_eq_some written
  have first : encodeBytes? signature = some (encoding (.bytes signature)) := by
    have own := each (.bytes signature) (by simp)
    rwa [encode?] at own
  have second : payload.encode? = some (encoding payload.toIpld) := each payload.toIpld (by simp)
  intro rest
  have split : head ++ ([Ipld.bytes signature, payload.toIpld].map encoding).flatten ++ rest =
      head ++ (encoding (.bytes signature) ++ (encoding payload.toIpld ++ rest)) := by simp
  rw [split, readBlock?, reads_head begun]
  simp only [Option.bind_eq_bind, Option.bind_some, reads_bytes first (depth + 4) _, Option.map_some,
    Payload.reads_back ordered second depth rest]
  split <;> rfl

/-- A block is of one signature and of one payload. -/
theorem block_inj {payload' : Payload} {signature' : Bytes} (ordered : payload.Ordered)
    (ordered' : payload'.Ordered) (h : block? signature payload = some bytes)
    (h' : block? signature' payload' = some bytes) : signature = signature' ∧ payload = payload' := by
  obtain ⟨depth, fits⟩ := payload.exists_fits
  have read := (reads_block ordered h depth).readAll
  have read' := (reads_block ordered' h' depth).readAll
  rw [read, if_pos fits] at read'
  split at read'
  · simpa using read'
  · cases read'

/-- The delegation of a block is the one that was written, if it is read at all. -/
theorem ofBytes_block (ordered : payload.Ordered) (h : block? signature payload = some bytes) :
    ofBytes bytes =
      if payload.Readable then .ok ⟨payload, signature, bytes, .ofBlock bytes, []⟩
      else .error .decode := by
  have read : readAll? (readBlock? nestingLimit) bytes =
      if payload.Readable then some (signature, payload) else none :=
    (reads_block ordered h (nestingLimit - 5)).readAll
  rw [ofBytes, read]
  by_cases readable : payload.Readable
  · simp only [if_pos readable]
  · simp only [if_neg readable]

end Delegation

namespace Draft

variable {draft : Draft} {signer : Signer} {d : Delegation}

/-- All maps in the caveats and facts of a draft are in order. -/
structure Ordered (draft : Draft) : Prop where
  capabilities : ∀ c ∈ draft.capabilities, c.caveats.Ordered
  facts : ∀ f ∈ draft.facts, f.Ordered

theorem Ordered.payload (ordered : draft.Ordered) (issuer audience : Did) :
    (draft.payload issuer audience).Ordered :=
  ⟨ordered.capabilities, ordered.facts⟩

/-- What is read from the bytes of a signed delegation is that delegation, with nothing attached and with the
signature over the same bytes, unless it is nested too deeply to be read. -/
theorem ofBytes_sign (ordered : draft.Ordered) (h : draft.sign signer = .ok d) :
    (d.payload.Readable →
      ∃ d', Delegation.ofBytes d.bytes = .ok d' ∧
        (d'.payload = d.payload ∧ d'.signature = d.signature ∧ d'.bytes = d.bytes ∧ d'.cid = d.cid ∧
          d'.blocks = []) ∧
        (∃ audience signed, draft.audience = some audience ∧
          d'.payload = draft.payload signer.did audience ∧ signer.sign signed = some d'.signature ∧
          d'.payload.encode? = some signed) ∧
        ∀ directory, d'.verifySignature directory = d.verifySignature directory) ∧
    (¬ d.payload.Readable → Delegation.ofBytes d.bytes = .error .decode) := by
  obtain ⟨audience, signed, named, payload, written, made, block, cid⟩ := sign_eq_ok h
  have inOrder : d.payload.Ordered := by
    rw [payload]
    exact ordered.payload _ _
  have read := Delegation.ofBytes_block inOrder block
  constructor
  · intro readable
    rw [if_pos readable, ← cid] at read
    refine ⟨d.bare, read, ⟨rfl, rfl, rfl, rfl, rfl⟩, ?_, ?_⟩
    · exact ⟨audience, signed, named, payload, made, written⟩
    · exact Delegation.verifySignature_congr rfl rfl
  · intro deep
    rwa [if_neg deep] at read

end Draft

namespace Sample

/-- A value of every kind, some of them inside others. -/
def everyKind : Ipld :=
  .list [.null, .bool true, .integer (-18446744073709551616), .float ⟨0x7fefffffffffffff⟩,
    .map [("b", .bytes [0, 255]), ("long", .link (.ofBlock [])), ("s", .string "\u00e9")]]

/-- A draft in which nothing is left out. -/
def full : Draft where
  audience := some bob
  capabilities := [⟨"store/add", alice.toText, [("all", everyKind), ("size", .integer 5)]⟩, ⟨"*", "", []⟩]
  proofs := [.link (.ofBlock [1])]
  expiration := some 18446744073709551615
  notBefore := some 0
  facts := [[], [("fact", everyKind)]]
  nonce := some ""

/-- Null in a number of lists, one inside another. -/
def nested : Nat → Ipld
  | 0 => .null
  | n + 1 => .list [nested n]

/-- A draft with one nested caveat. -/
def deep (n : Nat) : Draft :=
  ⟨some bob, [⟨"store/add", alice.toText, [("x", nested n)]⟩], [], none, none, [], none⟩

theorem ordered_everyKind : everyKind.Ordered := by
  refine .list ?_
  simp only [List.forall_mem_cons]
  refine ⟨.scalar trivial, .scalar trivial, .scalar trivial, .scalar trivial, .map ?_ ?_, by simp⟩
  · rw [Table.Sorted]
    decide
  · simp only [List.forall_mem_cons]
    exact ⟨.scalar trivial, .scalar trivial, .scalar trivial, by simp⟩

theorem ordered_full : full.Ordered where
  capabilities := by
    simp only [full, List.forall_mem_cons]
    refine ⟨⟨by rw [Table.Sorted]; decide, ?_⟩, ⟨by rw [Table.Sorted]; decide, by simp⟩, by simp⟩
    simp only [List.forall_mem_cons]
    exact ⟨ordered_everyKind, .scalar trivial, by simp⟩
  facts := by
    simp only [full, List.forall_mem_cons]
    refine ⟨⟨by rw [Table.Sorted]; decide, by simp⟩, ⟨by rw [Table.Sorted]; decide, ?_⟩, by simp⟩
    simpa using ordered_everyKind

theorem ordered_nested (n : Nat) : (nested n).Ordered := by
  induction n with
  | zero => exact .scalar trivial
  | succ n ih => exact .list (by simpa using ih)

theorem ordered_deep (n : Nat) : (deep n).Ordered where
  capabilities := by simpa [deep, Fields.Ordered, Table.Sorted] using ordered_nested n
  facts := by simp [deep]

end Sample

/-- Values of every kind come back. -/
theorem Draft.ofBytes_sign_full :
    ∃ d d', Sample.full.sign (Sample.echo Sample.alice) = .ok d ∧
      Delegation.ofBytes d.bytes = .ok d' ∧ d'.payload = d.payload ∧ d'.signature = d.signature ∧
      d'.cid = d.cid := by
  have signs : (Sample.full.sign (Sample.echo Sample.alice)).toOption.any
      (fun d => decide d.payload.Readable) = true := by
    decide +kernel
  obtain ⟨d, made, readable⟩ := Sample.exists_of_any signs
  obtain ⟨d', read, ⟨payload, signature, -, cid, -⟩, -⟩ :=
    (Draft.ofBytes_sign Sample.ordered_full made).1 (of_decide_eq_true readable)
  exact ⟨d, d', made, read, payload, signature, cid⟩

/-- Of 300 lists inside one another, the writer makes a delegation that the reader refuses. -/
theorem Draft.ofBytes_sign_deep :
    ∃ d, (Sample.deep 300).sign (Sample.echo Sample.alice) = .ok d ∧
      Delegation.ofBytes d.bytes = .error .decode := by
  have signs : ((Sample.deep 300).sign (Sample.echo Sample.alice)).toOption.any
      (fun d => decide (¬ d.payload.Readable)) = true := by
    decide +kernel
  obtain ⟨d, made, exceeds⟩ := Sample.exists_of_any signs
  obtain ⟨audience, signed, named, payload, written, -, block, -⟩ := Draft.sign_eq_ok made
  have ordered : d.payload.Ordered := by
    rw [payload]
    exact (Sample.ordered_deep 300).payload _ _
  refine ⟨d, made, ?_⟩
  rw [Delegation.ofBytes_block ordered block, if_neg (of_decide_eq_true exceeds)]

end Mandate

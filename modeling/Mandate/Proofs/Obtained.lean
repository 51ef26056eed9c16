import Mandate.Proofs.Archive
import Mandate.Proofs.Cache
import Mandate.Proofs.Received
import Mandate.Proofs.Store

/-!
# Delegations, wherever they come from

A delegation that is not made here was taken from a store or found through a cache. All the same, each part
of it is addressed by its bytes, these were written for it or are what it was read from, and its proofs are
what it cites, those inline that are attached.
-/

namespace Mandate

open Cbor

theorem Draft.sign_of_invoke {draft : Draft} {signer : Signer} {i : Invocation}
    (h : draft.invoke signer = .ok i) : draft.sign signer = .ok i.delegation := by
  unfold invoke at h
  split at h
  case isTrue =>
    split at h
    case h_1 d signed => rw [signed, Invocation.delegation_ofDelegation h]
    case h_2 => cases h
  case isFalse => cases h

namespace Delegation

/-- A delegation that is made, or taken from where such are kept, in any of the ways there are. -/
inductive Obtained : Delegation → Prop where
  | signed {draft : Draft} {signer : Signer} {d : Delegation} (ordered : draft.Ordered)
      (inline : ∀ p, .inline p ∈ draft.proofs → Obtained p) (h : draft.sign signer = .ok d) : Obtained d
  | invoked {draft : Draft} {signer : Signer} {i : Invocation} (ordered : draft.Ordered)
      (inline : ∀ p, .inline p ∈ draft.proofs → Obtained p) (h : draft.invoke signer = .ok i) :
      Obtained i.delegation
  | read {bytes : Bytes} {d : Delegation} (h : ofBytes bytes = .ok d) : Obtained d
  | attached {d p : Delegation} (hd : Obtained d) (hp : Obtained p) : Obtained (d.attach p)
  | restored {archive : Bytes} {d : Delegation} (h : ofArchive archive = .ok d) : Obtained d
  | stored {ds : List Delegation} {c : Cid} {d : Delegation} (each : ∀ p ∈ ds, Obtained p)
      (h : (Store.ofInsertions ds).get? c = some d) : Obtained d
  | resolved {resolver : Option Resolver} {cache : ProofCache} {c : Cid} {d : Delegation}
      (known : ∀ c p, cache.cached? c = some p → Obtained p)
      (given : ∀ r, resolver = some r → ∀ c p, r.fetch c = .ok p → Obtained p)
      (h : (ProofCache.resolve resolver c cache).1 = .ok d) : Obtained d

variable {d p : Delegation}

/-- What fresh delegations have, and attaching keeps, all parts of any delegation have. -/
theorem Obtained.hereditary {P : Delegation → Prop} (keeps : ∀ d p : Delegation, P d → P (d.attach p))
    (made : ∀ (draft : Draft) (signer : Signer) (d : Delegation), draft.Ordered →
      draft.sign signer = .ok d → P d.bare)
    (fresh : ∀ (bytes : Bytes) (d : Delegation), ofBytes bytes = .ok d → P d) (obtained : d.Obtained) :
    d.Hereditary P := by
  induction obtained with
  | signed ordered _ h ih => exact Draft.hereditary_sign keeps (made _ _ _ ordered h) ih h
  | invoked ordered _ h ih =>
      have signed := Draft.sign_of_invoke h
      exact Draft.hereditary_sign keeps (made _ _ _ ordered signed) ih signed
  | read h =>
      refine .of_blocks_nil (fresh _ _ h) ?_
      obtain ⟨_, _, -, rfl⟩ := eq_of_ofBytes h
      rfl
  | attached _ _ hd hp => exact hd.attach keeps hp
  | restored h => exact hereditary_ofArchive keeps fresh h
  | stored _ h ih =>
      obtain ⟨d, hd, part, -⟩ := Store.mem_of_get? h
      exact (ih d hd).of_mem_nested part
  | resolved _ _ h known given =>
      rw [ProofCache.resolve_fst] at h
      rcases ProofCache.answer_eq_ok_iff.mp h with cached | ⟨-, r, asked, fetched⟩
      · exact known _ _ cached
      · exact given r asked _ _ (ProofCache.fetch_eq_ok_iff.mp fetched).1

theorem Built.obtained (built : d.Built) : d.Obtained := by
  induction built with
  | signed ordered _ h ih => exact .signed ordered ih h
  | read h => exact .read h
  | attached _ _ hd hp => exact .attached hd hp
  | restored h => exact .restored h

/-- What is true of each part of a delegation wherever that comes from. -/
structure Represented (d : Delegation) : Prop extends Intact d where
  address : d.cid = .ofBlock d.bytes
  /-- The bytes were written for the delegation, or it was read from them. -/
  origin : d.payload.Ordered ∧ block? d.signature d.payload = some d.bytes ∨
    ofBytes d.bytes = .ok d.bare

theorem Represented.attach (hd : d.Represented) (p : Delegation) : (d.attach p).Represented where
  toIntact := hd.toIntact.attach p
  address := by simpa using hd.address
  origin := by simpa using hd.origin

theorem represented_ofBytes {bytes : Bytes} (h : ofBytes bytes = .ok d) : d.Represented where
  toIntact := intact_ofBytes h
  address := by
    obtain ⟨_, _, -, rfl⟩ := eq_of_ofBytes h
    rfl
  origin := by
    obtain ⟨_, _, -, rfl⟩ := eq_of_ofBytes h
    exact Or.inr h

theorem represented_sign {draft : Draft} {signer : Signer} (ordered : draft.Ordered)
    (h : draft.sign signer = .ok d) : d.bare.Represented := by
  obtain ⟨audience, _, -, payload, -, -, block, address⟩ := Draft.sign_eq_ok h
  refine ⟨intact_sign ordered h, address, Or.inl ⟨?_, block⟩⟩
  change d.payload.Ordered
  rw [payload]
  exact ordered.payload _ _

theorem Obtained.represented (obtained : d.Obtained) : d.Hereditary Represented :=
  obtained.hereditary (fun _ p hd => hd.attach p) (fun _ _ _ ordered h => represented_sign ordered h)
    fun _ _ h => represented_ofBytes h

/-- Delegations with the same bytes say the same, however each of them came to these. -/
theorem Represented.bare_eq {e : Delegation} (hd : d.Represented) (he : e.Represented)
    (same : d.bytes = e.bytes) : d.bare = e.bare := by
  rcases hd.origin with ⟨ordered, block⟩ | read
  · rcases he.origin with ⟨ordered', block'⟩ | read'
    · obtain ⟨signatures, payloads⟩ := block_inj ordered ordered' (same ▸ block) block'
      have addresses : d.cid = e.cid := by rw [hd.address, he.address, same]
      simp only [bare, Delegation.mk.injEq]
      exact ⟨payloads, signatures, same, addresses, trivial⟩
    · exact (hd.content _ (same ▸ read')).symm
  · exact he.content _ (same ▸ read)

/-- Copies at one address differ in what is attached to them at most, unless their digests collide. -/
theorem Represented.bare_eq_or_collision {e : Delegation} (hd : d.Represented) (he : e.Represented)
    (same : d.cid = e.cid) : d.bare = e.bare ∨ d.bytes ≠ e.bytes ∧ sha256 d.bytes = sha256 e.bytes := by
  by_cases bytes : d.bytes = e.bytes
  · exact Or.inl (hd.bare_eq he bytes)
  · refine Or.inr ⟨bytes, ?_⟩
    rw [hd.address, he.address] at same
    simpa [Cid.ofBlock] using same

/-- A payload that was written has a written form, and so has one that was read if its floats are finite. -/
theorem Represented.exists_encode_iff (h : d.Represented) (short : d.bytes.length < UInt64.size) :
    (∃ b, d.payload.encode? = some b) ↔ d.payload.toIpld.Finite := by
  refine ⟨fun ⟨b, written⟩ => finite_of_encode d.payload.toIpld written, fun finite => ?_⟩
  rcases h.origin with ⟨-, block⟩ | read
  · exact exists_encode_of_mem_list block (by simp)
  · exact writable_of_ofBytes (d := d.bare) read short finite

/-- Attaching adds the address of what is attached, if that is cited, and leaves the others. -/
theorem mem_addresses_attach {c : Cid} :
    c ∈ (d.attach p).addresses ↔ c ∈ d.addresses ∨ c = p.cid ∧ c ∈ d.payload.proofs := by
  rw [addresses, addresses, ← Table.isSome_lookup_iff, ← Table.isSome_lookup_iff, Delegation.attach]
  split
  case isTrue cited =>
    by_cases same : c = p.cid
    · simp [same, cited]
    · simp [same, Table.lookup_insert_of_ne p d.blocks same]
  case isFalse unlisted =>
    refine (or_iff_left ?_).symm
    rintro ⟨rfl, cited⟩
    exact unlisted cited

/-- Wherever a delegation comes from, each part of it is addressed by its bytes and written unless it was read
with a float that is not finite, its attachments are cited and stand at their own addresses, and its proofs
are what it cites, inline where that is attached. Attaching adds at most one address to these. -/
theorem Obtained.representation (obtained : d.Obtained) :
    (∀ e ∈ d.nested,
      e.cid = .ofBlock e.bytes ∧
      ((∃ b, e.payload.encode? = some b) ∨ ofBytes e.bytes = .ok e.bare) ∧
      (e.bytes.length < UInt64.size →
        ((∃ b, e.payload.encode? = some b) ↔ e.payload.toIpld.Finite)) ∧
      (∀ c p, (c, p) ∈ e.blocks → c ∈ e.payload.proofs ∧ p.cid = c) ∧
      e.proofs.length = e.payload.proofs.length ∧
      ∀ (i : Nat) c, e.payload.proofs[i]? = some c → ∃ q : Proof, e.proofs[i]? = some q ∧ q.cid = c ∧
        (∀ p, q = .inline p ↔ (c, p) ∈ e.blocks ∧ e.blocks.lookup c = some p) ∧
        ((∃ p, q = .inline p) ↔ c ∈ e.addresses)) ∧
    (∀ (draft : Draft) (signer : Signer), draft.sign signer = .ok d → ∃ b, d.payload.encode? = some b) ∧
    ∀ p, (d.attach p).bare = d.bare ∧ (p.cid ∉ d.payload.proofs → d.attach p = d) ∧
      ∀ c, c ∈ (d.attach p).addresses ↔ c ∈ d.addresses ∨ c = p.cid ∧ c ∈ d.payload.proofs := by
  refine ⟨fun e mem => ?_, fun draft signer h => ?_, fun p => ⟨bare_attach d p, ?_, ?_⟩⟩
  · have part := (obtained.represented.of_mem_nested mem).self
    have own (c : Cid) (p : Delegation) (found : e.blocks.lookup c = some p) : p.cid = c :=
      part.own c p (Table.mem_of_lookup found)
    refine ⟨part.address, ?_, part.exists_encode_iff, ?_, List.length_map _, ?_⟩
    · exact part.origin.imp_left fun written => exists_encode_of_mem_list written.2 (by simp)
    · exact fun c p attached => ⟨part.cited c p attached, part.own c p attached⟩
    · intro i c cites
      obtain ⟨q, there, same, inline⟩ := exists_proof own cites
      refine ⟨q, there, same, fun p => ?_, ?_⟩
      · exact (inline p).trans ⟨fun found => ⟨Table.mem_of_lookup found, found⟩, And.right⟩
      · rw [addresses, ← Table.isSome_lookup_iff, Option.isSome_iff_exists]
        exact exists_congr inline
  · obtain ⟨_, signed, -, -, written, -⟩ := Draft.sign_eq_ok h
    exact ⟨signed, written⟩
  · exact fun unlisted => if_neg unlisted
  · exact fun c => mem_addresses_attach

end Delegation

theorem Delegation.representation_resolved :
    ∃ path d q, Sample.twice true = .ok (path, d) ∧
      (ProofCache.resolve (some (.ofStore (.ofInsertions [d]))) d.cid .empty).1 = .ok q ∧
      q.Obtained ∧ q.nested.length = 6 ∧
      (∀ e ∈ q.nested, e.cid = .ofBlock e.bytes ∧ e.proofs.length = e.payload.proofs.length) ∧
      (q.attach d).bare = q.bare := by
  have holds : (Sample.twice true).toOption.any (fun (_, d) =>
      (ProofCache.resolve (some (.ofStore (.ofInsertions [d]))) d.cid .empty).1.toOption.any
        fun q => decide (q.nested.length = 6)) = true := by
    decide +kernel
  obtain ⟨⟨path, d⟩, made, holds⟩ := Sample.exists_of_any holds
  obtain ⟨q, found, six⟩ := Sample.exists_of_any holds
  have stored (p : Delegation) (mem : p ∈ [d]) : p.Obtained := by
    obtain rfl := List.mem_singleton.mp mem
    exact (Sample.built_twice made).obtained
  have obtained : q.Obtained := by
    refine .resolved (by simp [ProofCache.cached?, ProofCache.empty]) ?_ found
    rintro _ ⟨⟩ c p fetched
    simp only [Resolver.ofStore] at fetched
    split at fetched
    case h_1 kept =>
      cases fetched
      exact .stored stored kept
    case h_2 => cases fetched
  obtain ⟨parts, -, attach⟩ := obtained.representation
  exact ⟨path, d, q, made, found, obtained, of_decide_eq_true six,
    fun e mem => ⟨(parts e mem).1, (parts e mem).2.2.2.2.1⟩, (attach d).1⟩

namespace Sample

/-- A delegation with a caveat that is not a number. -/
def notANumber : Bytes :=
  [0x82, 0x40, 0xa4,
    0x63, 0x61, 0x74, 0x74, 0x81, 0xa3,
      0x62, 0x6e, 0x62, 0xa1, 0x61, 0x78, 0xfb, 0x7f, 0xf8, 0, 0, 0, 0, 0, 0,
      0x63, 0x63, 0x61, 0x6e, 0x61, 0x2a,
      0x64, 0x77, 0x69, 0x74, 0x68, 0x67, 0x64, 0x69, 0x64, 0x3a, 0x78, 0x3a, 0x79,
    0x63, 0x61, 0x75, 0x64, 0x67, 0x64, 0x69, 0x64, 0x3a, 0x78, 0x3a, 0x79,
    0x63, 0x69, 0x73, 0x73, 0x67, 0x64, 0x69, 0x64, 0x3a, 0x78, 0x3a, 0x79,
    0x63, 0x70, 0x72, 0x66, 0x80]

end Sample

/-- What is read may have a payload that cannot be written. -/
theorem Delegation.obtained_not_written :
    ∃ d, Delegation.ofBytes Sample.notANumber = .ok d ∧ d.Obtained ∧ d.payload.encode? = none := by
  have reads : (Delegation.ofBytes Sample.notANumber).toOption.any
      (fun d => d.payload.encode?.isNone) = true := by
    decide +kernel
  obtain ⟨d, read, unwritten⟩ := Sample.exists_of_any reads
  exact ⟨d, read, .read read, Option.isNone_iff_eq_none.mp unwritten⟩

end Mandate

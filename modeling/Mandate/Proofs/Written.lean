import Mandate.Proofs.Citation

/-!
# What has a written form

A value is written part by part, so it has a written form only if all its parts have one. A signature is
checked over the payload as it is written afresh. So the caveats of a delegation with a good signature are
written too, and none of their numbers is infinite or not a number.
-/

namespace Mandate

namespace Cbor

/-- The items of a written list are written. -/
theorem exists_encode_of_mem_items {items : List Ipld} {encoded : List Bytes}
    (h : encodeItems? items = some encoded) {v : Ipld} (mem : v ∈ items) :
    ∃ b, encode? v = some b := by
  induction items generalizing encoded with
  | nil => cases mem
  | cons item rest ih =>
      rw [encodeItems?] at h
      obtain ⟨b, first, h⟩ := Option.bind_eq_some_iff.mp h
      obtain ⟨bs, others, -⟩ := Option.bind_eq_some_iff.mp h
      rcases List.mem_cons.mp mem with rfl | later
      · exact ⟨b, first⟩
      · exact ih others later

/-- The values of a written map are written. -/
theorem exists_encode_of_mem_values {entries : List (String × Ipld)}
    {encoded : List (Key × Bytes)} (h : encodeValues? entries = some encoded) {k : String} {v : Ipld}
    (mem : (k, v) ∈ entries) : ∃ b, encode? v = some b := by
  induction entries generalizing encoded with
  | nil => cases mem
  | cons entry rest ih =>
      obtain ⟨l, w⟩ := entry
      rw [encodeValues?] at h
      obtain ⟨b, first, h⟩ := Option.bind_eq_some_iff.mp h
      obtain ⟨bs, others, -⟩ := Option.bind_eq_some_iff.mp h
      rcases List.mem_cons.mp mem with same | later
      · cases same
        exact ⟨b, first⟩
      · exact ih others later

theorem exists_encode_of_mem_list {items : List Ipld} {b : Bytes}
    (h : encode? (.list items) = some b) {v : Ipld} (mem : v ∈ items) :
    ∃ b, encode? v = some b := by
  rw [encode?] at h
  obtain ⟨encoded, written, -⟩ := Option.bind_eq_some_iff.mp h
  exact exists_encode_of_mem_items written mem

theorem exists_encode_of_mem_map {entries : List (String × Ipld)} {b : Bytes}
    (h : encode? (.map entries) = some b) {k : String} {v : Ipld} (mem : (k, v) ∈ entries) :
    ∃ b, encode? v = some b := by
  rw [encode?] at h
  obtain ⟨encoded, written, -⟩ := Option.bind_eq_some_iff.mp h
  exact exists_encode_of_mem_values written mem

theorem isFinite_of_encode {x : Binary64} {b : Bytes} (h : encode? (.float x) = some b) :
    x.isFinite = true := by
  rw [encode?] at h
  split at h
  case isTrue finite => exact finite
  case isFalse => cases h

end Cbor

theorem Binary64.isNaN_of_isFinite {x : Binary64} (h : x.isFinite = true) : x.isNaN = false := by
  have below : x.magnitude < infinityBits := of_decide_eq_true h
  exact decide_eq_false (Nat.not_lt.mpr below.le)

namespace Delegation

open Cbor

/-- The caveats that a good signature is over are written. -/
theorem SignedUnder.exists_encode {d : Delegation} {directory : Directory}
    (h : d.SignedUnder directory) {c : Capability} (hc : c ∈ d.capabilities) {k : String} {v : Ipld}
    (set : c.caveats.lookup k = some v) : ∃ b, encode? v = some b := by
  obtain ⟨payload, _, written, -, -⟩ := h
  rw [Payload.encode?, Payload.toIpld] at written
  have capabilities : ∃ b, encode? (.list (d.payload.capabilities.map Capability.toIpld)) = some b :=
    exists_encode_of_mem_map (k := "att") written (by simp)
  obtain ⟨_, capabilities⟩ := capabilities
  obtain ⟨_, capability⟩ := exists_encode_of_mem_list capabilities
    (List.mem_map.mpr ⟨c, hc, rfl⟩)
  have given : c.caveats.isEmpty = false := by
    cases caveats : c.caveats with
    | nil => simp [caveats] at set
    | cons entry rest => rfl
  have caveats : ∃ b, encode? (.map c.caveats) = some b := by
    simp only [Capability.toIpld, given] at capability
    exact exists_encode_of_mem_map (k := "nb") capability (by simp)
  obtain ⟨_, caveats⟩ := caveats
  exact exists_encode_of_mem_map caveats (Table.mem_of_lookup set)

end Delegation

end Mandate

import Mandate.Cbor.Value.Read
import Mandate.Proofs.Head

/-!
# Links are read back

Numbers of variable length are read back from the bytes they are written as, so content identifiers are,
and so are the links that hold them.
-/

namespace Mandate

namespace Varint

/-- Only the number zero has a last byte of zero, and that is its first. -/
theorem readWithin_encodeWithin {width n : Nat} {first : Bool} (h : n < 128 ^ width)
    (room : 0 < width) (shortest : n ≠ 0 ∨ first = true) (rest : Bytes) :
    readWithin width first (encodeWithin width n ++ rest) = some (n, rest) := by
  induction width generalizing n first with
  | zero => cases room
  | succ width ih =>
      rw [encodeWithin]
      by_cases small : n < 128
      · have value : (UInt8.ofNat n).toNat = n := by
          rw [UInt8.toNat_ofNat']
          omega
        have low : UInt8.ofNat n < 128 := by
          rw [UInt8.lt_iff_toNat_lt, value]
          exact small
        have kept : ¬ (UInt8.ofNat n = 0 ∧ (!first) = true) := by
          rintro ⟨zero, later⟩
          rcases shortest with positive | begins
          · exact positive (by rw [← value, zero]; rfl)
          · simp [begins] at later
        rw [if_pos small, List.cons_append, readWithin, if_pos low, if_neg kept, value,
          List.nil_append]
      · have value : (UInt8.ofNat (n % 128 + 128)).toNat = n % 128 + 128 := by
          rw [UInt8.toNat_ofNat']
          omega
        have high : ¬ UInt8.ofNat (n % 128 + 128) < 128 := by
          rw [UInt8.lt_iff_toNat_lt, value]
          exact Nat.not_lt.mpr (Nat.le_add_left _ _)
        have fits : n / 128 < 128 ^ width := by
          rw [Nat.div_lt_iff_lt_mul (by decide), ← Nat.pow_succ]
          exact h
        have more : n / 128 ≠ 0 := by omega
        have wide : 0 < width := by
          rcases Nat.eq_zero_or_pos width with rfl | positive
          · exact absurd fits (by simpa using more)
          · exact positive
        rw [if_neg small, List.cons_append, readWithin, if_neg high, ih fits wide (Or.inl more)]
        simp only [Option.map_some, value]
        congr 2
        omega

theorem read?_encode (n : UInt64) (rest : Bytes) : read? (encode n ++ rest) = some (n, rest) := by
  have fits : n.toNat < 128 ^ 10 := Nat.lt_trans n.toNat_lt (by decide)
  rw [read?, encode, readWithin_encodeWithin fits (by decide) (Or.inr rfl)]
  simp

end Varint

namespace Cid

/-- An identifier is read back from its bytes. -/
@[simp] theorem ofBytes?_toBytes (c : Cid) : ofBytes? c.toBytes = some c := by
  cases c with
  | v0 digest length_digest =>
      have version : Varint.read? (0x12 :: 0x20 :: digest) = some (0x12, 0x20 :: digest) := rfl
      have codec : Varint.read? (0x20 :: digest) = some (0x20, digest) := rfl
      have whole : digest.take 32 = digest := List.take_of_length_le (Nat.le_of_eq length_digest)
      simp [toBytes, ofBytes?, version, codec, whole, ofDigest?, length_digest]
  | v1 codec hash digest length_digest =>
      have size : (UInt64.ofNat digest.length).toNat = digest.length := by
        rw [UInt64.toNat_ofNat']
        omega
      have room : ¬ 64 < UInt64.ofNat digest.length := by
        rw [UInt64.lt_iff_toNat_lt, size]
        exact Nat.not_lt.mpr length_digest
      have taken : Bytes.take? digest.length digest = some (digest, []) := by
        simpa using Bytes.take?_append digest []
      simp [toBytes, ofBytes?, Varint.read?_encode, room, size, taken, ofParts?, length_digest]

theorem toBytes_ne_nil (c : Cid) : c.toBytes ≠ [] := by
  intro none
  have read := ofBytes?_toBytes c
  rw [none] at read
  cases read

end Cid

namespace Cbor

/-- A link is read back. -/
theorem reads_link {c : Cid} {b : Bytes} (h : encodeLink? c = some b) (depth : Nat) :
    Reads (readLink? depth) b (some c) := by
  simp only [encodeLink?, Option.bind_eq_bind, Option.bind_eq_some_iff, Option.some.injEq] at h
  obtain ⟨tag, tagged, content, written, rfl⟩ := h
  intro rest
  obtain ⟨x, more, nonempty⟩ := List.exists_cons_of_ne_nil (Cid.toBytes_ne_nil c)
  have cid : Cid.ofBytes? (x :: more) = some c := by
    rw [← nonempty]
    exact Cid.ofBytes?_toBytes c
  have begins : ∃ first, (content ++ rest).head? = some first ∧ Kind.ofByte first = .bytes := by
    obtain ⟨head, begun, rfl⟩ := encodeBytes?_eq_some written
    obtain ⟨first, _, rfl, kind, -⟩ := exists_first_of_head begun
    exact ⟨first, rfl, kind⟩
  obtain ⟨first, begins, kind⟩ := begins
  have read := reads_bytes written depth rest
  rw [nonempty] at read
  rw [List.append_assoc, readLink?, reads_head tagged]
  simp [begins, kind, read, cid]

end Cbor

end Mandate

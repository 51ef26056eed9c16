import Mandate.Proofs.Did
import Mandate.Proofs.Finite
import Mandate.Proofs.Payload
import Mandate.Proofs.Reading

/-!
# What is read can be written, but for its numbers

A reader goes on from what it was given, and so finds no text or list that is longer than that. So whatever
is read from a byte string has a written form of its own, unless a float in it is not finite: infinite floats
and such as are not numbers are read, and never written.
-/

namespace Mandate

namespace Bytes

theorem toNat_lt (b : Bytes) : b.toNat < 256 ^ b.length := by
  rw [← List.reverse_reverse b, toNat_reverse, List.length_reverse]
  induction b.reverse with
  | nil => decide
  | cons byte rest ih =>
      have small := byte.toNat_lt
      rw [toNatLittle, List.length_cons, Nat.pow_succ]
      omega

theorem take?_eq_some {n : Nat} {b content rest : Bytes} (h : take? n b = some (content, rest)) :
    content.length = n ∧ content.length + rest.length = b.length := by
  unfold take? at h
  split at h
  case isTrue enough =>
    cases h
    simp [enough]
  case isFalse => cases h

theorem ofString_of_toString? {b : Bytes} {s : String} (h : toString? b = some s) : ofString s = b := by
  unfold toString? String.fromUTF8? at h
  split at h
  · cases h
    rfl
  · cases h

end Bytes

namespace Cbor

open Ipld

variable {α β : Type}

/-- A reader leaves no more than it was given, and reads what has a property if it was given few enough bytes
to be counted. -/
def Takes (read : Bytes → Option (α × Bytes)) (P : α → Prop) : Prop :=
  ∀ b a rest, read b = some (a, rest) → rest.length ≤ b.length ∧ (b.length < UInt64.size → P a)

namespace Takes

variable {read : Bytes → Option (α × Bytes)} {P : α → Prop}

theorem nothing : Takes (fun _ => none) P := by
  intro b a rest done
  cases done

theorem result {a : α} (h : P a) : Takes (fun b => some (a, b)) P := by
  rintro b _ rest ⟨⟩
  exact ⟨Nat.le_refl _, fun _ => h⟩

theorem mono {Q : α → Prop} (h : Takes read P) (weaker : ∀ a, P a → Q a) : Takes read Q :=
  fun b a rest done => ⟨(h b a rest done).1, fun short => weaker a ((h b a rest done).2 short)⟩

/-- One reader after another, the second one chosen by what the first one read. -/
theorem bind {Q : β → Prop} {g : α → Bytes → Option (β × Bytes)} (h : Takes read P)
    (others : ∀ a, Takes (g a) fun c => P a → Q c) :
    Takes (fun b => (read b).bind fun (a, b) => g a b) Q := by
  intro b c rest done
  obtain ⟨⟨a, b'⟩, first, second⟩ := Option.bind_eq_some_iff.mp done
  obtain ⟨less, property⟩ := h b a b' first
  obtain ⟨still, last⟩ := others a b' c rest second
  exact ⟨still.trans less, fun short => last (less.trans_lt short) (property short)⟩

theorem into {Q : β → Prop} {f : α → β} (h : Takes read P) (hf : ∀ a, P a → Q (f a)) :
    Takes (fun b => (read b).bind fun (a, b) => some (f a, b)) Q :=
  h.bind fun a => .result (hf a)

theorem map {Q : β → Prop} {f : α → β} (h : Takes read P) (hf : ∀ a, P a → Q (f a)) :
    Takes (fun b => (read b).map fun (a, b) => (f a, b)) Q := by
  intro b c rest done
  obtain ⟨⟨a, _⟩, first, same⟩ := Option.map_eq_some_iff.mp done
  cases same
  obtain ⟨less, property⟩ := h b a rest first
  exact ⟨less, fun short => hf a (property short)⟩

theorem readMany (h : Takes read P) (count : Nat) :
    Takes (readMany? read count) fun items => items.length = count ∧ ∀ a ∈ items, P a := by
  induction count with
  | zero => exact result (by simp)
  | succ count ih =>
      refine h.bind fun a => ih.bind fun items => result ?_
      rintro ⟨length, each⟩ first
      exact ⟨by rw [List.length_cons, length], List.forall_mem_cons.mpr ⟨first, each⟩⟩

end Takes

/-! ## Parts of items -/

theorem takes_argument (k : Kind) : Takes (readArgument? k) (· < UInt64.size) := by
  intro b n rest done
  cases b with
  | nil => cases done
  | cons first b =>
      simp only [readArgument?] at done
      split at done
      case isTrue small =>
        cases done
        exact ⟨Nat.le_succ _, fun _ => small.trans (by decide)⟩
      case isFalse =>
        split at done
        case isFalse => cases done
        case isTrue bound =>
          obtain ⟨⟨argument, _⟩, taken, same⟩ := Option.bind_eq_some_iff.mp done
          cases same
          obtain ⟨width, whole⟩ := Bytes.take?_eq_some taken
          have few : argument.length ≤ 2 ^ 3 := by
            rw [width, Nat.one_shiftLeft]
            exact Nat.pow_le_pow_right (by decide) (by omega)
          have value : argument.toNat < 256 ^ 2 ^ 3 :=
            (Bytes.toNat_lt argument).trans_le (Nat.pow_le_pow_right (by decide) few)
          exact ⟨Nat.le_succ_of_le (whole ▸ Nat.le_add_left _ _), fun _ => value⟩

theorem takes_take (n : Nat) : Takes (Bytes.take? n) fun c => c.length < UInt64.size := by
  intro b content rest taken
  obtain ⟨-, whole⟩ := Bytes.take?_eq_some taken
  exact ⟨by omega, fun short => by omega⟩

/-- Pieces up to a stop are together no longer than what was taken for them. -/
theorem length_readUntilStop {read : Bytes → Option (Bytes × Bytes)}
    (h : ∀ b c rest, read b = some (c, rest) → c.length + rest.length ≤ b.length) {limit : Nat}
    {b rest : Bytes} {pieces : List Bytes} (done : readUntilStop? read limit b = some (pieces, rest)) :
    pieces.flatten.length + rest.length ≤ b.length := by
  induction limit generalizing b pieces rest with
  | zero => cases done
  | succ limit ih =>
      rw [readUntilStop?] at done
      split at done
      · cases done
        simp
      · obtain ⟨⟨c, b'⟩, first, done⟩ := Option.bind_eq_some_iff.mp done
        obtain ⟨⟨cs, b''⟩, others, done⟩ := Option.bind_eq_some_iff.mp done
        cases done
        have before := h _ _ _ first
        have after := ih others
        rw [List.flatten_cons, List.length_append]
        omega

theorem length_readWhole {k : Kind} {b c rest : Bytes} (done : readWhole? k b = some (c, rest)) :
    c.length + rest.length ≤ b.length := by
  obtain ⟨⟨n, b'⟩, head, taken⟩ := Option.bind_eq_some_iff.mp done
  rw [(Bytes.take?_eq_some taken).2]
  exact (takes_argument k b n b' head).1

theorem length_readContent {k : Kind} {depth : Nat} {b c rest : Bytes}
    (done : readContent? k depth b = some (c, rest)) : c.length + rest.length ≤ b.length := by
  induction depth generalizing b c rest with
  | zero => exact length_readWhole done
  | succ depth ih =>
      rw [readContent?] at done
      split at done
      · obtain ⟨⟨pieces, b'⟩, found, same⟩ := Option.bind_eq_some_iff.mp done
        cases same
        have within := length_readUntilStop (fun _ _ _ => ih) found
        rw [List.length_tail] at within
        omega
      · exact length_readWhole done

theorem takes_content (k : Kind) (depth : Nat) :
    Takes (readContent? k depth) fun c => c.length < UInt64.size := by
  intro b c rest done
  have within := length_readContent done
  exact ⟨by omega, fun short => by omega⟩

theorem takes_whole (k : Kind) : Takes (readWhole? k) fun c => c.length < UInt64.size :=
  takes_content k 0

theorem written_of_toString? {c : Bytes} {s : String} (h : Bytes.toString? c = some s)
    (short : c.length < UInt64.size) : Written (.string s) :=
  written_string (by rwa [Bytes.ofString_of_toString? h])

theorem takes_text (depth : Nat) : Takes (readText? depth) fun s => Written (.string s) := by
  intro b s rest done
  obtain ⟨⟨c, _⟩, read, done⟩ := Option.bind_eq_some_iff.mp done
  obtain ⟨s, text, same⟩ := Option.bind_eq_some_iff.mp done
  cases same
  obtain ⟨less, short⟩ := takes_content .text depth b c rest read
  exact ⟨less, fun given => written_of_toString? text (short given)⟩

theorem takes_link (depth : Nat) : Takes (readLink? depth) fun _ => True := by
  intro b c rest done
  refine ⟨?_, fun _ => trivial⟩
  obtain ⟨⟨tag, b'⟩, head, done⟩ := Option.bind_eq_some_iff.mp done
  obtain ⟨first, -, done⟩ := Option.bind_eq_some_iff.mp done
  obtain ⟨⟨content, b''⟩, read, done⟩ := Option.bind_eq_some_iff.mp done
  have less := (takes_argument .tag _ _ _ head).1
  have still := (takes_content .bytes depth _ _ _ read).1
  simp only at done
  split at done
  case h_1 x more =>
    split at done
    case isTrue =>
      obtain ⟨cid, -, same⟩ := Option.bind_eq_some_iff.mp done
      cases same
      exact still.trans less
    case isFalse => cases done
  case h_2 => cases done

/-! ## What is passed over -/

theorem takes_size (k : Kind) : Takes (readSize? k) fun _ => True := by
  intro b size rest done
  refine ⟨?_, fun _ => trivial⟩
  unfold readSize? at done
  split at done
  · cases done
    simp
  · obtain ⟨⟨n, _⟩, head, same⟩ := Option.bind_eq_some_iff.mp done
    cases same
    exact (takes_argument k b n rest head).1

theorem takes_untilStop {read : Bytes → Option (α × Bytes)} {P : α → Prop} (h : Takes read P)
    (limit : Nat) : Takes (readUntilStop? read limit) fun _ => True := by
  induction limit with
  | zero => exact .nothing
  | succ limit ih =>
      intro b items rest done
      rw [readUntilStop?] at done
      split at done
      · cases done
        simp
      · have both : Takes (fun b => do
            let (x, b) ← read b
            let (xs, b) ← readUntilStop? read limit b
            some (x :: xs, b)) fun _ => True :=
          h.bind fun _ => ih.bind fun _ => .result fun _ _ => trivial
        exact both b items rest done

/-- Items, entries or bytes are passed over by their number or up to a stop. -/
theorem takes_sized {inner : Bytes → Option (Unit × Bytes)} (h : Takes inner fun _ => True)
    (k : Kind) : Takes (fun b => do
      match ← readSize? k b with
      | (none, b) =>
        let (_, b) ← readUntilStop? inner b.length b
        some ((), b)
      | (some size, b) =>
        if k = .bytes ∨ k = .text then
          let (_, b) ← Bytes.take? size b
          some ((), b)
        else
          let (_, b) ← readMany? inner size b
          some ((), b)) fun _ => True := by
  intro b u rest done
  refine ⟨?_, fun _ => trivial⟩
  obtain ⟨⟨size, b'⟩, sized, done⟩ := Option.bind_eq_some_iff.mp done
  refine Nat.le_trans ?_ (takes_size k b size b' sized).1
  cases size with
  | none =>
      obtain ⟨⟨_, _⟩, found, same⟩ := Option.bind_eq_some_iff.mp done
      cases same
      exact (takes_untilStop h _ _ _ _ found).1
  | some size =>
      simp only at done
      split at done
      case isTrue =>
        obtain ⟨⟨_, _⟩, found, same⟩ := Option.bind_eq_some_iff.mp done
        cases same
        exact (takes_take size _ _ _ found).1
      case isFalse =>
        obtain ⟨⟨_, _⟩, found, same⟩ := Option.bind_eq_some_iff.mp done
        cases same
        exact (h.readMany size _ _ _ found).1

theorem takes_skip (depth : Nat) : Takes (skip? depth) fun _ => True := by
  induction depth with
  | zero => exact .nothing
  | succ depth ih =>
      have twice : Takes (skipTwice? (skip? depth)) fun _ => True :=
        ih.bind fun _ => ih.mono fun _ _ _ => trivial
      intro b u rest done
      obtain ⟨first, -, done⟩ := Option.bind_eq_some_iff.mp done
      have inner : Takes (if Kind.ofByte first = .map then skipTwice? (skip? depth) else skip? depth)
          fun _ => True := by
        split
        · exact twice
        · exact ih
      generalize Kind.ofByte first = kind at done inner
      have argument := (takes_argument kind).bind (Q := fun _ => True) (g := fun _ b => some ((), b))
        fun _ => .result fun _ => trivial
      cases kind with
      | natural => exact argument b u rest done
      | negative => exact argument b u rest done
      | bytes => exact takes_sized inner .bytes b u rest done
      | text => exact takes_sized inner .text b u rest done
      | array => exact takes_sized inner .array b u rest done
      | map => exact takes_sized inner .map b u rest done
      | tag => exact (takes_argument .tag).bind (fun _ => inner.mono fun _ _ _ => trivial) b u rest done
      | simple =>
          obtain ⟨width, -, done⟩ := Option.bind_eq_some_iff.mp done
          obtain ⟨⟨_, _⟩, taken, same⟩ := Option.bind_eq_some_iff.mp done
          cases same
          have less := (takes_take width _ _ _ taken).1
          rw [List.length_tail] at less
          exact ⟨less.trans (Nat.sub_le _ _), fun _ => trivial⟩

/-! ## Values -/

theorem takes_simple : Takes readSimple? Writable := by
  have written {v : Ipld} {b : Bytes} (h : encode? v = some b) : v.Writable := fun _ => ⟨b, h⟩
  have float (x : Binary64) : (Ipld.float x).Writable := by
    rintro (⟨-, number⟩ | _ | _)
    have finite := number x rfl
    exact ⟨_, by rw [encode?, if_pos finite]⟩
  intro b v rest done
  unfold readSimple? at done
  split at done
  · cases done
    exact ⟨Nat.le_succ _, fun _ => written rfl⟩
  · cases done
    exact ⟨Nat.le_succ _, fun _ => written rfl⟩
  · cases done
    exact ⟨Nat.le_succ _, fun _ => written rfl⟩
  · obtain ⟨⟨bits, _⟩, taken, same⟩ := Option.bind_eq_some_iff.mp done
    cases same
    exact ⟨Nat.le_succ_of_le (takes_take 4 _ _ _ taken).1, fun _ => float _⟩
  · obtain ⟨⟨bits, _⟩, taken, same⟩ := Option.bind_eq_some_iff.mp done
    cases same
    exact ⟨Nat.le_succ_of_le (takes_take 8 _ _ _ taken).1, fun _ => float _⟩
  · cases done

theorem takes_scalar (depth : Nat) : Takes (readScalar? depth) Writable := by
  intro b v rest done
  obtain ⟨first, -, done⟩ := Option.bind_eq_some_iff.mp done
  split at done
  case h_1 =>
    exact (takes_argument .natural).into (f := fun n : Nat => integer n)
      (fun _ small _ => written_natural small) b v rest done
  case h_2 =>
    exact (takes_argument .negative).into (f := fun n : Nat => integer (-1 - n))
      (fun _ small _ => written_negative small) b v rest done
  case h_3 =>
    exact (takes_whole .bytes).into (f := Ipld.bytes) (fun _ short _ => written_bytes short)
      b v rest done
  case h_4 =>
    obtain ⟨⟨content, _⟩, read, done⟩ := Option.bind_eq_some_iff.mp done
    obtain ⟨s, text, same⟩ := Option.bind_eq_some_iff.mp done
    cases same
    obtain ⟨less, short⟩ := takes_whole .text b content rest read
    exact ⟨less, fun given _ => written_of_toString? text (short given)⟩
  case h_5 =>
    exact (takes_link depth).into (f := Ipld.link) (fun cid _ _ => written_link cid) b v rest done
  case h_6 => exact takes_simple b v rest done
  case h_7 => cases done
  case h_8 => cases done

theorem Takes.readEntries {read : String → Bytes → Option (α × Bytes)} {P : String → α → Prop}
    (h : ∀ key, Takes (read key) (P key)) (depth : Nat) :
    Takes (readEntries? read depth) fun entries => entries.length < UInt64.size ∧
      ∀ e ∈ entries, Written (.string e.1) ∧ P e.1 e.2 := by
  refine (takes_argument .map).bind fun size => (Takes.readMany (P := fun e : String × α =>
    Written (.string e.1) ∧ P e.1 e.2) ?_ size).mono fun entries both small => ⟨both.1 ▸ small, both.2⟩
  exact (takes_text depth).bind fun key => (h key).bind fun value => .result fun second first =>
    ⟨first, second⟩

theorem Takes.readList {read : Nat → Bytes → Option (α × Bytes)} {P : α → Prop}
    (h : ∀ depth, Takes (read depth) P) (depth : Nat) :
    Takes (readList? read depth) fun items => items.length < UInt64.size ∧ ∀ a ∈ items, P a := by
  cases depth with
  | zero => exact .nothing
  | succ depth =>
      exact (takes_argument .array).bind fun size => ((h depth).readMany size).mono
        fun items both small => ⟨both.1 ▸ small, both.2⟩

theorem Takes.readOptional {read : Nat → Bytes → Option (α × Bytes)} {P : α → Prop}
    (h : ∀ depth, Takes (read depth) P) (depth : Nat) :
    Takes (readOptional? read depth) fun o => ∀ a, o = some a → P a := by
  intro b o rest done
  unfold readOptional? at done
  split at done
  case h_1 =>
    cases done
    exact ⟨Nat.le_succ _, by simp⟩
  case h_2 => cases done
  case h_3 depth _ =>
    have present : Takes (fun b => (read depth b).map fun (a, b) => (some a, b))
        fun o => ∀ a, o = some a → P a :=
      (h depth).map fun a property _ same => by
        cases same
        exact property
    exact present b o rest done

/-- Whichever of several entries with one key counts, it is one of those that were read. -/
theorem writable_ofList {entries : List (String × Ipld)} (short : entries.length < UInt64.size)
    (each : ∀ e ∈ entries, Written (.string e.1) ∧ e.2.Writable) :
    Writable (.map (Table.ofList entries)) :=
  writable_map (fun e mem => each e (Table.mem_ofList mem))
    ((Table.length_ofList_le entries).trans_lt short)

theorem takes_items {read : Bytes → Option (Ipld × Bytes)} (h : Takes read Writable) :
    Takes (fun b => do
      let (size, b) ← readArgument? .array b
      let (items, b) ← readMany? read size b
      some (Ipld.list items, b)) Writable :=
  (takes_argument .array).bind fun size => (h.readMany size).bind fun _ =>
    .result fun both small => writable_list both.2 (both.1 ▸ small)

/-- Values that are read can be written, but for their floats. -/
theorem takes_value : (depth : Nat) → Takes (readValue? depth) Writable
  | 0 => .nothing
  | 1 => takes_scalar 0
  | depth + 2 => by
      intro b v rest done
      obtain ⟨first, -, done⟩ := Option.bind_eq_some_iff.mp done
      split at done
      case h_1 => exact takes_items (takes_value depth) b v rest done
      case h_2 =>
        obtain ⟨⟨entries, _⟩, found, done⟩ := Option.bind_eq_some_iff.mp done
        simp only at done
        split at done
        case isTrue =>
          cases done
          obtain ⟨less, fine⟩ :=
            Takes.readEntries (fun _ => takes_value depth) depth b entries rest found
          exact ⟨less, fun given => writable_ofList (fine given).1 (fine given).2⟩
        case isFalse => cases done
      case h_3 => exact takes_scalar (depth + 1) b v rest done

theorem takes_fields (depth : Nat) : Takes (readFields? depth) fun f => Writable (.map f) := by
  cases depth with
  | zero => exact .nothing
  | succ depth =>
      exact (Takes.readEntries (fun _ => takes_value depth) depth).into fun entries fine =>
        writable_ofList fine.1 fine.2

/-! ## Parts by name -/

section

variable {ε : Type} {entries : List ε} {part : ε → Option α} {P : ε → Prop} {Q : α → Prop}

theorem property_of_one {a : α} (each : ∀ e ∈ entries, P e)
    (reads : ∀ e a, part e = some a → P e → Q a) (h : one? (entries.filterMap part) = some a) :
    Q a := by
  obtain ⟨e, mem, set⟩ := List.mem_filterMap.mp (mem_of_one? h)
  exact reads e a set (each e mem)

theorem property_of_atMostOne {a default : α} (each : ∀ e ∈ entries, P e)
    (reads : ∀ e a, part e = some a → P e → Q a) (absent : Q default)
    (h : atMostOne? default (entries.filterMap part) = some a) : Q a := by
  rcases mem_of_atMostOne? h with rfl | mem
  · exact absent
  · obtain ⟨e, mem, set⟩ := List.mem_filterMap.mp mem
    exact reads e a set (each e mem)

end

end Cbor

open Cbor Ipld

/-! ## Capabilities and payloads -/

namespace Capability

/-- What is read under a name has a written form, but for its floats. -/
def Entry.Writable : Entry → Prop
  | ability a => Written (.string a)
  | resource r => Written (.string r)
  | caveats c => Ipld.Writable (.map c)
  | unknown => True

theorem takes_entry (depth : Nat) (name : String) : Takes (Entry.read? depth name) Entry.Writable := by
  unfold Entry.read?
  split
  · exact (takes_text depth).map fun _ written => written
  · exact (takes_text depth).map fun _ written => written
  · exact (takes_fields depth).map fun _ writable => writable
  · exact (takes_skip depth).map (f := fun _ => Entry.unknown) fun _ _ => trivial

/-- A capability has at most three parts, which are written one by one. -/
theorem writable_toIpld {c : Capability} (ability : Written (.string c.ability))
    (resource : Written (.string c.resource)) (caveats : Ipld.Writable (.map c.caveats)) :
    c.toIpld.Writable := by
  refine writable_map ?_ ?_
  · simp only [List.forall_mem_append, List.forall_mem_singleton]
    refine ⟨⟨⟨written_string (by decide), fun _ => ability⟩, ?_⟩,
      written_string (by decide), fun _ => resource⟩
    split
    · simp
    · exact List.forall_mem_singleton.mpr ⟨written_string (s := "nb") (by decide), caveats⟩
  · refine Nat.lt_of_le_of_lt (m := 3) ?_ (by decide)
    split <;> simp

theorem takes_read (depth : Nat) : Takes (Capability.read? depth) fun c => Ipld.Writable c.toIpld := by
  intro b c rest done
  cases depth with
  | zero => cases done
  | succ depth =>
      obtain ⟨⟨entries, _⟩, found, done⟩ := Option.bind_eq_some_iff.mp done
      obtain ⟨c, made, same⟩ := Option.bind_eq_some_iff.mp done
      cases same
      obtain ⟨less, fine⟩ := Takes.readEntries (takes_entry depth) depth b entries rest found
      refine ⟨less, fun short => ?_⟩
      have each : ∀ e ∈ entries.map (·.2), e.Writable :=
        List.forall_mem_map.mpr fun e mem => ((fine short).2 e mem).2
      obtain ⟨ability, one, made⟩ := Option.bind_eq_some_iff.mp made
      obtain ⟨resource, other, made⟩ := Option.bind_eq_some_iff.mp made
      obtain ⟨caveats, optional, made⟩ := Option.bind_eq_some_iff.mp made
      cases made
      refine writable_toIpld ?_ ?_ ?_
      · exact property_of_one (Q := fun a => Written (.string a)) each
          (fun e a set h => by cases e <;> cases set; exact h) one
      · exact property_of_one (Q := fun r => Written (.string r)) each
          (fun e r set h => by cases e <;> cases set; exact h) other
      · exact property_of_atMostOne (Q := fun c => Ipld.Writable (.map c)) each
          (fun e c set h => by cases e <;> cases set; exact h) (fun _ => ⟨_, rfl⟩) optional

end Capability

theorem Did.takes_read (depth : Nat) : Takes (Did.read? depth) fun d => Written (.string d.toText) := by
  intro b d rest done
  obtain ⟨⟨text, _⟩, found, done⟩ := Option.bind_eq_some_iff.mp done
  simp only at done
  split at done
  case h_1 did parsed =>
    cases done
    obtain rfl := Did.parse_eq_ok_iff.mp parsed
    exact takes_text depth b d.toText rest found
  case h_2 => cases done

theorem Timestamp.takes_read (depth : Nat) : Takes (Timestamp.read? depth) fun _ => True :=
  (takes_argument .natural).into (f := fun n => UInt64.ofNat n) fun _ _ => trivial

namespace Payload

/-- What is read under a name has a written form, but for its floats. -/
def Entry.Writable : Entry → Prop
  | issuer d => Written (.string d.toText)
  | audience d => Written (.string d.toText)
  | capabilities cs => Ipld.Writable (.list (cs.map Capability.toIpld))
  | proofs ps => Written (.list (ps.map .link))
  | facts fs => Ipld.Writable (.list (fs.map .map))
  | nonce n => ∀ s, n = some s → Written (.string s)
  | _ => True

theorem takes_entry (depth : Nat) (name : String) : Takes (Entry.read? depth name) Entry.Writable := by
  have capabilities : Takes (readList? Capability.read? depth)
      fun cs => Ipld.Writable (.list (cs.map Capability.toIpld)) :=
    (Takes.readList Capability.takes_read depth).mono fun cs fine =>
      writable_list (List.forall_mem_map.mpr fine.2) (by rw [List.length_map]; exact fine.1)
  have proofs : Takes (readList? readLink? depth) fun ps => Written (.list (ps.map .link)) :=
    (Takes.readList takes_link depth).mono fun ps fine =>
      written_list (List.forall_mem_map.mpr fun c _ => written_link c)
        (by rw [List.length_map]; exact fine.1)
  have facts : Takes (readList? readFields? depth)
      fun fs => Ipld.Writable (.list (fs.map .map)) :=
    (Takes.readList takes_fields depth).mono fun fs fine =>
      writable_list (List.forall_mem_map.mpr fine.2) (by rw [List.length_map]; exact fine.1)
  unfold Entry.read?
  split
  · exact (Did.takes_read depth).map fun _ written => written
  · exact (Did.takes_read depth).map fun _ written => written
  · exact capabilities.map fun _ writable => writable
  · exact proofs.map fun _ written => written
  · exact (Takes.readOptional Timestamp.takes_read depth).map (f := Entry.expiration) fun _ _ => trivial
  · exact (Takes.readOptional Timestamp.takes_read depth).map (f := Entry.notBefore) fun _ _ => trivial
  · exact facts.map fun _ writable => writable
  · exact (Takes.readOptional takes_text depth).map fun _ written => written
  · exact (takes_skip depth).map (f := fun _ => Entry.unknown) fun _ _ => trivial

theorem written_optionalEntry {α : Type} {name : String} {f : α → Ipld} {o : Option α}
    (key : Written (.string name)) (each : ∀ a, o = some a → (f a).Written) :
    ∀ e ∈ optionalEntry name f o, (string e.1).Written ∧ e.2.Writable := by
  cases o with
  | none => simp [optionalEntry]
  | some a => exact List.forall_mem_singleton.mpr ⟨key, fun _ => each a rfl⟩

/-- A payload has at most eight parts, which are written one by one. -/
theorem writable_toIpld {p : Payload} (issuer : Written (.string p.issuer.toText))
    (audience : Written (.string p.audience.toText))
    (capabilities : Ipld.Writable (.list (p.capabilities.map Capability.toIpld)))
    (proofs : Written (.list (p.proofs.map .link)))
    (facts : Ipld.Writable (.list (p.facts.map .map)))
    (nonce : ∀ s, p.nonce = some s → Written (.string s)) : p.toIpld.Writable := by
  have time (t : Timestamp) : (timeToIpld t).Written := written_natural t.toNat_lt
  refine writable_map ?_ ?_
  · simp only [List.forall_mem_append, List.forall_mem_cons, List.not_mem_nil, false_implies,
      implies_true, and_true]
    refine ⟨⟨⟨⟨⟨⟨⟨⟨?_, capabilities⟩, ?_, fun _ => audience⟩, ?_⟩, ?_⟩, ?_, fun _ => issuer⟩, ?_⟩, ?_⟩,
      ?_, fun _ => proofs⟩
    · exact written_string (by decide)
    · exact written_string (by decide)
    · exact written_optionalEntry (written_string (by decide)) fun t _ => time t
    · split
      · simp
      · exact List.forall_mem_singleton.mpr ⟨written_string (s := "fct") (by decide), facts⟩
    · exact written_string (by decide)
    · exact written_optionalEntry (written_string (by decide)) fun t _ => time t
    · exact written_optionalEntry (written_string (by decide)) nonce
    · exact written_string (by decide)
  · refine Nat.lt_of_le_of_lt (m := 8) ?_ (by decide)
    have optional {α : Type} (name : String) (f : α → Ipld) (o : Option α) :
        (optionalEntry name f o).length ≤ 1 := by
      cases o <;> simp [optionalEntry]
    have expiration := optional "exp" timeToIpld p.expiration
    have notBefore := optional "nbf" timeToIpld p.notBefore
    have named := optional "nnc" Ipld.string p.nonce
    simp only [List.length_append, List.length_cons, List.length_nil]
    split <;> simp <;> omega

theorem takes_read (depth : Nat) : Takes (Payload.read? depth) fun p => Ipld.Writable p.toIpld := by
  intro b p rest done
  cases depth with
  | zero => cases done
  | succ depth =>
      obtain ⟨⟨entries, _⟩, found, done⟩ := Option.bind_eq_some_iff.mp done
      obtain ⟨p, made, same⟩ := Option.bind_eq_some_iff.mp done
      cases same
      obtain ⟨less, fine⟩ := Takes.readEntries (takes_entry depth) depth b entries rest found
      refine ⟨less, fun short => ?_⟩
      have each : ∀ e ∈ entries.map (·.2), e.Writable :=
        List.forall_mem_map.mpr fun e mem => ((fine short).2 e mem).2
      obtain ⟨issuer, issues, made⟩ := Option.bind_eq_some_iff.mp made
      obtain ⟨audience, hears, made⟩ := Option.bind_eq_some_iff.mp made
      obtain ⟨capabilities, grants, made⟩ := Option.bind_eq_some_iff.mp made
      obtain ⟨proofs, cites, made⟩ := Option.bind_eq_some_iff.mp made
      obtain ⟨expiration, -, made⟩ := Option.bind_eq_some_iff.mp made
      obtain ⟨notBefore, -, made⟩ := Option.bind_eq_some_iff.mp made
      obtain ⟨facts, states, made⟩ := Option.bind_eq_some_iff.mp made
      obtain ⟨nonce, tells, made⟩ := Option.bind_eq_some_iff.mp made
      cases made
      refine writable_toIpld ?_ ?_ ?_ ?_ ?_ ?_
      · exact property_of_one (Q := fun d : Did => Written (.string d.toText)) each
          (fun e d set h => by cases e <;> cases set; exact h) issues
      · exact property_of_one (Q := fun d : Did => Written (.string d.toText)) each
          (fun e d set h => by cases e <;> cases set; exact h) hears
      · exact property_of_one (Q := fun cs => Ipld.Writable (.list (cs.map Capability.toIpld))) each
          (fun e cs set h => by cases e <;> cases set; exact h) grants
      · exact property_of_atMostOne (Q := fun ps => Written (.list (ps.map .link))) each
          (fun e ps set h => by cases e <;> cases set; exact h) ⟨_, rfl⟩ cites
      · exact property_of_atMostOne (Q := fun fs => Ipld.Writable (.list (fs.map .map))) each
          (fun e fs set h => by cases e <;> cases set; exact h) (fun _ => ⟨_, rfl⟩) states
      · exact property_of_atMostOne (Q := fun n => ∀ s, n = some s → Written (.string s)) each
          (fun e n set h => by cases e <;> cases set; exact h) (by simp) tells

end Payload

namespace Delegation

theorem takes_block (depth : Nat) :
    Takes (readBlock? depth) fun block => Ipld.Writable block.2.toIpld := by
  cases depth with
  | zero => exact .nothing
  | succ depth =>
      intro b block rest done
      obtain ⟨⟨size, b₁⟩, head, done⟩ := Option.bind_eq_some_iff.mp done
      obtain ⟨⟨signature, b₂⟩, first, done⟩ := Option.bind_eq_some_iff.mp done
      obtain ⟨⟨payload, b₃⟩, second, done⟩ := Option.bind_eq_some_iff.mp done
      simp only at done
      split at done
      case isTrue =>
        cases done
        have less := (takes_argument .array b size b₁ head).1
        have still := (takes_content .bytes depth b₁ signature b₂ first).1
        obtain ⟨last, fine⟩ := Payload.takes_read depth b₂ payload rest second
        exact ⟨last.trans (still.trans less), fun short =>
          fine ((still.trans less).trans_lt short)⟩
      case isFalse => cases done

/-- The payload of a delegation that was read is written again if all floats in it are finite. -/
theorem writable_of_ofBytes {bytes : Bytes} {d : Delegation} (h : ofBytes bytes = .ok d)
    (short : bytes.length < UInt64.size) : d.payload.toIpld.Writable := by
  obtain ⟨signature, payload, read, rfl⟩ := eq_of_ofBytes h
  unfold readAll? at read
  split at read
  case h_1 block found =>
    cases read
    exact (takes_block nestingLimit bytes _ _ found).2 short
  case h_2 => cases read

end Delegation

end Mandate

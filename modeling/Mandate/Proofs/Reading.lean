import Mandate.Proofs.Delegation

/-!
# What is read is well-formed

Caveats are read into tables in order, whatever the order in which they are written, and reading an
archive attaches delegations at their own addresses. So everything that is received is well-formed, as is
everything that is signed here.
-/

namespace Mandate

namespace Cbor

variable {α : Type}

/-- All that a reader reads has a property. -/
def Yields (read : Bytes → Option (α × Bytes)) (P : α → Prop) : Prop :=
  ∀ b a rest, read b = some (a, rest) → P a

theorem Yields.map {β : Type} {read : Bytes → Option (α × Bytes)} {P : α → Prop} {Q : β → Prop}
    {f : α → β} (h : Yields read P) (hf : ∀ a, P a → Q (f a)) :
    Yields (fun b => (read b).map fun (a, b) => (f a, b)) Q := by
  intro b a rest done
  obtain ⟨⟨x, _⟩, found, same⟩ := Option.map_eq_some_iff.mp done
  cases same
  exact hf x (h _ _ _ found)

theorem Yields.readMany {read : Bytes → Option (α × Bytes)} {P : α → Prop} (h : Yields read P)
    (count : Nat) : Yields (readMany? read count) fun items => ∀ a ∈ items, P a := by
  intro b items rest done
  induction count generalizing b items rest with
  | zero =>
      cases done
      simp
  | succ count ih =>
      rw [readMany?] at done
      obtain ⟨⟨x, b'⟩, first, done⟩ := Option.bind_eq_some_iff.mp done
      obtain ⟨⟨xs, b''⟩, others, done⟩ := Option.bind_eq_some_iff.mp done
      cases done
      intro a mem
      rcases List.mem_cons.mp mem with rfl | later
      · exact h _ _ _ first
      · exact ih _ _ _ others a later

theorem Yields.readEntries {read : String → Bytes → Option (α × Bytes)} {P : α → Prop}
    (h : ∀ key, Yields (read key) P) (depth : Nat) :
    Yields (readEntries? read depth) fun entries => ∀ e ∈ entries, P e.2 := by
  intro b entries rest done
  obtain ⟨⟨size, b'⟩, -, done⟩ := Option.bind_eq_some_iff.mp done
  refine Yields.readMany (P := fun e => P e.2) ?_ size _ _ _ done
  intro b e rest done
  obtain ⟨⟨key, b'⟩, -, done⟩ := Option.bind_eq_some_iff.mp done
  obtain ⟨⟨value, b''⟩, found, done⟩ := Option.bind_eq_some_iff.mp done
  cases done
  exact h _ _ _ _ found

theorem Yields.readList {read : Nat → Bytes → Option (α × Bytes)} {P : α → Prop}
    (h : ∀ depth, Yields (read depth) P) (depth : Nat) :
    Yields (readList? read depth) fun items => ∀ a ∈ items, P a := by
  intro b items rest done
  cases depth with
  | zero => cases done
  | succ depth =>
      obtain ⟨⟨size, b'⟩, -, done⟩ := Option.bind_eq_some_iff.mp done
      exact (h depth).readMany size _ _ _ done

/-- Caveats are read in order. -/
theorem yields_readFields (depth : Nat) : Yields (readFields? depth) Table.Sorted := by
  intro b fields rest done
  cases depth with
  | zero => cases done
  | succ depth =>
      obtain ⟨⟨entries, b'⟩, -, done⟩ := Option.bind_eq_some_iff.mp done
      cases done
      exact Table.sorted_ofList entries

theorem mem_of_one? {as : List α} {a : α} (h : one? as = some a) : a ∈ as := by
  unfold one? at h
  split at h
  · cases h
    exact List.mem_singleton_self _
  · cases h

theorem mem_of_atMostOne? {as : List α} {a default : α} (h : atMostOne? default as = some a) :
    a = default ∨ a ∈ as := by
  unfold atMostOne? at h
  split at h
  · cases h
    exact Or.inl rfl
  · cases h
    exact Or.inr (List.mem_singleton_self _)
  · cases h

end Cbor

open Cbor

namespace Capability

theorem yields_entry (depth : Nat) (name : String) :
    Yields (Entry.read? depth name) fun e => ∀ c, e.caveats? = some c → c.Sorted := by
  unfold Entry.read?
  split
  case h_3 =>
    refine (yields_readFields depth).map ?_
    rintro c sorted _ ⟨⟩
    exact sorted
  all_goals
    intro b e rest done
    obtain ⟨_, -, same⟩ := Option.map_eq_some_iff.mp done
    cases same
    rintro _ ⟨⟩

theorem yields_read (depth : Nat) : Yields (Capability.read? depth) fun c => c.caveats.Sorted := by
  intro b c rest done
  cases depth with
  | zero => cases done
  | succ depth =>
      obtain ⟨⟨entries, b'⟩, found, done⟩ := Option.bind_eq_some_iff.mp done
      obtain ⟨c, made, done⟩ := Option.bind_eq_some_iff.mp done
      cases done
      have each := Yields.readEntries (yields_entry depth) depth _ _ _ found
      obtain ⟨ability, -, made⟩ := Option.bind_eq_some_iff.mp made
      obtain ⟨resource, -, made⟩ := Option.bind_eq_some_iff.mp made
      obtain ⟨caveats, one, made⟩ := Option.bind_eq_some_iff.mp made
      cases made
      rcases mem_of_atMostOne? one with rfl | mem
      · exact List.Pairwise.nil
      · obtain ⟨e, he, set⟩ := List.mem_filterMap.mp mem
        obtain ⟨entry, hentry, rfl⟩ := List.mem_map.mp he
        exact each entry hentry caveats set

end Capability

namespace Payload

theorem yields_entry (depth : Nat) (name : String) :
    Yields (Entry.read? depth name) fun e =>
      ∀ cs, e.capabilities? = some cs → ∀ c ∈ cs, c.caveats.Sorted := by
  unfold Entry.read?
  split
  case h_3 =>
    refine (Yields.readList Capability.yields_read depth).map ?_
    rintro cs sorted _ ⟨⟩
    exact sorted
  all_goals
    intro b e rest done
    obtain ⟨_, -, same⟩ := Option.map_eq_some_iff.mp done
    cases same
    rintro _ ⟨⟩

theorem yields_read (depth : Nat) :
    Yields (Payload.read? depth) fun p => ∀ c ∈ p.capabilities, c.caveats.Sorted := by
  intro b p rest done
  cases depth with
  | zero => cases done
  | succ depth =>
      obtain ⟨⟨entries, b'⟩, found, done⟩ := Option.bind_eq_some_iff.mp done
      obtain ⟨p, made, done⟩ := Option.bind_eq_some_iff.mp done
      cases done
      have each := Yields.readEntries (yields_entry depth) depth _ _ _ found
      obtain ⟨issuer, -, made⟩ := Option.bind_eq_some_iff.mp made
      obtain ⟨audience, -, made⟩ := Option.bind_eq_some_iff.mp made
      obtain ⟨capabilities, one, made⟩ := Option.bind_eq_some_iff.mp made
      obtain ⟨proofs, -, made⟩ := Option.bind_eq_some_iff.mp made
      obtain ⟨expiration, -, made⟩ := Option.bind_eq_some_iff.mp made
      obtain ⟨notBefore, -, made⟩ := Option.bind_eq_some_iff.mp made
      obtain ⟨facts, -, made⟩ := Option.bind_eq_some_iff.mp made
      obtain ⟨nonce, -, made⟩ := Option.bind_eq_some_iff.mp made
      cases made
      obtain ⟨e, he, set⟩ := List.mem_filterMap.mp (mem_of_one? one)
      obtain ⟨entry, hentry, rfl⟩ := List.mem_map.mp he
      exact each entry hentry capabilities set

end Payload

namespace Delegation

/-- A delegation that is read alone has nothing attached. -/
theorem wellFormed_ofBytes {bytes : Bytes} {d : Delegation} (h : ofBytes bytes = .ok d) :
    d.WellFormed := by
  unfold ofBytes at h
  split at h
  case h_1 signature payload found =>
    cases h
    have read : ∃ rest, readBlock? nestingLimit bytes = some ((signature, payload), rest) := by
      unfold readAll? at found
      split at found
      case h_1 whole =>
        cases found
        exact ⟨[], whole⟩
      case h_2 => cases found
    obtain ⟨rest, read⟩ := read
    refine ⟨by simp, ?_⟩
    cases limit : nestingLimit with
    | zero =>
        rw [limit] at read
        cases read
    | succ depth =>
        rw [limit] at read
        obtain ⟨⟨size, _⟩, -, read⟩ := Option.bind_eq_some_iff.mp read
        obtain ⟨⟨_, _⟩, -, read⟩ := Option.bind_eq_some_iff.mp read
        obtain ⟨⟨_, _⟩, given, read⟩ := Option.bind_eq_some_iff.mp read
        simp only at read
        split at read
        · cases read
          exact Payload.yields_read depth _ _ _ given
        · cases read
  case h_2 => cases h

/-- What a delegation that is read alone has, and attaching keeps, holds of whatever an archive has attached
at each point, so of its root. -/
theorem hereditary_readBlocks {P : Delegation → Prop}
    (keeps : ∀ d p : Delegation, P d → P (d.attach p))
    (fresh : ∀ (bytes : Bytes) (d : Delegation), ofBytes bytes = .ok d → P d)
    {blocks : List Bytes} {known : Table Cid Delegation}
    {root result : Option Delegation} (hk : ∀ c d, (c, d) ∈ known → d.Hereditary P)
    (hr : ∀ d, root = some d → d.Hereditary P)
    (h : readBlocks known root blocks = .ok result) {d : Delegation} (same : result = some d) :
    d.Hereditary P := by
  induction blocks generalizing known root with
  | nil =>
      cases h
      exact hr d same
  | cons block rest ih =>
      rw [readBlocks] at h
      split at h
      · cases h
      case h_2 bare read =>
        have sound : ((bare.payload.proofs.filterMap fun c => known.lookup c).foldl attach
            bare).Hereditary P := by
          refine Hereditary.attachAll keeps (.of_blocks_nil (fresh block bare read) ?_) ?_
          · obtain ⟨_, _, -, rfl⟩ := eq_of_ofBytes read
            rfl
          · intro p mem
            obtain ⟨c, -, found⟩ := List.mem_filterMap.mp mem
            exact hk c p (Table.mem_of_lookup found)
        refine ih ?_ ?_ h
        · intro c e mem
          rcases Table.mem_insert mem with here | earlier
          · cases here
            exact sound
          · exact hk c e earlier
        · rintro e ⟨⟩
          exact sound

theorem hereditary_ofArchive {P : Delegation → Prop}
    (keeps : ∀ d p : Delegation, P d → P (d.attach p))
    (fresh : ∀ (bytes : Bytes) (d : Delegation), ofBytes bytes = .ok d → P d)
    {archive : Bytes} {d : Delegation} (h : ofArchive archive = .ok d) : d.Hereditary P := by
  unfold ofArchive at h
  split at h
  · cases h
  · split at h
    · cases h
    · cases h
    case h_3 root read =>
      cases h
      exact hereditary_readBlocks keeps fresh (by simp) (by simp) read rfl

/-- Whoever made an archive, what is read from it is well-formed. -/
theorem wellFormed_ofArchive {archive : Bytes} {d : Delegation} (h : ofArchive archive = .ok d) :
    d.Hereditary WellFormed :=
  hereditary_ofArchive (fun _ p hd => hd.attach p) (fun _ _ read => wellFormed_ofBytes read) h

end Delegation

end Mandate

import Mandate.Cid
import Mandate.Table
import Mathlib.Data.List.Lex
import Mathlib.Data.String.Basic
import Mathlib.Order.RelClasses

/-!
# What a table answers

Inserting into a table changes the answer at one key and no other, whatever the order of the entries. A
table that overrides another answers first, as long as each of its keys stands once; tables that are
built by insertion are sorted, so theirs do. A sorted table is what its entries make in any order, and is
known by its answers.
-/

namespace Mandate

namespace Table

variable {κ α : Type}

theorem mem_of_lookup [BEq κ] [LawfulBEq κ] {k : κ} {v : α} {t : Table κ α}
    (h : t.lookup k = some v) : (k, v) ∈ t := by
  obtain ⟨before, after, rfl, -⟩ := List.lookup_eq_some_iff.mp h
  exact List.mem_append_right before List.mem_cons_self

theorem isSome_lookup_iff [BEq κ] [LawfulBEq κ] {k : κ} {t : Table κ α} :
    (t.lookup k).isSome ↔ k ∈ t.map (·.1) := by
  rw [List.lookup_isSome_iff, List.mem_map]
  exact exists_congr fun e => and_congr_right fun _ => beq_iff_eq.trans eq_comm

variable [LT κ] [DecidableLT κ]

theorem mem_insert {k : κ} {v : α} {t : Table κ α} {e : κ × α} (h : e ∈ insert k v t) :
    e = (k, v) ∨ e ∈ t := by
  induction t with
  | nil => simpa [insert] using h
  | cons head rest ih =>
      obtain ⟨k', v'⟩ := head
      simp only [insert] at h
      split at h
      · exact List.mem_cons.mp h
      · split at h
        · rcases List.mem_cons.mp h with rfl | tail
          · exact Or.inr List.mem_cons_self
          · exact (ih tail).imp_right (List.mem_cons_of_mem _)
        · exact (List.mem_cons.mp h).imp_right (List.mem_cons_of_mem _)

/-- All entries of a table that overrides another come from one of the two. -/
theorem mem_override {t entries : Table κ α} {e : κ × α} (mem : e ∈ override t entries) :
    e ∈ t ∨ e ∈ entries := by
  induction entries generalizing t with
  | nil => exact Or.inl mem
  | cons head rest ih =>
      rcases ih mem with inserted | later
      · rcases mem_insert inserted with rfl | old
        · exact Or.inr List.mem_cons_self
        · exact Or.inl old
      · exact Or.inr (List.mem_cons_of_mem _ later)

theorem mem_ofList {entries : List (κ × α)} {e : κ × α} (mem : e ∈ ofList entries) : e ∈ entries :=
  (mem_override (t := []) mem).resolve_left List.not_mem_nil

theorem length_insert_le (k : κ) (v : α) (t : Table κ α) : (insert k v t).length ≤ t.length + 1 := by
  induction t with
  | nil => simp [insert]
  | cons head rest ih =>
      rw [insert]
      split
      · simp
      · split
        · simpa using ih
        · simp

theorem length_override_le (t entries : Table κ α) :
    (override t entries).length ≤ t.length + entries.length := by
  induction entries generalizing t with
  | nil => exact Nat.le_refl _
  | cons head rest ih =>
      have more := ih (insert head.1 head.2 t)
      have one := length_insert_le head.1 head.2 t
      change (override (insert head.1 head.2 t) rest).length ≤ _
      rw [List.length_cons]
      omega

theorem length_ofList_le (entries : List (κ × α)) : (ofList entries).length ≤ entries.length :=
  (length_override_le [] entries).trans (by simp)

/-- Where values stand in a table does not depend on them. -/
theorem ofList_map {β : Type} (f : α → β) (entries : List (κ × α)) :
    ofList (entries.map fun e => (e.1, f e.2)) = (ofList entries).map fun e => (e.1, f e.2) := by
  have one : ∀ (k : κ) (v : α) (t : Table κ α),
      insert k (f v) (t.map fun e => (e.1, f e.2)) = (insert k v t).map fun e => (e.1, f e.2) := by
    intro k v t
    induction t with
    | nil => rfl
    | cons head rest ih =>
        simp only [insert, List.map_cons]
        split
        · rfl
        · split
          · rw [ih, List.map_cons]
          · rfl
  have all : ∀ t : Table κ α,
      override (t.map fun e => (e.1, f e.2)) (entries.map fun e => (e.1, f e.2)) =
        (override t entries).map fun e => (e.1, f e.2) := by
    induction entries with
    | nil => intro t; rfl
    | cons head rest ih =>
        intro t
        change override (insert head.1 (f head.2) _) _ = _
        rw [one, ih]
        rfl
  exact all []

variable [IsStrictTotalOrder κ (· < ·)]

/-- Insertion keeps the keys in increasing order, each standing once. -/
theorem sorted_insert {k : κ} {v : α} {t : Table κ α} (h : t.Sorted) : (insert k v t).Sorted := by
  induction t with
  | nil => exact List.pairwise_singleton _ _
  | cons head rest ih =>
      obtain ⟨k', v'⟩ := head
      obtain ⟨below, sorted⟩ := List.pairwise_cons.mp h
      simp only [insert]
      split
      case isTrue lt =>
        refine List.pairwise_cons.mpr ⟨?_, h⟩
        intro e he
        rcases List.mem_cons.mp he with rfl | tail
        · exact lt
        · exact IsTrans.trans _ _ _ lt (below e tail)
      case isFalse notLt =>
        split
        case isTrue gt =>
          refine List.pairwise_cons.mpr ⟨?_, ih sorted⟩
          intro e he
          rcases mem_insert he with rfl | old
          · exact gt
          · exact below e old
        case isFalse notGt =>
          obtain rfl : k = k' := Std.Trichotomous.trichotomous k k' notLt notGt
          exact List.pairwise_cons.mpr ⟨below, sorted⟩

theorem sorted_override {t entries : Table κ α} (h : t.Sorted) : (override t entries).Sorted := by
  induction entries generalizing t with
  | nil => exact h
  | cons head rest ih => exact ih (sorted_insert h)

theorem sorted_ofList (entries : List (κ × α)) : (ofList entries).Sorted :=
  sorted_override List.Pairwise.nil

omit [DecidableLT κ] in
theorem nodup_keys {t : Table κ α} (h : t.Sorted) : (t.map (·.1)).Nodup :=
  List.Pairwise.map _ (fun _ _ less => ne_of_irrefl less) h

theorem perm_insert {k : κ} {v : α} {t : Table κ α} (h : ∀ e ∈ t, e.1 ≠ k) :
    (insert k v t).Perm ((k, v) :: t) := by
  induction t with
  | nil => exact .refl _
  | cons head rest ih =>
      simp only [insert]
      split
      · exact .refl _
      case isFalse notLt =>
        split
        · exact ((ih fun e mem => h e (List.mem_cons_of_mem _ mem)).cons head).trans (.swap _ _ _)
        case isFalse notGt =>
          exact absurd (Std.Trichotomous.trichotomous k head.1 notLt notGt).symm
            (h head List.mem_cons_self)

/-- A table of entries with different keys holds these and nothing else. -/
theorem perm_ofList {entries : List (κ × α)} (h : (entries.map (·.1)).Nodup) :
    (ofList entries).Perm entries := by
  have all : ∀ t : Table κ α, (∀ e ∈ t, ∀ e' ∈ entries, e.1 ≠ e'.1) →
      (override t entries).Perm (t ++ entries) := by
    induction entries with
    | nil =>
        intro t _
        simp [override]
    | cons head rest ih =>
        intro t apart
        obtain ⟨fresh, nodup⟩ := List.nodup_cons.mp h
        have inserted : (insert head.1 head.2 t).Perm (head :: t) :=
          perm_insert fun e mem => apart e mem head List.mem_cons_self
        refine (ih nodup (insert head.1 head.2 t) ?_).trans ?_
        · intro e mem e' later
          rcases List.mem_cons.mp (inserted.mem_iff.mp mem) with rfl | old
          · intro same
            exact fresh (List.mem_map.mpr ⟨e', later, same.symm⟩)
          · exact apart e old e' (List.mem_cons_of_mem _ later)
        · exact (inserted.append_right rest).trans List.perm_middle.symm
  exact all [] (by simp)

omit [DecidableLT κ] in
theorem eq_of_perm {t t' : Table κ α} (h : t.Sorted) (h' : t'.Sorted) (same : t.Perm t') : t = t' := by
  refine same.eq_of_pairwise ?_ h h'
  intro a b _ _ less greater
  exact absurd greater (asymm less)

/-- A sorted table is made of its entries in any order. -/
theorem ofList_of_perm {entries : List (κ × α)} {t : Table κ α} (h : t.Sorted)
    (same : entries.Perm t) : ofList entries = t := by
  have nodup : (entries.map (·.1)).Nodup := (same.map _).nodup_iff.mpr (nodup_keys h)
  exact eq_of_perm (sorted_ofList entries) h ((perm_ofList nodup).trans same)

variable [BEq κ] [LawfulBEq κ]

@[simp] theorem lookup_insert_self (k : κ) (v : α) (t : Table κ α) :
    (insert k v t).lookup k = some v := by
  induction t with
  | nil => simp [insert]
  | cons head rest ih =>
      obtain ⟨k', v'⟩ := head
      simp only [insert]
      split
      · exact List.lookup_cons_self
      · split
        case isTrue gt =>
          have ne : (k == k') = false := by
            simp only [beq_eq_false_iff_ne]
            rintro rfl
            exact irrefl k gt
          rw [List.lookup_cons, ne]
          exact ih
        case isFalse => exact List.lookup_cons_self

theorem lookup_insert_of_ne {k l : κ} (v : α) (t : Table κ α) (h : l ≠ k) :
    (insert k v t).lookup l = t.lookup l := by
  have differ : (l == k) = false := by simpa using h
  induction t with
  | nil => simp [insert, List.lookup_cons, differ]
  | cons head rest ih =>
      obtain ⟨k', v'⟩ := head
      simp only [insert]
      split
      · rw [List.lookup_cons, differ]
      case isFalse notLt =>
        split
        · rw [List.lookup_cons, List.lookup_cons, ih]
        case isFalse notGt =>
          obtain rfl : k = k' := Std.Trichotomous.trichotomous k k' notLt notGt
          rw [List.lookup_cons, List.lookup_cons, differ]

/-- What entries with different keys set stands; what they leave open is taken over. -/
theorem lookup_override_of_nodup {t entries : Table κ α} (h : (entries.map (·.1)).Nodup) (k : κ) :
    (override t entries).lookup k = (entries.lookup k).or (t.lookup k) := by
  induction entries generalizing t with
  | nil => rfl
  | cons head rest ih =>
      obtain ⟨k', v'⟩ := head
      obtain ⟨fresh, nodup⟩ := List.nodup_cons.mp h
      change (override (insert k' v' t) rest).lookup k = _
      rw [ih nodup, List.lookup_cons]
      by_cases same : k = k'
      · subst same
        have absent : rest.lookup k = none :=
          Option.not_isSome_iff_eq_none.mp fun found => fresh (isSome_lookup_iff.mp found)
        simp [absent]
      · have differ : (k == k') = false := by simpa using same
        rw [lookup_insert_of_ne v' t same, differ]

/-- What a sorted table of entries sets stands; what it leaves open is taken over. -/
theorem lookup_override {t entries : Table κ α} (h : entries.Sorted) (k : κ) :
    (override t entries).lookup k = (entries.lookup k).or (t.lookup k) :=
  lookup_override_of_nodup (nodup_keys h) k

omit [DecidableLT κ] in
theorem lookup_of_mem {t : Table κ α} (h : t.Sorted) {e : κ × α} (mem : e ∈ t) :
    t.lookup e.1 = some e.2 := by
  obtain ⟨before, after, rfl⟩ := List.append_of_mem mem
  obtain ⟨-, -, less⟩ := List.pairwise_append.mp h
  refine List.lookup_eq_some_iff.mpr ⟨before, after, rfl, fun p hp => ?_⟩
  simpa using (ne_of_irrefl (less p hp e List.mem_cons_self)).symm

omit [DecidableLT κ] in
/-- Sorted tables that answer alike are the same. -/
theorem ext_lookup {t t' : Table κ α} (h : t.Sorted) (h' : t'.Sorted)
    (same : ∀ k, t.lookup k = t'.lookup k) : t = t' := by
  have nodup : ∀ {t : Table κ α}, t.Sorted → List.Nodup t := fun sorted =>
    (List.pairwise_map.mp (nodup_keys sorted)).imp fun differ same => differ (congrArg Prod.fst same)
  have perm : t.Perm t' := by
    refine (List.perm_ext_iff_of_nodup (nodup h) (nodup h')).mpr fun e => ?_
    constructor
    · exact fun mem => mem_of_lookup ((same e.1).symm.trans (lookup_of_mem h mem))
    · exact fun mem => mem_of_lookup ((same e.1).trans (lookup_of_mem h' mem))
  exact eq_of_perm h h' perm

/-- A table that overrides another answers where one of the two does. -/
theorem isSome_lookup_override (t entries : Table κ α) (k : κ) :
    ((override t entries).lookup k).isSome ↔ (t.lookup k).isSome ∨ (entries.lookup k).isSome := by
  induction entries generalizing t with
  | nil => simp [override]
  | cons head rest ih =>
      change ((override (insert head.1 head.2 t) rest).lookup k).isSome ↔ _
      rw [ih, List.lookup_cons]
      by_cases same : k = head.1
      · simp [same]
      · have differ : (k == head.1) = false := by simpa using same
        rw [lookup_insert_of_ne head.2 t same, differ]

end Table

namespace Cid

theorem sortKey_injective : Function.Injective sortKey := by
  intro a b h
  cases a <;> cases b <;> simp only [sortKey, List.cons.injEq] at h
  case v0.v0 =>
    obtain ⟨-, -, -, -, digests⟩ := h
    have same := List.map_injective_iff.mpr (fun _ _ => UInt8.toNat_inj.mp) digests
    simpa [digest] using same
  case v0.v1 => simp [version] at h
  case v1.v0 => simp [version] at h
  case v1.v1 =>
    obtain ⟨-, codecs, hashes, -, digests⟩ := h
    have same := List.map_injective_iff.mpr (fun _ _ => UInt8.toNat_inj.mp) digests
    simp only [v1.injEq]
    exact ⟨UInt64.toNat_inj.mp codecs, UInt64.toNat_inj.mp hashes, same⟩

/-- Addresses are ordered by lists of numbers that determine them. -/
instance : IsStrictTotalOrder Cid (· < ·) where
  irrefl a := lt_irrefl a.sortKey
  trans a b c hab hbc := by
    change a.sortKey < b.sortKey at hab
    exact lt_trans hab hbc
  trichotomous _ _ hab hba :=
    sortKey_injective (le_antisymm (not_lt.mp hba) (not_lt.mp hab))

end Cid

end Mandate

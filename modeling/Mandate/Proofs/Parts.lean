import Mandate.Proofs.Pruned

/-!
# What a selector makes

A selector is built from parts, and a match that it finds has leaves that parts of it make. So have the
matches that prove such a one, and what is left of them to prove. A proof never leaves the parts of the
selector that it began with, and once it is among the parts of a smaller one it stays there.
-/

namespace Mandate

/-! ## Leaves along a proof -/

/-- In two lists that are related item by item, each item of the first has one of the second. -/
theorem exists_of_forall₂ {α β : Type} {R : α → β → Prop} {as : List α} {bs : List β}
    (h : List.Forall₂ R as bs) {a : α} (mem : a ∈ as) : ∃ b ∈ bs, R a b := by
  induction h with
  | nil => cases mem
  | cons related _ ih =>
      rcases List.mem_cons.mp mem with rfl | later
      · exact ⟨_, List.mem_cons_self, related⟩
      · obtain ⟨b, hb, related⟩ := ih later
        exact ⟨b, List.mem_cons_of_mem _ hb, related⟩

namespace Match

/-- Pruning keeps leaves as they are, if it keeps them. -/
theorem mem_leaves_of_prune {mayIssue : Issuance} {m rest l : Match}
    (h : m.prune mayIssue = some rest) (mem : l ∈ rest.leaves) : l ∈ m.leaves := by
  rw [leaves_of_prune h] at mem
  exact (List.mem_filter.mp mem).1

/-- A leaf of what proves a match is one of what proves a leaf of it. -/
theorem exists_leaf_of_select {m n l : Match} {given : List Source} (h : n ∈ (m.select given).found)
    (mem : l ∈ n.leaves) :
    ∃ k ∈ m.leaves, ∃ shown, ∃ p ∈ (k.select shown).found, l ∈ p.leaves := by
  have chosen : n.leaves ∈ (m.select given).found.map leaves := List.mem_map_of_mem h
  rw [map_leaves_select] at chosen
  obtain ⟨items, choice, same⟩ := List.mem_map.mp chosen
  rw [← same] at mem
  obtain ⟨p, hp, mem⟩ := List.mem_flatMap.mp mem
  rw [Selection.mem_choices_iff, List.forall₂_map_right_iff] at choice
  obtain ⟨v, view, found⟩ := exists_of_forall₂ choice hp
  refine ⟨v.1, ?_, v.2, p, found, mem⟩
  rw [← map_views m given]
  exact List.mem_map_of_mem view

end Match

/-! ## Parts of selectors -/

namespace Selector

/-- One selector is built with another, or is it. -/
inductive Part (s : Selector) : Selector → Prop where
  | self : Part s s
  | left_or {l r : Selector} (h : Part s l) : Part s (.or l r)
  | right_or {l r : Selector} (h : Part s r) : Part s (.or l r)
  | left_and {l r : Selector} (h : Part s l) : Part s (.and l r)
  | right_and {l r : Selector} (h : Part s r) : Part s (.and l r)
  | origin {origin : Selector} {target : Descriptor} {rule : Derivation} (h : Part s origin) :
      Part s (.derive origin target rule)

variable {s t u : Selector} {given : List Source}

theorem Part.trans (h : s.Part t) (h' : t.Part u) : s.Part u := by
  induction h' with
  | self => exact h
  | left_or _ ih => exact .left_or ih
  | right_or _ ih => exact .right_or ih
  | left_and _ ih => exact .left_and ih
  | right_and _ ih => exact .right_and ih
  | origin _ ih => exact .origin ih

theorem Part.sizeOf_le (h : s.Part t) : sizeOf s ≤ sizeOf t := by
  induction h with
  | self => exact Nat.le_refl _
  | left_or _ ih => rw [or.sizeOf_spec]; omega
  | right_or _ ih => rw [or.sizeOf_spec]; omega
  | left_and _ ih => rw [and.sizeOf_spec]; omega
  | right_and _ ih => rw [and.sizeOf_spec]; omega
  | origin _ ih => rw [derive.sizeOf_spec]; omega

/-- No part of a selector derives from all of it. -/
theorem not_part_derive {target : Descriptor} {rule : Derivation} : ¬ (derive s target rule).Part s := by
  intro h
  have small := h.sizeOf_le
  rw [derive.sizeOf_spec] at small
  omega

/-- A leaf that a part of a selector makes. -/
def Makes (s : Selector) : Match → Prop
  | .direct m => (descriptor m.descriptor).Part s
  | .derived m origin rule => (derive origin m.descriptor rule).Part s
  | .group _ _ => False

/-- A match all leaves of which a selector makes. -/
def MadeOf (s : Selector) (m : Match) : Prop := ∀ l ∈ m.leaves, s.Makes l

theorem Makes.of_part {l : Match} (h : s.Makes l) (part : s.Part t) : t.Makes l := by
  cases l with
  | direct m => exact Part.trans h part
  | derived m origin rule => exact Part.trans h part
  | group m ms => exact h

theorem MadeOf.of_part {m : Match} (h : s.MadeOf m) (part : s.Part t) : t.MadeOf m :=
  fun l mem => (h l mem).of_part part

theorem madeOf_direct {m : DirectMatch} : s.MadeOf (.direct m) ↔ s.Makes (.direct m) := by
  simp [MadeOf, Match.leaves]

theorem madeOf_derived {m : DirectMatch} {origin : Selector} {rule : Derivation} :
    s.MadeOf (.derived m origin rule) ↔ s.Makes (.derived m origin rule) := by
  simp [MadeOf, Match.leaves]

end Selector

namespace Descriptor

theorem descriptor_of_mem_found {d : Descriptor} {given : List Source} {m : DirectMatch}
    (h : m ∈ (d.select given).found) : m.descriptor = d := by
  obtain ⟨s, -, found⟩ := mem_found_select.mp h
  obtain ⟨value, -, rfl⟩ := candidate_eq_found found
  rfl

end Descriptor

namespace DirectMatch

theorem descriptor_of_mem_found {m n : DirectMatch} {given : List Source}
    (h : n ∈ (m.select given).found) : n.descriptor = m.descriptor := by
  obtain ⟨s, -, found⟩ := mem_found_select.mp h
  obtain ⟨_, _, -, -, -, rfl⟩ := candidate_eq_found found
  rfl

end DirectMatch

namespace Selector

variable {s : Selector} {given : List Source}

/-- What a selector finds is made of it. -/
theorem madeOf_of_mem_found {m : Match} (h : m ∈ (s.select given).found) : s.MadeOf m := by
  induction s generalizing m with
  | descriptor d =>
      obtain ⟨n, found, rfl⟩ := List.mem_map.mp h
      rw [madeOf_direct, Makes, Descriptor.descriptor_of_mem_found found]
      exact .self
  | or l r left right =>
      rcases List.mem_append.mp h with found | found
      · exact (left found).of_part (.left_or .self)
      · exact (right found).of_part (.right_or .self)
  | and l r left right =>
      obtain ⟨m, first, h⟩ := List.mem_flatMap.mp h
      obtain ⟨n, second, rfl⟩ := List.mem_map.mp h
      intro leaf mem
      rw [Match.leaves_group, List.flatMap_cons, List.flatMap_singleton, List.mem_append] at mem
      rcases mem with mem | mem
      · exact (left first).of_part (.left_and .self) leaf mem
      · exact (right second).of_part (.right_and .self) leaf mem
  | derive origin target rule =>
      obtain ⟨n, found, rfl⟩ := List.mem_map.mp h
      rw [madeOf_derived, Makes, Descriptor.descriptor_of_mem_found found]
      exact .self

/-- What proves a leaf that a selector makes is made of the selector. -/
theorem Makes.select {l n : Match} (h : s.Makes l) (found : n ∈ (l.select given).found) :
    s.MadeOf n := by
  cases l with
  | direct m =>
      obtain ⟨k, covered, rfl⟩ := List.mem_map.mp found
      rw [madeOf_direct, Makes, DirectMatch.descriptor_of_mem_found covered]
      exact h
  | derived m origin rule =>
      rcases Match.mem_found_selectDerived.mp found with ⟨k, covered, rfl⟩ | ⟨other, -⟩
      · rw [madeOf_derived, Makes, DirectMatch.descriptor_of_mem_found covered]
        exact h
      · exact (madeOf_of_mem_found other).of_part (Part.trans (.origin .self) h)
  | group m ms => exact h.elim

/-- What proves a match is made of what the match is made of. -/
theorem MadeOf.select {m n : Match} (h : s.MadeOf m) (found : n ∈ (m.select given).found) :
    s.MadeOf n := by
  intro l mem
  obtain ⟨k, hk, shown, p, found, mem⟩ := Match.exists_leaf_of_select found mem
  exact (h k hk).select found l mem

theorem MadeOf.prune {mayIssue : Issuance} {m rest : Match} (h : s.MadeOf m)
    (pruned : m.prune mayIssue = some rest) : s.MadeOf rest :=
  fun l mem => h l (Match.mem_leaves_of_prune pruned mem)

end Selector

end Mandate

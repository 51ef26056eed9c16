import Mandate.Match.Prove
import Mathlib.Data.List.Forall2

/-!
# Where the sources of a match come from

A match selected from some sources is built from these alone, and it is found wherever those that it is built
from are given. Pruning a match only drops sources, never all of them, since it drops whole members of groups.
Each fact is one induction over selectors or over matches, the groups being lists of matches.
-/

namespace Mandate

namespace Selection

variable {α β : Type}

theorem mem_found_ofCandidates {cs : List (Candidate α)} {a : α} :
    a ∈ (ofCandidates cs).found ↔ .found a ∈ cs := by
  simp only [ofCandidates, List.mem_filterMap]
  constructor
  · rintro ⟨c, mem, same⟩
    cases c with
    | found b =>
        cases same
        exact mem
    | rejected f => cases same
    | unknown c => cases same
  · intro mem
    exact ⟨_, mem, rfl⟩

/-- A choice takes one item from each list. -/
theorem mem_choices_iff {lists : List (List α)} {items : List α} :
    items ∈ choices lists ↔ List.Forall₂ (· ∈ ·) items lists := by
  induction lists generalizing items with
  | nil => simp [choices]
  | cons list lists ih =>
      simp only [choices, List.mem_flatMap, List.mem_map, List.forall₂_cons_right_iff, ih]
      constructor
      · rintro ⟨a, ha, rest, chosen, rfl⟩
        exact ⟨a, rest, ha, chosen, rfl⟩
      · rintro ⟨a, rest, ha, chosen, rfl⟩
        exact ⟨a, ha, rest, chosen, rfl⟩

/-- What several members select together is made of one choice for each of them. -/
theorem mem_found_combine {ofMembers : List α → Option β} {members : List (Selection α)} {b : β} :
    b ∈ (combine ofMembers members).found ↔
      ∃ items, List.Forall₂ (fun a s => a ∈ s.found) items members ∧ ofMembers items = some b := by
  simp only [combine, List.mem_filterMap, mem_choices_iff, List.forall₂_map_right_iff]

end Selection

namespace Descriptor

theorem mem_found_select {d : Descriptor} {sources : List Source} {m : DirectMatch} :
    m ∈ (d.select sources).found ↔ ∃ s ∈ sources, d.candidate s = .found m := by
  simp only [select, Selection.mem_found_ofCandidates, List.mem_map]

/-- What a descriptor makes of a source keeps the capability as it is given. -/
theorem candidate_eq_found {d : Descriptor} {s : Source} {m : DirectMatch}
    (h : d.candidate s = .found m) :
    ∃ value, d.parse s.capability = .ok value ∧ m = ⟨d, value, s.capability, s⟩ := by
  unfold candidate at h
  split at h
  case h_1 value parsed =>
    cases h
    exact ⟨value, parsed, rfl⟩
  · cases h
  · cases h

theorem found_of_source {d : Descriptor} {given others : List Source} {m : DirectMatch}
    (h : m ∈ (d.select given).found) (mem : m.source ∈ others) : m ∈ (d.select others).found := by
  obtain ⟨s, -, found⟩ := mem_found_select.mp h
  obtain ⟨value, -, rfl⟩ := candidate_eq_found found
  exact mem_found_select.mpr ⟨s, mem, found⟩

end Descriptor

namespace DirectMatch

theorem mem_found_select {m n : DirectMatch} {sources : List Source} :
    n ∈ (m.select sources).found ↔ ∃ s ∈ sources, m.candidate s = .found n := by
  simp only [select, Selection.mem_found_ofCandidates, List.mem_map]

/-- What proves a match was resolved against it, read by the same descriptor and accepted by its rule. -/
theorem candidate_eq_found {m n : DirectMatch} {s : Source} (h : m.candidate s = .found n) :
    ∃ resolved value, Coverage.resolve? s.capability m.capability = some resolved ∧
      m.descriptor.read resolved = .ok value ∧ m.descriptor.rule m.value value = .ok () ∧
      n = ⟨m.descriptor, value, resolved, s⟩ := by
  unfold candidate at h
  split at h
  · cases h
  case h_2 resolved covered =>
    split at h
    · cases h
    case h_2 value read =>
      split at h
      case h_1 accepted =>
        cases h
        exact ⟨resolved, value, covered, read, accepted, rfl⟩
      · cases h

theorem found_of_source {m n : DirectMatch} {given others : List Source}
    (h : n ∈ (m.select given).found) (mem : n.source ∈ others) : n ∈ (m.select others).found := by
  obtain ⟨s, -, found⟩ := mem_found_select.mp h
  obtain ⟨_, _, -, -, -, rfl⟩ := candidate_eq_found found
  exact mem_found_select.mpr ⟨s, mem, found⟩

end DirectMatch

namespace Match

theorem mem_sourcesOfAll {ms : List Match} {s : Source} :
    s ∈ sourcesOfAll ms ↔ ∃ m ∈ ms, s ∈ m.sources := by
  induction ms with
  | nil => simp [sourcesOfAll]
  | cons m ms ih => simp [sourcesOfAll, ih]

/-- The sources of a group are those of its members. -/
theorem mem_sources_ofMembers {ms : List Match} {g : Match} (h : ofMembers? ms = some g)
    {s : Source} : s ∈ g.sources ↔ ∃ m ∈ ms, s ∈ m.sources := by
  cases ms with
  | nil => cases h
  | cons m ms =>
      cases h
      simp [sources, mem_sourcesOfAll]

theorem sources_ne_nil (m : Match) : m.sources ≠ [] := by
  cases m with
  | direct m => simp [sources]
  | derived m origin rule => simp [sources]
  | group m ms => simpa [sources] using fun none => absurd none (sources_ne_nil m)

/-- What is left of a match of one capability is the match, unless its issuer may issue it. -/
theorem prune_direct_eq_some_iff {mayIssue : Issuance} {m : DirectMatch} {rest : Match} :
    (direct m).prune mayIssue = some rest ↔ m.isSelfIssued mayIssue = false ∧ direct m = rest := by
  rw [prune]
  cases m.isSelfIssued mayIssue <;> simp

theorem prune_derived_eq_some_iff {mayIssue : Issuance} {m : DirectMatch} {origin : Selector}
    {rule : Derivation} {rest : Match} :
    (derived m origin rule).prune mayIssue = some rest ↔
      m.isSelfIssued mayIssue = false ∧ derived m origin rule = rest := by
  rw [prune]
  cases m.isSelfIssued mayIssue <;> simp

mutual

/-- Pruning adds no source. -/
theorem mem_sources_of_prune {mayIssue : Issuance} {s : Source} :
    (m : Match) → {rest : Match} → m.prune mayIssue = some rest → s ∈ rest.sources → s ∈ m.sources
  | direct m, rest, h, mem => by
      obtain ⟨-, rfl⟩ := prune_direct_eq_some_iff.mp h
      exact mem
  | derived m origin rule, rest, h, mem => by
      obtain ⟨-, rfl⟩ := prune_derived_eq_some_iff.mp h
      exact mem
  | group m ms, rest, h, mem => by
      simp only [prune] at h
      obtain ⟨n, left, mem⟩ := (mem_sources_ofMembers h).mp mem
      simp only [sources, List.mem_append]
      rcases List.mem_append.mp left with first | other
      · exact Or.inl (mem_sources_of_prune m (Option.mem_toList.mp first) mem)
      · exact Or.inr (mem_sources_of_pruneAll ms other mem)

theorem mem_sources_of_pruneAll {mayIssue : Issuance} {s : Source} :
    (ms : List Match) → {n : Match} → n ∈ pruneAll mayIssue ms → s ∈ n.sources →
      s ∈ sourcesOfAll ms
  | [], n, left, mem => by simp [pruneAll] at left
  | m :: ms, n, left, mem => by
      simp only [pruneAll] at left
      simp only [sourcesOfAll, List.mem_append]
      rcases List.mem_append.mp left with first | other
      · exact Or.inl (mem_sources_of_prune m (Option.mem_toList.mp first) mem)
      · exact Or.inr (mem_sources_of_pruneAll ms other mem)

end

end Match

namespace Selector

/-- A selected match is built from the sources that it was selected from. -/
theorem mem_of_mem_sources {selector : Selector} {given : List Source} {m : Match}
    (h : m ∈ (selector.select given).found) {s : Source} (mem : s ∈ m.sources) : s ∈ given := by
  induction selector generalizing m with
  | descriptor d =>
      obtain ⟨n, selected, rfl⟩ := List.mem_map.mp h
      obtain ⟨t, ht, found⟩ := Descriptor.mem_found_select.mp selected
      obtain ⟨value, -, rfl⟩ := Descriptor.candidate_eq_found found
      obtain rfl : s = t := by simpa [Match.sources] using mem
      exact ht
  | or l r left right =>
      rcases List.mem_append.mp h with h | h
      · exact left h mem
      · exact right h mem
  | and l r left right =>
      obtain ⟨m₁, h₁, h⟩ := List.mem_flatMap.mp h
      obtain ⟨m₂, h₂, rfl⟩ := List.mem_map.mp h
      have split : s ∈ m₁.sources ∨ s ∈ m₂.sources := by
        simpa [Match.sources, Match.sourcesOfAll] using mem
      exact split.elim (left h₁) (right h₂)
  | derive origin target rule =>
      obtain ⟨n, selected, rfl⟩ := List.mem_map.mp h
      obtain ⟨t, ht, found⟩ := Descriptor.mem_found_select.mp selected
      obtain ⟨value, -, rfl⟩ := Descriptor.candidate_eq_found found
      obtain rfl : s = t := by simpa [Match.sources] using mem
      exact ht

/-- A match is found wherever the sources that it is built from are given. -/
theorem found_of_sources {selector : Selector} {given others : List Source} {m : Match}
    (h : m ∈ (selector.select given).found) (sub : m.sources ⊆ others) :
    m ∈ (selector.select others).found := by
  induction selector generalizing m with
  | descriptor d =>
      obtain ⟨n, selected, rfl⟩ := List.mem_map.mp h
      exact List.mem_map_of_mem (Descriptor.found_of_source selected (sub List.mem_cons_self))
  | or l r left right =>
      rcases List.mem_append.mp h with h | h
      · exact List.mem_append_left _ (left h sub)
      · exact List.mem_append_right _ (right h sub)
  | and l r left right =>
      obtain ⟨m₁, h₁, h⟩ := List.mem_flatMap.mp h
      obtain ⟨m₂, h₂, rfl⟩ := List.mem_map.mp h
      have first : m₁ ∈ (l.select others).found :=
        left h₁ fun s mem => sub (by simp [Match.sources, mem])
      have second : m₂ ∈ (r.select others).found :=
        right h₂ fun s mem => sub (by simp [Match.sources, Match.sourcesOfAll, mem])
      exact List.mem_flatMap.mpr ⟨m₁, first, List.mem_map.mpr ⟨m₂, second, rfl⟩⟩
  | derive origin target rule =>
      obtain ⟨n, selected, rfl⟩ := List.mem_map.mp h
      exact List.mem_map_of_mem (Descriptor.found_of_source selected (sub List.mem_cons_self))

end Selector

namespace Match

theorem mem_found_selectDerived {m : DirectMatch} {origin : Selector} {rule : Derivation}
    {given : List Source} {n : Match} :
    n ∈ (m.selectDerived origin rule given).found ↔
      (∃ k ∈ (m.select given).found, n = .derived k origin rule) ∨
        n ∈ (origin.select given).found ∧ rule m.value n.value = .ok () := by
  simp only [DirectMatch.selectDerived, List.mem_append, List.mem_map, List.mem_filter]
  refine or_congr ?_ (and_congr_right fun _ => ?_)
  · constructor
    · rintro ⟨k, hk, rfl⟩
      exact ⟨k, hk, rfl⟩
    · rintro ⟨k, hk, rfl⟩
      exact ⟨k, hk, rfl⟩
  · cases rule m.value n.value <;> simp

/-- What proves a group consists of one match for each member, selected among the sources that are
addressed to the issuer of the member. -/
theorem mem_found_select_group {m : Match} {ms : List Match} {given : List Source} {n : Match} :
    n ∈ ((group m ms).select given).found ↔
      ∃ k ∈ (m.select (m.addressed given)).found, ∃ ks,
        List.Forall₂ (fun k s => k ∈ s.found) ks (selectEach ms given) ∧ n = group k ks := by
  simp only [select, Selection.mem_found_combine, List.forall₂_cons_right_iff]
  constructor
  · rintro ⟨_, ⟨k, ks, hk, hks, rfl⟩, same⟩
    cases same
    exact ⟨k, hk, ks, hks, rfl⟩
  · rintro ⟨k, hk, ks, hks, rfl⟩
    exact ⟨k :: ks, ⟨k, ks, hk, hks, rfl⟩, rfl⟩

theorem addressed_subset (m : Match) (given : List Source) : m.addressed given ⊆ given :=
  List.filter_subset_self _

theorem mem_addressed {m : Match} {given : List Source} {s : Source} :
    s ∈ m.addressed given ↔ s ∈ given ∧ s.delegation.audience = m.delegation.issuer := by
  simp [addressed]

mutual

/-- A match that proves another is built from the sources that it was selected from. -/
theorem mem_of_mem_sources {s : Source} : (m : Match) → {given : List Source} → {n : Match} →
    n ∈ (m.select given).found → s ∈ n.sources → s ∈ given
  | direct m, given, n, h, mem => by
      obtain ⟨k, selected, rfl⟩ := List.mem_map.mp h
      obtain ⟨t, ht, found⟩ := DirectMatch.mem_found_select.mp selected
      obtain ⟨_, _, -, -, -, rfl⟩ := DirectMatch.candidate_eq_found found
      obtain rfl : s = t := by simpa [sources] using mem
      exact ht
  | derived m origin rule, given, n, h, mem => by
      rcases mem_found_selectDerived.mp h with ⟨k, selected, rfl⟩ | ⟨selected, -⟩
      · obtain ⟨t, ht, found⟩ := DirectMatch.mem_found_select.mp selected
        obtain ⟨_, _, -, -, -, rfl⟩ := DirectMatch.candidate_eq_found found
        obtain rfl : s = t := by simpa [sources] using mem
        exact ht
      · exact Selector.mem_of_mem_sources selected mem
  | group m ms, given, n, h, mem => by
      obtain ⟨k, first, ks, others, rfl⟩ := mem_found_select_group.mp h
      simp only [sources, List.mem_append, mem_sourcesOfAll] at mem
      rcases mem with mem | ⟨l, hl, mem⟩
      · exact addressed_subset m given (mem_of_mem_sources m first mem)
      · exact mem_of_mem_selectEach ms others hl mem

theorem mem_of_mem_selectEach {s : Source} : (ms : List Match) → {given : List Source} →
    {ks : List Match} → List.Forall₂ (fun k s => k ∈ s.found) ks (selectEach ms given) →
      {l : Match} → l ∈ ks → s ∈ l.sources → s ∈ given
  | [], given, ks, h, l, hl, mem => by
      simp only [selectEach, List.forall₂_nil_right_iff] at h
      subst h
      cases hl
  | m :: ms, given, ks, h, l, hl, mem => by
      simp only [selectEach, List.forall₂_cons_right_iff] at h
      obtain ⟨k, ks, first, others, rfl⟩ := h
      rcases List.mem_cons.mp hl with rfl | later
      · exact addressed_subset m given (mem_of_mem_sources m first mem)
      · exact mem_of_mem_selectEach ms others later mem

end

mutual

/-- A match that proves another is found wherever the sources that it is built from are given. -/
theorem found_of_sources : (m : Match) → {given others : List Source} → {n : Match} →
    n ∈ (m.select given).found → n.sources ⊆ others → n ∈ (m.select others).found
  | direct m, given, others, n, h, sub => by
      obtain ⟨k, selected, rfl⟩ := List.mem_map.mp h
      exact List.mem_map_of_mem (DirectMatch.found_of_source selected (sub List.mem_cons_self))
  | derived m origin rule, given, others, n, h, sub => by
      rcases mem_found_selectDerived.mp h with ⟨k, selected, rfl⟩ | ⟨selected, accepted⟩
      · have found := DirectMatch.found_of_source selected (sub List.mem_cons_self)
        exact mem_found_selectDerived.mpr (Or.inl ⟨k, found, rfl⟩)
      · have found := Selector.found_of_sources selected sub
        exact mem_found_selectDerived.mpr (Or.inr ⟨found, accepted⟩)
  | group m ms, given, others, n, h, sub => by
      obtain ⟨k, first, ks, rest, rfl⟩ := mem_found_select_group.mp h
      simp only [sources, List.append_subset] at sub
      have found := found_of_sources_addressed m first sub.1
      exact mem_found_select_group.mpr ⟨k, found, ks, selectEach_of_sources ms rest sub.2, rfl⟩

theorem found_of_sources_addressed (m : Match) {given others : List Source} {n : Match}
    (h : n ∈ (m.select (m.addressed given)).found) (sub : n.sources ⊆ others) :
    n ∈ (m.select (m.addressed others)).found :=
  found_of_sources m h fun s mem =>
    mem_addressed.mpr ⟨sub mem, (mem_addressed.mp (mem_of_mem_sources m h mem)).2⟩

theorem selectEach_of_sources : (ms : List Match) → {given others : List Source} → {ks : List Match} →
    List.Forall₂ (fun k s => k ∈ s.found) ks (selectEach ms given) → sourcesOfAll ks ⊆ others →
      List.Forall₂ (fun k s => k ∈ s.found) ks (selectEach ms others)
  | [], given, others, ks, h, sub => h
  | m :: ms, given, others, ks, h, sub => by
      simp only [selectEach, List.forall₂_cons_right_iff] at h ⊢
      obtain ⟨k, ks, first, rest, rfl⟩ := h
      simp only [sourcesOfAll, List.append_subset] at sub
      have found := found_of_sources_addressed m first sub.1
      exact ⟨k, ks, found, selectEach_of_sources ms rest sub.2, rfl⟩

end

/-- Further sources hide no match that proves another. -/
theorem found_mono (m : Match) {few many : List Source} (sub : few ⊆ many) {n : Match}
    (h : n ∈ (m.select few).found) : n ∈ (m.select many).found :=
  found_of_sources m h fun _ mem => sub (mem_of_mem_sources m h mem)

end Match

end Mandate

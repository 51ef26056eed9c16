import Mandate.Proofs.Leaves
import Mandate.Proofs.Ipld

/-!
# What becomes of every source

A descriptor finds, rejects or does not recognize each source. When selections are combined, a source that
one member found may still be lost: a pair needs a match for each member, and when one of them has none,
what the others found is neither selected nor reported. Such sources are called stranded here, and no others
are lost.
-/

namespace Mandate

/-- The capabilities that a failure finds wanting. -/
def Failure.delegated : Failure → List Capability
  | unknownCapability c => [c]
  | malformedCapability c _ => [c]
  | escalatedCapability _ delegated _ => delegated
  | _ => []

namespace Selection

variable {sel sel' : Selection Match} {named named' : Capability → Prop} {s : Source}

/-- Some match was built from a source. -/
def Uses (sel : Selection Match) (s : Source) : Prop := ∃ m ∈ sel.found, s ∈ m.sources

theorem Uses.found_ne_nil (h : sel.Uses s) : sel.found ≠ [] := by
  obtain ⟨m, mem, -⟩ := h
  exact List.ne_nil_of_mem mem

/-- A source is not lost: it is part of a match, or an error names its capability in one of its forms, or
the capability was not recognized. -/
inductive Accounts (sel : Selection Match) (named : Capability → Prop) (s : Source) : Prop where
  | used (uses : sel.Uses s)
  | rejected {f : Failure} {c : Capability} (error : f ∈ sel.errors) (mem : c ∈ f.delegated)
      (names : named c)
  | unknown (mem : s.capability ∈ sel.unknown)

/-- What one member accounts for is accounted for by a whole that keeps all of the member. -/
theorem Accounts.mono (h : sel.Accounts named s) (found : sel.Uses s → sel'.Uses s)
    (errors : sel.errors ⊆ sel'.errors) (unknown : sel.unknown ⊆ sel'.unknown)
    (names : ∀ c, named c → named' c) : sel'.Accounts named' s := by
  cases h with
  | used uses => exact .used (found uses)
  | rejected error mem name => exact .rejected (errors error) mem (names _ name)
  | unknown mem => exact .unknown (unknown mem)

theorem mem_common {c : Capability} {cs ds : List Capability} (hc : c ∈ cs) (hd : c ∈ ds) :
    c ∈ common cs ds := by
  refine List.mem_filter.mpr ⟨hc, List.contains_iff_exists_mem_beq.mpr ⟨c, hd, ?_⟩⟩
  simp [BEq.beq, Ipld.equalEntries_refl]

theorem mem_unknown_combine {α β : Type} {ofMembers : List α → Option β} {members : List (Selection α)}
    {c : Capability} (some : members ≠ []) (all : ∀ t ∈ members, c ∈ t.unknown) :
    c ∈ (combine ofMembers members).unknown := by
  cases members with
  | nil => exact absurd rfl some
  | cons t rest =>
      have carried : ∀ (rest : List (Selection α)) (known : List Capability), c ∈ known →
          (∀ u ∈ rest, c ∈ u.unknown) →
            c ∈ rest.foldl (fun known u => common known u.unknown) known := by
        intro rest
        induction rest with
        | nil => exact fun _ mem _ => mem
        | cons u rest ih =>
            intro known mem hu
            exact ih _ (mem_common mem (hu u List.mem_cons_self))
              fun v hv => hu v (List.mem_cons_of_mem _ hv)
      exact carried rest t.unknown (all t List.mem_cons_self)
        fun u hu => all u (List.mem_cons_of_mem _ hu)

/-- A choice can be made from lists none of which is empty. -/
theorem exists_choice {α : Type} {lists : List (List α)} (h : ∀ list ∈ lists, list ≠ []) :
    ∃ items, List.Forall₂ (· ∈ ·) items lists := by
  induction lists with
  | nil => exact ⟨[], .nil⟩
  | cons list lists ih =>
      obtain ⟨a, ha⟩ := List.exists_mem_of_ne_nil list (h list List.mem_cons_self)
      obtain ⟨items, chosen⟩ := ih fun l hl => h l (List.mem_cons_of_mem _ hl)
      exact ⟨a :: items, .cons ha chosen⟩

/-- A choice from lists none of which is empty may take any item of any of them. -/
theorem exists_choice_mem {α : Type} {lists : List (List α)} {list : List α} {a : α}
    (mem : list ∈ lists) (ha : a ∈ list) (h : ∀ list ∈ lists, list ≠ []) :
    ∃ items, List.Forall₂ (· ∈ ·) items lists ∧ a ∈ items := by
  induction lists with
  | nil => cases mem
  | cons first lists ih =>
      have later : ∀ list ∈ lists, list ≠ [] := fun l hl => h l (List.mem_cons_of_mem _ hl)
      rcases List.mem_cons.mp mem with rfl | mem
      · obtain ⟨items, chosen⟩ := exists_choice later
        exact ⟨a :: items, .cons ha chosen, List.mem_cons_self⟩
      · obtain ⟨items, chosen, taken⟩ := ih mem later
        obtain ⟨b, hb⟩ := List.exists_mem_of_ne_nil first (h first List.mem_cons_self)
        exact ⟨b :: items, .cons hb chosen, List.mem_cons_of_mem _ taken⟩

end Selection

open Selection

namespace Descriptor

/-- What becomes of a source stands in the selection. -/
theorem accounts_of_mem {d : Descriptor} {given : List Source} {s : Source} (mem : s ∈ given)
    (make : DirectMatch → Match) (source : ∀ m, (make m).sources = [m.source]) :
    ((d.select given).map make).Accounts (· = s.capability) s := by
  have among : d.candidate s ∈ given.map d.candidate := List.mem_map.mpr ⟨s, mem, rfl⟩
  unfold candidate at among
  split at among
  case h_1 value parsed =>
    refine .used ⟨make ⟨d, value, s.capability, s⟩, ?_, by simp [source]⟩
    exact List.mem_map.mpr ⟨_, List.mem_filterMap.mpr ⟨_, among, rfl⟩, rfl⟩
  case h_2 c unknown =>
    obtain rfl : c = s.capability := by
      unfold parse at unknown
      split at unknown
      · split at unknown <;> cases unknown
      · cases unknown
        rfl
    exact .unknown (List.mem_filterMap.mpr ⟨_, among, rfl⟩)
  case h_3 f other rejected =>
    refine .rejected (c := s.capability) (List.mem_filterMap.mpr ⟨_, among, rfl⟩) ?_ rfl
    unfold parse at rejected
    split at rejected
    · split at rejected
      · cases rejected
      · cases rejected
        exact List.mem_singleton_self _
    · exact absurd (Except.error.inj rejected).symm (other _)

end Descriptor

namespace Selector

variable {given : List Source} {s : Source}

/-- A source is lost by a selector: a member of a pair matched it and the other member matches nothing, or
the selectors that this one is made of lost it. -/
inductive Stranded (s : Source) (given : List Source) : Selector → Prop where
  | unpairedLeft {l r : Selector} (uses : (l.select given).Uses s) (none : (r.select given).found = []) :
      Stranded s given (.and l r)
  | unpairedRight {l r : Selector} (uses : (r.select given).Uses s) (none : (l.select given).found = []) :
      Stranded s given (.and l r)
  | left {l r : Selector} (lost : Stranded s given l) : Stranded s given (.and l r)
  | right {l r : Selector} (lost : Stranded s given r) : Stranded s given (.and l r)
  | either {l r : Selector} (left : Stranded s given l) (right : Stranded s given r) :
      Stranded s given (.or l r)

/-- A selected match stands for the capabilities of its sources as they are given. -/
theorem capability_mem {selector : Selector} {m : Match} (h : m ∈ (selector.select given).found)
    (mem : s ∈ m.sources) : s.capability ∈ m.capabilities := by
  induction selector generalizing m with
  | descriptor d =>
      obtain ⟨n, selected, rfl⟩ := List.mem_map.mp h
      obtain ⟨t, -, found⟩ := Descriptor.mem_found_select.mp selected
      obtain ⟨value, -, rfl⟩ := Descriptor.candidate_eq_found found
      obtain rfl : s = t := by simpa [Match.sources] using mem
      exact List.mem_singleton_self _
  | or l r left right =>
      rcases List.mem_append.mp h with h | h
      · exact left h mem
      · exact right h mem
  | and l r left right =>
      obtain ⟨m₁, h₁, h⟩ := List.mem_flatMap.mp h
      obtain ⟨m₂, h₂, rfl⟩ := List.mem_map.mp h
      have split : s ∈ m₁.sources ∨ s ∈ m₂.sources := by
        simpa [Match.sources, Match.sourcesOfAll] using mem
      simp only [Match.capabilities, Match.capabilitiesOfAll, List.append_nil, List.mem_append]
      exact split.imp (left h₁) (right h₂)
  | derive origin target rule =>
      obtain ⟨n, selected, rfl⟩ := List.mem_map.mp h
      obtain ⟨t, -, found⟩ := Descriptor.mem_found_select.mp selected
      obtain ⟨value, -, rfl⟩ := Descriptor.candidate_eq_found found
      obtain rfl : s = t := by simpa [Match.sources] using mem
      exact List.mem_singleton_self _

/-- A pair uses a source that a member uses, if both members find something. -/
theorem uses_and {l r : Selector} (left : (l.select given).found ≠ [])
    (right : (r.select given).found ≠ []) (uses : (l.select given).Uses s ∨ (r.select given).Uses s) :
    ((l.and r).select given).Uses s := by
  have paired : ∀ {m n}, m ∈ (l.select given).found → n ∈ (r.select given).found →
      .group m [n] ∈ ((l.and r).select given).found := fun hm hn =>
    List.mem_flatMap.mpr ⟨_, hm, List.mem_map.mpr ⟨_, hn, rfl⟩⟩
  rcases uses with ⟨m, hm, mem⟩ | ⟨n, hn, mem⟩
  · obtain ⟨n, hn⟩ := List.exists_mem_of_ne_nil _ right
    exact ⟨_, paired hm hn, by simp [Match.sources, mem]⟩
  · obtain ⟨m, hm⟩ := List.exists_mem_of_ne_nil _ left
    exact ⟨_, paired hm hn, by simp [Match.sources, Match.sourcesOfAll, mem]⟩

/-- A selector accounts for every source that it does not strand. -/
theorem accounts_or_stranded (selector : Selector) (mem : s ∈ given) :
    (selector.select given).Accounts (· = s.capability) s ∨ selector.Stranded s given := by
  induction selector with
  | descriptor d => exact Or.inl (Descriptor.accounts_of_mem mem _ fun _ => rfl)
  | derive origin target rule => exact Or.inl (Descriptor.accounts_of_mem mem _ fun _ => rfl)
  | or l r left right =>
      rcases left with left | lostLeft
      · refine Or.inl (left.mono ?_ (List.subset_append_left _ _) (List.subset_append_left _ _)
          fun _ => id)
        exact fun ⟨m, hm, hs⟩ => ⟨m, List.mem_append_left _ hm, hs⟩
      rcases right with right | lostRight
      · refine Or.inl (right.mono ?_ (List.subset_append_right _ _) (List.subset_append_right _ _)
          fun _ => id)
        exact fun ⟨m, hm, hs⟩ => ⟨m, List.mem_append_right _ hm, hs⟩
      exact Or.inr (.either lostLeft lostRight)
  | and l r left right =>
      rcases left with left | lost
      case inr => exact Or.inr (.left lost)
      rcases right with right | lost
      case inr => exact Or.inr (.right lost)
      -- Both members account for the source: an error of either stays, and what neither recognizes stays
      -- unknown, so only a match without a partner is left.
      cases left with
      | rejected error mem names => exact Or.inl (.rejected (List.mem_append_left _ error) mem names)
      | used uses =>
          by_cases none : (r.select given).found = []
          · exact Or.inr (.unpairedLeft uses none)
          · exact Or.inl (.used (uses_and uses.found_ne_nil none (Or.inl uses)))
      | unknown unknownLeft =>
          cases right with
          | rejected error mem names => exact Or.inl (.rejected (List.mem_append_right _ error) mem names)
          | used uses =>
              by_cases none : (l.select given).found = []
              · exact Or.inr (.unpairedRight uses none)
              · exact Or.inl (.used (uses_and none uses.found_ne_nil (Or.inr uses)))
          | unknown unknownRight => exact Or.inl (.unknown (mem_common unknownLeft unknownRight))

end Selector

namespace Match

variable {given : List Source} {s : Source}

/-- The forms in which a match may speak of the capability of a source: as it is given, and resolved against
what the match stands for. -/
def Names (m : Match) (s : Source) (c : Capability) : Prop :=
  c = s.capability ∨ ∃ claimed ∈ m.capabilities, Coverage.resolve? s.capability claimed = some c

/-- A source is lost by a match: a member of a group matched it and another member matches nothing, or only
some members were shown it and none of them recognized it, or what the match is made of lost it. -/
inductive Stranded (s : Source) : (given : List Source) → Match → Prop where
  | origin {given : List Source} {m : DirectMatch} {origin : Selector} {rule : Derivation}
      (uncovered : Coverage.resolve? s.capability m.capability = none) (lost : origin.Stranded s given) :
      Stranded s given (.derived m origin rule)
  | unpaired {given : List Source} {m : Match} {ms : List Match} {k l : Match} (hk : k ∈ m :: ms)
      (uses : (k.select (k.addressed given)).Uses s) (hl : l ∈ m :: ms)
      (none : (l.select (l.addressed given)).found = []) : Stranded s given (.group m ms)
  | unshared {given : List Source} {m : Match} {ms : List Match} {k : Match} (hk : k ∈ m :: ms)
      (hidden : s ∉ k.addressed given)
      (unknown : ∀ l ∈ m :: ms, s ∈ l.addressed given →
        s.capability ∈ (l.select (l.addressed given)).unknown) : Stranded s given (.group m ms)
  | member {given : List Source} {m : Match} {ms : List Match} {k : Match} (hk : k ∈ m :: ms)
      (lost : Stranded s (k.addressed given) k) : Stranded s given (.group m ms)

theorem capabilities_group (m : Match) (ms : List Match) :
    (group m ms).capabilities = (m :: ms).flatMap capabilities := by
  rw [capabilities, eq_flatMap_of_cons (g := capabilitiesOfAll) rfl fun _ _ => rfl, List.flatMap_cons]

theorem Names.of_member {m : Match} {ms : List Match} {k : Match} (mem : k ∈ m :: ms) {c : Capability}
    (h : k.Names s c) : (group m ms).Names s c := by
  rcases h with same | ⟨claimed, among, resolved⟩
  · exact Or.inl same
  · rw [Names, capabilities_group]
    exact Or.inr ⟨claimed, List.mem_flatMap.mpr ⟨k, mem, among⟩, resolved⟩

/-- What becomes of a source that is to prove a match of one capability. -/
inductive Verdict (m : DirectMatch) (given : List Source) (s : Source) : Prop where
  | used {n : DirectMatch} (found : n ∈ (m.select given).found) (source : n.source = s)
  | rejected {f : Failure} {c : Capability} (error : f ∈ (m.select given).errors) (mem : c ∈ f.delegated)
      (names : (direct m).Names s c)
  | unknown (mem : s.capability ∈ (m.select given).unknown)
      (uncovered : Coverage.resolve? s.capability m.capability = none)

theorem verdict {m : DirectMatch} (mem : s ∈ given) : Verdict m given s := by
  have among : m.candidate s ∈ given.map m.candidate := List.mem_map.mpr ⟨s, mem, rfl⟩
  unfold DirectMatch.candidate at among
  split at among
  case h_1 uncovered => exact .unknown (List.mem_filterMap.mpr ⟨_, among, rfl⟩) uncovered
  case h_2 resolved covered =>
    split at among
    case h_1 cause unread =>
      exact .rejected (List.mem_filterMap.mpr ⟨_, among, rfl⟩) (List.mem_singleton_self _) (Or.inl rfl)
    case h_2 value read =>
      split at among
      case h_1 accepted => exact .used (List.mem_filterMap.mpr ⟨_, among, rfl⟩) rfl
      case h_2 problem refused =>
        exact .rejected (List.mem_filterMap.mpr ⟨_, among, rfl⟩) (List.mem_singleton_self _)
          (Or.inr ⟨m.capability, List.mem_singleton_self _, covered⟩)

/-- A derived match accounts for what its origin accounts for, accepted by the rule or not. -/
theorem accounts_derived {m : DirectMatch} {origin : Selector} {rule : Derivation}
    (own : s.capability ∈ (m.select given).unknown)
    (other : (origin.select given).Accounts (· = s.capability) s) :
    ((derived m origin rule).select given).Accounts ((derived m origin rule).Names s) s := by
  cases other with
  | used uses =>
      obtain ⟨n, found, mem⟩ := uses
      cases verdict : rule m.value n.value with
      | ok _ => exact .used ⟨n, mem_found_selectDerived.mpr (Or.inr ⟨found, verdict⟩), mem⟩
      | error problem =>
          refine .rejected (f := .escalatedCapability m.capability n.capabilities problem) ?_
            (Selector.capability_mem found mem) (Or.inl rfl)
          simp only [select, DirectMatch.selectDerived, List.append_assoc]
          refine List.mem_append_left _ (List.mem_filterMap.mpr ⟨n, found, ?_⟩)
          simp [verdict]
  | rejected error mem names => exact .rejected (List.mem_append_right _ error) mem (Or.inl names)
  | unknown mem => exact .unknown (mem_common own mem)

/-- A group uses a source that a member uses, if each member finds something. -/
theorem uses_group {m : Match} {ms : List Match} {k : Match} (mem : k ∈ m :: ms)
    (uses : (k.select (k.addressed given)).Uses s)
    (all : ∀ l ∈ m :: ms, (l.select (l.addressed given)).found ≠ []) :
    ((group m ms).select given).Uses s := by
  obtain ⟨n, found, hs⟩ := uses
  have member : (k.select (k.addressed given)).found ∈
      (m :: ms).map fun l => (l.select (l.addressed given)).found :=
    List.mem_map.mpr ⟨k, mem, rfl⟩
  obtain ⟨items, chosen, taken⟩ := exists_choice_mem member found (by simpa using all)
  cases items with
  | nil => cases taken
  | cons first others =>
      refine ⟨group first others, ?_, ?_⟩
      · rw [select_group]
        refine mem_found_combine.mpr ⟨first :: others, ?_, rfl⟩
        rw [List.forall₂_map_right_iff] at chosen ⊢
        exact chosen
      · exact (mem_sources_ofMembers rfl).mpr ⟨n, taken, hs⟩

/-- What all members of a group do not recognize, the group does not. -/
theorem unknown_group {m : Match} {ms : List Match} {c : Capability}
    (all : ∀ k ∈ m :: ms, c ∈ (k.select (k.addressed given)).unknown) :
    c ∈ ((group m ms).select given).unknown := by
  rw [select_group]
  exact mem_unknown_combine (by simp) (by simpa using all)

/-- A match accounts for every source that it does not strand. -/
theorem accounts_or_stranded (m : Match) (mem : s ∈ given) :
    (m.select given).Accounts (m.Names s) s ∨ m.Stranded s given := by
  induction m using induct generalizing given with
  | direct m =>
      cases verdict (m := m) mem with
      | used found source =>
          exact Or.inl (.used ⟨_, List.mem_map.mpr ⟨_, found, rfl⟩, by simp [sources, source]⟩)
      | rejected error mem names => exact Or.inl (.rejected error mem names)
      | unknown mem uncovered => exact Or.inl (.unknown mem)
  | derived m origin rule =>
      cases verdict (m := m) mem with
      | used found source =>
          refine Or.inl (.used ⟨_, mem_found_selectDerived.mpr (Or.inl ⟨_, found, rfl⟩), ?_⟩)
          simp [sources, source]
      | rejected error mem names =>
          refine Or.inl (.rejected (List.mem_append_left _ (List.mem_append_right _ error)) mem names)
      | unknown unknown uncovered =>
          rcases origin.accounts_or_stranded mem with accounts | lost
          · exact Or.inl (accounts_derived unknown accounts)
          · exact Or.inr (.origin uncovered lost)
  | group m ms ih =>
      by_cases some : ∃ k ∈ m :: ms, s ∈ k.addressed given ∧
          ¬ s.capability ∈ (k.select (k.addressed given)).unknown
      · obtain ⟨k, hk, shown, recognized⟩ := some
        rcases ih k hk shown with accounts | lost
        case inr => exact Or.inr (.member hk lost)
        cases accounts with
        | used uses =>
            by_cases all : ∀ l ∈ m :: ms, (l.select (l.addressed given)).found ≠ []
            · exact Or.inl (.used (uses_group hk uses all))
            · push Not at all
              obtain ⟨l, hl, none⟩ := all
              exact Or.inr (.unpaired hk uses hl none)
        | rejected error mem names =>
            refine Or.inl (.rejected ?_ mem (names.of_member hk))
            rw [select_group]
            simp only [combine, List.flatMap_map]
            exact List.mem_flatMap.mpr ⟨k, hk, error⟩
        | unknown mem => exact absurd mem recognized
      · push Not at some
        -- Whoever was shown the source does not recognize it, so it is unknown if all members were.
        by_cases all : ∀ k ∈ m :: ms, s ∈ k.addressed given
        · exact Or.inl (.unknown (unknown_group fun k hk => some k hk (all k hk)))
        · push Not at all
          obtain ⟨k, hk, hidden⟩ := all
          exact Or.inr (.unshared hk hidden some)

end Match

/-- What a selector finds and what proves a match account for every source that they were given, unless it is
stranded in a pair or in a group. -/
theorem Selection.accounts_unless_stranded {given : List Source} {s : Source} (mem : s ∈ given)
    (selector : Selector) (m : Match) :
    ((selector.select given).Accounts (· = s.capability) s ∨ selector.Stranded s given) ∧
    ((m.select given).Accounts (m.Names s) s ∨ m.Stranded s given) :=
  ⟨selector.accounts_or_stranded mem, m.accounts_or_stranded mem⟩

/-- What the service lets Alice do is accounted for when it is selected and when it proves what she and Bob
let Carol do. -/
theorem Selection.accounts_unless_stranded_joint :
    ∃ claimed given a b s, Sample.joint = .ok (claimed, given) ∧
      Match.group a [b] ∈ ((Sample.adding.and Sample.uploading).select claimed).found ∧ s ∈ given ∧
      (((Sample.adding.and Sample.uploading).select given).Accounts (· = s.capability) s ∨
        (Sample.adding.and Sample.uploading).Stranded s given) ∧
      (((Match.group a [b]).select given).Accounts ((Match.group a [b]).Names s) s ∨
        (Match.group a [b]).Stranded s given) := by
  have holds : Sample.joint.toOption.any (fun (claimed, given) =>
      Sample.testPair Sample.adding Sample.uploading claimed fun _ _ => decide (given.length = 2)) =
        true := by
    decide +kernel
  obtain ⟨⟨claimed, given⟩, made, h⟩ := Sample.exists_of_any holds
  obtain ⟨a, ha, b, hb, two⟩ := Sample.exists_of_testPair h
  obtain ⟨s, mem⟩ := List.exists_mem_of_length_pos (by rw [of_decide_eq_true two]; decide)
  exact ⟨claimed, given, a, b, s, made, Sample.mem_select_and ha hb, mem,
    accounts_unless_stranded mem (Sample.adding.and Sample.uploading) (Match.group a [b])⟩

/-- A pair of selectors loses the only source if one of them finds it and the other does not recognize it. -/
theorem Selection.not_accounts_unpaired :
    ∃ d s, Sample.grant Sample.alice Sample.carol "store/add" [] [] = .ok d ∧ Source.all d = [s] ∧
      (Sample.adding.select [s]).Uses s ∧
      ∀ named, ¬ ((Sample.adding.and Sample.uploading).select [s]).Accounts named s := by
  have holds : (Sample.grant Sample.alice Sample.carol "store/add" [] []).toOption.any (fun d =>
      let alone := Sample.adding.select (Source.all d)
      let pair := (Sample.adding.and Sample.uploading).select (Source.all d)
      decide ((Source.all d).length = 1 ∧ alone.found.length = 1 ∧ pair.found.length = 0 ∧
        pair.errors.length = 0 ∧ pair.unknown.length = 0)) = true := by
    decide +kernel
  obtain ⟨d, made, h⟩ := Sample.exists_of_any holds
  obtain ⟨one, found, noFound, noErrors, noUnknown⟩ := of_decide_eq_true h
  obtain ⟨s, one⟩ := List.length_eq_one_iff.mp one
  rw [one] at found noFound noErrors noUnknown
  refine ⟨d, s, made, one, ?_, ?_⟩
  · obtain ⟨m, mem⟩ := List.exists_mem_of_length_pos (by rw [found]; decide)
    obtain ⟨t, ht⟩ := List.exists_mem_of_ne_nil _ m.sources_ne_nil
    have only := List.mem_singleton.mp (Selector.mem_of_mem_sources mem ht)
    exact ⟨m, mem, only ▸ ht⟩
  · intro named accounts
    cases accounts with
    | used uses => exact uses.found_ne_nil (List.length_eq_zero_iff.mp noFound)
    | rejected error mem names => simp [List.length_eq_zero_iff.mp noErrors] at error
    | unknown mem => simp [List.length_eq_zero_iff.mp noUnknown] at mem

end Mandate

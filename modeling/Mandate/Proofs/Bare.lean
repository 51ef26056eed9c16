import Mandate.Proofs.Accounting

/-!
# What a search sees of a delegation

Selecting and pruning look at what a delegation says and never at what is attached to it. So a selection
among sources whose attachments were taken off is the same selection, without the attachments. Only the
gathering of proofs looks at attachments.
-/

namespace Mandate

/-! ## Sources and matches without attachments -/

namespace Source

/-- The same source of the delegation without its attachments. -/
def bare (s : Source) : Source := ⟨s.delegation.bare, s.index⟩

@[simp] theorem delegation_bare (s : Source) : s.bare.delegation = s.delegation.bare := rfl

@[simp] theorem capability_bare (s : Source) : s.bare.capability = s.capability := rfl

theorem all_bare (d : Delegation) : all d.bare = (all d).map bare := by
  rw [all, all, List.map_map]
  rfl

end Source

namespace DirectMatch

def bare (m : DirectMatch) : DirectMatch := { m with source := m.source.bare }

@[simp] theorem descriptor_bare (m : DirectMatch) : m.bare.descriptor = m.descriptor := rfl

@[simp] theorem value_bare (m : DirectMatch) : m.bare.value = m.value := rfl

@[simp] theorem capability_bare (m : DirectMatch) : m.bare.capability = m.capability := rfl

@[simp] theorem isSelfIssued_bare (m : DirectMatch) (mayIssue : Issuance) :
    m.bare.isSelfIssued mayIssue = m.isSelfIssued mayIssue := rfl

end DirectMatch

namespace Match

mutual

/-- The match with every source bare. -/
def bare : Match → Match
  | direct m => direct m.bare
  | derived m origin rule => derived m.bare origin rule
  | group m ms => group (bare m) (bareAll ms)

def bareAll : List Match → List Match
  | [] => []
  | m :: ms => bare m :: bareAll ms

end

theorem bare_group (m : Match) (ms : List Match) : (group m ms).bare = group m.bare (ms.map bare) := by
  rw [bare, eq_map_of_cons (g := bareAll) rfl fun _ _ => rfl]

theorem ofMembers?_bare (ms : List Match) : ofMembers? (ms.map bare) = (ofMembers? ms).map bare := by
  cases ms with
  | nil => rfl
  | cons m ms => exact congrArg some (bare_group m ms).symm

theorem sources_group (m : Match) (ms : List Match) :
    (group m ms).sources = (m :: ms).flatMap sources := by
  rw [sources, eq_flatMap_of_cons (g := sourcesOfAll) rfl fun _ _ => rfl, List.flatMap_cons]

theorem value_group (m : Match) (ms : List Match) :
    (group m ms).value = .all ((m :: ms).map value) := by
  rw [value, eq_map_of_cons (g := values) rfl fun _ _ => rfl, List.map_cons]

@[simp] theorem capabilities_bare (m : Match) : m.bare.capabilities = m.capabilities := by
  induction m using induct with
  | direct m => rfl
  | derived m origin rule => rfl
  | group m ms ih =>
      rw [bare_group, capabilities_group, capabilities_group, ← List.map_cons, List.flatMap_map]
      exact List.flatMap_congr ih

@[simp] theorem sources_bare (m : Match) : m.bare.sources = m.sources.map Source.bare := by
  induction m using induct with
  | direct m => rfl
  | derived m origin rule => rfl
  | group m ms ih =>
      rw [bare_group, sources_group, sources_group, ← List.map_cons, List.flatMap_map, List.map_flatMap]
      exact List.flatMap_congr ih

@[simp] theorem value_bare (m : Match) : m.bare.value = m.value := by
  induction m using induct with
  | direct m => rfl
  | derived m origin rule => rfl
  | group m ms ih =>
      rw [bare_group, value_group, value_group, ← List.map_cons, List.map_map]
      exact congrArg Value.all (List.map_congr_left ih)

@[simp] theorem delegation_bare (m : Match) : m.bare.delegation = m.delegation.bare := by
  induction m using induct with
  | direct m => rfl
  | derived m origin rule => rfl
  | group m ms ih =>
      rw [bare_group]
      exact ih m List.mem_cons_self

end Match

/-! ## Selecting and pruning -/

namespace Candidate

variable {α β : Type}

def map (f : α → β) : Candidate α → Candidate β
  | found item => found (f item)
  | rejected e => rejected e
  | unknown c => unknown c

end Candidate

namespace Selection

variable {α β γ δ : Type}

theorem ofCandidates_map (f : α → β) (cs : List (Candidate α)) :
    ofCandidates (cs.map (·.map f)) = (ofCandidates cs).map f := by
  simp only [ofCandidates, Selection.map, List.filterMap_map, List.map_filterMap, Selection.mk.injEq]
  refine ⟨?_, ?_, ?_⟩ <;>
  · congr 1
    funext c
    cases c <;> rfl

theorem choices_map (f : α → β) (lists : List (List α)) :
    choices (lists.map (·.map f)) = (choices lists).map (·.map f) := by
  induction lists with
  | nil => rfl
  | cons list lists ih =>
      rw [List.map_cons, choices, choices, ih]
      simp [List.map_flatMap, List.flatMap_map, Function.comp_def]

/-- Members that are changed one by one change what they select together. -/
theorem combine_map {f : α → β} {g : γ → δ} {whole : List α → Option γ} {whole' : List β → Option δ}
    (same : ∀ items, whole' (items.map f) = (whole items).map g) (members : List (Selection α)) :
    combine whole' (members.map (·.map f)) = (combine whole members).map g := by
  have lists : (members.map (·.map f)).map (·.found) = (members.map (·.found)).map (·.map f) := by
    rw [List.map_map, List.map_map]
    rfl
  have known : ∀ (members : List (Selection α)) (start : List Capability),
      (members.map (·.map f)).foldl (fun known t => common known t.unknown) start =
        members.foldl (fun known t => common known t.unknown) start := by
    intro members
    induction members with
    | nil => exact fun _ => rfl
    | cons s rest ih => exact fun start => ih (common start s.unknown)
  simp only [combine]
  rw [Selection.map, Selection.mk.injEq]
  refine ⟨?_, ?_, ?_⟩
  · rw [lists, choices_map, List.filterMap_map, List.map_filterMap]
    congr 1
    funext items
    exact same items
  · rw [List.flatMap_map]
    rfl
  · cases members with
    | nil => rfl
    | cons s rest => exact known rest s.unknown

end Selection

namespace Descriptor

theorem candidate_bare (d : Descriptor) (s : Source) :
    d.candidate s.bare = (d.candidate s).map DirectMatch.bare := by
  unfold candidate
  rw [Source.capability_bare]
  split <;> rfl

theorem select_bare (d : Descriptor) (given : List Source) :
    d.select (given.map Source.bare) = (d.select given).map DirectMatch.bare := by
  rw [select, select, ← Selection.ofCandidates_map, List.map_map, List.map_map]
  congr 1
  exact List.map_congr_left fun s _ => d.candidate_bare s

end Descriptor

namespace Selector

theorem select_bare (selector : Selector) (given : List Source) :
    selector.select (given.map Source.bare) = (selector.select given).map Match.bare := by
  induction selector with
  | descriptor d =>
      rw [select, select, d.select_bare]
      simp only [Selection.map, List.map_map]
      rfl
  | derive origin target rule =>
      rw [select, select, target.select_bare]
      simp only [Selection.map, List.map_map]
      rfl
  | or l r left right =>
      rw [select, select, left, right]
      simp [Selection.append, Selection.map]
  | and l r left right =>
      rw [select, select, left, right]
      simp [Selection.map, List.map_flatMap, List.flatMap_map, Match.bare_group, Function.comp_def]

end Selector

namespace DirectMatch

theorem candidate_bare (m : DirectMatch) (s : Source) :
    m.bare.candidate s.bare = (m.candidate s).map bare := by
  simp only [candidate, Source.capability_bare, capability_bare, descriptor_bare, value_bare]
  cases Coverage.resolve? s.capability m.capability with
  | none => rfl
  | some resolved =>
      simp only
      cases m.descriptor.read resolved with
      | error cause => rfl
      | ok value =>
          simp only
          cases m.descriptor.rule m.value value <;> rfl

theorem select_bare (m : DirectMatch) (given : List Source) :
    m.bare.select (given.map Source.bare) = (m.select given).map bare := by
  rw [select, select, ← Selection.ofCandidates_map, List.map_map, List.map_map]
  congr 1
  exact List.map_congr_left fun s _ => m.candidate_bare s

theorem selectDerived_bare (m : DirectMatch) (origin : Selector) (rule : Derivation)
    (given : List Source) :
    m.bare.selectDerived origin rule (given.map Source.bare) =
      (m.selectDerived origin rule given).map Match.bare := by
  simp only [selectDerived, select_bare, Selector.select_bare, Selection.map, List.map_append,
    List.map_map, List.filter_map, List.filterMap_map, value_bare, capability_bare, Function.comp_def,
    Match.value_bare, Match.capabilities_bare]
  rfl

end DirectMatch

namespace Match

theorem addressed_bare (m : Match) (given : List Source) :
    m.bare.addressed (given.map Source.bare) = (m.addressed given).map Source.bare := by
  rw [addressed, addressed, List.filter_map, delegation_bare]
  rfl

/-- What proves a match without attachments is what proves the match, without attachments. -/
theorem select_bare (m : Match) (given : List Source) :
    m.bare.select (given.map Source.bare) = (m.select given).map bare := by
  induction m using induct generalizing given with
  | direct m =>
      rw [bare, select, select, m.select_bare]
      simp only [Selection.map, List.map_map]
      rfl
  | derived m origin rule => exact m.selectDerived_bare origin rule given
  | group m ms ih =>
      rw [bare_group, select_group, select_group, ← Selection.combine_map ofMembers?_bare, List.map_map,
        ← List.map_cons, List.map_map]
      congr 1
      refine List.map_congr_left fun k mem => ?_
      simp only [Function.comp_apply, addressed_bare, ih k mem]

theorem prune_group (mayIssue : Issuance) (m : Match) (ms : List Match) :
    (group m ms).prune mayIssue = ofMembers? ((m :: ms).flatMap fun k => (k.prune mayIssue).toList) := by
  rw [prune, eq_flatMap_of_cons (g := pruneAll mayIssue) rfl fun _ _ => rfl, List.flatMap_cons]

theorem prune_bare (mayIssue : Issuance) (m : Match) :
    m.bare.prune mayIssue = (m.prune mayIssue).map bare := by
  induction m using induct with
  | direct m =>
      rw [bare, prune, prune, DirectMatch.isSelfIssued_bare]
      split <;> rfl
  | derived m origin rule =>
      rw [bare, prune, prune, DirectMatch.isSelfIssued_bare]
      split <;> rfl
  | group m ms ih =>
      rw [bare_group, prune_group, prune_group, ← ofMembers?_bare, List.map_flatMap, ← List.map_cons,
        List.flatMap_map]
      refine congrArg ofMembers? (List.flatMap_congr fun k mem => ?_)
      rw [ih k mem, Option.toList_map]

end Match

end Mandate

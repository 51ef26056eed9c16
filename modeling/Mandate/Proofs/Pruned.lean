import Mandate.Proofs.Bare

/-!
# What pruning leaves

A leaf of a match claims one capability on the strength of one source, and is issued if the issuer of that
source may issue the capability outright. Pruning takes the issued leaves out of a match, in whatever group
inside a group they stand, and keeps the others as they are and in their order. It is done at once: of what is
left, nothing more is pruned.
-/

namespace Mandate.Match

mutual

/-- The capabilities that a match stands for, each with the source that it was built from. -/
def claims : Match → List (Capability × Source)
  | direct m => [(m.capability, m.source)]
  | derived m _ _ => [(m.capability, m.source)]
  | group m ms => claims m ++ claimsOfAll ms

def claimsOfAll : List Match → List (Capability × Source)
  | [] => []
  | m :: ms => claims m ++ claimsOfAll ms

end

theorem claims_group (m : Match) (ms : List Match) :
    (group m ms).claims = (m :: ms).flatMap claims := by
  rw [claims, eq_flatMap_of_cons (g := claimsOfAll) rfl fun _ _ => rfl, List.flatMap_cons]

theorem map_fst_claims (m : Match) : m.claims.map (·.1) = m.capabilities := by
  induction m using induct with
  | direct m => rfl
  | derived m origin rule => rfl
  | group m ms ih =>
      rw [claims_group, capabilities_group, List.map_flatMap]
      exact List.flatMap_congr ih

theorem map_snd_claims (m : Match) : m.claims.map (·.2) = m.sources := by
  induction m using induct with
  | direct m => rfl
  | derived m origin rule => rfl
  | group m ms ih =>
      rw [claims_group, sources_group, List.map_flatMap]
      exact List.flatMap_congr ih

theorem claims_ne_nil (m : Match) : m.claims ≠ [] := by
  intro none
  apply m.sources_ne_nil
  rw [← map_snd_claims, none, List.map_nil]

/-- Whether all that a match claims may be issued outright. -/
def isIssued (mayIssue : Issuance) (m : Match) : Bool :=
  m.claims.all fun e => mayIssue e.1 e.2.delegation.issuer

section

variable {mayIssue : Issuance} {m rest : Match} {β : Type} {f : Match → List β}

/-- What is collected from the members of a group is collected from the list that it is made of. -/
theorem flatMap_ofMembers (group : ∀ m ms, f (group m ms) = (m :: ms).flatMap f) (ms : List Match) :
    (ofMembers? ms).toList.flatMap f = ms.flatMap f := by
  cases ms with
  | nil => rfl
  | cons m ms =>
      show [Match.group m ms].flatMap f = (m :: ms).flatMap f
      rw [List.flatMap_singleton, group]

/-- If pruning filters what is collected from a leaf, it filters what is collected from a match. -/
theorem flatMap_prune {keep : β → Bool} (group : ∀ m ms, f (group m ms) = (m :: ms).flatMap f)
    (direct : ∀ m, ((direct m).prune mayIssue).toList.flatMap f = (f (direct m)).filter keep)
    (derived : ∀ m origin rule,
      ((derived m origin rule).prune mayIssue).toList.flatMap f = (f (derived m origin rule)).filter keep)
    (m : Match) : (m.prune mayIssue).toList.flatMap f = (f m).filter keep := by
  induction m using induct with
  | direct m => exact direct m
  | derived m origin rule => exact derived m origin rule
  | group m ms ih =>
      rw [prune_group, flatMap_ofMembers group, List.flatMap_assoc, group, List.filter_flatMap]
      exact List.flatMap_congr ih

theorem leaves_prune (m : Match) :
    (m.prune mayIssue).toList.flatMap leaves = m.leaves.filter fun l => !l.isIssued mayIssue := by
  refine flatMap_prune leaves_group (fun m => ?_) (fun m origin rule => ?_) m
  all_goals
    rw [prune, DirectMatch.isSelfIssued]
    cases issued : mayIssue m.capability m.source.delegation.issuer <;>
      simp [leaves, isIssued, claims, issued]

theorem claims_prune (m : Match) : (m.prune mayIssue).toList.flatMap claims =
    m.claims.filter fun e => !mayIssue e.1 e.2.delegation.issuer := by
  refine flatMap_prune claims_group (fun m => ?_) (fun m origin rule => ?_) m
  all_goals
    rw [prune, DirectMatch.isSelfIssued]
    cases issued : mayIssue m.capability m.source.delegation.issuer <;> simp [claims, issued]

theorem leaves_of_prune (h : m.prune mayIssue = some rest) :
    rest.leaves = m.leaves.filter fun l => !l.isIssued mayIssue := by
  rw [← leaves_prune, h, Option.toList_some, List.flatMap_singleton]

theorem claims_of_prune (h : m.prune mayIssue = some rest) :
    rest.claims = m.claims.filter fun e => !mayIssue e.1 e.2.delegation.issuer := by
  rw [← claims_prune, h, Option.toList_some, List.flatMap_singleton]

theorem prune_eq_none_iff : m.prune mayIssue = none ↔ m.isIssued mayIssue = true := by
  have left : (m.prune mayIssue).toList.flatMap claims = _ := claims_prune m
  cases h : m.prune mayIssue with
  | none =>
      rw [h, Option.toList_none, List.flatMap_nil, eq_comm, List.filter_eq_nil_iff] at left
      simpa [isIssued] using left
  | some rest =>
      rw [h, Option.toList_some, List.flatMap_singleton] at left
      have some_left := rest.claims_ne_nil
      rw [left] at some_left
      simpa [isIssued] using some_left

/-- What is left of a match is left of itself. -/
theorem prune_of_prune (h : m.prune mayIssue = some rest) : rest.prune mayIssue = some rest := by
  induction m using induct generalizing rest with
  | direct m =>
      obtain ⟨-, rfl⟩ := prune_direct_eq_some_iff.mp h
      exact h
  | derived m origin rule =>
      obtain ⟨-, rfl⟩ := prune_derived_eq_some_iff.mp h
      exact h
  | group m ms ih =>
      rw [prune_group] at h
      have again : ∀ k ∈ (m :: ms).flatMap fun k => (k.prune mayIssue).toList,
          k.prune mayIssue = some k := by
        intro k left
        obtain ⟨member, among, left⟩ := List.mem_flatMap.mp left
        exact ih member among (Option.mem_toList.mp left)
      cases members : (m :: ms).flatMap fun k => (k.prune mayIssue).toList with
      | nil =>
          rw [members] at h
          cases h
      | cons first others =>
          rw [members] at h again
          cases h
          have same : ((first :: others).flatMap fun k => (k.prune mayIssue).toList) =
              (first :: others).flatMap fun k => [k] :=
            List.flatMap_congr fun k mem => by rw [again k mem, Option.toList_some]
          rw [prune_group, same, List.flatMap_singleton']
          rfl

/-- Pruning leaves nothing if and only if the issuer of each leaf may issue the capability of the leaf. Otherwise
it leaves the other leaves, each once and in order, with their capabilities and sources, and what it leaves is
not pruned any further. -/
theorem prune_exact (m : Match) (mayIssue : Issuance) :
    (m.prune mayIssue = none ↔ ∀ e ∈ m.claims, mayIssue e.1 e.2.delegation.issuer = true) ∧
    ∀ rest, m.prune mayIssue = some rest →
      rest.leaves = m.leaves.filter (fun l => !l.isIssued mayIssue) ∧
      rest.capabilities =
        (m.claims.filter fun e => !mayIssue e.1 e.2.delegation.issuer).map (·.1) ∧
      rest.sources = (m.claims.filter fun e => !mayIssue e.1 e.2.delegation.issuer).map (·.2) ∧
      rest.prune mayIssue = some rest := by
  refine ⟨?_, fun rest h => ⟨leaves_of_prune h, ?_, ?_, prune_of_prune h⟩⟩
  · rw [prune_eq_none_iff, isIssued, List.all_eq_true]
  · rw [← map_fst_claims, claims_of_prune h]
  · rw [← map_snd_claims, claims_of_prune h]

end

/-- Of two pairs in a pair, in which Alice and Bob each make the same two claims to what is Alice's, hers are
issued and his are left, one in each pair. -/
theorem prune_exact_joint :
    ∃ claimed given a b rest, Sample.joint = .ok (claimed, given) ∧
      group (group a [b]) [group b [a]] ∈ (((Sample.adding.and Sample.uploading).and
        (Sample.uploading.and Sample.adding)).select claimed).found ∧
      (group (group a [b]) [group b [a]]).prune Capability.isOwnedBy = some rest ∧
      rest.leaves = (group (group a [b]) [group b [a]]).leaves.filter
        (fun l => !l.isIssued Capability.isOwnedBy) ∧
      rest.leaves.length = 2 ∧ rest.prune Capability.isOwnedBy = some rest := by
  have holds : Sample.joint.toOption.any (fun (claimed, _) =>
      Sample.testPair Sample.adding Sample.uploading claimed fun a b =>
        ((group (group a [b]) [group b [a]]).prune Capability.isOwnedBy).any fun rest =>
          rest.leaves.length == 2) = true := by
    decide +kernel
  obtain ⟨⟨claimed, given⟩, made, h⟩ := Sample.exists_of_any holds
  obtain ⟨a, ha, b, hb, h⟩ := Sample.exists_of_testPair h
  obtain ⟨rest, left, two⟩ := (Option.any_eq_true _ _).mp h
  obtain ⟨kept, -, -, again⟩ := (prune_exact _ Capability.isOwnedBy).2 rest left
  exact ⟨claimed, given, a, b, rest, made,
    Sample.mem_select_and (Sample.mem_select_and ha hb) (Sample.mem_select_and hb ha), left, kept,
    eq_of_beq two, again⟩

end Mandate.Match

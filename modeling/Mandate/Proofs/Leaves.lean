import Mandate.Proofs.Soundness

/-!
# Groups and their leaves

The members of a group may be groups themselves, so that below a group stand leaves, which are none. What a
group selects is a choice of one match for each leaf, in the order of the leaves. In which group inside the
group a leaf stands makes no difference as long as each member speaks for one issuer. A member that is a
group is only shown the sources that are addressed to the issuer of its first leaf, so a member whose leaves
have several issuers selects nothing.
-/

namespace Mandate

namespace Selection

variable {α β γ : Type}

/-- The choices from some lists and from others, the first lists varying slowest. -/
theorem choices_append (lists others : List (List α)) :
    choices (lists ++ others) =
      (choices lists).flatMap fun items => (choices others).map (items ++ ·) := by
  induction lists with
  | nil => simp [choices]
  | cons list lists ih =>
      rw [List.cons_append, choices, choices, ih]
      simp only [List.flatMap_assoc, List.map_flatMap, List.flatMap_map, List.map_map]
      rfl

/-- From an empty list nothing can be chosen. -/
theorem choices_eq_nil {lists : List (List α)} (h : [] ∈ lists) : choices lists = [] := by
  induction lists with
  | nil => cases h
  | cons list lists ih =>
      rw [choices]
      rcases List.mem_cons.mp h with none | later
      · rw [← none, List.flatMap_nil]
      · simp [ih later]

/-- Where each list has the parts of what can be chosen from further lists, a choice from all of them has the
parts of a choice from all of the further lists. -/
theorem choices_flatMap {parts : α → List β} {lists : γ → List α} {further : γ → List (List α)}
    {ks : List γ}
    (h : ∀ k ∈ ks, (lists k).map parts = (choices (further k)).map (·.flatMap parts)) :
    (choices (ks.map lists)).map (·.flatMap parts) =
      (choices (ks.flatMap further)).map (·.flatMap parts) := by
  induction ks with
  | nil => rfl
  | cons k ks ih =>
      have rest := ih fun k' mem => h k' (List.mem_cons_of_mem _ mem)
      have first := h k List.mem_cons_self
      have split : ∀ choice : List (List α), ∀ others : List (List α),
          (choice.flatMap fun items => others.map (items ++ ·)).map (·.flatMap parts) =
            (choice.map (·.flatMap parts)).flatMap fun p =>
              (others.map (·.flatMap parts)).map (p ++ ·) := by
        intro choice others
        simp [List.map_flatMap, List.flatMap_map, List.flatMap_append, Function.comp_def]
      have single : choices (lists k :: ks.map lists) =
          ((lists k).map ([·])).flatMap fun items => (choices (ks.map lists)).map (items ++ ·) := by
        rw [choices, List.flatMap_map]
        rfl
      rw [List.map_cons, List.flatMap_cons, choices_append, single, split, split, rest, ← first]
      simp [Function.comp_def]

end Selection

namespace Match

variable {given : List Source}

mutual

/-- What stands below a match and is no group, from left to right. -/
def leaves : Match → List Match
  | direct m => [direct m]
  | derived m origin rule => [derived m origin rule]
  | group m ms => leaves m ++ leavesOfAll ms

def leavesOfAll : List Match → List Match
  | [] => []
  | m :: ms => leaves m ++ leavesOfAll ms

end

mutual

/-- The leaves of a match, each with the sources that it is shown. -/
def views : Match → List Source → List (Match × List Source)
  | direct m, given => [(direct m, given)]
  | derived m origin rule, given => [(derived m origin rule, given)]
  | group m ms, given => views m (m.addressed given) ++ viewsOfAll ms given

def viewsOfAll : List Match → List Source → List (Match × List Source)
  | [], _ => []
  | m :: ms, given => views m (m.addressed given) ++ viewsOfAll ms given

end

/-- What holds of leaves, and of a group if it holds of its members, holds of every match. -/
@[elab_as_elim]
theorem induct {P : Match → Prop} (direct : ∀ m, P (.direct m))
    (derived : ∀ m origin rule, P (.derived m origin rule))
    (group : ∀ m ms, (∀ k ∈ m :: ms, P k) → P (.group m ms)) (m : Match) : P m :=
  m.rec (motive_1 := P) (motive_2 := fun ms => ∀ k ∈ ms, P k) direct derived
    (fun m ms hm hms => group m ms (List.forall_mem_cons.mpr ⟨hm, hms⟩)) (by simp)
    (fun _ _ hm hms => List.forall_mem_cons.mpr ⟨hm, hms⟩)

/-- What is collected from members one after the other is collected from each of them. -/
theorem eq_flatMap_of_cons {β : Type} {f : Match → List β} {g : List Match → List β} (nil : g [] = [])
    (cons : ∀ m ms, g (m :: ms) = f m ++ g ms) (ms : List Match) : g ms = ms.flatMap f := by
  induction ms with
  | nil => exact nil
  | cons m ms ih => rw [cons, ih, List.flatMap_cons]

/-- What is made of members one after the other is made of each of them. -/
theorem eq_map_of_cons {β : Type} {f : Match → β} {g : List Match → List β} (nil : g [] = [])
    (cons : ∀ m ms, g (m :: ms) = f m :: g ms) (ms : List Match) : g ms = ms.map f := by
  induction ms with
  | nil => exact nil
  | cons m ms ih => rw [cons, ih, List.map_cons]

theorem leaves_group (m : Match) (ms : List Match) :
    (group m ms).leaves = (m :: ms).flatMap leaves := by
  rw [leaves, eq_flatMap_of_cons (g := leavesOfAll) rfl fun _ _ => rfl, List.flatMap_cons]

theorem views_group (m : Match) (ms : List Match) (given : List Source) :
    (group m ms).views given = (m :: ms).flatMap fun k => k.views (k.addressed given) := by
  rw [views, eq_flatMap_of_cons (g := fun ms => viewsOfAll ms given) rfl fun _ _ => rfl,
    List.flatMap_cons]

theorem selectEach_eq (ms : List Match) (given : List Source) :
    selectEach ms given = ms.map fun k => k.select (k.addressed given) :=
  eq_map_of_cons (g := fun ms => selectEach ms given) rfl (fun _ _ => rfl) ms

theorem select_group (m : Match) (ms : List Match) (given : List Source) :
    (group m ms).select given =
      Selection.combine ofMembers? ((m :: ms).map fun k => k.select (k.addressed given)) := by
  rw [select, selectEach_eq, List.map_cons]

/-- The views of a match are of its leaves. -/
theorem map_views (m : Match) (given : List Source) : (m.views given).map (·.1) = m.leaves := by
  induction m using induct generalizing given with
  | direct m => rfl
  | derived m origin rule => rfl
  | group m ms ih =>
      rw [views_group, leaves_group, List.map_flatMap]
      exact List.flatMap_congr fun k mem => ih k mem _

/-- A match begins with a leaf that has its delegation. -/
theorem exists_first_leaf (m : Match) : ∃ l ∈ m.leaves, l.delegation = m.delegation := by
  induction m using induct with
  | direct m => exact ⟨_, List.mem_singleton_self _, rfl⟩
  | derived m origin rule => exact ⟨_, List.mem_singleton_self _, rfl⟩
  | group m ms ih =>
      obtain ⟨l, mem, same⟩ := ih m List.mem_cons_self
      rw [leaves_group]
      exact ⟨l, List.mem_flatMap.mpr ⟨m, List.mem_cons_self, mem⟩, same⟩

/-- Among no sources nothing is found. -/
theorem found_select_nil (m : Match) : (m.select []).found = [] := by
  rw [List.eq_nil_iff_forall_not_mem]
  intro n found
  obtain ⟨s, mem⟩ := List.exists_mem_of_ne_nil _ n.sources_ne_nil
  exact absurd (mem_of_mem_sources m found mem) List.not_mem_nil

/-- A choice with an item for a first member makes a group of it and of the others. -/
theorem filterMap_ofMembers (list : List Match) (lists : List (List Match)) :
    (Selection.choices (list :: lists)).filterMap ofMembers? =
      list.flatMap fun k => (Selection.choices lists).map (group k) := by
  rw [Selection.choices, List.filterMap_flatMap]
  refine List.flatMap_congr fun k _ => ?_
  rw [List.filterMap_map]
  change (Selection.choices lists).filterMap (some ∘ group k) = _
  rw [List.filterMap_eq_map]

/-- A match selects one match for each choice of what its leaves select among the sources that they are
shown, made of just these. -/
theorem map_leaves_select (m : Match) (given : List Source) :
    (m.select given).found.map leaves =
      (Selection.choices ((m.views given).map fun v => (v.1.select v.2).found)).map
        (·.flatMap leaves) := by
  induction m using induct generalizing given with
  | direct m => simp [views, Selection.choices, ← List.map_eq_flatMap]
  | derived m origin rule => simp [views, Selection.choices, ← List.map_eq_flatMap]
  | group m ms ih =>
      have whole : ((group m ms).select given).found.map leaves =
          (Selection.choices ((m :: ms).map fun k => (k.select (k.addressed given)).found)).map
            (·.flatMap leaves) := by
        rw [select_group]
        simp only [Selection.combine, List.map_map, List.map_cons]
        rw [filterMap_ofMembers, Selection.choices]
        simp only [List.map_flatMap, List.map_map, Function.comp_def, leaves_group]
      rw [whole, views_group, List.map_flatMap]
      exact Selection.choices_flatMap fun k mem => ih k mem _

/-! ## Members that speak for one issuer -/

/-- Whether all leaves of each member of a group have the issuer of the member. -/
def Concordant (m : Match) (ms : List Match) : Prop :=
  ∀ k ∈ m :: ms, ∀ l ∈ k.leaves, l.delegation.issuer = k.delegation.issuer

instance (m : Match) (ms : List Match) : Decidable (Concordant m ms) :=
  inferInstanceAs (Decidable (∀ k ∈ m :: ms, ∀ l ∈ k.leaves, _ = _))

/-- Sources that are all addressed to a match are all shown to it. -/
theorem addressed_eq_self {m : Match}
    (h : ∀ s ∈ given, s.delegation.audience = m.delegation.issuer) : m.addressed given = given :=
  List.filter_eq_self.mpr fun s mem => decide_eq_true (h s mem)

/-- Leaves that have one issuer are all shown what is addressed to that one. -/
theorem views_of_issuer {m : Match} {issuer : Did}
    (leaves : ∀ l ∈ m.leaves, l.delegation.issuer = issuer)
    (heard : ∀ s ∈ given, s.delegation.audience = issuer) :
    m.views given = m.leaves.map fun l => (l, given) := by
  induction m using induct with
  | direct m => rfl
  | derived m origin rule => rfl
  | group m ms ih =>
      rw [views_group, leaves_group, List.map_flatMap]
      refine List.flatMap_congr fun k mem => ?_
      have below : ∀ l ∈ k.leaves, l.delegation.issuer = issuer := by
        intro l hl
        rw [leaves_group] at leaves
        exact leaves l (List.mem_flatMap.mpr ⟨k, mem, hl⟩)
      obtain ⟨l, hl, same⟩ := k.exists_first_leaf
      have all : k.addressed given = given := by
        refine addressed_eq_self fun s hs => ?_
        rw [heard s hs, ← same, below l hl]
      rw [all]
      exact ih k mem below

/-- A leaf is only shown sources that are addressed to it. -/
theorem addressed_of_views {m : Match} (heard : ∀ s ∈ given, s.delegation.audience = m.delegation.issuer)
    {v : Match × List Source} (view : v ∈ m.views given) {s : Source} (shown : s ∈ v.2) :
    s ∈ given ∧ s.delegation.audience = v.1.delegation.issuer := by
  induction m using induct generalizing given with
  | direct m =>
      obtain rfl := List.mem_singleton.mp view
      exact ⟨shown, heard s shown⟩
  | derived m origin rule =>
      obtain rfl := List.mem_singleton.mp view
      exact ⟨shown, heard s shown⟩
  | group m ms ih =>
      rw [views_group] at view
      obtain ⟨k, mem, view⟩ := List.mem_flatMap.mp view
      obtain ⟨among, audience⟩ := ih k mem (fun s hs => (mem_addressed.mp hs).2) view
      exact ⟨addressed_subset k given among, audience⟩

/-- If each member speaks for one issuer, each leaf is shown what is addressed to it. -/
theorem Concordant.views {m : Match} {ms : List Match} (h : Concordant m ms) (given : List Source) :
    (group m ms).views given = (group m ms).leaves.map fun l => (l, l.addressed given) := by
  rw [views_group, leaves_group, List.map_flatMap]
  refine List.flatMap_congr fun k mem => ?_
  rw [views_of_issuer (h k mem) fun s hs => (mem_addressed.mp hs).2]
  refine List.map_congr_left fun l hl => ?_
  rw [addressed, addressed, h k mem l hl]

/-- If a member speaks for several issuers, one of its leaves is shown nothing. -/
theorem exists_view_nil {m : Match} {ms : List Match} (h : ¬ Concordant m ms) (given : List Source) :
    ∃ v ∈ (group m ms).views given, v.2 = [] := by
  simp only [Concordant, not_forall] at h
  obtain ⟨k, mem, l, hl, differ⟩ := h
  rw [← map_views k (k.addressed given)] at hl
  obtain ⟨v, view, rfl⟩ := List.mem_map.mp hl
  refine ⟨v, ?_, ?_⟩
  · rw [views_group]
    exact List.mem_flatMap.mpr ⟨k, mem, view⟩
  · rw [List.eq_nil_iff_forall_not_mem]
    intro s shown
    have heard : ∀ s ∈ k.addressed given, s.delegation.audience = k.delegation.issuer :=
      fun s hs => (mem_addressed.mp hs).2
    obtain ⟨among, audience⟩ := addressed_of_views heard view shown
    exact differ (audience.symm.trans (heard s among))

/-- A group selects one match for each choice of one match for each of its leaves, selected among the sources
that are addressed to the leaf, if each of its members speaks for one issuer; otherwise it selects nothing.
So two such groups with the same leaves select the same, wherever the leaves stand in them. -/
theorem map_leaves_select_group (m : Match) (ms : List Match) (given : List Source) :
    (((group m ms).select given).found.map leaves =
      if Concordant m ms then
        (Selection.choices ((group m ms).leaves.map fun l => (l.select (l.addressed given)).found)).map
          (·.flatMap leaves)
      else []) ∧
    ∀ n ns, (group n ns).leaves = (group m ms).leaves → Concordant m ms → Concordant n ns →
      ((group n ns).select given).found.map leaves = ((group m ms).select given).found.map leaves := by
  have concordant : ∀ m ms, Concordant m ms → ((group m ms).select given).found.map leaves =
      (Selection.choices ((group m ms).leaves.map fun l => (l.select (l.addressed given)).found)).map
        (·.flatMap leaves) := by
    intro m ms h
    rw [map_leaves_select, h.views, List.map_map]
    rfl
  refine ⟨?_, ?_⟩
  · split
    case isTrue h => exact concordant m ms h
    case isFalse h =>
      obtain ⟨v, view, none⟩ := exists_view_nil h given
      rw [map_leaves_select, Selection.choices_eq_nil, List.map_nil]
      refine List.mem_map.mpr ⟨v, view, ?_⟩
      rw [none, found_select_nil]
  · intro n ns same hm hn
    rw [concordant n ns hn, concordant m ms hm, same]

end Match

/-! ## Two issuers in one group -/

namespace Sample

def adding : Selector := .descriptor (.plain "store/add" Resource.readText)

def uploading : Selector := .descriptor (.plain "upload/add" Resource.readText)

/-- Alice lets Carol add and Bob lets her upload, and a service lets each of them do so. -/
def joint : Except Delegation.Error (List Source × List Source) := do
  let alices ← grant alice carol "store/add" [] []
  let bobs ← grant bob carol "upload/add" [] []
  let forAlice ← grant service alice "store/add" [] []
  let forBob ← grant service bob "upload/add" [] []
  .ok (Source.all alices ++ Source.all bobs, Source.all forAlice ++ Source.all forBob)

/-- Whether a test holds of the only match that each of two selectors finds. -/
def testPair (first second : Selector) (claimed : List Source) (test : Match → Match → Bool) : Bool :=
  match (first.select claimed).found, (second.select claimed).found with
  | [a], [b] => test a b
  | _, _ => false

theorem exists_of_testPair {first second : Selector} {claimed : List Source}
    {test : Match → Match → Bool} (h : testPair first second claimed test = true) :
    ∃ a ∈ (first.select claimed).found, ∃ b ∈ (second.select claimed).found, test a b = true := by
  unfold testPair at h
  split at h
  case h_1 a b foundA foundB =>
    rw [foundA, foundB]
    exact ⟨a, List.mem_singleton_self a, b, List.mem_singleton_self b, h⟩
  case h_2 => cases h

/-- A pair is selected whose members are. -/
theorem mem_select_and {l r : Selector} {given : List Source} {a b : Match}
    (ha : a ∈ (l.select given).found) (hb : b ∈ (r.select given).found) :
    Match.group a [b] ∈ ((l.and r).select given).found :=
  List.mem_flatMap.mpr ⟨a, ha, List.mem_map.mpr ⟨b, hb, rfl⟩⟩

end Sample

/-- Bob's two uploads may stand in a group of their own or not: what the service lets Alice and Bob do proves
one match in either case. -/
theorem Match.map_leaves_select_group_joint :
    ∃ claimed given a b, Sample.joint = .ok (claimed, given) ∧
      group a [group b [b]] ∈ ((Sample.adding.and (Sample.uploading.and Sample.uploading)).select
        claimed).found ∧
      Concordant a [group b [b]] ∧ Concordant a [b, b] ∧
      ((group a [group b [b]]).select given).found.length = 1 ∧
      ((group a [b, b]).select given).found.map leaves =
        ((group a [group b [b]]).select given).found.map leaves := by
  have holds : Sample.joint.toOption.any (fun (claimed, given) =>
      Sample.testPair Sample.adding Sample.uploading claimed fun a b =>
        decide (Concordant a [group b [b]] ∧ Concordant a [b, b] ∧
          ((group a [group b [b]]).select given).found.length = 1)) = true := by
    decide +kernel
  obtain ⟨⟨claimed, given⟩, made, h⟩ := Sample.exists_of_any holds
  obtain ⟨a, ha, b, hb, h⟩ := Sample.exists_of_testPair h
  obtain ⟨nested, flat, one⟩ := of_decide_eq_true h
  have same : (group a [b, b]).leaves = (group a [group b [b]]).leaves := by
    simp [leaves, leavesOfAll]
  exact ⟨claimed, given, a, b, made, Sample.mem_select_and ha (Sample.mem_select_and hb hb), nested, flat,
    one, (map_leaves_select_group a [group b [b]] given).2 a [b, b] same nested flat⟩

/-- If Alice's match and Bob's form a group inside a group, nothing proves it, although each of the leaves is
proven by one source that is addressed to it, and the same leaves in another order of grouping are proven. -/
theorem Match.found_select_group_nested :
    ∃ claimed given left right, Sample.joint = .ok (claimed, given) ∧
      left ∈ (((Sample.adding.and Sample.uploading).and Sample.uploading).select claimed).found ∧
      right ∈ ((Sample.adding.and (Sample.uploading.and Sample.uploading)).select claimed).found ∧
      left.leaves = right.leaves ∧
      (Selection.choices (left.leaves.map fun l => (l.select (l.addressed given)).found)).length = 1 ∧
      (left.select given).found.length = 0 ∧ (right.select given).found.length = 1 := by
  have holds : Sample.joint.toOption.any (fun (claimed, given) =>
      Sample.testPair Sample.adding Sample.uploading claimed fun a b =>
        decide ((Selection.choices ((group (group a [b]) [b]).leaves.map fun l =>
            (l.select (l.addressed given)).found)).length = 1 ∧
          ((group (group a [b]) [b]).select given).found.length = 0 ∧
          ((group a [group b [b]]).select given).found.length = 1)) = true := by
    decide +kernel
  obtain ⟨⟨claimed, given⟩, made, h⟩ := Sample.exists_of_any holds
  obtain ⟨a, ha, b, hb, h⟩ := Sample.exists_of_testPair h
  refine ⟨claimed, given, group (group a [b]) [b], group a [group b [b]], made,
    Sample.mem_select_and (Sample.mem_select_and ha hb) hb,
    Sample.mem_select_and ha (Sample.mem_select_and hb hb), ?_, of_decide_eq_true h⟩
  simp [leaves, leavesOfAll]

end Mandate

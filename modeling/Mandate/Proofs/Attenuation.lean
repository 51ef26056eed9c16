import Mandate.Proofs.Escalation
import Mandate.Proofs.Segments
import Mathlib.Logic.Relation
import Mathlib.Order.Defs.Unbundled

/-!
# Coverage along re-delegations

Patterns that are not empty are ordered by what they cover, and the other ways to contain a resource
compose with them. All of them come down to directories: a pattern below a directory, unless it covers
only itself, covers nothing but what is below that directory too. So a re-delegation never covers more
than what it was delegated.
-/

namespace Mandate

namespace Text

theorem endsWith_slash_iff {s : String} :
    endsWith s "/" = true ↔ ∃ dir, s.toList = dir ++ ['/'] := by
  unfold endsWith
  rw [List.isSuffixOf_iff_suffix]
  exact exists_congr fun _ => eq_comm

theorem slash_mem_of_directory {dir cs : List Char} (h : dir ++ ['/'] <+: cs) : '/' ∈ cs :=
  h.subset (List.mem_append_right dir List.mem_cons_self)

/-- The star at the end of a pattern is below all directories in which the pattern is. -/
theorem prefix_stem {dir outer : List Char} (h : dir ++ ['/'] <+: outer ++ ['/', '*']) :
    dir ++ ['/'] <+: outer ++ ['/'] := by
  have split : outer ++ ['/', '*'] = (outer ++ ['/']) ++ ['*'] := by
    rw [List.append_assoc, List.singleton_append]
  rw [split, List.prefix_concat_iff] at h
  rcases h with whole | inside
  · have last : '/' = '*' := (List.append_inj' whole rfl).2 |> List.singleton_inj.mp
    exact absurd last (by decide)
  · exact inside

end Text

namespace Pattern

theorem under_iff_prefix_ne {stem value : List Char} :
    under stem value = true ↔ stem <+: value ∧ stem ≠ value := by
  rw [under_iff]
  constructor
  · rintro ⟨c, rest, rfl⟩
    refine ⟨List.prefix_append stem (c :: rest), fun same => ?_⟩
    exact List.cons_ne_nil c rest (List.self_eq_append_right.mp same)
  · rintro ⟨⟨rest, rfl⟩, longer⟩
    cases rest with
    | nil => exact absurd (List.append_nil stem).symm longer
    | cons c rest => exact ⟨c, rest, rfl⟩

/-- The step that all of coverage is composed of: what a pattern below a directory covers is below the
directory, unless it is the pattern itself. -/
theorem below_of_covers {dir : List Char} {pattern value : String}
    (within : dir ++ ['/'] <+: pattern.toList) (h : covers pattern value = true) :
    pattern = value ∨ dir ++ ['/'] <+: value.toList ∧ dir ++ ['/'] ≠ value.toList := by
  obtain ⟨-, -, rfl | literal | ⟨stem, hstem, below⟩⟩ := covers_iff.mp h
  · exact absurd (Text.slash_mem_of_directory within) (by decide)
  · exact Or.inl literal
  · obtain ⟨outer, cut, rfl⟩ := stem?_eq_some_iff.mp hstem
    obtain ⟨start, longer⟩ := under_iff_prefix_ne.mp below
    have inside : dir ++ ['/'] <+: outer ++ ['/'] := Text.prefix_stem (cut ▸ within)
    refine Or.inr ⟨inside.trans start, fun same => longer ?_⟩
    exact start.eq_of_length_le (same ▸ inside.length_le)

theorem covers_self {s : String} (named : s ≠ "") : covers s s = true :=
  covers_iff.mpr ⟨named, named, Or.inr (Or.inl rfl)⟩

theorem covers_star {s : String} (named : s ≠ "") : covers "*" s = true :=
  covers_iff.mpr ⟨by decide, named, Or.inl rfl⟩

theorem covers_trans {a b c : String} (h : covers a b = true) (h' : covers b c = true) :
    covers a c = true := by
  have named : c ≠ "" := (covers_iff.mp h').2.1
  obtain ⟨ha, -, rfl | rfl | ⟨stem, hstem, below⟩⟩ := covers_iff.mp h
  · exact covers_star named
  · exact h'
  · obtain ⟨dir, -, rfl⟩ := stem?_eq_some_iff.mp hstem
    rcases below_of_covers (under_iff_prefix_ne.mp below).1 h' with rfl | further
    · exact h
    · exact covers_iff.mpr
        ⟨ha, named, Or.inr (Or.inr ⟨_, hstem, under_iff_prefix_ne.mpr further⟩)⟩

/-- A value without a slash is covered by nothing but a lone star and itself. -/
theorem eq_of_covers_of_notMem {pattern value : String} (flat : '/' ∉ value.toList)
    (h : covers pattern value = true) : pattern = "*" ∨ pattern = value := by
  obtain ⟨-, -, star | literal | ⟨stem, hstem, below⟩⟩ := covers_iff.mp h
  · exact Or.inl star
  · exact Or.inr literal
  · obtain ⟨dir, -, rfl⟩ := stem?_eq_some_iff.mp hstem
    exact absurd (Text.slash_mem_of_directory (under_iff_prefix_ne.mp below).1) flat

theorem covers_antisymm {a b : String} (h : covers a b = true) (h' : covers b a = true) : a = b := by
  obtain ⟨-, -, rfl | literal | ⟨stem, hstem, below⟩⟩ := covers_iff.mp h
  · rcases eq_of_covers_of_notMem (by decide) h' with star | star <;> exact star.symm
  · exact literal
  · obtain ⟨-, -, rfl | literal | ⟨stem', hstem', below'⟩⟩ := covers_iff.mp h'
    · rcases eq_of_covers_of_notMem (by decide) h with star | star <;> exact star
    · exact literal.symm
    · obtain ⟨dir, cut, rfl⟩ := stem?_eq_some_iff.mp hstem
      obtain ⟨dir', cut', rfl⟩ := stem?_eq_some_iff.mp hstem'
      -- Each stem is below the other one.
      have inside : dir ++ ['/'] <+: dir' ++ ['/'] :=
        Text.prefix_stem (cut' ▸ (under_iff_prefix_ne.mp below).1)
      have inside' : dir' ++ ['/'] <+: dir ++ ['/'] :=
        Text.prefix_stem (cut ▸ (under_iff_prefix_ne.mp below').1)
      have same : dir = dir' :=
        List.append_cancel_right (inside.eq_of_length_le inside'.length_le)
      exact String.toList_inj.mp (by rw [cut, cut', same])

/-- Patterns that are not empty are ordered by what they cover. -/
instance : IsPartialOrder {s : String // s ≠ ""} fun pattern value => covers pattern value = true where
  refl s := covers_self s.2
  trans _ _ _ h h' := covers_trans h h'
  antisymm _ _ h h' := Subtype.ext (covers_antisymm h h')

end Pattern

namespace Coverage

/-- A resource is covered by a pattern or contained in a directory. -/
def Within (delegated resource : String) : Prop :=
  Pattern.covers delegated resource = true ∨
    Text.endsWith delegated "/" = true ∧ Text.startsWith resource delegated = true

theorem Within.trans {a b c : String} (h : Within a b) (h' : Within b c) : Within a c := by
  rcases h with covered | ⟨closed, contained⟩
  · rcases h' with covered' | ⟨closed', contained'⟩
    · exact Or.inl (Pattern.covers_trans covered covered')
    · rcases Pattern.covers_of_startsWith covered contained' with rfl | further
      · exact Or.inr ⟨closed', contained'⟩
      · exact Or.inl further
  · refine Or.inr ⟨closed, ?_⟩
    rcases h' with covered' | ⟨-, contained'⟩
    · obtain ⟨dir, cut⟩ := Text.endsWith_slash_iff.mp closed
      rw [Text.startsWith_iff, cut] at contained ⊢
      rcases Pattern.below_of_covers contained covered' with rfl | ⟨further, -⟩
      · exact contained
      · exact further
    · exact Text.startsWith_trans contained' contained

theorem eq_of_within_anyResource {delegated : String} (h : Within delegated anyResource) :
    delegated = "*" ∨ delegated = anyResource := by
  rcases h with covered | ⟨closed, contained⟩
  · exact Pattern.eq_of_covers_of_notMem (by decide) covered
  · obtain ⟨dir, cut⟩ := Text.endsWith_slash_iff.mp closed
    rw [Text.startsWith_iff, cut] at contained
    exact absurd (Text.slash_mem_of_directory contained) (by decide)

theorem admits_iff {delegated resource : String} :
    Admits delegated resource ↔ delegated = anyResource ∨ Within delegated resource :=
  Iff.rfl

/-- Next to the empty resource this fails: a lone star covers the resource that stands for all others,
and that one admits the empty resource, which no pattern covers. -/
theorem Admits.trans {a b c : String} (named : c ≠ "") (h : Admits a b) (h' : Admits b c) :
    Admits a c := by
  rcases admits_iff.mp h with any | within
  · exact Or.inl any
  · rcases admits_iff.mp h' with rfl | within'
    · rcases eq_of_within_anyResource within with rfl | any
      · exact Or.inr (Or.inl (Pattern.covers_star named))
      · exact Or.inl any
    · exact Or.inr (within.trans within')

/-- A delegated resource resolves exactly against those that it admits. -/
theorem isSome_resource?_iff {delegated claimed : String} :
    (resource? delegated claimed).isSome = true ↔ Admits delegated claimed := by
  unfold resource? Admits
  split
  case isTrue whole =>
    refine iff_of_true rfl ?_
    rcases whole with any | covered
    · exact Or.inl any
    · exact Or.inr (Or.inl covered)
  case isFalse other =>
    rw [not_or] at other
    split
    case isTrue inside => exact iff_of_true rfl (Or.inr (Or.inr (Bool.and_eq_true_iff.mp inside)))
    case isFalse outside =>
      refine iff_of_false Bool.false_ne_true ?_
      rintro (any | covered | inside)
      · exact other.1 any
      · exact other.2 covered
      · exact outside (Bool.and_eq_true_iff.mpr inside)

end Coverage

/-- Every caveat that the delegated fields constrain has an equal value in the claimed ones. -/
def Fields.Meet (claimed delegated : Fields) : Prop :=
  ∀ k v, delegated.lookup k = some v → v ≠ .string "*" →
    ∃ u, claimed.lookup k = some u ∧ (u == v) = true

theorem Fields.Meet.trans {a b c : Fields} (h : Fields.Meet a b) (h' : Fields.Meet b c) :
    Fields.Meet a c := by
  intro k v found constrained
  obtain ⟨w, between, equal⟩ := h' k v found constrained
  obtain ⟨u, above, same⟩ := h k w between (Ipld.ne_string_of_equal equal constrained)
  exact ⟨u, above, Ipld.equal_trans u w v same equal⟩

theorem Capability.Admits.trans {a b c : Capability} (named : c.resource ≠ "") (h : a.Admits b)
    (h' : b.Admits c) : a.Admits c where
  ability := Pattern.covers_trans h.ability h'.ability
  resource := Coverage.Admits.trans named h.resource h'.resource
  caveats := Fields.Meet.trans h'.caveats h.caveats

/-- However often a capability is delegated on, it leaves room for what is claimed in the end. -/
theorem Capability.Admits.of_chain {a c : Capability} (named : c.resource ≠ "")
    (h : Relation.TransGen Capability.Admits a c) : a.Admits c := by
  induction h using Relation.TransGen.head_induction_on with
  | single step => exact step
  | head step _ rest => exact step.trans named rest

namespace Rule

theorem resourceWithin_eq_ok_iff {claimed delegated : Parsed} :
    resourceWithin claimed delegated = .ok () ↔
      Coverage.Within delegated.resource.toText claimed.resource.toText := by
  unfold resourceWithin Coverage.Within
  dsimp only
  split
  case isTrue inside => simpa using inside
  case isFalse outside => simpa using outside

/-- What the standard rule accepts, as a whole. -/
theorem standard_eq_ok_iff {claimed delegated : Parsed} :
    standard claimed delegated = .ok () ↔
      Coverage.Within delegated.resource.toText claimed.resource.toText ∧
        Fields.Meet claimed.caveats delegated.caveats := by
  constructor
  · intro h
    have resource := every_eq_ok_iff.mp h resourceWithin List.mem_cons_self
    exact ⟨resourceWithin_eq_ok_iff.mp resource, fun _ _ => caveats_of_standard h⟩
  · rintro ⟨resource, caveats⟩
    apply every_eq_ok_iff.mpr
    intro rule mem
    rcases List.mem_cons.mp mem with rfl | caveat
    · exact resourceWithin_eq_ok_iff.mpr resource
    · obtain ⟨key, -, rfl⟩ := List.mem_map.mp caveat
      exact equalCaveat_eq_ok_iff.mpr (caveats key)

theorem standard_trans {a b c : Parsed} (h : standard a b = .ok ()) (h' : standard b c = .ok ()) :
    standard a c = .ok () := by
  obtain ⟨resource, caveats⟩ := standard_eq_ok_iff.mp h
  obtain ⟨resource', caveats'⟩ := standard_eq_ok_iff.mp h'
  exact standard_eq_ok_iff.mpr ⟨resource'.trans resource, caveats.trans caveats'⟩

end Rule

/-- Patterns that are not empty are ordered by what they cover, with the star above all of them. A resource
that resolves against a second one, which resolves against a third, resolves against the third, and what the
standard rule accepts composes in the same way. So along re-delegations, however many, each of which leaves
room for the next one, the first leaves room for what is claimed in the end. -/
theorem redelegation_never_widens :
    IsPartialOrder {s : String // s ≠ ""}
      (fun pattern value => Pattern.covers pattern value = true) ∧
    (∀ s, s ≠ "" → Pattern.covers "*" s = true) ∧
    (∀ a b c, a ≠ "" → b ≠ "" → c ≠ "" → (Coverage.resource? a b).isSome = true →
      (Coverage.resource? b c).isSome = true → (Coverage.resource? a c).isSome = true) ∧
    (∀ a b c, Rule.standard a b = .ok () → Rule.standard b c = .ok () →
      Rule.standard a c = .ok ()) ∧
    ∀ a c : Capability, c.resource ≠ "" → Relation.TransGen Capability.Admits a c → a.Admits c := by
  refine ⟨inferInstance, fun s => Pattern.covers_star, ?_, fun a b c => Rule.standard_trans,
    fun a c => Capability.Admits.of_chain⟩
  intro a b c _ _ named outer inner
  rw [Coverage.isSome_resource?_iff] at outer inner ⊢
  exact outer.trans named inner

/-- A pattern above a directory above a pattern. -/
theorem redelegation_never_widens_mixed :
    (Coverage.resource? "dir:/*" "dir:/a/").isSome = true ∧
    (Coverage.resource? "dir:/a/" "dir:/a/b/*").isSome = true ∧
    (Coverage.resource? "dir:/*" "dir:/a/b/*").isSome = true ∧
    Rule.standard ⟨"add", .text "dir:/a/b/*", [("size", .integer 5)]⟩
      ⟨"add", .text "dir:/*", [("size", .string "*")]⟩ = .ok () := by
  obtain ⟨-, -, resources, rules, -⟩ := redelegation_never_widens
  refine ⟨by decide, by decide, ?_, ?_⟩
  · exact resources "dir:/*" "dir:/a/" "dir:/a/b/*" (by decide) (by decide) (by decide) (by decide)
      (by decide)
  · exact rules _ ⟨"add", .text "dir:/a/", [("size", .integer 5)]⟩ _ rfl rfl

end Mandate

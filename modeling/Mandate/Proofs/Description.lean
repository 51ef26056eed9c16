import Mandate.Proofs.Message
import Mandate.Proofs.Outline

/-!
# The description of a failure

The description of a failure is its outline: the message of each node without its causes, in the order of a walk
and moved right by how deep the node is, with a dash before each cause. It is made from the inside out, each cause
being described and then split into lines again, and the lines come through that unchanged unless a text that a
message embeds has a carriage return.
-/

namespace Mandate.Failure

open Text

/-- A margin of blanks. -/
def blanks (n : Nat) : String := String.ofList (List.replicate n ' ')

/-- The lines of a node at some depth. Below the root there is a dash before the first line, and the others are
moved right as far. -/
def placed : (depth : Nat) → List String → List String
  | 0, ls => ls
  | _ + 1, [] => []
  | depth + 1, first :: rest =>
    (blanks (4 * depth + 2) ++ "- " ++ first) :: rest.map (blanks (4 * (depth + 1)) ++ ·)

/-- The lines of a node in the description of a failure, by its address. -/
def entry (e : List Nat × Failure) : List String := placed e.1.length (lines e.2.headText)

section

variable {f : Failure} {ls : List String} {depth m n : Nat}

theorem blanks_append (m n : Nat) (s : String) : blanks m ++ (blanks n ++ s) = blanks (m + n) ++ s := by
  rw [← String.append_assoc, blanks, blanks, ← String.ofList_append, ← List.replicate_add]
  rfl

theorem margin_append (n : Nat) (s : String) : "    " ++ (blanks n ++ s) = blanks (n + 4) ++ s := by
  rw [Nat.add_comm, ← blanks_append]
  rfl

/-- Below the root, an item moves what is in it to the next depth. -/
theorem map_placed : (placed (depth + 1) ls).map ("    " ++ ·) = placed (depth + 2) ls := by
  cases ls with
  | nil => rfl
  | cons first rest =>
      rw [placed, placed, List.map_cons, List.map_map, String.append_assoc, margin_append]
      congr 1
      · rw [String.append_assoc]
        rfl
      · exact List.map_congr_left fun l _ => margin_append _ _

theorem item_eq_placed : item "    " ls = placed 1 ls := by
  cases ls with
  | nil => rfl
  | cons first rest => rfl

theorem item_append {ms : List String} (ne : ls ≠ []) :
    item "    " (ls ++ ms) = item "    " ls ++ ms.map ("    " ++ ·) := by
  obtain ⟨first, rest, rfl⟩ := List.exists_cons_of_ne_nil ne
  rw [List.cons_append, item, item, List.map_append, List.cons_append]

theorem itemTexts_eq (fs : List Failure) : itemTexts fs = fs.map fun f => listItem "    " f.describe := by
  induction fs with
  | nil => rfl
  | cons f fs ih => rw [itemTexts, ih, List.map_cons]

/-- A description is the message of the failure alone, unless this collects causes: then they follow as the items
of a list. -/
theorem describe_cases (f : Failure) : (f.causes = [] ∧ f.describe = f.headText) ∨
    (EndsInLine f.headText ∧
      f.describe = f.headText ++ "\n" ++ unlines (f.causes.map fun c => listItem "    " c.describe)) := by
  cases f with
  | invalidClaim claim causes =>
      have ends : IsLine " is not authorized because:" := isLine_literal (by decide) (by decide) (by decide)
      refine .inr ⟨ends.endsInLine.append, ?_⟩
      rw [← itemTexts_eq]
      rfl
  | unauthorized capability causes =>
      have ends : IsLine " is not authorized" := isLine_literal (by decide) (by decide) (by decide)
      refine .inr ⟨ends.endsInLine.append, ?_⟩
      rw [← itemTexts_eq]
      rfl
  | _ => exact .inl ⟨rfl, rfl⟩

theorem headText_ne (f : Failure) : f.headText ≠ "" := by
  unfold headText
  cases f <;> simp

theorem describe_ne (f : Failure) : f.describe ≠ "" := by
  obtain ⟨-, alone⟩ | ⟨-, all⟩ := f.describe_cases
  · rw [alone]
    exact f.headText_ne
  · rw [all]
    simp [f.headText_ne]

theorem noReturn_describe (h : ∀ g ∈ f.walk, ∀ t ∈ g.texts, NoReturn t) : NoReturn f.describe := by
  induction f using induct with
  | step f ih =>
      rw [walk_eq, List.forall_mem_cons] at h
      have head := noReturn_headText h.1
      obtain ⟨-, alone⟩ | ⟨-, all⟩ := f.describe_cases
      · rwa [alone]
      · have items : ∀ t ∈ f.causes.map fun c => listItem "    " c.describe, NoReturn t := by
          rw [List.forall_mem_map]
          intro c mem
          apply noReturn_listItem (noReturn_literal (by decide))
          exact ih c mem fun g below => h.2 g (mem_walkAll.mpr ⟨c, mem, below⟩)
        simp only [all, noReturn_append]
        exact ⟨⟨head, noReturn_literal (by decide)⟩, noReturn_unlines items⟩

/-- A description has the lines of the message of the failure alone, then those of each cause as an item. -/
theorem lines_describe (h : ∀ c ∈ f.causes, NoReturn c.describe) :
    lines f.describe = lines f.headText ++ f.causes.flatMap fun c => item "    " (lines c.describe) := by
  have margin : IsLine "    " := isLine_literal (by decide) (by decide) (by decide)
  obtain ⟨none, alone⟩ | ⟨ends, all⟩ := f.describe_cases
  · rw [alone, none, List.flatMap_nil, List.append_nil]
  · have items : ∀ t ∈ f.causes.map fun c => listItem "    " c.describe, EndsInLine t := by
      rw [List.forall_mem_map]
      exact fun c mem => endsInLine_listItem c.describe_ne margin (h c mem)
    rw [all, lines_append_feed ends, lines_unlines items, List.flatMap_map]
    exact congrArg _ (List.flatMap_congr fun c mem => lines_listItem margin (h c mem))

/-- The entries of a cause, among those of what it is a cause of, are those of the cause as an item. -/
theorem entries_cause (c : Failure) (i : Nat) :
    (c.outline.map fun e => (i :: e.1, e.2)).flatMap entry = item "    " (c.outline.flatMap entry) := by
  have ne : entry ([], c) ≠ [] := lines_ne_nil c.headText_ne
  rw [outline_eq, List.map_cons, List.flatMap_cons, List.flatMap_cons, item_append ne, item_eq_placed,
    List.flatMap_map, List.map_flatMap]
  refine congrArg _ (List.flatMap_congr ?_)
  rintro ⟨p, g⟩ mem
  obtain ⟨j, q, d, rfl, -, -⟩ := mem_outlineFrom_iff.mp mem
  exact map_placed.symm

theorem entries_causes (fs : List Failure) (i : Nat) :
    (outlineFrom i fs).flatMap entry = fs.flatMap fun c => item "    " (c.outline.flatMap entry) := by
  induction fs generalizing i with
  | nil => rfl
  | cons c fs ih => rw [outlineFrom, List.flatMap_append, entries_cause, ih, List.flatMap_cons]

theorem lines_describe_eq_entries (h : ∀ g ∈ f.walk, ∀ t ∈ g.texts, NoReturn t) :
    lines f.describe = f.outline.flatMap entry := by
  induction f using induct with
  | step f ih =>
      rw [walk_eq, List.forall_mem_cons] at h
      have below : ∀ c ∈ f.causes, ∀ g ∈ c.walk, ∀ t ∈ g.texts, NoReturn t :=
        fun c mem g walked => h.2 g (mem_walkAll.mpr ⟨c, mem, walked⟩)
      rw [lines_describe fun c mem => noReturn_describe (below c mem), outline_eq, List.flatMap_cons,
        entries_causes]
      refine congrArg _ (List.flatMap_congr fun c mem => ?_)
      rw [ih c mem (below c mem)]

/-- A walk with a stack ends after it has yielded every node once, in the order of the addresses. Each node has a
message, and if no text that one embeds has a carriage return, then the lines of the description are those of the
messages, in the order of the walk: those of the root as they are, and those of another node behind a dash, or
behind a margin of that width, which begins four columns further to the right at each depth. -/
theorem describe_exact (f : Failure) :
    (∀ fs, Yields [f] fs ↔ fs = f.walk) ∧
    f.walk = f.outline.map (·.2) ∧
    (∀ p g, (p, g) ∈ f.outline ↔ f.node? p = some g) ∧
    (f.outline.Pairwise fun a b => a.1 < b.1) ∧
    (∀ g ∈ f.walk, lines g.headText ≠ []) ∧
    ((∀ g ∈ f.walk, ∀ t ∈ g.texts, NoReturn t) →
      lines f.describe = f.outline.flatMap fun e => placed e.1.length (lines e.2.headText)) :=
  ⟨fun _ => f.yields_iff, f.map_snd_outline.symm, fun _ _ => mem_outline_iff, f.pairwise_outline,
    fun g _ => lines_ne_nil g.headText_ne, lines_describe_eq_entries⟩

/-- A claim that failed for two causes, the second of which takes four lines, is the first cause of two. -/
theorem describe_exact_nested :
    let c : Capability := ⟨"store/add", "did:key:zAlice", []⟩
    let f := unauthorized c [invalidClaim [c] [unknownCapability c,
      malformedCapability c (.union "null" [.message "no text", .message "no number"])], unknownCapability c]
    (∀ g ∈ f.walk, ∀ t ∈ g.texts, NoReturn t) ∧
      f.outline.map (·.1) = [[], [0], [0, 0], [0, 1], [1]] ∧
      lines f.describe = f.outline.flatMap fun e => placed e.1.length (lines e.2.headText) := by
  intro c f
  have clean : ∀ g ∈ f.walk, ∀ t ∈ g.texts, NoReturn t := by
    simp [f, c, walk, walkAll, texts, Capability.texts, Ipld.keys, Schema.Error.texts,
      Schema.Error.textsOfAll]
    decide
  exact ⟨clean, rfl, (describe_exact f).2.2.2.2.2 clean⟩

end

end Mandate.Failure

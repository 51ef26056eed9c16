import Mandate.Proofs.Below
import Mandate.Proofs.Line

/-!
# Resources under a star

A delegated resource whose last segment is a star covers every claimed text under it, and what is claimed
then stands for it. So the rule compares what is claimed with itself, and it rests on how the text is read
whether that is below what is delegated. Texts and identifiers are read as they are. Locators are below the
directory if their dots do not lead out of it.
-/

namespace Mandate

namespace Resource

end Resource

namespace Coverage

end Coverage

/-- The matches that a descriptor selects, be it to see what is claimed or to prove another one of them. -/
inductive Descriptor.Selects (d : Descriptor) : DirectMatch → Prop where
  | claimed {m : DirectMatch} {given : List Source} (found : m ∈ (d.select given).found) : Selects d m
  | proving {m n : DirectMatch} {given : List Source} (selected : Selects d m)
      (found : n ∈ (m.select given).found) : Selects d n

/-- A match holds what its descriptor reads from the resource that it stands for. -/
theorem Descriptor.Selects.read {d : Descriptor} {m : DirectMatch} (h : d.Selects m) :
    m.descriptor = d ∧ d.readResource m.capability.resource = .ok m.value.resource := by
  induction h with
  | claimed found =>
      obtain ⟨s, -, made⟩ := Descriptor.mem_found_select.mp found
      obtain ⟨value, parsed, rfl⟩ := Descriptor.candidate_eq_found made
      exact ⟨rfl, (Descriptor.read_eq_ok (Descriptor.parse_eq_ok parsed).2).2.1⟩
  | proving selected found ih =>
      obtain ⟨s, -, made⟩ := DirectMatch.mem_found_select.mp found
      obtain ⟨resolved, value, -, read, -, rfl⟩ := DirectMatch.candidate_eq_found made
      refine ⟨ih.1, ?_⟩
      rw [← ih.1]
      exact (Descriptor.read_eq_ok read).2.1

namespace Sample

/-- What Alice lets Bob add to, wherever that is. -/
def storesAt (resource : String) : Except Delegation.Error Delegation :=
  Draft.sign ⟨some bob, [⟨"store/add", resource, []⟩], [], none, none, [], none⟩ (echo alice)

/-- Additions to stores that are named by locators, under the standard rule. -/
def located : Descriptor := .plain "store/add" (Resource.readUrl none)

/-- What stands before the star, read as a directory. -/
def directory : Url :=
  ⟨"https", some ⟨"", "", "example.com", none⟩, .segments ["a", ""], none, none⟩

/-- Whether a claimed resource is proven by what is under the star, and passes a test once read. -/
def proven (claimed : String) (test : Resource → Bool) : Bool :=
  (storesAt claimed).toOption.any fun c => (storesAt "https://example.com/a/*").toOption.any fun d =>
    (located.select (Source.all c)).found.any fun m =>
      m.capability.resource == claimed && (m.select (Source.all d)).found.any fun n =>
        n.source.capability.resource == "https://example.com/a" ++ "/*" && test m.value.resource

end Sample

end Mandate

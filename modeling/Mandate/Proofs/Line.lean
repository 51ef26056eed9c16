import Mandate.Proofs.Coverage
import Mandate.Proofs.Ipld
import Mandate.Proofs.Soundness

/-!
# Lines of one kind of capability

Where the selector is a single descriptor, an authorization is a line of direct matches: the invoked
capability, then at every step a delegated one that was resolved against what is above it, read, and
accepted by the rule, down to one that its issuer may issue. What holds along lines is shown by induction
on them, without the search.
-/

namespace Mandate

namespace Rule

/-- Rules of a list are checked one by one. -/
theorem every_eq_ok_iff {rules : List Rule} {claimed delegated : Parsed} :
    every rules claimed delegated = .ok () ↔ ∀ rule ∈ rules, rule claimed delegated = .ok () := by
  induction rules with
  | nil => simp [every]
  | cons rule rest ih =>
      rw [every]
      cases checked : rule claimed delegated <;> simp [checked, ih]

theorem isUnconstrained_eq_false_iff {v : Ipld} : isUnconstrained v = false ↔ v ≠ .string "*" := by
  cases v <;> simp [isUnconstrained]

theorem constraint?_eq_some_iff {delegated : Parsed} {key : String} {v : Ipld} :
    constraint? delegated key = some v ↔
      delegated.caveats.lookup key = some v ∧ v ≠ .string "*" := by
  simp only [constraint?, Option.filter_eq_some_iff, Bool.not_eq_true',
    isUnconstrained_eq_false_iff]

/-- What is asked of a constraint is asked of every value that constrains. -/
theorem forall_constraint_iff {delegated : Parsed} {key : String} {P : Ipld → Prop} :
    (∀ v, constraint? delegated key = some v → P v) ↔
      ∀ v, delegated.caveats.lookup key = some v → v ≠ .string "*" → P v := by
  simp only [constraint?_eq_some_iff, and_imp]

end Rule

namespace Descriptor

variable {d : Descriptor} {c : Capability} {v : Parsed}

/-- A capability is read part by part. -/
theorem read_eq_ok (h : d.read c = .ok v) :
    v.ability = c.ability ∧ d.readResource c.resource = .ok v.resource ∧
      d.readCaveats c.caveats = .ok v.caveats := by
  unfold read at h
  split at h
  · cases h
  case h_2 resource hr =>
    split at h
    · cases h
    case h_2 caveats hc =>
      cases h
      exact ⟨rfl, hr, hc⟩

theorem parse_eq_ok (h : d.parse c = .ok v) :
    Pattern.covers d.ability c.ability = true ∧ d.read c = .ok v := by
  unfold parse at h
  split at h
  case isTrue covered =>
    split at h
    case h_1 read =>
      cases h
      exact ⟨covered, read⟩
    case h_2 => cases h
  case isFalse => cases h

/-- Without a schema, caveats are kept as they are. -/
theorem caveats_of_read (plain : d.readCaveats = Schema.unknown.readFields) (h : d.read c = .ok v) :
    v.caveats = c.caveats := by
  obtain ⟨-, -, read⟩ := read_eq_ok h
  rw [plain] at read
  exact (Except.ok.inj read).symm

end Descriptor

namespace Authorization

/-- The capabilities along an authorization as they were given, from what is authorized to the root. -/
def trail : Authorization → List Capability
  | ⟨m, []⟩ => m.sources.map (·.capability)
  | ⟨m, proof :: _⟩ => m.sources.map (·.capability) ++ trail proof

/-- The match that needed no further proof. -/
def root : Authorization → Match
  | ⟨m, []⟩ => m
  | ⟨_, proof :: _⟩ => root proof

end Authorization

namespace Context

variable {ctx : Context} {cache : ProofCache} {i : Invocation} {d : Descriptor}
  {m n : DirectMatch} {s : Source} {a p : Authorization}

/-- A line of matches below one of them, of delegations that are signed by their issuers. -/
inductive Line (ctx : Context) : DirectMatch → Authorization → Prop where
  | root {m : DirectMatch} (issued : m.isSelfIssued ctx.mayIssue = true) :
      Line ctx m ⟨.direct m, []⟩
  | step {m n : DirectMatch} {s : Source} {p : Authorization} (covered : m.candidate s = .found n)
      (wellFormed : s.delegation.WellFormed) (signed : s.delegation.SignedUnder ctx.directory)
      (line : Line ctx n p) : Line ctx m ⟨.direct m, [p]⟩

theorem Line.trail_eq (h : ctx.Line m a) : ∃ below, a.trail = m.source.capability :: below := by
  cases h with
  | root _ => exact ⟨[], rfl⟩
  | step _ _ _ _ => exact ⟨_, rfl⟩

/-- What proves a direct match is a line. -/
theorem Proves.line (h : ctx.Proves cache a) (meets : ctx.MeetsOnly Delegation.WellFormed i)
    (reached : cache.Reached ctx.resolver) (direct : a.matched = .direct m)
    (hm : m.source.delegation.Hereditary Delegation.WellFormed) : ctx.Line m a := by
  induction h generalizing m with
  | @issued k pruned =>
      obtain rfl : k = .direct m := direct
      refine .root ?_
      by_contra other
      simp [Match.prune, other] at pruned
  | @delegated k rest g p pruned gathered selected proven ih =>
      obtain rfl : k = .direct m := direct
      simp only [Match.prune] at pruned
      split at pruned
      · cases pruned
      · cases pruned
        obtain ⟨n, found, same⟩ := List.mem_map.mp selected
        obtain ⟨s, mem, covered⟩ := DirectMatch.mem_found_select.mp found
        have sound : s.delegation.Hereditary Delegation.WellFormed := by
          refine hereditary_of_mem_gather meets reached ?_ gathered mem
          intro t ht
          obtain rfl : t = m.source := by simpa [Match.sources] using ht
          exact hm
        obtain ⟨t, -, -, accepted⟩ := cites_of_mem_gather gathered mem
        refine .step covered sound.self accepted.signed (ih same.symm ?_)
        obtain ⟨_, _, -, -, -, rfl⟩ := DirectMatch.candidate_eq_found covered
        exact sound

/-- The only capability of an invocation is the invoked one. -/
theorem capability_of_mem_all (mem : s ∈ Source.all i.delegation) : s.capability = i.capability := by
  have listed : s.capability ∈ i.delegation.capabilities := by
    rw [← Source.mem_all.mp mem]
    exact List.getElem_mem _
  rw [i.capabilities_eq] at listed
  exact List.mem_singleton.mp listed

/-- What a single descriptor grants is a line from the invoked capability on. -/
theorem line_of_access {later : ProofCache} (selects : ctx.selector = .descriptor d)
    (meets : ctx.MeetsOnly Delegation.WellFormed i) (reached : cache.Reached ctx.resolver)
    (h : ctx.access i cache = some (.ok a, later)) :
    ∃ m, m.descriptor = d ∧ d.parse i.capability = .ok m.value ∧ m.capability = i.capability ∧
      m.source.delegation = i.delegation ∧ m.source.capability = i.capability ∧ ctx.Line m a := by
  obtain ⟨-, selected, -, tree⟩ := proves_of_access h
  rw [selects] at selected
  obtain ⟨m, found, same⟩ := List.mem_map.mp selected
  obtain ⟨s, mem, candidate⟩ := Descriptor.mem_found_select.mp found
  have invoked := capability_of_mem_all mem
  obtain ⟨value, parsed, rfl⟩ := Descriptor.candidate_eq_found candidate
  rw [invoked] at parsed
  refine ⟨⟨d, value, s.capability, s⟩, rfl, parsed, invoked, Source.mem_all.mp mem, invoked, ?_⟩
  refine tree.line meets reached same.symm ?_
  rw [Source.mem_all.mp mem]
  exact meets.invoked

end Context

end Mandate

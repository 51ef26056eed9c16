import Mandate.Proofs.Line

/-!
# What the matches along a line stand for

Every match keeps a capability as it is given, what that was resolved to, and what was read from it, and all
three are made anew at each step down a line. They stay in step: what a match was resolved to is the invoked
capability, with the caveats of all delegations down to it on top of each other, and its value is what the
descriptor reads from just that.
-/

namespace Mandate

namespace Table

variable {κ α : Type} [LT κ] [DecidableLT κ] [IsStrictTotalOrder κ (· < ·)] [BEq κ] [LawfulBEq κ]

/-- Of tables that override one another in order, the last one that sets a key counts. -/
theorem lookup_foldl_override {t : Table κ α} {ts : List (Table κ α)} (sorted : ∀ u ∈ ts, u.Sorted)
    (k : κ) : (ts.foldl override t).lookup k = (t :: ts).reverse.findSome? fun u => u.lookup k := by
  induction ts generalizing t with
  | nil => simp
  | cons u ts ih =>
      obtain ⟨first, others⟩ := List.forall_mem_cons.mp sorted
      have both : (override t u).lookup k = [u, t].findSome? fun u => u.lookup k := by
        rw [lookup_override first k]
        cases found : u.lookup k <;> simp [found]
      rw [List.foldl_cons, ih others]
      simp [List.findSome?_append, both]

end Table

namespace Coverage

/-- Resolving keeps the claimed resource, or goes over to a delegated directory that contains it. -/
theorem resource?_eq_some {delegated claimed resolved : String}
    (h : resource? delegated claimed = some resolved) :
    resolved = claimed ∨ resolved = delegated ∧ Text.endsWith delegated "/" = true ∧
      Text.startsWith claimed delegated = true := by
  unfold resource? at h
  split at h
  case isTrue => exact Or.inl (Option.some.inj h).symm
  case isFalse =>
    split at h
    case isTrue inside => exact Or.inr ⟨(Option.some.inj h).symm, Bool.and_eq_true_iff.mp inside⟩
    case isFalse => cases h

end Coverage

/-- What a match stands for at the end of a line: the claimed capability, as far as the capabilities that
were delegated along the line leave it. -/
structure StandsFor (d : Descriptor) (claimed : Capability) (delegated : List Capability)
    (m : DirectMatch) : Prop where
  described : m.descriptor = d
  ability : m.capability.ability = claimed.ability
  resource : m.capability.resource = claimed.resource ∨ ∃ c ∈ delegated,
    m.capability.resource = c.resource ∧ Text.endsWith c.resource "/" = true ∧
      Text.startsWith claimed.resource c.resource = true
  caveats : m.capability.caveats =
    (delegated.map (·.caveats)).foldl Table.override claimed.caveats
  covered : Pattern.covers d.ability m.capability.ability = true
  read : d.read m.capability = .ok m.value

namespace StandsFor

variable {d : Descriptor} {claimed : Capability} {delegated : List Capability} {m n : DirectMatch}
  {ms : List DirectMatch} {s : Source}

/-- A caveat has the value that the last of the capabilities that set it gives it. -/
theorem lookup_caveats (h : StandsFor d claimed delegated m)
    (sorted : ∀ c ∈ delegated, c.caveats.Sorted) (key : String) :
    m.capability.caveats.lookup key =
      (claimed :: delegated).reverse.findSome? fun c => c.caveats.lookup key := by
  have each : ∀ t ∈ delegated.map (·.caveats), Table.Sorted t := by simpa using sorted
  rw [h.caveats, Table.lookup_foldl_override each, ← List.map_cons (f := Capability.caveats),
    ← List.map_reverse, List.findSome?_map]
  rfl

/-- What a descriptor selects stands for the capability itself. -/
theorem of_candidate (h : d.candidate s = .found m) : StandsFor d s.capability [] m := by
  obtain ⟨value, parsed, rfl⟩ := Descriptor.candidate_eq_found h
  obtain ⟨covered, read⟩ := Descriptor.parse_eq_ok parsed
  exact ⟨rfl, rfl, Or.inl rfl, rfl, covered, read⟩

/-- One step down: what proves a match stands for what that stands for, as far as one more capability
leaves it. -/
theorem step (h : StandsFor d claimed delegated m) (found : m.candidate s = .found n) :
    StandsFor d claimed (delegated ++ [n.source.capability]) n ∧ d.rule m.value n.value = .ok () := by
  obtain ⟨resolved, value, covered, read, accepted, rfl⟩ := DirectMatch.candidate_eq_found found
  obtain ⟨⟨-, ability⟩, resource, caveats⟩ := Coverage.resolve?_eq_some covered
  rw [h.described] at read accepted
  refine ⟨⟨h.described, ability.trans h.ability, ?_, ?_, ?_, read⟩, accepted⟩
  · change resolved.resource = _ ∨ _
    rcases Coverage.resource?_eq_some resource with kept | ⟨taken, closed, within⟩
    · rw [kept]
      refine h.resource.imp_right ?_
      rintro ⟨c, mem, rest⟩
      exact ⟨c, List.mem_append_left _ mem, rest⟩
    · refine Or.inr ⟨s.capability, by simp, taken, closed, ?_⟩
      rcases h.resource with same | ⟨c, -, same, -, outer⟩
      · rwa [same] at within
      · rw [same] at within
        exact Text.startsWith_trans outer within
  · rw [List.map_append, List.foldl_append, ← h.caveats]
    exact caveats
  · change Pattern.covers d.ability resolved.ability = true
    rw [ability]
    exact h.covered

/-- All steps down a line of matches each of which is proven by the next. -/
theorem run (h : StandsFor d claimed delegated m)
    (line : List.IsChain (fun m n => ∃ s, m.candidate s = .found n) (m :: ms)) :
    (∀ k n, (m :: ms)[k]? = some n →
      StandsFor d claimed (delegated ++ (ms.take k).map (·.source.capability)) n) ∧
    List.IsChain (fun m n => d.rule m.value n.value = .ok ()) (m :: ms) := by
  induction ms generalizing m delegated with
  | nil =>
      refine ⟨?_, List.IsChain.singleton m⟩
      intro k n here
      obtain ⟨rfl, rfl⟩ : k = 0 ∧ m = n := by
        cases k <;> simp_all
      simpa using h
  | cons next ms ih =>
      obtain ⟨⟨s, found⟩, below⟩ := List.isChain_cons_cons.mp line
      obtain ⟨stands, accepted⟩ := h.step found
      obtain ⟨each, rules⟩ := ih stands below
      refine ⟨?_, List.isChain_cons_cons.mpr ⟨accepted, rules⟩⟩
      intro k n here
      cases k with
      | zero =>
          obtain rfl : m = n := by simpa using here
          simpa using h
      | succ k =>
          have later := each k n (by simpa using here)
          rwa [List.append_assoc] at later

end StandsFor

namespace Context

variable {ctx : Context} {cache later : ProofCache} {i : Invocation} {d : Descriptor} {m : DirectMatch}
  {a : Authorization}

/-- What proves a direct match is a line of direct matches, each of which proves the one before. -/
theorem Proves.direct_nodes (h : ctx.Proves cache a) (direct : a.matched = .direct m) :
    ∃ ms, a.nodes.map (·.matched) = (m :: ms).map .direct ∧
      List.IsChain (fun m n => ∃ s, m.candidate s = .found n) (m :: ms) := by
  induction h generalizing m with
  | @issued k pruned =>
      obtain rfl : k = .direct m := direct
      exact ⟨[], by simp, List.IsChain.singleton m⟩
  | @delegated k rest g p pruned gathered selected proven ih =>
      obtain rfl : k = .direct m := direct
      obtain ⟨-, rfl⟩ := Match.prune_direct_eq_some_iff.mp pruned
      obtain ⟨n, found, same⟩ := List.mem_map.mp selected
      obtain ⟨s, -, covered⟩ := DirectMatch.mem_found_select.mp found
      obtain ⟨ns, nodes, line⟩ := ih same.symm
      refine ⟨n :: ns, ?_, List.isChain_cons_cons.mpr ⟨⟨s, covered⟩, line⟩⟩
      rw [Authorization.nodes_step, List.map_cons, nodes]
      rfl

/-- Along what a single descriptor grants, every match stands for the invoked capability as far as the
delegations down to it leave that, and the rule accepted each match for the one before. -/
theorem standsFor_of_access (selects : ctx.selector = .descriptor d)
    (h : ctx.access i cache = some (.ok a, later)) :
    ∃ m ms, a.nodes.map (·.matched) = (m :: ms).map .direct ∧
      m.source.capability = i.capability ∧
      (∀ k n, (m :: ms)[k]? = some n →
        StandsFor d i.capability ((ms.take k).map (·.source.capability)) n ∧
        ((∀ c ∈ (ms.take k).map (·.source.capability), c.caveats.Sorted) → ∀ key,
          n.capability.caveats.lookup key =
            (i.capability :: (ms.take k).map (·.source.capability)).reverse.findSome?
              fun c => c.caveats.lookup key)) ∧
      List.IsChain (fun m n => d.rule m.value n.value = .ok ()) (m :: ms) := by
  obtain ⟨-, selected, -, tree⟩ := proves_of_access h
  rw [selects] at selected
  obtain ⟨m, found, same⟩ := List.mem_map.mp selected
  obtain ⟨s, mem, candidate⟩ := Descriptor.mem_found_select.mp found
  have start : StandsFor d i.capability [] m := by
    rw [← capability_of_mem_all mem]
    exact .of_candidate candidate
  obtain ⟨ms, nodes, line⟩ := tree.direct_nodes same.symm
  obtain ⟨each, rules⟩ := start.run line
  refine ⟨m, ms, nodes, ?_, ?_, rules⟩
  · obtain ⟨_, -, rfl⟩ := Descriptor.candidate_eq_found candidate
    exact capability_of_mem_all mem
  · intro k n here
    have stands := each k n here
    exact ⟨stands, stands.lookup_caveats⟩

/-- Bob and Carol each lower the size that Alice allowed, and each match down to Alice's has another one. -/
theorem standsFor_of_access_chain :
    ∃ i a later,
      Sample.chain [("size", .integer 9)] [("size", .integer 7)] [("size", .integer 5)] = .ok i ∧
      (Sample.context Sample.limited).access i .empty = some (.ok a, later) ∧ a.nodes.length = 3 ∧
      ∃ d m ms, Sample.limited = .descriptor d ∧ a.nodes.map (·.matched) = (m :: ms).map .direct ∧
        ∀ k n, (m :: ms)[k]? = some n →
          StandsFor d i.capability ((ms.take k).map (·.source.capability)) n := by
  have grants : Sample.grants (Sample.context Sample.limited)
      (Sample.chain [("size", .integer 9)] [("size", .integer 7)] [("size", .integer 5)])
      (fun a => decide (a.nodes.length = 3)) = true := by
    decide +kernel
  obtain ⟨i, a, later, made, granted, long⟩ := Sample.exists_of_grants grants
  obtain ⟨m, ms, nodes, -, each, -⟩ := standsFor_of_access rfl granted
  exact ⟨i, a, later, made, granted, of_decide_eq_true long, _, m, ms, rfl, nodes,
    fun k n here => (each k n here).1⟩

end Context

end Mandate

import Mandate.Proofs.Parts
import Mandate.Proofs.Valid

/-!
# What deriving adds

Beside what proves it by its own kind, a derived match may be proven by what the origin selects. So a proof
of it goes along matches of its own kind, as far as it likes, and then either ends with one that its issuer
may issue or goes over to the origin. There it stays, for the origin is smaller than the selector that
derives from it.
-/

namespace Mandate

open Relation

namespace Context

variable {ctx : Context} {cache : ProofCache} {i : Invocation} {origin : Selector} {target : Descriptor}
  {rule : Derivation} {m n : DirectMatch}

/-- A derived match is proven by one of its own kind, or by what the origin selects and the rule accepts. -/
theorem provable_derived_iff (resolvable : ctx.Resolvable cache m.source.delegation) :
    ctx.Provable cache (.derived m origin rule) ↔ m.isSelfIssued ctx.mayIssue = true ∨
      (∃ n, ctx.Follows cache m n ∧ ctx.Provable cache (.derived n origin rule)) ∨
      ∃ x ∈ (origin.select (ctx.valid cache [m.source])).found,
        rule m.value x.value = .ok () ∧ ctx.Provable cache x := by
  rw [provable_iff (by simpa [Match.sources] using resolvable)]
  simp only [Match.prune_derived_eq_some_iff, and_imp]
  cases issued : m.isSelfIssued ctx.mayIssue with
  | true => simp
  | false =>
      simp only [forall_const, forall_eq', Match.select, Match.mem_found_selectDerived, Match.sources,
        Bool.false_eq_true, false_or, or_and_right, exists_or, Follows]
      refine or_congr ?_ ?_
      · constructor
        · rintro ⟨_, ⟨n, found, rfl⟩, proven⟩
          exact ⟨n, found, proven⟩
        · rintro ⟨n, found, proven⟩
          exact ⟨_, ⟨n, found, rfl⟩, proven⟩
      · simp only [and_assoc]

/-- The end of a line of matches of one kind, for a match that is derived: its issuer may issue it, or what
the origin selects for it is proven. -/
def Ends (ctx : Context) (cache : ProofCache) (origin : Selector) (rule : Derivation) (m : DirectMatch) :
    Prop :=
  m.isSelfIssued ctx.mayIssue = true ∨ ∃ x ∈ (origin.select (ctx.valid cache [m.source])).found,
    rule m.value x.value = .ok () ∧ ctx.Provable cache x

/-- A derived match is provable exactly if a line of matches of its own kind leads from it to an end. -/
theorem provable_derived_iff_exists (resolvable : ctx.Resolvable cache m.source.delegation) :
    ctx.Provable cache (.derived m origin rule) ↔
      ∃ n, ReflTransGen (ctx.Follows cache) m n ∧ ctx.Ends cache origin rule n := by
  constructor
  · intro proven
    -- The induction is on the proof, which may leave the line at any match of it.
    generalize derived : Match.derived m origin rule = whole at proven
    induction proven generalizing m with
    | issued pruned =>
        subst derived
        refine ⟨m, .refl, Or.inl ?_⟩
        by_contra other
        simp [Match.prune, other] at pruned
    | @delegated _ rest k g pruned gathered selected proven ih =>
        subst derived
        obtain ⟨-, rfl⟩ := Match.prune_derived_eq_some_iff.mp pruned
        rw [(eq_of_gather gathered).1] at selected
        rcases Match.mem_found_selectDerived.mp selected with ⟨n, found, rfl⟩ | ⟨found, accepted⟩
        · have step : ctx.Follows cache m n := found
          obtain ⟨last, line, ends⟩ := ih (step.resolvable resolvable) rfl
          exact ⟨last, .head step line, ends⟩
        · exact ⟨m, .refl, Or.inr ⟨k, found, accepted, proven⟩⟩
  · rintro ⟨n, line, ends⟩
    induction line using ReflTransGen.head_induction_on with
    | refl =>
        rw [provable_derived_iff resolvable]
        exact ends.imp_right Or.inr
    | head step _ ih =>
        rw [provable_derived_iff resolvable]
        exact Or.inr (Or.inl ⟨_, step, ih (step.resolvable resolvable)⟩)

/-- What the target proves alone is proven when it is derived, whatever from. -/
theorem Provable.derived (h : ctx.Provable cache (.direct m))
    (resolvable : ctx.Resolvable cache m.source.delegation) :
    ctx.Provable cache (.derived m origin rule) := by
  obtain ⟨n, line, issued⟩ := (provable_direct_iff_exists resolvable).mp h
  exact (provable_derived_iff_exists resolvable).mpr ⟨n, line, Or.inl issued⟩

/-- Another selector proves no match otherwise. -/
theorem Provable.of_selector {selector : Selector} {m : Match}
    (h : Provable { ctx with selector := selector } cache m) : ctx.Provable cache m := by
  induction h with
  | issued pruned => exact .issued pruned
  | delegated pruned gathered selected _ ih => exact .delegated pruned gathered selected ih

/-- All of a proof is made of what the proven match is made of. -/
theorem Proves.madeOf {selector : Selector} {a n : Authorization} (h : ctx.Proves cache a)
    (made : selector.MadeOf a.matched) (mem : n ∈ a.nodes) : selector.MadeOf n.matched := by
  induction h with
  | issued pruned =>
      obtain rfl : n = _ := by simpa using mem
      exact made
  | delegated pruned gathered selected proven ih =>
      rw [Authorization.nodes_step] at mem
      rcases List.mem_cons.mp mem with rfl | below
      · exact made
      · exact ih ((made.prune pruned).select selected) below

/-- Whether all of an authorization is what an origin makes, so that nothing in it is derived from the whole
origin. -/
def Foreign (origin : Selector) (a : Authorization) : Prop :=
  ∀ n ∈ a.nodes, origin.MadeOf n.matched ∧ ∀ k rule, .derived k origin rule ∉ n.matched.leaves

/-- Authorizations of what the target describes: a line of its own kind, which may go over to the origin once
and never comes back. -/
inductive Switches (origin : Selector) (target : Descriptor) (rule : Derivation) : Authorization → Prop where
  | issued {m : DirectMatch} (kind : m.descriptor = target) :
      Switches origin target rule ⟨.derived m origin rule, []⟩
  | same {m : DirectMatch} {p : Authorization} (kind : m.descriptor = target)
      (line : Switches origin target rule p) : Switches origin target rule ⟨.derived m origin rule, [p]⟩
  | switched {m : DirectMatch} {p : Authorization} (kind : m.descriptor = target)
      (accepted : rule m.value p.matched.value = .ok ()) (foreign : Foreign origin p) :
      Switches origin target rule ⟨.derived m origin rule, [p]⟩

theorem Proves.foreign {a : Authorization} (h : ctx.Proves cache a) (made : origin.MadeOf a.matched) :
    Foreign origin a := by
  intro n mem
  have below := h.madeOf made mem
  refine ⟨below, fun k rule leaf => ?_⟩
  exact Selector.not_part_derive (below _ leaf)

theorem Proves.switches {a : Authorization} (h : ctx.Proves cache a)
    (derived : a.matched = .derived m origin rule) (kind : m.descriptor = target) :
    Switches origin target rule a := by
  induction h generalizing m with
  | @issued whole pruned =>
      obtain rfl : whole = .derived m origin rule := derived
      exact .issued kind
  | @delegated whole rest g p pruned gathered selected proven ih =>
      obtain rfl : whole = .derived m origin rule := derived
      obtain ⟨-, rfl⟩ := Match.prune_derived_eq_some_iff.mp pruned
      rcases Match.mem_found_selectDerived.mp selected with ⟨n, found, same⟩ | ⟨found, accepted⟩
      · apply Switches.same kind
        exact ih same ((DirectMatch.descriptor_of_mem_found found).trans kind)
      · apply Switches.switched kind accepted
        exact proven.foreign (Selector.madeOf_of_mem_found found)

section Access

variable (resolvable : ctx.Resolvable cache i.delegation)

include resolvable

theorem Resolvable.described (mem : m ∈ (target.select (Source.all i.delegation)).found) :
    ctx.Resolvable cache m.source.delegation := by
  obtain ⟨s, hs, candidate⟩ := Descriptor.mem_found_select.mp mem
  obtain ⟨value, -, rfl⟩ := Descriptor.candidate_eq_found candidate
  rw [Source.mem_all.mp hs]
  exact resolvable

/-- What is granted with a descriptor alone. -/
theorem provable_of_described {a : Authorization} {later : ProofCache}
    (agrees : ∀ a, ctx.validate a = .ok ())
    (h : { ctx with selector := .descriptor target }.access i cache = some (.ok a, later)) :
    ctx.checkInvocation i = .ok () ∧
      ∃ m ∈ (target.select (Source.all i.delegation)).found, ctx.Provable cache (.direct m) := by
  have outcome : (({ ctx with selector := .descriptor target } : Context).access i).outcome cache =
      some (.ok a) := Walk.outcome_eq_some_iff.mpr ⟨later, h⟩
  have granted := @exists_ok_iff_provable { ctx with selector := .descriptor target } cache i _ agrees
    resolvable outcome
  obtain ⟨checked, _, selected, proven⟩ := granted.mp ⟨a, rfl⟩
  obtain ⟨m, mem, rfl⟩ := List.mem_map.mp selected
  exact ⟨checked, m, mem, proven.of_selector⟩

/-- With a selector that is derived, an access that comes to an end grants exactly what passes its own checks
and is selected by the target as a match from which a line of such matches, each selected among the proofs
that pass for the one before, leads to one that its issuer may issue, or for which the origin selects among
the proofs that pass a match that the rule accepts and that is provable. So it grants what it would grant
with the target alone; and what it grants goes over to the origin at most once and stays there. It comes to
an end where citations lead in no circle. -/
theorem derive_adds (selects : ctx.selector = .derive origin target rule)
    (agrees : ∀ a, ctx.validate a = .ok ()) :
    (∀ result later, ctx.access i cache = some (result, later) →
      ((∃ a, result = .ok a) ↔ ctx.checkInvocation i = .ok () ∧
        ∃ m ∈ (target.select (Source.all i.delegation)).found, ∃ n,
          ReflTransGen (ctx.Follows cache) m n ∧ ctx.Ends cache origin rule n) ∧
      (∀ a, result = .ok a → Switches origin target rule a) ∧
      (∀ a after, { ctx with selector := .descriptor target }.access i cache = some (.ok a, after) →
        ∃ b, result = .ok b)) ∧
    (ctx.Acyclic cache i.delegation → ∃ result later, ctx.access i cache = some (result, later)) := by
  have found : (ctx.selector.select (Source.all i.delegation)).found =
      (target.select (Source.all i.delegation)).found.map fun m => .derived m origin rule := by
    rw [selects]
    rfl
  refine ⟨fun result later accessed => ?_, fun acyclic => ?_⟩
  · have outcome : (ctx.access i).outcome cache = some result :=
      Walk.outcome_eq_some_iff.mpr ⟨later, accessed⟩
    have granted := exists_ok_iff_provable agrees resolvable outcome
    rw [found] at granted
    refine ⟨?_, ?_, ?_⟩
    · rw [granted]
      simp only [List.mem_map, exists_exists_and_eq_and]
      refine and_congr_right fun _ => exists_congr fun m => and_congr_right fun mem => ?_
      exact provable_derived_iff_exists (resolvable.described mem)
    · rintro a rfl
      obtain ⟨-, selected, -, tree⟩ := proves_of_access accessed
      rw [found] at selected
      obtain ⟨m, mem, same⟩ := List.mem_map.mp selected
      exact tree.switches same.symm (Descriptor.descriptor_of_mem_found mem)
    · intro a after alone
      obtain ⟨checked, m, mem, proven⟩ := provable_of_described resolvable agrees alone
      rw [granted]
      exact ⟨checked, _, List.mem_map_of_mem mem, proven.derived (resolvable.described mem)⟩
  · obtain ⟨result, outcome⟩ := exists_access acyclic
    exact ⟨result, Walk.outcome_eq_some_iff.mp outcome⟩

end Access

end Context

/-! ## Uploads by who may add -/

namespace Sample

def uploads : Descriptor := .plain "upload/add" Resource.readText

/-- Uploads, for which additions may stand in. -/
def derivedUploads : Selector := .derive adding uploads fun _ _ => .ok ()

/-- Carol uploads, where Alice let her add. -/
def substitute : Except Delegation.Error Invocation := do
  let alices ← grant alice carol "store/add" [] []
  Invocation.ofDelegation (← grant carol service "upload/add" [] [alices])

/-- What Alice uploads on her own, until a time. -/
def fleeting (expiration : Timestamp) : Except Delegation.Error Invocation := do
  Invocation.ofDelegation (← Draft.sign ⟨some service, [⟨"upload/add", alice.toText, []⟩], [],
    some expiration, none, [], none⟩ (echo alice))

end Sample

/-- Carol's upload goes over to what Alice let her add. -/
theorem Context.derive_adds_substitute :
    ∃ i a later m n, Sample.substitute = .ok i ∧
      (Sample.context Sample.derivedUploads).access i .empty = some (.ok a, later) ∧
      a.nodes.length = 2 ∧ m ∈ (Sample.uploads.select (Source.all i.delegation)).found ∧
      ReflTransGen ((Sample.context Sample.derivedUploads).Follows .empty) m n ∧
      (Sample.context Sample.derivedUploads).Ends .empty Sample.adding (fun _ _ => .ok ()) n ∧
      Switches Sample.adding Sample.uploads (fun _ _ => .ok ()) a := by
  have grants : Sample.grants (Sample.context Sample.derivedUploads) Sample.substitute
      (fun a => decide (a.nodes.length = 2)) = true := by
    decide +kernel
  obtain ⟨i, a, later, made, granted, long⟩ := Sample.exists_of_grants grants
  have resolvable : (Sample.context Sample.derivedUploads).Resolvable .empty i.delegation :=
    fun e _ => ⟨_, rfl⟩
  obtain ⟨answers, -⟩ := derive_adds resolvable rfl fun _ => rfl
  obtain ⟨told, switches, -⟩ := answers _ later granted
  obtain ⟨-, m, selected, n, line, ends⟩ := told.mp ⟨a, rfl⟩
  exact ⟨i, a, later, m, n, made, granted, of_decide_eq_true long, selected, line, ends, switches a rfl⟩

/-- Alice may issue what she uploads, and all issuers are known and all authorizations valid, but the access
is denied after the time that she set. -/
theorem Context.derived_denied_expired :
    ∃ i m f later, Sample.fleeting 5 = .ok i ∧
      let ctx := { Sample.context Sample.derivedUploads with now := 9 }
      ctx.Resolvable .empty i.delegation ∧ (∀ a, ctx.validate a = .ok ()) ∧
      m ∈ (Sample.uploads.select (Source.all i.delegation)).found ∧
      m.isSelfIssued ctx.mayIssue = true ∧ ctx.access i .empty = some (.error f, later) := by
  have issued : (Sample.fleeting 5).toOption.any (fun i =>
      (Sample.uploads.select (Source.all i.delegation)).found.any
        (·.isSelfIssued Capability.isOwnedBy)) = true := by
    decide +kernel
  have denies : Sample.denies { Sample.context Sample.derivedUploads with now := 9 } (Sample.fleeting 5)
      (fun f => decide (f.walk.map Failure.name = ["Unauthorized", "Expired"])) = true := by
    decide +kernel
  obtain ⟨i, made, h⟩ := Sample.exists_of_any issued
  obtain ⟨m, selected, owned⟩ := List.any_eq_true.mp h
  obtain ⟨_, f, later, same, denied, -⟩ := Sample.exists_of_denies denies
  obtain rfl := Except.ok.inj (made.symm.trans same)
  exact ⟨i, m, f, later, made, fun e _ => ⟨_, rfl⟩, fun _ => rfl, selected, owned, denied⟩

end Mandate

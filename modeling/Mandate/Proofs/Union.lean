import Mandate.Proofs.Completeness
import Mandate.Proofs.Denial

/-!
# Either of two selectors

With either of two selectors, the matches of the left one are tried before those of the right one. As no
match that fails ends the search where all issuers are known, the right ones are tried exactly if the left
ones fail. So what is granted with both is what is granted with the left one, or else with the right one,
whatever the selector that fails made of the invocation.
-/

namespace Mandate

open Walk

namespace Trial

variable {resolver : Option Resolver} {attempt : Match → Walk Trial}

/-- What a trial accepted. -/
def authorization? : Trial → Option Authorization
  | accepted a => some a
  | rejected _ => none
  | aborted _ => none

/-- Matches that follow others are tried where all others were rejected. -/
theorem outcome_first_append (h : ∀ m, Steady resolver (attempt m)) (ms ns : List Match)
    (causes : List Failure) (cache : ProofCache) :
    (first attempt (ms ++ ns) causes).outcome cache = ((first attempt ms causes).outcome cache).bind fun
      | .accepted a => some (.accepted a)
      | .rejected more => (first attempt ns more).outcome cache
      | .aborted f => some (.aborted f) := by
  induction ms generalizing causes with
  | nil => rfl
  | cons m ms ih =>
      rw [List.cons_append, outcome_first_cons h, outcome_first_cons h, Option.bind_assoc]
      congr 1
      funext trial
      cases trial with
      | accepted a => rfl
      | rejected more => exact ih _
      | aborted f => rfl

/-- The authorization that the first of some matches is accepted with, if the trial ends. -/
def firstAuthorization? (attempt : Match → Walk Trial) (ms : List Match) (cache : ProofCache) :
    Option (Option Authorization) :=
  ((first attempt ms []).outcome cache).map authorization?

/-- The causes that were collected before do not matter for it. -/
theorem authorization?_first (h : ∀ m, Steady resolver (attempt m)) (ms : List Match)
    (causes : List Failure) (cache : ProofCache) :
    ((first attempt ms causes).outcome cache).map authorization? = firstAuthorization? attempt ms cache := by
  have same : ∀ collected, ((first attempt ms causes).outcome cache).map authorization? =
      ((first attempt ms collected).outcome cache).map authorization? := by
    induction ms generalizing causes with
    | nil => exact fun _ => rfl
    | cons m ms ih =>
        intro collected
        rw [outcome_first_cons h, outcome_first_cons h, Option.map_bind, Option.map_bind]
        congr 1
        funext trial
        cases trial with
        | accepted a => rfl
        | rejected more => exact ih _ _
        | aborted f => rfl
  exact same []

/-- Where no match ends the search, matches that follow others matter if none of those is accepted. -/
theorem firstAuthorization?_append (h : ∀ m, Steady resolver (attempt m)) {ms : List Match}
    (ns : List Match) {cache : ProofCache}
    (calm : ∀ m ∈ ms, ∀ f, (attempt m).outcome cache ≠ some (.aborted f)) :
    firstAuthorization? attempt (ms ++ ns) cache = (firstAuthorization? attempt ms cache).bind fun
      | some a => some (some a)
      | none => firstAuthorization? attempt ns cache := by
  rw [firstAuthorization?, outcome_first_append h, firstAuthorization?, Option.map_bind, Option.bind_map]
  cases tried : (first attempt ms []).outcome cache with
  | none => rfl
  | some trial =>
      cases trial with
      | accepted a => rfl
      | rejected more => exact authorization?_first h ns more cache
      | aborted f =>
          obtain ⟨m, mem, aborted⟩ := tried_of_outcome_first h (fun _ _ _ found => found) tried
          exact absurd aborted (calm m mem f)

end Trial

namespace Context

variable {ctx : Context} {cache : ProofCache} {i : Invocation} {l r : Selector}

section Result

variable {ε α : Type} {result : Option (Except ε α)}

theorem map_toOption_eq_ok_iff {a : α} :
    result.map Except.toOption = some (some a) ↔ result = some (.ok a) := by
  simp only [Option.map_eq_some_iff, toOption_eq_some_iff, exists_eq_right]

theorem map_toOption_eq_error_iff : result.map Except.toOption = some none ↔ ∃ e, result = some (.error e) := by
  rcases result with _ | _ | _ <;> simp [Except.toOption]

end Result

/-- The same context with another selector. -/
def withSelector (ctx : Context) (s : Selector) : Context := { ctx with selector := s }

/-- The selector has no part in how a claim is authorized. -/
theorem authorize_withSelector (ctx : Context) (s : Selector) (steps : Nat) :
    (ctx.withSelector s).authorize steps = ctx.authorize steps := by
  induction steps with
  | zero => rfl
  | succ steps ih =>
      funext claim
      unfold authorize
      rw [ih]
      rfl

theorem attempt_withSelector (ctx : Context) (s : Selector) (steps : Nat) (i : Invocation) :
    (ctx.withSelector s).attempt steps i = ctx.attempt steps i := by
  funext m
  unfold attempt
  rw [authorize_withSelector]
  rfl

/-- How an access with a selector turns out, if it ends. -/
def outcomeWith (ctx : Context) (cache : ProofCache) (i : Invocation) (s : Selector) :
    Option (Except Failure Authorization) :=
  ((ctx.withSelector s).access i).outcome cache

/-- The steps that an access with any selector may take. -/
def bound (ctx : Context) (cache : ProofCache) (i : Invocation) : Nat := max usualSteps (ctx.reach i cache)

theorem outcomeWith_eq (ctx : Context) (cache : ProofCache) (i : Invocation) (s : Selector) :
    ctx.outcomeWith cache i s =
      ((ctx.withSelector s).accessWithin (ctx.bound cache i) i).outcome cache := by
  rw [outcomeWith, outcome, access_eq]
  rfl

/-- An access grants what the first match is accepted with, whichever selector it was selected by. -/
theorem toOption_outcomeWith (checked : ctx.checkInvocation i = .ok ()) (s : Selector) :
    (ctx.outcomeWith cache i s).map Except.toOption =
      Trial.firstAuthorization? (ctx.attempt (ctx.bound cache i) i)
        (s.select (Source.all i.delegation)).found cache := by
  have steady := ctx.steady_attempt (ctx.bound cache i) i
  have begun : (ctx.withSelector s).checkInvocation i = .ok () := checked
  rw [outcomeWith_eq, outcome_accessWithin begun, attempt_withSelector]
  simp only
  split
  case h_1 f malformed =>
    have none : (s.select (Source.all i.delegation)).found = [] := found_eq_nil_of_malformed? malformed
    rw [none]
    rfl
  case h_2 =>
    rw [← Trial.authorization?_first steady _ (s.select (Source.all i.delegation)).failures, Option.map_map]
    congr 1
    funext trial
    cases trial <;> rfl

/-- What is granted with either of two selectors. -/
theorem toOption_outcomeWith_or (resolvable : ctx.Resolvable cache i.delegation) (l r : Selector) :
    (ctx.outcomeWith cache i (.or l r)).map Except.toOption =
      ((ctx.outcomeWith cache i l).map Except.toOption).bind fun
        | some a => some (some a)
        | none => (ctx.outcomeWith cache i r).map Except.toOption := by
  cases checked : ctx.checkInvocation i with
  | error f =>
      have refused : ∀ s, ctx.outcomeWith cache i s = some (.error f) := by
        intro s
        have begun : (ctx.withSelector s).checkInvocation i = .error f := checked
        rw [outcomeWith_eq, accessWithin, begun]
        rfl
      simp only [refused]
      rfl
  | ok _ =>
      rw [toOption_outcomeWith checked, toOption_outcomeWith checked, toOption_outcomeWith checked]
      apply Trial.firstAuthorization?_append (ctx.steady_attempt _ i)
      intro m selected f aborted
      rw [← attempt_withSelector ctx l] at aborted
      have resolves : (ctx.withSelector l).Resolvable cache i.delegation := resolvable
      exact grants_of_attempt resolves selected aborted

/-- Either of two selectors is their union: an access with both grants what it grants with the left one, or
if that is denied, what it grants with the right one, and it is denied if both are. So where citations lead
in no circle, it grants something exactly if it does with one of them. -/
theorem access_or (resolvable : ctx.Resolvable cache i.delegation) (l r : Selector) :
    (∀ a, ctx.outcomeWith cache i (.or l r) = some (.ok a) ↔
      ctx.outcomeWith cache i l = some (.ok a) ∨
      (∃ f, ctx.outcomeWith cache i l = some (.error f)) ∧ ctx.outcomeWith cache i r = some (.ok a)) ∧
    ((∃ f, ctx.outcomeWith cache i (.or l r) = some (.error f)) ↔
      (∃ f, ctx.outcomeWith cache i l = some (.error f)) ∧
      ∃ f, ctx.outcomeWith cache i r = some (.error f)) ∧
    (ctx.Acyclic cache i.delegation →
      ((∃ a, ctx.outcomeWith cache i (.or l r) = some (.ok a)) ↔
        (∃ a, ctx.outcomeWith cache i l = some (.ok a)) ∨ ∃ a, ctx.outcomeWith cache i r = some (.ok a))) := by
  have joined := toOption_outcomeWith_or resolvable l r
  have granted : ∀ a, ctx.outcomeWith cache i (.or l r) = some (.ok a) ↔
      ctx.outcomeWith cache i l = some (.ok a) ∨
      (∃ f, ctx.outcomeWith cache i l = some (.error f)) ∧ ctx.outcomeWith cache i r = some (.ok a) := by
    intro a
    rw [← map_toOption_eq_ok_iff, joined]
    rcases ctx.outcomeWith cache i l with _ | f | b <;>
      simp [Except.toOption, map_toOption_eq_ok_iff, -Option.map_eq_some_iff]
  refine ⟨granted, ?_, fun acyclic => ?_⟩
  · rw [← map_toOption_eq_error_iff, joined]
    rcases ctx.outcomeWith cache i l with _ | f | b <;>
      simp [Except.toOption, map_toOption_eq_error_iff, -Option.map_eq_some_iff]
  · obtain ⟨result, ended⟩ : ∃ result, ctx.outcomeWith cache i l = some result := by
      have ends : (ctx.withSelector l).Acyclic cache i.delegation := acyclic
      exact exists_access ends
    constructor
    · rintro ⟨a, both⟩
      rcases (granted a).mp both with left | ⟨-, right⟩
      · exact Or.inl ⟨a, left⟩
      · exact Or.inr ⟨a, right⟩
    · rintro (⟨a, left⟩ | ⟨a, right⟩)
      · exact ⟨a, (granted a).mpr (Or.inl left)⟩
      · cases result with
        | ok b => exact ⟨b, (granted b).mpr (Or.inl ended)⟩
        | error f => exact ⟨a, (granted a).mpr (Or.inr ⟨⟨f, ended⟩, right⟩)⟩

end Context

/-! ## A reading that fails -/

namespace Sample

/-- Additions to a store that is named by a locator. -/
def hosted : Selector := .descriptor (.plain "store/add" (Resource.readUrl (some "https")))

end Sample

/-- The store is not named by a locator, so what Carol invokes is malformed for the left selector, and she is
granted it by the right one. -/
theorem Context.access_or_chain :
    ∃ i a f, Sample.chain [("size", .integer 9)] [] [("size", .integer 5)] = .ok i ∧
      (Sample.context Sample.limited).outcomeWith .empty i Sample.hosted = some (.error f) ∧
      f.name = "MalformedCapability" ∧ a.nodes.length = 3 ∧
      (Sample.context Sample.limited).outcomeWith .empty i (.or Sample.hosted Sample.limited) =
        some (.ok a) := by
  have denies : Sample.denies (Sample.context Sample.hosted)
      (Sample.chain [("size", .integer 9)] [] [("size", .integer 5)])
      (fun f => decide (f.name = "MalformedCapability")) = true := by
    decide +kernel
  have grants : Sample.grants (Sample.context Sample.limited)
      (Sample.chain [("size", .integer 9)] [] [("size", .integer 5)])
      (fun a => decide (a.nodes.length = 3)) = true := by
    decide +kernel
  obtain ⟨i, f, after, made, denied, name⟩ := Sample.exists_of_denies denies
  obtain ⟨_, a, later, same, granted, long⟩ := Sample.exists_of_grants grants
  obtain rfl := Except.ok.inj (made.symm.trans same)
  have resolvable : (Sample.context Sample.limited).Resolvable .empty i.delegation :=
    fun e _ => ⟨_, rfl⟩
  have left : (Sample.context Sample.limited).outcomeWith .empty i Sample.hosted = some (.error f) :=
    outcome_eq_some_iff.mpr ⟨after, denied⟩
  have right : (Sample.context Sample.limited).outcomeWith .empty i Sample.limited = some (.ok a) :=
    outcome_eq_some_iff.mpr ⟨later, granted⟩
  have both := ((access_or resolvable Sample.hosted Sample.limited).1 a).mpr (Or.inr ⟨⟨f, left⟩, right⟩)
  exact ⟨i, a, f, made, left, of_decide_eq_true name, of_decide_eq_true long, both⟩

end Mandate

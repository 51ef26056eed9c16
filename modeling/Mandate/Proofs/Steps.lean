import Mandate.Proofs.Walk

/-!
# More steps change nothing

A search that runs out of steps has no result, and one that does not has the result, and leaves the cache,
that it has with any larger number of steps. So the two bounds that an access tries are one, the larger of
them, and an access is a bounded search.
-/

namespace Mandate

namespace Walk

variable {α β : Type}

/-- Where one part of a search has a result, another one has the same. -/
def Prolongs (longer shorter : Walk α) : Prop :=
  ∀ ⦃cache : ProofCache⦄ ⦃result : α × ProofCache⦄,
    shorter cache = some result → longer cache = some result

theorem Prolongs.refl (w : Walk α) : Prolongs w w := fun _ _ ran => ran

theorem Prolongs.failure (w : Walk α) : Prolongs w Alternative.failure := by
  intro cache result ran
  cases ran

theorem Prolongs.bind {longer shorter : Walk α} {f g : α → Walk β} (first : Prolongs longer shorter)
    (second : ∀ a, Prolongs (f a) (g a)) : Prolongs (longer >>= f) (shorter >>= g) := by
  intro cache result ran
  obtain ⟨a, later, here, there⟩ := exists_of_bind_eq_some ran
  exact Option.bind_eq_some_iff.mpr ⟨(a, later), first here, second a there⟩

theorem Prolongs.outcome {longer shorter : Walk α} (h : Prolongs longer shorter) {cache : ProofCache} {a : α}
    (ended : shorter.outcome cache = some a) : longer.outcome cache = some a := by
  obtain ⟨later, ran⟩ := outcome_eq_some_iff.mp ended
  exact outcome_eq_some_iff.mpr ⟨later, h ran⟩

end Walk

open Walk

theorem Trial.prolongs_first {longer shorter : Match → Walk Trial}
    (h : ∀ m, Prolongs (longer m) (shorter m)) (ms : List Match) (causes : List Failure) :
    Prolongs (first longer ms causes) (first shorter ms causes) := by
  induction ms generalizing causes with
  | nil => exact .refl _
  | cons m ms ih =>
      apply (h m).bind
      intro trial
      cases trial with
      | accepted a => exact .refl _
      | rejected more => exact ih _
      | aborted f => exact .refl _

namespace Context

variable {ctx : Context} {cache : ProofCache} {i : Invocation} {steps more : Nat}

theorem prolongs_prove {longer shorter : Match → Walk (Except Failure Authorization)}
    (h : ∀ m, Prolongs (longer m) (shorter m)) (m : Match) :
    Prolongs (ctx.prove longer m) (ctx.prove shorter m) := by
  unfold prove
  split
  case h_1 => exact .refl _
  case h_2 rest _ =>
    apply (h rest).bind
    intro result
    exact .refl _

/-- Authorizing a claim in more steps prolongs authorizing it in fewer. -/
theorem prolongs_authorize (enough : steps ≤ more) (claim : Match) :
    Prolongs (ctx.authorize more claim) (ctx.authorize steps claim) := by
  induction steps generalizing more claim with
  | zero => exact .failure _
  | succ steps ih =>
      obtain ⟨more, rfl⟩ : ∃ n, more = n + 1 := ⟨more - 1, by omega⟩
      apply (Prolongs.refl _).bind
      intro gathered
      cases gathered with
      | error f => exact .refl _
      | ok g =>
          apply (Trial.prolongs_first (prolongs_prove (ih (by omega))) _ _).bind
          intro trial
          exact .refl _

theorem prolongs_accessWithin (enough : steps ≤ more) (i : Invocation) :
    Prolongs (ctx.accessWithin more i) (ctx.accessWithin steps i) := by
  unfold accessWithin
  split
  case h_1 => exact .refl _
  case h_2 =>
    simp only
    split
    case h_1 => exact .refl _
    case h_2 =>
      refine (Trial.prolongs_first (fun m => ?_) _ _).bind fun trial => .refl _
      exact (prolongs_prove (prolongs_authorize enough) m).bind fun trial => .refl _

/-- An access is a search within the larger of the usual number of steps and the one that is counted. -/
theorem access_eq (ctx : Context) (i : Invocation) (cache : ProofCache) :
    ctx.access i cache = ctx.accessWithin (max usualSteps (ctx.reach i cache)) i cache := by
  unfold access
  cases usual : ctx.accessWithin usualSteps i cache with
  | some result => exact (prolongs_accessWithin (Nat.le_max_left _ _) i usual).symm
  | none =>
      show ctx.accessWithin (ctx.reach i cache) i cache = _
      cases counted : ctx.accessWithin (ctx.reach i cache) i cache with
      | some result => exact (prolongs_accessWithin (Nat.le_max_right _ _) i counted).symm
      | none =>
          rcases Nat.le_total usualSteps (ctx.reach i cache) with le | le
          · rw [Nat.max_eq_right le, counted]
          · rw [Nat.max_eq_left le, usual]

/-- Whatever number of steps sufficed, the search had the outcome of a bounded search. -/
theorem exists_accessWithin {result : Except Failure Authorization}
    (h : (ctx.access i).outcome cache = some result) :
    ∃ steps, (ctx.accessWithin steps i).outcome cache = some result := by
  rw [outcome, access_eq] at h
  exact ⟨_, h⟩

/-- A bounded search that has a result, and leaves some cache, does so within any larger number of steps. -/
theorem accessWithin_mono {result : Except Failure Authorization × ProofCache}
    (h : ctx.accessWithin steps i cache = some result) (enough : steps ≤ more) :
    ctx.accessWithin more i cache = some result :=
  prolongs_accessWithin enough i h

/-- An access has an outcome if the number of steps that it counts is enough. -/
theorem outcome_access {result : Except Failure Authorization}
    (h : (ctx.accessWithin (ctx.reach i cache) i).outcome cache = some result) :
    (ctx.access i).outcome cache = some result := by
  rw [outcome, access_eq]
  exact (prolongs_accessWithin (Nat.le_max_right _ _) i).outcome h

end Context

end Mandate

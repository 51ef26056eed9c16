import Mandate.Proofs.Acyclic
import Mandate.Proofs.Soundness
import Mathlib.Data.Nat.SuccPred

/-!
# How deep a search goes

A search goes one citation further with every step, whatever the matches are that it tries on the way. So
the longest path of citations that starts at an invocation bounds how deep the search for it goes. Such a
path exists where following citations comes to an end, for each delegation cites finitely many.
-/

namespace Mandate

namespace Context

open Relation

variable {ctx : Context} {cache : ProofCache} {i : Invocation} {d p : Delegation} {steps n : Nat}

/-- The numbers of citations that can be followed, one after the other, from a delegation on. -/
def pathLengths (ctx : Context) (cache : ProofCache) (d : Delegation) : Set Nat :=
  {n | ∃ path : List Delegation, path.length = n ∧ (d :: path).IsChain (ctx.Cites cache)}

theorem zero_mem_pathLengths (ctx : Context) (cache : ProofCache) (d : Delegation) :
    0 ∈ ctx.pathLengths cache d :=
  ⟨[], rfl, .singleton d⟩

theorem succ_mem_pathLengths_iff :
    n + 1 ∈ ctx.pathLengths cache d ↔ ∃ p, ctx.Cites cache d p ∧ n ∈ ctx.pathLengths cache p := by
  constructor
  · rintro ⟨path, long, chain⟩
    cases path with
    | nil => cases long
    | cons p path =>
        obtain ⟨cites, rest⟩ := List.isChain_cons_cons.mp chain
        exact ⟨p, cites, path, Nat.succ.inj long, rest⟩
  · rintro ⟨p, cites, path, rfl, rest⟩
    exact ⟨p :: path, rfl, List.isChain_cons_cons.mpr ⟨cites, rest⟩⟩

/-- So many steps are enough for a delegation as are more than the citations on every path from it. -/
theorem within_iff : ctx.Within cache steps d ↔ ∀ n ∈ ctx.pathLengths cache d, n < steps := by
  induction steps generalizing d with
  | zero => exact ⟨False.elim, fun short => Nat.not_lt_zero 0 (short 0 (ctx.zero_mem_pathLengths cache d))⟩
  | succ steps ih =>
      constructor
      · intro enough n mem
        cases n with
        | zero => exact Nat.zero_lt_succ steps
        | succ n =>
            obtain ⟨p, cites, rest⟩ := succ_mem_pathLengths_iff.mp mem
            exact Nat.succ_lt_succ (ih.mp (enough p cites) n rest)
      · intro short p cites
        apply ih.mpr
        intro n rest
        exact Nat.lt_of_succ_lt_succ (short (n + 1) (succ_mem_pathLengths_iff.mpr ⟨p, cites, rest⟩))

/-- The delegations that one cites, in order. -/
def citedBy (ctx : Context) (cache : ProofCache) (d : Delegation) : List Delegation :=
  d.proofs.filterMap fun p => (ctx.cited cache p).toOption

theorem mem_citedBy_iff : p ∈ ctx.citedBy cache d ↔ ctx.Cites cache d p := by
  simp only [citedBy, Cites, List.mem_filterMap, toOption_eq_some_iff]

instance decidableWithin (ctx : Context) (cache : ProofCache) :
    (steps : Nat) → (d : Delegation) → Decidable (ctx.Within cache steps d)
  | 0, _ => isFalse id
  | steps + 1, d =>
    have := decidableWithin ctx cache steps
    decidable_of_iff (∀ p ∈ ctx.citedBy cache d, ctx.Within cache steps p)
      (forall_congr' fun _ => imp_congr_left mem_citedBy_iff)

/-- Where some number of steps is enough, following citations comes to an end. -/
theorem Within.founded (h : ctx.Within cache steps d) : ctx.Founded cache d := by
  induction steps generalizing d with
  | zero => exact h.elim
  | succ steps ih => exact .intro d fun p cites => ih (h p cites)

/-- Where following citations comes to an end, some number of steps is enough. -/
theorem exists_within_of_founded (founded : ctx.Founded cache d) : ∃ steps, ctx.Within cache steps d := by
  induction founded with
  | intro d _ ih =>
      obtain ⟨steps, enough⟩ : ∃ steps, ∀ p ∈ ctx.citedBy cache d, ctx.Within cache steps p :=
        exists_within_all fun p cited => ih p (mem_citedBy_iff.mp cited)
      exact ⟨steps + 1, fun p cites => enough p (mem_citedBy_iff.mpr cites)⟩

/-- Then one of the paths from the delegation on is the longest. -/
theorem exists_longest (founded : ctx.Founded cache d) :
    ∃ longest, IsGreatest (ctx.pathLengths cache d) longest := by
  obtain ⟨steps, enough⟩ := exists_within_of_founded founded
  have bounded : BddAbove (ctx.pathLengths cache d) :=
    ⟨steps, fun n mem => (within_iff.mp enough n mem).le⟩
  exact bounded.exists_isGreatest_of_nonempty ⟨0, ctx.zero_mem_pathLengths cache d⟩

theorem within_of_longest (longest : IsGreatest (ctx.pathLengths cache d) n) (more : n < steps) :
    ctx.Within cache steps d :=
  within_iff.mpr fun _ mem => (longest.2 mem).trans_lt more

/-- An access ends where following citations from the invocation on does. As many steps as there are
delegations on the longest path are enough for it, and with any larger number of steps it gives the same
result and leaves the same cache. -/
theorem access_ends (founded : ctx.Founded cache i.delegation) :
    ∃ longest, IsGreatest (ctx.pathLengths cache i.delegation) longest ∧
      ∃ result later, ctx.access i cache = some (result, later) ∧
        ∀ steps, longest < steps → ctx.accessWithin steps i cache = some (result, later) := by
  obtain ⟨longest, greatest⟩ := exists_longest founded
  obtain ⟨result, outcome⟩ :=
    exists_outcome_accessWithin (within_of_longest greatest (Nat.lt_succ_self longest))
  obtain ⟨later, ended⟩ := Walk.outcome_eq_some_iff.mp outcome
  have same : ∀ steps, longest < steps → ctx.accessWithin steps i cache = some (result, later) :=
    fun steps more => accessWithin_mono ended more
  refine ⟨longest, greatest, result, later, ?_, same⟩
  -- The steps that an access counts are enough for the longest path too.
  have counted : longest < ctx.reach i cache :=
    within_iff.mp (within_reach (acyclic_of_founded founded)) longest greatest.1
  rw [access_eq]
  exact same _ (counted.trans_le (Nat.le_max_right _ _))

/-- Carol's invocation cites Bob's delegation, which cites what Alice delegated. -/
theorem access_ends_chain :
    ∃ i longest a later, Sample.chain [("size", .integer 9)] [] [("size", .integer 5)] = .ok i ∧
      IsGreatest ((Sample.context Sample.limited).pathLengths .empty i.delegation) longest ∧
      (Sample.context Sample.limited).accessWithin (longest + 1) i .empty = some (.ok a, later) ∧
      (Sample.context Sample.limited).access i .empty = some (.ok a, later) := by
  have grants : Sample.grants (Sample.context Sample.limited)
      (Sample.chain [("size", .integer 9)] [] [("size", .integer 5)]) (fun _ => true) = true := by
    decide +kernel
  obtain ⟨i, a, later, made, granted, -⟩ := Sample.exists_of_grants grants
  have founded : (Sample.context Sample.limited).Founded .empty i.delegation :=
    founded_of_unlinked rfl rfl _
  obtain ⟨longest, greatest, result, left, accessed, within⟩ := access_ends founded
  rw [granted] at accessed
  cases accessed
  exact ⟨i, longest, a, later, made, greatest, within _ (Nat.lt_succ_self longest), granted⟩

end Context

end Mandate

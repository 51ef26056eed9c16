import Mandate.Proofs.Binary64
import Mandate.Proofs.Line
import Mandate.Proofs.Written

/-!
# Limits along a line

A limit is compared with the number that was resolved just above it. Two integers are compared as they
are, but next to a float an integer counts as the nearest float. So along a line the nearest floats never
decrease, and with only integers on the way the numbers do not either. A float on the way can let an
integer pass that is above the limit, as long as the limit rounds to the same number.
-/

namespace Mandate

namespace Ipld

/-- The place of a number among the floats, an integer taking that of the nearest one. -/
def rank? : Ipld → Option Int
  | .integer n => some (Binary64.ofInt n).rank
  | .float x => some x.rank
  | _ => none

/-- A value that is comparable if it is a number at all. -/
def Comparable (v : Ipld) : Prop := ∀ x, v = .float x → x.isNaN = false

/-- Both are numbers, the first one of no greater rank. -/
def AtMost (u v : Ipld) : Prop := ∃ p q, u.rank? = some p ∧ v.rank? = some q ∧ p ≤ q

theorem AtMost.trans {u v w : Ipld} (h : AtMost u v) (h' : AtMost v w) : AtMost u w := by
  obtain ⟨p, q, hp, hq, below⟩ := h
  obtain ⟨q', r, hq', hr, above⟩ := h'
  rw [hq] at hq'
  cases hq'
  exact ⟨p, r, hp, hr, below.trans above⟩

theorem AtMost.constrained {u v : Ipld} (h : AtMost u v) : u ≠ .string "*" := by
  rintro rfl
  obtain ⟨p, q, none, -⟩ := h
  cases none

end Ipld

namespace Rule

theorem withinLimit_eq_ok_iff {key : String} {claimed delegated : Parsed} :
    withinLimit key claimed delegated = .ok () ↔
      ∀ v, delegated.caveats.lookup key = some v → v ≠ .string "*" →
        ∃ u, claimed.caveats.lookup key = some u ∧ exceeds? u v = some false := by
  rw [← forall_constraint_iff]
  unfold withinLimit
  cases constraint? delegated key with
  | none => simp
  | some limit =>
      cases claimed.caveats.lookup key with
      | none => simp
      | some actual =>
          cases compared : exceeds? actual limit with
          | none => simp [compared]
          | some above => cases above <;> simp [compared]

/-- What does not exceed a limit is a number, as is the limit, and of no greater rank. -/
theorem atMost_of_exceeds? {u v : Ipld} (hu : u.Comparable) (hv : v.Comparable)
    (h : exceeds? u v = some false) : u.AtMost v := by
  cases u with
  | integer n =>
      cases v with
      | integer m =>
          have order : n ≤ m := by simpa [exceeds?] using h
          exact ⟨_, _, rfl, rfl, Binary64.rank_ofInt_mono order⟩
      | float y =>
          have order := (Binary64.less_eq_false_iff (hv y rfl) (Binary64.isNaN_ofInt n)).mp
            (Option.some.inj h)
          exact ⟨_, _, rfl, rfl, order⟩
      | _ => cases h
  | float x =>
      cases v with
      | integer m =>
          have order := (Binary64.less_eq_false_iff (Binary64.isNaN_ofInt m) (hu x rfl)).mp
            (Option.some.inj h)
          exact ⟨_, _, rfl, rfl, order⟩
      | float y =>
          have order := (Binary64.less_eq_false_iff (hv y rfl) (hu x rfl)).mp (Option.some.inj h)
          exact ⟨_, _, rfl, rfl, order⟩
      | _ => cases h
  | _ => cases v <;> cases h

/-- Through the float that two integers round to, either one passes as no greater than the other. -/
theorem withinLimit_through_float {key : String} {n limit : Int}
    (h : Binary64.ofInt n = Binary64.ofInt limit) {p q r : Parsed}
    (hp : p.caveats.lookup key = some (.integer n))
    (hq : q.caveats.lookup key = some (.float (.ofInt n)))
    (hr : r.caveats.lookup key = some (.integer limit)) :
    withinLimit key p q = .ok () ∧ withinLimit key q r = .ok () := by
  rw [withinLimit_eq_ok_iff, withinLimit_eq_ok_iff, hp, hq, hr]
  constructor
  · rintro v ⟨⟩ -
    exact ⟨_, rfl, by simp [exceeds?, Binary64.less]⟩
  · rintro v ⟨⟩ -
    exact ⟨_, rfl, by simp [exceeds?, Binary64.less, h]⟩

end Rule

namespace Context

variable {ctx : Context} {cache : ProofCache} {i : Invocation} {d : Descriptor} {key : String}
  {invoked given above resolved : Capability} {passed : List Capability}
  {m : DirectMatch} {a : Authorization}

/-- What is known of a capability that was resolved after some delegated ones were passed: where its
value comes from, and how that stands to the invoked one. -/
structure Limited (key : String) (invoked : Capability) (passed : List Capability)
    (resolved : Capability) : Prop where
  origin : ∀ v, resolved.caveats.lookup key = some v →
    ∃ c ∈ invoked :: passed, c.caveats.lookup key = some v
  comparable : ∀ v, resolved.caveats.lookup key = some v → v.Comparable
  atMost : ∀ v, resolved.caveats.lookup key = some v → v ≠ .string "*" →
    ∃ u, invoked.caveats.lookup key = some u ∧ (u = v ∨ u.AtMost v)
  exact : (∀ c ∈ passed, ∀ x, c.caveats.lookup key ≠ some (.float x)) →
    ∀ n limit, invoked.caveats.lookup key = some (.integer n) →
      resolved.caveats.lookup key = some (.integer limit) → n ≤ limit

theorem Limited.refl (h : ∀ v, invoked.caveats.lookup key = some v → v.Comparable) :
    Limited key invoked [] invoked where
  origin v found := ⟨invoked, List.mem_cons_self, found⟩
  comparable := h
  atMost v found _ := ⟨v, found, Or.inl rfl⟩
  exact _ n limit found set := by
    rw [found] at set
    cases set
    exact le_refl n

/-- What happens to a caveat at one hop: the delegated value comes before the one above, and is not
exceeded by that. -/
structure Hop (key : String) (above given resolved : Capability) : Prop where
  overridden : resolved.caveats.lookup key =
    (given.caveats.lookup key).or (above.caveats.lookup key)
  comparable : ∀ v, given.caveats.lookup key = some v → v.Comparable
  within : ∀ v, resolved.caveats.lookup key = some v → v ≠ .string "*" →
    ∃ u, above.caveats.lookup key = some u ∧ Rule.exceeds? u v = some false

theorem Hop.source (hop : Hop key above given resolved) {v : Ipld}
    (found : resolved.caveats.lookup key = some v) :
    given.caveats.lookup key = some v ∨ above.caveats.lookup key = some v := by
  rw [hop.overridden] at found
  exact (Option.or_eq_some_iff.mp found).imp_right And.right

theorem Limited.origin_step (h : Limited key invoked passed above)
    (hop : Hop key above given resolved) {v : Ipld}
    (found : resolved.caveats.lookup key = some v) :
    ∃ c ∈ invoked :: (passed ++ [given]), c.caveats.lookup key = some v := by
  rcases hop.source found with here | earlier
  · exact ⟨given, by simp, here⟩
  · obtain ⟨c, mem, set⟩ := h.origin v earlier
    refine ⟨c, ?_, set⟩
    rw [← List.cons_append]
    exact List.mem_append_left _ mem

theorem Limited.comparable_step (h : Limited key invoked passed above)
    (hop : Hop key above given resolved) {v : Ipld}
    (found : resolved.caveats.lookup key = some v) : v.Comparable :=
  (hop.source found).elim (hop.comparable v) (h.comparable v)

/-- Ranks do not decrease from hop to hop. -/
theorem Limited.atMost_step (h : Limited key invoked passed above)
    (hop : Hop key above given resolved) {v : Ipld}
    (found : resolved.caveats.lookup key = some v) (constrained : v ≠ .string "*") :
    ∃ u, invoked.caveats.lookup key = some u ∧ (u = v ∨ u.AtMost v) := by
  obtain ⟨u, set, below⟩ := hop.within v found constrained
  have order := Rule.atMost_of_exceeds? (h.comparable u set) (h.comparable_step hop found) below
  obtain ⟨w, claimed, rfl | earlier⟩ := h.atMost u set order.constrained
  · exact ⟨w, claimed, Or.inr order⟩
  · exact ⟨w, claimed, Or.inr (earlier.trans order)⟩

/-- As long as no float is passed, integers do not decrease either. -/
theorem Limited.exact_step (h : Limited key invoked passed above)
    (hop : Hop key above given resolved)
    (integers : ∀ c ∈ passed, ∀ x, c.caveats.lookup key ≠ some (.float x)) {n limit : Int}
    (claimed : invoked.caveats.lookup key = some (.integer n))
    (found : resolved.caveats.lookup key = some (.integer limit)) : n ≤ limit := by
  obtain ⟨u, set, below⟩ := hop.within (.integer limit) found (by simp)
  cases u with
  | integer k =>
      have order : k ≤ limit := by simpa [Rule.exceeds?] using below
      exact (h.exact integers n k claimed set).trans order
  | float x =>
      -- A float above was set by the invocation, which set an integer, or by what was passed.
      obtain ⟨c, mem, float⟩ := h.origin _ set
      rcases List.mem_cons.mp mem with rfl | mem
      · rw [claimed] at float
        cases float
      · exact (integers c mem x float).elim
  | _ => cases below

theorem Limited.step (h : Limited key invoked passed above)
    (hop : Hop key above given resolved) : Limited key invoked (passed ++ [given]) resolved where
  origin _ found := h.origin_step hop found
  comparable _ found := h.comparable_step hop found
  atMost _ found constrained := h.atMost_step hop found constrained
  exact integers _ _ claimed found :=
    h.exact_step hop (fun c mem => integers c (List.mem_append_left _ mem)) claimed found

/-- A limit that was set binds the invoked capability, up to rounding where a float was passed. -/
theorem Limited.bound (h : Limited key invoked passed resolved) {limit : Int}
    (set : resolved.caveats.lookup key = some (.integer limit)) :
    ∃ u, invoked.caveats.lookup key = some u ∧ ∀ n, u = .integer n →
      n ≤ limit ∨ limit < n ∧ Binary64.ofInt n = Binary64.ofInt limit ∧
        ∃ c ∈ passed, ∃ x, c.caveats.lookup key = some (.float x) := by
  obtain ⟨u, claimed, relation⟩ := h.atMost _ set (by simp)
  refine ⟨u, claimed, ?_⟩
  rintro n rfl
  rcases lt_or_ge limit n with above | within
  · refine Or.inr ⟨above, ?_, ?_⟩
    · rcases relation with same | ⟨p, q, hp, hq, order⟩
      · cases same
        rfl
      · cases hp
        cases hq
        exact Binary64.ofInt_eq_of_rank_eq
          (le_antisymm order (Binary64.rank_ofInt_mono above.le))
    · by_contra none
      have within := h.exact (fun c mem x float => none ⟨c, mem, x, float⟩) n limit claimed set
      omega
  · exact Or.inl within

theorem comparable_of_signed {delegation : Delegation} {directory : Directory}
    (signed : delegation.SignedUnder directory) {c : Capability} (hc : c ∈ delegation.capabilities)
    {v : Ipld} (set : c.caveats.lookup key = some v) : v.Comparable := by
  rintro x rfl
  obtain ⟨_, written⟩ := signed.exists_encode hc set
  exact Binary64.isNaN_of_isFinite (Cbor.isFinite_of_encode written)

section Line

variable (plain : d.readCaveats = Schema.unknown.readFields)
  (checks : ∀ p q, d.rule p q = .ok () → Rule.withinLimit key p q = .ok ())

include plain checks

/-- A source that is accepted makes one hop. -/
theorem hop_of_candidate {s : Source} {n : DirectMatch} (described : m.descriptor = d)
    (verbatim : m.value.caveats = m.capability.caveats) (wellFormed : s.delegation.WellFormed)
    (signed : s.delegation.SignedUnder ctx.directory) (h : m.candidate s = .found n) :
    Hop key m.capability s.capability n.capability ∧ n.value.caveats = n.capability.caveats := by
  have listed : s.capability ∈ s.delegation.capabilities := List.getElem_mem _
  obtain ⟨resolved, value, matched, read, accepted, rfl⟩ := DirectMatch.candidate_eq_found h
  rw [described] at read accepted
  obtain ⟨-, -, caveats⟩ := Coverage.resolve?_eq_some matched
  have kept : value.caveats = resolved.caveats := Descriptor.caveats_of_read plain read
  have within := Rule.withinLimit_eq_ok_iff.mp (checks _ _ accepted)
  rw [verbatim, kept] at within
  refine ⟨⟨?_, fun v => comparable_of_signed signed listed, within⟩, kept⟩
  rw [caveats, Table.lookup_override (wellFormed.caveats_sorted _ listed)]

/-- The whole line: whatever a delegated capability on it sets stands to the invoked one as it is known to
after all the hops above. -/
theorem Line.limited (h : ctx.Line m a) (described : m.descriptor = d)
    (verbatim : m.value.caveats = m.capability.caveats)
    (known : Limited key invoked passed m.capability) {between after : List Capability}
    {c : Capability} (trail : a.trail = m.source.capability :: between ++ c :: after) {v : Ipld}
    (set : c.caveats.lookup key = some v) :
    ∃ resolved, Limited key invoked (passed ++ between ++ [c]) resolved ∧
      resolved.caveats.lookup key = some v := by
  induction h generalizing passed between with
  | @root m issued => simp [Authorization.trail, Match.sources] at trail
  | @step m n s p covered wellFormed signed line ih =>
      obtain ⟨hop, kept⟩ := hop_of_candidate plain checks described verbatim wellFormed signed covered
      have next := known.step hop
      obtain ⟨_, _, -, -, -, rfl⟩ := DirectMatch.candidate_eq_found covered
      obtain ⟨below, headed⟩ := line.trail_eq
      have rest : s.capability :: below = between ++ c :: after := by
        have same : m.source.capability :: (s.capability :: below) =
            m.source.capability :: (between ++ c :: after) := by
          rw [← List.cons_append, ← trail, Authorization.trail, headed]
          rfl
        exact (List.cons.inj same).2
      -- The capability in question is the one that was just passed, or lies further down.
      cases between with
      | nil =>
          obtain ⟨rfl, rfl⟩ := List.cons.inj rest
          refine ⟨_, by simpa using next, ?_⟩
          rw [hop.overridden, set]
          rfl
      | cons e between =>
          obtain ⟨rfl, rfl⟩ := List.cons.inj rest
          have further := ih described kept next headed
          simpa using further

end Line

end Context

namespace Sample

/-- The integers that the size is set to along an authorization. -/
def sizes (a : Authorization) : List (Option Int) :=
  a.trail.map fun c =>
    match c.caveats.lookup "size" with
    | some (.integer n) => some n
    | _ => none

theorem trail_of_sizes {a : Authorization} {n limit : Int}
    (h : sizes a = [some n, none, some limit]) :
    ∃ c e f, a.trail = [c, e, f] ∧ c.caveats.lookup "size" = some (.integer n) ∧
      f.caveats.lookup "size" = some (.integer limit) := by
  have size : ∀ {c : Capability} {k : Int}, (match c.caveats.lookup "size" with
      | some (.integer n) => some n
      | _ => none) = some k → c.caveats.lookup "size" = some (.integer k) := by
    intro c k set
    split at set
    case h_1 n found =>
      cases set
      exact found
    case h_2 => cases set
  obtain ⟨c, _, trail, first, h⟩ := List.map_eq_cons_iff.mp h
  obtain ⟨e, _, rfl, -, h⟩ := List.map_eq_cons_iff.mp h
  obtain ⟨f, _, rfl, last, h⟩ := List.map_eq_cons_iff.mp h
  obtain rfl := List.map_eq_nil_iff.mp h
  exact ⟨c, e, f, trail, size first, size last⟩

/-- A granted chain in which Alice and Carol set integers and Bob does not. -/
theorem exists_sizes {alices bobs carols : Fields} {n limit : Int}
    (ha : alices.Sorted) (hb : bobs.Sorted) (hc : carols.Sorted)
    (h : grants (context limited) (chain alices bobs carols)
      (fun a => decide (sizes a = [some n, none, some limit])) = true) :
    ∃ i a later e c, chain alices bobs carols = .ok i ∧
      (context limited).MeetsOnly Delegation.WellFormed i ∧
      (context limited).access i .empty = some (.ok a, later) ∧
      a.trail = [i.capability, e, c] ∧
      i.capability.caveats.lookup "size" = some (.integer n) ∧
      c.caveats.lookup "size" = some (.integer limit) := by
  obtain ⟨i, a, later, made, granted, sized⟩ := exists_of_grants h
  have meets := meetsOnly_chain limited ha hb hc made
  obtain ⟨c, e, f, trail, first, last⟩ := trail_of_sizes (of_decide_eq_true sized)
  obtain ⟨m, -, -, -, -, invoked, line⟩ := Context.line_of_access rfl meets .empty granted
  obtain ⟨below, headed⟩ := line.trail_eq
  rw [invoked, trail] at headed
  obtain ⟨rfl, -⟩ := List.cons.inj headed
  exact ⟨i, a, later, e, f, made, meets, granted, trail, first, last⟩

end Sample

namespace Context

variable {ctx : Context} {cache : ProofCache} {i : Invocation} {d : Descriptor} {key : String}
  {a : Authorization}

/-- What a delegation along a granted authorization sets stands to what is invoked. -/
theorem limited_of_access {later : ProofCache} (selects : ctx.selector = .descriptor d)
    (plain : d.readCaveats = Schema.unknown.readFields)
    (checks : ∀ p q, d.rule p q = .ok () → Rule.withinLimit key p q = .ok ())
    (meets : ctx.MeetsOnly Delegation.WellFormed i) (reached : cache.Reached ctx.resolver)
    (h : ctx.access i cache = some (.ok a, later)) {between after : List Capability}
    {c : Capability} (trail : a.trail = i.capability :: between ++ c :: after) {v : Ipld}
    (set : c.caveats.lookup key = some v) :
    ∃ resolved, Limited key i.capability (between ++ [c]) resolved ∧
      resolved.caveats.lookup key = some v := by
  obtain ⟨m, described, parsed, claimed, -, invoked, line⟩ :=
    line_of_access selects meets reached h
  obtain ⟨-, read⟩ := Descriptor.parse_eq_ok parsed
  have verbatim : m.value.caveats = m.capability.caveats := by
    rw [claimed]
    exact Descriptor.caveats_of_read plain read
  have signed := (checkInvocation_eq_ok_iff.mp (proves_of_access h).1).1
  have start : Limited key i.capability [] m.capability := by
    rw [claimed]
    refine .refl fun v => comparable_of_signed signed ?_
    rw [i.capabilities_eq]
    exact List.mem_singleton_self _
  rw [← invoked] at trail
  exact line.limited plain checks described verbatim start trail set

/-- An integer limit anywhere along a granted authorization is set by the invocation, too, and an invoked
integer is no greater, unless both round to one float and a delegation between them sets a float. That
never happens to limits of at most 53 bits; to others it does, since the float that both round to lets
either one pass. -/
theorem limit_along_line {later : ProofCache} (selects : ctx.selector = .descriptor d)
    (plain : d.readCaveats = Schema.unknown.readFields)
    (checks : ∀ p q, d.rule p q = .ok () → Rule.withinLimit key p q = .ok ())
    (meets : ctx.MeetsOnly Delegation.WellFormed i) (reached : cache.Reached ctx.resolver)
    (h : ctx.access i cache = some (.ok a, later)) :
    (∀ between c after limit, a.trail = i.capability :: between ++ c :: after →
      c.caveats.lookup key = some (.integer limit) →
      ∃ u, i.capability.caveats.lookup key = some u ∧ ∀ n, u = .integer n →
        (n ≤ limit ∨ limit < n ∧ Binary64.ofInt n = Binary64.ofInt limit ∧
          ∃ e ∈ between, ∃ x, e.caveats.lookup key = some (.float x)) ∧
        (-2 ^ 53 ≤ limit → limit < 2 ^ 53 → n ≤ limit)) ∧
    ∀ n limit, Binary64.ofInt n = Binary64.ofInt limit → ∀ p q r : Parsed,
      p.caveats.lookup key = some (.integer n) →
      q.caveats.lookup key = some (.float (.ofInt n)) →
      r.caveats.lookup key = some (.integer limit) →
      Rule.withinLimit key p q = .ok () ∧ Rule.withinLimit key q r = .ok () := by
  refine ⟨?_, fun n limit rounds p q r => Rule.withinLimit_through_float rounds⟩
  intro between c after limit trail set
  obtain ⟨resolved, known, found⟩ := limited_of_access selects plain checks meets reached h trail set
  obtain ⟨u, sets, bound⟩ := known.bound found
  refine ⟨u, sets, fun n integer => ?_⟩
  rcases bound n integer with within | ⟨above, rounds, e, mem, x, float⟩
  · exact ⟨Or.inl within, fun _ _ => within⟩
  · refine ⟨Or.inr ⟨above, rounds, e, ?_, x, float⟩, ?_⟩
    · rcases List.mem_append.mp mem with earlier | last
      · simpa using earlier
      · rw [List.mem_singleton.mp last, set] at float
        cases float
    · intro low high
      exact Binary64.le_of_rank_ofInt_le low high (by rw [rounds])

/-- Bob's limit is a float, and Carol stays below it and below Alice's. -/
theorem limit_along_line_chain :
    ∃ i a later e c,
      Sample.chain [("size", .integer 9)] [("size", .float (.ofInt 7))] [("size", .integer 5)] =
        .ok i ∧
      (Sample.context Sample.limited).access i .empty = some (.ok a, later) ∧
      a.trail = [i.capability, e, c] ∧ c.caveats.lookup "size" = some (.integer 9) ∧
      ∃ u, i.capability.caveats.lookup "size" = some u ∧ ∀ n, u = .integer n → n ≤ 9 := by
  have grants : Sample.grants (Sample.context Sample.limited)
      (Sample.chain [("size", .integer 9)] [("size", .float (.ofInt 7))] [("size", .integer 5)])
      (fun a => decide (Sample.sizes a = [some 5, none, some 9])) = true := by
    decide +kernel
  obtain ⟨i, a, later, e, c, made, meets, granted, trail, -, set⟩ :=
    Sample.exists_sizes (by simp [Table.Sorted]) (by simp [Table.Sorted])
      (by simp [Table.Sorted]) grants
  obtain ⟨u, sets, bound⟩ :=
    (limit_along_line rfl rfl (fun _ _ h => h) meets .empty granted).1 [e] c [] 9 trail set
  exact ⟨i, a, later, e, c, made, granted, trail, set, u, sets,
    fun n integer => (bound n integer).2 (by decide) (by decide)⟩

/-- Carol exceeds Alice's limit by one, since the float that Bob sets is as close to the one as to the
other. -/
theorem limit_exceeded_chain :
    ∃ i a later e c,
      Sample.chain [("size", .integer (2 ^ 53))] [("size", .float (.ofInt (2 ^ 53)))]
        [("size", .integer (2 ^ 53 + 1))] = .ok i ∧
      (Sample.context Sample.limited).access i .empty = some (.ok a, later) ∧
      a.trail = [i.capability, e, c] ∧
      c.caveats.lookup "size" = some (.integer (2 ^ 53)) ∧
      i.capability.caveats.lookup "size" = some (.integer (2 ^ 53 + 1)) := by
  have grants : Sample.grants (Sample.context Sample.limited)
      (Sample.chain [("size", .integer (2 ^ 53))] [("size", .float (.ofInt (2 ^ 53)))]
        [("size", .integer (2 ^ 53 + 1))])
      (fun a => decide (Sample.sizes a = [some (2 ^ 53 + 1), none, some (2 ^ 53)])) = true := by
    decide +kernel
  obtain ⟨i, a, later, e, c, made, -, granted, trail, set, limit⟩ :=
    Sample.exists_sizes (by simp [Table.Sorted]) (by simp [Table.Sorted])
      (by simp [Table.Sorted]) grants
  exact ⟨i, a, later, e, c, made, granted, trail, limit, set⟩

end Context

end Mandate

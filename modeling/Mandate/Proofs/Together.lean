import Mandate.Proofs.Parts
import Mandate.Proofs.Valid
import Mathlib.Data.List.Nodup

/-!
# Members proven together

The members of a pair are proven hop by hop, all of them at once. At every hop each member that still needs a
proof looks among the capabilities that are addressed to its issuer, whichever member's delegation cites
them; members that need none drop out. So members that never rest on different delegations of one issuer are
proven as each would be alone, and others may also prove each other's claims.
-/

namespace Mandate

open Relation

/-! ## Teams of matches -/

namespace Match

/-- Some matches of one capability each, as members of a group. -/
def team (ms : List DirectMatch) : Option Match := ofMembers? (ms.map direct)

variable {ms : List DirectMatch} {p n : Match} {given : List Source}

theorem team_eq_none_iff : team ms = none ↔ ms = [] := by
  cases ms <;> simp [team, ofMembers?]

theorem sources_team (h : team ms = some p) : p.sources = ms.map (·.source) := by
  cases ms with
  | nil => cases h
  | cons m ms =>
      cases h
      rw [sources_group, ← List.map_cons, List.flatMap_map]
      exact List.map_eq_flatMap.symm

/-- What is left of a team is the team of those whose issuers may not issue them. -/
theorem prune_team (mayIssue : Issuance) (h : team ms = some p) :
    p.prune mayIssue = team (ms.filter fun m => !m.isSelfIssued mayIssue) := by
  have left : ∀ ms : List DirectMatch, ((ms.map direct).flatMap fun k => (k.prune mayIssue).toList) =
      (ms.filter fun m => !m.isSelfIssued mayIssue).map direct := by
    intro ms
    induction ms with
    | nil => rfl
    | cons m ms ih =>
        rw [List.map_cons, List.flatMap_cons, ih, List.filter_cons, prune]
        cases m.isSelfIssued mayIssue <;> rfl
  cases ms with
  | nil => cases h
  | cons m ms =>
      cases h
      rw [prune_group, ← List.map_cons, left, team]

/-- Of lists that were mapped, choices are mapped choices. -/
theorem forall₂_mem_map_iff {α β γ : Type} {f : α → β} {lists : γ → List α} {items : List β}
    {ks : List γ} :
    List.Forall₂ (fun item k => item ∈ (lists k).map f) items ks ↔
      ∃ chosen, items = chosen.map f ∧ List.Forall₂ (fun k a => a ∈ lists k) ks chosen := by
  constructor
  · intro h
    induction h with
    | nil => exact ⟨[], rfl, .nil⟩
    | cons mem _ ih =>
        obtain ⟨a, ha, rfl⟩ := List.mem_map.mp mem
        obtain ⟨chosen, rfl, later⟩ := ih
        exact ⟨a :: chosen, rfl, .cons ha later⟩
  · rintro ⟨chosen, rfl, h⟩
    rw [List.forall₂_map_left_iff]
    exact h.flip.imp fun _ _ mem => List.mem_map_of_mem mem

/-- A team is proven by teams that have one match for each member. -/
theorem mem_found_team (h : team ms = some p) :
    n ∈ (p.select given).found ↔ ∃ ns, team ns = some n ∧
      List.Forall₂ (fun m k => k ∈ (m.select ((direct m).addressed given)).found) ms ns := by
  have members : (p.select given).found = (Selection.combine ofMembers?
      ((ms.map direct).map fun k => k.select (k.addressed given))).found := by
    cases ms with
    | nil => cases h
    | cons m ms =>
        cases h
        rw [select_group, ← List.map_cons]
  rw [members, Selection.mem_found_combine]
  simp only [List.map_map, List.forall₂_map_right_iff, Function.comp_apply, select, Selection.map,
    forall₂_mem_map_iff]
  constructor
  · rintro ⟨_, ⟨ns, rfl, chosen⟩, whole⟩
    exact ⟨ns, whole, chosen⟩
  · rintro ⟨ns, whole, chosen⟩
    exact ⟨_, ⟨ns, rfl, chosen⟩, whole⟩

end Match

/-! ## Addresses that are not ambiguous -/

namespace Context

open Citation

variable {ctx : Context} {cache : ProofCache} {claimed fewer : List Source} {s t : Source}
  {d e : Delegation}

/-- What citations lead to from the delegations of some sources on. -/
def Reaches (ctx : Context) (cache : ProofCache) (claimed : List Source) (d : Delegation) : Prop :=
  ∃ s ∈ claimed, ReflTransGen (ctx.Cites cache) s.delegation d

theorem Reaches.of_mem (mem : s ∈ claimed) : ctx.Reaches cache claimed s.delegation := ⟨s, mem, .refl⟩

theorem Reaches.trans (h : ∀ s ∈ fewer, ctx.Reaches cache claimed s.delegation)
    (later : ctx.Reaches cache fewer d) : ctx.Reaches cache claimed d := by
  obtain ⟨s, mem, path⟩ := later
  obtain ⟨t, ht, first⟩ := h s mem
  exact ⟨t, ht, first.trans path⟩

/-- One address stands for one delegation, wherever it is cited. -/
structure Unambiguous (ctx : Context) (cache : ProofCache) (claimed : List Source) : Prop where
  eq_of_cid : ∀ {d e}, ctx.Reaches cache claimed d → ctx.Reaches cache claimed e → d.cid = e.cid → d = e
  cited_eq : ∀ {d e p q}, ctx.Reaches cache claimed d → ctx.Reaches cache claimed e → p ∈ d.proofs →
    q ∈ e.proofs → p.cid = q.cid → ctx.cited cache p = ctx.cited cache q

theorem Unambiguous.mono (h : ctx.Unambiguous cache claimed)
    (sub : ∀ s ∈ fewer, ctx.Reaches cache claimed s.delegation) : ctx.Unambiguous cache fewer where
  eq_of_cid hd he := h.eq_of_cid (.trans sub hd) (.trans sub he)
  cited_eq hd he := h.cited_eq (.trans sub hd) (.trans sub he)

/-- What passes is what some delegation cites and accepts, if addresses are not ambiguous. -/
theorem mem_valid_iff_cites (h : ctx.Unambiguous cache claimed) :
    s ∈ ctx.valid cache claimed ↔
      ∃ t ∈ claimed, ctx.Cites cache t.delegation s.delegation ∧
        ctx.Accepts t.delegation s.delegation := by
  rw [mem_valid_iff, mem_passing_iff]
  constructor
  · rintro ⟨c, counts, available, accepted⟩
    obtain ⟨⟨t, ht, citing⟩, proof⟩ := mem_ofSources counts
    rw [← citing] at proof accepted
    exact ⟨t, ht, ⟨c.proof, proof, available⟩, accepted⟩
  · rintro ⟨t, ht, ⟨p, proof, available⟩, accepted⟩
    have citing : t.delegation ∈ (claimed.map (·.delegation)).eraseDups := by
      obtain ⟨d, kept, like⟩ :=
        exists_mem_eraseDups (claimed.map (·.delegation)) (List.mem_map_of_mem ht)
      obtain ⟨u, hu, rfl⟩ := List.mem_map.mp (mem_of_mem_eraseDups _ kept)
      rcases like with same | same
      · rwa [← same]
      · rwa [h.eq_of_cid (.of_mem ht) (.of_mem hu) (of_decide_eq_true same)]
    have cites : (⟨t.delegation, p⟩ : Citation) ∈ (claimed.map (·.delegation)).eraseDups.flatMap
        fun d => d.proofs.map (⟨d, ·⟩) :=
      List.mem_flatMap.mpr ⟨_, citing, List.mem_map_of_mem proof⟩
    -- A citation that was dropped has the issuer and the address of one that counts.
    obtain ⟨c, counts, like⟩ := exists_mem_eraseDups _ cites
    rcases like with rfl | same
    · exact ⟨_, counts, available, accepted⟩
    · obtain ⟨issuer, cid⟩ := Bool.and_eq_true_iff.mp same
      obtain ⟨⟨u, hu, citing⟩, listed⟩ := mem_ofSources counts
      rw [← citing] at listed
      have found := h.cited_eq (.of_mem ht) (.of_mem hu) proof listed (of_decide_eq_true cid)
      refine ⟨c, counts, found ▸ available, ?_, accepted.contains_now, accepted.signed⟩
      exact accepted.audience_eq.trans (of_decide_eq_true issuer)

/-! ## Members side by side -/

variable {ms ns : List DirectMatch} {m n : DirectMatch} {p : Match}

/-- The members whose issuers may not issue them. -/
def pending (ctx : Context) (ms : List DirectMatch) : List DirectMatch :=
  ms.filter fun m => !m.isSelfIssued ctx.mayIssue

/-- The capabilities that a member looks among: of the proofs that pass for it or for a member of the same
issuer. -/
def shared (ctx : Context) (cache : ProofCache) (ms : List DirectMatch) (m : DirectMatch) : List Source :=
  (ms.filter fun k => k.source.delegation.issuer = m.source.delegation.issuer).flatMap fun k =>
    ctx.valid cache [k.source]

/-- One hop of members that are proven together: those that still need a proof each find one. -/
def Joins (ctx : Context) (cache : ProofCache) (ms ns : List DirectMatch) : Prop :=
  List.Forall₂ (fun m n => n ∈ (m.select (ctx.shared cache (ctx.pending ms) m)).found) (ctx.pending ms) ns

/-- Members that can be proven together: hops lead to where none is left. -/
def Together (ctx : Context) (cache : ProofCache) (ms : List DirectMatch) : Prop :=
  ReflTransGen (ctx.Joins cache) ms []

theorem pending_append (ms ns : List DirectMatch) :
    ctx.pending (ms ++ ns) = ctx.pending ms ++ ctx.pending ns :=
  List.filter_append ..

theorem mem_pending : m ∈ ctx.pending ms ↔ m ∈ ms ∧ m.isSelfIssued ctx.mayIssue = false := by
  simp [pending]

theorem mem_shared {s : Source} : s ∈ ctx.shared cache ms m ↔
    ∃ k ∈ ms, k.source.delegation.issuer = m.source.delegation.issuer ∧ s ∈ ctx.valid cache [k.source] := by
  simp [shared, and_assoc]

/-- A match finds the same among sources that are the same but for order and repetition. -/
theorem mem_found_congr {given given' : List Source} (h : ∀ s, s ∈ given ↔ s ∈ given') :
    n ∈ (m.select given).found ↔ n ∈ (m.select given').found := by
  simp only [DirectMatch.mem_found_select, h]

/-- What is addressed to a member, of all that passes for the team, is what it shares. -/
theorem mem_addressed_valid_iff (h : ctx.Unambiguous cache (ms.map (·.source))) {s : Source} :
    s ∈ (Match.direct m).addressed (ctx.valid cache (ms.map (·.source))) ↔ s ∈ ctx.shared cache ms m := by
  rw [Match.mem_addressed, mem_shared, mem_valid_iff_cites h]
  have alone : ∀ k ∈ ms, ctx.Unambiguous cache [k.source] := fun k hk => h.mono fun s hs => by
    obtain rfl := List.mem_singleton.mp hs
    exact .of_mem (List.mem_map_of_mem hk)
  constructor
  · rintro ⟨⟨t, ht, cites, accepted⟩, audience⟩
    obtain ⟨k, hk, rfl⟩ := List.mem_map.mp ht
    refine ⟨k, hk, accepted.audience_eq.symm.trans audience, ?_⟩
    exact (mem_valid_iff_cites (alone k hk)).mpr ⟨_, List.mem_singleton_self _, cites, accepted⟩
  · rintro ⟨k, hk, issuer, mem⟩
    obtain ⟨t, ht, cites, accepted⟩ := (mem_valid_iff_cites (alone k hk)).mp mem
    obtain rfl := List.mem_singleton.mp ht
    exact ⟨⟨_, List.mem_map_of_mem hk, cites, accepted⟩, accepted.audience_eq.trans issuer⟩

/-- What a hop finds is cited by a delegation of the members. -/
theorem Joins.reaches (h : ctx.Joins cache ms ns) :
    ∀ s ∈ ns.map (·.source), ctx.Reaches cache (ms.map (·.source)) s.delegation := by
  intro s mem
  obtain ⟨n, hn, rfl⟩ := List.mem_map.mp mem
  obtain ⟨m, hm, found⟩ := exists_of_forall₂ h.flip hn
  obtain ⟨t, shared, covered⟩ := DirectMatch.mem_found_select.mp found
  obtain ⟨_, _, -, -, -, rfl⟩ := DirectMatch.candidate_eq_found covered
  obtain ⟨k, hk, -, passes⟩ := mem_shared.mp shared
  obtain ⟨c, counts, available, -⟩ := mem_passing_iff.mp (mem_valid_iff.mp passes)
  obtain ⟨⟨u, hu, citing⟩, proof⟩ := mem_ofSources counts
  obtain rfl := List.mem_singleton.mp hu
  rw [← citing] at proof
  exact ⟨k.source, List.mem_map_of_mem (mem_pending.mp hk).1, .single ⟨c.proof, proof, available⟩⟩

/-- What holds of all that is met from a team on. -/
structure Clear (ctx : Context) (cache : ProofCache) (claimed : List Source) : Prop where
  resolvable : ∀ s ∈ claimed, ctx.Resolvable cache s.delegation
  unambiguous : ctx.Unambiguous cache claimed

theorem Clear.mono (h : ctx.Clear cache claimed)
    (sub : ∀ s ∈ fewer, ctx.Reaches cache claimed s.delegation) : ctx.Clear cache fewer where
  resolvable s mem := by
    obtain ⟨t, ht, path⟩ := sub s mem
    exact fun e later => h.resolvable t ht e (path.trans later)
  unambiguous := h.unambiguous.mono sub

theorem Clear.joins (h : ctx.Clear cache (ms.map (·.source))) (step : ctx.Joins cache ms ns) :
    ctx.Clear cache (ns.map (·.source)) :=
  h.mono step.reaches

/-- What proves the members that are left of a team are the teams that a hop leads to. -/
theorem mem_found_pending_iff (clear : ctx.Clear cache (ms.map (·.source))) {rest n : Match}
    (left : Match.team (ctx.pending ms) = some rest) :
    n ∈ (rest.select (ctx.valid cache rest.sources)).found ↔
      ∃ ns, Match.team ns = some n ∧ ctx.Joins cache ms ns := by
  have fewer : ctx.Unambiguous cache ((ctx.pending ms).map (·.source)) := by
    refine clear.unambiguous.mono fun s mem => ?_
    obtain ⟨k, hk, rfl⟩ := List.mem_map.mp mem
    exact .of_mem (List.mem_map_of_mem (mem_pending.mp hk).1)
  simp only [Match.mem_found_team left, Match.sources_team left,
    mem_found_congr fun _ => mem_addressed_valid_iff fewer]
  rfl

theorem joins_nil (h : ctx.pending ms = []) : ctx.Joins cache ms [] := by
  rw [Joins, h]
  exact .nil

/-- A team is provable exactly if its members can be proven together. -/
theorem provable_iff_together (clear : ctx.Clear cache (ms.map (·.source)))
    (h : Match.team ms = some p) : ctx.Provable cache p ↔ ctx.Together cache ms := by
  have left : p.prune ctx.mayIssue = Match.team (ctx.pending ms) := Match.prune_team _ h
  constructor
  · intro proven
    induction proven generalizing ms with
    | issued pruned =>
        rw [left, Match.team_eq_none_iff] at pruned
        exact .single (joins_nil pruned)
    | delegated pruned gathered selected proven ih =>
        rw [left] at pruned
        rw [(eq_of_gather gathered).1, mem_found_pending_iff clear pruned] at selected
        obtain ⟨ns, whole, step⟩ := selected
        exact .head step (ih (clear.joins step) whole (Match.prune_team _ whole))
  · intro together
    induction together using ReflTransGen.head_induction_on generalizing p with
    | refl => cases h
    | @head ms ns step later ih =>
        have resolvable : ∀ s ∈ p.sources, ctx.Resolvable cache s.delegation := by
          rw [Match.sources_team h]
          exact clear.resolvable
        rw [provable_iff resolvable, left]
        intro rest some
        cases whole : Match.team ns with
        | none =>
            -- No members are left below only if none were left to prove.
            obtain rfl := Match.team_eq_none_iff.mp whole
            have none : ctx.pending ms = [] := List.forall₂_nil_right_iff.mp step
            rw [none] at some
            cases some
        | some n =>
            refine ⟨n, (mem_found_pending_iff clear some).mpr ⟨ns, whole, step⟩, ?_⟩
            exact ih (clear.joins step) whole (Match.prune_team _ whole)

/-! ## Members on their own -/

theorem pending_singleton (foreign : m.isSelfIssued ctx.mayIssue = false) : ctx.pending [m] = [m] := by
  simp [pending, foreign]

/-- A member on its own looks among what passes for it. -/
theorem joins_singleton_iff (foreign : m.isSelfIssued ctx.mayIssue = false) :
    ctx.Joins cache [m] ns ↔ ∃ n, ctx.Follows cache m n ∧ ns = [n] := by
  have own : ctx.shared cache [m] m = ctx.valid cache [m.source] := by
    simp [shared]
  rw [Joins, pending_singleton foreign, List.forall₂_cons_left_iff, own]
  constructor
  · rintro ⟨n, _, found, rest, rfl⟩
    rw [List.forall₂_nil_left_iff.mp rest]
    exact ⟨n, found, rfl⟩
  · rintro ⟨n, found, rfl⟩
    exact ⟨n, [], found, .nil, rfl⟩

theorem together_of_issued (h : m.isSelfIssued ctx.mayIssue = true) : ctx.Together cache [m] := by
  apply ReflTransGen.single
  apply joins_nil
  simp [pending, h]

theorem Follows.together (step : ctx.Follows cache m n) (h : ctx.Together cache [n]) :
    ctx.Together cache [m] := by
  cases issued : m.isSelfIssued ctx.mayIssue with
  | true => exact together_of_issued issued
  | false => exact .head ((joins_singleton_iff issued).mpr ⟨n, step, rfl⟩) h

/-- A match is provable exactly if it can be proven as the only member of a team. -/
theorem provable_direct_iff_together (resolvable : ctx.Resolvable cache m.source.delegation) :
    ctx.Provable cache (.direct m) ↔ ctx.Together cache [m] := by
  rw [provable_direct_iff_exists resolvable]
  constructor
  · rintro ⟨n, line, issued⟩
    induction line using ReflTransGen.head_induction_on with
    | refl => exact together_of_issued issued
    | head step _ ih => exact step.together (ih (step.resolvable resolvable))
  · intro together
    generalize alone : [m] = ms at together
    induction together using ReflTransGen.head_induction_on generalizing m with
    | refl => cases alone
    | head step later ih =>
        subst alone
        cases issued : m.isSelfIssued ctx.mayIssue with
        | true => exact ⟨m, .refl, issued⟩
        | false =>
            obtain ⟨n, next, rfl⟩ := (joins_singleton_iff issued).mp step
            obtain ⟨last, line, ends⟩ := ih (next.resolvable resolvable) rfl
            exact ⟨last, .head next line, ends⟩

/-! ## Members that keep out of each other's way -/

theorem shared_subset {few many : List DirectMatch} (sub : few ⊆ many) :
    ctx.shared cache few m ⊆ ctx.shared cache many m := by
  intro s mem
  obtain ⟨k, hk, issuer, passes⟩ := mem_shared.mp mem
  exact mem_shared.mpr ⟨k, sub hk, issuer, passes⟩

/-- Hops of two teams are a hop of both. -/
theorem Joins.append {ms' ns' : List DirectMatch} (hm : ctx.Joins cache ms ms')
    (hn : ctx.Joins cache ns ns') : ctx.Joins cache (ms ++ ns) (ms' ++ ns') := by
  rw [Joins, pending_append]
  have more : ∀ {m n : DirectMatch} {few : List DirectMatch}, few ⊆ ctx.pending ms ++ ctx.pending ns →
      n ∈ (m.select (ctx.shared cache few m)).found →
        n ∈ (m.select (ctx.shared cache (ctx.pending ms ++ ctx.pending ns) m)).found := by
    intro m n few sub found
    obtain ⟨s, mem, covered⟩ := DirectMatch.mem_found_select.mp found
    exact DirectMatch.mem_found_select.mpr ⟨s, shared_subset sub mem, covered⟩
  apply List.rel_append
  · exact hm.imp fun _ _ => more (List.subset_append_left _ _)
  · exact hn.imp fun _ _ => more (List.subset_append_right _ _)

/-- Teams that can be proven can be proven together, however many hops each of them takes. -/
theorem Together.append (hm : ctx.Together cache ms) (hn : ctx.Together cache ns) :
    ctx.Together cache (ms ++ ns) := by
  induction hm using ReflTransGen.head_induction_on generalizing ns with
  | refl => exact hn
  | head step _ ih =>
      rcases hn.cases_head with rfl | ⟨ns', next, later⟩
      · exact .head (step.append (joins_nil rfl)) (ih .refl)
      · exact .head (step.append next) (ih later)

/-- Wherever hops lead, members of one issuer rest on one delegation. -/
def Apart (ctx : Context) (cache : ProofCache) (ms : List DirectMatch) : Prop :=
  ∀ ns, ReflTransGen (ctx.Joins cache) ms ns → ∀ m ∈ ctx.pending ns, ∀ n ∈ ctx.pending ns,
    m.source.delegation.issuer = n.source.delegation.issuer → m.source.delegation = n.source.delegation

theorem valid_congr (h : s.delegation = t.delegation) : ctx.valid cache [s] = ctx.valid cache [t] := by
  simp only [valid, passing, ofSources, List.map_cons, List.map_nil, h]

/-- Members that stay apart are proven together only if each is proven on its own. -/
theorem Together.each (h : ctx.Together cache ms) (apart : ctx.Apart cache ms) (mem : m ∈ ms) :
    ctx.Together cache [m] := by
  induction h using ReflTransGen.head_induction_on generalizing m with
  | refl => cases mem
  | @head ms ns step _ ih =>
      cases issued : m.isSelfIssued ctx.mayIssue with
      | true => exact together_of_issued issued
      | false =>
          have left : m ∈ ctx.pending ms := mem_pending.mpr ⟨mem, issued⟩
          obtain ⟨n, hn, found⟩ := exists_of_forall₂ step left
          have next : ctx.Follows cache m n := by
            refine (mem_found_congr fun s => ?_).mp found
            rw [mem_shared]
            constructor
            · rintro ⟨k, hk, issuer, passes⟩
              rwa [← valid_congr (apart ms .refl k hk m left issuer)]
            · exact fun passes => ⟨m, left, rfl, passes⟩
          exact next.together (ih (fun ks path => apart ks (.head step path)) hn)

/-- Members stay apart if every issuer that may not issue everything issued one of the delegations that are
met. -/
theorem apart_of_issuers (h : ∀ d e, ctx.Reaches cache (ms.map (·.source)) d →
      ctx.Reaches cache (ms.map (·.source)) e → d.issuer = e.issuer →
        (∀ c, ctx.mayIssue c d.issuer = true) ∨ d = e) : ctx.Apart cache ms := by
  intro ns path m hm n hn issuer
  have met : ∀ k ∈ ns, ctx.Reaches cache (ms.map (·.source)) k.source.delegation := by
    clear hm hn
    induction path with
    | refl => exact fun k hk => .of_mem (List.mem_map_of_mem hk)
    | tail _ step ih =>
        intro k hk
        refine .trans (fun s mem => ?_) (step.reaches _ (List.mem_map_of_mem hk))
        obtain ⟨j, hj, rfl⟩ := List.mem_map.mp mem
        exact ih j hj
  obtain ⟨hm, foreign⟩ := mem_pending.mp hm
  rcases h _ _ (met m hm) (met n (mem_pending.mp hn).1) issuer with all | same
  · rw [DirectMatch.isSelfIssued, all] at foreign
    cases foreign
  · exact same

/-! ## Proofs that are attached -/

section Attached

variable (alone : ctx.resolver = none) (empty : cache.entries = [])

include alone empty

/-- Where nothing can be looked up, citations lead only to what is attached. -/
theorem Reaches.mem_nested (h : ctx.Reaches cache claimed d) :
    d ∈ claimed.flatMap (·.delegation.nested) := by
  obtain ⟨s, mem, path⟩ := h
  refine List.mem_flatMap.mpr ⟨s, mem, ?_⟩
  induction path with
  | refl => exact s.delegation.self_mem_nested
  | tail _ cites ih =>
      obtain ⟨c, attached⟩ := cites.attached alone empty
      exact Delegation.mem_nested_of_attached attached _ ih

/-- Delegations that are all attached, each at one place, have addresses of their own. -/
theorem unambiguous_of_attached
    (distinct : ((claimed.flatMap (·.delegation.nested)).map (·.cid)).Nodup)
    (inline : ∀ d ∈ claimed.flatMap (·.delegation.nested), ∀ q ∈ d.proofs, link? q = none) :
    ctx.Unambiguous cache claimed where
  eq_of_cid hd he same :=
    List.inj_on_of_nodup_map distinct (hd.mem_nested alone empty) (he.mem_nested alone empty) same
  cited_eq := by
    intro d e p q hd he hp hq same
    have one : ∀ {d q}, ctx.Reaches cache claimed d → .inline q ∈ d.proofs →
        q ∈ claimed.flatMap (·.delegation.nested) := by
      rintro d q ⟨s, mem, path⟩ listed
      exact Reaches.mem_nested alone empty ⟨s, mem, path.tail ⟨_, listed, rfl⟩⟩
    have left := inline d (hd.mem_nested alone empty) p hp
    have right := inline e (he.mem_nested alone empty) q hq
    cases p with
    | link c => cases left
    | inline p =>
        cases q with
        | link c => cases right
        | inline q => rw [List.inj_on_of_nodup_map distinct (one hd hp) (one he hq) same]

/-- Members stay apart if all is attached and every issuer that may not issue everything issued what has one
address. -/
theorem apart_of_attached (unambiguous : ctx.Unambiguous cache claimed)
    (members : ∀ s ∈ ms.map (·.source), s ∈ claimed)
    (issuers : ∀ d ∈ claimed.flatMap (·.delegation.nested), ∀ e ∈ claimed.flatMap (·.delegation.nested),
      d.issuer = e.issuer → (∀ c, ctx.mayIssue c d.issuer = true) ∨ d.cid = e.cid) :
    ctx.Apart cache ms := by
  have wider : ∀ {d}, ctx.Reaches cache (ms.map (·.source)) d → ctx.Reaches cache claimed d :=
    Reaches.trans fun s mem => .of_mem (members s mem)
  refine apart_of_issuers fun d e hd he issuer => ?_
  have hd := wider hd
  have he := wider he
  rcases issuers d (hd.mem_nested alone empty) e (he.mem_nested alone empty) issuer with all | same
  · exact Or.inl all
  · exact Or.inr (unambiguous.eq_of_cid hd he same)

end Attached

/-! ## Pairs -/

/-- Proving a match succeeds, within some number of steps. -/
def Succeeds (ctx : Context) (cache : ProofCache) (m : Match) : Prop :=
  ∃ steps a, (ctx.prove (ctx.authorize steps) m).outcome cache = some (.accepted a)

theorem decides_of_resolvable {m : Match} {steps : Nat} {trial : Trial}
    (resolvable : ∀ s ∈ m.sources, ctx.Resolvable cache s.delegation)
    (h : (ctx.prove (ctx.authorize steps) m).outcome cache = some trial) : ctx.Decides cache m trial := by
  refine decides_of_prove (ctx.steady_authorize steps) (fun rest result pruned authorized => ?_) h
  exact settles_of_authorize (Resolvable.left resolvable pruned) authorized

theorem Succeeds.provable {m : Match} (h : ctx.Succeeds cache m)
    (resolvable : ∀ s ∈ m.sources, ctx.Resolvable cache s.delegation) : ctx.Provable cache m := by
  obtain ⟨_, a, accepted⟩ := h
  exact (decides_of_resolvable resolvable accepted).provable

/-- Where citations come to an end, proving succeeds for what is provable. -/
theorem succeeds_iff_provable {m : Match}
    (resolvable : ∀ s ∈ m.sources, ctx.Resolvable cache s.delegation)
    (ends : ∀ s ∈ m.sources, ∃ steps, ctx.Within cache steps s.delegation) :
    ctx.Succeeds cache m ↔ ctx.Provable cache m := by
  refine ⟨fun succeeds => succeeds.provable resolvable, fun provable => ?_⟩
  obtain ⟨steps, within⟩ := exists_within ends
  have enough : ∃ trial, (ctx.prove (ctx.authorize steps) m).outcome cache = some trial :=
    exists_outcome_prove fun rest pruned => exists_outcome_authorize fun s mem =>
      within s (Match.mem_sources_of_prune m pruned mem)
  obtain ⟨trial, outcome⟩ := enough
  have decided := decides_of_resolvable resolvable outcome
  cases trial with
  | accepted a => exact ⟨steps, a, outcome⟩
  | rejected causes => exact (decided provable).elim
  | aborted f => exact decided.elim

/-- Where citations come to an end, proving a team succeeds exactly if its members can be proven together. -/
theorem succeeds_team_iff (clear : ctx.Clear cache (ms.map (·.source)))
    (ends : ∀ s ∈ ms.map (·.source), ∃ steps, ctx.Within cache steps s.delegation)
    (h : Match.team ms = some p) : ctx.Succeeds cache p ↔ ctx.Together cache ms := by
  have sources := Match.sources_team h
  rw [succeeds_iff_provable (sources ▸ clear.resolvable) (sources ▸ ends)]
  exact provable_iff_together clear h

theorem succeeds_direct_iff (resolvable : ctx.Resolvable cache m.source.delegation)
    (ends : ∃ steps, ctx.Within cache steps m.source.delegation) :
    ctx.Succeeds cache (.direct m) ↔ ctx.Together cache [m] := by
  have only : ∀ s ∈ (Match.direct m).sources, s = m.source := fun s hs => List.mem_singleton.mp hs
  rw [succeeds_iff_provable (fun s hs => only s hs ▸ resolvable) (fun s hs => only s hs ▸ ends)]
  exact provable_direct_iff_together resolvable

/-- Proving a pair of what two descriptors match succeeds exactly if its members can be proven together: hop
by hop, where each looks among what passes for it or for another that still needs a proof and has the same
issuer. So it succeeds if proving either member alone does, and only then if members of one issuer never rest
on different delegations. Issuers are known here, citations come to an end, and addresses are not
ambiguous. -/
theorem pair_proven_together {l r : Descriptor} {given : List Source} {p : Match}
    (selected : p ∈ (((Selector.descriptor l).and (.descriptor r)).select given).found)
    (resolvable : ∀ s ∈ p.sources, ctx.Resolvable cache s.delegation)
    (unambiguous : ctx.Unambiguous cache p.sources)
    (ends : ∀ s ∈ p.sources, ∃ steps, ctx.Within cache steps s.delegation) :
    ∃ m ∈ (l.select given).found, ∃ n ∈ (r.select given).found, p = .group (.direct m) [.direct n] ∧
      (ctx.Succeeds cache p ↔ ctx.Together cache [m, n]) ∧
      (ctx.Succeeds cache (.direct m) ↔ ctx.Together cache [m]) ∧
      (ctx.Succeeds cache (.direct n) ↔ ctx.Together cache [n]) ∧
      (ctx.Succeeds cache (.direct m) → ctx.Succeeds cache (.direct n) → ctx.Succeeds cache p) ∧
      (ctx.Apart cache [m, n] → (ctx.Succeeds cache p ↔
        ctx.Succeeds cache (.direct m) ∧ ctx.Succeeds cache (.direct n))) := by
  obtain ⟨_, first, rest⟩ := List.mem_flatMap.mp selected
  obtain ⟨_, second, rfl⟩ := List.mem_map.mp rest
  obtain ⟨m, hm, rfl⟩ := List.mem_map.mp first
  obtain ⟨n, hn, rfl⟩ := List.mem_map.mp second
  have team : Match.team [m, n] = some (.group (.direct m) [.direct n]) := rfl
  have sources := Match.sources_team team
  rw [sources] at resolvable unambiguous ends
  have both := succeeds_team_iff ⟨resolvable, unambiguous⟩ ends team
  have alone : ∀ k ∈ [m, n], (ctx.Succeeds cache (.direct k) ↔ ctx.Together cache [k]) := by
    intro k hk
    have listed : k.source ∈ [m, n].map (·.source) := List.mem_map_of_mem hk
    exact succeeds_direct_iff (resolvable _ listed) (ends _ listed)
  have left := alone m List.mem_cons_self
  have right := alone n (List.mem_cons_of_mem _ List.mem_cons_self)
  have join : ctx.Together cache [m] → ctx.Together cache [n] → ctx.Together cache [m, n] := Together.append
  refine ⟨m, hm, n, hn, rfl, both, left, right, ?_, fun apart => ?_⟩
  · rw [both, left, right]
    exact join
  · rw [both, left, right]
    constructor
    · intro together
      exact ⟨together.each apart List.mem_cons_self,
        together.each apart (List.mem_cons_of_mem _ List.mem_cons_self)⟩
    · rintro ⟨hm, hn⟩
      exact join hm hn

end Context

/-! ## Two members with delegations of their own and two with one for both -/

namespace Sample

/-- Bob lets the service add and Carol lets it upload, each with what Alice let them do. -/
def separate : Except Delegation.Error (List Source) := do
  let bobs ← grant alice bob "store/*" [] []
  let carols ← grant alice carol "upload/*" [] []
  let add ← grant bob service "store/add" [] [bobs]
  let upload ← grant carol service "upload/add" [] [carols]
  .ok (Source.all add ++ Source.all upload)

/-- Bob lets Carol add, with what Alice let him do, and lets her upload, with nothing. -/
def pooled : Except Delegation.Error (List Source) := do
  let bobs ← grant alice bob "*" [] []
  let add ← grant bob carol "store/add" [] [bobs]
  let upload ← grant bob carol "upload/add" [] []
  .ok (Source.all add ++ Source.all upload)

/-- Only Alice may issue what she likes. -/
def ruled : Context :=
  { context (adding.and uploading) with mayIssue := fun _ d => decide (d = alice) }

/-- How proving a match turns out: accepted or not. -/
def proves (ctx : Context) (steps : Nat) (m : Match) : Option Bool :=
  match ctx.prove (ctx.authorize steps) m .empty with
  | some (.accepted _, _) => some true
  | some (.rejected _, _) => some false
  | _ => none

theorem succeeds_of_proves {ctx : Context} {steps : Nat} {m : Match}
    (h : proves ctx steps m = some true) : ctx.Succeeds .empty m := by
  unfold proves at h
  split at h
  case h_1 a later ran => exact ⟨steps, a, Walk.outcome_eq_some_iff.mpr ⟨later, ran⟩⟩
  case h_2 => cases h
  case h_3 => cases h

theorem not_provable_of_proves {ctx : Context} {steps : Nat} {m : Match}
    (resolvable : ∀ s ∈ m.sources, ctx.Resolvable .empty s.delegation)
    (h : proves ctx steps m = some false) : ¬ ctx.Provable .empty m := by
  unfold proves at h
  split at h
  case h_1 => cases h
  case h_2 causes later ran =>
    have outcome : (ctx.prove (ctx.authorize steps) m).outcome .empty = some (.rejected causes) :=
      Walk.outcome_eq_some_iff.mpr ⟨later, ran⟩
    exact Context.decides_of_resolvable resolvable outcome
  case h_3 => cases h

end Sample

/-- Bob's addition and Carol's upload are each proven alone, and so together. -/
theorem Context.pair_proven_together_separate :
    ∃ claimed p m n, Sample.separate = .ok claimed ∧
      p ∈ ((Sample.adding.and Sample.uploading).select claimed).found ∧
      p = .group (.direct m) [.direct n] ∧ Sample.ruled.Apart .empty [m, n] ∧
      Sample.ruled.Succeeds .empty p ∧ Sample.ruled.Succeeds .empty (.direct m) ∧
      Sample.ruled.Succeeds .empty (.direct n) := by
  have holds : Sample.separate.toOption.any (fun claimed =>
      let met := claimed.flatMap (·.delegation.nested)
      decide (met.map (·.cid)).Nodup &&
        met.all (fun d => d.proofs.all fun q => (Citation.link? q).isNone) &&
        met.all (fun d => met.all fun e =>
          decide (d.issuer = e.issuer → d.issuer = Sample.alice ∨ d.cid = e.cid)) &&
        Sample.testPair Sample.adding Sample.uploading claimed fun a b =>
          decide (Sample.proves Sample.ruled 2 (.group a [b]) = some true)) = true := by
    decide +kernel
  obtain ⟨claimed, made, h⟩ := Sample.exists_of_any holds
  simp only [Bool.and_eq_true] at h
  obtain ⟨⟨⟨distinct, inline⟩, issuers⟩, pair⟩ := h
  obtain ⟨a, ha, b, hb, proven⟩ := Sample.exists_of_testPair pair
  have selected := Sample.mem_select_and ha hb
  have among : ∀ s ∈ (Match.group a [b]).sources, s ∈ claimed :=
    fun s mem => Selector.mem_of_mem_sources selected mem
  have alone : Sample.ruled.resolver = none := rfl
  have distinct : ((claimed.flatMap (·.delegation.nested)).map (·.cid)).Nodup := of_decide_eq_true distinct
  have unambiguous : Sample.ruled.Unambiguous .empty claimed := by
    refine unambiguous_of_attached alone rfl distinct fun d hd q hq => ?_
    exact Option.isNone_iff_eq_none.mp (List.all_eq_true.mp (List.all_eq_true.mp inline d hd) q hq)
  have ends : ∀ s ∈ (Match.group a [b]).sources, ∃ steps, Sample.ruled.Within .empty steps s.delegation :=
    fun s _ => ⟨_, within_of_unlinked alone rfl (Nat.le_refl _)⟩
  obtain ⟨m, hm, n, hn, same, -, -, -, -, alike⟩ := pair_proven_together selected
    (fun _ _ _ _ => ⟨_, rfl⟩) (unambiguous.mono fun s mem => .of_mem (among s mem)) ends
  have members : ∀ s ∈ [m, n].map (·.source), s ∈ claimed := by
    intro s mem
    rw [same] at among
    exact among s mem
  have apart : Sample.ruled.Apart .empty [m, n] := by
    refine apart_of_attached alone rfl unambiguous members fun d hd e he issuer => ?_
    have checked := List.all_eq_true.mp (List.all_eq_true.mp issuers d hd) e he
    exact (of_decide_eq_true checked issuer).imp_left fun trusted _ => decide_eq_true trusted
  have succeeds := Sample.succeeds_of_proves (of_decide_eq_true proven)
  obtain ⟨first, second⟩ := (alike apart).mp succeeds
  exact ⟨claimed, _, m, n, made, selected, same, apart, succeeds, first, second⟩

/-- Bob lets Carol upload with nothing that would let him, but he has what lets him, and shows it when he lets
Carol add. So what Carol may do with both succeeds, although her upload alone does not. -/
theorem Context.pair_proven_pooled :
    ∃ claimed p m n, Sample.pooled = .ok claimed ∧
      p ∈ ((Sample.adding.and Sample.uploading).select claimed).found ∧
      p = .group m [n] ∧ m ∈ (Sample.adding.select claimed).found ∧
      n ∈ (Sample.uploading.select claimed).found ∧
      (∀ d, ∃ v, Sample.ruled.directory d = .ok v) ∧
      Sample.ruled.Succeeds .empty p ∧ Sample.ruled.Succeeds .empty m ∧
      ¬ Sample.ruled.Succeeds .empty n := by
  have holds : Sample.pooled.toOption.any (fun claimed =>
      Sample.testPair Sample.adding Sample.uploading claimed fun a b =>
        decide (Sample.proves Sample.ruled 1 (.group a [b]) = some true ∧
          Sample.proves Sample.ruled 1 a = some true ∧ Sample.proves Sample.ruled 1 b = some false)) =
      true := by
    decide +kernel
  obtain ⟨claimed, made, pair⟩ := Sample.exists_of_any holds
  obtain ⟨a, ha, b, hb, proven⟩ := Sample.exists_of_testPair pair
  obtain ⟨both, first, second⟩ := of_decide_eq_true proven
  have resolvable : ∀ s ∈ b.sources, Sample.ruled.Resolvable .empty s.delegation := fun _ _ _ _ => ⟨_, rfl⟩
  refine ⟨claimed, _, a, b, made, Sample.mem_select_and ha hb, rfl, ha, hb, fun _ => ⟨_, rfl⟩,
    Sample.succeeds_of_proves both, Sample.succeeds_of_proves first, fun succeeds => ?_⟩
  exact Sample.not_provable_of_proves resolvable second (succeeds.provable resolvable)

end Mandate

import Mandate.Proofs.Depth

/-!
# Calls that share a cache

A cache may be used by any number of accesses, of one context or of several, and for lookups in between. No
call can tell what was called before: each of them gives what it gives with an empty cache. What the calls do
to the cache are lookups, so it holds at every moment what the resolver gave under the address asked for,
keeps that, and spares the resolver from being asked again.
-/

namespace Mandate

open Walk

/-- What uses a cache: an access, in front of whose context the cache stands, or a lookup. -/
inductive Call where
  | access (ctx : Context) (i : Invocation)
  | resolve (link : Cid)
  | resolveAll (links : List Cid)

namespace Call

/-- What a call returns. -/
inductive Answer where
  | accessed (result : Except Failure Authorization)
  | resolved (result : Except Failure Delegation)
  | resolvedAll (results : List (Cid × Except Failure Delegation))

/-- Makes a call with the resolver that the cache stands in front of, given how to search for an invocation. -/
def runWith (search : Context → Invocation → Walk (Except Failure Authorization))
    (resolver : Option Resolver) : Call → Walk Answer
  | access ctx i => return .accessed (← search { ctx with resolver := resolver } i)
  | resolve link => return .resolved (← modifyGet (ProofCache.resolve resolver link))
  | resolveAll links => return .resolvedAll (← modifyGet (ProofCache.resolveAll resolver links))

def run (resolver : Option Resolver) (call : Call) : Walk Answer :=
  call.runWith Context.access resolver

/-- A call whose search, if it is one, is bounded. -/
def runWithin (resolver : Option Resolver) (steps : Nat) (call : Call) : Walk Answer :=
  call.runWith (fun ctx i => ctx.accessWithin steps i) resolver

/-- Whether citations lead in no circle, where a call follows any. -/
def Acyclic (resolver : Option Resolver) : Call → Prop
  | access ctx i => Context.Acyclic { ctx with resolver := resolver } .empty i.delegation
  | resolve _ => True
  | resolveAll _ => True

variable {resolver : Option Resolver} {call : Call} {cache later : ProofCache} {answer other : Answer}
  {steps more : Nat}

theorem steady_runWithin (resolver : Option Resolver) (steps : Nat) (call : Call) :
    Steady resolver (call.runWithin resolver steps) := by
  cases call with
  | access ctx i =>
      exact (Context.steady_accessWithin { ctx with resolver := resolver } steps i).bind fun _ => .pure _
  | resolve link =>
      exact (Steady.lookup (ProofCache.leads_resolve link) fun same =>
        ProofCache.resolve_congr same link).bind fun _ => .pure _
  | resolveAll links =>
      exact (Steady.lookup (ProofCache.leads_resolveAll links) fun same =>
        ProofCache.resolveAll_congr same links).bind fun _ => .pure _

/-- A bounded call that ends does so alike within any larger bound. -/
theorem prolongs_runWithin (enough : steps ≤ more) (call : Call) :
    Prolongs (call.runWithin resolver more) (call.runWithin resolver steps) := by
  cases call with
  | access ctx i => exact (Context.prolongs_accessWithin enough i).bind fun _ => .refl _
  | resolve link => exact .refl _
  | resolveAll links => exact .refl _

/-- A call is a bounded one, for the number of steps that an access takes at most. -/
theorem exists_runWithin (h : call.run resolver cache = some (answer, later)) :
    ∃ steps, call.runWithin resolver steps cache = some (answer, later) := by
  cases call with
  | access ctx i =>
      obtain ⟨result, between, ran, rest⟩ := exists_of_bind_eq_some h
      rw [Context.access_eq] at ran
      exact ⟨_, Option.bind_eq_some_iff.mpr ⟨_, ran, rest⟩⟩
  | resolve link => exact ⟨0, h⟩
  | resolveAll links => exact ⟨0, h⟩

/-- A call uses the cache for lookups alone. -/
theorem leads_run (h : call.run resolver cache = some (answer, later)) : cache.Leads resolver later := by
  obtain ⟨steps, within⟩ := exists_runWithin h
  exact (steady_runWithin resolver steps call).leads within

/-- From caches that resolve links alike, a call gives no different answers. -/
theorem run_congr {c d c' d' : ProofCache} (same : ProofCache.Agree resolver c d)
    (hc : call.run resolver c = some (answer, c')) (hd : call.run resolver d = some (other, d')) :
    answer = other := by
  obtain ⟨few, first⟩ := exists_runWithin hc
  obtain ⟨many, second⟩ := exists_runWithin hd
  apply (steady_runWithin resolver (max few many) call).unique same
  · exact prolongs_runWithin (Nat.le_max_left _ _) call first
  · exact prolongs_runWithin (Nat.le_max_right _ _) call second

/-- Where citations lead in no circle, a call ends with every cache that resolves links as an empty one. -/
theorem exists_run (acyclic : call.Acyclic resolver) (same : ProofCache.Agree resolver cache .empty) :
    ∃ answer later, call.run resolver cache = some (answer, later) := by
  cases call with
  | access ctx i =>
      have ends : Context.Acyclic { ctx with resolver := resolver } cache i.delegation :=
        Context.Acyclic.congr acyclic same
      obtain ⟨result, outcome⟩ := Context.exists_access ends
      obtain ⟨later, ran⟩ := outcome_eq_some_iff.mp outcome
      exact ⟨.accessed result, later, Option.bind_eq_some_iff.mpr ⟨_, ran, rfl⟩⟩
  | resolve link => exact ⟨_, _, rfl⟩
  | resolveAll links => exact ⟨_, _, rfl⟩

/-- What a call returns with an empty cache. -/
structure Returns (resolver : Option Resolver) (call : Call) (answer : Answer) : Prop where
  /-- It returns that with enough steps, and with all larger numbers of steps. -/
  enough : ∃ steps, ∀ more, steps ≤ more →
    ∃ later, call.runWithin resolver more .empty = some (answer, later)
  /-- With the steps that an access takes at most, it returns nothing else. -/
  unique : ∀ {other later}, call.run resolver .empty = some (other, later) → answer = other
  /-- They are enough where citations lead in no circle. -/
  exists_later : call.Acyclic resolver → ∃ later, call.run resolver .empty = some (answer, later)

/-- A call that is not the first one returns what it does with an empty cache. -/
theorem returns_of_run (agrees : ProofCache.Agree resolver cache .empty)
    (h : call.run resolver cache = some (answer, later)) : call.Returns resolver answer where
  enough := by
    obtain ⟨steps, within⟩ := exists_runWithin h
    refine ⟨steps, fun more le => outcome_eq_some_iff.mp ?_⟩
    rw [← (steady_runWithin resolver more call).outcome_congr agrees]
    exact (prolongs_runWithin le call).outcome (outcome_eq_some_iff.mpr ⟨later, within⟩)
  unique alone := run_congr agrees h alone
  exists_later acyclic := by
    obtain ⟨other, left, alone⟩ := exists_run acyclic (.refl _)
    obtain rfl := run_congr agrees h alone
    exact ⟨left, alone⟩

/-- Calls one after the other, with the cache that the one before left. -/
def runAll (resolver : Option Resolver) : List Call → Walk (List Answer)
  | [] => return []
  | call :: calls => return (← call.run resolver) :: (← runAll resolver calls)

theorem leads_runAll {calls : List Call} {answers : List Answer}
    (h : runAll resolver calls cache = some (answers, later)) : cache.Leads resolver later := by
  induction calls generalizing cache answers with
  | nil =>
      cases h
      exact .refl
  | cons call calls ih =>
      obtain ⟨answer, between, first, h⟩ := exists_of_bind_eq_some h
      obtain ⟨rest, last, others, same⟩ := exists_of_bind_eq_some h
      cases same
      exact (leads_run first).trans (ih others)

theorem returns_of_runAll {calls : List Call} {answers : List Answer}
    (agrees : ProofCache.Agree resolver cache .empty)
    (h : runAll resolver calls cache = some (answers, later)) :
    List.Forall₂ (Returns resolver) calls answers := by
  induction calls generalizing cache answers with
  | nil =>
      cases h
      exact .nil
  | cons call calls ih =>
      obtain ⟨answer, between, first, h⟩ := exists_of_bind_eq_some h
      obtain ⟨rest, last, others, same⟩ := exists_of_bind_eq_some h
      cases same
      exact .cons (returns_of_run agrees first) (ih ((leads_run first).agree.trans agrees) others)

theorem exists_runAll {calls : List Call} (acyclic : ∀ call ∈ calls, call.Acyclic resolver)
    (agrees : ProofCache.Agree resolver cache .empty) :
    ∃ answers later, runAll resolver calls cache = some (answers, later) := by
  induction calls generalizing cache with
  | nil => exact ⟨_, _, rfl⟩
  | cons call calls ih =>
      obtain ⟨first, rest⟩ := List.forall_mem_cons.mp acyclic
      obtain ⟨answer, between, ran⟩ := exists_run first agrees
      obtain ⟨answers, later, others⟩ := ih rest ((leads_run ran).agree.trans agrees)
      refine ⟨answer :: answers, later, Option.bind_eq_some_iff.mpr ⟨_, ran, ?_⟩⟩
      exact Option.bind_eq_some_iff.mpr ⟨_, others, rfl⟩

end Call

namespace ProofCache

/-- What holds of a cache at a moment, and from then on up to a later one. -/
structure Faithful (resolver : Option Resolver) (moment later : ProofCache) : Prop where
  /-- What is remembered has the address that it is remembered at, and the resolver gave it. -/
  own : ∀ {link p}, moment.cached? link = some p →
    p.cid = link ∧ ∃ r, resolver = some r ∧ r.fetch link = .ok p
  /-- It is neither dropped nor replaced. -/
  kept : ∀ {link p}, moment.cached? link = some p → later.cached? link = some p
  /-- The resolver is not asked for it again. -/
  spared : ∀ {link p}, moment.cached? link = some p →
    later.lookups.count link = moment.lookups.count link
  /-- A lookup that finds something would remember it. -/
  remembered : ∀ {link p}, (resolve resolver link moment).1 = .ok p →
    (resolve resolver link moment).2.cached? link = some p
  /-- One for which the resolver has nothing, or something with another address, would remember nothing. -/
  unchanged : ∀ {link}, (∀ r p, resolver = some r → r.fetch link = .ok p → p.cid ≠ link) →
    (resolve resolver link moment).2.entries = moment.entries

theorem Reached.faithful {resolver : Option Resolver} {moment later : ProofCache}
    (reached : moment.Reached resolver) (leads : moment.Leads resolver later) :
    Faithful resolver moment later where
  own cached := by
    obtain ⟨r, given, fetched⟩ := reached.fetch_of_cached cached
    obtain ⟨found, own⟩ := fetch_eq_ok_iff.mp fetched
    exact ⟨own, r, given, found⟩
  kept cached := (leads.cached? cached).1
  spared cached := (leads.cached? cached).2
  remembered found := cached?_of_resolve found
  unchanged missing := entries_resolve moment missing

/-- A link that the resolver has an answer for is asked for once at most. -/
theorem Reached.count_le_one {resolver : Option Resolver} {cache : ProofCache} (h : cache.Reached resolver)
    {r : Resolver} {link : Cid} {p : Delegation} (given : resolver = some r) (found : r.fetch link = .ok p)
    (own : p.cid = link) : cache.lookups.count link ≤ 1 := by
  rcases h.asked given (fetch_eq_ok_iff.mpr ⟨found, own⟩) with never | ⟨-, once⟩
  · rw [List.count_eq_zero.mpr never]
    exact Nat.zero_le 1
  · exact once.le

/-- However many calls share a cache, each of them returns what it returns with an empty one, and all of them
end where citations lead in no circle. At every moment that their lookups pass, the cache is faithful; and a
link is asked for once at most, if the resolver has a delegation with this address. -/
theorem transparent (resolver : Option Resolver) (calls : List Call) :
    ((∀ call ∈ calls, call.Acyclic resolver) →
      ∃ answers later, Call.runAll resolver calls .empty = some (answers, later)) ∧
    ∀ answers later, Call.runAll resolver calls .empty = some (answers, later) →
      List.Forall₂ (Call.Returns resolver) calls answers ∧
      Leads resolver .empty later ∧
      (∀ moment, Leads resolver .empty moment → Leads resolver moment later →
        Faithful resolver moment later) ∧
      ∀ r link p, resolver = some r → r.fetch link = .ok p → p.cid = link →
        later.lookups.count link ≤ 1 := by
  refine ⟨fun acyclic => Call.exists_runAll acyclic (.refl _), fun answers later ran => ?_⟩
  have leads := Call.leads_runAll ran
  refine ⟨Call.returns_of_runAll (.refl _) ran, leads, ?_, ?_⟩
  · intro moment before after
    exact (before.reached .empty).faithful after
  · intro r link p given found own
    exact (leads.reached .empty).count_le_one given found own

end ProofCache

/-! ## A proof that is linked twice -/

namespace Sample

/-- What Bob lets Carol do, by what is linked only. -/
def relay (caveats : Fields) (root : Cid) : Except Delegation.Error Delegation :=
  Draft.sign ⟨some carol, [⟨"store/add", alice.toText, caveats⟩], [.link root], none, none, [], none⟩
    (echo bob)

/-- What Alice lets Bob do, and an invocation with two proofs that link it, of which the first allows more. -/
def linked : Except Delegation.Error (Delegation × Invocation) := do
  let root ← grant alice bob "store/add" [("size", .integer 100)] []
  let wide ← relay [("size", .integer 200)] root.cid
  let narrow ← relay [] root.cid
  let i ← Invocation.ofDelegation (← grant carol service "store/add" [("size", .integer 50)] [wide, narrow])
  return (root, i)

/-- Gives what Alice let Bob do, also for the address of the invocation. -/
def mistaken (root : Delegation) (i : Invocation) : Resolver :=
  .withAnswers [(i.delegation.cid, root)] (.ofStore ⟨[(root.cid, root)]⟩)

/-- A lookup that fails, an access, lookups of which two are of one link, and the access again. -/
def history (root : Delegation) (i : Invocation) : List Call :=
  [.resolve i.delegation.cid, .access (context limited) i,
    .resolveAll [root.cid, root.cid, i.delegation.cid], .access (context limited) i]

/-- Whether an answer grants something. -/
def accepts : Call.Answer → Bool
  | .accessed (.ok _) => true
  | _ => false

end Sample

/-- Both accesses are granted, and Alice's delegation is asked for once. -/
theorem ProofCache.transparent_linked :
    ∃ root i answers later, Sample.linked = .ok (root, i) ∧
      (∀ call ∈ Sample.history root i, call.Acyclic (some (Sample.mistaken root i))) ∧
      Call.runAll (some (Sample.mistaken root i)) (Sample.history root i) .empty = some (answers, later) ∧
      answers.map Sample.accepts = [false, true, false, true] ∧
      later.lookups = [i.delegation.cid, root.cid, i.delegation.cid] ∧
      List.Forall₂ (Call.Returns (some (Sample.mistaken root i))) (Sample.history root i) answers := by
  have holds : Sample.linked.toOption.any (fun (root, i) =>
      decide (Context.Within { Sample.context Sample.limited with resolver := some (Sample.mistaken root i) }
        .empty 3 i.delegation) &&
      (Call.runAll (some (Sample.mistaken root i)) (Sample.history root i) .empty).all fun (answers, later) =>
        decide (answers.map Sample.accepts = [false, true, false, true] ∧
          later.lookups = [i.delegation.cid, root.cid, i.delegation.cid])) = true := by
    decide +kernel
  obtain ⟨⟨root, i⟩, made, holds⟩ := Sample.exists_of_any holds
  obtain ⟨enough, asked⟩ := Bool.and_eq_true_iff.mp holds
  have acyclic : ∀ call ∈ Sample.history root i, call.Acyclic (some (Sample.mistaken root i)) := by
    have ends : Context.Acyclic
        { Sample.context Sample.limited with resolver := some (Sample.mistaken root i) } .empty i.delegation :=
      Context.acyclic_of_founded (of_decide_eq_true enough).founded
    simp [Sample.history, Call.Acyclic, ends]
  obtain ⟨ended, returns⟩ := transparent (some (Sample.mistaken root i)) (Sample.history root i)
  obtain ⟨answers, later, ran⟩ := ended acyclic
  rw [ran] at asked
  obtain ⟨granted, lookups⟩ := of_decide_eq_true asked
  exact ⟨root, i, answers, later, made, acyclic, ran, granted, lookups, (returns answers later ran).1⟩

end Mandate

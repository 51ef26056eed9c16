import Mandate.Proofs.Report
import Mathlib.Data.List.Find

/-!
# The citation that counts

Several delegations of one issuer can cite one proof, some with the proof attached and some by its address
alone. Only one of these citations is checked, the first in the order of the claim's sources. So what is
reported about the proof is how it is cited there: a proof that others attach is not used if the first
citation is a mere link. Whether that makes a difference is a question of whether the link resolves, as all
copies of a proof that can be found are checked alike.
-/

namespace Mandate

namespace Delegation

/-- How a delegation cites an address. -/
def proofAt (d : Delegation) (link : Cid) : Proof :=
  match d.blocks.lookup link with
  | some p => .inline p
  | none => .link link

theorem proofs_eq_map (d : Delegation) : d.proofs = d.payload.proofs.map d.proofAt := rfl

theorem proofAt_of_attached {d p : Delegation} {link : Cid} (h : d.blocks.lookup link = some p) :
    d.proofAt link = .inline p := by
  rw [proofAt, h]

theorem proofAt_of_missing {d : Delegation} {link : Cid} (h : d.blocks.lookup link = none) :
    d.proofAt link = .link link := by
  rw [proofAt, h]

theorem WellFormed.cid_proofAt {d : Delegation} (wf : d.WellFormed) (link : Cid) :
    (d.proofAt link).cid = link := by
  cases found : d.blocks.lookup link with
  | some p =>
      rw [proofAt_of_attached found]
      exact wf.cid_eq link p (Table.mem_of_lookup found)
  | none => rw [proofAt_of_missing found, Proof.cid]

/-- Whether a delegation is by an issuer and cites an address. -/
def isCiting (issuer : Did) (link : Cid) (d : Delegation) : Bool :=
  decide (d.issuer = issuer) && decide (link ∈ d.payload.proofs)

theorem isCiting_iff {d : Delegation} {issuer : Did} {link : Cid} :
    d.isCiting issuer link = true ↔ d.issuer = issuer ∧ link ∈ d.payload.proofs := by
  rw [isCiting, Bool.and_eq_true, decide_eq_true_iff, decide_eq_true_iff]

/-- The citation of an address by a delegation. -/
def citation (d : Delegation) (link : Cid) : Citation := ⟨d, d.proofAt link⟩

end Delegation

namespace Citation

variable {ctx : Context} {cache : ProofCache}

theorem beq_iff {a b : Citation} :
    (a == b) = true ↔ a.citing.issuer = b.citing.issuer ∧ a.proof.cid = b.proof.cid := by
  change (decide _ && decide _) = true ↔ _
  rw [Bool.and_eq_true, decide_eq_true_iff, decide_eq_true_iff]

instance : EquivBEq Citation where
  rfl := beq_iff.mpr ⟨rfl, rfl⟩
  symm h := beq_iff.mpr ⟨(beq_iff.mp h).1.symm, (beq_iff.mp h).2.symm⟩
  trans h h' := beq_iff.mpr
    ⟨(beq_iff.mp h).1.trans (beq_iff.mp h').1, (beq_iff.mp h).2.trans (beq_iff.mp h').2⟩

/-! ## First occurrences -/

/-- A test that does not tell like elements apart finds the same element after repetitions are dropped. -/
theorem find?_eraseDups {α : Type} [BEq α] {P : α → Bool} :
    (as : List α) → (∀ a ∈ as, ∀ b ∈ as, (a == b) = true → P a = P b) →
      as.eraseDups.find? P = as.find? P
  | [], _ => rfl
  | a :: as, alike => by
      have smaller := find?_eraseDups (as.filter fun b => !b == a) fun b hb c hc =>
        alike b (List.mem_cons_of_mem _ (List.mem_of_mem_filter hb)) c
          (List.mem_cons_of_mem _ (List.mem_of_mem_filter hc))
      rw [List.eraseDups_cons, List.find?_cons, List.find?_cons]
      cases found : P a with
      | true => rfl
      | false =>
          simp only
          rw [smaller, List.find?_filter]
          apply List.find?_congr
          intro b hb
          by_cases same : (b == a) = true
          · have failed : P b = false :=
              (alike b (List.mem_cons_of_mem _ hb) a List.mem_cons_self same).trans found
            simp [failed]
          · simp [same]
termination_by as => as.length
decreasing_by
  exact Nat.lt_succ_of_le (List.length_filter_le _ as)

/-- What is left after repetitions are dropped are the first occurrences. -/
theorem mem_eraseDups_iff_find? {α : Type} [BEq α] [EquivBEq α] {a : α} :
    (as : List α) → (a ∈ as.eraseDups ↔ as.find? (· == a) = some a)
  | [] => by simp
  | b :: bs => by
      have smaller := mem_eraseDups_iff_find? (a := a) (bs.filter fun c => !c == b)
      rw [List.eraseDups_cons, List.mem_cons, smaller, List.find?_cons, List.find?_filter]
      by_cases same : (b == a) = true
      · have dropped : bs.find? (fun c => decide ((!c == b) = true ∧ (c == a) = true)) = none := by
          apply List.find?_eq_none.mpr
          intro c _ kept
          obtain ⟨differ, like⟩ := of_decide_eq_true kept
          rw [BEq.trans like (BEq.symm same)] at differ
          cases differ
        rw [dropped, same]
        simp [eq_comm]
      · have other : a ≠ b := by
          rintro rfl
          exact same (BEq.refl a)
        have kept : bs.find? (fun c => decide ((!c == b) = true ∧ (c == a) = true)) =
            bs.find? (· == a) := by
          apply List.find?_congr
          intro c _
          by_cases like : (c == a) = true
          · have differ : (c == b) = false :=
              Bool.eq_false_iff.mpr fun h => same (BEq.trans (BEq.symm h) like)
            simp [like, differ]
          · simp [like]
        rw [kept, Bool.eq_false_iff.mpr same]
        simp [other]
termination_by as => as.length
decreasing_by
  exact Nat.lt_succ_of_le (List.length_filter_le _ bs)

theorem findSome?_eq_map_find? {α β : Type} {f : α → Option β} {P : α → Bool} {g : α → β}
    {as : List α} (h : ∀ a ∈ as, f a = if P a = true then some (g a) else none) :
    as.findSome? f = (as.find? P).map g := by
  induction as with
  | nil => rfl
  | cons a as ih =>
      have rest := ih fun b hb => h b (List.mem_cons_of_mem _ hb)
      rw [List.findSome?_cons, List.find?_cons, h a List.mem_cons_self]
      cases P a with
      | true => rfl
      | false => exact rest

/-- Of the delegations of some sources, the first one by an issuer that cites an address. -/
def citing? (claimed : List Source) (issuer : Did) (link : Cid) : Option Delegation :=
  (claimed.map (·.delegation)).find? (·.isCiting issuer link)

/-- A delegation has a citation like a given one exactly if it is by the same issuer and cites the same
address. -/
theorem find?_proofs {d : Delegation} (wf : d.WellFormed) (k : Citation) :
    (d.proofs.map (⟨d, ·⟩)).find? (· == k) =
      if d.isCiting k.citing.issuer k.proof.cid = true then some (d.citation k.proof.cid) else none := by
  have like : ∀ link, (d.citation link == k) = true ↔
      d.issuer = k.citing.issuer ∧ link = k.proof.cid := by
    intro link
    rw [beq_iff]
    change _ ∧ (d.proofAt link).cid = _ ↔ _
    rw [wf.cid_proofAt]
    rfl
  rw [Delegation.proofs_eq_map, List.map_map]
  change (d.payload.proofs.map d.citation).find? (· == k) = _
  rw [List.find?_map]
  cases found : d.payload.proofs.find? ((· == k) ∘ d.citation) with
  | none =>
      have absent := List.find?_eq_none.mp found
      refine (if_neg fun citing => ?_).symm
      obtain ⟨issuer, mem⟩ := Delegation.isCiting_iff.mp citing
      exact absent _ mem ((like _).mpr ⟨issuer, rfl⟩)
  | some link =>
      have similar : (d.citation link == k) = true :=
        List.find?_some (p := (· == k) ∘ d.citation) found
      obtain ⟨issuer, rfl⟩ := (like link).mp similar
      exact (if_pos (Delegation.isCiting_iff.mpr ⟨issuer, List.mem_of_find?_eq_some found⟩)).symm

/-- The citations that count are the first ones, whether their proofs are attached or not. -/
theorem mem_ofSources_iff {claimed : List Source} (wf : ∀ s ∈ claimed, s.delegation.WellFormed)
    (content : ∀ s ∈ claimed, ∀ t ∈ claimed, s.delegation.cid = t.delegation.cid →
      s.delegation.payload = t.delegation.payload) {k : Citation} :
    k ∈ ofSources claimed ↔
      ∃ d, citing? claimed k.citing.issuer k.proof.cid = some d ∧ k = d.citation k.proof.cid := by
  have each : ∀ d ∈ (claimed.map (·.delegation)).eraseDups,
      (d.proofs.map (⟨d, ·⟩)).find? (· == k) =
        if d.isCiting k.citing.issuer k.proof.cid = true then some (d.citation k.proof.cid)
        else none := by
    intro d mem
    obtain ⟨s, hs, rfl⟩ := List.mem_map.mp (mem_of_mem_eraseDups _ mem)
    exact find?_proofs (wf s hs) k
  have alike : ∀ d ∈ claimed.map (·.delegation), ∀ e ∈ claimed.map (·.delegation),
      (d == e) = true → d.isCiting k.citing.issuer k.proof.cid =
        e.isCiting k.citing.issuer k.proof.cid := by
    intro d hd e he same
    obtain ⟨s, hs, rfl⟩ := List.mem_map.mp hd
    obtain ⟨t, ht, rfl⟩ := List.mem_map.mp he
    have payload := content s hs t ht (of_decide_eq_true same)
    have issuer : s.delegation.issuer = t.delegation.issuer := congrArg Payload.issuer payload
    rw [Delegation.isCiting, Delegation.isCiting, issuer, payload]
  rw [ofSources, ofDelegations, mem_eraseDups_iff_find?, List.find?_flatMap,
    findSome?_eq_map_find? each, find?_eraseDups _ alike, Option.map_eq_some_iff]
  exact exists_congr fun d => and_congr_right fun _ => eq_comm

end Citation

/-! ## How checks end -/

namespace Context

open Citation

variable {ctx : Context} {cache : ProofCache} {claimed : List Source} {issuer : Did} {link : Cid}

/-- A check is about who cites the proof and about what the proof says, not about attachments. -/
theorem checkProof_congr {d e p q : Delegation} (issuer : d.issuer = e.issuer)
    (same : p.bare = q.bare) : ctx.checkProof d p = ctx.checkProof e q := by
  change ctx.checkProof d p.bare = ctx.checkProof e q.bare
  rw [same, checkProof, checkProof, issuer]

theorem name_of_checkProof {citing p : Delegation} {f : Failure}
    (h : ctx.checkProof citing p = .error f) : f.name ≠ "UnavailableProof" := by
  unfold checkProof at h
  rw [seq_eq_error_iff, seq_eq_error_iff] at h
  rcases h with audience | ⟨-, time | ⟨-, signature⟩⟩
  · obtain ⟨rfl, -⟩ := checkAudience_eq_error audience
    simp [Failure.name]
  · rcases checkTime_eq_error time with ⟨t, rfl, -⟩ | ⟨t, rfl, -⟩ <;> simp [Failure.name]
  · rcases checkSignature_eq_error signature with ⟨cause, rfl⟩ | rfl <;> simp [Failure.name]

end Context

namespace Citation

open Context

variable {ctx : Context} {cache : ProofCache} {claimed : List Source} {issuer : Did} {link : Cid}

/-- How the check of a citation ends: `none` if the proof passes, and otherwise the kind of its failure. -/
def kind (ctx : Context) (cache : ProofCache) (k : Citation) : Option String :=
  match k.verdict ctx cache with
  | .ok _ => none
  | .error f => some f.name

/-- A proof that is there passes or fails as the checks have it. -/
theorem kind_of_cited {k : Citation} {p : Delegation} (found : ctx.cited cache k.proof = .ok p) :
    k.kind ctx cache =
      match ctx.checkProof k.citing p with
      | .ok _ => none
      | .error f => some f.name := by
  unfold kind verdict
  rw [found]
  cases checked : ctx.checkProof k.citing p <;> simp [bind, Except.bind, checked, pure, Except.pure]

theorem kind_eq_unavailable_iff {k : Citation} :
    k.kind ctx cache = some "UnavailableProof" ↔ ∃ f, ctx.cited cache k.proof = .error f := by
  cases found : ctx.cited cache k.proof with
  | ok p =>
      refine iff_of_false ?_ (by simp)
      rw [kind_of_cited found]
      cases checked : ctx.checkProof k.citing p with
      | ok u => simp
      | error f => simpa using name_of_checkProof checked
  | error f =>
      refine iff_of_true ?_ ⟨f, rfl⟩
      obtain ⟨citing, proof⟩ := k
      cases proof with
      | inline p => cases found
      | link l =>
          obtain ⟨reason, rfl⟩ := ProofCache.answer_eq_error found
          simp [kind, verdict, found, bind, Except.bind, Failure.name]

end Citation

/-! ## The order of the sources -/

namespace Context

open Citation

variable {ctx : Context} {cache : ProofCache} {claimed other : List Source} {issuer : Did} {link : Cid}
  {d e : Delegation} {kind : Option String}

/-- What content addressing promises of the delegations of some sources and of the proofs that they cite:
attachments stand at their own addresses, and the content at one address is the same everywhere. -/
structure Addressed (ctx : Context) (cache : ProofCache) (claimed : List Source) : Prop where
  reached : cache.Reached ctx.resolver
  wellFormed : ∀ s ∈ claimed, s.delegation.WellFormed
  payload_eq : ∀ s ∈ claimed, ∀ t ∈ claimed, s.delegation.cid = t.delegation.cid →
    s.delegation.payload = t.delegation.payload
  bare_eq : ∀ s ∈ claimed, ∀ t ∈ claimed, ∀ p q, ctx.Cites cache s.delegation p →
    ctx.Cites cache t.delegation q → p.cid = q.cid → p.bare = q.bare

/-- The check of an address on behalf of an issuer ends in a certain way, with a pass or a kind of failure. -/
def Ended (ctx : Context) (cache : ProofCache) (claimed : List Source) (issuer : Did) (link : Cid)
    (kind : Option String) : Prop :=
  ∃ k ∈ ofSources claimed, k.citing.issuer = issuer ∧ k.proof.cid = link ∧ k.kind ctx cache = kind

/-- A delegation of some sources cites an address in the name of an issuer. -/
def Citing (claimed : List Source) (issuer : Did) (link : Cid) (d : Delegation) : Prop :=
  ∃ s ∈ claimed, s.delegation = d ∧ d.isCiting issuer link = true

theorem Addressed.perm (h : ctx.Addressed cache claimed) (perm : other.Perm claimed) :
    ctx.Addressed cache other where
  reached := h.reached
  wellFormed s hs := h.wellFormed s (perm.mem_iff.mp hs)
  payload_eq s hs t ht := h.payload_eq s (perm.mem_iff.mp hs) t (perm.mem_iff.mp ht)
  bare_eq s hs t ht := h.bare_eq s (perm.mem_iff.mp hs) t (perm.mem_iff.mp ht)

theorem Citing.perm (h : Citing other issuer link d) (perm : other.Perm claimed) :
    Citing claimed issuer link d := by
  obtain ⟨s, hs, same, citing⟩ := h
  exact ⟨s, perm.mem_iff.mp hs, same, citing⟩

theorem citing_of_first (h : citing? claimed issuer link = some d) : Citing claimed issuer link d := by
  obtain ⟨s, hs, same⟩ := List.mem_map.mp (List.mem_of_find?_eq_some h)
  exact ⟨s, hs, same, List.find?_some (p := Delegation.isCiting issuer link) h⟩

theorem Citing.exists_first (h : Citing claimed issuer link d) :
    ∃ e, citing? claimed issuer link = some e := by
  obtain ⟨s, hs, rfl, citing⟩ := h
  exact Option.isSome_iff_exists.mp
    (List.find?_isSome.mpr ⟨s.delegation, List.mem_map.mpr ⟨s, hs, rfl⟩, citing⟩)

/-- A delegation that cites an address comes first in some order. -/
theorem Citing.exists_perm (h : Citing claimed issuer link d) :
    ∃ other : List Source, other.Perm claimed ∧ citing? other issuer link = some d := by
  obtain ⟨s, hs, rfl, citing⟩ := h
  obtain ⟨before, after, rfl⟩ := List.append_of_mem hs
  refine ⟨s :: (before ++ after), List.perm_middle.symm, ?_⟩
  rw [citing?, List.map_cons, List.find?_cons, citing]

/-- The check of an address ends as the first delegation that cites it has it. -/
theorem ended_iff (h : ctx.Addressed cache claimed) :
    ctx.Ended cache claimed issuer link kind ↔
      ∃ d, citing? claimed issuer link = some d ∧ (d.citation link).kind ctx cache = kind := by
  constructor
  · rintro ⟨k, counts, rfl, rfl, ends⟩
    obtain ⟨d, first, same⟩ := (mem_ofSources_iff h.wellFormed h.payload_eq).mp counts
    exact ⟨d, first, same ▸ ends⟩
  · rintro ⟨d, first, ends⟩
    obtain ⟨s, hs, rfl, citing⟩ := citing_of_first first
    have cid : (s.delegation.citation link).proof.cid = link := (h.wellFormed s hs).cid_proofAt link
    have by_issuer : (s.delegation.citation link).citing.issuer = issuer :=
      (Delegation.isCiting_iff.mp citing).1
    refine ⟨s.delegation.citation link, ?_, by_issuer, cid, ends⟩
    rw [mem_ofSources_iff h.wellFormed h.payload_eq, by_issuer, cid]
    exact ⟨s.delegation, first, rfl⟩

/-- What a delegation cites is missing if it is not attached and does not resolve. -/
theorem missing_iff :
    (∃ f, ctx.cited cache (d.proofAt link) = .error f) ↔
      d.blocks.lookup link = none ∧ ∃ f, cache.answer ctx.resolver link = .error f := by
  cases found : d.blocks.lookup link with
  | some p => simp [Delegation.proofAt_of_attached found, cited]
  | none => simp [Delegation.proofAt_of_missing found, cited]

theorem Addressed.cid_of_cited (h : ctx.Addressed cache claimed) {s : Source} (hs : s ∈ claimed)
    {p : Delegation} (found : ctx.cited cache (s.delegation.proofAt link) = .ok p) : p.cid = link := by
  cases attached : s.delegation.blocks.lookup link with
  | some q =>
      rw [Delegation.proofAt_of_attached attached] at found
      obtain rfl := Except.ok.inj found
      exact (h.wellFormed s hs).cid_eq link q (Table.mem_of_lookup attached)
  | none =>
      rw [Delegation.proofAt_of_missing attached] at found
      obtain ⟨_, -, -, same⟩ := h.reached.fetch_of_answer found
      exact same

/-- Copies of a proof that can be found are checked alike on behalf of one issuer. -/
theorem Addressed.kind_eq (h : ctx.Addressed cache claimed) (hd : Citing claimed issuer link d)
    (he : Citing claimed issuer link e) {p q : Delegation}
    (found : ctx.cited cache (d.proofAt link) = .ok p)
    (found' : ctx.cited cache (e.proofAt link) = .ok q) :
    (d.citation link).kind ctx cache = (e.citation link).kind ctx cache := by
  obtain ⟨s, hs, rfl, citing⟩ := hd
  obtain ⟨t, ht, rfl, citing'⟩ := he
  obtain ⟨by_issuer, cites⟩ := Delegation.isCiting_iff.mp citing
  obtain ⟨by_issuer', cites'⟩ := Delegation.isCiting_iff.mp citing'
  have same : p.bare = q.bare := by
    refine h.bare_eq s hs t ht p q ⟨_, List.mem_map.mpr ⟨link, cites, rfl⟩, found⟩
      ⟨_, List.mem_map.mpr ⟨link, cites', rfl⟩, found'⟩ ?_
    rw [h.cid_of_cited hs found, h.cid_of_cited ht found']
  rw [kind_of_cited found, kind_of_cited found']
  change (match ctx.checkProof s.delegation p with | .ok _ => none | .error f => some f.name) =
    match ctx.checkProof t.delegation q with | .ok _ => none | .error f => some f.name
  rw [checkProof_congr (by_issuer.trans by_issuer'.symm) same]

/-- Wherever a proof is attached by one delegation and only linked by another one, it resolves. -/
def Resolves (ctx : Context) (cache : ProofCache) (claimed : List Source) (issuer : Did) (link : Cid) :
    Prop :=
  ∀ d e, Citing claimed issuer link d → Citing claimed issuer link e →
    (d.blocks.lookup link).isSome = true → e.blocks.lookup link = none →
    ∃ p, cache.answer ctx.resolver link = .ok p

/-- Then it is missing for all that cite it or for none of them. -/
theorem Resolves.missing (h : ctx.Resolves cache claimed issuer link) (hd : Citing claimed issuer link d)
    (he : Citing claimed issuer link e) (missing : ∃ f, ctx.cited cache (d.proofAt link) = .error f) :
    ∃ f, ctx.cited cache (e.proofAt link) = .error f := by
  obtain ⟨linked, f, failed⟩ := missing_iff.mp missing
  cases attached : e.blocks.lookup link with
  | none => exact missing_iff.mpr ⟨attached, f, failed⟩
  | some q =>
      obtain ⟨p, answered⟩ := h e d he hd (by rw [attached]; rfl) linked
      rw [failed] at answered
      cases answered

/-- And its check ends alike for all of them. -/
theorem Resolves.kind_eq (h : ctx.Resolves cache claimed issuer link)
    (addressed : ctx.Addressed cache claimed) (hd : Citing claimed issuer link d)
    (he : Citing claimed issuer link e) :
    (d.citation link).kind ctx cache = (e.citation link).kind ctx cache := by
  cases found : ctx.cited cache (d.proofAt link) with
  | error f =>
      have missing := h.missing hd he ⟨f, found⟩
      exact (kind_eq_unavailable_iff.mpr ⟨f, found⟩).trans (kind_eq_unavailable_iff.mpr missing).symm
  | ok p =>
      cases found' : ctx.cited cache (e.proofAt link) with
      | error f =>
          obtain ⟨f, missing⟩ := h.missing he hd ⟨f, found'⟩
          rw [found] at missing
          cases missing
      | ok q => exact addressed.kind_eq hd he found found'

theorem Resolves.perm (h : ctx.Resolves cache claimed issuer link) (perm : other.Perm claimed) :
    ctx.Resolves cache other issuer link :=
  fun d e hd he => h d e (hd.perm perm) (he.perm perm)

/-- So what one of them attaches is not reported as missing, whatever the other ones do. -/
theorem Resolves.not_unavailable (h : ctx.Resolves cache claimed issuer link)
    (addressed : ctx.Addressed cache claimed) (hd : Citing claimed issuer link d)
    (attached : (d.blocks.lookup link).isSome = true) :
    ¬ ctx.Ended cache claimed issuer link (some "UnavailableProof") := by
  intro ended
  obtain ⟨e, first, lost⟩ := (ended_iff addressed).mp ended
  have missing := h.missing (citing_of_first first) hd (kind_eq_unavailable_iff.mp lost)
  rw [(missing_iff.mp missing).1] at attached
  cases attached

/-- Nor does it matter which of them comes first. -/
theorem Resolves.ended (h : ctx.Resolves cache claimed issuer link)
    (addressed : ctx.Addressed cache claimed) (perm : other.Perm claimed)
    (ended : ctx.Ended cache other issuer link kind) : ctx.Ended cache claimed issuer link kind := by
  obtain ⟨d, first, ends⟩ := (ended_iff (addressed.perm perm)).mp ended
  have hd : Citing claimed issuer link d := (citing_of_first first).perm perm
  obtain ⟨e, first'⟩ := hd.exists_first
  exact (ended_iff addressed).mpr ⟨e, first', (h.kind_eq addressed (citing_of_first first') hd).trans ends⟩

/-- If the order does not matter, each delegation that cites a proof could as well come first. -/
theorem Citing.ended (h : Citing claimed issuer link d) (addressed : ctx.Addressed cache claimed)
    (irrelevant : ∀ other : List Source, other.Perm claimed → ∀ kind,
      (ctx.Ended cache other issuer link kind ↔ ctx.Ended cache claimed issuer link kind)) :
    ctx.Ended cache claimed issuer link ((d.citation link).kind ctx cache) := by
  obtain ⟨other, perm, first⟩ := h.exists_perm
  exact (irrelevant other perm _).mp ((ended_iff (addressed.perm perm)).mpr ⟨d, first, rfl⟩)

/-- The order of the sources matters for a proof exactly if it is attached by one delegation and only linked
by another one of the same issuer, and does not resolve. -/
theorem Addressed.order_irrelevant_iff (h : ctx.Addressed cache claimed) :
    (∀ other : List Source, other.Perm claimed → ∀ kind,
        (ctx.Ended cache other issuer link kind ↔ ctx.Ended cache claimed issuer link kind)) ↔
      ctx.Resolves cache claimed issuer link := by
  constructor
  · intro irrelevant d e hd he attached linked
    obtain ⟨x, first, kd⟩ := (ended_iff h).mp (hd.ended h irrelevant)
    obtain ⟨y, first', ke⟩ := (ended_iff h).mp (he.ended h irrelevant)
    obtain rfl : x = y := Option.some.inj (first.symm.trans first')
    cases answered : cache.answer ctx.resolver link with
    | ok p => exact ⟨p, rfl⟩
    | error f =>
        have lost : (e.citation link).kind ctx cache = some "UnavailableProof" :=
          kind_eq_unavailable_iff.mpr (missing_iff.mpr ⟨linked, f, answered⟩)
        have found : d.blocks.lookup link = none :=
          (missing_iff.mp (kind_eq_unavailable_iff.mp (kd.symm.trans (ke.trans lost)))).1
        rw [found] at attached
        cases attached
  · intro resolves other perm kind
    exact ⟨resolves.ended h perm, (resolves.perm perm).ended (h.perm perm) perm.symm⟩

end Context

/-! ## Proofs that are attached in vain -/

namespace Sample

/-- Bob lets Carol add, linking what lets him do so, and upload, with the same proof attached. -/
def shared : Except Delegation.Error (Delegation × Delegation × Delegation) := do
  let root ← grant alice bob "*" [] []
  let linked ← Draft.sign ⟨some carol, [⟨"store/add", alice.toText, []⟩], [.link root.cid], none, none,
    [], none⟩ (echo bob)
  let attached ← grant bob carol "upload/add" [] [root]
  return (root, linked, attached)

/-- What can be seen of the three delegations: each of the citing ones comes first in one order. -/
def isShared : Delegation × Delegation × Delegation → Bool := fun (root, linked, attached) =>
  decide (linked.cid ≠ attached.cid) && decide (linked.payload.proofs = [root.cid]) &&
    decide (attached.payload.proofs = [root.cid]) && (linked.blocks.lookup root.cid).isNone &&
    (attached.blocks.lookup root.cid).isSome &&
    (Citation.citing? (Source.all linked ++ Source.all attached) bob root.cid).any
      (fun d => decide (d.cid = linked.cid)) &&
    (Citation.citing? (Source.all attached ++ Source.all linked) bob root.cid).any
      (fun d => decide (d.cid = attached.cid))

theorem wellFormed_shared {root linked attached : Delegation}
    (made : shared = .ok (root, linked, attached)) : linked.WellFormed ∧ attached.WellFormed := by
  obtain ⟨root, rooted, made⟩ := Context.bind_eq_ok_iff.mp made
  obtain ⟨linked, signed, made⟩ := Context.bind_eq_ok_iff.mp made
  obtain ⟨attached, granted, made⟩ := Context.bind_eq_ok_iff.mp made
  cases made
  have hroot := wellFormed_grant (by simp [Table.Sorted]) (by simp) rooted
  have hlinked := Draft.wellFormed_sign (by simp [Table.Sorted]) (by simp) signed
  have hattached := wellFormed_grant (by simp [Table.Sorted]) (by simpa using hroot) granted
  exact ⟨hlinked.self, hattached.self⟩

theorem mem_shared {linked attached : Delegation} {s : Source}
    (hs : s ∈ Source.all linked ++ Source.all attached) :
    s.delegation = linked ∨ s.delegation = attached :=
  (List.mem_append.mp hs).imp Source.mem_all.mp Source.mem_all.mp

/-- What is linked does not resolve and what is attached is one delegation, so there is nothing that two
copies could differ in. -/
theorem addressed_shared {selector : Selector} {root linked attached : Delegation}
    (made : shared = .ok (root, linked, attached)) (apart : linked.cid ≠ attached.cid)
    (cites : linked.payload.proofs = [root.cid]) (cites' : attached.payload.proofs = [root.cid])
    (missing : linked.blocks.lookup root.cid = none) :
    (context selector).Addressed .empty (Source.all linked ++ Source.all attached) where
  reached := .empty
  wellFormed s hs := by
    obtain ⟨wf, wf'⟩ := wellFormed_shared made
    rcases mem_shared hs with same | same <;> rw [same]
    · exact wf
    · exact wf'
  payload_eq s hs t ht := by
    rcases mem_shared hs with hs | hs <;> rcases mem_shared ht with ht | ht <;> rw [hs, ht]
    · exact fun _ => rfl
    · exact fun same => absurd same apart
    · exact fun same => absurd same.symm apart
    · exact fun _ => rfl
  bare_eq s hs t ht p q hp hq _ := by
    have nothing : ∀ p, ¬ (context selector).Cites .empty linked p := by
      rintro p ⟨q, mem, resolved⟩
      rw [Delegation.proofs_eq_map, cites, List.map_singleton, List.mem_singleton] at mem
      rw [mem, Delegation.proofAt_of_missing missing] at resolved
      cases resolved
    have copy : ∀ p, (context selector).Cites .empty attached p →
        (context selector).cited .empty (attached.proofAt root.cid) = .ok p := by
      rintro p ⟨q, mem, resolved⟩
      rw [Delegation.proofs_eq_map, cites', List.map_singleton, List.mem_singleton] at mem
      exact mem ▸ resolved
    rcases mem_shared hs with hs | hs
    · exact absurd (hs ▸ hp) (nothing p)
    · rcases mem_shared ht with ht | ht
      · exact absurd (ht ▸ hq) (nothing q)
      · rw [Except.ok.inj ((copy p (hs ▸ hp)).symm.trans (copy q (ht ▸ hq)))]

/-- Nobody can look up what lets Bob do so, and Bob attaches it to the second delegation only. -/
theorem exists_shared (selector : Selector) : ∃ root linked attached,
    shared = .ok (root, linked, attached) ∧
    (context selector).Addressed .empty (Source.all linked ++ Source.all attached) ∧
    Citation.citing? (Source.all linked ++ Source.all attached) bob root.cid = some linked ∧
    Citation.citing? (Source.all attached ++ Source.all linked) bob root.cid = some attached ∧
    linked.blocks.lookup root.cid = none ∧ (attached.blocks.lookup root.cid).isSome = true := by
  have holds : shared.toOption.any isShared = true := by decide +kernel
  obtain ⟨⟨root, linked, attached⟩, made, seen⟩ := exists_of_any holds
  simp only [isShared, Bool.and_eq_true, decide_eq_true_eq, Option.isNone_iff_eq_none] at seen
  obtain ⟨⟨⟨⟨⟨⟨apart, cites⟩, cites'⟩, missing⟩, found⟩, first⟩, first'⟩ := seen
  refine ⟨root, linked, attached, made, addressed_shared made apart cites cites' missing, ?_, ?_,
    missing, found⟩
  · obtain ⟨d, first, cid⟩ := (Option.any_eq_true _ _).mp first
    obtain ⟨s, hs, rfl, -⟩ := Context.citing_of_first first
    rcases mem_shared hs with same | same
    · rw [first, same]
    · exact absurd (same ▸ of_decide_eq_true cid).symm apart
  · obtain ⟨d, first, cid⟩ := (Option.any_eq_true _ _).mp first'
    obtain ⟨s, hs, rfl, -⟩ := Context.citing_of_first first
    rcases mem_shared hs with same | same
    · rw [first, same]
    · exact absurd (same ▸ of_decide_eq_true cid) apart

end Sample

namespace Context

open Citation

variable {ctx : Context} {cache : ProofCache} {claimed : List Source}

/-- What is gathered for some sources are the verdicts on the first citations, one for each issuer and
address. So a proof is reported as missing exactly if the first delegation that cites it does not attach it
and it does not resolve, whatever the other ones attach; and the order of the sources matters exactly where a
proof that does not resolve is attached by one delegation and linked by another one. Everywhere else an
attached proof is never missing. -/
theorem first_citation_counts (h : ctx.Addressed cache claimed) :
    (ctx.gather claimed cache).1 =
      Gathered.ofChecks ((ofSources claimed).map (verdict ctx cache)) ∧
    (∀ k, k ∈ ofSources claimed ↔
      ∃ d, citing? claimed k.citing.issuer k.proof.cid = some d ∧ k = d.citation k.proof.cid) ∧
    ∀ issuer link,
      (ctx.Ended cache claimed issuer link (some "UnavailableProof") ↔
        ∃ d, citing? claimed issuer link = some d ∧ d.blocks.lookup link = none ∧
          ∃ f, cache.answer ctx.resolver link = .error f) ∧
      ((∀ other : List Source, other.Perm claimed → ∀ kind,
          (ctx.Ended cache other issuer link kind ↔ ctx.Ended cache claimed issuer link kind)) ↔
        ctx.Resolves cache claimed issuer link) ∧
      (ctx.Resolves cache claimed issuer link → ∀ d, Citing claimed issuer link d →
        (d.blocks.lookup link).isSome = true →
        ¬ ctx.Ended cache claimed issuer link (some "UnavailableProof")) := by
  refine ⟨gather_fst ctx claimed cache, fun k => mem_ofSources_iff h.wellFormed h.payload_eq,
    fun issuer link => ⟨?_, h.order_irrelevant_iff, fun resolves d => resolves.not_unavailable h⟩⟩
  rw [ended_iff h]
  refine exists_congr fun d => and_congr_right fun _ => ?_
  rw [kind_eq_unavailable_iff]
  exact missing_iff

/-- With the linking delegation first, the proof is missing, and another order would make a difference. -/
theorem first_citation_counts_shared :
    ∃ root linked attached, Sample.shared = .ok (root, linked, attached) ∧
      (Sample.context Sample.limited).Ended .empty (Source.all linked ++ Source.all attached)
        Sample.bob root.cid (some "UnavailableProof") ∧
      ¬ ∀ other : List Source, other.Perm (Source.all linked ++ Source.all attached) → ∀ kind,
        ((Sample.context Sample.limited).Ended .empty other Sample.bob root.cid kind ↔
          (Sample.context Sample.limited).Ended .empty (Source.all linked ++ Source.all attached)
            Sample.bob root.cid kind) := by
  obtain ⟨root, linked, attached, made, addressed, first, first', missing, found⟩ :=
    Sample.exists_shared Sample.limited
  obtain ⟨-, -, ends⟩ := first_citation_counts addressed
  obtain ⟨unavailable, order, -⟩ := ends Sample.bob root.cid
  refine ⟨root, linked, attached, made, unavailable.mpr ⟨linked, first, missing, _, rfl⟩, ?_⟩
  rw [order]
  intro resolves
  obtain ⟨p, answered⟩ := resolves attached linked
    ((citing_of_first first').perm List.perm_append_comm) (citing_of_first first) found missing
  cases answered

/-- A proof is reported as missing although a delegation of the issuer has it attached; in the other order
it is used. -/
theorem attached_in_vain :
    ∃ root linked attached g g', Sample.shared = .ok (root, linked, attached) ∧
      linked.issuer = attached.issuer ∧ (attached.blocks.lookup root.cid).isSome = true ∧
      ((Sample.context Sample.limited).gather (Source.all linked ++ Source.all attached) .empty).1 =
        .ok g ∧
      g.sources.isEmpty = true ∧ .unavailableProof root.cid none ∈ g.failures ∧
      ((Sample.context Sample.limited).gather (Source.all attached ++ Source.all linked) .empty).1 =
        .ok g' ∧
      g'.failures.isEmpty = true ∧ ∃ s ∈ g'.sources, s.delegation.cid = root.cid := by
  have holds : Sample.shared.toOption.any (fun (root, linked, attached) =>
      decide (linked.issuer = attached.issuer) && (attached.blocks.lookup root.cid).isSome &&
      ((Sample.context Sample.limited).gather (Source.all linked ++ Source.all attached)
        .empty).1.toOption.any (fun g => g.sources.isEmpty && g.failures.any fun
          | .unavailableProof link none => decide (link = root.cid)
          | _ => false) &&
      ((Sample.context Sample.limited).gather (Source.all attached ++ Source.all linked)
        .empty).1.toOption.any (fun g => g.failures.isEmpty && g.sources.any fun s =>
          decide (s.delegation.cid = root.cid))) = true := by
    decide +kernel
  obtain ⟨⟨root, linked, attached⟩, made, seen⟩ := Sample.exists_of_any holds
  simp only [Bool.and_eq_true, decide_eq_true_eq] at seen
  obtain ⟨⟨⟨issuer, found⟩, first⟩, second⟩ := seen
  obtain ⟨g, gathered, seen⟩ := Sample.exists_of_any first
  obtain ⟨g', gathered', seen'⟩ := Sample.exists_of_any second
  obtain ⟨nothing, reported⟩ := Bool.and_eq_true_iff.mp seen
  obtain ⟨passed, used⟩ := Bool.and_eq_true_iff.mp seen'
  obtain ⟨f, mem, same⟩ := List.any_eq_true.mp reported
  obtain ⟨s, hs, proof⟩ := List.any_eq_true.mp used
  refine ⟨root, linked, attached, g, g', made, issuer, found, gathered, nothing, ?_, gathered', passed,
    s, hs, of_decide_eq_true proof⟩
  split at same
  case h_1 link => exact of_decide_eq_true same ▸ mem
  case h_2 => cases same

end Context

end Mandate

import Mandate.Proofs.Built
import Mandate.Proofs.Finite

/-!
# Archives are restored

An archive holds every part of a delegation once, and nothing is written before what is attached to it.
So each part finds its attachments again when it is read. This depends on which copy of a part is met
first, since only the attachments of that copy are followed. Where all copies at one address have the same
attachments, nothing is lost; where they differ, attachments of later copies may be.
-/

namespace Mandate.Delegation

open Cbor

/-- What is found in a delegation by following attachments from address to address. -/
def follow? (d : Delegation) : List Cid → Option Delegation
  | [] => some d
  | c :: path => do (← d.blocks.lookup c).follow? path

/-- The addresses of what is attached to a delegation itself. -/
def addresses (d : Delegation) : List Cid := d.blocks.map (·.1)

/-- Whether all copies at one address have attachments at the same addresses. -/
def Coherent (d : Delegation) : Prop :=
  ∀ e ∈ d.nested, ∀ e' ∈ d.nested, e.cid = e'.cid → e.addresses = e'.addresses

/-- Whether all copies at one address have the same bytes. -/
def Consistent (d : Delegation) : Prop :=
  ∀ e ∈ d.nested, ∀ e' ∈ d.nested, e.cid = e'.cid → e.bytes = e'.bytes

/-- Whether the encodings of all parts can be read. -/
def Decodes (d : Delegation) : Prop := ∀ e ∈ d.nested, ∃ bare, ofBytes e.bytes = .ok bare

instance (d : Delegation) : Decidable d.Coherent :=
  inferInstanceAs (Decidable (∀ e ∈ d.nested, ∀ e' ∈ d.nested, e.cid = e'.cid → _ = _))

instance (d : Delegation) : Decidable d.Consistent :=
  inferInstanceAs (Decidable (∀ e ∈ d.nested, ∀ e' ∈ d.nested, e.cid = e'.cid → _ = _))

instance (d : Delegation) : Decidable d.Decodes :=
  decidable_of_iff (∀ e ∈ d.nested, (ofBytes e.bytes).toBool = true) (by
    refine forall₂_congr fun e _ => ?_
    cases ofBytes e.bytes <;> simp [Except.toBool])

variable {d root : Delegation} {seen : List Cid} {collected : List Bytes}
  {known : Table Cid Delegation} {last : Option Delegation}

/-! ## What is collected -/

theorem collect_eq (d : Delegation) (seen : List Cid) (collected : List Bytes) :
    collect d (seen, collected) =
      if d.cid ∈ seen then (seen, collected)
      else ((collectAll d.blocks (d.cid :: seen, collected)).1,
        (collectAll d.blocks (d.cid :: seen, collected)).2 ++ [d.bytes]) := by
  cases d
  rw [collect]

mutual

/-- Only the encodings of the parts of a delegation are collected. -/
theorem mem_collect : (d : Delegation) → (state : List Cid × List Bytes) → {b : Bytes} →
    b ∈ (collect d state).2 → b ∈ state.2 ∨ ∃ e ∈ d.nested, e.bytes = b
  | ⟨payload, signature, bytes, cid, blocks⟩, (seen, collected), b, mem => by
      rw [collect] at mem
      split at mem
      · exact Or.inl mem
      · rcases List.mem_append.mp mem with inner | own
        · rcases mem_collectAll blocks (cid :: seen, collected) inner with old | ⟨e, below, same⟩
          · exact Or.inl old
          · refine Or.inr ⟨e, ?_, same⟩
            rw [nested]
            exact List.mem_cons_of_mem _ below
        · refine Or.inr ⟨_, self_mem_nested _, (List.mem_singleton.mp own).symm⟩

theorem mem_collectAll : (blocks : List (Cid × Delegation)) → (state : List Cid × List Bytes) →
    {b : Bytes} → b ∈ (collectAll blocks state).2 →
      b ∈ state.2 ∨ ∃ e ∈ nestedOfBlocks blocks, e.bytes = b
  | [], _, _, mem => Or.inl mem
  | (_, d) :: rest, state, b, mem => by
      rw [collectAll] at mem
      rw [nestedOfBlocks]
      rcases mem_collectAll rest (collect d state) mem with old | ⟨e, below, same⟩
      · rcases mem_collect d state old with old | ⟨e, below, same⟩
        · exact Or.inl old
        · exact Or.inr ⟨e, List.mem_append_left _ below, same⟩
      · exact Or.inr ⟨e, List.mem_append_right _ below, same⟩

end

theorem mem_encodings {b : Bytes} (mem : b ∈ d.encodings) : ∃ e ∈ d.nested, e.bytes = b := by
  rcases mem_collect d ([], []) mem with none | found
  · cases none
  · exact found

/-- The encoding of a delegation is the last one in its archive. -/
theorem encodings_eq (d : Delegation) :
    d.encodings = (collectAll d.blocks ([d.cid], [])).2 ++ [d.bytes] := by
  rw [encodings, collect_eq, if_neg List.not_mem_nil]

/-! ## What is written -/

/-- A list of byte strings has a written form as long as lengths fit into machine words. -/
theorem exists_encode_of_bytes {blocks : List Bytes} (count : blocks.length < UInt64.size)
    (sizes : ∀ b ∈ blocks, b.length < UInt64.size) :
    ∃ archive, encode? (.list (blocks.map .bytes)) = some archive :=
  written_list (List.forall_mem_map.mpr fun b mem => written_bytes (sizes b mem))
    (by rwa [List.length_map])

/-- An archive is read as the encodings that it was made of. -/
theorem ofArchive_of_toArchive {archive : Bytes} {r : Delegation} (h : d.toArchive = .ok archive)
    (read : readBlocks [] none d.encodings = .ok (some r)) : ofArchive archive = .ok r := by
  unfold toArchive at h
  split at h
  case h_1 written =>
    cases h
    have blocks := (Reads.readList Ipld.bytes readBytes? some written (nestingLimit - 1) ?_).readAll
    · have all : d.encodings.mapM some = some d.encodings := by
        simpa using mapM_guard (fun _ => True) d.encodings
      rw [all] at blocks
      change readAll? (readList? readBytes? nestingLimit) _ = _ at blocks
      simp only [ofArchive, blocks, read]
    · intro b _ content own
      rw [encode?] at own
      exact reads_bytes own _
  case h_2 => cases h

/-! ## What is read -/

/-- Of what is known, the cited delegations are attached. -/
theorem lookup_attachAll (own : ∀ c p, known.lookup c = some p → p.cid = c) {cs : List Cid}
    (cited : ∀ c ∈ cs, c ∈ d.payload.proofs) {c : Cid} {q : Delegation} (mem : c ∈ cs)
    (found : known.lookup c = some q) :
    ((cs.filterMap fun c => known.lookup c).foldl attach d).blocks.lookup c = some q := by
  -- An attachment that is made stays, since only the same delegation is attached at its address.
  have stays : ∀ (cs : List Cid) (d : Delegation), d.blocks.lookup c = some q →
      ((cs.filterMap fun c => known.lookup c).foldl attach d).blocks.lookup c = some q := by
    intro cs
    induction cs with
    | nil => exact fun _ => id
    | cons k rest ih =>
        intro d attached
        rw [List.filterMap_cons]
        split
        · exact ih d attached
        case h_2 p other =>
          refine ih (d.attach p) ?_
          unfold attach
          split
          · by_cases same : c = p.cid
            · obtain rfl : q = p := by
                rw [same, own k p other, other] at found
                exact (Option.some.inj found).symm
              rw [same, Table.lookup_insert_self]
            · rw [Table.lookup_insert_of_ne p d.blocks same, attached]
          · exact attached
  induction cs generalizing d with
  | nil => cases mem
  | cons k rest ih =>
      have listed := cited k List.mem_cons_self
      rw [List.filterMap_cons]
      rcases List.mem_cons.mp mem with rfl | later
      · rw [found]
        refine stays rest (d.attach q) ?_
        rw [attach, own c q found, if_pos listed, Table.lookup_insert_self]
      · split
        · exact ih (fun c mem => cited c (List.mem_cons_of_mem _ mem)) later
        · refine ih (fun c mem => ?_) later
          rw [attach_payload]
          exact cited c (List.mem_cons_of_mem _ mem)

/-- A delegation with everything attached that it cites and that is known. -/
def restore (known : Table Cid Delegation) (d : Delegation) : Delegation :=
  (d.payload.proofs.filterMap fun c => known.lookup c).foldl attach d.bare

theorem bare_restore (known : Table Cid Delegation) (d : Delegation) :
    (restore known d).bare = d.bare :=
  bare_attachAll _ _

@[simp] theorem restore_cid (known : Table Cid Delegation) (d : Delegation) :
    (restore known d).cid = d.cid := by
  change (restore known d).bare.cid = d.bare.cid
  rw [bare_restore]

@[simp] theorem restore_bytes (known : Table Cid Delegation) (d : Delegation) :
    (restore known d).bytes = d.bytes := by
  change (restore known d).bare.bytes = d.bare.bytes
  rw [bare_restore]

/-- Reading the encoding of an intact delegation restores it from what is known. -/
theorem readBlocks_cons (intact : d.Intact) {bare : Delegation} (decodes : ofBytes d.bytes = .ok bare)
    (known : Table Cid Delegation) (last : Option Delegation) (rest : List Bytes) :
    readBlocks known last (d.bytes :: rest) =
      readBlocks (Table.insert d.cid (restore known d) known) (some (restore known d)) rest := by
  obtain rfl := intact.content bare decodes
  simp only [readBlocks, decodes]
  change readBlocks (Table.insert (restore known d).cid (restore known d) known)
    (some (restore known d)) rest = _
  rw [restore_cid]

/-- Encodings that can be read are read one after the other. -/
theorem exists_readBlocks_append {blocks : List Bytes}
    (decodes : ∀ b ∈ blocks, ∃ bare, ofBytes b = .ok bare) (known : Table Cid Delegation)
    (last : Option Delegation) :
    ∃ known' last', ∀ rest, readBlocks known last (blocks ++ rest) = readBlocks known' last' rest := by
  induction blocks generalizing known last with
  | nil => exact ⟨known, last, fun _ => rfl⟩
  | cons b blocks ih =>
      obtain ⟨bare, read⟩ := decodes b List.mem_cons_self
      obtain ⟨known', last', further⟩ :=
        ih (fun b mem => decodes b (List.mem_cons_of_mem _ mem)) _ _
      refine ⟨known', last', fun rest => ?_⟩
      rw [List.cons_append, readBlocks]
      simp only [read]
      exact further rest

/-! ## Copies at one address -/

theorem sizeOfBlocks_congr {bs cs : List (Cid × Delegation)} (same : bs.map (·.1) = cs.map (·.1))
    (each : ∀ c p q, (c, p) ∈ bs → (c, q) ∈ cs → p.size = q.size) :
    sizeOfBlocks bs = sizeOfBlocks cs := by
  induction bs generalizing cs with
  | nil =>
      obtain rfl : cs = [] := List.map_eq_nil_iff.mp same.symm
      rfl
  | cons b bs ih =>
      cases cs with
      | nil => cases same
      | cons c cs =>
          obtain ⟨k, p⟩ := b
          obtain ⟨l, q⟩ := c
          obtain ⟨rfl, rest⟩ := List.cons.inj same
          rw [sizeOfBlocks, sizeOfBlocks, each k p q List.mem_cons_self List.mem_cons_self,
            ih rest fun c p q hp hq =>
              each c p q (List.mem_cons_of_mem _ hp) (List.mem_cons_of_mem _ hq)]

/-- Coherent copies have the same size, so none of them is a part of another. -/
theorem Coherent.size_eq (coherent : root.Coherent) (intact : root.Hereditary Intact)
    {e e' : Delegation} (he : e ∈ root.nested) (he' : e' ∈ root.nested) (same : e.cid = e'.cid) :
    e.size = e'.size := by
  induction h : e.size using Nat.strong_induction_on generalizing e e' with
  | _ n ih =>
      have addresses := coherent e he e' he' same
      have parts : sizeOfBlocks e.blocks = sizeOfBlocks e'.blocks := by
        refine sizeOfBlocks_congr addresses ?_
        intro c p q hp hq
        refine ih p.size (h ▸ size_lt_of_attached hp) (mem_nested_of_attached hp root he)
          (mem_nested_of_attached hq root he') ?_ rfl
        rw [(intact.of_mem_nested he).self.own c p hp, (intact.of_mem_nested he').self.own c q hq]
      obtain ⟨_, _, _, _, blocks⟩ := e
      obtain ⟨_, _, _, _, blocks'⟩ := e'
      rw [size] at h ⊢
      rw [← h, parts]

/-! ## Collecting and reading again -/

/-- What holds of the known copies of the parts of a delegation: each stands at its address, has the bytes
of the part, and has what is attached to the part attached, as it is known. -/
structure Restored (root : Delegation) (known : Table Cid Delegation) : Prop where
  own : ∀ c p, known.lookup c = some p → p.cid = c
  bytes : ∀ p e, e ∈ root.nested → known.lookup e.cid = some p → p.bytes = e.bytes
  attached : ∀ p e, e ∈ root.nested → known.lookup e.cid = some p → ∀ c ∈ e.addresses,
    ∃ q, known.lookup c = some q ∧ p.blocks.lookup c = some q

/-- How far a walk through a delegation has come: what is known and was read last, if what was collected is
read again. -/
structure Progress (root : Delegation) (seen : List Cid) (collected : List Bytes)
    (known : Table Cid Delegation) (last : Option Delegation) : Prop where
  reads : ∀ rest, readBlocks [] none (collected ++ rest) = readBlocks known last rest
  seen : ∀ c p, known.lookup c = some p → c ∈ seen
  restored : Restored root known

/-- Whether a part is entered and not left: what is attached to it is being walked through. -/
def Entered (seen : List Cid) (known : Table Cid Delegation) (c : Cid) : Prop :=
  c ∈ seen ∧ known.lookup c = none

/-- Whether all parts that are entered are larger than a given delegation. -/
def Within (root : Delegation) (seen : List Cid) (known : Table Cid Delegation) (d : Delegation) : Prop :=
  ∀ e ∈ root.nested, Entered seen known e.cid → d.size < e.size

/-- What a walk through a part keeps: all that is known, and which parts are entered. -/
structure Advance (seen : List Cid) (known : Table Cid Delegation) (seen' : List Cid)
    (known' : Table Cid Delegation) : Prop where
  kept : ∀ c p, known.lookup c = some p → known'.lookup c = some p
  entered : ∀ c, Entered seen' known' c ↔ Entered seen known c

/-- The walk through a delegation comes to know it. -/
def Visits (root d : Delegation) : Prop :=
  ∀ seen collected known last, Progress root seen collected known last → Within root seen known d →
    ∃ known' last',
      Progress root (collect d (seen, collected)).1 (collect d (seen, collected)).2 known' last' ∧
      Advance seen known (collect d (seen, collected)).1 known' ∧
      (∃ p, known'.lookup d.cid = some p) ∧
      (d.cid ∉ seen → known'.lookup d.cid = last')

theorem Advance.refl (seen : List Cid) (known : Table Cid Delegation) :
    Advance seen known seen known :=
  ⟨fun _ _ => id, fun _ => Iff.rfl⟩

theorem Advance.trans {seen' seen'' : List Cid} {known' known'' : Table Cid Delegation}
    (h : Advance seen known seen' known') (h' : Advance seen' known' seen'' known'') :
    Advance seen known seen'' known'' :=
  ⟨fun c p found => h'.kept c p (h.kept c p found),
    fun c => (h'.entered c).trans (h.entered c)⟩

/-- One attachment after the other comes to be known. -/
theorem visits_all {blocks : List (Cid × Delegation)}
    (visits : ∀ c p, (c, p) ∈ blocks → Visits root p)
    (progress : Progress root seen collected known last)
    (within : ∀ c p, (c, p) ∈ blocks → Within root seen known p) :
    ∃ known' last', Progress root (collectAll blocks (seen, collected)).1
        (collectAll blocks (seen, collected)).2 known' last' ∧
      Advance seen known (collectAll blocks (seen, collected)).1 known' ∧
      ∀ c p, (c, p) ∈ blocks → ∃ q, known'.lookup p.cid = some q := by
  induction blocks generalizing seen collected known last with
  | nil => exact ⟨known, last, progress, .refl seen known, by simp⟩
  | cons block rest ih =>
      obtain ⟨k, d⟩ := block
      obtain ⟨known₁, last₁, progress₁, advance₁, ⟨p, found⟩, -⟩ :=
        visits k d List.mem_cons_self seen collected known last progress
          (within k d List.mem_cons_self)
      have within₁ : ∀ c p, (c, p) ∈ rest →
          Within root (collect d (seen, collected)).1 known₁ p := by
        intro c p mem e he entered
        exact within c p (List.mem_cons_of_mem _ mem) e he ((advance₁.entered e.cid).mp entered)
      obtain ⟨known₂, last₂, progress₂, advance₂, all⟩ :=
        ih (fun c p mem => visits c p (List.mem_cons_of_mem _ mem)) progress₁ within₁
      rw [collectAll]
      refine ⟨known₂, last₂, progress₂, advance₁.trans advance₂, ?_⟩
      intro c q mem
      rcases List.mem_cons.mp mem with same | later
      · cases same
        exact ⟨p, advance₂.kept _ p found⟩
      · exact all c q later

/-- A part becomes known once all that is attached to it is. -/
theorem Restored.insert (restored : Restored root known) (unknown : known.lookup d.cid = none)
    (coherent : root.Coherent) (consistent : root.Consistent) (mem : d ∈ root.nested)
    (intact : d.Intact) (all : ∀ c ∈ d.addresses, ∃ q, known.lookup c = some q) :
    Restored root (Table.insert d.cid (restore known d) known) := by
  have other : ∀ {c p}, known.lookup c = some p → c ≠ d.cid := by
    rintro c p found rfl
    rw [unknown] at found
    cases found
  have stays : ∀ {c p}, known.lookup c = some p →
      (Table.insert d.cid (restore known d) known).lookup c = some p := by
    intro c p found
    rw [Table.lookup_insert_of_ne _ _ (other found), found]
  refine ⟨?_, ?_, ?_⟩
  · intro c p found
    by_cases same : c = d.cid
    · rw [same, Table.lookup_insert_self] at found
      rw [← Option.some.inj found, restore_cid, same]
    · rw [Table.lookup_insert_of_ne _ _ same] at found
      exact restored.own c p found
  · intro p e he found
    by_cases same : e.cid = d.cid
    · rw [same, Table.lookup_insert_self] at found
      rw [← Option.some.inj found, restore_bytes, consistent e he d mem same]
    · rw [Table.lookup_insert_of_ne _ _ same] at found
      exact restored.bytes p e he found
  · intro p e he found c hc
    by_cases same : e.cid = d.cid
    · rw [same, Table.lookup_insert_self] at found
      rw [coherent e he d mem same] at hc
      obtain ⟨q, known⟩ := all c hc
      obtain ⟨⟨_, block⟩, attached, rfl⟩ := List.mem_map.mp hc
      refine ⟨q, stays known, ?_⟩
      rw [← Option.some.inj found]
      exact lookup_attachAll restored.own (fun _ => id) (intact.cited _ _ attached) known
    · rw [Table.lookup_insert_of_ne _ _ same] at found
      obtain ⟨q, known, attached⟩ := restored.attached p e he found c hc
      exact ⟨q, stays known, attached⟩

theorem entered_cons (unknown : known.lookup d.cid = none) (c : Cid) :
    Entered (d.cid :: seen) known c ↔ c = d.cid ∨ Entered seen known c := by
  rw [Entered, List.mem_cons, or_and_right]
  refine or_congr_left (and_iff_left_of_imp ?_)
  rintro rfl
  exact unknown

/-- A part that is entered is not read yet. -/
theorem Progress.enter (progress : Progress root seen collected known last) (c : Cid) :
    Progress root (c :: seen) collected known last :=
  ⟨progress.reads, fun k p found => List.mem_cons_of_mem _ (progress.seen k p found),
    progress.restored⟩

/-- The attachments of a part lie within it, and within all that is entered around it. -/
theorem Within.attached (within : Within root seen known d) (unknown : known.lookup d.cid = none)
    (coherent : root.Coherent) (intact : root.Hereditary Intact) (mem : d ∈ root.nested) {c : Cid}
    {p : Delegation} (attached : (c, p) ∈ d.blocks) : Within root (d.cid :: seen) known p := by
  intro e he entered
  rcases (entered_cons unknown e.cid).mp entered with same | earlier
  · rw [coherent.size_eq intact he mem same]
    exact size_lt_of_attached attached
  · exact (size_lt_of_attached attached).trans (within e he earlier)

/-- A part that is left is written, and would be read. -/
theorem Progress.leave (progress : Progress root seen collected known last)
    (entered : Entered seen known d.cid) (coherent : root.Coherent) (consistent : root.Consistent)
    (decodes : root.Decodes) (mem : d ∈ root.nested) (intact : d.Intact)
    (all : ∀ c ∈ d.addresses, ∃ q, known.lookup c = some q) :
    Progress root seen (collected ++ [d.bytes]) (Table.insert d.cid (restore known d) known)
      (some (restore known d)) where
  reads rest := by
    obtain ⟨bare, read⟩ := decodes d mem
    rw [List.append_assoc, progress.reads, List.singleton_append, readBlocks_cons intact read]
  seen c p found := by
    by_cases same : c = d.cid
    · rw [same]
      exact entered.1
    · rw [Table.lookup_insert_of_ne _ _ same] at found
      exact progress.seen c p found
  restored := progress.restored.insert entered.2 coherent consistent mem intact all

/-- Entering a part and leaving it with its attachments known is a walk through it. -/
theorem Advance.leave {seen' : List Cid} {known' : Table Cid Delegation} {c : Cid}
    (advance : Advance (c :: seen) known seen' known') (fresh : c ∉ seen)
    (unknown : known.lookup c = none) (p : Delegation) :
    Advance seen known seen' (Table.insert c p known') where
  kept k q found := by
    have other : k ≠ c := by
      rintro rfl
      rw [unknown] at found
      cases found
    rw [Table.lookup_insert_of_ne _ _ other, advance.kept k q found]
  entered k := by
    by_cases same : k = c
    · subst same
      refine iff_of_false ?_ fun entered => fresh entered.1
      rintro ⟨-, unknown⟩
      rw [Table.lookup_insert_self] at unknown
      cases unknown
    · have before := advance.entered k
      rw [Entered, Table.lookup_insert_of_ne _ _ same]
      refine before.trans ?_
      rw [Entered, Entered, List.mem_cons, or_iff_right same]

/-- Every part of a coherent delegation comes to be known. -/
theorem Coherent.visits (coherent : root.Coherent) (consistent : root.Consistent)
    (decodes : root.Decodes) (intact : root.Hereditary Intact) (mem : d ∈ root.nested) :
    Visits root d := by
  induction h : d.size using Nat.strong_induction_on generalizing d with
  | _ n ih =>
      intro seen collected known last progress within
      rw [collect_eq]
      by_cases begun : d.cid ∈ seen
      · rw [if_pos begun]
        cases found : known.lookup d.cid with
        | none => exact absurd (within d mem ⟨begun, found⟩) (Nat.lt_irrefl _)
        | some p =>
            exact ⟨known, last, progress, .refl seen known, ⟨p, found⟩, fun fresh => absurd begun fresh⟩
      · rw [if_neg begun]
        have unknown : known.lookup d.cid = none := by
          cases found : known.lookup d.cid with
          | none => rfl
          | some p => exact absurd (progress.seen _ p found) begun
        obtain ⟨known₁, last₁, progress₁, advance₁, all⟩ := visits_all
          (fun c p attached => ih p.size (h ▸ size_lt_of_attached attached)
            (mem_nested_of_attached attached root mem) rfl)
          (progress.enter d.cid)
          (fun c p attached => within.attached unknown coherent intact mem attached)
        have entered := (advance₁.entered d.cid).mpr ((entered_cons unknown d.cid).mpr (Or.inl rfl))
        have own := (intact.of_mem_nested mem).self
        have attachments : ∀ c ∈ d.addresses, ∃ q, known₁.lookup c = some q := by
          intro c hc
          obtain ⟨⟨_, p⟩, attached, rfl⟩ := List.mem_map.mp hc
          rw [← own.own _ p attached]
          exact all _ p attached
        exact ⟨_, _, progress₁.leave entered coherent consistent decodes mem own attachments,
          advance₁.leave begun unknown _, ⟨_, Table.lookup_insert_self _ _ _⟩,
          fun _ => Table.lookup_insert_self _ _ _⟩

/-- In a restored copy, the same is found as in the part that it is a copy of. -/
theorem Restored.follow (restored : Restored root known) (intact : root.Hereditary Intact)
    {e f p : Delegation} {path : List Cid} (mem : e ∈ root.nested)
    (copy : known.lookup e.cid = some p) (found : e.follow? path = some f) :
    ∃ f', p.follow? path = some f' ∧ f'.bytes = f.bytes := by
  induction path generalizing e p with
  | nil =>
      cases found
      exact ⟨p, rfl, restored.bytes p _ mem copy⟩
  | cons c path ih =>
      obtain ⟨q, attached, further⟩ := Option.bind_eq_some_iff.mp found
      have listed := Table.mem_of_lookup attached
      have cid : q.cid = c := (intact.of_mem_nested mem).self.own c q listed
      obtain ⟨q', known, attached'⟩ := restored.attached p e mem copy c
        (List.mem_map.mpr ⟨(c, q), listed, rfl⟩)
      obtain ⟨f', found', same⟩ :=
        ih (mem_nested_of_attached listed root mem) (cid ▸ known) further
      exact ⟨f', Option.bind_eq_some_iff.mpr ⟨q', attached', found'⟩, same⟩

/-- If all parts can be read, so can the archive, and its root is the delegation that it was made of. -/
theorem readBlocks_encodings (intact : d.Intact) (decodes : d.Decodes) :
    ∃ known, readBlocks [] none d.encodings = .ok (some (restore known d)) := by
  have each : ∀ b ∈ (collectAll d.blocks ([d.cid], [])).2, ∃ bare, ofBytes b = .ok bare := by
    intro b mem
    have among : b ∈ d.encodings := by
      rw [encodings_eq]
      exact List.mem_append_left _ mem
    obtain ⟨e, he, rfl⟩ := mem_encodings among
    exact decodes e he
  obtain ⟨bare, read⟩ := decodes d d.self_mem_nested
  obtain ⟨known, last, reads⟩ := exists_readBlocks_append each [] none
  refine ⟨known, ?_⟩
  rw [encodings_eq, reads, readBlocks_cons intact read]
  rfl

/-- If copies at one address agree on what is attached to them, the root of the archive is a restored copy of
the delegation. -/
theorem Coherent.exists_restored (coherent : d.Coherent) (consistent : d.Consistent)
    (decodes : d.Decodes) (intact : d.Hereditary Intact) {r : Delegation}
    (result : readBlocks [] none d.encodings = .ok (some r)) :
    ∃ known, Restored d known ∧ known.lookup d.cid = some r := by
  have start : Progress d [] [] [] none := ⟨fun _ => rfl, by simp, by simp, by simp, by simp⟩
  obtain ⟨known, last, progress, -, -, copy⟩ :=
    coherent.visits consistent decodes intact d.self_mem_nested [] [] [] none start
      (fun _ _ entered => absurd entered.1 List.not_mem_nil)
  have whole : readBlocks [] none (d.encodings ++ []) = .ok last := progress.reads []
  rw [List.append_nil] at whole
  have same : last = some r := Except.ok.inj (whole.symm.trans result)
  exact ⟨known, progress.restored, (copy List.not_mem_nil).trans same⟩

/-- An archive of a delegation is read as a delegation with the same bytes, in which the same is found along
each path of addresses as long as copies at one address agree on what is attached to them. -/
theorem ofArchive_toArchive (built : d.Built) (decodes : d.Decodes) (consistent : d.Consistent)
    (count : d.encodings.length < UInt64.size)
    (sizes : ∀ b ∈ d.encodings, b.length < UInt64.size) :
    ∃ archive r, d.toArchive = .ok archive ∧ ofArchive archive = .ok r ∧ r.bytes = d.bytes ∧
      (d.Coherent → ∀ path e, d.follow? path = some e →
        ∃ e', r.follow? path = some e' ∧ e'.bytes = e.bytes) := by
  have intact := built.intact
  obtain ⟨archive, written⟩ := exists_encode_of_bytes count sizes
  have made : d.toArchive = .ok archive := by
    rw [toArchive, written]
  obtain ⟨known, result⟩ := readBlocks_encodings intact.self decodes
  refine ⟨archive, restore known d, made, ofArchive_of_toArchive made result,
    restore_bytes known d, ?_⟩
  intro coherent path e found
  obtain ⟨known', restored, copy⟩ := coherent.exists_restored consistent decodes intact result
  exact restored.follow intact d.self_mem_nested copy found

end Mandate.Delegation

namespace Mandate

namespace Sample

/-- Makes a delegation of Alice's store that cites others, with an empty signature. -/
def cite (issuer audience : Did) (proofs : List Delegation.Proof) (nonce : Option String) :
    Except Delegation.Error Delegation :=
  Draft.sign ⟨some audience, [⟨"store/*", alice.toText, []⟩], proofs, none, none, [], nonce⟩
    ⟨issuer, fun _ => some []⟩

/-- Carol's delegation, with Bob's attached and Alice's to that, and the addresses that lead to Alice's. Bob's
is attached a second time further down, with Alice's or without it. -/
def twice (agree : Bool) : Except Delegation.Error (List Cid × Delegation) := do
  let alices ← cite alice bob [] none
  let bare ← cite bob carol [.link alices.cid] none
  let full ← cite bob carol [.inline alices] none
  let other ← cite bob carol [.inline (if agree then full else bare)] (some "3")
  let d ← cite carol service [.inline full, .inline other] none
  .ok ([full.cid, alices.cid], d)

theorem built_cite {issuer audience : Did} {proofs : List Delegation.Proof} {nonce : Option String}
    {d : Delegation} (h : cite issuer audience proofs nonce = .ok d)
    (inline : ∀ p, .inline p ∈ proofs → p.Built) : d.Built := by
  refine .signed ⟨?_, by simp⟩ inline h
  simp [Fields.Ordered, Table.Sorted]

theorem built_twice {agree : Bool} {path : List Cid} {d : Delegation}
    (h : twice agree = .ok (path, d)) : d.Built := by
  obtain ⟨alices, first, h⟩ := Context.bind_eq_ok_iff.mp h
  obtain ⟨bare, linked, h⟩ := Context.bind_eq_ok_iff.mp h
  obtain ⟨full, attached, h⟩ := Context.bind_eq_ok_iff.mp h
  obtain ⟨other, second, h⟩ := Context.bind_eq_ok_iff.mp h
  obtain ⟨whole, last, h⟩ := Context.bind_eq_ok_iff.mp h
  obtain ⟨rfl, rfl⟩ := Prod.mk.inj (Except.ok.inj h)
  have hAlices := built_cite first (by simp)
  have hBare := built_cite linked (by simp)
  have hFull := built_cite attached (by simpa using hAlices)
  have hOther : other.Built := by
    refine built_cite second ?_
    cases agree
    · simpa using hBare
    · simpa using hFull
  exact built_cite last (by simpa using ⟨hFull, hOther⟩)

end Sample

/-- What is attached twice with the same attachments is restored with them. -/
theorem Delegation.ofArchive_toArchive_twice :
    ∃ path d archive r e, Sample.twice true = .ok (path, d) ∧ d.toArchive = .ok archive ∧
      Delegation.ofArchive archive = .ok r ∧ r.bytes = d.bytes ∧
      d.nested.length = 6 ∧ d.encodings.length = 4 ∧ r.follow? path = some e := by
  have holds : (Sample.twice true).toOption.any (fun (path, d) =>
      decide (d.Decodes ∧ d.Consistent ∧ d.Coherent ∧ (∀ b ∈ d.encodings, b.length < UInt64.size) ∧
        d.nested.length = 6 ∧ d.encodings.length = 4 ∧ (d.follow? path).isSome)) = true := by
    decide +kernel
  obtain ⟨⟨path, d⟩, made, h⟩ := Sample.exists_of_any holds
  obtain ⟨decodes, consistent, coherent, sizes, nested, count, reached⟩ := of_decide_eq_true h
  obtain ⟨e, found⟩ := Option.isSome_iff_exists.mp reached
  obtain ⟨archive, r, written, read, bytes, same⟩ := Delegation.ofArchive_toArchive
    (Sample.built_twice made) decodes consistent (by rw [count]; decide) sizes
  obtain ⟨e', found', -⟩ := same coherent path e found
  exact ⟨path, d, archive, r, e', made, written, read, bytes, nested, count, found'⟩

/-- What is attached twice, the first time without its attachments, is restored without them. -/
theorem Delegation.ofArchive_toArchive_differ :
    ∃ path d archive r e, Sample.twice false = .ok (path, d) ∧ d.Built ∧ d.Decodes ∧ d.Consistent ∧
      d.toArchive = .ok archive ∧ Delegation.ofArchive archive = .ok r ∧
      d.follow? path = some e ∧ r.follow? path = none := by
  have holds : (Sample.twice false).toOption.any (fun (path, d) =>
      decide (d.Decodes ∧ d.Consistent ∧ (d.follow? path).isSome) &&
        d.toArchive.toOption.any fun archive =>
          (Delegation.ofArchive archive).toOption.any fun r => (r.follow? path).isNone) = true := by
    decide +kernel
  obtain ⟨⟨path, d⟩, made, h⟩ := Sample.exists_of_any holds
  obtain ⟨h, lost⟩ := Bool.and_eq_true_iff.mp h
  obtain ⟨decodes, consistent, reached⟩ := of_decide_eq_true h
  obtain ⟨e, found⟩ := Option.isSome_iff_exists.mp reached
  obtain ⟨archive, written, lost⟩ := Sample.exists_of_any lost
  obtain ⟨r, read, lost⟩ := Sample.exists_of_any lost
  exact ⟨path, d, archive, r, e, made, Sample.built_twice made, decodes, consistent, written, read,
    found, Option.isNone_iff_eq_none.mp lost⟩

end Mandate

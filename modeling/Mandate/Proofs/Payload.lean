import Mandate.Payload.Read
import Mandate.Proofs.Did
import Mandate.Proofs.Value

/-!
# Payloads are read back

A payload is written as a map of the parts that are there. Each part is read back under its name, and what
is absent is read as such, so a payload is read back from its written form unless some caveat or fact in
it has more levels than are left to the reader.
-/

namespace Mandate

open Cbor

/-- A part of a map: what is written, and what is read from it. -/
structure Part (ε : Type) where
  content : Ipld
  entry : Option ε

namespace Capability

/-- The caveats of a capability, if there are any, for a reader that has a number of levels left. -/
def caveatsPart (c : Capability) (depth : Nat) : List (String × Part Entry) :=
  if c.caveats.isEmpty then []
  else [("nb", ⟨.map c.caveats, if c.caveats.levels ≤ depth then some (.caveats c.caveats) else none⟩)]

/-- The parts of a capability under their names. -/
def parts (c : Capability) (depth : Nat) : List (String × Part Entry) :=
  [("can", ⟨.string c.ability, some (.ability c.ability)⟩)] ++ c.caveatsPart depth ++
    [("with", ⟨.string c.resource, some (.resource c.resource)⟩)]

theorem toIpld_eq_parts (c : Capability) (depth : Nat) :
    c.toIpld = .map ((c.parts depth).map fun e => (e.1, e.2.content)) := by
  simp only [toIpld, parts, caveatsPart]
  split <;> rfl

theorem reads_entry {c : Capability} (ordered : c.caveats.Ordered) {depth : Nat}
    {e : String × Part Entry} (mem : e ∈ c.parts depth) {b : Bytes}
    (h : encode? e.2.content = some b) : Reads (Entry.read? depth e.1) b e.2.entry := by
  simp only [parts, List.cons_append, List.nil_append, List.mem_cons, List.mem_append,
    List.not_mem_nil, or_false] at mem
  rcases mem with rfl | caveats | rfl
  · exact (reads_text h depth).map Entry.ability
  · rw [caveatsPart] at caveats
    split at caveats
    · cases caveats
    · obtain rfl := List.mem_singleton.mp caveats
      have read := (reads_fields ordered h depth).map Entry.caveats
      rw [apply_ite (Option.map Entry.caveats)] at read
      exact read
  · exact (reads_text h depth).map Entry.resource

/-- The caveats are written first, since their name is the shortest. -/
theorem arrange_parts (c : Capability) (depth : Nat) :
    arrange (c.parts depth) = c.caveatsPart depth ++
      [("can", ⟨.string c.ability, some (.ability c.ability)⟩),
        ("with", ⟨.string c.resource, some (.resource c.resource)⟩)] := by
  have first : Key.mk "nb" < Key.mk "can" := by decide
  have last : Key.mk "can" < Key.mk "with" := by decide
  have between : Key.mk "nb" < Key.mk "with" := by decide
  simp only [parts, caveatsPart, arrange, Table.ofList]
  split <;> simp [Table.insert, first, last, between, asymm last, asymm between]

/-- A capability is read back if its caveats are. -/
theorem reads_back {c : Capability} (ordered : c.caveats.Ordered) {b : Bytes}
    (h : encode? c.toIpld = some b) (depth : Nat) :
    Reads (read? (depth + 2)) b (if c.caveats.levels ≤ depth + 1 then some c else none) := by
  rw [toIpld_eq_parts c (depth + 1)] at h
  have distinct : ((c.parts (depth + 1)).map (·.1)).Nodup := by
    simp only [parts, caveatsPart]
    split <;> simp
  have read := Reads.readEntries Part.content (Entry.read? (depth + 1)) (fun _ part => part.entry) h
    distinct (fun e mem content written => reads_entry ordered mem written) (depth + 1)
  intro rest
  rw [read?, read rest, arrange_parts, caveatsPart]
  split
  case isTrue none =>
    have caveats : c.caveats = [] := List.isEmpty_iff.mp none
    have shallow : c.caveats.levels ≤ depth + 1 := by simp [caveats, Fields.levels, Ipld.levelsOfEntries]
    cases c
    cases caveats
    rw [if_pos shallow]
    rfl
  case isFalse =>
    by_cases shallow : c.caveats.levels ≤ depth + 1
    · simp only [if_pos shallow]
      rfl
    · simp only [if_neg shallow]
      rfl

end Capability

/-- Whether a payload has no more levels than a reader that enters some more than it needs itself. -/
def Payload.Fits (p : Payload) (depth : Nat) : Prop :=
  (∀ c ∈ p.capabilities, c.caveats.levels ≤ depth + 1) ∧ ∀ f ∈ p.facts, Fields.levels f ≤ depth + 2

instance (p : Payload) (depth : Nat) : Decidable (p.Fits depth) :=
  inferInstanceAs (Decidable (_ ∧ _))

/-- All maps in the caveats and facts of a payload are in order. -/
structure Payload.Ordered (p : Payload) : Prop where
  capabilities : ∀ c ∈ p.capabilities, c.caveats.Ordered
  facts : ∀ f ∈ p.facts, f.Ordered

namespace Payload

variable {p : Payload} {depth : Nat}

/-- A part that may be absent. -/
def optionalPart {α : Type} (name : String) (content : α → Ipld) (entry : Option α → Entry) :
    Option α → List (String × Part Entry)
  | some a => [(name, ⟨content a, some (entry (some a))⟩)]
  | none => []

/-- The capabilities, for a reader that has a number of levels left for the caveats. -/
def capabilitiesPart (p : Payload) (depth : Nat) : Part Entry where
  content := .list (p.capabilities.map Capability.toIpld)
  entry := if ∀ c ∈ p.capabilities, c.caveats.levels ≤ depth then some (.capabilities p.capabilities)
    else none

def factsPart (p : Payload) (depth : Nat) : List (String × Part Entry) :=
  if p.facts.isEmpty then []
  else [("fct", ⟨.list (p.facts.map .map),
    if ∀ f ∈ p.facts, Fields.levels f ≤ depth then some (.facts p.facts) else none⟩)]

/-- The parts of a payload under their names. -/
def parts (p : Payload) (depth : Nat) : List (String × Part Entry) :=
  [("att", p.capabilitiesPart (depth + 1)),
    ("aud", ⟨.string p.audience.toText, some (.audience p.audience)⟩)] ++
  optionalPart "exp" timeToIpld .expiration p.expiration ++
  p.factsPart (depth + 2) ++
  [("iss", ⟨.string p.issuer.toText, some (.issuer p.issuer)⟩)] ++
  optionalPart "nbf" timeToIpld .notBefore p.notBefore ++
  optionalPart "nnc" .string .nonce p.nonce ++
  [("prf", ⟨.list (p.proofs.map .link), some (.proofs p.proofs)⟩)]

theorem toIpld_eq_parts (p : Payload) (depth : Nat) :
    p.toIpld = .map ((p.parts depth).map fun e => (e.1, e.2.content)) := by
  have optional : ∀ {α : Type} (name : String) (content : α → Ipld) (entry : Option α → Entry)
      (o : Option α), optionalEntry name content o =
        (optionalPart name content entry o).map fun e => (e.1, e.2.content) := by
    intro α name content entry o
    cases o <;> rfl
  have facts : (if p.facts.isEmpty then [] else [("fct", Ipld.list (p.facts.map .map))]) =
      (p.factsPart (depth + 2)).map fun e => (e.1, e.2.content) := by
    rw [factsPart]
    split <;> rfl
  simp only [toIpld, parts, List.map_append, facts, optional "exp" timeToIpld .expiration,
    optional "nbf" timeToIpld .notBefore, optional "nnc" Ipld.string .nonce]
  rfl

/-- The parts are written in the order of their names. -/
theorem names_pairwise (p : Payload) (depth : Nat) :
    ((p.parts depth).map (·.1)).Pairwise fun a b => Key.mk a < Key.mk b := by
  have optional : ∀ {α : Type} (name : String) (content : α → Ipld) (entry : Option α → Entry)
      (o : Option α), ((optionalPart name content entry o).map (·.1)).Sublist [name] := by
    intro α name content entry o
    cases o <;> simp [optionalPart]
  have facts : ((p.factsPart (depth + 2)).map (·.1)).Sublist ["fct"] := by
    rw [factsPart]
    split <;> simp
  have names : ((p.parts depth).map (·.1)).Sublist
      (["att", "aud"] ++ ["exp"] ++ ["fct"] ++ ["iss"] ++ ["nbf"] ++ ["nnc"] ++ ["prf"]) := by
    simp only [parts, List.map_append]
    exact ((((((List.Sublist.refl _).append (optional _ _ _ _)).append facts).append
      (.refl _)).append (optional _ _ _ _)).append (optional _ _ _ _)).append (.refl _)
  refine List.Pairwise.sublist names ?_
  decide

theorem reads_did {d : Did} {b : Bytes} (h : Cbor.encode? (.string d.toText) = some b) (depth : Nat) :
    Reads (Did.read? depth) b (some d) := by
  intro rest
  have parsed : Did.parse d.toText = .ok d := Did.parse_eq_ok_iff.mpr rfl
  rw [Cbor.encode?] at h
  simp [Did.read?, reads_text h depth rest, parsed]

theorem reads_time {t : Timestamp} {b : Bytes} (h : Cbor.encode? (timeToIpld t) = some b) (depth : Nat) :
    Reads (Timestamp.read? depth) b (some t) := by
  intro rest
  rw [timeToIpld, Cbor.encode?, encodeInteger?, if_pos (Int.natCast_nonneg _), Int.toNat_natCast] at h
  simp [Timestamp.read?, reads_head h rest]

/-- A part that may be absent is read back when it is there. -/
theorem reads_optionalPart {α : Type} {name : String} {content : α → Ipld}
    {entry : Option α → Entry} {o : Option α} {e : String × Part Entry}
    (mem : e ∈ optionalPart name content entry o) {b : Bytes}
    (h : Cbor.encode? e.2.content = some b) {read : Nat → Bytes → Option (α × Bytes)} {depth : Nat}
    (reads : ∀ a, Cbor.encode? (content a) = some b → Reads (read depth) b (some a))
    (other : ∀ a, kindOf (content a) ≠ .simple) :
    e.1 = name ∧ Reads (fun b => (readOptional? read (depth + 1) b).map fun (a, b) => (entry a, b)) b
      e.2.entry := by
  cases o with
  | none => cases mem
  | some a =>
      obtain rfl := List.mem_singleton.mp mem
      exact ⟨rfl, (Reads.readOptional h (other a) (reads a h)).map entry⟩

theorem reads_capabilities (ordered : p.Ordered) {b : Bytes}
    (h : Cbor.encode? (p.capabilitiesPart (depth + 1)).content = some b) :
    Reads (fun b => (readList? Capability.read? (depth + 3) b).map fun (cs, b) => (.capabilities cs, b)) b
      (p.capabilitiesPart (depth + 1)).entry := by
  have read := Reads.readList Capability.toIpld Capability.read?
    (fun c => if c.caveats.levels ≤ depth + 1 then some c else none) h (depth + 2)
    (fun c mem b written => Capability.reads_back (ordered.capabilities c mem) written depth)
  rw [mapM_guard fun c : Capability => c.caveats.levels ≤ depth + 1] at read
  have entry := read.map Entry.capabilities
  rw [apply_ite (Option.map Entry.capabilities)] at entry
  exact entry

theorem reads_facts (ordered : p.Ordered) {e : String × Part Entry}
    (mem : e ∈ p.factsPart (depth + 2)) {b : Bytes} (h : Cbor.encode? e.2.content = some b) :
    e.1 = "fct" ∧ Reads (fun b => (readList? readFields? (depth + 3) b).map fun (fs, b) => (.facts fs, b)) b
      e.2.entry := by
  rw [factsPart] at mem
  split at mem
  · cases mem
  · obtain rfl := List.mem_singleton.mp mem
    have read := Reads.readList Ipld.map readFields?
      (fun f => if Fields.levels f ≤ depth + 2 then some f else none) h (depth + 2)
      (fun f mem b written => reads_fields (ordered.facts f mem) written (depth + 2))
    rw [mapM_guard fun f => Fields.levels f ≤ depth + 2] at read
    have entry := read.map Entry.facts
    rw [apply_ite (Option.map Entry.facts)] at entry
    exact ⟨rfl, entry⟩

theorem reads_proofs {b : Bytes} (h : Cbor.encode? (.list (p.proofs.map .link)) = some b) :
    Reads (readList? readLink? (depth + 1)) b (some p.proofs) := by
  have read := Reads.readList Ipld.link readLink? some h depth
    (fun c _ b written => reads_link (by rwa [Cbor.encode?] at written) depth)
  have all : p.proofs.mapM some = some p.proofs := by simpa using mapM_guard (fun _ => True) p.proofs
  rw [all] at read
  exact read

/-- Each part is read under its name. -/
theorem reads_entry (ordered : p.Ordered) {e : String × Part Entry} (mem : e ∈ p.parts depth)
    {b : Bytes} (h : Cbor.encode? e.2.content = some b) :
    Reads (Entry.read? (depth + 3) e.1) b e.2.entry := by
  simp only [parts, List.mem_append, List.mem_cons, List.not_mem_nil, or_false] at mem
  rcases mem with ((((((rfl | rfl) | expiration) | facts) | rfl) | notBefore) | nonce) | rfl
  · exact reads_capabilities ordered h
  · exact (reads_did h (depth + 3)).map Entry.audience
  · obtain ⟨name, read⟩ := reads_optionalPart expiration h
      (fun t written => reads_time written (depth + 2)) (by simp [timeToIpld, kindOf])
    rw [name]
    exact read
  · obtain ⟨name, read⟩ := reads_facts ordered facts h
    rw [name]
    exact read
  · exact (reads_did h (depth + 3)).map Entry.issuer
  · obtain ⟨name, read⟩ := reads_optionalPart notBefore h
      (fun t written => reads_time written (depth + 2)) (by simp [timeToIpld, kindOf])
    rw [name]
    exact read
  · obtain ⟨name, read⟩ := reads_optionalPart nonce h
      (fun s written => reads_text (by rwa [Cbor.encode?] at written) (depth + 2))
      (by simp [kindOf])
    rw [name]
    exact read
  · exact (reads_proofs h).map Entry.proofs

/-- The entries that are read, if all are. -/
def entries? (p : Payload) (depth : Nat) : Option (List (String × Entry)) :=
  (p.parts depth).mapM fun e => e.2.entry.map fun a => (e.1, a)

/-- The parts of a payload that fits make up the payload again. -/
theorem ofEntries?_entries? (fits : p.Fits depth) :
    (p.entries? depth).bind (fun entries => ofEntries? (entries.map (·.2))) = some p := by
  obtain ⟨capabilities, facts⟩ := fits
  obtain ⟨issuer, audience, cs, proofs, expiration, notBefore, fs, nonce⟩ := p
  simp only [entries?, parts, capabilitiesPart, factsPart, if_pos capabilities, if_pos facts]
  cases expiration <;> cases notBefore <;> cases fs <;> cases nonce <;> rfl

/-- Of a payload that does not fit, a part is not read. -/
theorem entries?_eq_none (exceeds : ¬ p.Fits depth) : p.entries? depth = none := by
  by_cases capabilities : ∀ c ∈ p.capabilities, c.caveats.levels ≤ depth + 1
  · have facts : ¬ ∀ f ∈ p.facts, Fields.levels f ≤ depth + 2 := fun facts =>
      exceeds ⟨capabilities, facts⟩
    have given : ¬ p.facts.isEmpty = true := by
      intro none
      simp [List.isEmpty_iff.mp none] at facts
    have mem : ("fct", Part.mk (.list (p.facts.map .map)) none) ∈ p.parts depth := by
      simp [parts, factsPart, given, facts]
    exact mapM_eq_none mem rfl
  · have mem : ("att", p.capabilitiesPart (depth + 1)) ∈ p.parts depth := by
      simp [parts]
    refine mapM_eq_none mem ?_
    simp only [capabilitiesPart, if_neg capabilities]
    rfl

/-- A payload is read back from its written form by a reader for which it fits, and by no other. -/
theorem reads_back (ordered : p.Ordered) {b : Bytes} (h : p.encode? = some b) (depth : Nat) :
    Reads (read? (depth + 4)) b (if p.Fits depth then some p else none) := by
  rw [encode?, toIpld_eq_parts p depth] at h
  have names := names_pairwise p depth
  have distinct : ((p.parts depth).map (·.1)).Nodup := by
    refine List.Pairwise.imp ?_ names
    rintro k _ less rfl
    exact irrefl _ less
  have read := Reads.readEntries Part.content (Entry.read? (depth + 3)) (fun _ part => part.entry) h
    distinct (fun e mem content written => reads_entry ordered mem written) (depth + 3)
  rw [arrange_eq_self names] at read
  intro rest
  have entries : readEntries? (Entry.read? (depth + 3)) (depth + 3) (b ++ rest) =
      (p.entries? depth).map (·, rest) := read rest
  rw [read?, entries]
  split
  case isTrue fits =>
    obtain ⟨entries, all, made⟩ := Option.bind_eq_some_iff.mp (ofEntries?_entries? fits)
    simp [all, made]
  case isFalse exceeds =>
    rw [entries?_eq_none exceeds]
    rfl

end Payload

end Mandate

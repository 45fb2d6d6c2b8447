/-
# Zones and configurations of dnsd

Loading of the configuration file and of the zone files, and lookup in a zone (zone.cpp and
config.cpp of `Homework/2/dnsd`).  A load is `none` when the program exits, dies of an exception
or reads a variable that no conversion has set.  A zone carries what the loader guarantees.

* `Zone.load`, `Config.load` : the loaders, from the texts of the files;
* `Zone.get`, `Zone.getApex`, `Zone.getIP` : the lookups;
* `Keyed` : the invariant of the records of a zone, with `keyed_add` and `keyed_of_foldlM`;
* `Zone.get_of_nip`, `Zone.get_of_key`, `Zone.get_of_unknown` : what a lookup in a zone finds;
* `Zone.lookup_keyed`, `Zone.get_eq_ok` : where records that are found come from.
-/
import IntroNP.DnsRecord
import IntroNP.Tables
import IntroNP.Programs

namespace Dnsd

/-! ## Loading a zone -/

/-- What a line of a zone file is scanned into. -/
structure Fields where
  name : Bytes
  ttl : UInt32
  clas : Bytes
  type : Bytes
  rdata : Bytes
  deriving DecidableEq

/-- A line without the carriage return at its end. -/
def chomp (line : Bytes) : Bytes :=
  if line.getLast? = some (ch '\r') then line.dropLast else line

/-- The scan of a line with `" %255[^,],%d,%4[^,],%9[^,],%511[^\r\n]"`. -/
def scanLine (line : Bytes) : Option Fields := do
  let (name, s) ← scanSet 255 (· ≠ ch ',') (skipSpace (cstr line))
  let (ttl, s) ← scanInt (← scanLit (ch ',') s)
  let (clas, s) ← scanSet 4 (· ≠ ch ',') (← scanLit (ch ',') s)
  let (type, s) ← scanSet 9 (· ≠ ch ',') (← scanLit (ch ',') s)
  let (rdata, _) ← scanSet 511 (fun b => b ≠ ch '\r' ∧ b ≠ ch '\n') (← scanLit (ch ',') s)
  return ⟨name, ttl, clas, type, rdata⟩

/-- The records of a zone. -/
abbrev Records := Table Key (List Record)

/-- `Zone::add`. -/
def Zone.add (domain : DN) (rrs : Records) (rr : Record) : Option Records :=
  if within rr.domain domain then
    some (rrs.insert rr.key ((rrs.lookup rr.key).getD [] ++ [rr]))
  else none

/-- One turn of the loop of the constructor of `Zone`. -/
def Zone.addLine (domain : DN) (rrs : Records) (line : Bytes) : Option Records := do
  let f ← scanLine (chomp line)
  let rr ← (Record.new (domain ++ s2dn f.name) (v2type f.type) (v2clas f.clas) f.ttl f.rdata).toOption
  Zone.add domain rrs rr

/-- Under each key there are records, they have that key, they lie in the zone, and the text of
their data has the length of a line's field. -/
def Keyed (domain : DN) (rrs : Records) : Prop :=
  ∀ k rs, rrs.lookup k = some rs →
    rs ≠ [] ∧ ∀ r ∈ rs, r.key = k ∧ within r.domain domain ∧ r.data.length ≤ 511

theorem length_scanSet {n : ℕ} {p : UInt8 → Bool} {s t r : Bytes}
    (h : scanSet n p s = some (t, r)) : t.length ≤ n := by
  dsimp only [scanSet] at h
  split_ifs at h
  cases h
  exact List.length_take_le _ _

theorem length_scanLine {line : Bytes} {f : Fields} (h : scanLine line = some f) :
    f.rdata.length ≤ 511 := by
  simp only [scanLine, Option.bind_eq_bind, Option.bind_eq_some_iff, Option.pure_def,
    Option.some.injEq, Prod.exists] at h
  obtain ⟨_, _, -, _, -, _, _, -, _, -, _, _, -, _, -, _, _, -, _, -, _, _, hrdata, rfl⟩ := h
  exact length_scanSet hrdata

/-- Adding a record keeps the invariant. -/
theorem keyed_add {domain : DN} {rrs rrs' : Records} {rr : Record} (h : Keyed domain rrs)
    (hadd : Zone.add domain rrs rr = some rrs') (hlen : rr.data.length ≤ 511) :
    Keyed domain rrs' := by
  unfold Zone.add at hadd
  split_ifs at hadd with hwithin
  cases hadd
  intro k rs hk
  by_cases heq : k = rr.key
  · subst heq
    rw [AList.lookup_insert] at hk
    cases hk
    refine ⟨by simp, fun r hr => ?_⟩
    rcases List.mem_append.mp hr with hr | hr
    · obtain ⟨old, hold, hr⟩ := Table.mem_getD_nil.mp hr
      exact (h _ _ hold).2 r hr
    · obtain rfl := List.mem_singleton.mp hr
      exact ⟨rfl, hwithin, hlen⟩
  · rw [AList.lookup_insert_ne heq] at hk
    exact h k rs hk

theorem keyed_addLine {domain : DN} {rrs rrs' : Records} {line : Bytes} (h : Keyed domain rrs)
    (hadd : Zone.addLine domain rrs line = some rrs') : Keyed domain rrs' := by
  obtain ⟨f, hf, hadd⟩ := Option.bind_eq_some_iff.mp hadd
  obtain ⟨rr, hrr, hadd⟩ := Option.bind_eq_some_iff.mp hadd
  apply keyed_add h hadd
  cases hnew : Record.new (domain ++ s2dn f.name) (v2type f.type) (v2clas f.clas) f.ttl f.rdata with
  | error e =>
      rw [hnew] at hrr
      cases hrr
  | ok r =>
      rw [hnew] at hrr
      obtain rfl : r = rr := Option.some.inj hrr
      rw [(Record.new_eq_ok hnew).2.2]
      exact length_scanLine hf

/-- The lines of a file, read one after the other, leave the invariant. -/
theorem keyed_of_foldlM {domain : DN} {lines : List Bytes} {rrs : Records}
    (h : lines.foldlM (Zone.addLine domain) ∅ = some rrs) : Keyed domain rrs := by
  refine foldlM_induction (P := Keyed domain) (fun _ _ _ => keyed_addLine) ?_ h
  intro k rs hk
  simp at hk

/-- `Zone`; the loader has put every record under its key and has found the record SOA. -/
structure Zone where
  domain : DN
  rrs : Records
  keyed : Keyed domain rrs
  soa : (domain, TYPE.SOA, CLAS.IN) ∈ rrs

/-- The constructor of `Zone`, from the text of the zone file. -/
def Zone.load (domain : DN) (text : Bytes) : Option Zone :=
  let lines := pieces (ch '\n') text
  if s2dn (chomp (lines.headD [])) = domain then
    match h : lines.tail.foldlM (Zone.addLine domain) ∅ with
    | some rrs =>
        if hsoa : (domain, TYPE.SOA, CLAS.IN) ∈ rrs then some ⟨domain, rrs, keyed_of_foldlM h, hsoa⟩
        else none
    | none => none
  else none

/-- A file whose lines can all be added and that has a record SOA is loaded. -/
theorem Zone.load_eq_some {domain : DN} {text : Bytes} {rrs : Records}
    (hfirst : s2dn (chomp ((pieces (ch '\n') text).headD [])) = domain)
    (hfold : (pieces (ch '\n') text).tail.foldlM (Zone.addLine domain) ∅ = some rrs)
    (hsoa : (domain, TYPE.SOA, CLAS.IN) ∈ rrs) :
    Zone.load domain text = some ⟨domain, rrs, keyed_of_foldlM hfold, hsoa⟩ := by
  unfold Zone.load
  dsimp only
  rw [if_pos hfirst]
  split
  · next rrs' hfold' =>
      obtain rfl : rrs = rrs' := Option.some.inj (hfold.symm.trans hfold')
      rw [dif_pos hsoa]
  · next hnone =>
      rw [hfold] at hnone
      cases hnone

/-! ## Lookup in a zone -/

/-- `Zone::get` of a question. -/
def Zone.get (z : Zone) (q : Question) : Except Exn (List Record) :=
  if within q.domain z.domain then
    match niplike q.domain z.domain with
    | .error e => .error e
    | .ok (r :: rr) => .ok (r :: rr)
    | .ok [] =>
        if enumContains TYPE.entries q.type then
          match z.rrs.lookup q.key with
          | some rrs => .ok rrs
          | none => .error .nameError
        else .error .notImplemented
  else .error .serverFailure

/-- `Zone::get` of a type and a class: the records of the zone's own name. -/
def Zone.getApex (z : Zone) (type : TYPE) (clas : CLAS) : Except Exn (List Record) :=
  match z.rrs.lookup (z.domain, type, clas) with
  | some rrs => .ok rrs
  | none => .error .nameError

/-- `Zone::getIP`. -/
def Zone.getIP (z : Zone) (dn : DN) : List Record :=
  (z.rrs.lookup (dn, TYPE.A, CLAS.IN)).getD [] ++ (z.rrs.lookup (dn, TYPE.AAAA, CLAS.IN)).getD []

/-! ## Configurations -/

/-- The scan of the entries of a configuration file with `" %255[^,],%511s"`.  The fuel bounds
the number of entries. -/
def scanEntries : ℕ → Bytes → Option (List (Bytes × Bytes))
  | 0, _ => none
  | fuel + 1, s =>
      if skipSpace s = [] then some []
      else do
        let (domain, s) ← scanSet 255 (· ≠ ch ',') (skipSpace s)
        let (path, s) ← scanSet 511 (fun b => !isSpace b) (skipSpace (← scanLit (ch ',') s))
        let es ← scanEntries fuel s
        return (cstr domain, cstr path) :: es

/-- `zones.try_emplace` of an entry; `files` holds the text of the file at each path, which is
empty where there is no file. -/
def Config.addZone (files : Bytes → Bytes) (zones : Table DN Zone) (entry : Bytes × Bytes) :
    Option (Table DN Zone) :=
  let dn := s2dn entry.1
  if dn ∈ zones then some zones
  else (Zone.load dn (files entry.2)).map fun z => zones.insert dn z

/-- Every zone stands under its name. -/
def Under (zones : Table DN Zone) : Prop := ∀ dn z, zones.lookup dn = some z → z.domain = dn

theorem Zone.domain_of_load {domain : DN} {text : Bytes} {z : Zone}
    (h : Zone.load domain text = some z) : z.domain = domain := by
  dsimp only [Zone.load] at h
  split_ifs at h
  split at h
  · split_ifs at h
    cases h
    rfl
  · cases h

theorem under_addZone {files : Bytes → Bytes} {zones zones' : Table DN Zone}
    {entry : Bytes × Bytes} (h : Under zones)
    (hadd : Config.addZone files zones entry = some zones') : Under zones' := by
  dsimp only [Config.addZone] at hadd
  split_ifs at hadd with hmem
  · cases hadd
    exact h
  · obtain ⟨z, hz, rfl⟩ := Option.map_eq_some_iff.mp hadd
    intro dn z' hlook
    by_cases heq : dn = s2dn entry.1
    · subst heq
      rw [AList.lookup_insert] at hlook
      cases hlook
      exact Zone.domain_of_load hz
    · rw [AList.lookup_insert_ne heq] at hlook
      exact h dn z' hlook

theorem under_of_foldlM {files : Bytes → Bytes} {entries : List (Bytes × Bytes)}
    {zones : Table DN Zone} (h : entries.foldlM (Config.addZone files) ∅ = some zones) :
    Under zones := by
  refine foldlM_induction (P := Under) (fun _ _ _ => under_addZone) ?_ h
  intro dn z hz
  simp at hz

/-- `Config`. -/
structure Config where
  zones : Table DN Zone
  under : Under zones

/-- The constructor of `Config`, from the text of the configuration file, whose first word is the
address of the server to forward to. -/
def Config.load (files : Bytes → Bytes) (text : Bytes) : Option Config := do
  let (_, s) ← scanSet 19 (fun b => !isSpace b) (skipSpace text)
  let entries ← scanEntries (s.length + 1) s
  match h : entries.foldlM (Config.addZone files) ∅ with
  | some zones => some ⟨zones, under_of_foldlM h⟩
  | none => none

/-- A configuration with one zone, which has a record SOA and one address. -/
def bareConfig : Config :=
  (Config.load (fun _ => ascii "a.\n@,60,IN,SOA,m. r. 1 2 3 4 5\nw,60,IN,A,1.2.3.4\n")
    (ascii "8.8.8.8\na.,z\n")).get (by decide +kernel)

/-- Its zone. -/
def bare : Zone := (bareConfig.zones.lookup (s2dn (ascii "a."))).get (by decide +kernel)

/-! ## What is found -/

theorem Zone.lookup_keyed {z : Zone} {k : Key} {r : Record}
    (h : r ∈ (z.rrs.lookup k).getD []) :
    r.key = k ∧ within r.domain z.domain ∧ r.data.length ≤ 511 := by
  obtain ⟨rs, hlook, hr⟩ := Table.mem_getD_nil.mp h
  exact (z.keyed k rs hlook).2 r hr

section lookup

variable {z : Zone} {q : Question} (hq : within q.domain z.domain)
include hq

/-- The synthesised record is found before the records of the map. -/
theorem Zone.get_of_nip {rr : Record} (hnip : niplike q.domain z.domain = .ok [rr]) :
    z.get q = .ok [rr] := by
  rw [Zone.get, if_pos hq, hnip]

/-- Without one, a question of a type that the server knows finds what is under its key. -/
theorem Zone.get_of_key (hnip : niplike q.domain z.domain = .ok [])
    (htype : enumContains TYPE.entries q.type) :
    z.get q = match z.rrs.lookup q.key with
      | some rrs => .ok rrs
      | none => .error .nameError := by
  rw [Zone.get, if_pos hq, hnip]
  exact if_pos htype

theorem Zone.get_of_unknown (hnip : niplike q.domain z.domain = .ok [])
    (htype : ¬ enumContains TYPE.entries q.type) : z.get q = .error .notImplemented := by
  rw [Zone.get, if_pos hq, hnip]
  exact if_neg htype

end lookup

/-- A lookup that succeeds has found the synthesised record or the records under its key. -/
theorem Zone.get_eq_ok {z : Zone} {q : Question} {rrs : List Record} (h : z.get q = .ok rrs) :
    rrs ≠ [] ∧ (niplike q.domain z.domain = .ok rrs ∨
      (niplike q.domain z.domain = .ok [] ∧ z.rrs.lookup q.key = some rrs)) := by
  unfold Zone.get at h
  by_cases hwithin : within q.domain z.domain
  · rw [if_pos hwithin] at h
    split at h
    · cases h
    · next r rr hnip =>
        cases h
        exact ⟨List.cons_ne_nil r rr, Or.inl hnip⟩
    · next hnip =>
        by_cases htype : enumContains TYPE.entries q.type
        · rw [if_pos htype] at h
          split at h
          · next rs hlook =>
              cases h
              exact ⟨(z.keyed _ _ hlook).1, Or.inr ⟨hnip, hlook⟩⟩
          · cases h
        · rw [if_neg htype] at h
          cases h
  · rw [if_neg hwithin] at h
    cases h

end Dnsd

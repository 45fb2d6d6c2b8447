/-
# Name errors of dnsd

RCODE 3 says that a name does not exist.  A zone keeps its records in one map under name, type
and class, so that a lookup that finds nothing does not tell a name without records from a name
without records of the type that was asked for.

* `Zone.outcome`, `reply_outcome` : the RCODE and the answers of a reply, by what is looked up;
* `fileRecords`, `mem_load_iff` : the records of a zone file, and the keys of the zone;
* `NameErrorMeansNoName` : the property;
* `name_error_iff` : the questions whose reply has it.
-/
import IntroNP.DnsReply
import IntroNP.DnsSelection

namespace Dnsd

/-! ## The outcome of a question -/

/-- The lookup of the records NS of the zone, which `query` makes when it has found records for a
question about another type, does not throw. -/
def Zone.AuthorityFound (z : Zone) (type : TYPE) : Prop :=
  type = TYPE.NS ∨ (z.domain, TYPE.NS, CLAS.IN) ∈ z.rrs

instance (z : Zone) (type : TYPE) : Decidable (z.AuthorityFound type) :=
  inferInstanceAs (Decidable (_ ∨ _))

/-- The RCODE and the answers when records are found. -/
def Zone.found (z : Zone) (type : TYPE) (rrs : List Record) : BitVec 4 × List Record :=
  (if z.AuthorityFound type then 0 else 3, rrs)

/-- The RCODE and the answers of the reply to a question. -/
def Zone.outcome (z : Zone) (q : Question) : BitVec 4 × List Record :=
  match niplike q.domain z.domain with
  | .error _ => (1, [])
  | .ok (r :: rr) => z.found q.type (r :: rr)
  | .ok [] =>
      if enumContains TYPE.entries q.type then
        match z.rrs.lookup q.key with
        | some rrs => z.found q.type rrs
        | none => (3, [])
      else (4, [])

/-- The reply when the lookup has found records. -/
theorem reply_found {z : Zone} {q : Question} {rrs : List Record} (h : Header)
    (hget : z.get q = .ok rrs) :
    ((z.reply q h).RCODE, (z.reply q h).answer) = z.found q.type rrs := by
  by_cases htype : q.type = TYPE.NS
  · simp [Zone.reply, hget, Zone.found, Zone.AuthorityFound, htype]
  · have hmem := @AList.lookup_isSome _ _ _ (z.domain, TYPE.NS, CLAS.IN) z.rrs
    cases hns : z.rrs.lookup (z.domain, TYPE.NS, CLAS.IN) with
    | none =>
        rw [hns] at hmem
        have hnone : ¬ z.AuthorityFound q.type := by
          rintro (h | h)
          · exact htype h
          · exact absurd (hmem.mpr h) (by decide)
        simp [Zone.reply, hget, Zone.found, htype, hns, hnone]
    | some ns =>
        rw [hns] at hmem
        have hsome : z.AuthorityFound q.type := Or.inr (hmem.mp rfl)
        simp [Zone.reply, hget, Zone.found, htype, hns, hsome]

/-- The reply to a question has that outcome. -/
theorem reply_outcome {z : Zone} {q : Question} {h : Header} (hq : within q.domain z.domain)
    (hanswer : h.answer = []) :
    ((z.reply q h).RCODE, (z.reply q h).answer) = z.outcome q := by
  have hget : z.get q = _ := if_pos hq
  unfold Zone.outcome
  split
  · next e hnip =>
      rw [hnip] at hget
      obtain rfl := niplike_error hnip
      simp [Zone.reply, hget, hanswer]
  · next r rr hnip =>
      rw [hnip] at hget
      exact reply_found h hget
  · next hnip =>
      by_cases htype : enumContains TYPE.entries q.type
      · have hget := Zone.get_of_key hq hnip htype
        rw [if_pos htype]
        cases hlook : z.rrs.lookup q.key with
        | some rrs =>
            rw [hlook] at hget
            exact reply_found h hget
        | none =>
            rw [hlook] at hget
            simp [Zone.reply, hget, hanswer]
      · rw [if_neg htype]
        simp [Zone.reply, Zone.get_of_unknown hq hnip htype, hanswer]

/-- The RCODE when no address is written in the name. -/
theorem Zone.outcome_plain (z : Zone) {q : Question} (hnip : niplike q.domain z.domain = .ok [])
    (htype : enumContains TYPE.entries q.type) :
    (z.outcome q).1 = if q.key ∈ z.rrs ∧ z.AuthorityFound q.type then 0 else 3 := by
  have hmem := @AList.lookup_isSome _ _ _ q.key z.rrs
  rw [Zone.outcome, hnip]
  dsimp only
  rw [if_pos htype]
  cases hlook : z.rrs.lookup q.key with
  | none =>
      rw [hlook] at hmem
      have hnone : q.key ∉ z.rrs := fun h => absurd (hmem.mpr h) (by decide)
      rw [if_neg fun h => hnone h.1]
  | some rrs =>
      rw [hlook] at hmem
      simp [Zone.found, hmem.mp rfl]

/-! ## The records of a zone file -/

/-- The record that a line of a zone file gives. -/
def lineRecord (domain : DN) (line : Bytes) : Option Record := do
  let f ← scanLine (chomp line)
  (Record.new (domain ++ s2dn f.name) (v2type f.type) (v2clas f.clas) f.ttl f.rdata).toOption

/-- The records of a zone file, in its order. -/
def fileRecords (domain : DN) (text : Bytes) : List Record :=
  (pieces (ch '\n') text).tail.filterMap (lineRecord domain)

/-- A line that can be added gives a record, which then stands under its key. -/
theorem addLine_eq_some {domain : DN} {rrs rrs' : Records} {line : Bytes}
    (h : Zone.addLine domain rrs line = some rrs') : ∃ r, lineRecord domain line = some r ∧
      rrs' = rrs.insert r.key ((rrs.lookup r.key).getD [] ++ [r]) := by
  obtain ⟨f, hf, h⟩ := Option.bind_eq_some_iff.mp h
  obtain ⟨r, hr, h⟩ := Option.bind_eq_some_iff.mp h
  refine ⟨r, ?_, ?_⟩
  · rw [lineRecord, hf]
    exact hr
  · unfold Zone.add at h
    split_ifs at h
    exact (Option.some.inj h).symm

/-- The keys of the map after the lines of a file. -/
theorem mem_addLines_iff {domain : DN} {lines : List Bytes} {rrs rrs' : Records}
    (h : lines.foldlM (Zone.addLine domain) rrs = some rrs') (k : Key) :
    k ∈ rrs' ↔ k ∈ rrs ∨ ∃ r ∈ lines.filterMap (lineRecord domain), r.key = k := by
  induction lines generalizing rrs with
  | nil =>
      cases h
      simp
  | cons line lines ih =>
      rw [List.foldlM_cons] at h
      obtain ⟨rrs₁, hadd, hrest⟩ := Option.bind_eq_some_iff.mp h
      obtain ⟨r, hr, rfl⟩ := addLine_eq_some hadd
      rw [ih hrest, List.filterMap_cons_some hr, List.exists_mem_cons_iff, AList.mem_insert,
        or_comm (a := k = r.key), or_assoc, eq_comm (a := k)]

/-- A zone that has been loaded has the keys of the records of its file. -/
theorem mem_load_iff {domain : DN} {text : Bytes} {z : Zone} (h : Zone.load domain text = some z)
    (k : Key) : k ∈ z.rrs ↔ ∃ r ∈ fileRecords domain text, r.key = k := by
  dsimp only [Zone.load] at h
  split_ifs at h
  split at h
  · next rrs hfold =>
      split_ifs at h
      cases h
      rw [mem_addLines_iff hfold]
      simp [fileRecords]
  · cases h

/-! ## Names and name errors -/

/-- A reply to a question has RCODE 3 only if no record has the name of the question.  If records
have that name, but none has the type, the reply has RCODE 0 and no answers. -/
def NameErrorMeansNoName (records : List Record) (q : Question) (header : Header) : Prop :=
  (header.RCODE = 3 → ∀ r ∈ records, r.domain ≠ q.domain) ∧
    ((∃ r ∈ records, r.domain = q.domain) → (∀ r ∈ records, r.key ≠ q.key) →
      header.RCODE = 0 ∧ header.answer = [])

/-- The property of a header with a given outcome. -/
theorem nameError_outcome {z : Zone} {records : List Record} {q : Question} {header : Header}
    (hkeys : ∀ k, k ∈ z.rrs ↔ ∃ r ∈ records, r.key = k) (htype : enumContains TYPE.entries q.type)
    (houtcome : (header.RCODE, header.answer) = z.outcome q) :
    NameErrorMeansNoName records q header ↔ (∀ r ∈ records, r.domain ≠ q.domain) ∨
      ((∃ r ∈ records, r.key = q.key) ∧
        (niplike q.domain z.domain = .error .formatError ∨ z.AuthorityFound q.type)) := by
  have hnone : (∀ r ∈ records, r.key ≠ q.key) ↔ ¬ q.key ∈ z.rrs := by
    rw [hkeys]
    push Not
    rfl
  by_cases hname : ∃ r ∈ records, r.domain = q.domain
  case neg =>
    push Not at hname
    exact iff_of_true ⟨fun _ => hname, fun h => by
      obtain ⟨r, hr, heq⟩ := h
      exact absurd heq (hname r hr)⟩ (Or.inl hname)
  have howned : ¬ ∀ r ∈ records, r.domain ≠ q.domain := by
    push Not
    exact hname
  rw [NameErrorMeansNoName, hnone, ← hkeys]
  simp only [howned, imp_false, hname, true_implies, false_or]
  unfold Zone.outcome at houtcome
  split at houtcome
  · next e hnip =>
      obtain ⟨hrcode, hanswer⟩ := Prod.mk.inj houtcome
      obtain rfl := niplike_error hnip
      simp [hrcode, hnip]
  · next r rr hnip =>
      obtain ⟨hrcode, hanswer⟩ := Prod.mk.inj houtcome
      by_cases hns : z.AuthorityFound q.type <;> simp [hrcode, hanswer, hnip, hns]
  · next hnip =>
      rw [if_pos htype] at houtcome
      rw [← AList.lookup_isSome]
      cases hlook : z.rrs.lookup q.key with
      | none =>
          rw [hlook] at houtcome
          obtain ⟨hrcode, hanswer⟩ := Prod.mk.inj houtcome
          simp [hrcode]
      | some rrs =>
          rw [hlook] at houtcome
          obtain ⟨hrcode, hanswer⟩ := Prod.mk.inj houtcome
          by_cases hns : z.AuthorityFound q.type <;> simp [hrcode, hnip, hns]

/-- The reply to a question about one of the seven types that is answered from a zone has the
property when no record of the zone file has the name; or one has the name, the type and the
class, and the labels in front of the zone are an address that cannot be converted or the records
NS of the zone are not missed. -/
theorem name_error_iff {config : Config} {domain : DN} {text : Bytes} {z : Zone} {qs : Bytes}
    {h : Header} {q : Question} (hload : Zone.load domain text = some z)
    (hparse : Header.parse qs = some h) (hquestion : h.question = [q])
    (hselect : config.select q.domain = some z) (htype : enumContains TYPE.entries q.type) :
    (∃ header data, query config qs = some (.answer header data) ∧
        NameErrorMeansNoName (fileRecords domain text) q header) ↔
      (∀ r ∈ fileRecords domain text, r.domain ≠ q.domain) ∨
        ((∃ r ∈ fileRecords domain text, r.key = q.key) ∧
          (niplike q.domain domain = .error .formatError ∨ q.type = TYPE.NS ∨
            ∃ r ∈ fileRecords domain text, r.key = (domain, TYPE.NS, CLAS.IN))) := by
  obtain ⟨-, hanswer, -, -⟩ := parse_eq_some hparse
  obtain ⟨-, hwithin⟩ := Config.select_eq_some hselect
  have houtcome : ((z.reply q h).close.RCODE, (z.reply q h).close.answer) = z.outcome q :=
    reply_outcome hwithin hanswer
  have hiff := nameError_outcome (mem_load_iff hload) htype houtcome
  have hdomain := Zone.domain_of_load hload
  rw [Zone.AuthorityFound, mem_load_iff hload, hdomain] at hiff
  rw [← hiff, query_eq hparse hquestion hselect]
  constructor
  · rintro ⟨header, data, hsend, hproperty⟩
    cases hsend
    exact hproperty
  · intro hproperty
    exact ⟨_, _, rfl, hproperty⟩

/-! ## A name without records of a type -/

/-- A zone file with the records that every zone needs and one address. -/
def servedFile : Bytes :=
  ascii "a.\n@,60,IN,SOA,m. r. 1 2 3 4 5\n@,60,IN,NS,n.\nw,60,IN,A,1.2.3.4\n"

/-- The zone of that file. -/
def served : Zone := (Zone.load (s2dn (ascii "a.")) servedFile).get (by decide +kernel)

/-- A configuration with that zone. -/
def servedConfig : Config :=
  (Config.load (fun _ => servedFile) (ascii "8.8.8.8\na.,z\n")).get (by decide +kernel)

theorem load_served : Zone.load (s2dn (ascii "a.")) servedFile = some served :=
  (Option.some_get _).symm

theorem lookup_servedConfig (dn : DN) : servedConfig.zones.lookup dn
    = if dn = s2dn (ascii "a.") then some served else none := by
  have hload : Config.load (fun _ => servedFile) (ascii "8.8.8.8\na.,z\n") = some servedConfig :=
    (Option.some_get _).symm
  have hentries : Config.lines (ascii "8.8.8.8\na.,z\n") = some [(ascii "a.", ascii "z")] := by
    decide +kernel
  obtain ⟨entries, hlines, hlook⟩ := lookup_load hload
  obtain rfl : [(ascii "a.", ascii "z")] = entries := Option.some.inj (hentries.symm.trans hlines)
  rw [hlook]
  by_cases hdn : dn = s2dn (ascii "a.")
  · subst hdn
    have hfirst : firstLine [(ascii "a.", ascii "z")] (s2dn (ascii "a."))
        = some (ascii "a.", ascii "z") := List.find?_cons_of_pos (decide_eq_true rfl)
    rw [hfirst, Option.bind_some, load_served, if_pos rfl]
  · have hnone : firstLine [(ascii "a.", ascii "z")] dn = none := by
      rw [firstLine, List.find?_cons_of_neg (by simpa using Ne.symm hdn), List.find?_nil]
    rw [hnone, Option.bind_none, if_neg hdn]

/-- A query with one question. -/
def ask (q : Question) : Bytes := [7, 7, 1, 0, 0, 1, 0, 0, 0, 0, 0, 0] ++ q.dump

theorem parse_ask {q : Question} (hname : ∀ l ∈ q.domain, 1 ≤ l.length ∧ l.length ≤ 255) :
    ∃ h, Header.parse (ask q) = some h ∧ h.question = [q] := by
  have hheader : Rfc1035.readHeader (ask q)
      = some (⟨0x707, false, 0, false, false, true, false, 0, 0, 1, 0, 0, 0⟩,
        q.wire.encode ++ []) := by
    rw [List.append_nil]
    rfl
  obtain ⟨h, hparse, -, -, hquestion⟩ := parse_wire hheader rfl fun l hl =>
    hname l (List.mem_reverse.mp hl)
  refine ⟨h, hparse, ?_⟩
  rw [hquestion]
  simp [Question.wire]

/-- A question about a name of one label below the zone. -/
def below (label : Bytes) (type : TYPE) : Question :=
  ⟨s2dn (ascii "a.") ++ [label], type, CLAS.IN⟩

/-- It can be asked if its label can. -/
theorem labels_below (label : Bytes) (type : TYPE)
    (hlabel : 1 ≤ label.length ∧ label.length ≤ 255) :
    ∀ l ∈ (below label type).domain, 1 ≤ l.length ∧ l.length ≤ 255 := by
  have hapex : ∀ l ∈ s2dn (ascii "a."), 1 ≤ l.length ∧ l.length ≤ 255 := by decide +kernel
  intro l hl
  rcases List.mem_append.mp hl with hl | hl
  · exact hapex l hl
  · rw [List.mem_singleton.mp hl]
    exact hlabel

/-- Every name in the zone is answered from it. -/
theorem select_under (labels : List Bytes) :
    servedConfig.select (s2dn (ascii "a.") ++ labels) = some served := by
  have hne : s2dn (ascii "a.") ≠ [] := by decide +kernel
  apply Config.select_append hne
  · rw [lookup_servedConfig, if_pos rfl]
  · intro t ht _
    rw [lookup_servedConfig, if_neg fun h => ht (List.append_right_eq_self.mp h)]

theorem select_below (label : Bytes) (type : TYPE) :
    servedConfig.select (below label type).domain = some served := select_under [label]

/-- The keys of the zone. -/
theorem mem_served {k : Key} : k ∈ served.rrs ↔ k ∈ [(s2dn (ascii "a."), TYPE.SOA, CLAS.IN),
    (s2dn (ascii "a."), TYPE.NS, CLAS.IN), (below (ascii "w") TYPE.A).key] := by
  have hkeys : (fileRecords (s2dn (ascii "a.")) servedFile).map (fun r => r.key)
      = [(s2dn (ascii "a."), TYPE.SOA, CLAS.IN), (s2dn (ascii "a."), TYPE.NS, CLAS.IN),
        (below (ascii "w") TYPE.A).key] := by
    decide +kernel
  rw [mem_load_iff load_served, ← hkeys, List.mem_map]

theorem domain_served : served.domain = s2dn (ascii "a.") := Zone.domain_of_load load_served

/-- One label is no address. -/
theorem niplike_below (label : Bytes) (type : TYPE) :
    niplike (below label type).domain served.domain = .ok [] := by
  rw [domain_served]
  exact niplike_append (s2dn (ascii "a.")) [label]

/-- The zone has records NS. -/
theorem authorityFound_served (type : TYPE) : served.AuthorityFound type := by
  right
  rw [domain_served, mem_served]
  simp

/-- The RCODE of the reply. -/
theorem query_below (label : Bytes) (type : TYPE) (htype : enumContains TYPE.entries type)
    (hlabel : 1 ≤ label.length ∧ label.length ≤ 255) :
    ∃ header : Header, query servedConfig (ask (below label type)) = some header.send ∧
      header.RCODE = if (below label type).key ∈ served.rrs then 0 else 3 := by
  obtain ⟨h, hparse, hquestion⟩ := parse_ask (labels_below label type hlabel)
  have hselect := select_below label type
  have houtcome : ((served.reply (below label type) h).RCODE, _) = served.outcome (below label type) :=
    reply_outcome (Config.select_eq_some hselect).2 (parse_eq_some hparse).2.1
  have hrcode := served.outcome_plain (niplike_below label type) htype
  rw [← houtcome] at hrcode
  dsimp only at hrcode
  refine ⟨served.reply (below label type) h, query_eq hparse hquestion hselect, ?_⟩
  rw [hrcode]
  simp [authorityFound_served]

/-- The address of a name that has one. -/
theorem name_error_iff_served : ∃ header data,
    query servedConfig (ask (below (ascii "w") TYPE.A)) = some (.answer header data) ∧
      NameErrorMeansNoName (fileRecords (s2dn (ascii "a.")) servedFile)
        (below (ascii "w") TYPE.A) header := by
  obtain ⟨h, hparse, hquestion⟩ := parse_ask (labels_below (ascii "w") TYPE.A (by decide))
  exact (name_error_iff load_served hparse hquestion (select_below _ _) (by decide)).mpr
    (Or.inr (by decide +kernel))

/-- The other address of that name: the reply says that the name does not exist. -/
theorem existing_name_error : ∃ header data,
    query servedConfig (ask (below (ascii "w") TYPE.AAAA)) = some (.answer header data) ∧
      header.RCODE = 3 ∧
      (∃ r ∈ fileRecords (s2dn (ascii "a.")) servedFile,
        r.domain = (below (ascii "w") TYPE.AAAA).domain ∧ r.type = TYPE.A) ∧
      ¬ NameErrorMeansNoName (fileRecords (s2dn (ascii "a.")) servedFile)
        (below (ascii "w") TYPE.AAAA) header := by
  obtain ⟨header, hquery, hrcode⟩ := query_below (ascii "w") TYPE.AAAA (by decide) (by decide)
  have hnone : (below (ascii "w") TYPE.AAAA).key ∉ served.rrs := by
    rw [mem_served]
    decide +kernel
  have hexists : ∃ r ∈ fileRecords (s2dn (ascii "a.")) servedFile,
      r.domain = (below (ascii "w") TYPE.AAAA).domain ∧ r.type = TYPE.A := by
    obtain ⟨r, hr, heq⟩ := (mem_load_iff load_served (below (ascii "w") TYPE.A).key).mp
      (mem_served.mpr (by simp))
    obtain ⟨hdomain, htype⟩ := Prod.mk.inj heq
    exact ⟨r, hr, hdomain, (Prod.mk.inj htype).1⟩
  rw [if_neg hnone] at hrcode
  refine ⟨header.close, header.dump.1, hquery, hrcode, hexists, fun hproperty => ?_⟩
  obtain ⟨r, hr, hdomain, -⟩ := hexists
  exact hproperty.1 hrcode r hr hdomain

end Dnsd

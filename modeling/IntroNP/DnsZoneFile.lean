/-
# Zone files of dnsd

The format of the zone files, as a type of files and the text of a file, and what the server
answers from a zone that it has loaded from such a text: the records of the lines whose name,
type and class are those of the question, in the order of the file.

* `RdataFormat`, `ZoneLine`, `ZoneFile` : the format, with `ZoneFile.text`;
* `scanLine_text` : a line is scanned into its fields;
* `lookup_foldlM` : what the loop of the loader puts under each key;
* `answers_exact` : the answer section of a reply.
-/
import IntroNP.DnsReply

namespace Dnsd

/-! ## The format -/

/-- A word of the data of a record. -/
def IsWord (t : Bytes) : Prop :=
  t ≠ [] ∧ t.length ≤ 255 ∧ ∀ b ∈ t, isSpace b = false ∧ b ≠ 0

instance (t : Bytes) : Decidable (IsWord t) := inferInstanceAs (Decidable (_ ∧ _ ∧ _))

/-- A decimal number of `w` bits. -/
def IsNumber (w : ℕ) (t : Bytes) : Prop :=
  t ≠ [] ∧ (∀ b ∈ t, isDigit b = true) ∧ decVal t < 2 ^ w

instance (w : ℕ) (t : Bytes) : Decidable (IsNumber w t) :=
  inferInstanceAs (Decidable (_ ∧ _ ∧ _))

/-- Fields with a blank between them. -/
def blanks : List Bytes → Bytes
  | [] => []
  | [t] => t
  | t :: u :: ts => t ++ ch ' ' :: blanks (u :: ts)

/-- The data of a record, by its type. -/
inductive RdataFormat : TYPE → Bytes → Prop
  | a {address : Bytes} (h : (inetPton4 address).isSome) : RdataFormat .A address
  | aaaa {address : Bytes} (h : (inetPton6 address).isSome) : RdataFormat .AAAA address
  | ns (nsdname : Bytes) : RdataFormat .NS nsdname
  | cname (cname : Bytes) : RdataFormat .CNAME cname
  | soa {mname rname serial refresh retry expire minimum : Bytes}
      (hwords : ∀ t ∈ [mname, rname], IsWord t)
      (hnumbers : ∀ t ∈ [serial, refresh, retry, expire, minimum], IsNumber 32 t) :
      RdataFormat .SOA (blanks [mname, rname, serial, refresh, retry, expire, minimum])
  | mx {preference exchange : Bytes} (hnumber : IsNumber 16 preference)
      (hword : IsWord exchange) : RdataFormat .MX (blanks [preference, exchange])
  | txt (data : Bytes) : RdataFormat .TXT data

/-- The text of a name relative to the zone. -/
def nameText (labels : List Bytes) (dot : Bool) : Bytes :=
  if labels = [] then ascii "@" else separated (ch '.') dot labels

/-- A line `<NAME>,<TTL>,<CLASS>,<TYPE>,<RDATA>` whose fields fit the scan. -/
structure ZoneLine where
  /-- The labels of NAME, from the leaf on; none stands for `@`. -/
  labels : List Bytes
  /-- Whether NAME ends in a dot. -/
  dot : Bool
  /-- The digits of TTL. -/
  ttl : Bytes
  /-- CLASS and its name. -/
  clas : CLAS × Bytes
  /-- TYPE and its name. -/
  type : TYPE × Bytes
  /-- RDATA. -/
  data : Bytes
  /-- Whether the line ends in a carriage return. -/
  cr : Bool
  labels_ok : ∀ l ∈ labels, l ≠ [] ∧
    ∀ b ∈ l, b ≠ ch '.' ∧ b ≠ ch ',' ∧ b ≠ ch '\n' ∧ b ≠ 0
  name_ok : (nameText labels dot).length ≤ 255 ∧
    (∀ b ∈ (nameText labels dot).head?, isSpace b = false) ∧
    separated (ch '.') dot labels ≠ ascii "@"
  ttl_ok : IsNumber 32 ttl
  clas_ok : clas ∈ CLAS.entries
  type_ok : type ∈ TYPE.entries
  data_ok : data ≠ [] ∧ data.length ≤ 511 ∧ ∀ b ∈ data, b ≠ ch '\r' ∧ b ≠ ch '\n' ∧ b ≠ 0
  format : RdataFormat type.1 data

/-- The line without its carriage return. -/
def ZoneLine.fields (l : ZoneLine) : Bytes :=
  nameText l.labels l.dot ++ ch ',' :: (l.ttl ++ ch ',' :: (l.clas.2 ++ ch ',' ::
    (l.type.2 ++ ch ',' :: l.data)))

/-- A line with or without a carriage return. -/
def lineText (fields : Bytes) (cr : Bool) : Bytes := if cr then fields ++ [ch '\r'] else fields

/-- A zone file. -/
structure ZoneFile where
  /-- The labels of the domain, from the leaf on. -/
  domain : List Bytes
  /-- Whether it ends in a dot. -/
  dot : Bool
  /-- Whether the first line ends in a carriage return. -/
  cr : Bool
  /-- The other lines. -/
  lines : List ZoneLine
  /-- Whether the last line is closed. -/
  last : Bool
  domain_ok : ∀ l ∈ domain, l ≠ [] ∧ ∀ b ∈ l, b ≠ ch '.' ∧ b ≠ ch '\r' ∧ b ≠ ch '\n'
  domain_ne : separated (ch '.') dot domain ≠ ascii "@"
  soa : ∃ l ∈ lines, l.labels = [] ∧ l.type.1 = TYPE.SOA ∧ l.clas.1 = CLAS.IN

/-- The text of a zone file. -/
def ZoneFile.text (file : ZoneFile) : Bytes :=
  separated (ch '\n') file.last (lineText (separated (ch '.') file.dot file.domain) file.cr ::
    file.lines.map fun l => lineText l.fields l.cr)

/-- The domain of a zone file. -/
def ZoneFile.base (file : ZoneFile) : DN := file.domain.reverse

/-! ## The data of a line -/

theorem head_blank {s : Bytes} : ∀ b ∈ (ch ' ' :: s).head?, isSpace b = true ∧ isDigit b = false := by
  rintro b hb
  cases hb
  decide

theorem IsWord.extract {t : Bytes} (h : IsWord t) :
    (∀ s, extractWord 256 (t ++ ch ' ' :: s) = some (t, ch ' ' :: s)) ∧
      extractWord 256 t = some (t, []) := by
  obtain ⟨hne, hlen, ht⟩ := h
  constructor
  · intro s
    exact extractWord_append hne hlen ht fun b hb => (head_blank b hb).1
  · have hend : extractWord 256 (t ++ []) = some (t, []) := extractWord_append hne hlen ht (by simp)
    rwa [List.append_nil] at hend

theorem IsNumber.extract {w : ℕ} {t : Bytes} (h : IsNumber w t) :
    (∀ s, extractUInt w (t ++ ch ' ' :: s) = some (decVal t, some (ch ' ' :: s))) ∧
      extractUInt w t = some (decVal t, some []) := by
  obtain ⟨hne, ht, hlt⟩ := h
  constructor
  · intro s
    exact extractUInt_append hne ht (fun b hb => (head_blank b hb).2) hlt
  · have hend : extractUInt w (t ++ []) = some (decVal t, some []) :=
      extractUInt_append hne ht (by simp) hlt
    rwa [List.append_nil] at hend

/-- The fields of SOA data, one behind the other. -/
theorem dumpSOA_blanks {mname rname serial refresh retry expire minimum : Bytes}
    (hm : IsWord mname) (hr : IsWord rname)
    (hnumbers : ∀ t ∈ [serial, refresh, retry, expire, minimum], IsNumber 32 t) :
    dumpSOA (blanks [mname, rname, serial, refresh, retry, expire, minimum])
      = some (dn2data (s2dn mname) ++ dn2data (s2dn rname) ++ beBytes 4 (decVal serial) ++
          beBytes 4 (decVal refresh) ++ beBytes 4 (decVal retry) ++ beBytes 4 (decVal expire) ++
          beBytes 4 (decVal minimum)) := by
  have h₁ := (hnumbers serial (by simp)).extract.1
  have h₂ := (hnumbers refresh (by simp)).extract.1
  have h₃ := (hnumbers retry (by simp)).extract.1
  have h₄ := (hnumbers expire (by simp)).extract.1
  have h₅ := (hnumbers minimum (by simp)).extract.2
  rw [dumpSOA]
  simp only [blanks, Option.bind_eq_bind]
  rw [hm.extract.1, Option.bind_some]
  simp only [extractWord_blank]
  rw [hr.extract.1, Option.bind_some]
  simp only [extractUInt_blank]
  rw [h₁, Option.bind_some]
  simp only [Option.bind_some]
  rw [extractUInt_blank, h₂, Option.bind_some]
  simp only [Option.bind_some]
  rw [extractUInt_blank, h₃, Option.bind_some]
  simp only [Option.bind_some]
  rw [extractUInt_blank, h₄, Option.bind_some]
  simp only [Option.bind_some]
  rw [extractUInt_blank, h₅, Option.bind_some]
  rfl

/-- The fields of MX data; the exchange is the last one, and need not be taken whole. -/
theorem dumpMX_blanks {preference exchange w rest : Bytes} (hnumber : IsNumber 16 preference)
    (hextract : extractWord 256 exchange = some (w, rest)) :
    dumpMX (blanks [preference, exchange])
      = some (beBytes 2 (decVal preference) ++ dn2data (s2dn w)) := by
  rw [dumpMX]
  simp only [blanks, Option.bind_eq_bind]
  rw [hnumber.extract.1, Option.bind_some]
  simp only [Option.bind_some]
  rw [extractWord_blank, hextract, Option.bind_some]
  rfl

/-- Data of the format is accepted by the constructor of a record. -/
theorem RdataFormat.accepted {type : TYPE} {data : Bytes} (h : RdataFormat type data)
    (hnul : 0 ∉ data) : ∃ r, Rdata type data = .ok r := by
  cases h with
  | a h =>
      obtain ⟨r, hr⟩ := Option.isSome_iff_exists.mp h
      refine ⟨r, ?_⟩
      rw [Rdata, if_pos rfl, inetPton, cstr_eq_self hnul, hr]
  | aaaa h =>
      obtain ⟨r, hr⟩ := Option.isSome_iff_exists.mp h
      refine ⟨r, ?_⟩
      rw [Rdata, if_neg (by decide), if_pos rfl, inetPton, cstr_eq_self hnul, hr]
  | ns nsdname => exact ⟨_, rfl⟩
  | cname cname => exact ⟨_, rfl⟩
  | @soa mname rname serial refresh retry expire minimum hwords hnumbers =>
      obtain ⟨r, hr⟩ : ∃ r, dumpSOA (blanks [mname, rname, serial, refresh, retry, expire, minimum])
          = some r := ⟨_, dumpSOA_blanks (hwords mname (by simp)) (hwords rname (by simp)) hnumbers⟩
      refine ⟨r, ?_⟩
      rw [Rdata, if_neg (by decide), if_neg (by decide), if_neg (by decide), if_pos rfl, hr]
      rfl
  | @mx preference exchange hnumber hword =>
      obtain ⟨r, hr⟩ : ∃ r, dumpMX (blanks [preference, exchange]) = some r :=
        ⟨_, dumpMX_blanks hnumber hword.extract.2⟩
      refine ⟨r, ?_⟩
      rw [Rdata, if_neg (by decide), if_neg (by decide), if_neg (by decide), if_neg (by decide),
        if_pos rfl, hr]
      rfl
  | txt data => exact ⟨_, rfl⟩

namespace ZoneLine

/-- The wire form of RDATA. -/
def rdata (l : ZoneLine) : Bytes :=
  (Rdata l.type.1 l.data).toOption.get (by
    obtain ⟨r, hr⟩ := l.format.accepted fun h0 => (l.data_ok.2.2 0 h0).2.2 rfl
    rw [hr]
    rfl)

theorem rdata_eq (l : ZoneLine) : Rdata l.type.1 l.data = .ok l.rdata := by
  obtain ⟨r, hr⟩ := l.format.accepted fun h0 => (l.data_ok.2.2 0 h0).2.2 rfl
  rw [hr]
  simp only [rdata, hr, Except.toOption, Option.get_some]

/-- The record that a line gives in a zone. -/
def record (l : ZoneLine) (base : DN) : Record where
  domain := base ++ l.labels.reverse
  type := l.type.1
  clas := l.clas.1
  ttl := UInt32.ofNat (decVal l.ttl)
  data := l.data
  rdata := l.rdata
  datadn := parse l.type.1 l.data
  rdata_eq := l.rdata_eq
  datadn_eq := rfl

end ZoneLine

/-! ## The scan of a line -/

theorem chomp_lineText {fields : Bytes} (h : fields.getLast? ≠ some (ch '\r')) (cr : Bool) :
    chomp (lineText fields cr) = fields := by
  cases cr with
  | true => simp [chomp, lineText]
  | false => simp [chomp, lineText, h]

/-- The names of the enumerators fit the scan. -/
theorem type_name_ok : ∀ e ∈ TYPE.entries, e.2 ≠ [] ∧ e.2.length ≤ 9 ∧
    ∀ b ∈ e.2, b ≠ ch ',' ∧ b ≠ ch '\n' ∧ b ≠ 0 := by
  decide +kernel

theorem clas_name_ok : ∀ e ∈ CLAS.entries, e.2 ≠ [] ∧ e.2.length ≤ 4 ∧
    ∀ b ∈ e.2, b ≠ ch ',' ∧ b ≠ ch '\n' ∧ b ≠ 0 := by
  decide +kernel

namespace ZoneLine

theorem nameText_ok (l : ZoneLine) : nameText l.labels l.dot ≠ [] ∧
    ∀ b ∈ nameText l.labels l.dot, b ≠ ch ',' ∧ b ≠ ch '\n' ∧ b ≠ 0 := by
  rw [nameText]
  by_cases hnil : l.labels = []
  · rw [if_pos hnil]
    decide +kernel
  · rw [if_neg hnil]
    constructor
    · exact separated_ne_nil hnil fun t ht => (l.labels_ok t ht).1
    · intro b hb
      rcases mem_separated hb with rfl | ⟨t, ht, hb⟩
      · decide
      · exact ((l.labels_ok t ht).2 b hb).2

/-- The text of the name stands for the labels. -/
theorem s2dn_nameText (l : ZoneLine) : s2dn (nameText l.labels l.dot) = l.labels.reverse := by
  rw [nameText]
  by_cases hnil : l.labels = []
  · rw [if_pos hnil, hnil]
    rfl
  · rw [if_neg hnil]
    exact s2dn_separated (fun t ht hdot => ((l.labels_ok t ht).2 _ hdot).1 rfl)
      (fun t ht => (l.labels_ok t ht).1) l.name_ok.2.2

theorem ttl_mem (l : ZoneLine) {b : UInt8} (hb : b ∈ l.ttl) :
    b ≠ ch ',' ∧ b ≠ ch '\n' ∧ b ≠ 0 := by
  have hdigit := l.ttl_ok.2.1 b hb
  refine ⟨?_, ?_, ?_⟩
  · rintro rfl
    exact absurd hdigit (by decide)
  · rintro rfl
    exact absurd hdigit (by decide)
  · rintro rfl
    exact absurd hdigit (by decide)

/-- A line has no line feed and no NUL. -/
theorem fields_mem (l : ZoneLine) {b : UInt8} (hb : b ∈ l.fields) : b ≠ ch '\n' ∧ b ≠ 0 := by
  simp only [fields, List.mem_append, List.mem_cons] at hb
  have hcomma : ch ',' ≠ ch '\n' ∧ ch ',' ≠ 0 := by decide
  rcases hb with hb | rfl | hb | rfl | hb | rfl | hb | rfl | hb
  · exact (l.nameText_ok.2 b hb).2
  · exact hcomma
  · exact (l.ttl_mem hb).2
  · exact hcomma
  · exact ((clas_name_ok _ l.clas_ok).2.2 b hb).2
  · exact hcomma
  · exact ((type_name_ok _ l.type_ok).2.2 b hb).2
  · exact hcomma
  · exact (l.data_ok.2.2 b hb).2

/-- A line is scanned into its fields. -/
theorem scanLine_text (l : ZoneLine) : scanLine (chomp (lineText l.fields l.cr))
    = some ⟨nameText l.labels l.dot, UInt32.ofNat (decVal l.ttl), l.clas.2, l.type.2, l.data⟩ := by
  obtain ⟨hname, hnameb⟩ := l.nameText_ok
  obtain ⟨hnamelen, hhead, -⟩ := l.name_ok
  obtain ⟨httl, hdigits, hlt⟩ := l.ttl_ok
  obtain ⟨hclas, hclaslen, hclasb⟩ := clas_name_ok _ l.clas_ok
  obtain ⟨htype, htypelen, htypeb⟩ := type_name_ok _ l.type_ok
  obtain ⟨hdata, hdatalen, hdatab⟩ := l.data_ok
  have hlast : l.fields.getLast? ≠ some (ch '\r') := by
    obtain ⟨q, hq⟩ : ∃ q, l.fields = q ++ l.data :=
      ⟨nameText l.labels l.dot ++ ch ',' :: (l.ttl ++ ch ',' :: (l.clas.2 ++ ch ',' ::
        (l.type.2 ++ [ch ',']))), by simp [fields]⟩
    rw [hq, List.getLast?_append_of_ne_nil _ hdata]
    intro hcr
    exact (hdatab _ (List.mem_of_getLast? hcr)).1 rfl
  have hcstr : cstr l.fields = l.fields := cstr_eq_self fun h0 => (l.fields_mem h0).2 rfl
  have hskip : skipSpace l.fields = l.fields := by
    apply skipSpace_eq_self
    intro b hb
    rw [fields, List.head?_append_of_ne_nil _ hname] at hb
    exact hhead b hb
  have hcomma : ∀ (s : Bytes), ∀ b ∈ (ch ',' :: s).head?,
      decide (b ≠ ch ',') = false ∧ isDigit b = false := by
    rintro s b hb
    cases hb
    decide
  rw [chomp_lineText hlast, scanLine, hcstr, hskip, fields,
    scanSet_append hname hnamelen (fun b hb => decide_eq_true (hnameb b hb).1)
      fun b hb => (hcomma _ b hb).1]
  simp only [Option.bind_eq_bind, Option.bind_some, scanLit_cons,
    scanInt_append httl hdigits (fun b hb => (hcomma _ b hb).2) hlt,
    scanSet_append hclas hclaslen (fun b hb => decide_eq_true (hclasb b hb).1)
      (fun b hb => (hcomma _ b hb).1),
    scanSet_append htype htypelen (fun b hb => decide_eq_true (htypeb b hb).1)
      (fun b hb => (hcomma _ b hb).1)]
  have hscan : scanSet 511 (fun b => decide (b ≠ ch '\r' ∧ b ≠ ch '\n')) (l.data ++ [])
      = some (l.data, []) :=
    scanSet_append hdata hdatalen
      (fun b hb => decide_eq_true ⟨(hdatab b hb).1, (hdatab b hb).2.1⟩) (by simp)
  rw [List.append_nil] at hscan
  rw [hscan]
  rfl

/-- A line of the file adds its record. -/
theorem addLine_text (l : ZoneLine) (base : DN) (rrs : Records) :
    Zone.addLine base rrs (lineText l.fields l.cr) = some (rrs.insert (l.record base).key
      ((rrs.lookup (l.record base).key).getD [] ++ [l.record base])) := by
  have hnew := Record.new_of_rdata (base ++ l.labels.reverse) l.clas.1
    (UInt32.ofNat (decVal l.ttl)) l.rdata_eq
  have hwithin : within (l.record base).domain base := List.prefix_append _ _
  simp only [Zone.addLine, l.scanLine_text, l.s2dn_nameText, v2type_name _ l.type_ok,
    v2clas_name _ l.clas_ok, hnew, Except.toOption, Option.bind_eq_bind, Option.bind_some]
  exact if_pos hwithin

end ZoneLine

/-! ## The zone of a file -/

/-- What the loop of the loader leaves under a key: the records of the lines with that key, in
their order, behind those that were there. -/
theorem lookup_foldlM (base : DN) (lines : List ZoneLine) (rrs : Records) :
    ∃ rrs', (lines.map fun l => lineText l.fields l.cr).foldlM (Zone.addLine base) rrs = some rrs' ∧
      ∀ k, (rrs'.lookup k).getD [] = (rrs.lookup k).getD [] ++
        (lines.map (·.record base)).filter fun r => r.key = k := by
  induction lines generalizing rrs with
  | nil => exact ⟨rrs, rfl, fun k => by simp⟩
  | cons l lines ih =>
      obtain ⟨rrs', hfold, hlook⟩ := ih (rrs.insert (l.record base).key
        ((rrs.lookup (l.record base).key).getD [] ++ [l.record base]))
      refine ⟨rrs', ?_, fun k => ?_⟩
      · rw [List.map_cons, List.foldlM_cons, l.addLine_text]
        exact hfold
      · rw [hlook]
        by_cases hk : k = (l.record base).key
        · subst hk
          simp
        · rw [AList.lookup_insert_ne hk]
          simp [Ne.symm hk]

/-- The lines of the text of a file. -/
theorem pieces_text (file : ZoneFile) : pieces (ch '\n') file.text
    = lineText (separated (ch '.') file.dot file.domain) file.cr ::
      file.lines.map fun l => lineText l.fields l.cr := by
  have hcr : ∀ (s : Bytes) (cr : Bool), (∀ b ∈ s, b ≠ ch '\n') → ch '\n' ∉ lineText s cr := by
    intro s cr hs hmem
    cases cr with
    | true =>
        rcases List.mem_append.mp hmem with h | h
        · exact hs _ h rfl
        · exact absurd h (by decide)
    | false => exact hs _ hmem rfl
  apply pieces_separated
  · intro t ht
    rcases List.mem_cons.mp ht with rfl | ht
    · apply hcr
      intro b hb
      rcases mem_separated hb with rfl | ⟨t, ht, hb⟩
      · decide
      · exact ((file.domain_ok t ht).2 b hb).2.2
    · obtain ⟨l, -, rfl⟩ := List.mem_map.mp ht
      exact hcr _ _ fun b hb => (l.fields_mem hb).1
  · -- the last line is one of the lines behind the first, and has a comma in it
    right
    obtain ⟨l, hl, -⟩ := file.soa
    rw [List.getLast?_cons]
    intro t ht
    obtain ⟨u, hu⟩ := List.getLast?_isSome.mpr (List.ne_nil_of_mem (List.mem_map_of_mem
      (f := fun l : ZoneLine => lineText l.fields l.cr) hl)) |> Option.isSome_iff_exists.mp
    rw [hu] at ht
    cases ht
    obtain ⟨m, -, rfl⟩ := List.mem_map.mp (List.mem_of_getLast? hu)
    cases hm : m.cr <;> simp [lineText, ZoneLine.fields]

/-- The loader accepts the text of a file, and puts the records of its lines under their keys. -/
theorem load_text (file : ZoneFile) : ∃ z, Zone.load file.base file.text = some z ∧
    z.domain = file.base ∧ ∀ k, (z.rrs.lookup k).getD []
      = (file.lines.map (·.record file.base)).filter fun r => r.key = k := by
  obtain ⟨rrs, hfold, hlook⟩ := lookup_foldlM file.base file.lines ∅
  have hfirst : s2dn (chomp ((pieces (ch '\n') file.text).headD [])) = file.base := by
    have hcr : (separated (ch '.') file.dot file.domain).getLast? ≠ some (ch '\r') := by
      intro hcr
      rcases mem_separated (List.mem_of_getLast? hcr) with h | ⟨t, ht, h⟩
      · exact absurd h (by decide)
      · exact ((file.domain_ok t ht).2 _ h).2.1 rfl
    rw [pieces_text, List.headD_cons, chomp_lineText hcr]
    exact s2dn_separated (fun t ht hdot => ((file.domain_ok t ht).2 _ hdot).1 rfl)
      (fun t ht => (file.domain_ok t ht).1) file.domain_ne
  have htail : (pieces (ch '\n') file.text).tail.foldlM (Zone.addLine file.base) ∅ = some rrs := by
    rw [pieces_text, List.tail_cons, hfold]
  have hlook' : ∀ k, (rrs.lookup k).getD []
      = (file.lines.map (·.record file.base)).filter fun r => r.key = k := by
    intro k
    rw [hlook, AList.lookup_empty]
    rfl
  have hsoa : (file.base, TYPE.SOA, CLAS.IN) ∈ rrs := by
    obtain ⟨l, hl, hlabels, htype, hclas⟩ := file.soa
    have hkey : (l.record file.base).key = (file.base, TYPE.SOA, CLAS.IN) := by
      simp [Question.key, ZoneLine.record, hlabels, htype, hclas]
    have hmem : l.record file.base ∈ (rrs.lookup (file.base, TYPE.SOA, CLAS.IN)).getD [] := by
      rw [hlook', List.mem_filter]
      exact ⟨List.mem_map_of_mem hl, by simpa using hkey⟩
    obtain ⟨rs, hrs, -⟩ := Table.mem_getD_nil.mp hmem
    exact Table.mem_of_lookup hrs
  exact ⟨_, Zone.load_eq_some hfirst htail hsoa, rfl, hlook'⟩

/-! ## The answers -/

/-- Without a synthesised record, the answers are the records under the key of the question. -/
theorem reply_answer {z : Zone} {q : Question} {h : Header} (hq : within q.domain z.domain)
    (hnip : niplike q.domain z.domain = .ok []) (htype : enumContains TYPE.entries q.type)
    (hanswer : h.answer = []) : (z.reply q h).answer = (z.rrs.lookup q.key).getD [] := by
  rw [reply_answer_of_get z q hanswer, Zone.get_of_key hq hnip htype]
  cases z.rrs.lookup q.key <;> rfl

/-- The zone that is loaded from a file answers a question of one of the seven types with the
records of the lines whose absolute name, type and class are those of the question, in the order
of the file. -/
theorem answers_exact (file : ZoneFile) : ∃ z, Zone.load file.base file.text = some z ∧
    ∀ {config : Config} {qs rest : Bytes} {hq : Rfc1035.Header} {question : Rfc1035.Question},
      Rfc1035.readHeader qs = some (hq, question.encode ++ rest) → hq.qdcount = 1 →
      (∀ l ∈ question.name, 1 ≤ l.length ∧ l.length ≤ 255) →
      config.select question.name.reverse = some z →
      enumContains TYPE.entries ⟨question.type⟩ →
      niplike question.name.reverse z.domain = .ok [] →
      ∃ header data, query config qs = some (.answer header data) ∧
        header.answer = (file.lines.filter fun l => l.labels ++ file.domain = question.name ∧
          l.type.1 = ⟨question.type⟩ ∧ l.clas.1 = ⟨question.clas⟩).map (·.record file.base) := by
  obtain ⟨z, hload, hdomain, hlook⟩ := load_text file
  refine ⟨z, hload, ?_⟩
  intro config qs rest hq question hheader hone hname hselect htype hnip
  obtain ⟨h, hparse, -, -, hquestion⟩ := parse_wire hheader hone hname
  obtain ⟨-, hanswer, -, -⟩ := parse_eq_some hparse
  obtain ⟨-, hwithin⟩ := Config.select_eq_some hselect
  refine ⟨_, _, query_eq hparse hquestion hselect, ?_⟩
  show (z.reply _ h).answer = _
  rw [reply_answer hwithin hnip htype hanswer, hlook, List.filter_map]
  congr 1
  apply List.filter_congr
  intro l hl
  have hname' : file.base ++ l.labels.reverse = question.name.reverse
      ↔ l.labels ++ file.domain = question.name := by
    rw [ZoneFile.base, ← List.reverse_append, List.reverse_inj]
  simp [Question.key, ZoneLine.record, hname']

/-- The file of the zone `bare`, in the format. -/
def bareFile : ZoneFile where
  domain := [ascii "a"]
  dot := true
  cr := false
  lines := [
    { labels := []
      dot := false
      ttl := ascii "60"
      clas := (CLAS.IN, ascii "IN")
      type := (TYPE.SOA, ascii "SOA")
      data := blanks [ascii "m.", ascii "r.", ascii "1", ascii "2", ascii "3", ascii "4", ascii "5"]
      cr := false
      labels_ok := by decide +kernel
      name_ok := by decide +kernel
      ttl_ok := by decide +kernel
      clas_ok := by decide +kernel
      type_ok := by decide +kernel
      data_ok := by decide +kernel
      format := .soa (by decide +kernel) (by decide +kernel) },
    { labels := [ascii "w"]
      dot := false
      ttl := ascii "60"
      clas := (CLAS.IN, ascii "IN")
      type := (TYPE.A, ascii "A")
      data := ascii "1.2.3.4"
      cr := false
      labels_ok := by decide +kernel
      name_ok := by decide +kernel
      ttl_ok := by decide +kernel
      clas_ok := by decide +kernel
      type_ok := by decide +kernel
      data_ok := by decide +kernel
      format := .a (by decide +kernel) }]
  last := true
  domain_ok := by decide +kernel
  domain_ne := by decide +kernel
  soa := by decide +kernel

example : bareFile.text
    = ascii "a.\n@,60,IN,SOA,m. r. 1 2 3 4 5\nw,60,IN,A,1.2.3.4\n" := by
  decide +kernel

/-- The zone of that file, asked for an address. -/
theorem answers_exact_bare : ∃ z config header data,
    Zone.load bareFile.base bareFile.text = some z ∧
      config.select (s2dn (ascii "w.a.")) = some z ∧
      query config askBare = some (.answer header data) ∧
      header.answer.map Record.rdata = [[1, 2, 3, 4]] := by
  obtain ⟨z, hload, hanswers⟩ := answers_exact bareFile
  have hdomain := Zone.domain_of_load hload
  have hunder : Under ((∅ : Table DN Zone).insert z.domain z) := by
    intro dn z' hlook
    by_cases heq : dn = z.domain
    · subst heq
      rw [AList.lookup_insert] at hlook
      cases hlook
      rfl
    · rw [AList.lookup_insert_ne heq, AList.lookup_empty] at hlook
      cases hlook
  have hselect : Config.select ⟨_, hunder⟩ (s2dn (ascii "w.a.")) = some z := by
    have happend : s2dn (ascii "w.a.") = bareFile.base ++ [ascii "w"] := by decide +kernel
    rw [happend]
    apply Config.select_append (by decide)
    · rw [← hdomain]
      exact AList.lookup_insert _
    · intro t ht _
      have hne : bareFile.base ++ t ≠ z.domain := by
        rw [hdomain]
        exact fun h => ht (List.append_right_eq_self.mp h)
      rw [AList.lookup_insert_ne hne, AList.lookup_empty]
  have hnip : niplike [ascii "a", ascii "w"] z.domain = .ok [] := by
    rw [hdomain]
    decide +kernel
  obtain ⟨header, data, hquery, hanswer⟩ :=
    hanswers readHeader_askBare rfl (by decide +kernel) hselect (by decide) hnip
  refine ⟨z, _, header, data, hload, hselect, hquery, ?_⟩
  rw [hanswer]
  decide +kernel

end Dnsd

/-
# What dnsd says about its zone files

The server as a whole, from the texts of its files to the bytes of a reply.  The configuration
file names zone files; the zone of a name is that of its longest configured suffix; and the
sections of the reply are made of lines of the zone's file, in the order of the file.

* `ConfigLine`, `ConfigFile` : the format of the configuration file, with `ConfigFile.text`;
* `ConfigFile.zone` : the zone of a name;
* `ZoneFile.find`, `ZoneFile.sections`, `ZoneFile.message` : what a zone file says to a question;
* `load_config_text` : the loader accepts the text of a configuration file;
* `reply_file` : the reply from a zone that has been loaded;
* `query_text` : the server sends the encoding of that message, or sends the query on;
* `query_not_one` : what it sends when there is not exactly one question.
-/
import IntroNP.DnsZoneFile
import IntroNP.DnsSelection

namespace Dnsd

/-! ## The configuration file -/

/-- A line `<domain>,<path>` whose fields fit the scan. -/
structure ConfigLine where
  /-- The zone file. -/
  file : ZoneFile
  /-- Whether the domain ends in a dot. -/
  dot : Bool
  /-- The path. -/
  path : Bytes
  domain_ok : file.domain ≠ [] ∧ (separated (ch '.') dot file.domain).length ≤ 255 ∧
    (∀ b ∈ (separated (ch '.') dot file.domain).head?, isSpace b = false) ∧
    (∀ b ∈ separated (ch '.') dot file.domain, b ≠ ch ',' ∧ b ≠ 0) ∧
    separated (ch '.') dot file.domain ≠ ascii "@"
  path_ok : path ≠ [] ∧ path.length ≤ 511 ∧ ∀ b ∈ path, isSpace b = false ∧ b ≠ 0

/-- The two fields of a line. -/
def ConfigLine.entry (l : ConfigLine) : Bytes × Bytes :=
  (separated (ch '.') l.dot l.file.domain, l.path)

/-- The line. -/
def ConfigLine.text (l : ConfigLine) : Bytes := l.entry.1 ++ ch ',' :: l.entry.2

/-- A configuration file. -/
structure ConfigFile where
  /-- The address of the server to forward to. -/
  forwardIP : Bytes
  /-- The other lines. -/
  lines : List ConfigLine
  /-- Whether the last line is closed. -/
  last : Bool
  forwardIP_ok : forwardIP ≠ [] ∧ forwardIP.length ≤ 19 ∧ ∀ b ∈ forwardIP, isSpace b = false

/-- Lines, with a line feed in front of each. -/
def linesText (lines : List ConfigLine) : Bytes := (lines.map fun l => ch '\n' :: l.text).flatten

/-- The text of a configuration file. -/
def ConfigFile.text (cfg : ConfigFile) : Bytes :=
  cfg.forwardIP ++ (linesText cfg.lines ++ if cfg.last then [ch '\n'] else [])

/-- The file of a configured domain: that of the first line for it. -/
def ConfigFile.file (cfg : ConfigFile) (domain : List Bytes) : Option ZoneFile :=
  (cfg.lines.find? fun l => l.file.domain = domain).map (·.file)

/-- The file of the longest configured suffix of a name. -/
def ConfigFile.zone (cfg : ConfigFile) : List Bytes → Option ZoneFile
  | [] => none
  | label :: labels => (cfg.file (label :: labels)).or (cfg.zone labels)

/-! ## What a zone file says -/

/-- The record of a line. -/
def ZoneLine.resource (l : ZoneLine) (domain : List Bytes) : Rfc1035.Resource :=
  ⟨l.labels ++ domain, l.type.1.value, l.clas.1.value, UInt32.ofNat (decVal l.ttl), l.rdata⟩

/-- The name that the data of a line refers to, which is the root if it refers to none. -/
def ZoneLine.target (l : ZoneLine) : List Bytes := (parse l.type.1 l.data).reverse

namespace ZoneFile

/-- The lines about a name, of a type and a class. -/
def about (file : ZoneFile) (name : List Bytes) (type : TYPE) (clas : CLAS) : List ZoneLine :=
  file.lines.filter fun l => l.labels ++ file.domain = name ∧ l.type.1 = type ∧ l.clas.1 = clas

/-- The records of these lines. -/
def records (file : ZoneFile) (name : List Bytes) (type : TYPE) (clas : CLAS) :
    List Rfc1035.Resource :=
  (file.about name type clas).map (·.resource file.domain)

/-- The addresses of a name. -/
def addresses (file : ZoneFile) (name : List Bytes) : List Rfc1035.Resource :=
  file.records name TYPE.A CLAS.IN ++ file.records name TYPE.AAAA CLAS.IN

/-- The labels of a name in front of the zone. -/
def front (file : ZoneFile) (name : List Bytes) : List Bytes :=
  name.take (name.length - file.domain.length)

/-- The first four labels of a name that has five in front of the zone, if they look like the
numbers of an address. -/
def quad (file : ZoneFile) (name : List Bytes) : Option (List Bytes) :=
  match file.front name with
  | [a, b, c, d, e] =>
      if e.length < 62 ∧ ∀ label ∈ [a, b, c, d], label.length ≤ 3 ∧ label.all isDigit then
        some [a, b, c, d]
      else none
  | _ => none

/-- What is found for a question: records with the names that their data refers to, or RCODE. -/
def find (file : ZoneFile) (q : Rfc1035.Question) :
    Except (BitVec 4) (List (Rfc1035.Resource × List Bytes)) :=
  match file.quad q.name with
  | some labels =>
      if ∀ t ∈ labels, IsOctet t then
        .ok [(⟨q.name, TYPE.A.value, CLAS.IN.value, 1,
          labels.map fun t => UInt8.ofNat (decVal t)⟩, [])]
      else .error 1
  | none =>
      if enumContains TYPE.entries ⟨q.type⟩ then
        if file.about q.name ⟨q.type⟩ ⟨q.clas⟩ = [] then .error 3
        else .ok ((file.about q.name ⟨q.type⟩ ⟨q.clas⟩).map fun l =>
          (l.resource file.domain, l.target))
      else .error 4

end ZoneFile

/-- RCODE and the three sections of a reply. -/
structure Sections where
  rcode : BitVec 4
  answer : List Rfc1035.Resource
  authority : List Rfc1035.Resource
  additional : List Rfc1035.Resource

/-- The sections of the reply to a question. -/
def ZoneFile.sections (file : ZoneFile) (q : Rfc1035.Question) : Sections :=
  let ns := file.records file.domain TYPE.NS CLAS.IN
  let soa := file.records file.domain TYPE.SOA CLAS.IN
  match file.find q with
  | .ok found =>
      let answer := found.map Prod.fst
      let additional := found.flatMap fun r => file.addresses r.2
      if q.type = TYPE.NS.value then ⟨0, answer, [], additional⟩
      else if ns = [] then ⟨3, answer, soa, additional⟩
      else ⟨0, answer, ns, additional⟩
  | .error rcode => ⟨rcode, [], if rcode = 3 then soa else [], []⟩

/-- The reply to a query with the given header and question. -/
def ZoneFile.message (file : ZoneFile) (hq : Rfc1035.Header) (q : Rfc1035.Question) :
    Rfc1035.Message where
  header := { hq with
    qr := true
    aa := true
    rd := true
    ra := false
    z := 0
    rcode := (file.sections q).rcode
    qdcount := 1
    ancount := UInt16.ofNat (file.sections q).answer.length
    nscount := UInt16.ofNat (file.sections q).authority.length
    arcount := UInt16.ofNat (file.sections q).additional.length }
  question := [q]
  answer := (file.sections q).answer
  authority := (file.sections q).authority
  additional := (file.sections q).additional

/-! ## The loader -/

theorem ConfigLine.s2dn_entry (l : ConfigLine) : s2dn l.entry.1 = l.file.base :=
  s2dn_separated (fun t ht hdot => ((l.file.domain_ok t ht).2 _ hdot).1 rfl)
    (fun t ht => (l.file.domain_ok t ht).1) l.domain_ok.2.2.2.2

theorem ConfigLine.entry_ne (l : ConfigLine) : l.entry.1 ≠ [] :=
  separated_ne_nil l.domain_ok.1 fun t ht => (l.file.domain_ok t ht).1

/-- The entries are scanned one after the other. -/
theorem scanEntries_text {rest : Bytes} (hrest : ∀ b ∈ rest, isSpace b = true)
    (lines : List ConfigLine) {fuel : ℕ} (hfuel : lines.length < fuel) :
    scanEntries fuel (linesText lines ++ rest) = some (lines.map (·.entry)) := by
  induction lines generalizing fuel with
  | nil =>
      obtain ⟨fuel, rfl⟩ : ∃ k, fuel = k + 1 := ⟨fuel - 1, by omega⟩
      have hskip : skipSpace rest = [] := List.dropWhile_eq_nil_iff.mpr hrest
      exact if_pos hskip
  | cons l lines ih =>
      rw [List.length_cons] at hfuel
      obtain ⟨fuel, rfl⟩ : ∃ k, fuel = k + 1 := ⟨fuel - 1, by omega⟩
      obtain ⟨-, hlen, hhead, hmem, -⟩ := l.domain_ok
      obtain ⟨hpath, hpathlen, hpathmem⟩ := l.path_ok
      have htext : linesText (l :: lines) ++ rest
          = ch '\n' :: (l.entry.1 ++ (ch ',' :: (l.path ++ (linesText lines ++ rest)))) := by
        simp [linesText, ConfigLine.text, ConfigLine.entry]
      -- the line feed of the line before is skipped
      have hskip : skipSpace (linesText (l :: lines) ++ rest)
          = l.entry.1 ++ (ch ',' :: (l.path ++ (linesText lines ++ rest))) := by
        rw [htext]
        show skipSpace (l.entry.1 ++ _) = _
        apply skipSpace_eq_self
        rw [List.head?_append_of_ne_nil _ l.entry_ne]
        exact hhead
      have hdomain : scanSet 255 (fun b => decide (b ≠ ch ','))
          (l.entry.1 ++ (ch ',' :: (l.path ++ (linesText lines ++ rest))))
          = some (l.entry.1, ch ',' :: (l.path ++ (linesText lines ++ rest))) := by
        apply scanSet_append l.entry_ne hlen (fun b hb => decide_eq_true (hmem b hb).1)
        rintro b ⟨⟩
        decide
      have hskip' : skipSpace (l.path ++ (linesText lines ++ rest))
          = l.path ++ (linesText lines ++ rest) := by
        apply skipSpace_eq_self
        rw [List.head?_append_of_ne_nil _ hpath]
        intro b hb
        exact (hpathmem b (List.mem_of_head? hb)).1
      have hword : scanSet 511 (fun b => !isSpace b) (l.path ++ (linesText lines ++ rest))
          = some (l.path, linesText lines ++ rest) := by
        apply scanSet_append hpath hpathlen (fun b hb => by rw [(hpathmem b hb).1]; rfl)
        intro b hb
        have hspace : isSpace b = true := by
          cases lines with
          | nil => exact hrest b (List.mem_of_head? hb)
          | cons l' lines =>
              cases hb
              decide
        rw [hspace]
        rfl
      have hne : ¬ l.entry.1 ++ (ch ',' :: (l.path ++ (linesText lines ++ rest))) = [] :=
        List.append_ne_nil_of_left_ne_nil l.entry_ne _
      have hnul : cstr l.entry.1 = l.entry.1 := cstr_eq_self fun h0 => (hmem 0 h0).2 rfl
      have hnul' : cstr l.path = l.path := cstr_eq_self fun h0 => (hpathmem 0 h0).2 rfl
      have htail : scanEntries fuel (linesText lines ++ rest) = some (lines.map (·.entry)) :=
        ih (by omega)
      rw [scanEntries, hskip, if_neg hne, hdomain]
      simp only [Option.bind_eq_bind, Option.bind_some, scanLit_cons, hskip', hword, htail, hnul,
        hnul', Option.pure_def, List.map_cons]
      rfl

theorem lines_text (cfg : ConfigFile) : Config.lines cfg.text = some (cfg.lines.map (·.entry)) := by
  obtain ⟨hne, hlen, hmem⟩ := cfg.forwardIP_ok
  obtain ⟨rest, hrest⟩ : ∃ rest, rest = (if cfg.last then [ch '\n'] else []) := ⟨_, rfl⟩
  have hspace : ∀ b ∈ rest, isSpace b = true := by
    intro b hb
    rw [hrest] at hb
    split_ifs at hb
    · rw [List.mem_singleton.mp hb]
      decide
    · cases hb
  have hskip : skipSpace cfg.text = cfg.text := by
    apply skipSpace_eq_self
    rw [ConfigFile.text, List.head?_append_of_ne_nil _ hne]
    intro b hb
    exact hmem b (List.mem_of_head? hb)
  have hscan : scanSet 19 (fun b => !isSpace b) cfg.text
      = some (cfg.forwardIP, linesText cfg.lines ++ rest) := by
    rw [ConfigFile.text, ← hrest]
    apply scanSet_append hne hlen (fun b hb => by rw [hmem b hb]; rfl)
    intro b hb
    have hhead : isSpace b = true := by
      cases hlines : cfg.lines with
      | nil =>
          rw [hlines] at hb
          exact hspace b (List.mem_of_head? hb)
      | cons l lines =>
          rw [hlines] at hb
          cases hb
          decide
    rw [hhead]
    rfl
  -- every line has a byte at least
  have hfuel : cfg.lines.length < (linesText cfg.lines ++ rest).length + 1 := by
    have hsum : ∀ lines : List ConfigLine, lines.length ≤ (linesText lines).length := by
      intro lines
      induction lines with
      | nil => exact Nat.zero_le _
      | cons l lines ih =>
          simp only [linesText, List.map_cons, List.flatten_cons, List.length_append,
            List.length_cons] at ih ⊢
          omega
    have hle := hsum cfg.lines
    rw [List.length_append]
    omega
  rw [Config.lines, hskip, hscan]
  exact scanEntries_text hspace cfg.lines hfuel

/-- Every line adds its zone, or finds one. -/
theorem foldlM_addZone {files : Bytes → Bytes} (lines : List ConfigLine)
    (hfiles : ∀ l ∈ lines, files l.path = l.file.text) (zones : Table DN Zone) :
    ∃ zones', (lines.map (·.entry)).foldlM (Config.addZone files) zones = some zones' := by
  induction lines generalizing zones with
  | nil => exact ⟨zones, rfl⟩
  | cons l lines ih =>
      have hrest := ih fun l' hl' => hfiles l' (List.mem_cons_of_mem _ hl')
      obtain ⟨z, hload, -, -⟩ := load_text l.file
      have hadd : ∃ zones₁, Config.addZone files zones l.entry = some zones₁ := by
        by_cases hmem : s2dn l.entry.1 ∈ zones
        · exact ⟨zones, if_pos hmem⟩
        · refine ⟨zones.insert (s2dn l.entry.1) z, ?_⟩
          have htext : files l.entry.2 = l.file.text := hfiles l List.mem_cons_self
          rw [Config.addZone, if_neg hmem, htext, l.s2dn_entry, hload, Option.map_some]
      obtain ⟨zones₁, hadd⟩ := hadd
      obtain ⟨zones', hzones'⟩ := hrest zones₁
      exact ⟨zones', by rw [List.map_cons, List.foldlM_cons, hadd]; exact hzones'⟩

/-- The loader accepts the text of a configuration file, and puts the zone of the first line for a
domain under it. -/
theorem load_config_text (cfg : ConfigFile) {files : Bytes → Bytes}
    (hfiles : ∀ l ∈ cfg.lines, files l.path = l.file.text) :
    ∃ config, Config.load files cfg.text = some config ∧
      ∀ domain : List Bytes, config.zones.lookup domain.reverse
        = (cfg.file domain).bind fun file => Zone.load file.base file.text := by
  have hlines := lines_text cfg
  obtain ⟨zones, hzones⟩ := foldlM_addZone cfg.lines hfiles ∅
  have hload : Config.load files cfg.text = some ⟨zones, under_of_foldlM hzones⟩ := by
    obtain ⟨⟨ip, s⟩, hip, hentries⟩ := Option.bind_eq_some_iff.mp hlines
    have hentries' : scanEntries (s.length + 1) s = some (cfg.lines.map (·.entry)) := hentries
    simp only [Config.load, Option.bind_eq_bind, hip, Option.bind_some, hentries']
    split
    · next zones' hzones' =>
        rw [Option.some.injEq, Config.mk.injEq]
        exact Option.some.inj (hzones'.symm.trans hzones)
    · next hnone =>
        rw [hzones] at hnone
        cases hnone
  refine ⟨_, hload, fun domain => ?_⟩
  obtain ⟨entries, hentries, hlook⟩ := lookup_load hload
  obtain rfl : cfg.lines.map (·.entry) = entries := Option.some.inj (hlines.symm.trans hentries)
  have hfirst : firstLine (cfg.lines.map (·.entry)) domain.reverse
      = (cfg.lines.find? fun l => l.file.domain = domain).map (·.entry) := by
    rw [firstLine, List.find?_map]
    congr 2
    funext l
    show decide (s2dn l.entry.1 = domain.reverse) = decide (l.file.domain = domain)
    rw [l.s2dn_entry, ZoneFile.base]
    exact decide_eq_decide.mpr List.reverse_inj
  rw [hlook, hfirst, ConfigFile.file]
  cases hfind : cfg.lines.find? fun l => l.file.domain = domain with
  | none => rfl
  | some l =>
      obtain rfl : l.file.domain = domain := by simpa using List.find?_some hfind
      have htext : files l.entry.2 = l.file.text := hfiles l (List.mem_of_find?_eq_some hfind)
      simp only [Option.map_some, Option.bind_some, htext]
      rfl

/-- The zone of a name. -/
theorem select_zone {cfg : ConfigFile} {config : Config}
    (hlook : ∀ domain : List Bytes, config.zones.lookup domain.reverse
      = (cfg.file domain).bind fun file => Zone.load file.base file.text) (name : List Bytes) :
    config.select name.reverse
      = (cfg.zone name).bind fun file => Zone.load file.base file.text := by
  induction name with
  | nil => rfl
  | cons label labels ih =>
      have hfull := hlook (label :: labels)
      rw [List.reverse_cons] at hfull ⊢
      rw [config.select_concat, hfull, ih, ConfigFile.zone]
      cases hfile : cfg.file (label :: labels) with
      | none => rfl
      | some file =>
          obtain ⟨z, hload, -, -⟩ := load_text file
          rw [Option.bind_some, Option.some_or, Option.bind_some, hload, Option.some_or]

/-! ## The lookup -/

section lookup

variable {file : ZoneFile} {z : Zone} (hload : Zone.load file.base file.text = some z)
include hload

theorem domain_of_file : z.domain = file.domain.reverse := Zone.domain_of_load hload

/-- Under a key the zone has the records of the lines about it. -/
theorem lookup_about (name : List Bytes) (type : TYPE) (clas : CLAS) :
    (z.rrs.lookup (name.reverse, type, clas)).getD []
      = (file.about name type clas).map (·.record file.base) := by
  obtain ⟨z', hload', -, hlook⟩ := load_text file
  obtain rfl : z' = z := Option.some.inj (hload'.symm.trans hload)
  rw [hlook, List.filter_map, ZoneFile.about]
  congr 1
  apply List.filter_congr
  intro l _
  have hname : file.base ++ l.labels.reverse = name.reverse ↔ l.labels ++ file.domain = name := by
    rw [ZoneFile.base, ← List.reverse_append, List.reverse_inj]
  simp [Question.key, ZoneLine.record, hname]

/-- There is none when there are no such lines. -/
theorem lookup_eq_none_iff (name : List Bytes) (type : TYPE) (clas : CLAS) :
    z.rrs.lookup (name.reverse, type, clas) = none ↔ file.about name type clas = [] := by
  have hlook := lookup_about hload name type clas
  cases hrrs : z.rrs.lookup (name.reverse, type, clas) with
  | none =>
      rw [hrrs] at hlook
      exact iff_of_true rfl (List.map_eq_nil_iff.mp hlook.symm)
  | some rrs =>
      rw [hrrs, Option.getD_some] at hlook
      refine iff_of_false (by rintro ⟨⟩) fun hnil => (z.keyed _ _ hrrs).1 ?_
      rw [hlook, hnil, List.map_nil]

omit hload in
theorem wire_record (l : ZoneLine) : (l.record file.base).wire = l.resource file.domain := by
  rw [Record.wire, ZoneLine.resource]
  congr 1
  show (file.base ++ l.labels.reverse).reverse = _
  rw [ZoneFile.base, List.reverse_append, List.reverse_reverse, List.reverse_reverse]

/-- The records under a key, as a decoder sees them. -/
theorem wire_lookup (name : List Bytes) (type : TYPE) (clas : CLAS) :
    ((z.rrs.lookup (name.reverse, type, clas)).getD []).map Record.wire
      = file.records name type clas := by
  rw [lookup_about hload, List.map_map, ZoneFile.records]
  exact List.map_congr_left fun l _ => wire_record l

theorem wire_getIP (dn : DN) : (z.getIP dn).map Record.wire = file.addresses dn.reverse := by
  have ha := wire_lookup hload dn.reverse TYPE.A CLAS.IN
  have haaaa := wire_lookup hload dn.reverse TYPE.AAAA CLAS.IN
  rw [List.reverse_reverse] at ha haaaa
  rw [Zone.getIP, List.map_append, ha, haaaa, ZoneFile.addresses]

end lookup

/-- What `niplike` does with a name of the zone. -/
theorem niplike_file {file : ZoneFile} {name : List Bytes} (hin : file.domain <:+ name) :
    (file.quad name = none → niplike name.reverse file.base = .ok []) ∧
      ∀ labels, file.quad name = some labels →
        ((∀ t ∈ labels, IsOctet t) → ∃ rr, niplike name.reverse file.base = .ok [rr] ∧
          rr.datadn = [] ∧ rr.wire = ⟨name, TYPE.A.value, CLAS.IN.value, 1,
            labels.map fun t => UInt8.ofNat (decVal t)⟩) ∧
        ((¬ ∀ t ∈ labels, IsOctet t) →
          niplike name.reverse file.base = .error .formatError) := by
  obtain ⟨sub, rfl⟩ := hin
  have hfront : file.front (sub ++ file.domain) = sub := by
    rw [ZoneFile.front, List.length_append, Nat.add_sub_cancel, List.take_left]
  have hnip := niplike_append file.base sub
  have hreverse : (sub ++ file.domain).reverse = file.base ++ sub.reverse := List.reverse_append
  rw [ZoneFile.quad, hfront, hreverse]
  by_cases hfive : ∃ a b c d e, sub = [a, b, c, d, e]
  · obtain ⟨a, b, c, d, e, rfl⟩ := hfive
    rw [hnip]
    by_cases hshape : e.length < 62 ∧
        ∀ label ∈ [a, b, c, d], label.length ≤ 3 ∧ label.all isDigit
    · simp only [if_pos hshape, dn2s_dropLast]
      refine ⟨by rintro ⟨⟩, ?_⟩
      rintro labels ⟨⟩
      have hdata := fun r => rdata_quad (r := r) fun t ht =>
        List.all_eq_true.mp (hshape.2 t ht).2
      constructor
      · intro hoctets
        rw [Record.new_of_rdata _ CLAS.IN 1 ((hdata _).mpr ⟨hoctets, rfl⟩)]
        refine ⟨_, rfl, rfl, ?_⟩
        rw [Record.wire, ← hreverse, List.reverse_reverse]
      · intro hoctets
        cases hnew : Record.new (file.base ++ [a, b, c, d, e].reverse) TYPE.A CLAS.IN 1
            (a ++ ch '.' :: (b ++ ch '.' :: (c ++ ch '.' :: d))) with
        | ok rr =>
            obtain ⟨hq, -, htext⟩ := Record.new_eq_ok hnew
            have hrdata := rr.rdata_eq
            rw [htext, congrArg Question.type hq] at hrdata
            exact absurd ((hdata _).mp hrdata).1 hoctets
        | error e =>
            rw [Record.new_error hnew]
            rfl
    · simp only [if_neg hshape]
      exact ⟨fun _ => trivial, by rintro labels ⟨⟩⟩
  · -- The names without five labels in front of the zone.
    have hnil : niplike (file.base ++ sub.reverse) file.base = .ok [] := by
      rw [hnip]
      split
      · next a b c d e => exact absurd ⟨a, b, c, d, e, rfl⟩ hfive
      · rfl
    refine ⟨fun _ => hnil, ?_⟩
    intro labels hlabels
    split at hlabels
    · next a b c d e => exact absurd ⟨a, b, c, d, e, rfl⟩ hfive
    · cases hlabels

/-- A lookup throws what the matcher throws. -/
theorem Zone.get_of_malformed {z : Zone} {q : Question} (hq : within q.domain z.domain) {e : Exn}
    (hnip : niplike q.domain z.domain = .error e) : z.get q = .error e := by
  rw [Zone.get, if_pos hq, hnip]

/-- What a zone finds, against what its file says. -/
inductive Mirrors : Except Exn (List Record) →
    Except (BitVec 4) (List (Rfc1035.Resource × List Bytes)) → Prop
  | found (rrs : List Record) :
      Mirrors (.ok rrs) (.ok (rrs.map fun r => (r.wire, r.datadn.reverse)))
  | format : Mirrors (.error .formatError) (.error 1)
  | name : Mirrors (.error .nameError) (.error 3)
  | type : Mirrors (.error .notImplemented) (.error 4)

theorem mirrors_get {file : ZoneFile} {z : Zone}
    (hload : Zone.load file.base file.text = some z) {question : Rfc1035.Question}
    (hin : file.domain <:+ question.name) :
    Mirrors (z.get (asked question)) (file.find question) := by
  have hdomain := domain_of_file hload
  have hwithin : within (asked question).domain z.domain := by
    rw [hdomain]
    exact List.reverse_prefix.mpr hin
  obtain ⟨hplain, hquad⟩ := niplike_file hin
  have hbase : file.base = z.domain := hdomain.symm
  rw [hbase] at hplain hquad
  rw [ZoneFile.find]
  cases hlabels : file.quad question.name with
  | some labels =>
      obtain ⟨hrecord, herror⟩ := hquad labels hlabels
      dsimp only
      by_cases hoctets : ∀ t ∈ labels, IsOctet t
      · obtain ⟨rr, hnip, hdatadn, hwire⟩ := hrecord hoctets
        rw [if_pos hoctets, Zone.get_of_nip hwithin hnip, ← hwire]
        have hfound := Mirrors.found [rr]
        rw [List.map_singleton, hdatadn] at hfound
        exact hfound
      · rw [if_neg hoctets, Zone.get_of_malformed hwithin (herror hoctets)]
        exact .format
  | none =>
      have hnip := hplain hlabels
      dsimp only
      by_cases htype : enumContains TYPE.entries ⟨question.type⟩
      · rw [if_pos htype, Zone.get_of_key hwithin hnip htype]
        have hnone := lookup_eq_none_iff hload question.name ⟨question.type⟩ ⟨question.clas⟩
        have hlook := lookup_about hload question.name ⟨question.type⟩ ⟨question.clas⟩
        cases hrrs : z.rrs.lookup (asked question).key with
        | none =>
            rw [if_pos (hnone.mp hrrs)]
            exact .name
        | some rrs =>
            have hsome : z.rrs.lookup (question.name.reverse, ⟨question.type⟩, ⟨question.clas⟩)
                = some rrs := hrrs
            rw [hsome, Option.getD_some] at hlook
            rw [if_neg fun hnil => by rw [hnone.mpr hnil] at hsome; cases hsome]
            have hfound := Mirrors.found rrs
            rw [hlook, List.map_map] at hfound
            rw [hlook]
            have hmap : ((fun r : Record => (r.wire, r.datadn.reverse)) ∘
                fun l : ZoneLine => l.record file.base)
                  = fun l => (l.resource file.domain, l.target) := by
              funext l
              exact congrArg (·, l.target) (wire_record l)
            rwa [hmap] at hfound
      · rw [if_neg htype, Zone.get_of_unknown hwithin hnip htype]
        exact .type

/-! ## The reply -/

/-- The reply from a zone that has been loaded from a file. -/
theorem reply_file {file : ZoneFile} {z : Zone} (hload : Zone.load file.base file.text = some z)
    {question : Rfc1035.Question} (hin : file.domain <:+ question.name) {h : Header}
    (hanswer : h.answer = []) (hauthority : h.authority = []) (hadditional : h.additional = []) :
    ∃ answer authority additional, z.reply (asked question) h = { h with
        AA := true, RD := true, RA := false, RCODE := (file.sections question).rcode
        answer := answer, authority := authority, additional := additional } ∧
      answer.map Record.wire = (file.sections question).answer ∧
      authority.map Record.wire = (file.sections question).authority ∧
      additional.map Record.wire = (file.sections question).additional := by
  have hmirrors := mirrors_get hload hin
  have hns := wire_lookup hload file.domain TYPE.NS CLAS.IN
  have hsoa := wire_lookup hload file.domain TYPE.SOA CLAS.IN
  have hnone := lookup_eq_none_iff hload file.domain TYPE.NS CLAS.IN
  rw [← domain_of_file hload] at hns hsoa hnone
  unfold Zone.reply ZoneFile.sections
  generalize z.get (asked question) = got, file.find question = found at hmirrors
  cases hmirrors with
  | format => exact ⟨h.answer, h.authority, h.additional, rfl, by rw [hanswer]; rfl,
      by rw [hauthority]; rfl, by rw [hadditional]; rfl⟩
  | name => exact ⟨h.answer, _, h.additional, rfl, by rw [hanswer]; rfl, hsoa,
      by rw [hadditional]; rfl⟩
  | type => exact ⟨h.answer, h.authority, h.additional, rfl, by rw [hanswer]; rfl,
      by rw [hauthority]; rfl, by rw [hadditional]; rfl⟩
  | found rrs =>
      have hanswers : rrs.map Record.wire
          = (rrs.map fun r => (r.wire, r.datadn.reverse)).map Prod.fst := by
        rw [List.map_map]
        rfl
      have haddresses : (rrs.flatMap fun rr => z.getIP rr.datadn).map Record.wire
          = (rrs.map fun r => (r.wire, r.datadn.reverse)).flatMap
              fun r => file.addresses r.2 := by
        rw [List.map_flatMap, List.flatMap_map]
        congr 1
        funext r
        exact wire_getIP hload r.datadn
      have htype : (asked question).type = TYPE.NS ↔ question.type = TYPE.NS.value := by
        constructor
        · intro heq
          exact congrArg TYPE.value heq
        · intro heq
          exact congrArg TYPE.mk heq
      dsimp only
      by_cases hasked : question.type = TYPE.NS.value
      · rw [if_pos hasked, if_pos (htype.mpr hasked)]
        exact ⟨_, h.authority, _, rfl, hanswers, by rw [hauthority]; rfl, haddresses⟩
      · rw [if_neg hasked, if_neg fun heq => hasked (htype.mp heq)]
        cases hrrs : z.rrs.lookup (z.domain, TYPE.NS, CLAS.IN) with
        | none =>
            have hrecords : file.records file.domain TYPE.NS CLAS.IN = [] := by
              rw [ZoneFile.records, hnone.mp hrrs, List.map_nil]
            rw [if_pos hrecords]
            exact ⟨_, _, _, rfl, hanswers, hsoa, haddresses⟩
        | some ns =>
            rw [hrrs, Option.getD_some] at hns
            have hrecords : file.records file.domain TYPE.NS CLAS.IN ≠ [] := by
              rw [← hns]
              exact fun hnil => (z.keyed _ _ hrrs).1 (List.map_eq_nil_iff.mp hnil)
            rw [if_neg hrecords]
            exact ⟨_, _, _, rfl, hanswers, hns, haddresses⟩

/-- The zone of a name is one of its suffixes. -/
theorem suffix_of_zone {cfg : ConfigFile} {name : List Bytes} {file : ZoneFile}
    (h : cfg.zone name = some file) : file.domain <:+ name := by
  induction name with
  | nil => cases h
  | cons label labels ih =>
      rw [ConfigFile.zone, Option.or_eq_some_iff] at h
      rcases h with hfile | ⟨-, h⟩
      · obtain ⟨l, hfind, rfl⟩ := Option.map_eq_some_iff.mp hfile
        obtain hdomain : l.file.domain = label :: labels := by simpa using List.find?_some hfind
        exact hdomain ▸ List.suffix_rfl
      · exact (ih h).trans (List.suffix_cons label labels)

/-- The server that is started with the text of a configuration file answers every query with one
question whose name lies in a configured domain, with the encoding of the message that the zone
file says to it, and sends every other one on. -/
theorem query_text (cfg : ConfigFile) (files : Bytes → Bytes)
    (hfiles : ∀ l ∈ cfg.lines, files l.path = l.file.text) :
    ∃ config, Config.load files cfg.text = some config ∧
      ∀ {qs rest : Bytes} {hq : Rfc1035.Header} {question : Rfc1035.Question},
        Rfc1035.readHeader qs = some (hq, question.encode ++ rest) → hq.qdcount = 1 →
        (∀ l ∈ question.name, 1 ≤ l.length ∧ l.length ≤ 255) →
        (cfg.zone question.name = none → query config qs = some .forward) ∧
          ∀ file, cfg.zone question.name = some file →
            (∃ header, query config qs
              = some (.answer header (file.message hq question).encode)) ∧
            ((file.message hq question).Ok →
              Rfc1035.decode (file.message hq question).encode
                = some (file.message hq question)) := by
  obtain ⟨config, hload, hlook⟩ := load_config_text cfg hfiles
  refine ⟨config, hload, ?_⟩
  intro qs rest hq question hheader hone hname
  have hparse := parse_one hheader hone hname
  have hselect := select_zone hlook question.name
  constructor
  · intro hzone
    rw [hzone] at hselect
    exact query_forward hparse rfl hselect
  · intro file hzone
    refine ⟨?_, Rfc1035.decode_encode⟩
    obtain ⟨z, hloaded, -, -⟩ := load_text file
    rw [hzone, Option.bind_some, hloaded] at hselect
    obtain ⟨answer, authority, additional, hreply, hanswers, hauthorities, hadditionals⟩ :=
      reply_file (h := Header.ofWire hq [asked question]) hloaded (suffix_of_zone hzone) rfl rfl rfl
    have hwire : (z.reply (asked question) (Header.ofWire hq [asked question])).close.wire
        = file.message hq question := by
      rw [hreply, ZoneFile.message, ← hanswers, ← hauthorities, ← hadditionals]
      simp only [Header.close, Header.wire, Header.ofWire, List.length_map, List.map_singleton,
        List.length_singleton, wire_asked]
      rfl
    refine ⟨(z.reply (asked question) (Header.ofWire hq [asked question])).close, ?_⟩
    rw [query_eq hparse rfl hselect, ← hwire, ← data_eq_encode]
    rfl

/-- A configuration file with the line of one zone. -/
def bareConfigFile : ConfigFile where
  forwardIP := ascii "8.8.8.8"
  lines := [{
    file := bareFile
    dot := true
    path := ascii "z"
    domain_ok := by decide +kernel
    path_ok := by decide +kernel }]
  last := true
  forwardIP_ok := by decide +kernel

example : bareConfigFile.text = ascii "8.8.8.8\na.,z\n" := by decide +kernel

/-- A query for an address of that zone. -/
theorem query_text_bare : ∃ config header,
    Config.load (fun _ => bareFile.text) bareConfigFile.text = some config ∧
      query config askBare = some (.answer header (bareFile.message
        ⟨0x707, false, 0, false, false, true, false, 0, 0, 1, 0, 0, 0⟩
        ⟨[ascii "w", ascii "a"], 1, 1⟩).encode) ∧
      (bareFile.sections ⟨[ascii "w", ascii "a"], 1, 1⟩).answer.map Rfc1035.Resource.rdata
        = [[1, 2, 3, 4]] := by
  have hfiles : ∀ l ∈ bareConfigFile.lines, (fun _ => bareFile.text) l.path = l.file.text := by
    intro l hl
    rw [List.mem_singleton.mp hl]
  have hzone : bareConfigFile.zone [ascii "w", ascii "a"] = some bareFile := rfl
  obtain ⟨config, hload, hquery⟩ := query_text bareConfigFile (fun _ => bareFile.text) hfiles
  obtain ⟨-, hanswer⟩ := hquery readHeader_askBare rfl (by decide +kernel)
  obtain ⟨⟨header, hheader⟩, -⟩ := hanswer bareFile hzone
  exact ⟨config, header, hload, hheader, by decide +kernel⟩

/-! ## Other queries -/

/-- The answer to a query that does not count one question. -/
theorem query_of_count (config : Config) {qs : Bytes} {h : Header}
    (hparse : Header.parse qs = some h) (hne : h.QDCOUNT ≠ 1) :
    query config qs = some { h with RCODE := 4 }.send := by
  rw [query, hparse]
  show caught (queryHeader config h) = _
  apply result_of_ends (fun r => caught r = _)
  simp only [queryHeader, ends_bind, ends_get, ends_ite, ends_throw, ne_eq, hne,
    not_false_eq_true, true_implies, not_true, false_implies, and_true, caught]

/-- The questions of a query are sent back without any record. -/
theorem wire_notImplemented {hq : Rfc1035.Header} {questions : List Rfc1035.Question}
    (hcount : hq.qdcount.toNat = questions.length) :
    { Header.ofWire hq (questions.map asked) with RCODE := 4 }.close.wire = ⟨{ hq with
      qr := true, z := 0, rcode := 4, ancount := 0, nscount := 0, arcount := 0 },
      questions, [], [], []⟩ := by
  have hquestions : (questions.map asked).map Question.wire = questions := by
    rw [List.map_map, show Question.wire ∘ asked = id from funext wire_asked, List.map_id]
  have hqd : UInt16.ofNat (questions.map asked).length = hq.qdcount := by
    rw [List.length_map, ← hcount, UInt16.ofNat_toNat]
  simp only [Header.close, Header.wire, Header.ofWire, hquestions, hqd]
  rfl

/-- A query with any other number of questions is not sent on: whatever its zones are, the server
answers it with NOT IMPLEMENTED, all its questions and no records. -/
theorem query_not_one (config : Config) {qs rest : Bytes} {hq : Rfc1035.Header}
    {questions : List Rfc1035.Question}
    (hheader : Rfc1035.readHeader qs
      = some (hq, (questions.map Rfc1035.Question.encode).flatten ++ rest))
    (hcount : hq.qdcount.toNat = questions.length) (hone : questions.length ≠ 1)
    (hname : ∀ q ∈ questions, Rfc1035.NameOk q.name) :
    ∃ header data, query config qs = some (.answer header data) ∧
      Rfc1035.decode data = some ⟨{ hq with
        qr := true, z := 0, rcode := 4, ancount := 0, nscount := 0, arcount := 0 },
        questions, [], [], []⟩ := by
  have hparse := parse_encode hheader hcount fun q hmem l hl =>
    ⟨(hname q hmem l hl).1, (hname q hmem l hl).2.trans (by omega)⟩
  have hne : (Header.ofWire hq (questions.map asked)).QDCOUNT ≠ 1 := by
    intro heq
    change hq.qdcount = 1 at heq
    rw [heq] at hcount
    exact hone hcount.symm
  have hok : { Header.ofWire hq (questions.map asked) with RCODE := 4 }.close.wire.Ok := by
    apply wire_ok
    · intro q hmem
      obtain ⟨q', hq', rfl⟩ := List.mem_map.mp hmem
      exact nameOk_reverse (hname q' hq')
    · exact ⟨List.forall_mem_nil _, List.forall_mem_nil _, List.forall_mem_nil _⟩
    · show (questions.map asked).length < 65536
      rw [List.length_map, ← hcount]
      exact hq.qdcount.toNat_lt
    · exact Nat.zero_lt_succ _
    · exact Nat.zero_lt_succ _
    · exact Nat.zero_lt_succ _
  have hdecode := Rfc1035.decode_encode hok
  rw [← data_eq_encode, wire_notImplemented hcount] at hdecode
  exact ⟨_, _, query_of_count config hparse hne, hdecode⟩

/-- A query with two questions. -/
def askTwo : Bytes := [7, 7, 1, 0, 0, 2, 0, 0, 0, 0, 0, 0] ++
  ([⟨[ascii "w", ascii "a"], 1, 1⟩, ⟨[ascii "a"], 2, 1⟩].map Rfc1035.Question.encode).flatten

theorem query_not_one_two : ∃ header data, query bareConfig askTwo = some (.answer header data) ∧
    Rfc1035.decode data = some ⟨⟨0x707, true, 0, false, false, true, false, 0, 4, 2, 0, 0, 0⟩,
      [⟨[ascii "w", ascii "a"], 1, 1⟩, ⟨[ascii "a"], 2, 1⟩], [], [], []⟩ := by
  have hheader : Rfc1035.readHeader askTwo
      = some (⟨0x707, false, 0, false, false, true, false, 0, 0, 2, 0, 0, 0⟩,
        ([⟨[ascii "w", ascii "a"], 1, 1⟩, ⟨[ascii "a"], 2, 1⟩].map
          Rfc1035.Question.encode).flatten ++ []) := by
    decide +kernel
  exact query_not_one bareConfig hheader rfl (by decide) (by decide +kernel)

end Dnsd

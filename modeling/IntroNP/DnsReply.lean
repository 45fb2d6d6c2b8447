/-
# The wire form of the replies of dnsd

The server writes its messages with its own functions; this file reads them with the decoder of
RFC 1035.  A header that the server has closed is written as the encoding of a message, so that
the decoder gives the message back.

* `Header.wire`, `data_eq_encode` : the message that a header stands for, and its encoding;
* `parse_encode`, `parse_wire` : what the server reads from a query;
* `reply_records` : a property of all records of a reply;
* `reply_decodes` : the decoder reads a local reply.
-/
import IntroNP.Rfc1035
import IntroNP.DnsNip
import IntroNP.DnsServer

namespace Dnsd

/-! ## Headers and messages -/

/-- A question, as a decoder sees it. -/
def Question.wire (q : Question) : Rfc1035.Question := ⟨q.domain.reverse, q.type.value, q.clas.value⟩

/-- A record, as a decoder sees it. -/
def Record.wire (r : Record) : Rfc1035.Resource :=
  ⟨r.domain.reverse, r.type.value, r.clas.value, r.ttl, r.rdata⟩

/-- A header with its vectors, as a decoder sees it. -/
def Header.wire (h : Header) : Rfc1035.Message where
  header := {
    id := h.ID
    qr := h.QR
    opcode := h.Opcode
    aa := h.AA
    tc := h.TC
    rd := h.RD
    ra := h.RA
    z := h.Z
    rcode := h.RCODE
    qdcount := h.QDCOUNT
    ancount := h.ANCOUNT
    nscount := h.NSCOUNT
    arcount := h.ARCOUNT }
  question := h.question.map Question.wire
  answer := h.answer.map Record.wire
  authority := h.authority.map Record.wire
  additional := h.additional.map Record.wire

theorem flags_wire (h : Header) : h.flags = h.wire.header.flags := by
  have hlow : h.RD.toNat + 2 * h.TC.toNat + 4 * h.AA.toNat + 8 * h.Opcode.toNat + 128 * h.QR.toNat
      = 128 * h.QR.toNat + 8 * h.Opcode.toNat + 4 * h.AA.toNat + 2 * h.TC.toNat + h.RD.toNat := by
    omega
  have hhigh : h.RCODE.toNat + 16 * h.Z.toNat + 128 * h.RA.toNat
      = 128 * h.RA.toNat + 16 * h.Z.toNat + h.RCODE.toNat := by
    omega
  rw [Header.flags, hlow, hhigh]
  rfl

/-- What the server writes is the encoding of the message. -/
theorem data_eq_encode (h : Header) : h.data = h.wire.encode := by
  have hquestion : h.question.map Question.dump
      = (h.question.map Question.wire).map Rfc1035.Question.encode := by
    rw [List.map_map]
    rfl
  have hrecords : ∀ rs : List Record,
      rs.map Record.dump = (rs.map Record.wire).map Rfc1035.Resource.encode := by
    intro rs
    rw [List.map_map]
    rfl
  rw [Header.data, hquestion, hrecords, hrecords, hrecords, flags_wire]
  rfl

/-- A record that can be written. -/
def Record.Ok (r : Record) : Prop := Rfc1035.NameOk r.domain ∧ r.rdata.length < 65536

theorem nameOk_reverse {d : DN} (h : Rfc1035.NameOk d) : Rfc1035.NameOk d.reverse :=
  fun l hl => h l (List.mem_reverse.mp hl)

/-- The message of a header that has been closed can be written. -/
theorem wire_ok {h : Header} (hquestion : ∀ q ∈ h.question, Rfc1035.NameOk q.domain)
    (hrecords : (∀ r ∈ h.answer, r.Ok) ∧ (∀ r ∈ h.authority, r.Ok) ∧ ∀ r ∈ h.additional, r.Ok)
    (hq : h.question.length < 65536) (hanswer : h.answer.length < 65536)
    (hauthority : h.authority.length < 65536) (hadditional : h.additional.length < 65536) :
    h.close.wire.Ok := by
  obtain ⟨hrec₁, hrec₂, hrec₃⟩ := hrecords
  have hresource : ∀ rs : List Record, (∀ r ∈ rs, r.Ok) →
      ∀ r ∈ rs.map Record.wire, Rfc1035.Resource.Ok r := by
    intro rs hrs r hr
    obtain ⟨r, hmem, rfl⟩ := List.mem_map.mp hr
    exact ⟨nameOk_reverse (hrs r hmem).1, (hrs r hmem).2⟩
  have hcount : ∀ {α β : Type} (as : List α) (f : α → β), as.length < 65536 →
      (UInt16.ofNat as.length).toNat = (as.map f).length := by
    intro α β as f hlt
    rw [UInt16.toNat_ofNat', List.length_map]
    omega
  constructor
  · intro q hmem
    obtain ⟨q₀, hmem₀, rfl⟩ := List.mem_map.mp hmem
    exact nameOk_reverse (hquestion q₀ hmem₀)
  · exact hresource _ hrec₁
  · exact hresource _ hrec₂
  · exact hresource _ hrec₃
  · exact hcount _ _ hq
  · exact hcount _ _ hanswer
  · exact hcount _ _ hauthority
  · exact hcount _ _ hadditional

/-! ## The query -/

theorem data2uint16_eq (s : Bytes) : data2uint16 s = Rfc1035.readU16 s := by
  rcases s with _ | ⟨_, _ | ⟨_, _⟩⟩ <;> rfl

/-- The question that the server reads from a query. -/
def asked (question : Rfc1035.Question) : Question :=
  ⟨question.name.reverse, ⟨question.type⟩, ⟨question.clas⟩⟩

theorem wire_asked (question : Rfc1035.Question) : (asked question).wire = question := by
  show (⟨question.name.reverse.reverse, question.type, question.clas⟩ : Rfc1035.Question) = question
  rw [List.reverse_reverse]

/-- The header that the server reads from a query. -/
def Header.ofWire (hq : Rfc1035.Header) (question : List Question) : Header where
  ID := hq.id
  RD := hq.rd
  TC := hq.tc
  AA := hq.aa
  Opcode := hq.opcode
  QR := hq.qr
  RCODE := hq.rcode
  Z := hq.z
  RA := hq.ra
  QDCOUNT := hq.qdcount
  ANCOUNT := hq.ancount
  NSCOUNT := hq.nscount
  ARCOUNT := hq.arcount
  question := question
  answer := []
  authority := []
  additional := []

/-- The server reads the header as a decoder does, and the questions behind it. -/
theorem parse_eq_map {qs rest : Bytes} {hq : Rfc1035.Header}
    (hheader : Rfc1035.readHeader qs = some (hq, rest)) :
    Header.parse qs
      = (parseQuestions hq.qdcount.toNat (rest ++ [0])).map (Header.ofWire hq) := by
  unfold Rfc1035.readHeader at hheader
  split at hheader
  case h_2 => cases hheader
  next i₁ i₂ f₁ f₂ s =>
    simp only [Option.bind_eq_bind, Option.bind_eq_some_iff, Option.pure_def, Option.some.injEq,
      Prod.exists, Prod.mk.injEq] at hheader
    obtain ⟨qd, s₁, hqd, an, s₂, han, ns, s₃, hns, ar, s₄, har, rfl, rfl⟩ := hheader
    simp only [Header.parse, List.cons_append, data2uint16_eq, Rfc1035.readU16_append hqd,
      Rfc1035.readU16_append han, Rfc1035.readU16_append hns, Rfc1035.readU16_append har,
      Option.bind_eq_bind, Option.bind_some, Option.pure_def]
    cases parseQuestions qd.toNat (s₄ ++ [0]) <;> rfl

/-- The server reads the questions of a query one after the other. -/
theorem parseQuestions_encode (questions : List Rfc1035.Question)
    (hname : ∀ q ∈ questions, ∀ l ∈ q.name, 1 ≤ l.length ∧ l.length ≤ 255) (rest : Bytes) :
    parseQuestions questions.length ((questions.map Rfc1035.Question.encode).flatten ++ rest)
      = some (questions.map asked) := by
  induction questions with
  | nil => rfl
  | cons q questions ih =>
      have htail := ih fun q' hq' => hname q' (List.mem_cons_of_mem _ hq')
      have hlabels : ∀ l ∈ q.name.reverse, 1 ≤ l.length ∧ l.length ≤ 255 := fun l hl =>
        hname q List.mem_cons_self l (List.mem_reverse.mp hl)
      have hu16 : ∀ (n : UInt16) (t : Bytes), data2uint16 (u16 n ++ t) = some (n, t) := by
        intro n t
        rw [data2uint16_eq]
        exact Rfc1035.readU16_u16 n t
      have hencode : ((q :: questions).map Rfc1035.Question.encode).flatten ++ rest
          = dn2data q.name.reverse ++ (u16 q.type ++ (u16 q.clas ++
            ((questions.map Rfc1035.Question.encode).flatten ++ rest))) := by
        rw [dn2data, List.reverse_reverse]
        simp only [List.map_cons, List.flatten_cons, Rfc1035.Question.encode, Rfc1035.encodeName,
          List.append_assoc]
        rfl
      rw [hencode, List.length_cons, parseQuestions, data2dn_dn2data hlabels]
      simp only [Option.bind_eq_bind, Option.bind_some, hu16, htail, Option.pure_def,
        List.map_cons]
      rfl

/-- What the server reads from a query whose names are written in labels. -/
theorem parse_encode {qs rest : Bytes} {hq : Rfc1035.Header} {questions : List Rfc1035.Question}
    (hheader : Rfc1035.readHeader qs
      = some (hq, (questions.map Rfc1035.Question.encode).flatten ++ rest))
    (hcount : hq.qdcount.toNat = questions.length)
    (hname : ∀ q ∈ questions, ∀ l ∈ q.name, 1 ≤ l.length ∧ l.length ≤ 255) :
    Header.parse qs = some (Header.ofWire hq (questions.map asked)) := by
  rw [parse_eq_map hheader, hcount, List.append_assoc, parseQuestions_encode questions hname]
  rfl

theorem parse_one {qs rest : Bytes} {hq : Rfc1035.Header} {question : Rfc1035.Question}
    (hheader : Rfc1035.readHeader qs = some (hq, question.encode ++ rest))
    (hone : hq.qdcount = 1) (hname : ∀ l ∈ question.name, 1 ≤ l.length ∧ l.length ≤ 255) :
    Header.parse qs = some (Header.ofWire hq [asked question]) := by
  have hflatten : ([question].map Rfc1035.Question.encode).flatten = question.encode := by
    rw [List.map_singleton, List.flatten_singleton]
  rw [← hflatten] at hheader
  exact parse_encode hheader (by rw [hone]; rfl) (List.forall_mem_singleton.mpr hname)

/-- What the server reads from a query with one question. -/
theorem parse_wire {qs rest : Bytes} {hq : Rfc1035.Header} {question : Rfc1035.Question}
    (hheader : Rfc1035.readHeader qs = some (hq, question.encode ++ rest))
    (hone : hq.qdcount = 1) (hname : ∀ l ∈ question.name, 1 ≤ l.length ∧ l.length ≤ 255) :
    ∃ h, Header.parse qs = some h ∧ h.ID = hq.id ∧ h.Opcode = hq.opcode ∧
      h.question = [⟨question.name.reverse, ⟨question.type⟩, ⟨question.clas⟩⟩] :=
  ⟨_, parse_one hheader hone hname, rfl, rfl, rfl⟩

/-! ## The reply -/

/-- The labels of the names of all zones and records have 1 to 63 bytes. -/
def Config.LabelsOk (config : Config) : Prop :=
  ∀ e ∈ config.zones.entries, Rfc1035.NameOk e.2.domain ∧
    ∀ rrs ∈ e.2.rrs.entries, ∀ r ∈ rrs.2, Rfc1035.NameOk r.domain

instance (config : Config) : Decidable config.LabelsOk :=
  inferInstanceAs (Decidable (∀ e ∈ config.zones.entries, (∀ l ∈ e.2.domain, _ ∧ _) ∧
    ∀ rrs ∈ e.2.rrs.entries, ∀ r ∈ rrs.2, ∀ l ∈ r.domain, _ ∧ _))

theorem Config.LabelsOk.record {config : Config} (h : config.LabelsOk) {dn : DN} {z : Zone}
    (hz : config.zones.lookup dn = some z) (k : Key) :
    ∀ r ∈ (z.rrs.lookup k).getD [], Rfc1035.NameOk r.domain := by
  intro r hr
  obtain ⟨rrs, hlook, hr⟩ := Table.mem_getD_nil.mp hr
  exact (h ⟨dn, z⟩ (Table.mem_entries_iff.mpr hz)).2 ⟨k, rrs⟩
    (Table.mem_entries_iff.mpr hlook) r hr

/-- The reply has the ID, the opcode and the question of the query. -/
theorem reply_frame (z : Zone) (q : Question) (h : Header) :
    (z.reply q h).ID = h.ID ∧ (z.reply q h).Opcode = h.Opcode ∧
      (z.reply q h).question = h.question := by
  dsimp only [Zone.reply]
  split
  · split
    · exact ⟨rfl, rfl, rfl⟩
    · split <;> exact ⟨rfl, rfl, rfl⟩
  all_goals exact ⟨rfl, rfl, rfl⟩

/-- The authority section has records of the zone's own name. -/
theorem reply_authority {P : Record → Prop} {z : Zone} {q : Question} {h : Header}
    (hzone : ∀ k, ∀ r ∈ (z.rrs.lookup k).getD [], P r) (hauthority : h.authority = []) :
    ∀ r ∈ (z.reply q h).authority, P r := by
  have hnil : ∀ r ∈ ([] : List Record), P r := List.forall_mem_nil P
  cases hget : z.get q with
  | error e =>
      cases e <;> simp only [Zone.reply, hget, hauthority]
      case nameError => exact hzone _
      all_goals exact hnil
  | ok rrs =>
      by_cases htype : q.type = TYPE.NS
      · simp only [Zone.reply, hget, htype, if_true, hauthority]
        exact hnil
      · cases hns : z.rrs.lookup (z.domain, TYPE.NS, CLAS.IN) with
        | none =>
            simp only [Zone.reply, hget, htype, if_false, hns]
            exact hzone _
        | some ns =>
            have hmem := hzone (z.domain, TYPE.NS, CLAS.IN)
            rw [hns] at hmem
            simp only [Zone.reply, hget, htype, if_false, hns]
            exact hmem

/-- All records of a reply have a property if those of the zone and the synthesised ones have. -/
theorem reply_records {P : Record → Prop} {z : Zone} {q : Question} {h : Header}
    (hzone : ∀ k, ∀ r ∈ (z.rrs.lookup k).getD [], P r)
    (hnip : ∀ rrs, niplike q.domain z.domain = .ok rrs → ∀ r ∈ rrs, P r)
    (hanswer : h.answer = []) (hauthority : h.authority = []) (hadditional : h.additional = []) :
    (∀ r ∈ (z.reply q h).answer, P r) ∧ (∀ r ∈ (z.reply q h).authority, P r) ∧
      ∀ r ∈ (z.reply q h).additional, P r := by
  have hip : ∀ dn, ∀ r ∈ z.getIP dn, P r := by
    intro dn r hr
    rcases List.mem_append.mp hr with hr | hr
    · exact hzone _ r hr
    · exact hzone _ r hr
  have hrrs : ∀ r ∈ (z.get q).toOption.getD [], P r := by
    cases hget : z.get q with
    | error e => exact List.forall_mem_nil P
    | ok rrs =>
        rcases (Zone.get_eq_ok hget).2 with hrr | ⟨-, hlook⟩
        · exact hnip rrs hrr
        · intro r hr
          exact hzone q.key r (by rw [hlook]; exact hr)
  refine ⟨?_, reply_authority hzone hauthority, ?_⟩
  · rw [reply_answer_of_get z q hanswer]
    exact hrrs
  · rw [reply_additional_of_get z q hadditional]
    intro r hr
    obtain ⟨rr, -, hmem⟩ := List.mem_flatMap.mp hr
    exact hip _ r hmem

/-- The synthesised record can be written: its name is that of the question. -/
theorem niplike_record {domain base : DN} {rrs : List Record} (hdomain : Rfc1035.NameOk domain)
    (h : niplike domain base = .ok rrs) : ∀ r ∈ rrs, r.Ok := by
  rcases niplike_ok h with rfl | ⟨rr, data, rfl, hnew⟩
  · exact List.forall_mem_nil _
  · intro r hr
    obtain rfl := List.mem_singleton.mp hr
    obtain ⟨hq, -, -⟩ := Record.new_eq_ok hnew
    have hrdata := r.rdata_eq
    rw [congrArg Question.type hq, Rdata, if_pos rfl] at hrdata
    have hlen := length_inetPton hrdata fun _ _ => length_inetPton4
    exact ⟨by rw [congrArg Question.domain hq]; exact hdomain, by omega⟩

/-- Every reply that the server gives itself is read by the decoder: it has the ID and the opcode
of the query, QR set, the question of the query byte for byte, and the records of the three
vectors in their order, each section with its count. -/
theorem reply_decodes {config : Config} (hconfig : config.LabelsOk) {qs rest : Bytes}
    {hq : Rfc1035.Header} {question : Rfc1035.Question}
    (hheader : Rfc1035.readHeader qs = some (hq, question.encode ++ rest))
    (hone : hq.qdcount = 1) (hname : Rfc1035.NameOk question.name)
    {header : Header} {data : Bytes} (hquery : query config qs = some (.answer header data))
    (hanswer : header.answer.length < 65536) (hauthority : header.authority.length < 65536)
    (hadditional : header.additional.length < 65536) :
    ∃ m, Rfc1035.decode data = some m ∧
      m.header.id = hq.id ∧ m.header.opcode = hq.opcode ∧ m.header.qr = true ∧
      m.question = [question] ∧ question.encode <+: data.drop 12 ∧
      m.header.qdcount.toNat = 1 ∧ m.header.ancount.toNat = m.answer.length ∧
      m.header.nscount.toNat = m.authority.length ∧
      m.header.arcount.toNat = m.additional.length ∧
      m.answer = header.answer.map Record.wire ∧
      m.authority = header.authority.map Record.wire ∧
      m.additional = header.additional.map Record.wire := by
  obtain ⟨h, hparse, hid, hopcode, hquestion⟩ := parse_wire hheader hone fun l hl =>
    ⟨(hname l hl).1, (hname l hl).2.trans (by omega)⟩
  obtain ⟨-, hnil₁, hnil₂, hnil₃⟩ := parse_eq_some hparse
  obtain ⟨q, hq⟩ : ∃ q : Question, q = ⟨question.name.reverse, ⟨question.type⟩, ⟨question.clas⟩⟩ :=
    ⟨_, rfl⟩
  have hwire : q.wire = question := by
    rw [hq, Question.wire, List.reverse_reverse]
  have hdomain : Rfc1035.NameOk q.domain := by
    rw [hq]
    exact nameOk_reverse hname
  rw [← hq] at hquestion
  cases hselect : config.select q.domain with
  | none =>
      rw [query_forward hparse hquestion hselect] at hquery
      cases hquery
  | some z =>
      rw [query_eq hparse hquestion hselect] at hquery
      cases hquery
      obtain ⟨hid', hopcode', hquestion'⟩ := reply_frame z q h
      rw [hquestion] at hquestion'
      have hzone := hconfig.record (Config.select_eq_some hselect).1
      have hrecords := reply_records (P := Record.Ok)
        (fun k r hr => ⟨hzone k r hr, length_rdata (Zone.lookup_keyed hr).2.2⟩)
        (fun rrs hrrs => niplike_record hdomain hrrs) hnil₁ hnil₂ hnil₃
      have hok : (z.reply q h).close.wire.Ok := by
        apply wire_ok _ hrecords _ hanswer hauthority hadditional
        · rw [hquestion']
          simpa using hdomain
        · rw [hquestion', List.length_singleton]
          omega
      have hasked : (z.reply q h).close.wire.question = [question] := by
        show (z.reply q h).question.map Question.wire = _
        rw [hquestion', List.map_singleton, hwire]
      have hdecode := Rfc1035.decode_encode hok
      have hprefix := Rfc1035.Message.question_prefix (z.reply q h).close.wire
      rw [hasked, List.map_singleton, List.flatten_singleton, ← data_eq_encode] at hprefix
      rw [← data_eq_encode] at hdecode
      refine ⟨_, hdecode, hid'.trans hid, hopcode'.trans hopcode, rfl, hasked, hprefix, ?_,
        hok.ancount, hok.nscount, hok.arcount, rfl, rfl, rfl⟩
      rw [hok.qdcount, hasked, List.length_singleton]

/-- What a decoder reads from the query `askBare`. -/
theorem readHeader_askBare : Rfc1035.readHeader askBare
    = some (⟨0x707, false, 0, false, false, true, false, 0, 0, 1, 0, 0, 0⟩,
        Rfc1035.Question.encode ⟨[ascii "w", ascii "a"], 1, 1⟩ ++ []) := by
  decide +kernel

/-- The reply to a query about an address. -/
theorem reply_decodes_bare :
    ∃ header data, query bareConfig askBare = some (.answer header data) ∧
      ∃ m, Rfc1035.decode data = some m ∧
        m.header.id = 0x707 ∧ m.header.opcode = 0 ∧ m.header.qr = true ∧
        m.question = [⟨[ascii "w", ascii "a"], 1, 1⟩] ∧
        Rfc1035.Question.encode ⟨[ascii "w", ascii "a"], 1, 1⟩ <+: data.drop 12 ∧
        m.header.qdcount.toNat = 1 ∧ m.header.ancount.toNat = m.answer.length ∧
        m.header.nscount.toNat = m.authority.length ∧
        m.header.arcount.toNat = m.additional.length ∧
        m.answer = header.answer.map Record.wire ∧
        m.authority = header.authority.map Record.wire ∧
        m.additional = header.additional.map Record.wire := by
  have hquery := query_eq parse_askBare question_askBare select_bare
  exact ⟨_, _, hquery, reply_decodes (by decide +kernel) readHeader_askBare rfl (by decide +kernel) hquery
    (by decide +kernel) (by decide +kernel) (by decide +kernel)⟩

end Dnsd

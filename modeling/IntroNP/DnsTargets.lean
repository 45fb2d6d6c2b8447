/-
# The target of a record

NS, CNAME and MX records refer to a name.  The constructor of a record reads it twice from the
text of the data: `Rdata` writes it on the wire, and `parse` keeps it for the lookup of the
addresses that go into the additional section.  For MX, the two readings find their way through
the text differently.

* `Record.target` : the name that a client decodes;
* `MxText` : the texts of MX data on which the two readings agree;
* `s2dn_eq` : texts that stand for the same name;
* `target_iff` : when the two readings agree;
* `targets_agree` : the same, with what it means for the additional section.
-/
import IntroNP.DnsRdata
import IntroNP.DnsAnswers

namespace Dnsd

/-- The types whose data refers to a name. -/
def Refers (type : TYPE) : Prop := type = .NS ∨ type = .CNAME ∨ type = .MX

/-- The name that a client decodes from the data of a record. -/
def Record.target (r : Record) : Option (List Bytes) :=
  if r.type = .MX then (Rfc1035.decodeMx r.rdata).map fun m => m.exchange
  else Rfc1035.decodeName r.rdata

/-- The first blank of the text stands directly before the exchange, with the number and at most
other white space in front of it; or the number and a word stand in front of the first blank, and
what follows it is another text for the name of that word.  The labels have 1 to 63 bytes. -/
def MxText (data : Bytes) : Prop :=
  ∃ front name preference rest, data = front ++ ch ' ' :: name ∧ ch ' ' ∉ front ∧
    extractUInt 16 front = some (preference, some rest) ∧
    Rfc1035.NameOk (pieces (ch '.') name) ∧
    ((skipSpace rest = [] ∧ IsExchange name) ∨
      ∃ w r, extractWord 256 rest = some (w, r) ∧ s2dn name = s2dn w)

/-- The texts on which the two readings agree. -/
def TargetText (type : TYPE) (data : Bytes) : Prop :=
  if type = .MX then MxText data else Rfc1035.NameOk (pieces (ch '.') data)

/-- The A and then the AAAA records of a name. -/
def Zone.addresses (z : Zone) (name : List Bytes) : List Record :=
  (z.rrs.lookup (name.reverse, TYPE.A, CLAS.IN)).getD [] ++
    (z.rrs.lookup (name.reverse, TYPE.AAAA, CLAS.IN)).getD []

/-! ## Texts for one name -/

/-- Texts for the same name are the same, or one has a dot more at the end, or they are the two
texts for the root. -/
theorem s2dn_eq {s t : Bytes} (h : s2dn s = s2dn t) :
    s = t ∨ s = t ++ [ch '.'] ∨ t = s ++ [ch '.'] ∨ (s = ascii "@" ∧ t = []) ∨
      (s = [] ∧ t = ascii "@") := by
  rw [s2dn, s2dn] at h
  by_cases hs : s = ascii "@"
  · by_cases ht : t = ascii "@"
    · exact Or.inl (hs.trans ht.symm)
    · rw [if_pos hs, if_neg ht] at h
      have hnil := pieces_eq_nil (List.reverse_eq_nil_iff.mp h.symm)
      exact Or.inr (Or.inr (Or.inr (Or.inl ⟨hs, hnil⟩)))
  · by_cases ht : t = ascii "@"
    · rw [if_neg hs, if_pos ht] at h
      have hnil := pieces_eq_nil (List.reverse_eq_nil_iff.mp h)
      exact Or.inr (Or.inr (Or.inr (Or.inr ⟨hnil, ht⟩)))
    · rw [if_neg hs, if_neg ht] at h
      rcases eq_of_pieces_eq (List.reverse_injective h) with heq | heq | heq
      · exact Or.inl heq
      · exact Or.inr (Or.inl heq)
      · exact Or.inr (Or.inr (Or.inl heq))

theorem nameOk_s2dn (t : Bytes) :
    Rfc1035.NameOk (s2dn t).reverse ↔ Rfc1035.NameOk (pieces (ch '.') t) := by
  rw [s2dn]
  by_cases ht : t = ascii "@"
  · rw [if_pos ht, ht]
    exact iff_of_true (by decide) (by decide +kernel)
  · rw [if_neg ht, List.reverse_reverse]

/-- The labels of a short text are short. -/
theorem length_label_le {t l : Bytes} (ht : t.length ≤ 255) (hl : l ∈ (s2dn t).reverse) :
    l.length ≤ 255 := by
  rw [s2dn] at hl
  by_cases hat : t = ascii "@"
  · rw [if_pos hat] at hl
    cases hl
  · rw [if_neg hat, List.reverse_reverse] at hl
    have hpieces := @length_pieces_le _ _ (ch '.') t
    have hcount := List.length_pos_of_mem hl
    have hflat := (List.sublist_flatten_of_mem hl).length_le
    omega

theorem cons_eq_concat {a b : UInt8} {s : Bytes} (h : a :: s = s ++ [b]) : a = b := by
  induction s generalizing a with
  | nil => exact (List.cons.inj h).1
  | cons c s ih =>
      obtain ⟨rfl, htail⟩ := List.cons.inj h
      exact ih htail

/-- A word stands for the same name as the text behind which it begins: then there is nothing
between the two, or a dot. -/
theorem eq_of_extractWord {g s w r : Bytes} (hword : extractWord 256 s = some (w, r))
    (h : s2dn (g ++ s) = s2dn w) : g = [ch '.'] ∨ (g = [] ∧ IsExchange s) := by
  obtain ⟨v, hskip, hlen, hbytes, hnul⟩ := exists_of_extractWord hword
  obtain ⟨spaces, hs, hspaces⟩ : ∃ spaces, s = spaces ++ (w ++ v) ∧
      ∀ b ∈ spaces, isSpace b = true :=
    ⟨s.takeWhile isSpace, by rw [← hskip]; exact List.takeWhile_append_dropWhile.symm,
      fun b hb => List.mem_takeWhile_imp hb⟩
  have hgs : g ++ s = g ++ spaces ++ w ++ v := by
    rw [hs]
    simp only [List.append_assoc]
  have hisWord : v.head? ≠ some 0 → IsWord w := fun hv => ⟨fun hnil => hv (hnul hnil), hlen, hbytes⟩
  rcases s2dn_eq h with heq | heq | heq | ⟨heq, hnil⟩ | ⟨heq, hat⟩
  · -- the texts are the same
    have hlength := congrArg List.length (hgs.symm.trans heq)
    simp only [List.length_append] at hlength
    obtain rfl : g = [] := List.eq_nil_of_length_eq_zero (by omega)
    obtain rfl : v = [] := List.eq_nil_of_length_eq_zero (by omega)
    rw [List.nil_append] at heq
    rw [heq]
    exact Or.inr ⟨rfl, Or.inl (hisWord (by simp))⟩
  · -- the word has been cut before a dot, or the dot is in front of it
    have hlength := congrArg List.length (hgs.symm.trans heq)
    simp only [List.length_append, List.length_singleton] at hlength
    by_cases hv : v = []
    · rw [hgs, hv, List.append_nil] at heq
      rw [hv, List.length_nil] at hlength
      obtain ⟨c, hc⟩ := List.length_eq_one_iff.mp
        (show (g ++ spaces).length = 1 by rw [List.length_append]; omega)
      rw [hc, List.singleton_append] at heq
      rw [cons_eq_concat heq] at hc
      left
      rcases List.append_eq_singleton_iff.mp hc with ⟨-, hdot⟩ | ⟨hg, -⟩
      · have hspace := hspaces (ch '.') (by rw [hdot]; exact List.mem_cons_self)
        exact absurd hspace (by decide)
      · exact hg
    · have hpos := List.length_pos_iff.mpr hv
      obtain rfl : g = [] := List.eq_nil_of_length_eq_zero (by omega)
      obtain rfl : spaces = [] := List.eq_nil_of_length_eq_zero (by omega)
      rw [hgs, List.nil_append, List.nil_append] at heq
      have hdot := List.append_cancel_left heq
      refine Or.inr ⟨rfl, Or.inr ⟨w, hisWord ?_, ?_⟩⟩
      · rw [hdot]
        decide
      · rw [hs, hdot, List.nil_append]
  · have hlength := congrArg List.length heq
    rw [hgs] at hlength
    simp only [List.length_append, List.length_singleton] at hlength
    omega
  · have hzero : (0 : UInt8) ∈ ascii "@" := by
      rw [← heq, hgs]
      exact List.mem_append_right _ (List.mem_of_mem_head? (hnul hnil))
    exact absurd hzero (by decide)
  · rw [hgs, hat] at heq
    have hlength := congrArg List.length heq
    simp only [List.length_append] at hlength
    exact absurd hlength (by simp [ascii])

/-! ## The two readings of MX data -/

theorem afterBlank_append {front : Bytes} (h : ch ' ' ∉ front) (name : Bytes) :
    afterBlank (front ++ ch ' ' :: name) = name := by
  have hdrop : (front ++ ch ' ' :: name).dropWhile (· ≠ ch ' ') = ch ' ' :: name := by
    rw [List.dropWhile_append_of_pos]
    · exact List.dropWhile_cons_of_neg (by simp)
    · intro b hb
      simp only [ne_eq, decide_not, Bool.not_eq_true', decide_eq_false_iff_not]
      rintro rfl
      exact h hb
  rw [afterBlank, hdrop]

theorem afterBlank_of_notMem {data : Bytes} (h : ch ' ' ∉ data) : afterBlank data = data := by
  have hdrop : data.dropWhile (· ≠ ch ' ') = [] := by
    rw [List.dropWhile_eq_nil_iff]
    intro b hb
    simp only [ne_eq, decide_not, Bool.not_eq_true', decide_eq_false_iff_not]
    rintro rfl
    exact h hb
  rw [afterBlank, hdrop]

/-- A text that ends in a digit is neither empty nor a dot. -/
theorem not_of_digit {g s : Bytes} (h : ∃ b ∈ g.getLast?, isDigit b = true) :
    ¬ (g = [ch '.'] ∨ (g = [] ∧ IsExchange s)) := by
  obtain ⟨b, hb, hdigit⟩ := h
  rintro (rfl | ⟨rfl, -⟩)
  · cases hb
    exact absurd hdigit (by decide)
  · cases hb

theorem extractWord_skip {n : ℕ} {s : Bytes} (h : skipSpace s = []) (t : Bytes) :
    extractWord n (s ++ ch ' ' :: t) = extractWord n t := by
  rw [extractWord, skipSpace_append, if_pos h, skipSpace_blank, extractWord]

section readings

variable {data rest w r : Bytes} {preference : ℕ}

/-- The text behind the first blank stands for the exchange only in a text of the form. -/
theorem mxText_of_agree (hnumber : extractUInt 16 data = some (preference, some rest))
    (hword : extractWord 256 rest = some (w, r))
    (hok : Rfc1035.NameOk (pieces (ch '.') (afterBlank data)))
    (h : s2dn (afterBlank data) = s2dn w) : MxText data := by
  obtain ⟨lead, hdata, hdigit, hrest, hlead⟩ := extractUInt_eq_some hnumber
  by_cases hblank : ch ' ' ∈ data
  · obtain ⟨front, name, hsplit, hfront⟩ := List.eq_append_cons_of_mem hblank
    rw [hsplit, afterBlank_append hfront] at hok h
    have hcut : (∃ rest', front = lead ++ rest' ∧ rest = rest' ++ ch ' ' :: name) ∨
        ∃ g, lead = front ++ ch ' ' :: g ∧ name = g ++ rest := by
      rcases List.append_eq_append_iff.mp (hdata.symm.trans hsplit) with
        ⟨rest', hfront', hrest'⟩ | ⟨_ | ⟨b, g⟩, hlead', hrest'⟩
      · exact Or.inl ⟨rest', hfront', hrest'⟩
      · exact Or.inl ⟨[], by simpa using hlead'.symm, by simpa using hrest'.symm⟩
      · obtain ⟨rfl, hname⟩ := List.cons.inj hrest'
        exact Or.inr ⟨g, hlead', hname⟩
    rcases hcut with ⟨rest', rfl, rfl⟩ | ⟨g, rfl, rfl⟩
    · -- the number stands in front of the blank
      have hnumber' : extractUInt 16 (lead ++ rest') = some (preference, some rest') := by
        apply hlead
        intro b hb
        exact hrest b (by rw [List.head?_append, Option.mem_def.mp hb]; rfl)
      refine ⟨_, name, preference, rest', hsplit, hfront, hnumber', hok, ?_⟩
      by_cases hskip : skipSpace rest' = []
      · left
        rw [extractWord_skip hskip] at hword
        rcases eq_of_extractWord (g := []) hword h with hdot | ⟨-, hexchange⟩
        · cases hdot
        · exact ⟨hskip, hexchange⟩
      · right
        have hfst := extractWord_before_blank 256 hskip name
        rw [hword, Option.map_some] at hfst
        obtain ⟨⟨w', r'⟩, hextract, heq⟩ := Option.map_eq_some_iff.mp hfst.symm
        cases heq
        exact ⟨_, _, hextract, h⟩
    · -- the blank stands in front of the number
      refine absurd (eq_of_extractWord hword h) (not_of_digit ?_)
      obtain ⟨b, hb, hb'⟩ := hdigit
      refine ⟨b, ?_, hb'⟩
      cases g with
      | nil =>
          rw [List.getLast?_append_of_ne_nil _ (by simp)] at hb
          cases hb
          exact absurd hb' (by decide)
      | cons c g =>
          rw [List.getLast?_append_of_ne_nil _ (by simp), List.getLast?_cons_cons] at hb
          exact hb
  · rw [afterBlank_of_notMem hblank, hdata] at h
    exact absurd (eq_of_extractWord hword h) (not_of_digit hdigit)

theorem agree_of_mxText (hnumber : extractUInt 16 data = some (preference, some rest))
    (hword : extractWord 256 rest = some (w, r)) (h : MxText data) :
    Rfc1035.NameOk (pieces (ch '.') (afterBlank data)) ∧ s2dn (afterBlank data) = s2dn w := by
  obtain ⟨front, name, preference', rest', rfl, hfront, hnumber', hok, hform⟩ := h
  rw [afterBlank_append hfront]
  refine ⟨hok, ?_⟩
  obtain ⟨lead, rfl, -, hrest', hlead⟩ := extractUInt_eq_some hnumber'
  have hcut : extractUInt 16 (lead ++ (rest' ++ ch ' ' :: name))
      = some (preference', some (rest' ++ ch ' ' :: name)) := by
    apply hlead
    cases rest' with
    | nil => exact fun b hb => (head_blank b hb).2
    | cons c rest' => exact hrest'
  rw [List.append_assoc, hcut, Option.some.injEq, Prod.mk.injEq, Option.some.injEq] at hnumber
  obtain ⟨-, rfl⟩ := hnumber
  rcases hform with ⟨hskip, hexchange⟩ | ⟨w', r', hextract, hname⟩
  · obtain ⟨w', r', hextract, hname⟩ := hexchange.extract hok
    rw [extractWord_skip hskip, hextract] at hword
    cases hword
    exact hname.symm
  · have hskip : skipSpace rest' ≠ [] := by
      intro hskip
      rw [extractWord, hskip] at hextract
      cases hextract
    have hfst := extractWord_before_blank 256 hskip name
    rw [hword, hextract] at hfst
    cases hfst
    exact hname

end readings

theorem Record.rdata_MX {r : Record} (h : r.type = .MX) :
    ∃ preference rest w rest', extractUInt 16 r.data = some (preference, some rest) ∧
      extractWord 256 rest = some (w, rest') ∧
      r.rdata = Rfc1035.Mx.encode ⟨UInt16.ofNat preference, (s2dn w).reverse⟩ := by
  have hrdata := r.rdata_eq
  rw [h, Rdata, if_neg (by decide), if_neg (by decide), if_neg (by decide), if_neg (by decide),
    if_pos rfl] at hrdata
  cases hdump : dumpMX r.data with
  | none =>
      rw [hdump] at hrdata
      cases hrdata
  | some bytes =>
      rw [hdump] at hrdata
      obtain rfl : bytes = r.rdata := Except.ok.inj hrdata
      simp only [dumpMX, Option.bind_eq_bind, Option.bind_eq_some_iff, Option.pure_def,
        Option.some.injEq, Prod.exists] at hdump
      obtain ⟨preference, _, hnumber, rest, rfl, w, rest', hword, hbytes⟩ := hdump
      refine ⟨preference, rest, w, rest', hnumber, hword, ?_⟩
      have hlow : beBytes 2 preference = Rfc1035.u16 (UInt16.ofNat preference) := by
        rw [Rfc1035.u16, UInt16.toNat_ofNat', beBytes, beBytes, ← leBytes_mod 2 preference]
        rfl
      rw [← hbytes, Rfc1035.Mx.encode, encodeName_eq_dn2data, List.reverse_reverse, hlow]

/-! ## The two readings of a record -/

/-- A client decodes the name that the record keeps, on the texts above and on no others. -/
theorem target_iff {r : Record} (h : Refers r.type) :
    r.target = some r.datadn.reverse ↔ TargetText r.type r.data := by
  have hdatadn := r.datadn_eq
  by_cases hmx : r.type = .MX
  · obtain ⟨preference, rest, w, rest', hnumber, hword, hrdata⟩ := r.rdata_MX hmx
    obtain ⟨-, -, hlen, -, -⟩ := exists_of_extractWord hword
    have hparse : r.datadn = s2dn (afterBlank r.data) := by
      rw [← hdatadn, hmx]
      rfl
    rw [Record.target, if_pos hmx, TargetText, if_pos hmx, hrdata, hparse]
    constructor
    · intro hdecode
      obtain ⟨m, hm, hname⟩ := Option.map_eq_some_iff.mp hdecode
      obtain ⟨hexchange, hok⟩ := Rfc1035.decodeMx_written (fun l hl => length_label_le hlen hl) hm
      have hsame : s2dn (afterBlank r.data) = s2dn w :=
        List.reverse_injective (hname.symm.trans hexchange)
      apply mxText_of_agree hnumber hword _ hsame
      rw [← nameOk_s2dn, hsame]
      exact hok
    · intro htext
      obtain ⟨hok, hsame⟩ := agree_of_mxText hnumber hword htext
      rw [← nameOk_s2dn, hsame] at hok
      rw [Rfc1035.decodeMx_encode hok, hsame]
      rfl
  · have hname : r.type = .NS ∨ r.type = .CNAME := by
      rcases h with h | h | h
      · exact Or.inl h
      · exact Or.inr h
      · exact absurd h hmx
    have hparse : r.datadn = s2dn r.data := by
      rw [← hdatadn, parse, if_pos hname]
    have hrdata : r.rdata = Rfc1035.encodeName r.datadn.reverse := by
      have heq := r.rdata_eq
      have hA : r.type ≠ .A := by rcases hname with h | h <;> rw [h] <;> decide
      have hAAAA : r.type ≠ .AAAA := by rcases hname with h | h <;> rw [h] <;> decide
      rw [Rdata, if_neg hA, if_neg hAAAA, if_pos hname] at heq
      rw [encodeName_eq_dn2data, List.reverse_reverse, hparse]
      exact (Except.ok.inj heq).symm
    rw [Record.target, if_neg hmx, TargetText, if_neg hmx, hrdata, ← nameOk_s2dn, ← hparse]
    exact ⟨Rfc1035.nameOk_of_decodeName, Rfc1035.decodeName_encode⟩

/-- The two readings of a record that refers to a name agree on the texts above and on no others;
and where they agree for all answers, the additional section holds the addresses of the names that
a client decodes. -/
theorem targets_agree (r : Record) (hrefers : Refers r.type) :
    (r.target = some r.datadn.reverse ↔ TargetText r.type r.data) ∧
    ∀ (config : Config) (qs data : Bytes) (h header : Header) (q : Question) (z : Zone),
      Header.parse qs = some h → h.question = [q] → config.select q.domain = some z →
      query config qs = some (.answer header data) →
      (∀ r ∈ header.answer, Refers r.type ∧ TargetText r.type r.data) →
      header.additional = header.answer.flatMap fun r => r.target.elim [] z.addresses := by
  refine ⟨target_iff hrefers, ?_⟩
  intro config qs data h header q z hparse hquestion hselect hquery htexts
  obtain ⟨-, hanswer, -, hadditional⟩ := parse_eq_some hparse
  rw [query_eq hparse hquestion hselect] at hquery
  cases hquery
  have hanswers : (z.reply q h).answer = (z.get q).toOption.getD [] :=
    reply_answer_of_get z q hanswer
  calc (z.reply q h).additional
      = (z.reply q h).answer.flatMap fun r => z.getIP r.datadn := by
        rw [reply_additional_of_get z q hadditional, hanswers]
    _ = (z.reply q h).answer.flatMap fun r => r.target.elim [] z.addresses := by
        apply List.flatMap_congr
        intro r hr
        obtain ⟨hrefers, htext⟩ := htexts r hr
        rw [(target_iff hrefers).mpr htext, Option.elim_some, Zone.addresses,
          List.reverse_reverse, Zone.getIP]

/-! ## A zone with two exchanges -/

/-- A zone in which one exchange is written behind one blank, and another one behind two. -/
def mailConfig : Config :=
  (Config.load (fun _ => ascii
      "a.
@,60,IN,SOA,m. r. 1 2 3 4 5
p,60,IN,MX,10 w.a.
q,60,IN,MX,10  w.a.
w,60,IN,A,1.2.3.4
")
    (ascii "8.8.8.8
a.,z
")).get (by decide +kernel)

/-- A query for the exchanges of a name. -/
def askMail (name : Bytes) : Bytes := [7, 7, 1, 0, 0, 1, 0, 0, 0, 0, 0, 0] ++
  (Question.mk (s2dn name) TYPE.MX CLAS.IN).dump

/-- The zone, the header of the query and the header of the reply. -/
structure Mail (name : Bytes) (z : Zone) (h header : Header) : Prop where
  select : mailConfig.select (s2dn name) = some z
  parse : Header.parse (askMail name) = some h
  question : h.question = [⟨s2dn name, TYPE.MX, CLAS.IN⟩]
  query : query mailConfig (askMail name) = some (.answer header header.data)

/-- They are computed, as long as there is a zone and the query can be read. -/
theorem mail_of_get (name : Bytes) (hzone : (mailConfig.select (s2dn name)).isSome)
    (hheader : (Header.parse (askMail name)).isSome)
    (hquestion : ((Header.parse (askMail name)).get hheader).question
      = [⟨s2dn name, TYPE.MX, CLAS.IN⟩]) :
    Mail name ((mailConfig.select (s2dn name)).get hzone) ((Header.parse (askMail name)).get hheader)
      (((mailConfig.select (s2dn name)).get hzone).reply ⟨s2dn name, TYPE.MX, CLAS.IN⟩
        ((Header.parse (askMail name)).get hheader)).close := by
  have hselect := (Option.some_get hzone).symm
  have hparse := (Option.some_get hheader).symm
  exact ⟨hselect, hparse, hquestion, query_eq hparse hquestion hselect⟩

theorem targets_agree_mail : ∃ z h header r, Mail (ascii "p.a.") z h header ∧
    header.answer = [r] ∧ r.data = ascii "10 w.a." ∧ r.target = some r.datadn.reverse ∧
    header.additional = header.answer.flatMap fun r => r.target.elim [] z.addresses := by
  obtain ⟨z, h, header, hmail, hmap⟩ : ∃ z h header, Mail (ascii "p.a.") z h header ∧
      header.answer.map (fun r => (r.type, r.data)) = [(TYPE.MX, ascii "10 w.a.")] :=
    ⟨_, _, _, mail_of_get (ascii "p.a.") (by decide +kernel) (by decide +kernel)
      (by decide +kernel), by decide +kernel⟩
  obtain ⟨r, hanswer, hr⟩ := List.map_eq_singleton_iff.mp hmap
  obtain ⟨htype, hdata⟩ := Prod.mk.inj hr
  have hrefers : Refers r.type := Or.inr (Or.inr htype)
  have htext : TargetText r.type r.data := by
    rw [htype, hdata]
    exact ⟨ascii "10", ascii "w.a.", 10, [], by decide +kernel, by decide, by decide +kernel,
      by decide +kernel, Or.inl ⟨rfl, Or.inl (by decide +kernel)⟩⟩
  obtain ⟨hiff, hadditional⟩ := targets_agree r hrefers
  refine ⟨z, h, header, r, hmail, hanswer, hdata, hiff.mpr htext, ?_⟩
  apply hadditional mailConfig _ _ _ _ _ _ hmail.parse hmail.question hmail.select hmail.query
  rw [hanswer, List.forall_mem_singleton]
  exact ⟨hrefers, htext⟩

/-- Behind two blanks, the exchange is on the wire, and its address is not found. -/
theorem targets_differ : ∃ z h header, Mail (ascii "q.a.") z h header ∧
    header.answer.map (fun r => (r.type, r.target)) =
      [(TYPE.MX, some [ascii "w", ascii "a"])] ∧
    header.answer.map (fun r => r.datadn.reverse) = [[ascii " w", ascii "a"]] ∧
    header.additional = [] ∧ z.addresses [ascii "w", ascii "a"] ≠ [] := by
  have hmail := mail_of_get (ascii "q.a.") (by decide +kernel) (by decide +kernel)
    (by decide +kernel)
  exact ⟨_, _, _, hmail, by decide +kernel⟩

end Dnsd

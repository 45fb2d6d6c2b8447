/-
# The data of records on the wire

What a decoder of the message format reads from the bytes that `Rdata` writes for a text of the
zone file.

* `decoded` : the fields that are read back;
* `Written` : a name as it stands in the data of a record;
* `Rdata_name`, `Rdata_MX`, `Rdata_SOA` : the bytes, as the encoder of the format writes them;
* `rdata_fields` : the fields of the data of NS, CNAME, MX and SOA records are read back;
* `rdata_strings_iff` : a TXT record is read back if its text has at most 255 bytes, and not
  otherwise.
-/
import IntroNP.DnsZoneFile
import IntroNP.DnsParsing

namespace Dnsd

/-- What a decoder reads from the wire form of a text. -/
def decoded {α : Type} (decode : Bytes → Option α) (type : TYPE) (data : Bytes) : Option α :=
  (Rdata type data).toOption.bind decode

/-- The name is written as its labels with dots between them, and with a dot at the end or not;
the text `@` is written for the root only. -/
structure Written (labels : List Bytes) (dot : Bool) : Prop where
  labels_ok : Rfc1035.NameOk labels
  no_dot : ∀ l ∈ labels, ch '.' ∉ l
  not_at : separated (ch '.') dot labels ≠ ascii "@"

/-! ## Names -/

theorem Written.s2dn {labels : List Bytes} {dot : Bool} (h : Written labels dot) :
    s2dn (separated (ch '.') dot labels) = labels.reverse :=
  s2dn_separated h.no_dot
    (fun l hl => List.ne_nil_of_length_pos (h.labels_ok l hl).1) h.not_at

/-- The wire form of a written name. -/
theorem Written.dn2data {labels : List Bytes} {dot : Bool} (h : Written labels dot) :
    dn2data (Dnsd.s2dn (separated (ch '.') dot labels)) = Rfc1035.encodeName labels := by
  rw [h.s2dn, encodeName_eq_dn2data]

theorem Rdata_name {type : TYPE} {labels : List Bytes} {dot : Bool}
    (htype : type = TYPE.NS ∨ type = TYPE.CNAME) (h : Written labels dot) :
    Rdata type (separated (ch '.') dot labels) = .ok (Rfc1035.encodeName labels) := by
  have hA : type ≠ TYPE.A := by rcases htype with rfl | rfl <;> decide
  have hAAAA : type ≠ TYPE.AAAA := by rcases htype with rfl | rfl <;> decide
  rw [Rdata, if_neg hA, if_neg hAAAA, if_pos htype, h.dn2data]

/-- A word that does not fit the array is cut. -/
theorem extractWord_cut {n : ℕ} {t : Bytes} {b : UInt8} (hlen : t.length = n - 1) (hne : t ≠ [])
    (ht : ∀ c ∈ t, isSpace c = false ∧ c ≠ 0) (hb : isSpace b = false) :
    extractWord n (t ++ [b]) = some (t, [b]) := by
  have hall : ∀ c ∈ t ++ [b], isSpace c = false := by
    intro c hc
    rcases List.mem_append.mp hc with hc | hc
    · exact (ht c hc).1
    · obtain rfl := List.mem_singleton.mp hc
      exact hb
  have hskip : skipSpace (t ++ [b]) = t ++ [b] := by
    apply skipSpace_eq_self
    exact fun c hc => hall c (List.mem_of_mem_head? hc)
  have htake : ((t ++ [b]).takeWhile fun c => !isSpace c).take (n - 1) = t := by
    rw [List.takeWhile_eq_self_iff.mpr fun c hc => by rw [hall c hc]; rfl, ← hlen, List.take_left]
  have hscan : scanSet (n - 1) (fun c => !isSpace c) (t ++ [b]) = some (t, [b]) := by
    simp only [scanSet, htake, if_neg hne, List.drop_left]
  rw [extractWord, hskip, hscan, Option.map_some, cstr_eq_self fun h0 => (ht 0 h0).2 rfl]

/-- A word, or one with a dot behind it, which need not fit the array. -/
def IsExchange (t : Bytes) : Prop := IsWord t ∨ ∃ w, IsWord w ∧ t = w ++ [ch '.']

theorem IsExchange.word {w : Bytes} (h : IsWord w) (hlen : w.length ≠ 255) :
    IsWord (w ++ [ch '.']) := by
  obtain ⟨hne, hle, hbytes⟩ := h
  refine ⟨List.append_ne_nil_of_left_ne_nil hne _, ?_, ?_⟩
  · rw [List.length_append, List.length_singleton]
    omega
  · intro b hb
    rcases List.mem_append.mp hb with hb | hb
    · exact hbytes b hb
    · obtain rfl := List.mem_singleton.mp hb
      decide

/-- A name without an empty label does not end in two dots. -/
theorem s2dn_concat {w : Bytes} (hlen : w.length = 255)
    (hok : Rfc1035.NameOk (pieces (ch '.') (w ++ [ch '.']))) : s2dn (w ++ [ch '.']) = s2dn w := by
  have hne : ∀ t : Bytes, 255 ≤ t.length → t ≠ ascii "@" := by
    rintro t ht rfl
    exact absurd ht (by decide)
  have hlast : w.getLast? ≠ some (ch '.') := by
    intro hlast
    obtain ⟨t, rfl⟩ := List.getLast?_eq_some_iff.mp hlast
    have hpieces : pieces (ch '.') (t ++ [ch '.'] ++ [ch '.'])
        = pieces (ch '.') (t ++ [ch '.']) ++ [[]] := by
      rw [List.append_assoc]
      exact pieces_append_cons t [ch '.']
    have hempty := hok [] (by rw [hpieces]; exact List.mem_append_right _ List.mem_cons_self)
    exact absurd hempty.1 (by decide)
  have hnil : w ≠ [] := List.ne_nil_of_length_pos (by omega)
  rw [s2dn, s2dn, if_neg (hne w hlen.ge), pieces_concat hnil hlast, if_neg]
  apply hne
  rw [List.length_append]
  omega

/-- An exchange is extracted, with its last dot or without it. -/
theorem IsExchange.extract {t : Bytes} (h : IsExchange t)
    (hok : Rfc1035.NameOk (pieces (ch '.') t)) :
    ∃ w rest, extractWord 256 t = some (w, rest) ∧ s2dn w = s2dn t := by
  rcases h with hword | ⟨w, hword, rfl⟩
  · exact ⟨_, _, hword.extract.2, rfl⟩
  · by_cases hlen : w.length = 255
    · exact ⟨w, [ch '.'], extractWord_cut hlen hword.1 hword.2.2 (by decide),
        (s2dn_concat hlen hok).symm⟩
    · exact ⟨_, _, (IsExchange.word hword hlen).extract.2, rfl⟩

theorem Written.pieces {labels : List Bytes} {dot : Bool} (h : Written labels dot) :
    pieces (ch '.') (separated (ch '.') dot labels) = labels :=
  pieces_separated h.no_dot (Or.inr fun t ht =>
    List.ne_nil_of_length_pos (h.labels_ok t (List.mem_of_getLast? ht)).1)

/-- The exchange of an MX record. -/
theorem Written.extract {labels : List Bytes} {dot : Bool} (h : Written labels dot)
    (hword : IsWord (separated (ch '.') false labels)) :
    ∃ w rest, extractWord 256 (separated (ch '.') dot labels) = some (w, rest) ∧
      Dnsd.s2dn w = labels.reverse := by
  have hexchange : IsExchange (separated (ch '.') dot labels) := by
    cases dot with
    | false => exact Or.inl hword
    | true =>
        have hlabels : labels ≠ [] := by
          rintro rfl
          exact hword.1 rfl
        exact Or.inr ⟨_, hword, separated_true hlabels⟩
  obtain ⟨w, rest, hextract, hname⟩ := hexchange.extract (by rw [h.pieces]; exact h.labels_ok)
  exact ⟨w, rest, hextract, hname.trans h.s2dn⟩

/-! ## The bytes of the fields -/

theorem u16_ofNat {n : ℕ} (h : n < 2 ^ 16) : Rfc1035.u16 (UInt16.ofNat n) = beBytes 2 n := by
  rw [Rfc1035.u16, UInt16.toNat_ofNat', Nat.mod_eq_of_lt h]

theorem u32_ofNat {n : ℕ} (h : n < 2 ^ 32) : Rfc1035.u32 (UInt32.ofNat n) = beBytes 4 n := by
  rw [Rfc1035.u32, UInt32.toNat_ofNat', Nat.mod_eq_of_lt h]

theorem Rdata_MX {preference : Bytes} {exchange : List Bytes} {dot : Bool}
    (hnumber : IsNumber 16 preference) (h : Written exchange dot)
    (hword : IsWord (separated (ch '.') false exchange)) :
    Rdata TYPE.MX (blanks [preference, separated (ch '.') dot exchange])
      = .ok (Rfc1035.Mx.encode ⟨UInt16.ofNat (decVal preference), exchange⟩) := by
  obtain ⟨w, rest, hextract, hname⟩ := h.extract hword
  rw [Rdata, if_neg (by decide), if_neg (by decide), if_neg (by decide), if_neg (by decide),
    if_pos rfl, dumpMX_blanks hnumber hextract, hname, Rfc1035.Mx.encode, u16_ofNat hnumber.2.2,
    encodeName_eq_dn2data]
  rfl

theorem Rdata_SOA {mname rname : List Bytes} {mdot rdot : Bool}
    {serial refresh retry expire minimum : Bytes} (hm : Written mname mdot)
    (hr : Written rname rdot) (hmword : IsWord (separated (ch '.') mdot mname))
    (hrword : IsWord (separated (ch '.') rdot rname))
    (hnumbers : ∀ t ∈ [serial, refresh, retry, expire, minimum], IsNumber 32 t) :
    Rdata TYPE.SOA (blanks [separated (ch '.') mdot mname, separated (ch '.') rdot rname, serial,
        refresh, retry, expire, minimum])
      = .ok (Rfc1035.Soa.encode ⟨mname, rname, UInt32.ofNat (decVal serial),
          UInt32.ofNat (decVal refresh), UInt32.ofNat (decVal retry),
          UInt32.ofNat (decVal expire), UInt32.ofNat (decVal minimum)⟩) := by
  have h₁ := hnumbers serial (by simp)
  have h₂ := hnumbers refresh (by simp)
  have h₃ := hnumbers retry (by simp)
  have h₄ := hnumbers expire (by simp)
  have h₅ := hnumbers minimum (by simp)
  rw [Rdata, if_neg (by decide), if_neg (by decide), if_neg (by decide), if_pos rfl,
    dumpSOA_blanks hmword hrword hnumbers, hm.dn2data, hr.dn2data, Rfc1035.Soa.encode,
    u32_ofNat h₁.2.2, u32_ofNat h₂.2.2, u32_ofNat h₃.2.2, u32_ofNat h₄.2.2, u32_ofNat h₅.2.2]
  rfl

/-! ## What is read back -/

/-- The fields are read back: the name of an NS or a CNAME record; the preference and the exchange
of an MX record, if the exchange fits the array without its last dot; the names and the numbers of
an SOA record, if the names fit their arrays. -/
theorem rdata_fields :
    (∀ (type : TYPE) (labels : List Bytes) (dot : Bool), type = .NS ∨ type = .CNAME →
      Written labels dot →
      decoded Rfc1035.decodeName type (separated (ch '.') dot labels) = some labels) ∧
    (∀ (preference : Bytes) (exchange : List Bytes) (dot : Bool), IsNumber 16 preference →
      Written exchange dot → IsWord (separated (ch '.') false exchange) →
      decoded Rfc1035.decodeMx .MX (blanks [preference, separated (ch '.') dot exchange])
        = some ⟨UInt16.ofNat (decVal preference), exchange⟩) ∧
    (∀ (mname rname : List Bytes) (mdot rdot : Bool)
        (serial refresh retry expire minimum : Bytes),
      Written mname mdot → Written rname rdot → IsWord (separated (ch '.') mdot mname) →
      IsWord (separated (ch '.') rdot rname) →
      (∀ t ∈ [serial, refresh, retry, expire, minimum], IsNumber 32 t) →
      decoded Rfc1035.decodeSoa .SOA (blanks [separated (ch '.') mdot mname,
          separated (ch '.') rdot rname, serial, refresh, retry, expire, minimum])
        = some ⟨mname, rname, UInt32.ofNat (decVal serial), UInt32.ofNat (decVal refresh),
            UInt32.ofNat (decVal retry), UInt32.ofNat (decVal expire),
            UInt32.ofNat (decVal minimum)⟩) := by
  refine ⟨fun type labels dot htype h => ?_, fun preference exchange dot hnumber h hword => ?_,
    fun mname rname mdot rdot serial refresh retry expire minimum hm hr hmword hrword
      hnumbers => ?_⟩
  · rw [decoded, Rdata_name htype h]
    exact Rfc1035.decodeName_encode h.labels_ok
  · rw [decoded, Rdata_MX hnumber h hword]
    exact Rfc1035.decodeMx_encode h.labels_ok
  · rw [decoded, Rdata_SOA hm hr hmword hrword hnumbers]
    exact Rfc1035.decodeSoa_encode hm.labels_ok hr.labels_ok

theorem written_www : Written [ascii "www", ascii "a"] true :=
  ⟨by decide, by decide, by decide⟩

theorem rdata_fields_www :
    decoded Rfc1035.decodeName .CNAME (ascii "www.a.") = some [ascii "www", ascii "a"] ∧
    decoded Rfc1035.decodeMx .MX (ascii "10 www.a.") = some ⟨10, [ascii "www", ascii "a"]⟩ ∧
    decoded Rfc1035.decodeSoa .SOA (ascii "www.a. www.a. 1 2 3 4 5")
      = some ⟨[ascii "www", ascii "a"], [ascii "www", ascii "a"], 1, 2, 3, 4, 5⟩ := by
  refine ⟨?_, ?_, ?_⟩
  · exact rdata_fields.1 .CNAME [ascii "www", ascii "a"] true (Or.inr rfl) written_www
  · exact rdata_fields.2.1 (ascii "10") [ascii "www", ascii "a"] true (by decide +kernel)
      written_www (by decide +kernel)
  · exact rdata_fields.2.2 [ascii "www", ascii "a"] [ascii "www", ascii "a"] true true
      (ascii "1") (ascii "2") (ascii "3") (ascii "4") (ascii "5") written_www written_www
      (by decide +kernel) (by decide +kernel) (by decide +kernel)

/-- Four labels of 63 bytes. -/
def longLabels : List Bytes := List.replicate 4 (List.replicate 63 (ch 'a'))

/-- The name `@` is read back as the root.  In the arrays of MX and SOA records, a name ends at a
blank or a NUL, and is cut behind 255 bytes. -/
theorem rdata_fields_fail :
    decoded Rfc1035.decodeName .CNAME (separated (ch '.') false [ascii "@"])
      ≠ some [ascii "@"] ∧
    (∀ exchange ∈ [[ascii "a b"], [[ch 'a', 0, ch 'b']], longLabels ++ [ascii "b"]],
      decoded Rfc1035.decodeMx .MX (blanks [ascii "10", separated (ch '.') false exchange])
        ≠ some ⟨10, exchange⟩) ∧
    decoded Rfc1035.decodeSoa .SOA (blanks [separated (ch '.') true longLabels, ascii "b",
        ascii "1", ascii "2", ascii "3", ascii "4", ascii "5"])
      ≠ some ⟨longLabels, [ascii "b"], 1, 2, 3, 4, 5⟩ := by
  decide +kernel

/-! ## TXT -/

/-- The strings of a TXT record make up the text if and only if it fits one of them. -/
theorem rdata_strings_iff (data : Bytes) :
    (∃ strings, decoded Rfc1035.decodeStrings .TXT data = some strings ∧ strings.flatten = data) ↔
      data.length ≤ 255 := by
  have hrdata : decoded Rfc1035.decodeStrings .TXT data
      = Rfc1035.decodeStrings (UInt8.ofNat data.length :: data) := rfl
  rw [hrdata]
  constructor
  · rintro ⟨strings, hread, hflat⟩
    have hlen := Rfc1035.length_readStrings hread
    -- one byte is not part of the text, so that there is one string
    rw [hflat, List.length_cons] at hlen
    obtain ⟨t, rfl⟩ := List.length_eq_one_iff.mp (show strings.length = 1 by omega)
    rw [List.flatten_singleton] at hflat
    rw [← hflat]
    exact Rfc1035.length_le_of_readStrings hread List.mem_cons_self
  · intro h
    exact ⟨[data], Rfc1035.decodeStrings_one h, List.flatten_singleton⟩

/-- The length of a text of 256 bytes is written as 0. -/
theorem rdata_strings_256 :
    ¬ ∃ strings, decoded Rfc1035.decodeStrings .TXT (List.replicate 256 (ch 'a')) = some strings ∧
      strings.flatten = List.replicate 256 (ch 'a') := by
  rw [show decoded Rfc1035.decodeStrings .TXT (List.replicate 256 (ch 'a')) = none by
    decide +kernel]
  rintro ⟨strings, h, -⟩
  cases h

end Dnsd

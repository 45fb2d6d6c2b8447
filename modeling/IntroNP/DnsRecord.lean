/-
# Resource records of dnsd

The enumerations, questions and records of `Homework/2/dnsd` (enum.hpp, record.cpp), and
`niplike`, which synthesises the record of an address that is written in the name.

* `Rdata`, `parse` : what a record computes from the text of its data;
* `Record` : a record, which carries that computation;
* `niplike` : the matcher of the nip service;
* `length_rdata` : the data of a record that comes from a line of a zone file fits RDLENGTH.
-/
import IntroNP.Conversions
import IntroNP.DnsName
import IntroNP.Programs

namespace Dnsd

/-! ## Enumerations -/

/-- `TYPE`; a variable of the enumeration can hold any value of 16 bits. -/
structure TYPE where
  /-- The value of the underlying type. -/
  value : UInt16
  deriving DecidableEq

/-- `CLAS`. -/
structure CLAS where
  /-- The value of the underlying type. -/
  value : UInt16
  deriving DecidableEq

namespace TYPE

def A : TYPE := ⟨1⟩
def AAAA : TYPE := ⟨28⟩
def NS : TYPE := ⟨2⟩
def CNAME : TYPE := ⟨5⟩
def SOA : TYPE := ⟨6⟩
def MX : TYPE := ⟨15⟩
def TXT : TYPE := ⟨16⟩

/-- The enumerators and their names. -/
def entries : List (TYPE × Bytes) := [(A, ascii "A"), (AAAA, ascii "AAAA"), (NS, ascii "NS"),
  (CNAME, ascii "CNAME"), (SOA, ascii "SOA"), (MX, ascii "MX"), (TXT, ascii "TXT")]

end TYPE

namespace CLAS

def IN : CLAS := ⟨1⟩
def CS : CLAS := ⟨2⟩
def CH : CLAS := ⟨3⟩
def HS : CLAS := ⟨4⟩

/-- The enumerators and their names. -/
def entries : List (CLAS × Bytes) :=
  [(IN, ascii "IN"), (CS, ascii "CS"), (CH, ascii "CH"), (HS, ascii "HS")]

end CLAS

/-- `enum_contains`. -/
abbrev enumContains {E : Type} (entries : List (E × Bytes)) (e : E) : Prop :=
  e ∈ entries.map Prod.fst

/-- `v2e` of a text: the enumerator of that name, or the value -1. -/
def v2e {E : Type} (entries : List (E × Bytes)) (other : E) (v : Bytes) : E :=
  ((entries.find? fun e => e.2 = v).map Prod.fst).getD other

/-- `v2type` of a text. -/
def v2type (s : Bytes) : TYPE := v2e TYPE.entries ⟨0xFFFF⟩ s

/-- `v2clas` of a text. -/
def v2clas (s : Bytes) : CLAS := v2e CLAS.entries ⟨0xFFFF⟩ s

/-! ## The data of a record -/

/-- What the functions of the server throw. -/
inductive Exn
  | formatError
  | serverFailure
  | nameError
  | notImplemented
  | forward
  /-- Not an exception of the source: a variable is read that no conversion has set. -/
  | undefined
  deriving DecidableEq

/-- `inet_pton` of utils.cpp, for one of the two address families. -/
def inetPton (pton : Bytes → Option Bytes) (data : Bytes) : Except Exn Bytes :=
  match pton (cstr data) with
  | some r => .ok r
  | none => .error .formatError

/-- `dumpSOA`. -/
def dumpSOA (data : Bytes) : Option Bytes := do
  let (mname, s) ← extractWord 256 data
  let (rname, s) ← extractWord 256 s
  let (serial, s) ← extractUInt 32 s
  let (refresh, s) ← extractUInt 32 (← s)
  let (retry, s) ← extractUInt 32 (← s)
  let (expire, s) ← extractUInt 32 (← s)
  let (minimum, _) ← extractUInt 32 (← s)
  return dn2data (s2dn mname) ++ dn2data (s2dn rname) ++ beBytes 4 serial ++ beBytes 4 refresh ++
    beBytes 4 retry ++ beBytes 4 expire ++ beBytes 4 minimum

/-- `dumpMX`. -/
def dumpMX (data : Bytes) : Option Bytes := do
  let (preference, s) ← extractUInt 16 data
  let (exchange, _) ← extractWord 256 (← s)
  return beBytes 2 preference ++ dn2data (s2dn exchange)

/-- `Rdata`. -/
def Rdata (type : TYPE) (data : Bytes) : Except Exn Bytes :=
  if type = .A then inetPton inetPton4 data
  else if type = .AAAA then inetPton inetPton6 data
  else if type = .NS ∨ type = .CNAME then .ok (dn2data (s2dn data))
  else if type = .SOA then (dumpSOA data).elim (.error .undefined) .ok
  else if type = .MX then (dumpMX data).elim (.error .undefined) .ok
  else if type = .TXT then .ok (UInt8.ofNat data.length :: data)
  else .ok []

/-- The text behind its first blank, or the whole text if it has none. -/
def afterBlank (data : Bytes) : Bytes :=
  match data.dropWhile (· ≠ ch ' ') with
  | [] => data
  | _ :: s => s

/-- `parse` of record.cpp: the name that the data of the record refers to. -/
def parse (type : TYPE) (data : Bytes) : DN :=
  if type = .NS ∨ type = .CNAME then s2dn data
  else if type = .MX then s2dn (afterBlank data)
  else []

/-! ## Questions and records -/

/-- `Question`. -/
structure Question where
  domain : DN
  type : TYPE
  clas : CLAS
  deriving DecidableEq

/-- `Key`. -/
abbrev Key := DN × TYPE × CLAS

/-- `Question::key`. -/
def Question.key (q : Question) : Key := (q.domain, q.type, q.clas)

/-- `operator+=` of a string and a 16-bit number. -/
def u16 (n : UInt16) : Bytes := beBytes 2 n.toNat

/-- `operator+=` of a string and a 32-bit number. -/
def u32 (n : UInt32) : Bytes := beBytes 4 n.toNat

/-- `Question::dump`. -/
def Question.dump (q : Question) : Bytes := dn2data q.domain ++ u16 q.type.value ++ u16 q.clas.value

/-- `Record`; the members that the constructor computes come with what they are. -/
structure Record extends Question where
  ttl : UInt32
  data : Bytes
  rdata : Bytes
  datadn : DN
  rdata_eq : Rdata type data = .ok rdata
  datadn_eq : parse type data = datadn
  deriving DecidableEq

/-- The constructor of `Record`. -/
def Record.new (domain : DN) (type : TYPE) (clas : CLAS) (ttl : UInt32) (data : Bytes) :
    Except Exn Record :=
  match h : Rdata type data with
  | .ok rdata => .ok ⟨⟨domain, type, clas⟩, ttl, data, rdata, parse type data, h, rfl⟩
  | .error e => .error e

/-- `Record::dump`. -/
def Record.dump (r : Record) : Bytes :=
  dn2data r.domain ++ u16 r.type.value ++ u16 r.clas.value ++ u32 r.ttl ++
    u16 (UInt16.ofNat r.rdata.length) ++ r.rdata

/-- `niplike`. -/
def niplike (domain base : DN) : Except Exn (List Record) :=
  match (minus domain base).reverse with
  | [a, b, c, d, e] =>
      if e.length < 62 ∧ ∀ label ∈ [a, b, c, d], label.length ≤ 3 ∧ label.all isDigit then
        (Record.new domain .A .IN 1 (dn2s [d, c, b, a]).dropLast).map fun rr => [rr]
      else .ok []
  | _ => .ok []

/-! ## Facts -/

@[simp] theorem length_u16 (n : UInt16) : (u16 n).length = 2 := length_beBytes 2 n.toNat

/-- The enumerators are cast from their names. -/
theorem v2type_name : ∀ e ∈ TYPE.entries, v2type e.2 = e.1 := by decide

theorem v2clas_name : ∀ e ∈ CLAS.entries, v2clas e.2 = e.1 := by decide

/-- The constructor keeps its arguments. -/
theorem Record.new_eq_ok {domain : DN} {type : TYPE} {clas : CLAS} {ttl : UInt32} {data : Bytes}
    {r : Record} (h : Record.new domain type clas ttl data = .ok r) :
    r.toQuestion = ⟨domain, type, clas⟩ ∧ r.ttl = ttl ∧ r.data = data := by
  unfold Record.new at h
  split at h
  · cases h
    exact ⟨rfl, rfl, rfl⟩
  · cases h

/-- The constructor succeeds when the data has its wire form. -/
theorem Record.new_of_rdata (domain : DN) {type : TYPE} (clas : CLAS) (ttl : UInt32)
    {data rdata : Bytes} (h : Rdata type data = .ok rdata) :
    Record.new domain type clas ttl data
      = .ok ⟨⟨domain, type, clas⟩, ttl, data, rdata, parse type data, h, rfl⟩ := by
  unfold Record.new
  split
  · next r hr =>
      obtain rfl : rdata = r := by
        rw [h] at hr
        exact Except.ok.inj hr
      rfl
  · next e he =>
      rw [h] at he
      cases he

/-- What `niplike` does in the end: nothing, or the construction of a record. -/
theorem niplike_cases (domain base : DN) : niplike domain base = .ok [] ∨
    ∃ data, niplike domain base
      = (Record.new domain TYPE.A CLAS.IN 1 data).map fun rr => [rr] := by
  unfold niplike
  split
  · split_ifs
    · exact Or.inr ⟨_, rfl⟩
    · exact Or.inl rfl
  · exact Or.inl rfl

/-- The synthesised records are none, or one with the name of the question. -/
theorem niplike_ok {domain base : DN} {rrs : List Record} (h : niplike domain base = .ok rrs) :
    rrs = [] ∨ ∃ rr data, rrs = [rr] ∧ Record.new domain TYPE.A CLAS.IN 1 data = .ok rr := by
  rcases niplike_cases domain base with hnil | ⟨data, hnew⟩
  · rw [hnil] at h
    cases h
    exact Or.inl rfl
  · rw [hnew, Except.map_eq_ok_iff] at h
    obtain ⟨rr, hrr, hrrs⟩ := h
    exact Or.inr ⟨rr, data, hrrs.symm, hrr⟩

/-- The construction of the record of an address fails only on the text of the address. -/
theorem Record.new_error {domain : DN} {clas : CLAS} {ttl : UInt32} {data : Bytes} {e : Exn}
    (h : Record.new domain TYPE.A clas ttl data = .error e) : e = .formatError := by
  unfold Record.new at h
  split at h
  · cases h
  · next e' he =>
      cases h
      simp only [Rdata, if_true, inetPton] at he
      split at he
      · cases he
      · cases he
        rfl

theorem niplike_error {domain base : DN} {e : Exn} (h : niplike domain base = .error e) :
    e = .formatError := by
  rcases niplike_cases domain base with hnil | ⟨data, hnew⟩
  · rw [hnil] at h
    cases h
  · rw [hnew, Except.map_eq_error_iff] at h
    exact Record.new_error h

theorem length_extractWord {n : ℕ} {s w r : Bytes} (h : extractWord n s = some (w, r)) :
    w.length ≤ n - 1 := by
  obtain ⟨⟨t, r'⟩, hscan, heq⟩ := Option.map_eq_some_iff.mp h
  simp only [Prod.mk.injEq] at heq
  obtain ⟨rfl, rfl⟩ := heq
  refine le_trans (List.takeWhile_prefix _).length_le ?_
  dsimp only [scanSet] at hscan
  split_ifs at hscan
  cases hscan
  exact List.length_take_le _ _

/-- The wire form of a name that is written in a text is at most two bytes longer. -/
theorem length_dn2data_s2dn (s : Bytes) : (dn2data (s2dn s)).length ≤ s.length + 2 := by
  rw [s2dn]
  by_cases hat : s = ascii "@"
  · rw [if_pos hat]
    exact Nat.le_add_left _ _
  · have hlen := @length_pieces_le _ _ (ch '.') s
    rw [if_neg hat, length_dn2data, List.length_reverse, List.reverse_reverse]
    omega

theorem length_dumpSOA {data r : Bytes} (h : dumpSOA data = some r) : r.length ≤ 534 := by
  simp only [dumpSOA, Option.bind_eq_bind, Option.bind_eq_some_iff, Option.pure_def,
    Option.some.injEq, Prod.exists] at h
  obtain ⟨m, s₁, hm, n, s₂, hn, _, _, -, _, -, _, _, -, _, -, _, _, -, _, -, _, _, -, _, -, _, _, -,
    rfl⟩ := h
  have h₁ := length_extractWord hm
  have h₂ := length_extractWord hn
  have h₃ := length_dn2data_s2dn m
  have h₄ := length_dn2data_s2dn n
  simp only [List.length_append, length_beBytes]
  omega

theorem length_dumpMX {data r : Bytes} (h : dumpMX data = some r) : r.length ≤ 259 := by
  simp only [dumpMX, Option.bind_eq_bind, Option.bind_eq_some_iff, Option.pure_def,
    Option.some.injEq, Prod.exists] at h
  obtain ⟨_, _, -, _, -, w, _, hw, rfl⟩ := h
  have h₁ := length_extractWord hw
  have h₂ := length_dn2data_s2dn w
  simp only [List.length_append, length_beBytes]
  omega

/-- An address has at most 16 bytes. -/
theorem length_inetPton {pton : Bytes → Option Bytes} {data r : Bytes} {n : ℕ}
    (h : inetPton pton data = .ok r) (hn : ∀ s r, pton s = some r → r.length = n) :
    r.length = n := by
  unfold inetPton at h
  split at h
  · next hr =>
      cases h
      exact hn _ _ hr
  · cases h

/-- The data of a record is not much longer than its text. -/
theorem length_Rdata {type : TYPE} {data r : Bytes} (h : Rdata type data = .ok r) :
    r.length ≤ data.length + 534 := by
  unfold Rdata at h
  split_ifs at h
  · have hlen := length_inetPton h fun _ _ => length_inetPton4
    omega
  · have hlen := length_inetPton h fun _ _ => length_inetPton6
    omega
  · cases h
    have hlen := length_dn2data_s2dn data
    omega
  · cases hd : dumpSOA data with
    | none => rw [hd] at h; cases h
    | some s =>
        rw [hd] at h
        cases h
        have hlen := length_dumpSOA hd
        omega
  · cases hd : dumpMX data with
    | none => rw [hd] at h; cases h
    | some s =>
        rw [hd] at h
        cases h
        have hlen := length_dumpMX hd
        omega
  · cases h
    rw [List.length_cons]
    omega
  · cases h
    exact Nat.zero_le _

/-- The data of a record whose text comes from a line of a zone file fits RDLENGTH. -/
theorem length_rdata {r : Record} (h : r.data.length ≤ 511) : r.rdata.length < 65536 := by
  have hlen := length_Rdata r.rdata_eq
  omega

end Dnsd

/-
# The message format of RFC 1035

An encoder and a decoder for DNS messages: header, question section and three sections of
resource records.  The decoder follows compression pointers and must consume the message to its
last byte; the encoder uses no compression.  Names are lists of labels, the leftmost label
first.  The limit of 255 octets on a whole name is not checked.

* `Message.encode`, `decode` : the two directions;
* `readName_encode`, `readResource_encode`, `readMany_encode` : the round trips of the parts;
* `decode_encode` : the round trip of a message whose labels have 1 to 63 bytes and whose
  counts and lengths fit 16 bits;
* `decodeName`, `decodeMx`, `decodeSoa`, `decodeStrings` : the data of a record, by its type, with
  their round trips and with what a decoded name and decoded strings are like.

Nothing here mentions a program of the repository.
-/
import IntroNP.Bytes

namespace Rfc1035

/-! ## Messages -/

/-- The header of a message. -/
structure Header where
  /-- ID. -/
  id : UInt16
  /-- QR. -/
  qr : Bool
  /-- OPCODE. -/
  opcode : BitVec 4
  /-- AA. -/
  aa : Bool
  /-- TC. -/
  tc : Bool
  /-- RD. -/
  rd : Bool
  /-- RA. -/
  ra : Bool
  /-- Z. -/
  z : BitVec 3
  /-- RCODE. -/
  rcode : BitVec 4
  /-- QDCOUNT. -/
  qdcount : UInt16
  /-- ANCOUNT. -/
  ancount : UInt16
  /-- NSCOUNT. -/
  nscount : UInt16
  /-- ARCOUNT. -/
  arcount : UInt16
  deriving DecidableEq

/-- An entry of the question section. -/
structure Question where
  /-- QNAME. -/
  name : List Bytes
  /-- QTYPE. -/
  type : UInt16
  /-- QCLASS. -/
  clas : UInt16
  deriving DecidableEq

/-- A resource record. -/
structure Resource where
  /-- NAME. -/
  name : List Bytes
  /-- TYPE. -/
  type : UInt16
  /-- CLASS. -/
  clas : UInt16
  /-- TTL. -/
  ttl : UInt32
  /-- RDATA. -/
  rdata : Bytes
  deriving DecidableEq

/-- A message. -/
structure Message where
  /-- The header. -/
  header : Header
  /-- The question section. -/
  question : List Question
  /-- The answer section. -/
  answer : List Resource
  /-- The authority section. -/
  authority : List Resource
  /-- The additional section. -/
  additional : List Resource
  deriving DecidableEq

/-! ## Encoding -/

/-- The two bytes of a number. -/
def u16 (n : UInt16) : Bytes := beBytes 2 n.toNat

/-- The four bytes of a number. -/
def u32 (n : UInt32) : Bytes := beBytes 4 n.toNat

/-- The two bytes between the ID and the counts. -/
def Header.flags (h : Header) : Bytes := [
  UInt8.ofNat (128 * h.qr.toNat + 8 * h.opcode.toNat + 4 * h.aa.toNat + 2 * h.tc.toNat + h.rd.toNat),
  UInt8.ofNat (128 * h.ra.toNat + 16 * h.z.toNat + h.rcode.toNat)]

/-- The twelve bytes of a header. -/
def Header.encode (h : Header) : Bytes :=
  u16 h.id ++ h.flags ++ u16 h.qdcount ++ u16 h.ancount ++ u16 h.nscount ++ u16 h.arcount

/-- A label: its length and its bytes. -/
def encodeLabel (l : Bytes) : Bytes := UInt8.ofNat l.length :: l

/-- A name: its labels and the root. -/
def encodeName (name : List Bytes) : Bytes := (name.map encodeLabel).flatten ++ [0]

/-- A question. -/
def Question.encode (q : Question) : Bytes := encodeName q.name ++ u16 q.type ++ u16 q.clas

/-- A resource record. -/
def Resource.encode (r : Resource) : Bytes :=
  encodeName r.name ++ u16 r.type ++ u16 r.clas ++ u32 r.ttl ++
    u16 (UInt16.ofNat r.rdata.length) ++ r.rdata

/-- A message. -/
def Message.encode (m : Message) : Bytes :=
  m.header.encode ++ (m.question.map Question.encode).flatten ++
    (m.answer.map Resource.encode).flatten ++ (m.authority.map Resource.encode).flatten ++
    (m.additional.map Resource.encode).flatten

/-! ## Decoding -/

/-- The first `n` bytes. -/
def readBytes (n : ℕ) (s : Bytes) : Option (Bytes × Bytes) :=
  if n ≤ s.length then some (s.take n, s.drop n) else none

/-- A 16-bit number. -/
def readU16 (s : Bytes) : Option (UInt16 × Bytes) :=
  (readBytes 2 s).map fun r => (UInt16.ofNat (ofBE r.1), r.2)

/-- A 32-bit number. -/
def readU32 (s : Bytes) : Option (UInt32 × Bytes) :=
  (readBytes 4 s).map fun r => (UInt32.ofNat (ofBE r.1), r.2)

/-- A name in a message, read from one of its suffixes.  A pointer leads to an earlier place of
the message; the fuel bounds the number of labels and pointers. -/
def readName (msg : Bytes) : ℕ → Bytes → Option (List Bytes × Bytes)
  | 0, _ => none
  | _ + 1, [] => none
  | fuel + 1, b :: s =>
      if b.toNat = 0 then
        some ([], s)
      else if b.toNat < 64 then
        (readBytes b.toNat s).bind fun r =>
          (readName msg fuel r.2).map fun n => (r.1 :: n.1, n.2)
      else if b.toNat < 192 then
        none
      else match s with
        | [] => none
        | c :: s =>
            let offset := 256 * (b.toNat - 192) + c.toNat
            if offset + (s.length + 2) < msg.length then
              (readName msg fuel (msg.drop offset)).map fun n => (n.1, s)
            else none

/-- A question. -/
def readQuestion (msg s : Bytes) : Option (Question × Bytes) := do
  let (name, s) ← readName msg msg.length s
  let (type, s) ← readU16 s
  let (clas, s) ← readU16 s
  return (⟨name, type, clas⟩, s)

/-- A resource record. -/
def readResource (msg s : Bytes) : Option (Resource × Bytes) := do
  let (name, s) ← readName msg msg.length s
  let (type, s) ← readU16 s
  let (clas, s) ← readU16 s
  let (ttl, s) ← readU32 s
  let (rdlength, s) ← readU16 s
  let (rdata, s) ← readBytes rdlength.toNat s
  return (⟨name, type, clas, ttl, rdata⟩, s)

/-- A number of entries. -/
def readMany {α : Type} (read : Bytes → Option (α × Bytes)) : ℕ → Bytes → Option (List α × Bytes)
  | 0, s => some ([], s)
  | n + 1, s => (read s).bind fun r => (readMany read n r.2).map fun rs => (r.1 :: rs.1, rs.2)

/-- The header. -/
def readHeader : Bytes → Option (Header × Bytes)
  | i₁ :: i₂ :: f₁ :: f₂ :: s => do
      let (qdcount, s) ← readU16 s
      let (ancount, s) ← readU16 s
      let (nscount, s) ← readU16 s
      let (arcount, s) ← readU16 s
      return ({
        id := UInt16.ofNat (ofBE [i₁, i₂])
        qr := f₁.toNat / 128 % 2 = 1
        opcode := BitVec.ofNat 4 (f₁.toNat / 8)
        aa := f₁.toNat / 4 % 2 = 1
        tc := f₁.toNat / 2 % 2 = 1
        rd := f₁.toNat % 2 = 1
        ra := f₂.toNat / 128 % 2 = 1
        z := BitVec.ofNat 3 (f₂.toNat / 16)
        rcode := BitVec.ofNat 4 f₂.toNat
        qdcount := qdcount
        ancount := ancount
        nscount := nscount
        arcount := arcount }, s)
  | _ => none

/-- A message: the header, as many entries as it counts, and nothing after them. -/
def decode (msg : Bytes) : Option Message := do
  let (header, s) ← readHeader msg
  let (question, s) ← readMany (readQuestion msg) header.qdcount.toNat s
  let (answer, s) ← readMany (readResource msg) header.ancount.toNat s
  let (authority, s) ← readMany (readResource msg) header.nscount.toNat s
  let (additional, s) ← readMany (readResource msg) header.arcount.toNat s
  if s = [] then return ⟨header, question, answer, authority, additional⟩ else none

/-! ## Round trips -/

/-- A label that can be written: 1 to 63 bytes. -/
def LabelOk (l : Bytes) : Prop := 1 ≤ l.length ∧ l.length ≤ 63

/-- A name whose labels can all be written. -/
def NameOk (name : List Bytes) : Prop := ∀ l ∈ name, LabelOk l

instance (name : List Bytes) : Decidable (NameOk name) :=
  inferInstanceAs (Decidable (∀ l ∈ name, _ ∧ _))

/-- A resource record that can be written. -/
def Resource.Ok (r : Resource) : Prop := NameOk r.name ∧ r.rdata.length < 65536

/-- A message that can be written, and whose counts are those of its sections. -/
structure Message.Ok (m : Message) : Prop where
  /-- The names of the questions. -/
  question : ∀ q ∈ m.question, NameOk q.name
  /-- The answers. -/
  answer : ∀ r ∈ m.answer, r.Ok
  /-- The authority records. -/
  authority : ∀ r ∈ m.authority, r.Ok
  /-- The additional records. -/
  additional : ∀ r ∈ m.additional, r.Ok
  /-- QDCOUNT. -/
  qdcount : m.header.qdcount.toNat = m.question.length
  /-- ANCOUNT. -/
  ancount : m.header.ancount.toNat = m.answer.length
  /-- NSCOUNT. -/
  nscount : m.header.nscount.toNat = m.authority.length
  /-- ARCOUNT. -/
  arcount : m.header.arcount.toNat = m.additional.length

@[simp] theorem length_u16 (n : UInt16) : (u16 n).length = 2 := length_beBytes 2 n.toNat

@[simp] theorem length_u32 (n : UInt32) : (u32 n).length = 4 := length_beBytes 4 n.toNat

theorem readBytes_append (t s : Bytes) : readBytes t.length (t ++ s) = some (t, s) := by
  rw [readBytes, if_pos (by rw [List.length_append]; omega), List.take_left, List.drop_left]

@[simp] theorem readU16_u16 (n : UInt16) (s : Bytes) : readU16 (u16 n ++ s) = some (n, s) := by
  have hbytes := readBytes_append (u16 n) s
  have hlt : n.toNat < 2 ^ 16 := n.toNat_lt
  rw [length_u16] at hbytes
  rw [readU16, hbytes, Option.map_some, u16, ofBE_beBytes, Nat.mod_eq_of_lt (by omega),
    UInt16.ofNat_toNat]

@[simp] theorem readU32_u32 (n : UInt32) (s : Bytes) : readU32 (u32 n ++ s) = some (n, s) := by
  have hbytes := readBytes_append (u32 n) s
  have hlt : n.toNat < 2 ^ 32 := n.toNat_lt
  rw [length_u32] at hbytes
  rw [readU32, hbytes, Option.map_some, u32, ofBE_beBytes, Nat.mod_eq_of_lt (by omega),
    UInt32.ofNat_toNat]

/-- A number is read without regard to what follows it. -/
theorem readU16_append {s r : Bytes} {n : UInt16} (h : readU16 s = some (n, r)) (t : Bytes) :
    readU16 (s ++ t) = some (n, r ++ t) := by
  match s with
  | [] => cases h
  | [_] => cases h
  | a :: b :: s =>
      cases h
      exact rfl

/-- A written name is read back, whatever the message around it. -/
theorem readName_encode (msg : Bytes) {name : List Bytes} (h : NameOk name) (s : Bytes)
    {fuel : ℕ} (hfuel : name.length < fuel) :
    readName msg fuel (encodeName name ++ s) = some (name, s) := by
  induction name generalizing fuel with
  | nil =>
      obtain ⟨fuel, rfl⟩ : ∃ k, fuel = k + 1 := ⟨fuel - 1, by omega⟩
      rfl
  | cons l name ih =>
      obtain ⟨fuel, rfl⟩ : ∃ k, fuel = k + 1 := ⟨fuel - 1, by omega⟩
      obtain ⟨hpos, hlen⟩ := h l List.mem_cons_self
      have hfuel' : name.length < fuel := by
        rw [List.length_cons] at hfuel
        omega
      have htail := ih (fun m hm => h m (List.mem_cons_of_mem _ hm)) hfuel'
      have hb : (UInt8.ofNat l.length).toNat = l.length := by
        rw [UInt8.toNat_ofNat']
        omega
      have hcons : encodeName (l :: name) ++ s
          = UInt8.ofNat l.length :: (l ++ (encodeName name ++ s)) := by
        simp [encodeName, encodeLabel]
      rw [hcons]
      unfold readName
      rw [hb, if_neg (by omega), if_pos (by omega), readBytes_append, Option.bind_some, htail,
        Option.map_some]

theorem length_lt_encodeName (name : List Bytes) : name.length < (encodeName name).length := by
  have hsum : name.length ≤ (name.map encodeLabel).flatten.length := by
    induction name with
    | nil => exact Nat.zero_le _
    | cons l name ih =>
        simp only [List.length_cons, List.map_cons, List.flatten_cons, List.length_append,
          encodeLabel] at ih ⊢
        omega
  rw [encodeName, List.length_append, List.length_singleton]
  omega

/-- The fuel of the decoder is enough for a name that stands in the message. -/
theorem readName_encode_of_suffix (msg : Bytes) {name : List Bytes} (h : NameOk name) (s : Bytes)
    (hmsg : encodeName name ++ s <:+ msg) :
    readName msg msg.length (encodeName name ++ s) = some (name, s) := by
  apply readName_encode msg h
  have hlt := length_lt_encodeName name
  have hle := hmsg.length_le
  rw [List.length_append] at hle
  omega

theorem readQuestion_encode {msg : Bytes} {q : Question} (h : NameOk q.name) (s : Bytes)
    (hmsg : q.encode ++ s <:+ msg) : readQuestion msg (q.encode ++ s) = some (q, s) := by
  simp only [Question.encode, List.append_assoc] at hmsg ⊢
  simp only [readQuestion, readName_encode_of_suffix _ h _ hmsg, readU16_u16, Option.bind_eq_bind,
    Option.bind_some, Option.pure_def]

theorem readResource_encode {msg : Bytes} {r : Resource} (h : r.Ok) (s : Bytes)
    (hmsg : r.encode ++ s <:+ msg) : readResource msg (r.encode ++ s) = some (r, s) := by
  obtain ⟨hname, hlen⟩ := h
  have hrd : (UInt16.ofNat r.rdata.length).toNat = r.rdata.length := by
    rw [UInt16.toNat_ofNat']
    omega
  simp only [Resource.encode, List.append_assoc] at hmsg ⊢
  simp only [readResource, readName_encode_of_suffix _ hname _ hmsg, readU16_u16, readU32_u32,
    Option.bind_eq_bind, Option.bind_some, hrd, readBytes_append, Option.pure_def]

/-- Entries that are each read back are all read back. -/
theorem readMany_encode {α : Type} {msg : Bytes} {read : Bytes → Option (α × Bytes)}
    {encode : α → Bytes} (as : List α) (s : Bytes)
    (h : ∀ a ∈ as, ∀ s, encode a ++ s <:+ msg → read (encode a ++ s) = some (a, s))
    (hmsg : (as.map encode).flatten ++ s <:+ msg) :
    readMany read as.length ((as.map encode).flatten ++ s) = some (as, s) := by
  induction as with
  | nil => rfl
  | cons a as ih =>
      rw [List.map_cons, List.flatten_cons, List.append_assoc] at hmsg ⊢
      have htail := ih (fun b hb => h b (List.mem_cons_of_mem _ hb))
        ((List.suffix_append _ _).trans hmsg)
      rw [List.length_cons, readMany, h a List.mem_cons_self _ hmsg, Option.bind_some, htail,
        Option.map_some]

@[simp] theorem Header.length_encode (h : Header) : h.encode.length = 12 := by
  simp [Header.encode, Header.flags]

/-- The questions stand behind the twelve bytes of the header. -/
theorem Message.question_prefix (m : Message) :
    (m.question.map Question.encode).flatten <+: m.encode.drop 12 := by
  have hdrop : m.encode.drop 12 = (m.question.map Question.encode).flatten ++
      ((m.answer.map Resource.encode).flatten ++ (m.authority.map Resource.encode).flatten ++
        (m.additional.map Resource.encode).flatten) := by
    rw [Message.encode]
    simp only [List.append_assoc]
    rw [← m.header.length_encode, List.drop_left]
  rw [hdrop]
  exact List.prefix_append _ _

/-- A flag is read from the parity of its bit. -/
theorem decide_bit {n : ℕ} {b : Bool} (h : n % 2 = b.toNat) : decide (n % 2 = 1) = b := by
  cases b <;> simp_all

theorem readHeader_encode (h : Header) (s : Bytes) :
    readHeader (h.encode ++ s) = some (h, s) := by
  obtain ⟨id, qr, opcode, aa, tc, rd, ra, z, rcode, qd, an, ns, ar⟩ := h
  obtain ⟨i₁, i₂, hid⟩ : ∃ i₁ i₂, u16 id = [i₁, i₂] := ⟨_, _, rfl⟩
  have hread : UInt16.ofNat (ofBE [i₁, i₂]) = id := by
    have hlt : id.toNat < 2 ^ 16 := id.toNat_lt
    rw [← hid, u16, ofBE_beBytes, Nat.mod_eq_of_lt (by omega), UInt16.ofNat_toNat]
  have hop := opcode.isLt
  have hz := z.isLt
  have hrcode := rcode.isLt
  have hqr := Bool.toNat_le qr
  have haa := Bool.toNat_le aa
  have htc := Bool.toNat_le tc
  have hrd := Bool.toNat_le rd
  have hra := Bool.toNat_le ra
  simp only [Header.encode, Header.flags, hid, List.append_assoc, List.cons_append,
    List.nil_append, readHeader, readU16_u16, Option.bind_eq_bind, Option.bind_some, hread,
    Option.pure_def, Option.some.injEq, Prod.mk.injEq, and_true, Header.mk.injEq, true_and,
    UInt8.toNat_ofNat']
  -- each field is read back from its own bits, the others being too small to reach them
  refine ⟨decide_bit (by omega), BitVec.eq_of_toNat_eq ?_, decide_bit (by omega),
    decide_bit (by omega), decide_bit (by omega), decide_bit (by omega),
    BitVec.eq_of_toNat_eq ?_, BitVec.eq_of_toNat_eq ?_⟩
  · rw [BitVec.toNat_ofNat]
    omega
  · rw [BitVec.toNat_ofNat]
    omega
  · rw [BitVec.toNat_ofNat]
    omega

/-- A written message is read back. -/
theorem decode_encode {m : Message} (h : m.Ok) : decode m.encode = some m := by
  -- what is left of the message after each of its five parts
  obtain ⟨s₄, h₄⟩ : ∃ s, s = (m.additional.map Resource.encode).flatten ++ [] := ⟨_, rfl⟩
  obtain ⟨s₃, h₃⟩ : ∃ s, s = (m.authority.map Resource.encode).flatten ++ s₄ := ⟨_, rfl⟩
  obtain ⟨s₂, h₂⟩ : ∃ s, s = (m.answer.map Resource.encode).flatten ++ s₃ := ⟨_, rfl⟩
  obtain ⟨s₁, h₁⟩ : ∃ s, s = (m.question.map Question.encode).flatten ++ s₂ := ⟨_, rfl⟩
  have h₀ : m.encode = m.header.encode ++ s₁ := by
    rw [h₁, h₂, h₃, h₄]
    simp only [Message.encode, List.append_assoc, List.append_nil]
  have hs₁ : s₁ <:+ m.encode := by rw [h₀]; exact List.suffix_append _ _
  have hs₂ : s₂ <:+ m.encode := (by rw [h₁]; exact List.suffix_append _ _ : s₂ <:+ s₁).trans hs₁
  have hs₃ : s₃ <:+ m.encode := (by rw [h₂]; exact List.suffix_append _ _ : s₃ <:+ s₂).trans hs₂
  have hs₄ : s₄ <:+ m.encode := (by rw [h₃]; exact List.suffix_append _ _ : s₄ <:+ s₃).trans hs₃
  have hquestion : readMany (readQuestion m.encode) m.question.length s₁
      = some (m.question, s₂) := by
    rw [h₁] at hs₁ ⊢
    exact readMany_encode _ _ (fun q hq s hmsg => readQuestion_encode (h.question q hq) s hmsg) hs₁
  have hrecords : ∀ (rs : List Resource) (s t : Bytes), (∀ r ∈ rs, r.Ok) → s <:+ m.encode →
      s = (rs.map Resource.encode).flatten ++ t →
      readMany (readResource m.encode) rs.length s = some (rs, t) := by
    rintro rs s t hrs hs rfl
    exact readMany_encode _ _ (fun r hr s hmsg => readResource_encode (hrs r hr) s hmsg) hs
  have hread : readHeader m.encode = some (m.header, s₁) := by
    rw [h₀]
    exact readHeader_encode m.header s₁
  simp only [decode, hread, h.qdcount, h.ancount, h.nscount, h.arcount, hquestion,
    hrecords _ _ _ h.answer hs₂ h₂, hrecords _ _ _ h.authority hs₃ h₃,
    hrecords _ _ _ h.additional hs₄ h₄, Option.bind_eq_bind, Option.bind_some, if_true,
    Option.pure_def]

/-! ## The data of a record -/

/-- The data of an MX record. -/
structure Mx where
  /-- PREFERENCE. -/
  preference : UInt16
  /-- EXCHANGE. -/
  exchange : List Bytes
  deriving DecidableEq

/-- The data of an SOA record. -/
structure Soa where
  /-- MNAME. -/
  mname : List Bytes
  /-- RNAME. -/
  rname : List Bytes
  /-- SERIAL. -/
  serial : UInt32
  /-- REFRESH. -/
  refresh : UInt32
  /-- RETRY. -/
  retry : UInt32
  /-- EXPIRE. -/
  expire : UInt32
  /-- MINIMUM. -/
  minimum : UInt32
  deriving DecidableEq

/-- The data of an MX record. -/
def Mx.encode (m : Mx) : Bytes := u16 m.preference ++ encodeName m.exchange

/-- The data of an SOA record. -/
def Soa.encode (a : Soa) : Bytes :=
  encodeName a.mname ++ encodeName a.rname ++ u32 a.serial ++ u32 a.refresh ++ u32 a.retry ++
    u32 a.expire ++ u32 a.minimum

/-- What is read must be all there is. -/
def atEnd {α : Type} (r : α × Bytes) : Option α := if r.2 = [] then some r.1 else none

/-- The data of an NS or a CNAME record. -/
def decodeName (rdata : Bytes) : Option (List Bytes) :=
  (readName rdata rdata.length rdata).bind atEnd

/-- The data of an MX record. -/
def decodeMx (rdata : Bytes) : Option Mx := do
  let (preference, s) ← readU16 rdata
  let (exchange, s) ← readName rdata rdata.length s
  atEnd (⟨preference, exchange⟩, s)

/-- The data of an SOA record. -/
def decodeSoa (rdata : Bytes) : Option Soa := do
  let (mname, s) ← readName rdata rdata.length rdata
  let (rname, s) ← readName rdata rdata.length s
  let (serial, s) ← readU32 s
  let (refresh, s) ← readU32 s
  let (retry, s) ← readU32 s
  let (expire, s) ← readU32 s
  let (minimum, s) ← readU32 s
  atEnd (⟨mname, rname, serial, refresh, retry, expire, minimum⟩, s)

/-- Character-strings to the end of the data. -/
def readStrings : ℕ → Bytes → Option (List Bytes)
  | 0, _ => none
  | _ + 1, [] => some []
  | fuel + 1, b :: s =>
      (readBytes b.toNat s).bind fun r => (readStrings fuel r.2).map fun ss => r.1 :: ss

/-- The data of a TXT record. -/
def decodeStrings (rdata : Bytes) : Option (List Bytes) := readStrings (rdata.length + 1) rdata

theorem decodeName_encode {name : List Bytes} (h : NameOk name) :
    decodeName (encodeName name) = some name := by
  have hread := readName_encode_of_suffix (encodeName name) h [] ⟨[], List.append_nil _⟩
  rw [List.append_nil] at hread
  rw [decodeName, hread]
  rfl

theorem decodeMx_encode {m : Mx} (h : NameOk m.exchange) : decodeMx m.encode = some m := by
  have hread := readName_encode_of_suffix m.encode h []
    (by rw [List.append_nil]; exact List.suffix_append _ _)
  rw [List.append_nil] at hread
  have hpreference : readU16 m.encode = some (m.preference, encodeName m.exchange) :=
    readU16_u16 _ _
  simp only [decodeMx, hpreference, hread, Option.bind_eq_bind, Option.bind_some]
  rfl

theorem decodeSoa_encode {a : Soa} (hm : NameOk a.mname) (hr : NameOk a.rname) :
    decodeSoa a.encode = some a := by
  obtain ⟨numbers, hnumbers⟩ : ∃ s, s = u32 a.serial ++ (u32 a.refresh ++ (u32 a.retry ++
    (u32 a.expire ++ (u32 a.minimum ++ [])))) := ⟨_, rfl⟩
  have hencode : a.encode = encodeName a.mname ++ (encodeName a.rname ++ numbers) := by
    rw [hnumbers, Soa.encode]
    simp only [List.append_assoc, List.append_nil]
  have hmname := readName_encode_of_suffix a.encode hm (encodeName a.rname ++ numbers)
    ⟨[], hencode.symm⟩
  have hrname := readName_encode_of_suffix a.encode hr numbers
    (by rw [hencode]; exact List.suffix_append _ _)
  rw [← hencode] at hmname
  simp only [decodeSoa, hmname, hrname, Option.bind_eq_bind, Option.bind_some]
  simp only [hnumbers, readU32_u32, Option.bind_some]
  rfl

/-- A name that has been read can be written. -/
theorem nameOk_of_readName {msg s r : Bytes} {fuel : ℕ} {name : List Bytes}
    (h : readName msg fuel s = some (name, r)) : NameOk name := by
  induction fuel generalizing s r name with
  | zero => cases h
  | succ fuel ih =>
      cases s with
      | nil => cases h
      | cons b s =>
          unfold readName at h
          split_ifs at h with hroot hlabel
          · cases h
            exact List.forall_mem_nil _
          · obtain ⟨⟨l, t⟩, hbytes, h⟩ := Option.bind_eq_some_iff.mp h
            obtain ⟨⟨ls, t'⟩, hread, heq⟩ := Option.map_eq_some_iff.mp h
            cases heq
            refine List.forall_mem_cons.mpr ⟨?_, ih hread⟩
            rw [readBytes] at hbytes
            split_ifs at hbytes with hlen
            cases hbytes
            show LabelOk (s.take b.toNat)
            rw [LabelOk, List.length_take_of_le hlen]
            omega
          · cases s with
            | nil => cases h
            | cons c s =>
                dsimp only at h
                split_ifs at h
                obtain ⟨⟨ls, t'⟩, hread, heq⟩ := Option.map_eq_some_iff.mp h
                cases heq
                exact ih hread

theorem nameOk_of_decodeName {rdata : Bytes} {name : List Bytes} (h : decodeName rdata = some name) :
    NameOk name := by
  obtain ⟨⟨n, s⟩, hread, hend⟩ := Option.bind_eq_some_iff.mp h
  rw [atEnd] at hend
  split_ifs at hend
  cases hend
  exact nameOk_of_readName hread

/-- What is read to its end from a name with labels of at most 255 bytes is that name: a longer
label would be taken for a pointer, and end before the data. -/
theorem eq_of_readName_encode {msg : Bytes} {fuel : ℕ} {name n : List Bytes}
    (hlen : ∀ l ∈ name, l.length ≤ 255)
    (h : readName msg fuel (encodeName name) = some (n, [])) : n = name := by
  induction name generalizing fuel n with
  | nil =>
      cases fuel with
      | zero => cases h
      | succ fuel =>
          cases h
          rfl
  | cons l name ih =>
      cases fuel with
      | zero => cases h
      | succ fuel =>
          obtain ⟨hl, hlater⟩ := List.forall_mem_cons.mp hlen
          have hb : (UInt8.ofNat l.length).toNat = l.length := by
            rw [UInt8.toNat_ofNat']
            omega
          have hcons : encodeName (l :: name) = UInt8.ofNat l.length :: (l ++ encodeName name) := by
            simp [encodeName, encodeLabel]
          have hpos := length_lt_encodeName name
          rw [hcons] at h
          unfold readName at h
          rw [hb] at h
          split_ifs at h with hroot hlabel
          · rw [Option.some.injEq, Prod.mk.injEq] at h
            have hnil := congrArg List.length h.2
            rw [List.length_append, List.length_nil] at hnil
            omega
          · rw [readBytes_append, Option.bind_some] at h
            obtain ⟨⟨ls, s⟩, hread, heq⟩ := Option.map_eq_some_iff.mp h
            cases heq
            rw [ih hlater hread]
          · have hsome : 192 + name.length < (l ++ encodeName name).length := by
              rw [List.length_append]
              omega
            split at h
            · cases h
            · next c s hs =>
                rw [hs, List.length_cons] at hsome
                dsimp only at h
                split_ifs at h
                obtain ⟨⟨ls, t⟩, -, heq⟩ := Option.map_eq_some_iff.mp h
                rw [Prod.mk.injEq] at heq
                have hnil := congrArg List.length heq.2
                rw [List.length_nil] at hnil
                omega

/-- A mail exchange that is read from written data is the one that has been written. -/
theorem decodeMx_written {preference : UInt16} {exchange : List Bytes} {m : Mx}
    (hlen : ∀ l ∈ exchange, l.length ≤ 255)
    (h : decodeMx (Mx.encode ⟨preference, exchange⟩) = some m) :
    m.exchange = exchange ∧ NameOk exchange := by
  have hpreference : readU16 (Mx.encode ⟨preference, exchange⟩)
      = some (preference, encodeName exchange) := readU16_u16 _ _
  simp only [decodeMx, hpreference, Option.bind_eq_bind, Option.bind_some] at h
  obtain ⟨⟨n, s⟩, hread, hend⟩ := Option.bind_eq_some_iff.mp h
  rw [atEnd] at hend
  split_ifs at hend with hs
  cases hend
  have hs : s = [] := hs
  rw [hs] at hread
  have hok := nameOk_of_readName hread
  have hname := eq_of_readName_encode hlen hread
  rw [hname] at hok
  exact ⟨hname, hok⟩

/-- Character-strings take up the bytes that they have, and one more each. -/
theorem length_readStrings {fuel : ℕ} {s : Bytes} {ss : List Bytes}
    (h : readStrings fuel s = some ss) : s.length = ss.flatten.length + ss.length := by
  induction fuel generalizing s ss with
  | zero => cases h
  | succ fuel ih =>
      cases s with
      | nil =>
          cases h
          rfl
      | cons b s =>
          obtain ⟨⟨t, r⟩, hbytes, h⟩ := Option.bind_eq_some_iff.mp h
          obtain ⟨ts, hread, heq⟩ := Option.map_eq_some_iff.mp h
          cases heq
          rw [readBytes] at hbytes
          split_ifs at hbytes with hlen
          cases hbytes
          have hlater := ih hread
          rw [List.length_drop] at hlater
          rw [List.length_cons, List.flatten_cons, List.length_append, List.length_cons,
            List.length_take]
          omega

/-- A character-string has at most 255 bytes. -/
theorem length_le_of_readStrings {fuel : ℕ} {s t : Bytes} {ss : List Bytes}
    (h : readStrings fuel s = some ss) (ht : t ∈ ss) : t.length ≤ 255 := by
  induction fuel generalizing s ss with
  | zero => cases h
  | succ fuel ih =>
      cases s with
      | nil =>
          cases h
          cases ht
      | cons b s =>
          obtain ⟨⟨u, r⟩, hbytes, h⟩ := Option.bind_eq_some_iff.mp h
          obtain ⟨ts, hread, heq⟩ := Option.map_eq_some_iff.mp h
          cases heq
          rcases List.mem_cons.mp ht with rfl | ht
          · rw [readBytes] at hbytes
            split_ifs at hbytes
            cases hbytes
            have hlt := b.toNat_lt
            show (s.take b.toNat).length ≤ 255
            rw [List.length_take]
            omega
          · exact ih hread ht

/-- One character-string. -/
theorem decodeStrings_one {t : Bytes} (h : t.length ≤ 255) :
    decodeStrings (UInt8.ofNat t.length :: t) = some [t] := by
  have hb : (UInt8.ofNat t.length).toNat = t.length := by
    rw [UInt8.toNat_ofNat']
    omega
  have hbytes : readBytes t.length t = some (t, []) := by
    have happend := readBytes_append t []
    rwa [List.append_nil] at happend
  rw [decodeStrings, List.length_cons, readStrings, hb, hbytes]
  rfl

end Rfc1035

/-
# The base64 functions of the labs

`b64encode` and `b64decode` of `base64.c`, which the web crawler of `Lab/7` and the solver of
`Lab/PoW` include.  The decoder skips what is no letter of the alphabet and stops at the first `=`.
It works on memory: the text that it reads and the bytes that it writes may share their place.

* `b64encode`, `b64decode` : the functions;
* `digitsOf`, `decoded` : the digits of a text, and what the decoder makes of them;
* `b64encode_eq` : the encoder, by digits;
* `b64decode_eq` : the decoder writes what it decodes, also over the text that it reads;
* `base64_round_trip`, `base64_canonical` : the two directions.

The functions are only called with an output that is not a null pointer.

* source : `Lab/PoW/base64.c`, `Lab/7/Web Crawler/base64.c`
-/
import IntroNP.Blocks
import IntroNP.Sextets

namespace Base64

open Block

/-! ## Encoding -/

/-- The table `t` of `b64encode`. -/
def table : Bytes := ascii "ABCDEFGHIJKLMNOPQRSTUVWXYZabcdefghijklmnopqrstuvwxyz0123456789+/"

/-- `t[i]`. -/
def t (i : ℕ) : UInt8 := table.getD i 0

/-- The variables of `b64encode`, with what has been stored. -/
structure Encoding where
  /-- `pad`. -/
  pad : ℕ
  /-- `ch`. -/
  ch : ℕ
  /-- The bytes before `optr`. -/
  out : Bytes

/-- The `switch` of `b64encode`. -/
def Encoding.step (s : Encoding) (i : ℕ) (b : UInt8) : Encoding :=
  match i % 3 with
  | 0 => ⟨2, (b.toNat &&& 0x3) <<< 4, s.out ++ [t (b.toNat >>> 2)]⟩
  | 1 => ⟨1, (b.toNat &&& 0xf) <<< 2, s.out ++ [t (s.ch ||| b.toNat >>> 4)]⟩
  | _ => ⟨0, s.ch, s.out ++ [t (s.ch ||| b.toNat >>> 6), t (b.toNat &&& 0x3f)]⟩

/-- The loop of `b64encode`. -/
def encodeLoop : ℕ → Encoding → Bytes → Encoding
  | _, s, [] => s
  | i, s, b :: bs => encodeLoop (i + 1) (s.step i b) bs

/-- What `b64encode` stores after its loop, but for the terminator. -/
def encodeEnd (s : Encoding) : Bytes :=
  s.out ++ (if s.pad > 0 then [t s.ch] else []) ++ List.replicate s.pad (ch '=')

/-- `b64encode`: what is stored at `output`, and `*outlen`, which is not set for an empty input. -/
def b64encode (input : Bytes) : Bytes × Option ℕ :=
  if input = [] then ([0], none)
  else
    let out := encodeEnd (encodeLoop 0 ⟨0, 0, []⟩ input)
    (out ++ [0], some out.length)

/-! ## Decoding -/

/-- `b64decode_code`, which is negative for what is not in the alphabet. -/
def b64decodeCode (c : UInt8) : Option ℕ :=
  if c ≥ ch 'a' ∧ c ≤ ch 'z' then some (26 + c.toNat - (ch 'a').toNat)
  else if c ≥ ch 'A' ∧ c ≤ ch 'Z' then some (c.toNat - (ch 'A').toNat)
  else if c ≥ ch '0' ∧ c ≤ ch '9' then some (52 + c.toNat - (ch '0').toNat)
  else if c = ch '+' then some 62
  else if c = ch '/' then some 63
  else none

/-- The variables of `b64decode`, with the memory. -/
structure Decoding where
  /-- The memory. -/
  mem : Bytes
  /-- `optr`. -/
  optr : ℕ
  /-- `coff`. -/
  coff : ℕ
  /-- `ch`. -/
  ch : UInt8
  /-- `flush`. -/
  flush : Bool

/-- `*optr++ = n`. -/
def Decoding.put (s : Decoding) (n : ℕ) : Option Decoding :=
  if s.optr < s.mem.length then
    some { s with mem := s.mem.set s.optr (UInt8.ofNat n), optr := s.optr + 1 }
  else none

/-- The `switch` of `b64decode`. -/
def Decoding.step (s : Decoding) (code : ℕ) : Option Decoding :=
  match s.coff &&& 0x3 with
  | 0 => some { s with ch := UInt8.ofNat (code <<< 2), flush := true, coff := s.coff + 1 }
  | 1 => (s.put (s.ch.toNat ||| code >>> 4)).map fun s =>
      { s with ch := UInt8.ofNat ((code &&& 0xf) <<< 4), flush := false, coff := s.coff + 1 }
  | 2 => (s.put (s.ch.toNat ||| code >>> 2)).map fun s =>
      { s with ch := UInt8.ofNat ((code &&& 0x3) <<< 6), flush := false, coff := s.coff + 1 }
  | _ => (s.put (s.ch.toNat ||| code)).map fun s =>
      { s with ch := 0, flush := false, coff := s.coff + 1 }

/-- The loop of `b64decode`, with the number of bytes that are left. -/
def decodeLoop (input : ℕ) : ℕ → ℕ → Decoding → Option Decoding
  | 0, _, s => some s
  | n + 1, i, s => do
      let b ← s.mem[input + i]?
      if b = ch '=' then some s
      else match b64decodeCode b with
        | none => decodeLoop input n (i + 1) s
        | some code => decodeLoop input n (i + 1) (← s.step code)

/-- The write after the loop. -/
def Decoding.finish (s : Decoding) : Option Decoding :=
  if s.flush then s.put s.ch.toNat else some s

/-- `b64decode` of `inlen` bytes at `input` to `output`: the memory afterwards, and `*outlen`, which
is not set for an empty input.  It is undefined outside of the memory. -/
def b64decode (mem : Bytes) (input inlen output : ℕ) : Option (Bytes × Option ℕ) :=
  if inlen = 0 then (store mem output [0]).map fun mem => (mem, none)
  else do
    let s ← decodeLoop input inlen 0 ⟨mem, output, 0, 0, true⟩
    let s ← s.finish
    let mem ← store s.mem s.optr [0]
    some (mem, some (s.optr - output))

example : (b64encode (ascii "INP")).1 = ascii "SU5Q" ++ [0] := by decide +kernel

/-! ## Bits -/

theorem and_3 (n : ℕ) : n &&& 0x3 = n % 4 := Nat.and_two_pow_sub_one_eq_mod n 2

theorem and_f (n : ℕ) : n &&& 0xf = n % 16 := Nat.and_two_pow_sub_one_eq_mod n 4

theorem and_3f (n : ℕ) : n &&& 0x3f = n % 64 := Nat.and_two_pow_sub_one_eq_mod n 6

/-- Bits put together from two bytes. -/
theorem or_eq_add {a b k : ℕ} (hb : b < 2 ^ k) : a * 2 ^ k ||| b = a * 2 ^ k + b := by
  rw [← Nat.shiftLeft_eq, Nat.shiftLeft_add_eq_or_of_lt hb]

/-! ## The encoder -/

/-- The text of a list of digits, filled up with `=`. -/
def text (ds : List ℕ) : Bytes := ds.map t ++ List.replicate ((4 - ds.length % 4) % 4) (ch '=')

section encoder

variable (s : Encoding) {i : ℕ} (hi : i % 3 = 0) (a b c : UInt8)
include hi

theorem step_first : s.step i a = ⟨2, a.toNat % 4 * 16, s.out ++ [t (a.toNat / 4)]⟩ := by
  rw [Encoding.step, hi]
  show Encoding.mk 2 ((a.toNat &&& 0x3) <<< 4) _ = _
  rw [and_3, Nat.shiftLeft_eq, Nat.shiftRight_eq_div_pow]

theorem step_second : (s.step i a).step (i + 1) b = ⟨1, b.toNat % 16 * 4,
    s.out ++ [t (a.toNat / 4), t (a.toNat % 4 * 16 + b.toNat / 16)]⟩ := by
  have hb : b.toNat / 16 < 2 ^ 4 := by
    have hb := b.toNat_lt
    omega
  have hmod : (i + 1) % 3 = 1 := by omega
  rw [step_first s hi, Encoding.step, hmod]
  show Encoding.mk 1 ((b.toNat &&& 0xf) <<< 2)
    (_ ++ [t (a.toNat % 4 * 2 ^ 4 ||| b.toNat >>> 4)]) = _
  rw [and_f, Nat.shiftLeft_eq, Nat.shiftRight_eq_div_pow, or_eq_add hb, List.append_assoc]
  rfl

theorem step_third : ((s.step i a).step (i + 1) b).step (i + 2) c = ⟨0, b.toNat % 16 * 4,
    s.out ++ [t (a.toNat / 4), t (a.toNat % 4 * 16 + b.toNat / 16),
      t (b.toNat % 16 * 4 + c.toNat / 64), t (c.toNat % 64)]⟩ := by
  have hc : c.toNat / 64 < 2 ^ 2 := by
    have hc := c.toNat_lt
    omega
  have hmod : (i + 2) % 3 = 2 := by omega
  rw [step_second s hi, Encoding.step, hmod]
  show Encoding.mk 0 _ (_ ++ [t (b.toNat % 16 * 2 ^ 2 ||| c.toNat >>> 6),
    t (c.toNat &&& 0x3f)]) = _
  rw [and_3f, Nat.shiftRight_eq_div_pow, or_eq_add hc, List.append_assoc]
  rfl

end encoder

/-- The loop writes the digits of whole groups, and keeps the bits that are left. -/
theorem encodeLoop_eq (input : Bytes) (s : Encoding) {i : ℕ} (hi : i % 3 = 0)
    (hs : input = [] → s.pad = 0) :
    encodeEnd (encodeLoop i s input) = s.out ++ text (sextets input) := by
  induction input using sextets.induct generalizing s i with
  | case1 => simp [encodeLoop, encodeEnd, hs rfl, sextets, text]
  | case2 a =>
      rw [encodeLoop, step_first s hi]
      simp [encodeLoop, encodeEnd, sextets, text]
  | case3 a b =>
      rw [encodeLoop, encodeLoop, step_second s hi]
      simp [encodeLoop, encodeEnd, sextets, text]
  | case4 a b c bs ih =>
      have hlen : (sextets (a :: b :: c :: bs)).length % 4 = (sextets bs).length % 4 := by
        simp only [sextets, List.length_cons]
        omega
      rw [encodeLoop, encodeLoop, encodeLoop, step_third s hi]
      rw [ih _ (by omega) (fun _ => rfl), text, text, hlen]
      simp [sextets]

theorem b64encode_eq {input : Bytes} (h : input ≠ []) : b64encode input
    = (text (sextets input) ++ [0], some (text (sextets input)).length) := by
  have hout : encodeEnd (encodeLoop 0 ⟨0, 0, []⟩ input) = text (sextets input) :=
    encodeLoop_eq input _ rfl (fun _ => rfl)
  rw [b64encode, if_neg h, hout]

/-! ## The alphabet -/

/-- A digit is read back from its letter, which is not the padding. -/
theorem code_t {d : ℕ} (hd : d < 64) : b64decodeCode (t d) = some d ∧ t d ≠ ch '=' := by
  have h : ∀ d : Fin 64, b64decodeCode (t d) = some (d : ℕ) ∧ t d ≠ ch '=' := by decide +kernel
  exact h ⟨d, hd⟩

/-- A letter is that of the digit it is read as. -/
theorem t_code {c : UInt8} {d : ℕ} (h : b64decodeCode c = some d) : d < 64 ∧ t d = c := by
  have hall : ∀ n : Fin 256, ∀ d ∈ b64decodeCode (UInt8.ofNat n), d < 64 ∧ t d = UInt8.ofNat n := by
    decide +kernel
  have hc := hall ⟨c.toNat, c.toNat_lt⟩ d
  rw [show UInt8.ofNat (⟨c.toNat, c.toNat_lt⟩ : Fin 256) = c from UInt8.ofNat_toNat] at hc
  exact hc h

/-- The digits of a text, up to the first `=`. -/
def digitsOf (s : Bytes) : List ℕ := (s.takeWhile (· ≠ ch '=')).filterMap b64decodeCode

/-- The bytes that the decoder makes of digits.  Where a digit is left over, and where there is no
digit, the bits that are left are written as a byte. -/
def decoded (ds : List ℕ) : Bytes :=
  octets ds ++ if ds = [] ∨ ds.length % 4 = 1 then [UInt8.ofNat (carry ds)] else []

theorem length_digitsOf_le (s : Bytes) : (digitsOf s).length ≤ s.length :=
  (List.length_filterMap_le _ _).trans (List.takeWhile_sublist _).length_le

theorem length_decoded_le (ds : List ℕ) : (decoded ds).length ≤ max ds.length 1 := by
  rw [decoded, List.length_append, length_octets]
  split_ifs with h
  · rcases h with rfl | h
    · exact Nat.le_refl 1
    · rw [List.length_singleton]
      omega
  · rw [List.length_nil]
    omega

/-! ## The decoder -/

/-- What the decoder has made of the digits before its place in the text. -/
structure Decoding.Reads (mem : Bytes) (output : ℕ) (ds : List ℕ) (s : Decoding) : Prop where
  /-- The whole bytes are stored. -/
  mem : store mem output (octets ds) = some s.mem
  /-- They end at `optr`. -/
  optr : s.optr = output + (octets ds).length
  /-- The digits are counted. -/
  coff : s.coff = ds.length
  /-- The bits that are left are kept. -/
  ch : s.ch.toNat = carry ds
  /-- They are to be written if they are from one digit. -/
  flush : s.flush = true ↔ ds = [] ∨ ds.length % 4 = 1

section step

variable {mem : Bytes} {output : ℕ} {ds : List ℕ} {s : Decoding}

/-- A byte is stored behind those before it. -/
theorem store_put (h : store mem output (octets ds) = some s.mem)
    (hoptr : s.optr = output + (octets ds).length) (hroom : s.optr < mem.length) (n : ℕ) :
    store mem output (octets ds ++ [UInt8.ofNat n]) = some (s.mem.set s.optr (UInt8.ofNat n))
      ∧ s.put n = some { s with mem := s.mem.set s.optr (UInt8.ofNat n), optr := s.optr + 1 } := by
  constructor
  · rw [hoptr] at hroom ⊢
    exact store_concat h hroom _
  · rw [Decoding.put, if_pos]
    rw [length_store h]
    exact hroom

/-- The bits that are left, and the bits of a digit that complete a byte. -/
theorem or_digit (ds : List ℕ) {d : ℕ} (hd : d < 64) : carry ds ||| d >>> (2 * (3 - ds.length % 4))
    = carry ds + d / 4 ^ (3 - ds.length % 4) := by
  have hpow : ∀ k : ℕ, 2 ^ (2 * k) = 4 ^ k := fun k => pow_mul 2 2 k
  obtain ⟨n, hn⟩ : 2 ^ (2 * (ds.length % 4)) ∣ carry ds := by
    rw [hpow]
    exact pow_dvd_carry ds
  have hlow : d / 4 ^ (3 - ds.length % 4) < 2 ^ (2 * (ds.length % 4)) := by
    rw [hpow]
    apply Nat.div_lt_of_lt_mul
    rw [← pow_add, show 3 - ds.length % 4 + ds.length % 4 = 3 by omega]
    exact hd
  rw [hn, Nat.shiftRight_eq_div_pow, hpow (3 - _), Nat.mul_comm, or_eq_add hlow]

/-- The byte that a digit completes. -/
theorem put_digit (h : s.Reads mem output ds) {d : ℕ} (hd : d < 64) (hr : ds.length % 4 ≠ 0)
    (hroom : output + (octets (ds ++ [d])).length ≤ mem.length) :
    ∃ m, store mem output (octets (ds ++ [d])) = some m
      ∧ s.put (s.ch.toNat ||| d >>> (2 * (3 - ds.length % 4)))
        = some { s with mem := m, optr := s.optr + 1 } := by
  rw [octets_concat, if_neg hr] at hroom ⊢
  rw [List.length_append, List.length_singleton] at hroom
  have hoptr := h.optr
  obtain ⟨hstore, hput⟩ :=
    store_put h.mem h.optr (by omega) (carry ds + d / 4 ^ (3 - ds.length % 4))
  rw [h.ch, or_digit ds hd]
  exact ⟨_, hstore, hput⟩

/-- A digit is read. -/
theorem Decoding.Reads.step (h : s.Reads mem output ds) {d : ℕ} (hd : d < 64)
    (hroom : output + (octets (ds ++ [d])).length ≤ mem.length) :
    ∃ s', s.step d = some s' ∧ s'.Reads mem output (ds ++ [d]) := by
  have hcoff : s.coff &&& 0x3 = ds.length % 4 := by rw [and_3, h.coff]
  have hlen : (ds ++ [d]).length = ds.length + 1 := List.length_append
  have hcount : s.coff + 1 = (ds ++ [d]).length := by rw [hlen, h.coff]
  have hcarry := carry_concat ds d
  have hnat : ∀ {n : ℕ}, n < 256 → (UInt8.ofNat n).toNat = n := by
    intro n hn
    rw [UInt8.toNat_ofNat']
    exact Nat.mod_eq_of_lt hn
  by_cases hr : ds.length % 4 = 0
  · -- the first digit of a group completes nothing
    have hflush : true = true ↔ ds ++ [d] = [] ∨ (ds ++ [d]).length % 4 = 1 := by
      apply iff_of_true rfl
      right
      omega
    have hwhole : octets (ds ++ [d]) = octets ds := by
      rw [octets_concat, if_pos hr, List.append_nil]
    rw [hr] at hcoff hcarry
    refine ⟨{ s with ch := UInt8.ofNat (d <<< 2), flush := true, coff := s.coff + 1 }, ?_,
      ⟨?_, ?_, hcount, ?_, hflush⟩⟩
    · rw [Decoding.step, hcoff]
      rfl
    · rw [hwhole]
      exact h.mem
    · rw [hwhole]
      exact h.optr
    · rw [hcarry, Nat.shiftLeft_eq]
      exact hnat (by omega)
  · obtain ⟨m, hm, hput⟩ := put_digit h hd hr hroom
    have hflush : false = true ↔ ds ++ [d] = [] ∨ (ds ++ [d]).length % 4 = 1 := by
      apply iff_of_false Bool.false_ne_true
      rintro (hnil | hone)
      · rw [hnil] at hlen
        cases hlen
      · omega
    have hend : s.optr + 1 = output + (octets (ds ++ [d])).length := by
      rw [octets_concat, if_neg hr, List.length_append, h.optr]
      rfl
    obtain hr | hr | hr : ds.length % 4 = 1 ∨ ds.length % 4 = 2 ∨ ds.length % 4 = 3 := by omega
    · rw [hr] at hcoff hcarry hput
      refine ⟨⟨m, s.optr + 1, s.coff + 1, UInt8.ofNat ((d &&& 0xf) <<< 4), false⟩, ?_,
        ⟨hm, hend, hcount, ?_, hflush⟩⟩
      · rw [Decoding.step, hcoff]
        show (s.put (s.ch.toNat ||| d >>> 4)).map _ = _
        rw [hput]
        rfl
      · rw [hcarry, and_f, Nat.shiftLeft_eq]
        exact hnat (by omega)
    · rw [hr] at hcoff hcarry hput
      refine ⟨⟨m, s.optr + 1, s.coff + 1, UInt8.ofNat ((d &&& 0x3) <<< 6), false⟩, ?_,
        ⟨hm, hend, hcount, ?_, hflush⟩⟩
      · rw [Decoding.step, hcoff]
        show (s.put (s.ch.toNat ||| d >>> 2)).map _ = _
        rw [hput]
        rfl
      · rw [hcarry, and_3, Nat.shiftLeft_eq]
        exact hnat (by omega)
    · rw [hr] at hcoff hcarry hput
      refine ⟨⟨m, s.optr + 1, s.coff + 1, 0, false⟩, ?_, ⟨hm, hend, hcount, ?_, hflush⟩⟩
      · rw [Decoding.step, hcoff]
        show (s.put (s.ch.toNat ||| d >>> 0)).map _ = _
        rw [hput]
        rfl
      · rw [hcarry]
        rfl

end step

section loop

variable {mem : Bytes} {input output : ℕ}

theorem length_octets_append_le (ds es : List ℕ) :
    (octets ds).length ≤ (octets (ds ++ es)).length := by
  rw [length_octets, length_octets, List.length_append]
  omega

theorem digitsOf_cons {c : UInt8} (hc : c ≠ ch '=') (s : Bytes) :
    digitsOf (c :: s) = (b64decodeCode c).toList ++ digitsOf s := by
  rw [digitsOf, List.takeWhile_cons_of_pos (by simpa using hc), List.filterMap_cons]
  cases b64decodeCode c <;> rfl

/-- The rest of a text is read, as long as the bytes that are written do not reach it. -/
theorem decodeLoop_reads (input : ℕ) (rest : Bytes) {i : ℕ} {ds : List ℕ} {s : Decoding}
    (h : s.Reads mem output ds) (hds : ds.length ≤ i)
    (hread : ∀ j < rest.length, mem[input + (i + j)]? = rest[j]?)
    (hplace : output ≤ input ∨ input + (i + rest.length) ≤ output)
    (hroom : output + (octets (ds ++ digitsOf rest)).length ≤ mem.length) :
    ∃ s', decodeLoop input rest.length i s = some s'
      ∧ s'.Reads mem output (ds ++ digitsOf rest) := by
  induction rest generalizing i ds s with
  | nil =>
      rw [← List.append_nil ds] at h
      exact ⟨s, rfl, h⟩
  | cons c rest ih =>
      -- the byte is still the one of the text
      have hbyte : s.mem[input + i]? = some c := by
        have hwritten := length_octets ds
        rw [List.length_cons] at hplace
        rw [getElem?_store h.mem (by omega)]
        exact hread 0 (Nat.succ_pos _)
      have hnext : ∀ j < rest.length, mem[input + (i + 1 + j)]? = rest[j]? := by
        intro j hj
        rw [Nat.add_right_comm i 1 j]
        exact hread (j + 1) (Nat.succ_lt_succ hj)
      have hplace' : output ≤ input ∨ input + (i + 1 + rest.length) ≤ output := by
        rw [List.length_cons] at hplace
        omega
      rw [List.length_cons, decodeLoop, hbyte]
      show ∃ s', (if c = ch '=' then some s else _) = some s' ∧ _
      by_cases hc : c = ch '='
      · rw [if_pos hc]
        refine ⟨s, rfl, ?_⟩
        rw [digitsOf, hc]
        show s.Reads mem output (ds ++ [])
        rw [List.append_nil]
        exact h
      · rw [if_neg hc]
        rw [digitsOf_cons hc] at hroom ⊢
        cases hcode : b64decodeCode c with
        | none =>
            rw [hcode] at hroom
            exact ih h (Nat.le_succ_of_le hds) hnext hplace' hroom
        | some d =>
            rw [hcode, Option.toList_some, ← List.append_assoc] at hroom
            have hle := length_octets_append_le (ds ++ [d]) (digitsOf rest)
            obtain ⟨s₁, hs₁, hreads⟩ := h.step (t_code hcode).1 (by omega)
            rw [Option.toList_some, ← List.append_assoc]
            show ∃ s', (s.step d).bind (decodeLoop input rest.length (i + 1)) = some s' ∧ _
            rw [hs₁]
            exact ih hreads (by rw [List.length_append]; exact Nat.succ_le_succ hds) hnext hplace'
              hroom

/-- The bits that are left are written behind the bytes. -/
theorem Decoding.Reads.finish {ds : List ℕ} {s : Decoding} (h : s.Reads mem output ds)
    (hroom : output + (decoded ds).length < mem.length) :
    ∃ s', s.finish = some s' ∧ store mem output (decoded ds) = some s'.mem
      ∧ s'.optr = output + (decoded ds).length := by
  by_cases hflush : s.flush = true
  · have hdecoded : decoded ds = octets ds ++ [UInt8.ofNat (carry ds)] := by
      rw [decoded, if_pos (h.flush.mp hflush)]
    rw [hdecoded, List.length_append, List.length_singleton] at hroom ⊢
    have hoptr := h.optr
    obtain ⟨hstore, hput⟩ := store_put h.mem h.optr (by omega) (carry ds)
    rw [Decoding.finish, if_pos hflush, h.ch, hput]
    refine ⟨_, rfl, hstore, ?_⟩
    show s.optr + 1 = _
    omega
  · have hdecoded : decoded ds = octets ds := by
      rw [decoded, if_neg (mt h.flush.mpr hflush), List.append_nil]
    rw [hdecoded, Decoding.finish, if_neg hflush]
    exact ⟨s, rfl, h.mem, h.optr⟩

/-- The decoder writes the bytes of the digits, over the text or elsewhere. -/
theorem b64decode_eq {s : Bytes} (hs : s ≠ [])
    (hread : ∀ i < s.length, mem[input + i]? = s[i]?)
    (hplace : output ≤ input ∨ input + s.length ≤ output)
    (hroom : output + (decoded (digitsOf s)).length < mem.length) :
    b64decode mem input s.length output
      = (store mem output (decoded (digitsOf s) ++ [0])).map
        fun mem => (mem, some (decoded (digitsOf s)).length) := by
  have hstart : (Decoding.mk mem output 0 0 true).Reads mem output [] :=
    ⟨by rw [octets, store]; simp; omega, rfl, rfl, rfl, by simp⟩
  have hle : (octets (digitsOf s)).length ≤ (decoded (digitsOf s)).length := by
    rw [decoded, List.length_append]
    exact Nat.le_add_right _ _
  obtain ⟨s₁, hloop, h⟩ := decodeLoop_reads input s hstart (Nat.le_refl 0)
    (fun i hi => by rw [Nat.zero_add]; exact hread i hi) (by rw [Nat.zero_add]; exact hplace)
    (by rw [List.nil_append]; omega)
  rw [List.nil_append] at h
  obtain ⟨s₂, hfinish, hstore, hoptr⟩ := h.finish hroom
  have hend : store s₂.mem s₂.optr [0] = some (s₂.mem.set s₂.optr 0) := by
    rw [hoptr]
    apply store_singleton
    rw [length_store hstore]
    exact hroom
  rw [b64decode, if_neg (by simpa using hs), store_concat hstore hroom]
  show (decodeLoop input s.length 0 ⟨mem, output, 0, 0, true⟩).bind _ = _
  rw [hloop]
  show s₁.finish.bind _ = _
  rw [hfinish]
  show (store s₂.mem s₂.optr [0]).bind _ = _
  rw [hend, hoptr]
  show some (_, some (output + (decoded (digitsOf s)).length - output)) = _
  rw [Nat.add_sub_cancel_left]
  rfl

end loop

/-! ## Round trips -/

/-- The digits of a text are read back, whatever follows it without digits. -/
theorem digitsOf_text {ds : List ℕ} (h : ∀ d ∈ ds, d < 64) {rest : Bytes}
    (hrest : digitsOf rest = []) : digitsOf (text ds ++ rest) = ds := by
  have hletters : ∀ c ∈ ds.map t, decide (c ≠ ch '=') = true := by
    intro c hc
    obtain ⟨d, hd, rfl⟩ := List.mem_map.mp hc
    exact decide_eq_true (code_t (h d hd)).2
  have hcodes : (ds.map t).filterMap b64decodeCode = ds := by
    rw [List.filterMap_map]
    calc ds.filterMap (b64decodeCode ∘ t) = ds.filterMap some :=
          List.filterMap_congr fun d hd => (code_t (h d hd)).1
      _ = ds := List.filterMap_some
  have hpadding : ∀ k, digitsOf (List.replicate k (ch '=') ++ rest) = [] := by
    rintro (_ | k)
    · exact hrest
    · rfl
  rw [text, List.append_assoc, digitsOf, List.takeWhile_append_of_pos hletters,
    List.filterMap_append, hcodes]
  exact (congrArg (ds ++ ·) (hpadding _)).trans (List.append_nil ds)

theorem decoded_ne_nil (ds : List ℕ) : decoded ds ≠ [] := by
  intro h
  obtain ⟨hoctets, hflush⟩ := List.append_eq_nil_iff.mp h
  have hlen : ds.length * 3 / 4 = 0 := by rw [← length_octets, hoctets, List.length_nil]
  rw [if_pos] at hflush
  · cases hflush
  · rw [← List.length_eq_zero_iff]
    omega

/-- In a canonical list no digit is left over. -/
theorem length_canonical {ds : List ℕ} (h : Canonical ds) : ds.length % 4 ≠ 1 := by
  rw [← sextets_octets h, length_sextets]
  omega

theorem decoded_canonical {ds : List ℕ} (h : Canonical ds) (hnil : ds ≠ []) :
    decoded ds = octets ds := by
  rw [decoded, if_neg, List.append_nil]
  rintro (hds | hlen)
  · exact hnil hds
  · exact length_canonical h hlen

/-- The letters of a text, up to the first `=`. -/
def letters (s : Bytes) : Bytes :=
  (s.takeWhile (· ≠ ch '=')).filter fun c => (b64decodeCode c).isSome

/-- The digits of a text are those of its letters. -/
theorem digitsOf_letters (s : Bytes) : digitsOf s = (letters s).filterMap b64decodeCode := by
  rw [digitsOf, letters, List.filterMap_filter]
  congr 1
  funext c
  cases b64decodeCode c <;> rfl

section trips

variable {mem s : Bytes} {input output : ℕ} (hread : ∀ i < s.length, mem[input + i]? = s[i]?)
  (hplace : output ≤ input ∨ input + s.length ≤ output)
include hread hplace

/-- What has been encoded is decoded, whatever has been put between the letters and after them. -/
theorem base64_round_trip {bs : Bytes} (hbs : bs ≠ [])
    (hletters : letters s = letters (b64encode bs).1)
    (hroom : output + bs.length < mem.length) :
    b64decode mem input s.length output
      = (store mem output (bs ++ [0])).map fun mem => (mem, some bs.length) := by
  have hds : digitsOf s = sextets bs := by
    rw [digitsOf_letters, hletters, ← digitsOf_letters, b64encode_eq hbs]
    exact digitsOf_text (sextets_lt bs) rfl
  have hnil : sextets bs ≠ [] := by
    rw [← List.length_pos_iff] at hbs ⊢
    rw [length_sextets]
    omega
  have hdecoded : decoded (digitsOf s) = bs := by
    rw [hds, decoded_canonical (canonical_sextets bs) hnil, octets_sextets]
  have hs : s ≠ [] := by
    rintro rfl
    exact hnil hds.symm
  rw [b64decode_eq hs hread hplace (by rw [hdecoded]; exact hroom), hdecoded]

omit hread hplace in
/-- A text with a blank in it, decoded in its place. -/
theorem base64_round_trip_place : b64decode (ascii "SU 5Q" ++ [0]) 0 5 0
    = (store (ascii "SU 5Q" ++ [0]) 0 (ascii "INP" ++ [0])).map fun mem => (mem, some 3) := by
  have hread : ∀ i < (ascii "SU 5Q").length,
      (ascii "SU 5Q" ++ [0])[0 + i]? = (ascii "SU 5Q")[i]? := by decide
  have hletters : letters (ascii "SU 5Q") = letters (b64encode (ascii "INP")).1 := by
    decide +kernel
  exact base64_round_trip hread (Or.inl (Nat.le_refl 0)) (by decide) hletters (by decide)

/-- A text is encoded again from what is decoded exactly if it is canonical. -/
theorem base64_canonical (hs : s ≠ []) (hroom : output + s.length < mem.length) :
    ∃ mem' n, b64decode mem input s.length output = some (mem', some n)
      ∧ ((b64encode ((mem'.drop output).take n)).1 = s ++ [0]
        ↔ Canonical (digitsOf s) ∧ s = text (digitsOf s)) := by
  have hlen := length_decoded_le (digitsOf s)
  have hle := length_digitsOf_le s
  have hpos := List.length_pos_iff.mpr hs
  have hdecode := b64decode_eq hs hread hplace (by omega)
  obtain ⟨mem', hstore⟩ := exists_store (m := mem) (p := output)
    (s := decoded (digitsOf s) ++ [0]) (by rw [List.length_append, List.length_singleton]; omega)
  rw [hstore] at hdecode
  refine ⟨mem', _, hdecode, ?_⟩
  rw [take_drop_store hstore, b64encode_eq (decoded_ne_nil _)]
  show text _ ++ [0] = s ++ [0] ↔ _
  rw [List.append_left_inj]
  constructor
  · intro htext
    have hds : digitsOf s = sextets (decoded (digitsOf s)) := by
      conv_lhs => rw [← htext, ← List.append_nil (text _)]
      exact digitsOf_text (sextets_lt _) rfl
    constructor
    · rw [hds]
      exact canonical_sextets _
    · conv_rhs => rw [hds]
      exact htext.symm
  · rintro ⟨hcanonical, htext⟩
    have hnil : digitsOf s ≠ [] := by
      intro hnil
      rw [hnil] at htext
      exact hs htext
    rw [decoded_canonical hcanonical hnil, sextets_octets hcanonical]
    exact htext.symm

omit hread hplace in
theorem base64_canonical_place : ∃ mem' n,
    b64decode (ascii "SU5Q" ++ [0]) 0 4 0 = some (mem', some n)
      ∧ ((b64encode ((mem'.drop 0).take n)).1 = ascii "SU5Q" ++ [0]
        ↔ Canonical (digitsOf (ascii "SU5Q")) ∧ ascii "SU5Q" = text (digitsOf (ascii "SU5Q"))) := by
  have hread : ∀ i < (ascii "SU5Q").length,
      (ascii "SU5Q" ++ [0])[0 + i]? = (ascii "SU5Q")[i]? := by decide
  exact base64_canonical hread (Or.inl (Nat.le_refl 0)) (by decide) (by decide)

end trips

end Base64

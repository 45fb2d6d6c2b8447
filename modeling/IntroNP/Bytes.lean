/-
# Byte strings

The programs of this development exchange and store C++ `std::string`s and `char` arrays.
A byte string is a list of bytes; this file collects what the models need of them whatever
the program: ASCII constants, the character classes of the C locale, fixed-width integers in
both byte orders, and the C string in a buffer, up to its NUL.

* `leBytes`, `ofLE` : little-endian integers, with the round trip `ofLE_leBytes`;
* `beBytes`, `ofBE` : their big-endian counterparts (network order);
* `cstr`, `cstr_take_zeros` : the C string in a buffer, which only depends on it up to its NUL;
* `scanSet` : the longest nonempty bounded prefix in a character class, as a `scanf`
  conversion takes it, with its exactness lemma `scanSet_append`.
-/
import Mathlib.Data.List.Basic
import Mathlib.Data.List.TakeWhile
import Mathlib.Tactic.Ring

/-- A byte string. -/
abbrev Bytes := List UInt8

/-- The bytes of an ASCII text. -/
def ascii (s : String) : Bytes := s.toList.map (fun c => UInt8.ofNat c.toNat)

/-- The byte of an ASCII character. -/
def ch (c : Char) : UInt8 := UInt8.ofNat c.toNat

/-! ## Character classes of the C locale -/

/-- `isdigit`. -/
def isDigit (b : UInt8) : Bool := 48 ≤ b.toNat ∧ b.toNat ≤ 57

/-- `isalpha`. -/
def isAlpha (b : UInt8) : Bool :=
  (65 ≤ b.toNat ∧ b.toNat ≤ 90) ∨ (97 ≤ b.toNat ∧ b.toNat ≤ 122)

/-- `isspace`: blank, tab, line feed, vertical tab, form feed, carriage return. -/
def isSpace (b : UInt8) : Bool := b.toNat = 32 ∨ (9 ≤ b.toNat ∧ b.toNat ≤ 13)

/-- The number a digit stands for. -/
def digitVal (b : UInt8) : ℕ := b.toNat - 48

/-- The number a digit string stands for. -/
def decVal (ds : Bytes) : ℕ := ds.foldl (fun n b => 10 * n + digitVal b) 0

/-- The decimal digits of a number, as `std::to_string` writes them. -/
def dec (n : ℕ) : Bytes := (Nat.toDigits 10 n).map (fun c => UInt8.ofNat c.toNat)

theorem isDigit_of_mem_dec {n : ℕ} {b : UInt8} (h : b ∈ dec n) : isDigit b = true := by
  obtain ⟨c, hc, rfl⟩ := List.mem_map.mp h
  have hdigit := Nat.isDigit_of_mem_toDigits (by omega) (by omega) hc
  have hbounds : 48 ≤ c.toNat ∧ c.toNat < 58 := by
    rw [Char.isDigit, Bool.and_eq_true, decide_eq_true_eq, decide_eq_true_eq] at hdigit
    exact ⟨hdigit.1, Nat.lt_succ_of_le hdigit.2⟩
  have hall : ∀ n < 58, 48 ≤ n → isDigit (UInt8.ofNat n) = true := by decide
  exact hall c.toNat hbounds.2 hbounds.1

/-- The conversion `%-wd` of a string: padded with blanks on the right. -/
def padRight (w : ℕ) (s : Bytes) : Bytes := s ++ List.replicate (w - s.length) (ch ' ')

theorem length_padRight (w : ℕ) (s : Bytes) : (padRight w s).length = max w s.length := by
  rw [padRight, List.length_append, List.length_replicate]
  omega

/-! ## Fixed-width integers -/

/-- The `w` bytes of `n`, least significant first. -/
def leBytes : ℕ → ℕ → Bytes
  | 0, _ => []
  | w + 1, n => UInt8.ofNat n :: leBytes w (n / 256)

/-- The number a byte string stands for, least significant byte first. -/
def ofLE : Bytes → ℕ
  | [] => 0
  | b :: bs => b.toNat + 256 * ofLE bs

/-- The `w` bytes of `n`, most significant first. -/
def beBytes (w n : ℕ) : Bytes := (leBytes w n).reverse

/-- The number a byte string stands for, most significant byte first. -/
def ofBE (bs : Bytes) : ℕ := ofLE bs.reverse

@[simp] theorem length_leBytes (w n : ℕ) : (leBytes w n).length = w := by
  induction w generalizing n with
  | zero => rfl
  | succ w ih => simp [leBytes, ih]

@[simp] theorem length_beBytes (w n : ℕ) : (beBytes w n).length = w := by
  simp [beBytes]

/-- Reading back a little-endian integer: the value modulo what the width holds. -/
theorem ofLE_leBytes (w n : ℕ) : ofLE (leBytes w n) = n % 256 ^ w := by
  induction w generalizing n with
  | zero => simp [leBytes, ofLE, Nat.mod_one]
  | succ w ih =>
      have hb : (UInt8.ofNat n).toNat = n % 256 := by simp
      rw [leBytes, ofLE, ih, hb, Nat.pow_succ', Nat.mod_mul]

/-- Only what the width holds is written. -/
theorem leBytes_mod (w n : ℕ) : leBytes w (n % 256 ^ w) = leBytes w n := by
  induction w generalizing n with
  | zero => rfl
  | succ w ih =>
      have hb : UInt8.ofNat (n % (256 * 256 ^ w)) = UInt8.ofNat n := by
        apply UInt8.toNat_inj.mp
        simp only [UInt8.toNat_ofNat']
        exact Nat.mod_mul_right_mod n 256 (256 ^ w)
      rw [leBytes, leBytes, Nat.pow_succ', hb, Nat.mod_mul_right_div_self, ih]

/-- Reading back a big-endian integer. -/
theorem ofBE_beBytes (w n : ℕ) : ofBE (beBytes w n) = n % 256 ^ w := by
  rw [ofBE, beBytes, List.reverse_reverse, ofLE_leBytes]

/-! ## C strings -/

/-- The C string at the start of a buffer: what stands before the first NUL. -/
def cstr (s : Bytes) : Bytes := s.takeWhile (· ≠ 0)

theorem cstr_eq_self {s : Bytes} (h : 0 ∉ s) : cstr s = s := by
  rw [cstr, List.takeWhile_eq_self_iff]
  intro b hb
  simp only [decide_eq_true_eq]
  rintro rfl
  exact h hb

theorem cstr_append {s : Bytes} (h : 0 ∈ s) (t : Bytes) : cstr (s ++ t) = cstr s := by
  have hne : (s.takeWhile (· ≠ 0)).length ≠ s.length := by
    intro hlen
    have hall : s.takeWhile (· ≠ 0) = s :=
      (List.takeWhile_prefix _).eq_of_length hlen
    have hzero := List.takeWhile_eq_self_iff.mp hall 0 h
    simp at hzero
  rw [cstr, List.takeWhile_append, if_neg hne, cstr]

theorem cstr_append_zero (s t : Bytes) : cstr (s ++ 0 :: t) = cstr s := by
  induction s with
  | nil => rfl
  | cons b s ih =>
      rw [cstr, cstr] at ih
      rw [List.cons_append, cstr, cstr, List.takeWhile_cons, List.takeWhile_cons, ih]

/-- The C string in a buffer that is filled up with zeros is cut where the buffer is. -/
theorem cstr_take_zeros (s : Bytes) (n : ℕ) {k : ℕ} (hk : k ≠ 0) :
    cstr (s.take n ++ List.replicate k 0) = (cstr s).take n := by
  obtain ⟨k, rfl⟩ := Nat.exists_eq_succ_of_ne_zero hk
  rw [List.replicate_succ, cstr_append_zero, cstr, cstr, List.take_takeWhile]

/-! ## Scanning -/

/-- The conversion `%n[...]`: the longest prefix of at most `n` bytes in the class, which must
not be empty, and the rest of the input. -/
def scanSet (n : ℕ) (p : UInt8 → Bool) (s : Bytes) : Option (Bytes × Bytes) :=
  let t := (s.takeWhile p).take n
  if t = [] then none else some (t, s.drop t.length)

/-- A literal byte of a scan format. -/
def scanLit (c : UInt8) : Bytes → Option Bytes
  | [] => none
  | b :: s => if b = c then some s else none

/-- A blank of a scan format: skip white space. -/
def skipSpace (s : Bytes) : Bytes := s.dropWhile isSpace

/-- A field that fits its width is scanned exactly when what follows it is outside the class. -/
theorem scanSet_append {n : ℕ} {p : UInt8 → Bool} {t rest : Bytes}
    (hne : t ≠ []) (hlen : t.length ≤ n) (hp : ∀ b ∈ t, p b = true)
    (hrest : ∀ b ∈ rest.head?, p b = false) :
    scanSet n p (t ++ rest) = some (t, rest) := by
  have htail : rest.takeWhile p = [] := by
    cases rest with
    | nil => rfl
    | cons c rest =>
        rw [List.takeWhile_cons_of_neg]
        simpa using hrest c
  have htake : ((t ++ rest).takeWhile p).take n = t := by
    rw [List.takeWhile_append_of_pos hp, htail, List.append_nil, List.take_of_length_le hlen]
  simp only [scanSet, htake, if_neg hne, List.drop_left]

@[simp] theorem scanLit_cons (c : UInt8) (s : Bytes) : scanLit c (c :: s) = some s := by
  simp [scanLit]

/-- Nothing is skipped in front of a byte that is not white space. -/
theorem skipSpace_eq_self {s : Bytes} (h : ∀ b ∈ s.head?, isSpace b = false) :
    skipSpace s = s := by
  cases s with
  | nil => rfl
  | cons b s =>
      rw [skipSpace, List.dropWhile_cons_of_neg]
      simpa using h b

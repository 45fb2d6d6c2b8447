/-
# The check values of Lab 10

The two check values that the stations of the broadcast transfer put into what they send: the
internet checksum of the IP header, `cksum`, and the variant of Adler-32 over the payload that the
receivers test, `checksum`.  Its modulus is so large that its sums never wrap; they do not fit
their halves of the result either.

* `cksum` : the internet checksum of a buffer;
* `cksum_setWord`, `cksum_eq_zero_iff` : its sum, as a sum modulo `2 ^ 16 - 1`;
* `cksum_detects` : a stored checksum makes the checksum zero, and another word is noticed;
* `adler32_eq` : the check value of a payload, from two sums without a modulus;
* `single_byte_detected` : a packet with one other byte fails the test;
* `swap_detected_iff` : when a packet with two adjacent bytes exchanged fails it.

* source : `Lab/10/Broadcast-XDP-File-Transfer/src/utils.hpp`, `server.cpp`, `client.cpp`
-/
import IntroNP.BroadcastXdp
import IntroNP.OnesComplement
import IntroNP.Words
import Mathlib.Data.LawfulXor.Basic

namespace BroadcastXdp

/-! ## The internet checksum -/

/-- The two loops of `cksum` over the buffer: little-endian words, and a last byte. -/
def cksumLoop : ℕ → Bytes → ℕ
  | sum, a :: b :: s => cksumLoop (sum + ofLE [a, b]) s
  | sum, [a] => sum + a.toNat
  | sum, [] => sum

/-- `cksum`; the buffer is too short for the `long` to overflow. -/
def cksum (buf : Bytes) : UInt16 := ~~~ UInt16.ofNat (foldCarries 16 (cksumLoop 0 buf))

/-- The word at the offset `2 * i`. -/
def wordAt (buf : Bytes) (i : ℕ) : UInt16 := UInt16.ofNat (ofLE ((buf.drop (2 * i)).take 2))

/-- A word is stored at the offset `2 * i`. -/
def setWord (buf : Bytes) (i : ℕ) (w : UInt16) : Bytes :=
  buf.take (2 * i) ++ leBytes 2 w.toNat ++ buf.drop (2 * i + 2)

theorem cksumLoop_add (sum k : ℕ) (s : Bytes) : cksumLoop (sum + k) s = cksumLoop sum s + k := by
  fun_induction cksumLoop sum s with
  | case1 sum a b s ih => rw [cksumLoop, Nat.add_right_comm, ih]
  | case2 sum a => rw [cksumLoop, Nat.add_right_comm]
  | case3 sum => rw [cksumLoop]

theorem cksumLoop_append (sum i : ℕ) {s : Bytes} (hs : s.length = 2 * i) (t : Bytes) :
    cksumLoop sum (s ++ t) = cksumLoop (cksumLoop sum s) t := by
  induction i generalizing sum s with
  | zero =>
      rw [List.eq_nil_of_length_eq_zero hs]
      rfl
  | succ i ih =>
      match s with
      | [] => exact absurd hs (by simp)
      | [a] => exact absurd hs (by simp; omega)
      | a :: b :: s =>
          rw [List.length_cons, List.length_cons] at hs
          rw [List.cons_append, List.cons_append, cksumLoop, cksumLoop, ih _ (by omega)]

/-- The loop adds a word that stands between two parts. -/
theorem cksumLoop_word {i : ℕ} {s w : Bytes} (hs : s.length = 2 * i) (hw : w.length = 2)
    (t : Bytes) : cksumLoop 0 (s ++ w ++ t) = cksumLoop (cksumLoop 0 s) t + ofLE w := by
  obtain ⟨a, b, rfl⟩ := List.length_eq_two.mp hw
  rw [List.append_assoc, cksumLoop_append 0 i hs, List.cons_append, List.cons_append,
    List.nil_append, cksumLoop, cksumLoop_add]

theorem ofLE_take_two_lt (s : Bytes) : ofLE (s.take 2) < 2 ^ 16 := by
  have hlt := ofLE_lt (s.take 2)
  have hlen : (s.take 2).length ≤ 2 := List.length_take_le 2 s
  calc ofLE (s.take 2) < 256 ^ (s.take 2).length := hlt
    _ ≤ 256 ^ 2 := Nat.pow_le_pow_right (by omega) hlen
    _ = 2 ^ 16 := by norm_num

/-- A store changes the sum by the difference of the words. -/
theorem cksumLoop_setWord {buf : Bytes} {i : ℕ} (hi : 2 * i + 2 ≤ buf.length) (w : UInt16) :
    cksumLoop 0 (setWord buf i w) + (wordAt buf i).toNat = cksumLoop 0 buf + w.toNat := by
  have hprefix : (buf.take (2 * i)).length = 2 * i := List.length_take_of_le (by omega)
  have hmid : ((buf.drop (2 * i)).take 2).length = 2 := by
    rw [List.length_take, List.length_drop]
    omega
  have hsplit : buf = buf.take (2 * i) ++ (buf.drop (2 * i)).take 2 ++ buf.drop (2 * i + 2) := by
    rw [List.append_assoc, ← List.drop_drop, List.take_append_drop, List.take_append_drop]
  have hword : (wordAt buf i).toNat = ofLE ((buf.drop (2 * i)).take 2) := by
    rw [wordAt, UInt16.toNat_ofNat', Nat.mod_eq_of_lt (ofLE_take_two_lt _)]
  have hold := cksumLoop_word hprefix hmid (buf.drop (2 * i + 2))
  have hnew := cksumLoop_word hprefix (length_leBytes 2 w.toNat) (buf.drop (2 * i + 2))
  rw [← hsplit] at hold
  rw [ofLE_leBytes, Nat.mod_eq_of_lt (show w.toNat < 256 ^ 2 from w.toNat_lt)] at hnew
  rw [setWord, hnew, hold, hword]
  ring

theorem toNat_cksum (buf : Bytes) :
    (cksum buf).toNat = 2 ^ 16 - 1 - foldCarries 16 (cksumLoop 0 buf) := by
  rw [cksum, UInt16.toNat_not, UInt16.toNat_ofNat', Nat.mod_eq_of_lt (foldCarries_lt 16 _)]
  rfl

/-- The checksum is zero if the sum is a multiple of `2 ^ 16 - 1` other than zero. -/
theorem cksum_eq_zero_iff (buf : Bytes) :
    cksum buf = 0 ↔ cksumLoop 0 buf ≠ 0 ∧ cksumLoop 0 buf ≡ 0 [MOD 2 ^ 16 - 1] := by
  have hlt := foldCarries_lt 16 (cksumLoop 0 buf)
  rw [← foldCarries_eq_top, ← UInt16.toNat_inj, toNat_cksum, UInt16.toNat_zero]
  omega

/-- The checksum of a buffer with a word of zeros, stored in that word, makes the checksum zero.
From there, another value of any word makes it different from zero, unless the two values are the
two representations of zero. -/
theorem cksum_detects (buf : Bytes) (i : ℕ) (hi : 2 * i + 2 ≤ buf.length) :
    (wordAt buf i = 0 → cksum (setWord buf i (cksum buf)) = 0) ∧
    (cksum buf = 0 → ∀ w, w ≠ wordAt buf i → ¬ (wordAt buf i = 0 ∧ w = 0xFFFF) →
      ¬ (wordAt buf i = 0xFFFF ∧ w = 0) → cksum (setWord buf i w) ≠ 0) := by
  constructor
  · intro hzero
    have hsum := cksumLoop_setWord hi (cksum buf)
    rw [hzero, UInt16.toNat_zero, Nat.add_zero, toNat_cksum] at hsum
    have hlt := foldCarries_lt 16 (cksumLoop 0 buf)
    have hmod := foldCarries_modEq 16 (cksumLoop 0 buf)
    rw [cksum_eq_zero_iff, hsum]
    constructor
    · intro hnone
      have hfold := (foldCarries_eq_zero 16).mpr (Nat.eq_zero_of_add_eq_zero hnone).1
      omega
    · calc cksumLoop 0 buf + (2 ^ 16 - 1 - foldCarries 16 (cksumLoop 0 buf))
          ≡ foldCarries 16 (cksumLoop 0 buf)
              + (2 ^ 16 - 1 - foldCarries 16 (cksumLoop 0 buf)) [MOD 2 ^ 16 - 1] :=
            hmod.symm.add_right _
        _ = 2 ^ 16 - 1 := by omega
        _ ≡ 0 [MOD 2 ^ 16 - 1] := by rw [Nat.modEq_zero_iff_dvd]
  · intro hverified w hne hfirst hsecond hzero
    have hsum := cksumLoop_setWord hi w
    obtain ⟨-, hold⟩ := (cksum_eq_zero_iff buf).mp hverified
    obtain ⟨-, hnew⟩ := (cksum_eq_zero_iff _).mp hzero
    -- the two words have the same residue
    have hwords : (wordAt buf i).toNat ≡ w.toNat [MOD 2 ^ 16 - 1] := by
      apply Nat.ModEq.add_left_cancel hnew
      rw [hsum]
      exact hold.add_right _
    have hlt := (wordAt buf i).toNat_lt
    have hlt' := w.toNat_lt
    have hne' : w.toNat ≠ (wordAt buf i).toNat := fun heq => hne (UInt16.toNat_inj.mp heq)
    have hcases : ((wordAt buf i).toNat = 0 ∧ w.toNat = 0xFFFF) ∨
        ((wordAt buf i).toNat = 0xFFFF ∧ w.toNat = 0) := by
      have hmod : (wordAt buf i).toNat % 65535 = w.toNat % 65535 := hwords
      omega
    rcases hcases with ⟨h₀, h₁⟩ | ⟨h₁, h₀⟩
    · exact hfirst ⟨UInt16.toNat_inj.mp h₀, UInt16.toNat_inj.mp h₁⟩
    · exact hsecond ⟨UInt16.toNat_inj.mp h₁, UInt16.toNat_inj.mp h₀⟩

/-- A header of two words. -/
theorem cksum_detects_two :
    (cksum (setWord [1, 2, 0, 0] 1 (cksum [1, 2, 0, 0])) = 0) ∧
    cksum (setWord (setWord [1, 2, 0, 0] 1 (cksum [1, 2, 0, 0])) 0 7) ≠ 0 := by
  have hstored := (cksum_detects [1, 2, 0, 0] 1 (by decide)).1 (by decide)
  refine ⟨hstored, ?_⟩
  have hword : wordAt (setWord [1, 2, 0, 0] 1 (cksum [1, 2, 0, 0])) 0 = 513 := by
    rw [setWord]
    rfl
  apply (cksum_detects _ 0 (by simp [setWord])).2 hstored
  · rw [hword]
    decide
  · rw [hword]
    decide
  · rw [hword]
    decide

/-! ## The check value of a packet -/

/-- The sum of the bytes. -/
def total (d : Bytes) : ℕ := (d.map UInt8.toNat).sum

/-- The sum of the bytes, each as often as there are bytes from it to the end. -/
def weighted : Bytes → ℕ
  | [] => 0
  | x :: d => (d.length + 1) * x.toNat + weighted d

@[simp] theorem total_cons (x : UInt8) (d : Bytes) : total (x :: d) = x.toNat + total d := rfl

theorem total_append (d e : Bytes) : total (d ++ e) = total d + total e := by
  rw [total, List.map_append, List.sum_append, total, total]

theorem weighted_append (d e : Bytes) :
    weighted (d ++ e) = weighted d + e.length * total d + weighted e := by
  induction d with
  | nil =>
      rw [List.nil_append, weighted, total, List.map_nil, List.sum_nil]
      ring
  | cons x d ih =>
      rw [List.cons_append, weighted, weighted, ih, List.length_append, total_cons]
      ring

theorem total_le (d : Bytes) : total d ≤ 255 * d.length := by
  induction d with
  | nil => exact Nat.zero_le _
  | cons x d ih =>
      have hx := x.toNat_lt
      rw [total_cons, List.length_cons]
      omega

theorem weighted_le (d : Bytes) : weighted d ≤ 255 * d.length ^ 2 := by
  induction d with
  | nil => exact Nat.zero_le _
  | cons x d ih =>
      have hx : x.toNat ≤ 255 := Nat.le_of_lt_succ x.toNat_lt
      have hmul := Nat.mul_le_mul_left (d.length + 1) hx
      calc weighted (x :: d) = (d.length + 1) * x.toNat + weighted d := rfl
        _ ≤ (d.length + 1) * 255 + 255 * d.length ^ 2 := Nat.add_le_add hmul ih
        _ ≤ (d.length + 1) * 255 + 255 * d.length ^ 2 + 255 * d.length := Nat.le_add_right _ _
        _ = 255 * (d.length + 1) ^ 2 := by ring

/-- The loop of `adler32` from any values of its variables that are below the modulus. -/
theorem adler_foldl (d : Bytes) {a b : ℕ} (ha : a < modAdler) (hb : b < modAdler) :
    d.foldl (fun r x =>
        ((r.1 + x.toNat) % modAdler, (r.2 + (r.1 + x.toNat) % modAdler) % modAdler)) (a, b)
      = ((a + total d) % modAdler, (b + d.length * a + weighted d) % modAdler) := by
  have hpos : 0 < modAdler := by decide
  induction d generalizing a b with
  | nil =>
      simp only [List.foldl_nil, total, List.map_nil, List.sum_nil, weighted, List.length_nil,
        Nat.zero_mul, Nat.add_zero, Nat.mod_eq_of_lt ha, Nat.mod_eq_of_lt hb]
  | cons x d ih =>
      rw [List.foldl_cons, ih (Nat.mod_lt _ hpos) (Nat.mod_lt _ hpos), total_cons, weighted,
        List.length_cons, Prod.mk.injEq]
      constructor
      · rw [Nat.mod_add_mod, Nat.add_assoc]
      · apply (show _ ≡ _ [MOD modAdler] from ?_)
        have hax : (a + x.toNat) % modAdler ≡ a + x.toNat [MOD modAdler] := Nat.mod_modEq _ _
        have hbx : (b + (a + x.toNat) % modAdler) % modAdler ≡ b + (a + x.toNat) [MOD modAdler] :=
          (Nat.mod_modEq _ _).trans (hax.add_left b)
        calc (b + (a + x.toNat) % modAdler) % modAdler + d.length * ((a + x.toNat) % modAdler)
              + weighted d
            ≡ b + (a + x.toNat) + d.length * (a + x.toNat) + weighted d [MOD modAdler] :=
              (hbx.add (hax.mul_left _)).add_right _
          _ = b + (d.length + 1) * a + ((d.length + 1) * x.toNat + weighted d) := by ring

/-- The check value of a payload: neither of the two sums reaches the modulus. -/
theorem adler32_eq {d : Bytes} (h : d.length = dataSize) :
    adler32 d = (dataSize + weighted d) <<< 16 % 2 ^ 32 ||| (1 + total d) := by
  have htotal := total_le d
  have hweighted := weighted_le d
  rw [h] at htotal hweighted
  have hsize : dataSize = 1464 := rfl
  have hmod : modAdler = 1000000007 := rfl
  have hsum : (1 + total d) % modAdler = 1 + total d := by
    apply Nat.mod_eq_of_lt
    rw [hmod]
    omega
  have hweight : (0 + dataSize * 1 + weighted d) % modAdler = dataSize + weighted d := by
    rw [Nat.zero_add, Nat.mul_one]
    apply Nat.mod_eq_of_lt
    rw [hmod, hsize]
    rw [hsize] at hweighted
    omega
  rw [adler32, adler_foldl d (by decide) (by decide), h]
  dsimp only
  rw [hsum, hweight]

/-- The lower half of the check value. -/
theorem adler32_mod {d : Bytes} (h : d.length = dataSize) :
    adler32 d % 2 ^ 16 = (1 + total d) % 2 ^ 16 := by
  have hhigh : (dataSize + weighted d) <<< 16 % 2 ^ 32 % 2 ^ 16 = 0 := by
    rw [Nat.mod_mod_of_dvd _ (by decide), Nat.shiftLeft_eq, Nat.mul_mod_left]
  rw [adler32_eq h, Nat.or_mod_two_pow, hhigh, Nat.zero_or]

/-! ## One other byte -/

/-- The bytes of a packet behind the IP header: the sequence number, the check value and the
payload. -/
abbrev Wire := {w : Bytes // w.length = 4 + 4 + dataSize}

/-- A packet as it is received. -/
def Wire.pkt (w : Wire) : Pkt :=
  ⟨ofLE (w.1.take 4), ofLE ((w.1.drop 4).take 4), w.1.drop 8, by
    rw [List.length_drop, w.2]
    omega⟩

/-- The test of the receivers. -/
def Pkt.Verified (p : Pkt) : Prop := BroadcastXdp.checksum p = p.checksum

instance (p : Pkt) : Decidable p.Verified := inferInstanceAs (Decidable (_ = _))

/-- Another value of one byte. -/
def Wire.set (w : Wire) (i : ℕ) (x : UInt8) : Wire :=
  ⟨w.1.set i x, by rw [List.length_set, w.2]⟩

theorem verified_iff (p : Pkt) : p.Verified ↔ adler32 p.data.1 ^^^ p.sessSeq = p.checksum := by
  rw [Pkt.Verified, checksum]

/-- A number depends on each of its bytes. -/
theorem ofLE_set_ne {s : Bytes} {i : ℕ} {x : UInt8} (hi : i < s.length) (hx : s[i]? ≠ some x) :
    ofLE (s.set i x) ≠ ofLE s := by
  intro heq
  have hback := congrArg (leBytes s.length) heq
  rw [leBytes_ofLE] at hback
  have hlen : (s.set i x).length = s.length := List.length_set
  rw [← hlen, leBytes_ofLE] at hback
  rw [← hback, List.getElem?_set_self hi] at hx
  exact hx rfl

theorem total_set {d : Bytes} {i : ℕ} (hi : i < d.length) (x : UInt8) :
    total (d.set i x) + d[i].toNat = total d + x.toNat := by
  have hsplit : d = d.take i ++ d[i] :: d.drop (i + 1) := by
    rw [List.getElem_cons_drop, List.take_append_drop]
  have hset : d.set i x = d.take i ++ x :: d.drop (i + 1) := by
    rw [List.set_eq_take_append_cons_drop, if_pos hi]
  have htotal := congrArg total hsplit
  rw [total_append, total_cons] at htotal
  rw [hset, total_append, total_cons, htotal]
  omega

/-- Another value of one byte changes the lower half of the check value. -/
theorem adler32_set_ne {d : Bytes} (h : d.length = dataSize) {i : ℕ} (hi : i < d.length)
    {x : UInt8} (hx : d[i]? ≠ some x) : adler32 (d.set i x) ≠ adler32 d := by
  intro heq
  have hmod := congrArg (· % 2 ^ 16) heq
  simp only [adler32_mod h, adler32_mod (show (d.set i x).length = dataSize by
    rw [List.length_set, h])] at hmod
  have htotal := total_set hi x
  have hne : d[i].toNat ≠ x.toNat := by
    intro hbyte
    rw [List.getElem?_eq_getElem hi, UInt8.toNat_inj.mp hbyte] at hx
    exact hx rfl
  have hlt := d[i].toNat_lt
  have hlt' := x.toNat_lt
  omega

/-- A packet that passes the test fails it with another value of one byte of the sequence number,
the check value or the payload. -/
theorem single_byte_detected (w : Wire) (i : ℕ) (hi : i < 4 + 4 + dataSize) (x : UInt8)
    (hx : w.1[i]? ≠ some x) (h : w.pkt.Verified) : ¬ (w.set i x).pkt.Verified := by
  rw [verified_iff] at h ⊢
  have hlen := w.2
  by_cases hseq : i < 4
  · -- the sequence number
    have hnew : (w.set i x).pkt.sessSeq = ofLE ((w.1.take 4).set i x) :=
      congrArg ofLE List.take_set
    have hsum : (w.set i x).pkt.checksum = w.pkt.checksum := by
      show ofLE (((w.1.set i x).drop 4).take 4) = ofLE ((w.1.drop 4).take 4)
      rw [List.drop_set_of_lt hseq]
    have hdata : (w.set i x).pkt.data.1 = w.pkt.data.1 :=
      List.drop_set_of_lt (by omega)
    rw [hnew, hsum, hdata, ← h]
    intro heq
    refine ofLE_set_ne (s := w.1.take 4) ?_ ?_ ((xor_right_involutive _).injective heq)
    · rw [List.length_take]
      omega
    · rw [List.getElem?_take_of_lt hseq]
      exact hx
  · by_cases hsum : i < 8
    · -- the check value
      have hold : (w.set i x).pkt.sessSeq = w.pkt.sessSeq :=
        congrArg ofLE (List.take_set_of_le (by omega))
      have hnew : (w.set i x).pkt.checksum = ofLE (((w.1.drop 4).take 4).set (i - 4) x) := by
        show ofLE (((w.1.set i x).drop 4).take 4) = _
        rw [List.drop_set, if_neg hseq, List.take_set]
      have hdata : (w.set i x).pkt.data.1 = w.pkt.data.1 := List.drop_set_of_lt hsum
      rw [hold, hnew, hdata, h]
      intro heq
      refine ofLE_set_ne ?_ ?_ heq.symm
      · rw [List.length_take, List.length_drop]
        omega
      · rw [List.getElem?_take_of_lt (by omega), List.getElem?_drop,
          show 4 + (i - 4) = i by omega]
        exact hx
    · -- the payload
      have hold : (w.set i x).pkt.sessSeq = w.pkt.sessSeq :=
        congrArg ofLE (List.take_set_of_le (by omega))
      have hsame : (w.set i x).pkt.checksum = w.pkt.checksum := by
        show ofLE (((w.1.set i x).drop 4).take 4) = ofLE ((w.1.drop 4).take 4)
        rw [List.drop_set, if_neg hseq, List.take_set_of_le (by omega)]
      have hnew : (w.set i x).pkt.data.1 = (w.1.drop 8).set (i - 8) x := by
        show (w.1.set i x).drop 8 = _
        rw [List.drop_set, if_neg hsum]
      rw [hold, hsame, hnew, ← h]
      intro heq
      refine adler32_set_ne w.pkt.data.2 ?_ ?_ ((xor_left_involutive _).injective heq)
      · show i - 8 < (w.1.drop 8).length
        rw [List.length_drop]
        omega
      · show (w.1.drop 8)[i - 8]? ≠ some x
        rw [List.getElem?_drop, show 8 + (i - 8) = i by omega]
        exact hx

/-- A packet of zeros. -/
def Wire.zero : Wire :=
  ⟨leBytes 4 0 ++ leBytes 4 (adler32 Payload.zero.1) ++ Payload.zero.1, by
    rw [List.length_append, List.length_append, length_leBytes, length_leBytes, Payload.zero.2]⟩

theorem single_byte_detected_zero :
    Wire.zero.pkt.Verified ∧ ¬ (Wire.zero.set 100 7).pkt.Verified := by
  have h : Wire.zero.pkt.Verified := by decide +kernel
  exact ⟨h, single_byte_detected Wire.zero 100 (by decide) 7 (by decide +kernel) h⟩

/-! ## Two bytes exchanged -/

/-- A bit of the weighted sum tells the two orders apart and is not covered by the other sum. -/
def SwapSeen (d : Bytes) (x y : UInt8) : Prop :=
  ∃ i < 16, (dataSize + weighted d).testBit i ≠ (dataSize + weighted d + y.toNat - x.toNat).testBit i
    ∧ (1 + total d).testBit (16 + i) = false

/-- What is left of the upper sum when the lower one is laid over it. -/
theorem shift_or_ne_iff (a b b' : ℕ) :
    b <<< 16 % 2 ^ 32 ||| a ≠ b' <<< 16 % 2 ^ 32 ||| a ↔
      ∃ i < 16, b.testBit i ≠ b'.testBit i ∧ a.testBit (16 + i) = false := by
  have hbit : ∀ c i : ℕ, (c <<< 16 % 2 ^ 32 ||| a).testBit i =
      ((decide (i < 32) && (decide (16 ≤ i) && c.testBit (i - 16))) || a.testBit i) := by
    intro c i
    rw [Nat.testBit_or, Nat.testBit_mod_two_pow, Nat.testBit_shiftLeft]
  constructor
  · intro hne
    obtain ⟨i, hi⟩ := Nat.exists_testBit_ne_of_ne hne
    rw [hbit, hbit] at hi
    by_cases hin : 16 ≤ i ∧ i < 32
    · refine ⟨i - 16, by omega, ?_, ?_⟩
      · intro heq
        rw [heq] at hi
        exact hi rfl
      · rw [show 16 + (i - 16) = i by omega]
        cases ha : a.testBit i with
        | false => rfl
        | true =>
            rw [ha, Bool.or_true, Bool.or_true] at hi
            exact absurd rfl hi
    · have hout : ∀ c : ℕ, (decide (i < 32) && (decide (16 ≤ i) && c.testBit (i - 16))) = false := by
        intro c
        by_cases hlow : 16 ≤ i
        · have hhigh : ¬ i < 32 := fun h => hin ⟨hlow, h⟩
          simp [hhigh]
        · simp [hlow]
      rw [hout, hout] at hi
      exact absurd rfl hi
  · rintro ⟨i, hi, hne, ha⟩ heq
    have hbits := congrArg (fun n => n.testBit (16 + i)) heq
    simp only [hbit, ha, Bool.or_false, show 16 + i - 16 = i by omega,
      show 16 + i < 32 by omega, show 16 ≤ 16 + i by omega, decide_true, Bool.true_and] at hbits
    exact hne hbits

/-- The exchange of two bytes changes the weighted sum by their difference. -/
theorem weighted_swap (u v : Bytes) (x y : UInt8) :
    weighted (u ++ y :: x :: v) + x.toNat = weighted (u ++ x :: y :: v) + y.toNat := by
  simp only [weighted_append, weighted, List.length_cons]
  ring

theorem total_swap (u v : Bytes) (x y : UInt8) :
    total (u ++ y :: x :: v) = total (u ++ x :: y :: v) := by
  simp only [total_append, total_cons]
  ring

/-- A packet that passes the test fails it with two adjacent bytes exchanged, if and only if the
weighted sums of the two payloads differ in a bit that the other sum leaves open. -/
theorem swap_detected_iff (p : Pkt) (u v : Bytes) (x y : UInt8)
    (hdata : p.data.1 = u ++ x :: y :: v) (h : p.Verified) (d : Payload)
    (hd : d.1 = u ++ y :: x :: v) :
    ¬ Pkt.Verified { p with data := d } ↔ SwapSeen p.data.1 x y := by
  have htotal : total d.1 = total p.data.1 := by rw [hd, hdata, total_swap]
  have hweighted : dataSize + weighted d.1 = dataSize + weighted p.data.1 + y.toNat - x.toNat := by
    have hswap := weighted_swap u v x y
    rw [hd, hdata]
    omega
  have htest : Pkt.Verified { p with data := d } ↔ adler32 p.data.1 = adler32 d.1 := by
    rw [verified_iff, ← (verified_iff p).mp h]
    constructor
    · exact fun heq => ((xor_left_involutive p.sessSeq).injective heq).symm
    · intro heq
      rw [heq]
  rw [htest, adler32_eq p.data.2, adler32_eq d.2, htotal, hweighted]
  exact shift_or_ne_iff _ _ _

/-- A payload whose bytes add up to more than its half holds. -/
def brightBytes (x y : UInt8) : Bytes :=
  x :: y :: 0 :: (List.replicate 257 255 ++ List.replicate 1204 0)

def bright (x y : UInt8) : Payload := ⟨brightBytes x y, by
  simp only [brightBytes, List.length_cons, List.length_append, List.length_replicate]
  rfl⟩

/-- It does not show when its first two bytes are exchanged. -/
theorem swap_missed : (send ⟨7, 0, bright 0 1⟩).Verified ∧
    Pkt.Verified { send ⟨7, 0, bright 0 1⟩ with data := bright 1 0 } := by
  decide +kernel

theorem swap_detected_bright :
    ¬ Pkt.Verified { send ⟨7, 0, bright 0 2⟩ with data := bright 2 0 } ↔
      SwapSeen (bright 0 2).1 0 2 :=
  swap_detected_iff (send ⟨7, 0, bright 0 2⟩) [] _ 0 2 rfl (by decide +kernel) (bright 2 0) rfl

/-- Different bytes are told apart as long as the sum of the payload fits its half. -/
theorem swapSeen_of_total_lt {d : Bytes} {x y : UInt8} (htotal : 1 + total d < 2 ^ 16)
    (hx : x.toNat ≤ dataSize + weighted d) (hne : x ≠ y) : SwapSeen d x y := by
  have hopen : ∀ i, (1 + total d).testBit (16 + i) = false := by
    intro i
    apply Nat.testBit_lt_two_pow
    exact htotal.trans_le (Nat.pow_le_pow_right (by omega) (by omega))
  have hbytes : x.toNat ≠ y.toNat := fun heq => hne (UInt8.toNat_inj.mp heq)
  have hlt := x.toNat_lt
  have hlt' := y.toNat_lt
  have hmod : (dataSize + weighted d) % 2 ^ 16
      ≠ (dataSize + weighted d + y.toNat - x.toNat) % 2 ^ 16 := by omega
  obtain ⟨i, hi⟩ := Nat.exists_testBit_ne_of_ne hmod
  rw [Nat.testBit_mod_two_pow, Nat.testBit_mod_two_pow] at hi
  by_cases hlow : i < 16
  · simp only [hlow, decide_true, Bool.true_and] at hi
    exact ⟨i, hlow, hi, hopen i⟩
  · simp [hlow] at hi

end BroadcastXdp

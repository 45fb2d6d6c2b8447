/-
# The xor of the words of a byte string

A byte string is read as little-endian words of `D` bytes, the last one filled up with zeros.
Their xor does not depend on whether it is taken over words or byte by byte.

* `ofLE_append_zeros`, `foldl_ofBE` : numbers as programs read them;
* `ofLE_xorBytes` : the number of a bytewise xor;
* `word`, `xorSegments` : the words and their xor;
* `xorSegments_eq` : the xor of the whole words, and of what is left over;
* `xorBytes_zero`, `xorBytes_pad_succ` : a bytewise xor, with one byte more at a time.

Nothing here mentions a program of the repository.
-/
import IntroNP.Chunks
import Mathlib.Data.List.Induction
import Mathlib.Data.Nat.Bitwise

/-- The bytewise xor of two byte strings. -/
def xorBytes (a b : Bytes) : Bytes := List.zipWith (· ^^^ ·) a b

/-- Word `i` of a byte string. -/
def word (D : ℕ) (s : Bytes) (i : ℕ) : ℕ := ofLE (pad D (chunk D s i))

/-- The xor of all words of a byte string. -/
def xorSegments (D : ℕ) (s : Bytes) : ℕ :=
  (chunkIndices D s.length).foldl (fun x i => x ^^^ word D s i) 0

/-! ## Numbers -/

theorem ofLE_lt (s : Bytes) : ofLE s < 256 ^ s.length := by
  induction s with
  | nil => simp [ofLE]
  | cons b s ih =>
      have hb := b.toNat_lt
      rw [ofLE, List.length_cons, Nat.pow_succ]
      omega

/-- The bytes of a number that has been read. -/
theorem leBytes_ofLE (s : Bytes) : leBytes s.length (ofLE s) = s := by
  induction s with
  | nil => rfl
  | cons b s ih =>
      have hb := b.toNat_lt
      have hlow : UInt8.ofNat (b.toNat + 256 * ofLE s) = b := by
        apply UInt8.toNat_inj.mp
        rw [UInt8.toNat_ofNat']
        omega
      have hhigh : (b.toNat + 256 * ofLE s) / 256 = ofLE s := by omega
      rw [List.length_cons, ofLE, leBytes, hlow, hhigh, ih]

/-- The xor of two numbers, by their lowest bytes. -/
theorem xor_byte {a b x y : ℕ} (ha : a < 256) (hb : b < 256) :
    (a + 256 * x) ^^^ (b + 256 * y) = (a ^^^ b) + 256 * (x ^^^ y) := by
  have hmod : ((a + 256 * x) ^^^ (b + 256 * y)) % 2 ^ 8 = a ^^^ b := by
    rw [Nat.xor_mod_two_pow, show (a + 256 * x) % 2 ^ 8 = a by omega,
      show (b + 256 * y) % 2 ^ 8 = b by omega]
  have hdiv : ((a + 256 * x) ^^^ (b + 256 * y)) / 2 ^ 8 = x ^^^ y := by
    rw [Nat.xor_div_two_pow, show (a + 256 * x) / 2 ^ 8 = x by omega,
      show (b + 256 * y) / 2 ^ 8 = y by omega]
  omega

/-- The number of a bytewise xor is the xor of the numbers. -/
theorem ofLE_xorBytes {a b : Bytes} (h : a.length = b.length) :
    ofLE (xorBytes a b) = ofLE a ^^^ ofLE b := by
  induction a generalizing b with
  | nil =>
      cases b with
      | nil => rfl
      | cons c b => simp at h
  | cons c a ih =>
      cases b with
      | nil => simp at h
      | cons d b =>
          have htail : ofLE (xorBytes a b) = ofLE a ^^^ ofLE b :=
            ih (by simpa using h)
          rw [ofLE, ofLE, xor_byte c.toNat_lt d.toNat_lt, ← htail, ← UInt8.toNat_xor]
          rfl

/-- A string of zeros has the number zero. -/
theorem ofLE_replicate_zero (n : ℕ) : ofLE (List.replicate n 0) = 0 := by
  induction n with
  | zero => rfl
  | succ n ih =>
      rw [List.replicate_succ, ofLE, ih]
      rfl

/-- A number is the same with zeros behind its most significant byte. -/
theorem ofLE_append_zeros (s : Bytes) (n : ℕ) : ofLE (s ++ List.replicate n 0) = ofLE s := by
  induction s with
  | nil => exact ofLE_replicate_zero n
  | cons b s ih => rw [List.cons_append, ofLE, ih, ofLE]

theorem ofBE_lt (s : Bytes) : ofBE s < 256 ^ s.length := by
  rw [ofBE, ← List.length_reverse]
  exact ofLE_lt _

/-- A big-endian number, read digit after digit in an unsigned type. -/
theorem foldl_ofBE (M : ℕ) (s : Bytes) :
    s.foldl (fun r b => (r * 0x100 + b.toNat) % M) 0 = ofBE s % M := by
  induction s using List.reverseRec with
  | nil => exact (Nat.zero_mod M).symm
  | append_singleton s b ih =>
      have hlast : ofBE (s ++ [b]) = ofBE s * 256 + b.toNat := by
        rw [ofBE, List.reverse_append, List.reverse_singleton, List.singleton_append, ofLE, ← ofBE]
        ring
      rw [List.foldl_append, List.foldl_cons, List.foldl_nil, ih, hlast, Nat.add_mod,
        Nat.mod_mul_mod, ← Nat.add_mod]

/-! ## Words -/

/-- A word that stands wholly in the string. -/
theorem word_eq {D : ℕ} {s : Bytes} {i : ℕ} (h : (i + 1) * D ≤ s.length) :
    word D s i = ofLE ((s.drop (i * D)).take D) := by
  rw [Nat.succ_mul] at h
  have hlen : (chunk D s i).length = D := by
    rw [chunk, List.length_take, List.length_drop]
    omega
  rw [word, pad, hlen, Nat.sub_self, List.replicate_zero, List.append_nil, chunk]

/-- The xor of the whole words, and of one that has the bytes that are left over. -/
theorem xorSegments_eq {D : ℕ} (hD : 0 < D) (s : Bytes) :
    xorSegments D s = (List.range (s.length / D)).foldl (fun x i => x ^^^ word D s i) 0
      ^^^ ofLE (pad D (s.drop (s.length / D * D))) := by
  have hdiv := Nat.div_add_mod s.length D
  have hmod := Nat.mod_lt s.length hD
  rw [Nat.mul_comm] at hdiv
  have hchunk : chunk D s (s.length / D) = s.drop (s.length / D * D) := by
    rw [chunk, List.take_of_length_le]
    rw [List.length_drop]
    omega
  rw [xorSegments, chunkIndices_eq hD]
  by_cases hrest : s.length % D = 0
  · -- nothing is left over
    have hnum : numChunks D s.length = s.length / D := by
      have hdvd := (numChunks_mul_eq_iff hD s.length).mpr (Nat.dvd_of_mod_eq_zero hrest)
      have hmul : numChunks D s.length * D = s.length / D * D := by omega
      exact Nat.eq_of_mul_eq_mul_right hD hmul
    have hnil : s.drop (s.length / D * D) = [] := by
      rw [List.drop_eq_nil_iff]
      omega
    rw [hnum, hnil, pad, List.nil_append, ofLE_replicate_zero, Nat.xor_zero]
  · have hnum : numChunks D s.length = s.length / D + 1 := by
      have hlow := lt_numChunks_iff hD s.length (s.length / D)
      have hhigh := lt_numChunks_iff hD s.length (s.length / D + 1)
      rw [Nat.succ_mul] at hhigh
      omega
    rw [hnum, List.range_succ, List.foldl_append, List.foldl_cons, List.foldl_nil, word, hchunk]

/-! ## Bytes -/

/-- A bytewise xor with one byte more. -/
theorem xorBytes_pad_succ {D : ℕ} {v t : Bytes} {k : ℕ} {b : UInt8} (hv : v.length = D)
    (hk : k < D) (hb : t[k]? = some b) :
    xorBytes v (pad D (t.take (k + 1)))
      = (xorBytes v (pad D (t.take k))).modify k fun c => c ^^^ b := by
  obtain ⟨hlt, -⟩ := List.getElem?_eq_some_iff.mp hb
  have hpad : ∀ n ≤ t.length, ∀ i, (pad D (t.take n))[i]?
      = if i < n then t[i]? else if i < D then some 0 else none := by
    intro n hn i
    rw [getElem?_pad, List.length_take, Nat.min_eq_left hn, List.getElem?_take]
    by_cases hi : i < n <;> simp [hi]
  apply List.ext_getElem?
  intro i
  rw [List.getElem?_modify, xorBytes, xorBytes, List.getElem?_zipWith, List.getElem?_zipWith,
    hpad _ (by omega), hpad _ (by omega)]
  by_cases hik : k = i
  · subst hik
    rw [if_pos (by omega), if_neg (lt_irrefl _), if_pos hk, hb, List.getElem?_eq_getElem (by omega)]
    simp
  · by_cases hlow : i < k
    · rw [if_pos (by omega), if_pos hlow]
      simp [hik]
    · rw [if_neg (by omega), if_neg hlow]
      simp [hik]

/-- A bytewise xor with zeros. -/
theorem xorBytes_zero (v : Bytes) : xorBytes v (pad v.length []) = v := by
  apply List.ext_getElem?
  intro i
  rw [xorBytes, List.getElem?_zipWith, getElem?_pad]
  by_cases hi : i < v.length
  · simp [hi]
  · simp [hi]

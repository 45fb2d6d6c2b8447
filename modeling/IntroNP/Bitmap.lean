/-
# Bit maps in byte arrays

A `std::bitset` laid over a byte array, as a receiver keeps the set of packets it has seen in
the payload of the acknowledgement it sends.  On the little-endian machines the programs run
on, bit `k` is bit `k % 8` of byte `k / 8`.

* `getBit_setBit` : what a set bit changes, and that it changes nothing else;
* `BitSub` : the order on bit maps, along which a receiver's bit map only grows.
-/
import IntroNP.Bytes

/-- Bit `k` of the byte array. -/
def getBit (d : Bytes) (k : ℕ) : Bool := (d.getD (k / 8) 0).toNat.testBit (k % 8)

/-- The byte array with bit `k` set. -/
def setBit (d : Bytes) (k : ℕ) : Bytes :=
  d.set (k / 8) (UInt8.ofNat ((d.getD (k / 8) 0).toNat ||| 2 ^ (k % 8)))

/-- The number of bits that are set, of those the array has room for. -/
def bitCount (d : Bytes) : ℕ := (List.range (8 * d.length)).countP (getBit d)

@[simp] theorem length_setBit (d : Bytes) (k : ℕ) : (setBit d k).length = d.length := by
  simp [setBit]

/-- An array of zero bytes has no bit set. -/
@[simp] theorem getBit_replicate_zero (n k : ℕ) : getBit (List.replicate n 0) k = false := by
  simp only [getBit, List.getD_eq_getElem?_getD, List.getElem?_replicate]
  split <;> simp

/-- Setting a bit of a byte keeps it a byte. -/
theorem lor_two_pow_lt (b : UInt8) {i : ℕ} (hi : i < 8) : b.toNat ||| 2 ^ i < 256 := by
  have hpow : 2 ^ i < 2 ^ 8 := Nat.pow_lt_pow_right (by omega) hi
  exact Nat.or_lt_two_pow (n := 8) b.toNat_lt hpow

/-- Setting bit `k` sets bit `k` and leaves every other bit alone. -/
theorem getBit_setBit {d : Bytes} {k : ℕ} (hk : k < 8 * d.length) (j : ℕ) :
    getBit (setBit d k) j = (decide (j = k) || getBit d j) := by
  have hbyte : k / 8 < d.length := by omega
  have hlt := lor_two_pow_lt (d.getD (k / 8) 0) (Nat.mod_lt k (by omega : 0 < 8))
  simp only [getBit, setBit, List.getD_eq_getElem?_getD, List.getElem?_set] at hlt ⊢
  by_cases hjk : j / 8 = k / 8
  · have hiff : j = k ↔ j % 8 = k % 8 := by omega
    rw [hjk, if_pos rfl, if_pos hbyte, Option.getD_some, UInt8.toNat_ofNat',
      Nat.mod_eq_of_lt hlt, Nat.testBit_or, Nat.testBit_two_pow, Bool.or_comm]
    simp only [hiff, eq_comm]
  · have hne : j ≠ k := by
      rintro rfl
      exact hjk rfl
    rw [if_neg (Ne.symm hjk), decide_eq_false hne, Bool.false_or]

/-! ## The order on bit maps -/

/-- Every bit set in the first array is set in the second. -/
def BitSub (d e : Bytes) : Prop := ∀ k, getBit d k = true → getBit e k = true

theorem BitSub.refl (d : Bytes) : BitSub d d := fun _ h => h

theorem BitSub.trans {d e f : Bytes} (hde : BitSub d e) (hef : BitSub e f) : BitSub d f :=
  fun k h => hef k (hde k h)

/-- Setting a bit of the map only adds to it. -/
theorem bitSub_setBit {d : Bytes} {k : ℕ} (hk : k < 8 * d.length) : BitSub d (setBit d k) := by
  intro j hj
  rw [getBit_setBit hk, hj, Bool.or_true]

/-
# Bytes as digits of six bits

Three bytes are four digits of six bits.  A text of bytes whose length is no multiple of three ends
in a digit whose low bits are zero, and the bytes are found again in the digits.

* `sextets` : the digits of a byte string;
* `octets` : the whole bytes of a list of digits;
* `octets_sextets` : the bytes are read back;
* `Canonical`, `sextets_octets` : the lists that are the digits of their bytes;
* `octets_append` : bytes are read from the left, four digits at a time;
* `carry`, `octets_concat` : what one more digit adds, from the bits that are left over.

Nothing here mentions a program of the repository.
-/
import IntroNP.Bytes

/-! ## Digits of bytes -/

/-- The digits of a byte string. -/
def sextets : Bytes → List ℕ
  | [] => []
  | [a] => [a.toNat / 4, a.toNat % 4 * 16]
  | [a, b] => [a.toNat / 4, a.toNat % 4 * 16 + b.toNat / 16, b.toNat % 16 * 4]
  | a :: b :: c :: s =>
      a.toNat / 4 :: (a.toNat % 4 * 16 + b.toNat / 16) :: (b.toNat % 16 * 4 + c.toNat / 64) ::
        c.toNat % 64 :: sextets s

/-- The bytes that are whole in a list of digits. -/
def octets : List ℕ → Bytes
  | [] => []
  | [_] => []
  | [p, q] => [UInt8.ofNat (p * 4 + q / 16)]
  | [p, q, r] => [UInt8.ofNat (p * 4 + q / 16), UInt8.ofNat (q % 16 * 16 + r / 4)]
  | p :: q :: r :: t :: ds =>
      UInt8.ofNat (p * 4 + q / 16) :: UInt8.ofNat (q % 16 * 16 + r / 4) ::
        UInt8.ofNat (r % 4 * 64 + t) :: octets ds

theorem ofNat_eq_of_toNat {a : UInt8} {n : ℕ} (h : a.toNat = n) : UInt8.ofNat n = a := by
  rw [← h]
  exact UInt8.ofNat_toNat

/-- The bytes are found in their digits. -/
theorem octets_sextets (s : Bytes) : octets (sextets s) = s := by
  -- each of the three bytes, from the two digits that it lies in
  have hfirst : ∀ a b : UInt8,
      UInt8.ofNat (a.toNat / 4 * 4 + (a.toNat % 4 * 16 + b.toNat / 16) / 16) = a := by
    intro a b
    have hb : b.toNat < 256 := b.toNat_lt
    apply ofNat_eq_of_toNat
    omega
  have hsecond : ∀ a b c : UInt8, UInt8.ofNat ((a.toNat % 4 * 16 + b.toNat / 16) % 16 * 16
      + (b.toNat % 16 * 4 + c.toNat / 64) / 4) = b := by
    intro a b c
    have hb : b.toNat < 256 := b.toNat_lt
    have hc : c.toNat < 256 := c.toNat_lt
    apply ofNat_eq_of_toNat
    omega
  have hthird : ∀ b c : UInt8, UInt8.ofNat ((b.toNat % 16 * 4 + c.toNat / 64) % 4 * 64
      + c.toNat % 64) = c := by
    intro b c
    have hc : c.toNat < 256 := c.toNat_lt
    apply ofNat_eq_of_toNat
    omega
  induction s using sextets.induct with
  | case1 => rfl
  | case2 a =>
      rw [sextets, octets]
      congr 1
      apply ofNat_eq_of_toNat
      omega
  | case3 a b =>
      rw [sextets, octets, hfirst]
      congr 2
      have hb : b.toNat < 256 := b.toNat_lt
      apply ofNat_eq_of_toNat
      omega
  | case4 a b c s ih => rw [sextets, octets, hfirst, hsecond, hthird, ih]

theorem sextets_lt (s : Bytes) : ∀ d ∈ sextets s, d < 64 := by
  induction s using sextets.induct with
  | case1 => exact List.forall_mem_nil _
  | case2 a =>
      have ha : a.toNat < 256 := a.toNat_lt
      simp only [sextets, List.forall_mem_cons]
      exact ⟨by omega, by omega, List.forall_mem_nil _⟩
  | case3 a b =>
      have ha : a.toNat < 256 := a.toNat_lt
      have hb : b.toNat < 256 := b.toNat_lt
      simp only [sextets, List.forall_mem_cons]
      exact ⟨by omega, by omega, by omega, List.forall_mem_nil _⟩
  | case4 a b c s ih =>
      have ha : a.toNat < 256 := a.toNat_lt
      have hb : b.toNat < 256 := b.toNat_lt
      have hc : c.toNat < 256 := c.toNat_lt
      simp only [sextets, List.forall_mem_cons]
      exact ⟨by omega, by omega, by omega, by omega, ih⟩

/-- Two digits for a byte that is left over, three for two bytes. -/
theorem length_sextets (s : Bytes) : (sextets s).length = (s.length * 4 + 2) / 3 := by
  induction s using sextets.induct with
  | case1 => rfl
  | case2 a => simp [sextets]
  | case3 a b => simp [sextets]
  | case4 a b c s ih =>
      simp only [sextets, List.length_cons, ih]
      omega

/-! ## Bytes of digits -/

/-- The lists of digits of byte strings: the last digit has no bits that belong to no byte. -/
def Canonical : List ℕ → Prop
  | [] => True
  | [_] => False
  | [p, q] => p < 64 ∧ q < 64 ∧ q % 16 = 0
  | [p, q, r] => p < 64 ∧ q < 64 ∧ r < 64 ∧ r % 4 = 0
  | p :: q :: r :: t :: ds => p < 64 ∧ q < 64 ∧ r < 64 ∧ t < 64 ∧ Canonical ds

theorem canonical_sextets (s : Bytes) : Canonical (sextets s) := by
  induction s using sextets.induct with
  | case1 => trivial
  | case2 a =>
      have ha : a.toNat < 256 := a.toNat_lt
      refine ⟨?_, ?_, ?_⟩ <;> omega
  | case3 a b =>
      have ha : a.toNat < 256 := a.toNat_lt
      have hb : b.toNat < 256 := b.toNat_lt
      refine ⟨?_, ?_, ?_, ?_⟩ <;> omega
  | case4 a b c s ih =>
      have ha : a.toNat < 256 := a.toNat_lt
      have hb : b.toNat < 256 := b.toNat_lt
      have hc : c.toNat < 256 := c.toNat_lt
      refine ⟨?_, ?_, ?_, ?_, ih⟩ <;> omega

/-- A canonical list is the digits of its bytes. -/
theorem sextets_octets {ds : List ℕ} (h : Canonical ds) : sextets (octets ds) = ds := by
  have hnat : ∀ {n : ℕ}, n < 256 → (UInt8.ofNat n).toNat = n := by
    intro n hn
    rw [UInt8.toNat_ofNat']
    exact Nat.mod_eq_of_lt hn
  induction ds using octets.induct with
  | case1 => rfl
  | case2 p => exact h.elim
  | case3 p q =>
      obtain ⟨hp, hq, hlow⟩ := h
      rw [octets, sextets, hnat (by omega)]
      congr 1
      · omega
      · congr 1
        omega
  | case4 p q r =>
      obtain ⟨hp, hq, hr, hlow⟩ := h
      rw [octets, sextets, hnat (by omega), hnat (by omega)]
      congr 1
      · omega
      · congr 1
        · omega
        · congr 1
          omega
  | case5 p q r t ds ih =>
      obtain ⟨hp, hq, hr, ht, hds⟩ := h
      rw [octets, sextets, hnat (by omega), hnat (by omega), hnat (by omega), ih hds]
      congr 1
      · omega
      · congr 1
        · omega
        · congr 1
          · omega
          · congr 1
            omega

theorem length_octets (ds : List ℕ) : (octets ds).length = ds.length * 3 / 4 := by
  induction ds using octets.induct with
  | case1 => rfl
  | case2 p => simp [octets]
  | case3 p q => simp [octets]
  | case4 p q r => simp [octets]
  | case5 p q r t ds ih =>
      simp only [octets, List.length_cons, ih]
      omega

/-! ## One digit after the other -/

/-- The bits of a list of digits that belong to no whole byte yet, as the high bits of a byte. -/
def carry : List ℕ → ℕ
  | [] => 0
  | [p] => p * 4
  | [_, q] => q % 16 * 16
  | [_, _, r] => r % 4 * 64
  | _ :: _ :: _ :: _ :: ds => carry ds

/-- A whole group does not change how many digits there are behind it. -/
theorem length_group_mod (p q r t : ℕ) (ds : List ℕ) :
    (p :: q :: r :: t :: ds).length % 4 = ds.length % 4 := by
  simp only [List.length_cons]
  omega

/-- A digit completes a byte unless it begins a group. -/
theorem octets_concat (ds : List ℕ) (d : ℕ) : octets (ds ++ [d])
    = octets ds ++ if ds.length % 4 = 0 then [] else
      [UInt8.ofNat (carry ds + d / 4 ^ (3 - ds.length % 4))] := by
  induction ds using octets.induct with
  | case1 => rfl
  | case2 p => simp [octets, carry]
  | case3 p q => simp [octets, carry]
  | case4 p q r => simp [octets, carry]
  | case5 p q r t ds ih =>
      rw [length_group_mod]
      simp only [List.cons_append, octets, carry, ih]

theorem carry_concat (ds : List ℕ) (d : ℕ) : carry (ds ++ [d])
    = match ds.length % 4 with
      | 0 => d * 4
      | 1 => d % 16 * 16
      | 2 => d % 4 * 64
      | _ => 0 := by
  induction ds using octets.induct with
  | case1 => rfl
  | case2 p => simp [carry]
  | case3 p q => simp [carry]
  | case4 p q r => simp [carry]
  | case5 p q r t ds ih =>
      rw [length_group_mod]
      simp only [List.cons_append, carry, ih]

/-- Two low bits are free for each digit of the group. -/
theorem pow_dvd_carry (ds : List ℕ) : 4 ^ (ds.length % 4) ∣ carry ds := by
  induction ds using octets.induct with
  | case1 => exact Nat.one_dvd 0
  | case2 p => exact Nat.dvd_mul_left 4 p
  | case3 p q => exact Nat.dvd_mul_left 16 (q % 16)
  | case4 p q r => exact Nat.dvd_mul_left 64 (r % 4)
  | case5 p q r t ds ih =>
      rw [length_group_mod]
      exact ih

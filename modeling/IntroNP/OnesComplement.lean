/-
# End-around carries

A sum of words of `w` bits that was taken in a wider register is brought back to `w` bits by
adding what lies above them until nothing is left there.  The result stands for the sum modulo
`2 ^ w - 1`, where zero has two representations.

* `foldCarries` : the loop;
* `foldCarries_lt`, `foldCarries_modEq`, `foldCarries_eq_zero` : its result;
* `foldCarries_eq_top` : when all bits of the result are ones.

Nothing here mentions a program of the repository.
-/
import Mathlib.Data.Nat.ModEq
import Mathlib.Algebra.NeZero
import Mathlib.Tactic.Ring

theorem two_le_pow_width (w : ℕ) [NeZero w] : 2 ≤ 2 ^ w := by
  have hw : w ≠ 0 := NeZero.ne w
  calc 2 = 2 ^ 1 := rfl
    _ ≤ 2 ^ w := Nat.pow_le_pow_right (by omega) (by omega)

theorem add_carry_lt (w : ℕ) [NeZero w] {s : ℕ} (h : s / 2 ^ w ≠ 0) : s % 2 ^ w + s / 2 ^ w < s := by
  have hsplit := Nat.mod_add_div s (2 ^ w)
  have hlt : s / 2 ^ w < 2 ^ w * (s / 2 ^ w) := by
    have hmul := Nat.mul_le_mul_right (s / 2 ^ w) (two_le_pow_width w)
    omega
  omega

/-- Add what lies above `w` bits to them, until there is nothing above. -/
def foldCarries (w : ℕ) [NeZero w] (s : ℕ) : ℕ :=
  if s / 2 ^ w ≠ 0 then foldCarries w (s % 2 ^ w + s / 2 ^ w) else s
termination_by s
decreasing_by exact add_carry_lt w ‹_›

variable (w : ℕ) [NeZero w]

theorem foldCarries_lt (s : ℕ) : foldCarries w s < 2 ^ w := by
  fun_induction foldCarries w s with
  | case1 s h ih => exact ih
  | case2 s h =>
      have hzero := not_not.mp h
      exact (Nat.div_eq_zero_iff.mp hzero).resolve_left (Nat.two_pow_pos w).ne'

/-- The carries keep the residue. -/
theorem foldCarries_modEq (s : ℕ) : foldCarries w s ≡ s [MOD 2 ^ w - 1] := by
  fun_induction foldCarries w s with
  | case1 s h ih =>
      apply ih.trans
      have hpow := two_le_pow_width w
      have hone : 2 ^ w ≡ 1 [MOD 2 ^ w - 1] := by
        apply Nat.ModEq.symm
        rw [Nat.modEq_iff_dvd' (by omega)]
      calc s % 2 ^ w + s / 2 ^ w = s % 2 ^ w + 1 * (s / 2 ^ w) := by ring
        _ ≡ s % 2 ^ w + 2 ^ w * (s / 2 ^ w) [MOD 2 ^ w - 1] :=
          (hone.symm.mul_right _).add_left _
        _ = s := Nat.mod_add_div s (2 ^ w)
  | case2 s h => exact Nat.ModEq.rfl

theorem foldCarries_eq_zero {s : ℕ} : foldCarries w s = 0 ↔ s = 0 := by
  fun_induction foldCarries w s with
  | case1 s h ih =>
      rw [ih]
      constructor
      · intro hsum
        exact absurd (Nat.eq_zero_of_add_eq_zero hsum).2 h
      · rintro rfl
        exact absurd (Nat.zero_div _) h
  | case2 s h => exact Iff.rfl

/-- The result has all bits for the multiples of `2 ^ w - 1` other than zero. -/
theorem foldCarries_eq_top {s : ℕ} :
    foldCarries w s = 2 ^ w - 1 ↔ s ≠ 0 ∧ s ≡ 0 [MOD 2 ^ w - 1] := by
  have hpow := two_le_pow_width w
  have htop : 2 ^ w - 1 ≡ 0 [MOD 2 ^ w - 1] := (Nat.modEq_zero_iff_dvd).mpr dvd_rfl
  constructor
  · intro h
    constructor
    · rintro rfl
      rw [(foldCarries_eq_zero w).mpr rfl] at h
      omega
    · have hmod := foldCarries_modEq w s
      rw [h] at hmod
      exact hmod.symm.trans htop
  · rintro ⟨hne, hmod⟩
    have hpos : foldCarries w s ≠ 0 := fun hzero => hne ((foldCarries_eq_zero w).mp hzero)
    have hlt := foldCarries_lt w s
    have hdvd := (Nat.modEq_zero_iff_dvd).mp ((foldCarries_modEq w s).trans hmod)
    have hle := Nat.le_of_dvd (Nat.pos_of_ne_zero hpos) hdvd
    omega

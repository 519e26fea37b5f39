import Mathlib.Algebra.Group.Nat.Defs
import Mathlib.Data.Nat.Size

/-! # Natural numbers as float64 values

A float64 has a significand of 53 bits. A number that needs more is rounded to the nearest
one that does not, and of two equally near ones to the one with an even significand. -/

namespace EdgeDispatch.Lib.GoFloat64

/- How many low bits of `n` do not fit. -/
def excess (n : ℕ) : ℕ := n.size - 53

/-- `float64(n)` -/
def ofNat (n : ℕ) : ℕ :=
  let unit := 2 ^ excess n
  let q := n / unit
  let r := n % unit
  (if 2 * r < unit ∨ (2 * r = unit ∧ q % 2 = 0) then q else q + 1) * unit

/- The sum of two float64 values that are natural numbers. -/
def add (x y : ℕ) : ℕ := ofNat (x + y)

theorem ofNat_of_lt {n : ℕ} (h : n < 2 ^ 53) : ofNat n = n := by
  have hexcess : excess n = 0 := Nat.sub_eq_zero_of_le (Nat.size_le.mpr h)
  simp [ofNat, hexcess, Nat.mod_one]

theorem le_ofNat_of_le {n : ℕ} (h : 2 ^ 53 ≤ n) : 2 ^ 53 ≤ ofNat n := by
  have hsize : 53 < n.size := Nat.lt_size.mpr h
  have hexcess : 52 + excess n = n.size - 1 := by
    unfold excess
    omega
  -- the significand has all its 53 bits
  have hlow : 2 ^ (52 + excess n) ≤ n := by
    rw [hexcess]
    exact Nat.lt_size.mp (by omega)
  have hq : 2 ^ 52 ≤ n / 2 ^ excess n := by
    rw [Nat.le_div_iff_mul_le (Nat.two_pow_pos _), ← Nat.pow_add]
    exact hlow
  have hunit : 2 ^ 1 ≤ 2 ^ excess n :=
    Nat.pow_le_pow_right (by decide) (by unfold excess; omega)
  have hfloor : 2 ^ 52 * 2 ^ 1 ≤ n / 2 ^ excess n * 2 ^ excess n := Nat.mul_le_mul hq hunit
  have hround : n / 2 ^ excess n * 2 ^ excess n ≤ ofNat n := by
    unfold ofNat
    dsimp only
    split
    · exact Nat.le_refl _
    · exact Nat.mul_le_mul_right _ (Nat.le_succ _)
  exact Nat.le_trans hfloor hround

/-- Up to `2 ^ 53` the naturals are float64 values, so rounding does not pass them. -/
theorem le_ofNat {n m : ℕ} (hn : n ≤ 2 ^ 53) (h : n ≤ m) : n ≤ ofNat m := by
  by_cases hm : m < 2 ^ 53
  · rw [ofNat_of_lt hm]
    exact h
  · exact Nat.le_trans hn (le_ofNat_of_le (Nat.le_of_not_lt hm))

example : ofNat (2 ^ 53 + 1) = 2 ^ 53 ∧ ofNat (2 ^ 53 + 3) = 2 ^ 53 + 4 := by decide +kernel

end EdgeDispatch.Lib.GoFloat64

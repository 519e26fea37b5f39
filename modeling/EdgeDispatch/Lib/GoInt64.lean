import Mathlib.Algebra.Group.Int.Defs
import Mathlib.Algebra.Group.Nat.Defs

/-! # Arithmetic of int64 and int32

Sums and differences wrap around. Each lemma says what a result is as an integer, exactly
where it fits and by how much it is off where it does not. -/

namespace EdgeDispatch.Lib.GoInt64

/- The value of an int64 expression. -/
def int64 (n : ℤ) : ℤ := n.bmod (2 ^ 64)

/- time.Second. -/
def second : ℤ := 10 ^ 9

theorem int64_le {n : ℤ} (h : 0 ≤ n) : int64 n ≤ n := by
  unfold int64
  rw [Int.bmod_def]
  split <;> omega

theorem int64_eq {n : ℤ} (h : 0 ≤ n) (h' : n < 2 ^ 63) : int64 n = n := by
  unfold int64
  rw [Int.bmod_def]
  split <;> omega

theorem int64_cases (n : ℤ) :
    ∃ k, int64 n = n - 2 ^ 64 * k ∧ -2 ^ 63 ≤ int64 n ∧ int64 n < 2 ^ 63 := by
  refine ⟨n / 2 ^ 64 + if n % 2 ^ 64 < 2 ^ 63 then 0 else 1, ?_⟩
  unfold int64
  rw [Int.bmod_def]
  split
  · omega
  · omega

theorem toInt_ofInt_nat {n : ℕ} (h : n < 2 ^ 63) : (Int64.ofInt n).toInt = n :=
  Int64.toInt_ofInt_of_le (by omega) (by omega)

/-! ### Differences -/

theorem toInt_sub_cases (a b : Int64) :
    (a - b).toInt = a.toInt - b.toInt ∧ -2 ^ 63 ≤ a.toInt - b.toInt ∧ a.toInt - b.toInt < 2 ^ 63 ∨
      (a - b).toInt = a.toInt - b.toInt - 2 ^ 64 ∧ 2 ^ 63 ≤ a.toInt - b.toInt ∨
      (a - b).toInt = a.toInt - b.toInt + 2 ^ 64 ∧ a.toInt - b.toInt < -2 ^ 63 := by
  have ha := a.toInt_lt
  have ha' := a.le_toInt
  have hb := b.toInt_lt
  have hb' := b.le_toInt
  rw [Int64.toInt_sub, Int.bmod_def]
  split
  · omega
  · omega

theorem toInt_sub_one {a : Int64} (h : 0 ≤ a.toInt) : (a - 1).toInt = a.toInt - 1 := by
  have hlt := a.toInt_lt
  have hone : (1 : Int64).toInt = 1 := rfl
  have hsub := toInt_sub_cases a 1
  omega

/- How many numbers there are from `first` to `last`. -/
theorem toInt_span {first last : Int64} (hfirst : 0 ≤ first.toInt)
    (hle : first.toInt ≤ last.toInt) (hlast : last.toInt < 2 ^ 63 - 1) :
    (last - first + 1).toInt = last.toInt - first.toInt + 1 := by
  have hsub := toInt_sub_cases last first
  have hone : (1 : Int64).toInt = 1 := rfl
  rw [Int64.toInt_add, hone]
  refine (Int.bmod_eq_of_le ?_ ?_).trans ?_
  · omega
  · omega
  · omega

/-! ### Counting up -/

theorem add_ofNat_succ (start : Int64) (n : ℕ) :
    start + Int64.ofNat (n + 1) = start + Int64.ofNat n + 1 := by
  rw [Int64.ofNat_add, ← Int64.add_assoc]
  rfl

/- A counter does not come back to a number within 2^63 steps. -/
theorem add_ofNat_inj {start : Int64} {i j : ℕ} (hi : i < 2 ^ 63) (hj : j < 2 ^ 63)
    (h : start + Int64.ofNat i = start + Int64.ofNat j) : i = j := by
  have heq := congrArg Int64.toInt ((Int64.add_right_inj start).mp h)
  rw [Int64.toInt_ofNat_of_lt hi, Int64.toInt_ofNat_of_lt hj] at heq
  exact Int.ofNat_inj.mp heq

theorem int32_toInt_add_one {a : Int32} (h : a.toInt + 1 < 2 ^ 31) :
    (a + 1).toInt = a.toInt + 1 := by
  have hle := a.le_toInt
  have hone : (1 : Int32).toInt = 1 := rfl
  rw [Int32.toInt_add, hone]
  refine Int.bmod_eq_of_le ?_ ?_
  · omega
  · omega

end EdgeDispatch.Lib.GoInt64

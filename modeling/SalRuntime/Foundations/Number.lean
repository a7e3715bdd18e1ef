import Mathlib.Data.Int.Order.Basic
import Mathlib.Algebra.Group.Nat.Defs
import Mathlib.Tactic.SplitIfs

/-!
# JavaScript numbers

## Main definitions

* `MAX_SAFE_INTEGER` — the bound of the integers that numbers represent one by one.
* `Number` — the numbers.
* `toDouble` — the number nearest to a natural number.

## Main results

* `toDouble_eq_self`, `safe_toDouble_iff` — safe integers are represented, and no other integer is
  rounded to one.
-/

namespace SalRuntime

/-- `Number.MAX_SAFE_INTEGER`. -/
def MAX_SAFE_INTEGER : ℕ := 9007199254740991

/-- A number: an integer, or another double, given by its bits. -/
inductive Number
  /-- An integer. -/
  | int (v : ℤ)
  /-- Another double. -/
  | fractional (bits : ℕ)
  deriving DecidableEq, Repr

/-- The double nearest to a natural number; of two, the one with the even significand. -/
def toDouble (n : ℕ) : ℕ :=
  if n ≤ MAX_SAFE_INTEGER then n
  else
    let u := 2 ^ (n.log2 - 52)
    if 2 * (n % u) < u ∨ 2 * (n % u) = u ∧ n / u % 2 = 0 then n / u * u else (n / u + 1) * u

@[simp] theorem toDouble_eq_self {n : ℕ} (h : n ≤ MAX_SAFE_INTEGER) : toDouble n = n := if_pos h

/-- **Rounding** does not make an integer safe. -/
@[simp] theorem safe_toDouble_iff {n : ℕ} :
    toDouble n ≤ MAX_SAFE_INTEGER ↔ n ≤ MAX_SAFE_INTEGER := by
  refine ⟨fun h => ?_, fun h => by rwa [toDouble_eq_self h]⟩
  by_contra hn
  have hlog : 53 ≤ n.log2 := by
    rw [Nat.le_log2 (by omega)]
    rw [MAX_SAFE_INTEGER] at hn
    omega
  -- The quotient by the unit has 53 bits, so rounding stays at or above the leading bit.
  have hpow : 2 ^ 52 * 2 ^ (n.log2 - 52) = 2 ^ n.log2 := by
    rw [← pow_add, Nat.add_sub_cancel' (by omega)]
  have hquot : 2 ^ 52 ≤ n / 2 ^ (n.log2 - 52) := by
    rw [Nat.le_div_iff_mul_le (Nat.two_pow_pos _), hpow]
    exact Nat.log2_self_le (by omega)
  have hlead : 2 ^ 53 ≤ n / 2 ^ (n.log2 - 52) * 2 ^ (n.log2 - 52) :=
    calc 2 ^ 53 ≤ 2 ^ n.log2 := Nat.pow_le_pow_right (by omega) hlog
      _ = 2 ^ 52 * 2 ^ (n.log2 - 52) := hpow.symm
      _ ≤ n / 2 ^ (n.log2 - 52) * 2 ^ (n.log2 - 52) := Nat.mul_le_mul_right _ hquot
  have hround : n / 2 ^ (n.log2 - 52) * 2 ^ (n.log2 - 52) ≤ toDouble n := by
    rw [toDouble, if_neg hn]
    dsimp only
    split_ifs
    · exact Nat.le_refl _
    · exact Nat.mul_le_mul_right _ (Nat.le_succ _)
  rw [MAX_SAFE_INTEGER] at h
  omega

end SalRuntime

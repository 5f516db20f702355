import Mathlib.Tactic.Linarith
import Mathlib.Tactic.Ring

/-!
# Division by a reciprocal

The quotient by `n` of a number `x`, from a multiplier `F` that is close to
`N / n` for a large `N`: the multiplier may be above (`mul_div_of_above`), or
below if the dividend is then taken one too large (`mul_div_of_below`). How close
depends on how large `x` may be.
-/

namespace Reciprocal

/-- A multiplier slightly above `N / n`. -/
theorem mul_div_of_above {N n F e x : ℕ} (hn : 0 < n) (hF : F * n = N + e) (he : e * x < N) :
    F * x / N = x / n := by
  have hx := Nat.div_add_mod x n
  have hr := Nat.mod_lt x hn
  set q := x / n
  set r := x % n
  have hFx : F * x * n = N * x + e * x := by rw [mul_right_comm, hF, add_mul]
  refine Nat.div_eq_of_lt_le ?_ ?_
  · refine Nat.le_of_mul_le_mul_right ?_ hn
    calc q * N * n = N * (n * q) := by ring
      _ ≤ N * x := Nat.mul_le_mul_left N (by rw [← hx]; exact Nat.le_add_right _ _)
      _ ≤ F * x * n := by rw [hFx]; exact Nat.le_add_right _ _
  · refine Nat.lt_of_mul_lt_mul_right (a := n) ?_
    calc F * x * n = N * x + e * x := hFx
      _ < N * x + N := Nat.add_lt_add_left he _
      _ = N * (x + 1) := by ring
      _ ≤ N * (n * (q + 1)) := Nat.mul_le_mul_left N (by rw [mul_add, mul_one]; omega)
      _ = (q + 1) * N * n := by ring

/-- A multiplier slightly below `N / n`, of the dividend taken one too large. -/
theorem mul_div_of_below {N n F e x : ℕ} (hn : 0 < n) (hF : F * n + e = N) (h0 : 0 < e)
    (he : e * (x + 1) ≤ N) : F * (x + 1) / N = x / n := by
  have hx := Nat.div_add_mod x n
  have hr := Nat.mod_lt x hn
  set q := x / n
  set r := x % n
  have hFx : F * (x + 1) * n + e * (x + 1) = N * (x + 1) := by
    rw [← hF]; ring
  refine Nat.div_eq_of_lt_le ?_ ?_
  · refine Nat.le_of_mul_le_mul_right ?_ hn
    have hq : q * N * n ≤ N * x := by
      calc q * N * n = N * (n * q) := by ring
        _ ≤ N * x := Nat.mul_le_mul_left N (by rw [← hx]; exact Nat.le_add_right _ _)
    rw [mul_add N, mul_one] at hFx
    omega
  · refine Nat.lt_of_mul_lt_mul_right (a := n) ?_
    have hpos : 0 < e * (x + 1) := Nat.mul_pos h0 (Nat.succ_pos x)
    calc F * (x + 1) * n < N * (x + 1) := by omega
      _ ≤ N * (n * (q + 1)) := Nat.mul_le_mul_left N (by rw [mul_add, mul_one]; omega)
      _ = (q + 1) * N * n := by ring

end Reciprocal

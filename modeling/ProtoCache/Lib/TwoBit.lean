import Mathlib.Data.Nat.Bitwise
import Mathlib.Data.Nat.Count
import Mathlib.Tactic.Ring

/-!
# Packed numbers of two bits

Numbers below four, packed with the first in the low bits (`TwoBit.pack`).

* `digit_pack`: the numbers come back.
* `count_add_count`: the sum of the numbers is the number of bits that are set,
  with the high bits of the pairs counted once more.
-/

namespace TwoBit

/-- Numbers, packed in pairs of bits. -/
def pack : List ℕ → ℕ
  | [] => 0
  | w :: ws => w + 4 * pack ws

/-- The sum of the first `n` pairs of bits of a number. -/
def digitSum (v : ℕ) : ℕ → ℕ
  | 0 => 0
  | n + 1 => digitSum v n + v / 4 ^ n % 4

theorem digitSum_le (v n : ℕ) : digitSum v n ≤ 3 * n := by
  induction n with
  | zero => exact le_rfl
  | succ n ih =>
    rw [digitSum]
    omega

theorem pack_lt {ws : List ℕ} (h : ∀ w ∈ ws, w < 4) : pack ws < 4 ^ ws.length := by
  induction ws with
  | nil => exact Nat.one_pos
  | cons w ws ih =>
    have hw := h w List.mem_cons_self
    have := ih fun w hw => h w (List.mem_cons_of_mem _ hw)
    rw [pack, List.length_cons, pow_succ]
    omega

theorem digit_pack {ws : List ℕ} (h : ∀ w ∈ ws, w < 4) (i : ℕ) :
    pack ws / 4 ^ i % 4 = ws[i]?.getD 0 := by
  induction ws generalizing i with
  | nil => simp [pack]
  | cons w ws ih =>
    have hw := h w List.mem_cons_self
    rw [pack]
    cases i with
    | zero => simp; omega
    | succ i =>
      rw [pow_succ', ← Nat.div_div_eq_div_mul, show (w + 4 * pack ws) / 4 = pack ws by omega,
        ih (fun w hw => h w (List.mem_cons_of_mem _ hw)), List.getElem?_cons_succ]

/-- Only the low bits count. -/
theorem digitSum_mod (v : ℕ) {n b : ℕ} (h : b ≤ n) : digitSum (v % 4 ^ b) n = digitSum v b := by
  induction n with
  | zero => rw [Nat.le_zero.1 h]; rfl
  | succ n ih =>
    rw [digitSum]
    rcases Nat.lt_or_ge n b with hlt | hge
    · -- All the pairs up to here are in the low bits.
      obtain rfl : b = n + 1 := by omega
      clear ih h hlt
      have hmod : ∀ k ≤ n, v % 4 ^ (n + 1) / 4 ^ k % 4 = v / 4 ^ k % 4 := by
        intro k hk
        rw [show n + 1 = k + (n - k + 1) by omega, pow_add, Nat.mod_mul_right_div_self, pow_succ',
          Nat.mod_mul_right_mod]
      rw [hmod n le_rfl, digitSum]
      congr 1
      suffices ∀ k ≤ n, digitSum (v % 4 ^ (n + 1)) k = digitSum v k from this n le_rfl
      intro k hk
      induction k with
      | zero => rfl
      | succ k ih => rw [digitSum, ih (by omega), hmod k (by omega), digitSum]
    · have hlt : v % 4 ^ b < 4 ^ n :=
        (Nat.mod_lt _ (Nat.pow_pos (by decide))).trans_le (Nat.pow_le_pow_right (by decide) hge)
      rw [ih hge, Nat.div_eq_of_lt hlt, Nat.zero_mod, Nat.add_zero]

theorem digitSum_pack {ws : List ℕ} (h : ∀ w ∈ ws, w < 4) (b : ℕ) :
    digitSum (pack ws) b = (ws.take b).sum := by
  induction b with
  | zero => rfl
  | succ b ih =>
    rw [digitSum, ih, digit_pack h, List.take_add_one, List.sum_append]
    cases ws[b]? <;> simp

/-- The bits of a number that are set, and once more the high bits of the pairs. -/
theorem count_add_count (v mask : ℕ) (n : ℕ)
    (hmask : ∀ i < 2 * n, mask.testBit i = decide (i % 2 = 1)) :
    Nat.count (fun i => (v &&& mask).testBit i = true) (2 * n) +
      Nat.count (fun i => v.testBit i = true) (2 * n) = digitSum v n := by
  induction n with
  | zero => rfl
  | succ n ih =>
    have ih := ih fun i hi => hmask i (by omega)
    have h₀ := hmask (2 * n) (by omega)
    have h₁ := hmask (2 * n + 1) (by omega)
    have hd : v / 4 ^ n % 4 = (v.testBit (2 * n)).toNat + 2 * (v.testBit (2 * n + 1)).toNat := by
      have h4 : (4 : ℕ) ^ n = 2 ^ (2 * n) := by rw [pow_mul]; rfl
      rw [Nat.toNat_testBit, Nat.toNat_testBit, h4, pow_succ, ← Nat.div_div_eq_div_mul]
      omega
    rw [Nat.mul_succ, Nat.count_succ, Nat.count_succ, Nat.count_succ, Nat.count_succ, digitSum, hd,
      ← ih, Nat.testBit_and, Nat.testBit_and, h₀, h₁]
    rw [show 2 * n % 2 = 0 by omega, show (2 * n + 1) % 2 = 1 by omega]
    cases v.testBit (2 * n) <;> cases v.testBit (2 * n + 1) <;> simp <;> omega

end TwoBit

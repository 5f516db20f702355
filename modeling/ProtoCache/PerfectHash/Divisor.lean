import Mathlib.Data.Nat.Prime.Basic
import ProtoCache.Lib.Reciprocal

/-!
# Divisor

`Divisor` (`src/perfect_hash.cc`) divides 32-bit numbers by a fixed one through a
64-bit product: `fac` is a reciprocal of the divisor, rounded to the side that
is close enough.

* `Divisor.div_eq`: the quotient is the quotient, for every divisor but zero;
* `Divisor.mod_eq`: and so is the remainder.
-/

namespace ProtoCache

/-- `Divisor`. -/
structure Divisor where
  val : UInt32
  fac : UInt32
  tip : UInt32
  sft : ℕ
  deriving DecidableEq

namespace Divisor

/-- The loop of `Divisor::operator=`: halving `m` until it is at most `n`. It ends
    with `sft` at 0 at the latest, where `m` is 1. -/
def shrink (n : UInt32) : ℕ → UInt32 → ℕ × UInt32
  | 0, m => (0, m)
  | sft + 1, m => if m > n then shrink n sft (m >>> 1) else (sft + 1, m)

/-- `Divisor::operator=`. -/
def ofValue (n : UInt32) : Divisor :=
  if n = 0 then ⟨n, 0, 0, 0⟩
  else
    let (sft, m) := shrink n 31 ((1 : UInt32) <<< 31)
    if m = n then ⟨n, 0xffffffff, 0xffffffff, sft⟩
    else
      let fac := (m.toUInt64 <<< 32 / n.toUInt64).toUInt32
      let r := fac * n + n
      if r ≤ m then ⟨n, fac + 1, 0, sft⟩ else ⟨n, fac, fac, sft⟩

/-- `Divisor::div`. -/
def div (d : Divisor) (m : UInt32) : UInt32 :=
  ((d.fac.toUInt64 * m.toUInt64 + d.tip.toUInt64) >>> (32 + UInt64.ofNat d.sft)).toUInt32

/-- `Divisor::mod`. -/
def mod (d : Divisor) (m : UInt32) : UInt32 := m - d.val * d.div m

/-- The product in `Divisor::div` and its shift do not overflow. -/
theorem toNat_div {d : Divisor} (hs : d.sft ≤ 31) (m : UInt32) :
    (d.div m).toNat = (d.fac.toNat * m.toNat + d.tip.toNat) / 2 ^ (32 + d.sft) % 2 ^ 32 := by
  have hf := d.fac.toNat_lt
  have ht := d.tip.toNat_lt
  have hm := m.toNat_lt
  have hmul : d.fac.toNat * m.toNat ≤ (2 ^ 32 - 1) * (2 ^ 32 - 1) :=
    Nat.mul_le_mul (by omega) (by omega)
  have hsft : (32 + UInt64.ofNat d.sft).toNat % 64 = 32 + d.sft := by
    rw [UInt64.toNat_add, UInt64.toNat_ofNat']
    simp only [UInt64.reduceToNat]
    omega
  rw [div, UInt64.toNat_toUInt32, UInt64.toNat_shiftRight, hsft, Nat.shiftRight_eq_div_pow,
    UInt64.toNat_add, UInt64.toNat_mul]
  simp only [UInt32.toNat_toUInt64]
  rw [Nat.mod_eq_of_lt (b := 2 ^ 64) (a := d.fac.toNat * m.toNat) (by omega),
    Nat.mod_eq_of_lt (b := 2 ^ 64) (by omega)]

/-- The loop finds the highest power of two that is at most `n`. -/
theorem shrink_spec {n : UInt32} (hn : n ≠ 0) : ∀ (sft : ℕ) (m : UInt32), sft ≤ 31 →
    m.toNat = 2 ^ sft → n.toNat < 2 ^ (sft + 1) →
    ∃ s ≤ 31, (shrink n sft m).1 = s ∧ (shrink n sft m).2.toNat = 2 ^ s ∧
      2 ^ s ≤ n.toNat ∧ n.toNat < 2 ^ (s + 1) := by
  intro sft
  induction sft with
  | zero =>
    intro m _ hm hlt
    refine ⟨0, by omega, rfl, hm, ?_, hlt⟩
    have : n.toNat ≠ 0 := fun h => hn (UInt32.toNat_inj.1 h)
    omega
  | succ sft ih =>
    intro m hs hm hlt
    rw [shrink]
    split
    · rename_i hgt
      refine ih (m >>> 1) (by omega) ?_ (hm ▸ UInt32.lt_iff_toNat_lt.1 hgt)
      rw [UInt32.toNat_shiftRight, hm, Nat.shiftRight_eq_div_pow, pow_succ]
      exact Nat.mul_div_cancel _ (by decide)
    · rename_i hle
      refine ⟨sft + 1, hs, rfl, hm, hm ▸ ?_, hlt⟩
      exact Nat.le_of_not_lt fun h => hle (UInt32.lt_iff_toNat_lt.2 h)

/-- What `Divisor::operator=` stores: the divisor, and a reciprocal that rounds the
    quotients of 32-bit numbers to the right side. -/
theorem ofValue_spec {n : UInt32} (hn : n ≠ 0) : (ofValue n).val = n ∧ (ofValue n).sft ≤ 31 ∧
    ∀ x < 2 ^ 32, ((ofValue n).fac.toNat * x + (ofValue n).tip.toNat) / 2 ^ (32 + (ofValue n).sft) =
      x / n.toNat := by
  obtain ⟨s, hs, h₁, h₂, hle, hlt⟩ :=
    shrink_spec hn 31 ((1 : UInt32) <<< 31) le_rfl rfl n.toNat_lt
  have hpos : 0 < n.toNat := Nat.lt_of_lt_of_le (Nat.two_pow_pos s) hle
  set m := (shrink n 31 ((1 : UInt32) <<< 31)).2 with hm
  have hN : 2 ^ (32 + s) = 2 ^ s * 2 ^ 32 := by rw [pow_add, mul_comm]
  rw [ofValue, if_neg hn]
  simp only [← hm, h₁]
  split
  · -- A power of two.
    rename_i hmn
    refine ⟨rfl, hs, fun x hx => ?_⟩
    have hn2 : n.toNat = 2 ^ s := by rw [← hmn, h₂]
    change ((2 ^ 32 - 1) * x + (2 ^ 32 - 1)) / 2 ^ (32 + s) = _
    rw [← Nat.mul_add_one]
    refine Reciprocal.mul_div_of_below (e := 2 ^ s) hpos ?_ (Nat.two_pow_pos s) ?_
    · rw [hn2, hN, Nat.sub_mul]
      have := Nat.two_pow_pos s
      omega
    · rw [hN]
      exact Nat.mul_le_mul_left _ hx
  · rename_i hmn
    have hne : n.toNat ≠ 2 ^ s := fun h => hmn (UInt32.toNat_inj.1 (by rw [h₂, h]))
    have hgt : 2 ^ s + 1 ≤ n.toNat := by omega
    have h31 : 2 ^ s ≤ 2 ^ 31 := Nat.pow_le_pow_right (by decide) hs
    -- The rounded reciprocal `F`, and what it misses.
    have hdm := Nat.div_add_mod (2 ^ (32 + s)) n.toNat
    have he := Nat.mod_lt (2 ^ (32 + s)) hpos
    have hF : 2 ^ (32 + s) / n.toNat < 2 ^ 32 - 1 := by
      rw [Nat.div_lt_iff_lt_mul hpos, hN]
      omega
    have hfac : (m.toUInt64 <<< 32 / n.toUInt64).toUInt32.toNat = 2 ^ (32 + s) / n.toNat := by
      rw [UInt64.toNat_toUInt32, UInt64.toNat_div, UInt64.toNat_shiftLeft, UInt32.toNat_toUInt64,
        UInt32.toNat_toUInt64, h₂, show (32 : UInt64).toNat % 64 = 32 from rfl, Nat.shiftLeft_eq,
        ← hN, Nat.mod_eq_of_lt (b := 2 ^ 64) (by omega), Nat.mod_eq_of_lt (by omega)]
    have hepos : 0 < 2 ^ (32 + s) % n.toNat := by
      refine Nat.pos_of_ne_zero fun h => ?_
      obtain ⟨j, -, hj⟩ := (Nat.dvd_prime_pow Nat.prime_two).1 (Nat.dvd_of_mod_eq_zero h)
      rw [hj] at hgt hlt
      have h₁ := (Nat.pow_lt_pow_iff_right (a := 2) (by decide)).1 (Nat.lt_of_succ_le hgt)
      have h₂ := (Nat.pow_lt_pow_iff_right (a := 2) (by decide)).1 hlt
      omega
    set fac := (m.toUInt64 <<< 32 / n.toUInt64).toUInt32
    set F := 2 ^ (32 + s) / n.toNat
    set e := 2 ^ (32 + s) % n.toNat
    -- What the code computes to see how far the rounded reciprocal is off.
    have hr : (fac * n + n).toNat = n.toNat - e := by
      have hlt := n.toNat_lt
      rw [UInt32.toNat_add, UInt32.toNat_mul, hfac, Nat.mod_add_mod]
      have hFn : F * n.toNat + n.toNat = 2 ^ s * 2 ^ 32 + (n.toNat - e) := by
        rw [mul_comm, ← hN]; omega
      rw [hFn, Nat.mul_add_mod', Nat.mod_eq_of_lt (by omega)]
    split
    · rename_i hle
      -- Rounded up, it is near enough.
      replace hle : n.toNat - e ≤ 2 ^ s := by
        rw [← hr, ← h₂]; exact UInt32.le_iff_toNat_le.1 hle
      refine ⟨rfl, hs, fun x hx => ?_⟩
      have hfac₁ : (fac + 1).toNat = F + 1 := by
        rw [UInt32.toNat_add, hfac]
        exact Nat.mod_eq_of_lt (by change F + 1 < 2 ^ 32; omega)
      change ((fac + 1).toNat * x + 0) / 2 ^ (32 + s) = _
      rw [hfac₁, Nat.add_zero]
      refine Reciprocal.mul_div_of_above (e := n.toNat - e) hpos ?_ ?_
      · rw [Nat.add_mul, one_mul, mul_comm]; omega
      · rw [hN]
        calc (n.toNat - e) * x ≤ 2 ^ s * x := Nat.mul_le_mul_right x hle
          _ < 2 ^ s * 2 ^ 32 := Nat.mul_lt_mul_of_pos_left hx (Nat.two_pow_pos s)
    · rename_i hle
      -- Rounded down it is, and the reciprocal itself is added once more.
      replace hle : 2 ^ s < n.toNat - e := by
        rw [← hr, ← h₂]
        exact Nat.lt_of_not_le fun h => hle (UInt32.le_iff_toNat_le.2 h)
      refine ⟨rfl, hs, fun x hx => ?_⟩
      change (fac.toNat * x + fac.toNat) / 2 ^ (32 + s) = _
      rw [hfac, ← Nat.mul_add_one]
      refine Reciprocal.mul_div_of_below (e := e) hpos (by rw [mul_comm]; exact hdm) hepos ?_
      rw [hN]
      refine Nat.mul_le_mul ?_ hx
      rw [pow_succ] at hlt
      omega

/-- Division by a `Divisor` is division. -/
theorem div_eq {n : UInt32} (hn : n ≠ 0) (m : UInt32) : (ofValue n).div m = m / n := by
  obtain ⟨-, hs, h⟩ := ofValue_spec hn
  refine UInt32.toNat_inj.1 ?_
  rw [toNat_div hs, h _ m.toNat_lt, UInt32.toNat_div]
  exact Nat.mod_eq_of_lt (Nat.lt_of_le_of_lt (Nat.div_le_self _ _) m.toNat_lt)

/-- The remainder by a `Divisor` is the remainder. -/
theorem mod_eq {n : UInt32} (hn : n ≠ 0) (m : UInt32) : (ofValue n).mod m = m % n := by
  rw [mod, div_eq hn, (ofValue_spec hn).1]
  refine UInt32.toNat_inj.1 ?_
  have hlt := m.toNat_lt
  have hdm := Nat.div_add_mod m.toNat n.toNat
  have hle : n.toNat * (m.toNat / n.toNat) ≤ m.toNat := Nat.mul_div_le _ _
  rw [UInt32.toNat_sub_of_le, UInt32.toNat_mul, UInt32.toNat_div, UInt32.toNat_mod,
    Nat.mod_eq_of_lt (by omega)]
  · omega
  · rw [UInt32.le_iff_toNat_le, UInt32.toNat_mul, UInt32.toNat_div, Nat.mod_eq_of_lt (by omega)]
    exact hle

end Divisor

end ProtoCache

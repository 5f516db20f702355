import Mathlib.Algebra.Order.Group.Nat
import Mathlib.Data.Nat.Bitwise
import Mathlib.Tactic.Ring

/-!
# Little-endian numbers

The number a byte string spells with the least significant byte first
(`le`), and the byte string of a number in a given width (`toLE`).

* The two are inverse on numbers that fit (`le_toLE`) and on strings of the
  width (`toLE_le`).
* A bit of the number is a bit of one of the bytes (`testBit_le`).
-/

namespace LittleEndian

/-- The number spelled by a byte string, least significant byte first. -/
def le : List UInt8 → ℕ
  | [] => 0
  | b :: bs => b.toNat + 256 * le bs

/-- The `k` bytes of a number, least significant byte first. -/
def toLE : ℕ → ℕ → List UInt8
  | 0, _ => []
  | k + 1, n => UInt8.ofNat n :: toLE k (n / 256)

@[simp] theorem length_toLE (k n : ℕ) : (toLE k n).length = k := by
  induction k generalizing n with
  | zero => rfl
  | succ k ih => rw [toLE, List.length_cons, ih]

theorem le_toLE_mod (k n : ℕ) : le (toLE k n) = n % 256 ^ k := by
  induction k generalizing n with
  | zero => rw [toLE, le, pow_zero, Nat.mod_one]
  | succ k ih =>
    rw [toLE, le, ih, UInt8.toNat_ofNat', pow_succ' 256 k, Nat.mod_mul]

/-- Reading the bytes of a number that fits gives the number. -/
theorem le_toLE {k n : ℕ} (h : n < 256 ^ k) : le (toLE k n) = n := by
  rw [le_toLE_mod, Nat.mod_eq_of_lt h]

theorem le_lt (bs : List UInt8) : le bs < 256 ^ bs.length := by
  induction bs with
  | nil => simp [le]
  | cons b bs ih =>
    have := b.toNat_lt
    rw [le, List.length_cons, pow_succ']
    omega

/-- Writing the number a byte string spells gives the byte string. -/
theorem toLE_le (bs : List UInt8) : toLE bs.length (le bs) = bs := by
  induction bs with
  | nil => rfl
  | cons b bs ih =>
    have hb := b.toNat_lt
    have hlow : UInt8.ofNat (b.toNat + 256 * le bs) = b :=
      UInt8.toNat_inj.1 (by rw [UInt8.toNat_ofNat']; omega)
    rw [List.length_cons, toLE, le, hlow, show (b.toNat + 256 * le bs) / 256 = le bs by omega, ih]

/-- Byte strings of one width that spell the same number are equal. -/
theorem le_inj {bs bs' : List UInt8} (hl : bs.length = bs'.length) (h : le bs = le bs') :
    bs = bs' := by
  rw [← toLE_le bs, ← toLE_le bs', hl, h]

theorem le_append (bs bs' : List UInt8) : le (bs ++ bs') = le bs + 256 ^ bs.length * le bs' := by
  induction bs with
  | nil => simp [le]
  | cons b bs ih => rw [List.cons_append, le, le, ih, List.length_cons, pow_succ']; ring

/-- A bit of the number is a bit of one of its bytes. -/
theorem testBit_le (bs : List UInt8) (i : ℕ) :
    (le bs).testBit i = ((bs[i / 8]?).getD 0).toNat.testBit (i % 8) := by
  induction bs generalizing i with
  | nil => simp [le]
  | cons b bs ih =>
    rw [le, Nat.add_comm, show 256 = 2 ^ 8 from rfl,
      Nat.testBit_two_pow_mul_add _ b.toNat_lt]
    split
    · rename_i h
      rw [Nat.div_eq_of_lt h, Nat.mod_eq_of_lt h]
      rfl
    · rename_i h
      obtain ⟨i, rfl⟩ : ∃ k, i = k + 8 := ⟨i - 8, by omega⟩
      rw [Nat.add_sub_cancel, ih, Nat.add_div_right _ (by decide), Nat.add_mod_right]
      rfl

end LittleEndian

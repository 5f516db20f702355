import Mathlib.Data.Nat.Bitwise
import Mathlib.Tactic.Ring

/-!
# Base-128 variable-length integers

The little-endian base-128 code of a natural number: seven payload bits per
byte, least significant group first, the top bit of a byte telling that
another byte follows.

* `Varint.encode` is the shortest code of a number, `Varint.decode k` reads a
  code of at most `k` bytes from the front of a byte string and returns what is
  behind it; the two are inverse (`decode_encode_append`).
* A reader that accumulates the groups with shifts and disjunctions adds them
  up (`or_shiftLeft`), as long as the accumulator stays below the shift.
-/

namespace Varint

/-- The shortest base-128 code of `n`. -/
def encode (n : ℕ) : List UInt8 :=
  if n < 128 then [UInt8.ofNat n] else UInt8.ofNat (n % 128 + 128) :: encode (n / 128)

/-- Reading a code of at most `k` bytes: the number and the bytes behind it. -/
def decode : ℕ → List UInt8 → Option (ℕ × List UInt8)
  | 0, _ => none
  | _ + 1, [] => none
  | k + 1, b :: bs =>
    if b.toNat < 128 then some (b.toNat, bs)
    else (decode k bs).map fun r => (b.toNat % 128 + 128 * r.1, r.2)

theorem encode_of_lt {n : ℕ} (h : n < 128) : encode n = [UInt8.ofNat n] := by
  rw [encode, if_pos h]

theorem encode_of_le {n : ℕ} (h : 128 ≤ n) :
    encode n = UInt8.ofNat (n % 128 + 128) :: encode (n / 128) := by
  rw [encode, if_neg (by omega)]

/-- The code is never empty. -/
theorem encode_ne_nil (n : ℕ) : encode n ≠ [] := by
  rw [encode]; split <;> simp

theorem length_encode_pos (n : ℕ) : 0 < (encode n).length :=
  List.length_pos_iff.2 (encode_ne_nil n)

/-- A number of `k` groups takes at most `k` bytes. -/
theorem length_encode_le {k n : ℕ} (hk : 0 < k) (h : n < 128 ^ k) : (encode n).length ≤ k := by
  induction k generalizing n with
  | zero => omega
  | succ k ih =>
    by_cases hn : n < 128
    · simp [encode_of_lt hn]
    · rw [encode_of_le (by omega), List.length_cons]
      have hk : 0 < k := by
        rcases Nat.eq_zero_or_pos k with rfl | hk
        · omega
        · exact hk
      have := ih hk (n := n / 128) (by rw [Nat.div_lt_iff_lt_mul (by decide)]; rwa [pow_succ] at h)
      omega

theorem toNat_ofNat_lt {n : ℕ} (h : n < 256) : (UInt8.ofNat n).toNat = n := by
  rw [UInt8.toNat_ofNat']; omega

/-- Reading is the inverse of writing, whatever follows the code. -/
theorem decode_encode_append {k n : ℕ} (hk : 0 < k) (h : n < 128 ^ k) (rest : List UInt8) :
    decode k (encode n ++ rest) = some (n, rest) := by
  induction k generalizing n with
  | zero => omega
  | succ k ih =>
    by_cases hn : n < 128
    · rw [encode_of_lt hn, List.singleton_append, decode, toNat_ofNat_lt (by omega), if_pos hn]
    · have hk : 0 < k := by
        rcases Nat.eq_zero_or_pos k with rfl | hk
        · omega
        · exact hk
      rw [encode_of_le (by omega), List.cons_append, decode, toNat_ofNat_lt (by omega),
        if_neg (by omega), ih hk (by rw [Nat.div_lt_iff_lt_mul (by decide)]; rwa [pow_succ] at h)]
      simp only [Option.map_some, Option.some.injEq, Prod.mk.injEq, and_true]
      omega

/-- Adding a group above the accumulator by a disjunction. -/
theorem or_shiftLeft {a s x : ℕ} (h : a < 2 ^ s) : a ||| x <<< s = a + x * 2 ^ s := by
  rw [Nat.or_comm, Nat.shiftLeft_eq, Nat.mul_comm, ← Nat.two_pow_add_eq_or_of_lt h]
  ring

/-- Setting the continuation bit. -/
theorem or_128 {x : ℕ} (h : x < 128) : 128 ||| x = 128 + x := by
  have := Nat.two_pow_add_eq_or_of_lt (i := 7) h 1
  rw [Nat.mul_one] at this
  exact this.symm

/-- The payload bits of a byte. -/
theorem and_127 (n : ℕ) : n &&& 127 = n % 128 := Nat.and_two_pow_sub_one_eq_mod n 7

/-- The mask of what is above the payload bits, in 32 bits. -/
theorem and_mask_eq_zero_iff {n : ℕ} (h : n < 2 ^ 32) : n &&& 0xffffff80 = 0 ↔ n < 128 := by
  constructor
  · intro h0
    have h1 := congrArg (· >>> 7) h0
    simp only [Nat.shiftRight_and_distrib] at h1
    rw [show 0xffffff80 >>> 7 = 2 ^ 25 - 1 from rfl, Nat.and_two_pow_sub_one_eq_mod,
      Nat.shiftRight_eq_div_pow] at h1
    omega
  · intro h1
    rw [← Nat.mod_eq_of_lt h1, ← and_127, Nat.and_assoc]
    exact Nat.and_zero n

end Varint

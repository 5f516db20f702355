import ProtoCache.Lib.Packed
import ProtoCache.ReadBack

/-!
# Counters without a population count

`Count32` and `Count64` of `include/protocache/access.h` and `CountValidSlot` of
`src/perfect_hash.cc` in a build without a population count: the fields of a word
are added up in the word, in wider and wider fields.

* `counters_agree`: they count what the counters of the other build do, and no
  addition carries from one field to the next.
-/

namespace ProtoCache

open Packed

/-- `Count32`, portable. -/
def count32Portable (v : UInt32) : ℕ :=
  let v := (v &&& 0x33333333) + ((v >>> (2 : UInt32)) &&& 0x33333333)
  let v := v + (v >>> (4 : UInt32))
  let v := (v &&& 0xf0f0f0f) + ((v >>> (8 : UInt32)) &&& 0xf0f0f0f)
  let v := v + (v >>> (16 : UInt32))
  (v &&& 0xff).toNat

/-- `Count64`, portable. -/
def count64Portable (v : UInt64) : ℕ :=
  let v := (v &&& 0x3333333333333333) + ((v >>> (2 : UInt64)) &&& 0x3333333333333333)
  let v := v + (v >>> (4 : UInt64))
  let v := (v &&& 0xf0f0f0f0f0f0f0f) + ((v >>> (8 : UInt64)) &&& 0xf0f0f0f0f0f0f0f)
  let v := v + (v >>> (16 : UInt64))
  let v := v + (v >>> (32 : UInt64))
  (v &&& 0xff).toNat

/-- `CountValidSlot`, portable. -/
def countValidSlotPortable (v : UInt64) : ℕ :=
  let v := v &&& (v >>> (1 : UInt64))
  let v := (v &&& 0x1111111111111111) + ((v >>> (2 : UInt64)) &&& 0x1111111111111111)
  let v := v + (v >>> (4 : UInt64))
  let v := v + (v >>> (8 : UInt64))
  let v := (v &&& 0xf0f0f0f0f0f0f0f) + ((v >>> (16 : UInt64)) &&& 0xf0f0f0f0f0f0f0f)
  let v := v + (v >>> (32 : UInt64))
  ((32 : UInt64) - (v &&& 0xff)).toUInt32.toNat

/-- The additions of `Count32`, with the width of the fields that are added. -/
def additions32 (v : UInt32) : List (ℕ × UInt32 × UInt32) :=
  let a := (v &&& 0x33333333, (v >>> (2 : UInt32)) &&& 0x33333333)
  let v := a.1 + a.2
  let b := (v, v >>> (4 : UInt32))
  let v := b.1 + b.2
  let c := (v &&& 0xf0f0f0f, (v >>> (8 : UInt32)) &&& 0xf0f0f0f)
  let v := c.1 + c.2
  [(4, a), (4, b), (8, c), (8, v, v >>> (16 : UInt32))]

/-- The additions of `Count64`. -/
def additions64 (v : UInt64) : List (ℕ × UInt64 × UInt64) :=
  let a := (v &&& 0x3333333333333333, (v >>> (2 : UInt64)) &&& 0x3333333333333333)
  let v := a.1 + a.2
  let b := (v, v >>> (4 : UInt64))
  let v := b.1 + b.2
  let c := (v &&& 0xf0f0f0f0f0f0f0f, (v >>> (8 : UInt64)) &&& 0xf0f0f0f0f0f0f0f)
  let v := c.1 + c.2
  let d := (v, v >>> (16 : UInt64))
  let v := d.1 + d.2
  [(4, a), (4, b), (8, c), (8, d), (8, v, v >>> (32 : UInt64))]

/-- The additions of `CountValidSlot`. -/
def additionsSlot (v : UInt64) : List (ℕ × UInt64 × UInt64) :=
  let v := v &&& (v >>> (1 : UInt64))
  let a := (v &&& 0x1111111111111111, (v >>> (2 : UInt64)) &&& 0x1111111111111111)
  let v := a.1 + a.2
  let b := (v, v >>> (4 : UInt64))
  let v := b.1 + b.2
  let c := (v, v >>> (8 : UInt64))
  let v := c.1 + c.2
  let d := (v &&& 0xf0f0f0f0f0f0f0f, (v >>> (16 : UInt64)) &&& 0xf0f0f0f0f0f0f0f)
  let v := d.1 + d.2
  [(4, a), (4, b), (4, c), (8, d), (8, v, v >>> (32 : UInt64))]

/-- Each field of a sum is the sum of the fields: there is no carry. -/
def NoCarry (b x y sum : ℕ) : Prop := ∀ i, field b sum i = field b x i + field b y i

/-- `Count32` adds up the pairs of bits of a number, without a carry. -/
theorem count32Portable_eq (v : UInt32) : count32Portable v = TwoBit.digitSum v.toNat 16 ∧
    ∀ a ∈ additions32 v, NoCarry a.1 a.2.1.toNat a.2.2.toNat (a.2.1 + a.2.2).toNat := by
  have hm3 : ∀ i < 8, field (2 * 2) 0x33333333 i = 2 ^ 2 - 1 := by decide
  have hmf : ∀ i < 4, field (4 * 2) 0xf0f0f0f i = 2 ^ 4 - 1 := by decide
  have hv := v.toNat_lt
  obtain ⟨ha, hav⟩ := foldStep_spec (w := 32) (n := 8) (j := 1) rfl hm3 (by decide) (by decide)
    (below_self 2 v.toNat) (by decide)
  obtain ⟨hb, hbv⟩ :=
    addStep_spec (w := 32) (n := 8) (b := 4) (j := 1) rfl ha.below (by decide) (step_lt 32 _)
  obtain ⟨hc, hcv⟩ :=
    foldStep_spec (w := 32) (n := 4) (b := 4) (j := 2) rfl hmf (by decide) (by decide)
    hb.below (by decide)
  obtain ⟨hd, hdv⟩ :=
    addStep_spec (w := 32) (n := 4) (b := 8) (j := 2) rfl hc.below (by decide) (step_lt 32 _)
  constructor
  · have hcount : count32Portable v = field 8 (addStep 32 (8 * 2) (foldStep 32 0xf0f0f0f (4 * 2)
        (addStep 32 (4 * 1) (foldStep 32 0x33333333 (2 * 1) v.toNat)))) 0 := by
      simp only [count32Portable, UInt32.toNat_and, UInt32.toNat_add, UInt32.toNat_shiftRight,
        UInt32.reduceToNat, addStep, foldStep, field, Nat.mul_zero, pow_zero, Nat.div_one]
      exact Nat.and_two_pow_sub_one_eq_mod _ 8
    rw [hcount, hdv, hcv 0 (by decide), hcv 2 (by decide)]
    simp (disch := decide) only [hbv, hav]
    simp only [TwoBit.digitSum, field]
    norm_num
    ring
  · rw [additions32]
    simp only [List.forall_mem_cons, List.not_mem_nil, false_imp_iff, implies_true, and_true,
      NoCarry, UInt32.toNat_add, UInt32.toNat_and, UInt32.toNat_shiftRight, UInt32.reduceToNat]
    exact ⟨ha.field_eq, hb.field_eq, hc.field_eq, hd.field_eq⟩

/-- `Count64` adds up the pairs of bits of a number, without a carry. -/
theorem count64Portable_eq (v : UInt64) : count64Portable v = TwoBit.digitSum v.toNat 32 ∧
    ∀ a ∈ additions64 v, NoCarry a.1 a.2.1.toNat a.2.2.toNat (a.2.1 + a.2.2).toNat := by
  have hm3 : ∀ i < 16, field (2 * 2) 0x3333333333333333 i = 2 ^ 2 - 1 := by decide
  have hmf : ∀ i < 8, field (4 * 2) 0xf0f0f0f0f0f0f0f i = 2 ^ 4 - 1 := by decide
  have hv := v.toNat_lt
  obtain ⟨ha, hav⟩ := foldStep_spec (w := 64) (n := 16) (j := 1) rfl hm3 (by decide) (by decide)
    (below_self 2 v.toNat) (by decide)
  obtain ⟨hb, hbv⟩ :=
    addStep_spec (w := 64) (n := 16) (b := 4) (j := 1) rfl ha.below (by decide) (step_lt 64 _)
  obtain ⟨hc, hcv⟩ :=
    foldStep_spec (w := 64) (n := 8) (b := 4) (j := 2) rfl hmf (by decide) (by decide)
    hb.below (by decide)
  obtain ⟨hd, hdv⟩ :=
    addStep_spec (w := 64) (n := 8) (b := 8) (j := 2) rfl hc.below (by decide) (step_lt 64 _)
  obtain ⟨he, hev⟩ :=
    addStep_spec (w := 64) (n := 8) (b := 8) (j := 4) rfl hd.below (by decide) (step_lt 64 _)
  constructor
  · have hcount : count64Portable v =
      field 8 (addStep 64 (8 * 4) (addStep 64 (8 * 2) (foldStep 64 0xf0f0f0f0f0f0f0f (4 * 2)
          (addStep 64 (4 * 1) (foldStep 64 0x3333333333333333 (2 * 1) v.toNat))))) 0 := by
      simp only [count64Portable, UInt64.toNat_and, UInt64.toNat_add, UInt64.toNat_shiftRight,
        UInt64.reduceToNat, addStep, foldStep, field, Nat.mul_zero, pow_zero, Nat.div_one]
      exact Nat.and_two_pow_sub_one_eq_mod _ 8
    rw [hcount, hev]
    simp only [hdv]
    simp (disch := decide) only [hcv, hbv, hav]
    simp only [TwoBit.digitSum, field]
    norm_num
    ring
  · rw [additions64]
    simp only [List.forall_mem_cons, List.not_mem_nil, false_imp_iff, implies_true, and_true,
      NoCarry, UInt64.toNat_add, UInt64.toNat_and, UInt64.toNat_shiftRight, UInt64.reduceToNat]
    exact ⟨ha.field_eq, hb.field_eq, hc.field_eq, hd.field_eq, he.field_eq⟩

/-- The low bit of a pair, once both its bits are taken together. -/
theorem field_and_half (v k : ℕ) :
    field 1 (v &&& v >>> 1) (2 * k) = if v / 4 ^ k % 4 = 3 then 1 else 0 := by
  have hbit : field 1 (v &&& v >>> 1) (2 * k) = ((v &&& v >>> 1).testBit (2 * k)).toNat := by
    rw [Nat.toNat_testBit, field, Nat.one_mul, pow_one]
  rw [hbit, Nat.testBit_and, Nat.testBit_shiftRight, Nat.add_comm 1]
  simp only [div_mod_four_eq_three]
  cases v.testBit (2 * k) <;> cases v.testBit (2 * k + 1) <;> rfl

/-- `CountValidSlot` counts the cells that are not set, without a carry. -/
theorem countValidSlotPortable_eq (v : UInt64) :
    countValidSlotPortable v = 32 - Nat.count (fun k => v.toNat / 4 ^ k % 4 = 3) 32 ∧
      ∀ a ∈ additionsSlot v, NoCarry a.1 a.2.1.toNat a.2.2.toNat (a.2.1 + a.2.2).toNat := by
  have hm1 : ∀ i < 16, field (1 * 4) 0x1111111111111111 i = 2 ^ 1 - 1 := by decide
  have hmf : ∀ i < 8, field (4 * 2) 0xf0f0f0f0f0f0f0f i = 2 ^ 4 - 1 := by decide
  -- Each line adds the fields of one width in pairs, and no field overflows.
  obtain ⟨ha, hav⟩ := foldStep_spec (w := 64) (n := 16) (j := 2) rfl hm1 (by decide) (by decide)
    (below_self 1 (v.toNat &&& v.toNat >>> 1)) (by decide)
  obtain ⟨hb, hbv⟩ :=
    addStep_spec (w := 64) (n := 16) (b := 4) (j := 1) rfl ha.below (by decide) (step_lt 64 _)
  obtain ⟨hc, hcv⟩ :=
    addStep_spec (w := 64) (n := 16) (b := 4) (j := 2) rfl hb.below (by decide) (step_lt 64 _)
  obtain ⟨hd, hdv⟩ :=
    foldStep_spec (w := 64) (n := 8) (b := 4) (j := 4) rfl hmf (by decide) (by decide)
    hc.below (by decide)
  obtain ⟨he, hev⟩ :=
    addStep_spec (w := 64) (n := 8) (b := 8) (j := 4) rfl hd.below (by decide) (step_lt 64 _)
  constructor
  · have hsum : field 8
      (addStep 64 (8 * 4) (foldStep 64 0xf0f0f0f0f0f0f0f (4 * 4) (addStep 64 (4 * 2) (addStep 64
          (4 * 1) (foldStep 64 0x1111111111111111 (1 * 2) (v.toNat &&& v.toNat >>> 1)))))) 0 =
        Nat.count (fun k => v.toNat / 4 ^ k % 4 = 3) 32 := by
      rw [hev]
      simp (disch := decide) only [hdv, hcv, hbv, hav]
      simp only [Nat.count_succ, Nat.count_zero, ← field_and_half]
      norm_num
      ring
    have hslots (x : UInt64)
      (h : field 8 x.toNat 0 = Nat.count (fun k => v.toNat / 4 ^ k % 4 = 3) 32) :
        ((32 : UInt64) - (x &&& 0xff)).toUInt32.toNat =
          32 - Nat.count (fun k => v.toNat / 4 ^ k % 4 = 3) 32 := by
      have hle := Nat.count_le (fun k => v.toNat / 4 ^ k % 4 = 3) (n := 32)
      have hx : (x &&& 0xff).toNat = Nat.count (fun k => v.toNat / 4 ^ k % 4 = 3) 32 := by
        rw [← h, UInt64.toNat_and, field, Nat.mul_zero, pow_zero, Nat.div_one]
        exact Nat.and_two_pow_sub_one_eq_mod _ 8
      rw [UInt64.toNat_toUInt32,
        UInt64.toNat_sub_of_le _ _ (UInt64.le_iff_toNat_le.2 (by rw [hx]; exact hle)), hx]
      exact Nat.mod_eq_of_lt ((Nat.sub_le _ _).trans_lt (by decide))
    refine hslots _ ?_
    rw [← hsum]
    simp only [UInt64.toNat_and, UInt64.toNat_add, UInt64.toNat_shiftRight, UInt64.reduceToNat,
      addStep, foldStep]
  · rw [additionsSlot]
    simp only [List.forall_mem_cons, List.not_mem_nil, false_imp_iff, implies_true, and_true,
      NoCarry, UInt64.toNat_add, UInt64.toNat_and, UInt64.toNat_shiftRight, UInt64.reduceToNat]
    exact ⟨ha.field_eq, hb.field_eq, hc.field_eq, hd.field_eq, he.field_eq⟩

/-- The counters of both builds agree: `Count32` and `Count64` are the sums of the pairs of
    bits, `CountValidSlot` is 32 minus the number of pairs that are 3, and no addition in
    the portable ones carries from a field to the next. -/
theorem counters_agree :
    (∀ v : UInt32, count32Portable v = TwoBit.digitSum v.toNat 16 ∧ count32Portable v = count32 v ∧
      ∀ a ∈ additions32 v, NoCarry a.1 a.2.1.toNat a.2.2.toNat (a.2.1 + a.2.2).toNat) ∧
    (∀ v : UInt64, count64Portable v = TwoBit.digitSum v.toNat 32 ∧ count64Portable v = count64 v ∧
      ∀ a ∈ additions64 v, NoCarry a.1 a.2.1.toNat a.2.2.toNat (a.2.1 + a.2.2).toNat) ∧
    ∀ v : UInt64, countValidSlotPortable v = 32 - Nat.count (fun k => v.toNat / 4 ^ k % 4 = 3) 32 ∧
      countValidSlotPortable v = countValidSlot v ∧
      ∀ a ∈ additionsSlot v, NoCarry a.1 a.2.1.toNat a.2.2.toNat (a.2.1 + a.2.2).toNat := by
  refine ⟨fun v => ?_, fun v => ?_, fun v => ?_⟩
  · obtain ⟨h, hc⟩ := count32Portable_eq v
    exact ⟨h, h.trans (count32_eq v).symm, hc⟩
  · obtain ⟨h, hc⟩ := count64Portable_eq v
    exact ⟨h, h.trans (count64_eq v).symm, hc⟩
  · obtain ⟨h, hc⟩ := countValidSlotPortable_eq v
    refine ⟨h, ?_, hc⟩
    have := Rank.count_add_count_not (p := fun k => v.toNat / 4 ^ k % 4 = 3) 32
    rw [h, countValidSlot_eq]
    simp only [← div_mod_four_eq_three]
    omega

end ProtoCache

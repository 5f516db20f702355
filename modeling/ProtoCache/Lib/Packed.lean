import Mathlib.Data.Nat.Bitwise

/-!
# Numbers in the fields of a word

A number whose digits in base `2 ^ b` are numbers of their own (`Packed.field`).
Two such numbers are added field by field as long as no field overflows.

* `field_add`, `add_lt`: an addition without a carry;
* `field_and`, `field_shiftRight`: masks and shifts;
* `foldStep_spec`, `addStep_spec`: adding to each field one of those behind it, in
  wider fields or in the same.
-/

namespace Packed

/-- The field `i` of a number, in fields of `b` bits. -/
def field (b v i : ℕ) : ℕ := v / 2 ^ (b * i) % 2 ^ b

variable {b : ℕ} {x y : ℕ}

theorem field_lt (b v i : ℕ) : field b v i < 2 ^ b := Nat.mod_lt _ (Nat.pow_pos (by decide))

/-- There is nothing in the fields behind the number. -/
theorem field_eq_zero {n i : ℕ} (h : x < 2 ^ (b * n)) (hi : n ≤ i) : field b x i = 0 := by
  rw [field, Nat.div_eq_of_lt, Nat.zero_mod]
  exact h.trans_le (Nat.pow_le_pow_right (by decide) (Nat.mul_le_mul_left b hi))

/-- The low fields of a number, and the next one. -/
theorem mod_succ (b v i : ℕ) :
    v % 2 ^ (b * (i + 1)) = v % 2 ^ (b * i) + 2 ^ (b * i) * field b v i := by
  rw [Nat.mul_succ, pow_add, Nat.mod_mul, field]

/-- Without a carry, the low fields of two numbers do not overflow. -/
theorem mod_add_mod_lt (h : ∀ i, field b x i + field b y i < 2 ^ b) (i : ℕ) :
    x % 2 ^ (b * i) + y % 2 ^ (b * i) < 2 ^ (b * i) := by
  induction i with
  | zero => simp [Nat.mod_one]
  | succ i ih =>
    have hi : field b x i + field b y i + 1 ≤ 2 ^ b := h i
    have hmul := Nat.mul_le_mul_left (2 ^ (b * i)) hi
    rw [mod_succ, mod_succ, Nat.mul_succ, pow_add]
    rw [Nat.mul_add, Nat.mul_add, Nat.mul_one] at hmul
    omega

/-- Without a carry, the fields are added on their own. -/
theorem field_add (h : ∀ i, field b x i + field b y i < 2 ^ b) (i : ℕ) :
    field b (x + y) i = field b x i + field b y i := by
  have hi := h i
  rw [field, Nat.add_div (Nat.pow_pos (by decide)), if_neg (Nat.not_le_of_lt (mod_add_mod_lt h i)),
    Nat.add_zero, Nat.add_mod]
  exact Nat.mod_eq_of_lt hi

/-- Without a carry, the sum has no more fields than the numbers. -/
theorem add_lt {n : ℕ} (h : ∀ i, field b x i + field b y i < 2 ^ b) (hx : x < 2 ^ (b * n))
    (hy : y < 2 ^ (b * n)) : x + y < 2 ^ (b * n) := by
  have := mod_add_mod_lt h n
  rwa [Nat.mod_eq_of_lt hx, Nat.mod_eq_of_lt hy] at this

/-- Nor does it change when it is cut to the size of a word. -/
theorem field_add_mod {n w : ℕ} (hw : b * n = w) (h : ∀ i, field b x i + field b y i < 2 ^ b)
    (hx : x < 2 ^ w) (hy : y < 2 ^ w) (i : ℕ) :
    field b ((x + y) % 2 ^ w) i = field b x i + field b y i := by
  subst hw
  rw [Nat.mod_eq_of_lt (add_lt h hx hy), field_add h]

theorem field_shiftRight (b x j i : ℕ) : field b (x >>> (b * j)) i = field b x (i + j) := by
  rw [field, field, Nat.shiftRight_eq_div_pow, Nat.div_div_eq_div_mul, ← pow_add, ← Nat.mul_add,
    Nat.add_comm]

/-- A mask that keeps the first of `q` fields each time. -/
theorem field_and {m q i : ℕ} (hm : field (b * q) m i = 2 ^ b - 1) (hq : 0 < q) :
    field (b * q) (x &&& m) i = field b x (q * i) := by
  rw [field, ← Nat.shiftRight_eq_div_pow, Nat.shiftRight_and_distrib, Nat.and_mod_two_pow,
    Nat.shiftRight_eq_div_pow, Nat.shiftRight_eq_div_pow]
  rw [field] at hm
  rw [hm, Nat.and_two_pow_sub_one_eq_mod,
    Nat.mod_mod_of_dvd _ (pow_dvd_pow 2 (Nat.le_mul_of_pos_right b hq)), field, Nat.mul_assoc]

/-! ## Bounds on the fields -/

/-- No field of the number is above `c`. -/
def Below (b c x : ℕ) : Prop := ∀ i, field b x i ≤ c

theorem below_self (b x : ℕ) : Below b (2 ^ b - 1) x :=
  fun i => Nat.le_sub_one_of_lt (field_lt b x i)

namespace Below

variable {c d : ℕ}

theorem sum_lt (hx : Below b c x) (hy : Below b d y) (hcd : c + d < 2 ^ b) (i : ℕ) :
    field b x i + field b y i < 2 ^ b := (Nat.add_le_add (hx i) (hy i)).trans_lt hcd

theorem add_mod {n w : ℕ} (hw : b * n = w) (hx : Below b c x) (hy : Below b d y)
    (hcd : c + d < 2 ^ b) (hxw : x < 2 ^ w) (hyw : y < 2 ^ w) : Below b (c + d) ((x + y) % 2 ^ w) :=
  fun i => by
  rw [field_add_mod hw (hx.sum_lt hy hcd) hxw hyw]
  exact Nat.add_le_add (hx i) (hy i)

theorem shiftRight (hx : Below b c x) (j : ℕ) : Below b c (x >>> (b * j)) := fun i => by
  rw [field_shiftRight]
  exact hx (i + j)

theorem and {m q n : ℕ} (hx : Below b c x) (hm : ∀ i < n, field (b * q) m i = 2 ^ b - 1)
    (hq : 0 < q) (hn : m < 2 ^ (b * q * n)) : Below (b * q) c (x &&& m) := fun i => by
  rcases Nat.lt_or_ge i n with hi | hi
  · rw [field_and (hm i hi) hq]
    exact hx (q * i)
  · rw [field_eq_zero (Nat.and_le_right.trans_lt hn) hi]
    exact Nat.zero_le c

end Below

/-! ## Adding the fields of a word -/

/-- The fields of two numbers are added on their own, to `c` at most. -/
structure Added (b c x y sum : ℕ) : Prop where
  field_eq : ∀ i, field b sum i = field b x i + field b y i
  below : Below b c sum

/-- Adding to each field of a word of `w` bits one behind it. -/
def addStep (w s v : ℕ) : ℕ := (v + v >>> s) % 2 ^ w

/-- Adding to each field that a mask leaves one behind it. -/
def foldStep (w m s v : ℕ) : ℕ := ((v &&& m) + (v >>> s &&& m)) % 2 ^ w

variable {c w n j v : ℕ}

theorem addStep_spec (hw : b * n = w) (hv : Below b c v) (hc : c + c < 2 ^ b) (hvw : v < 2 ^ w) :
    Added b (c + c) v (v >>> (b * j)) (addStep w (b * j) v) ∧
      ∀ i, field b (addStep w (b * j) v) i = field b v i + field b v (i + j) := by
  have hs : v >>> (b * j) < 2 ^ w := by
    rw [Nat.shiftRight_eq_div_pow]
    exact (Nat.div_le_self _ _).trans_lt hvw
  have hadd := field_add_mod hw (hv.sum_lt (hv.shiftRight j) hc) hvw hs
  refine ⟨⟨hadd, hv.add_mod hw (hv.shiftRight j) hc hvw hs⟩, fun i => ?_⟩
  rw [addStep, hadd, field_shiftRight]

theorem foldStep_spec {q m : ℕ} (hw : b * q * n = w) (hm : ∀ i < n, field (b * q) m i = 2 ^ b - 1)
    (hq : 0 < q) (hmw : m < 2 ^ w) (hv : Below b c v) (hc : c + c < 2 ^ (b * q)) :
    Added (b * q) (c + c) (v &&& m) (v >>> (b * j) &&& m) (foldStep w m (b * j) v) ∧
      ∀ i < n, field (b * q) (foldStep w m (b * j) v) i = field b v (q * i) +
        field b v (q * i + j) := by
  have hx := hv.and hm hq (by rwa [hw])
  have hy := (hv.shiftRight j).and hm hq (by rwa [hw])
  have hxw : v &&& m < 2 ^ w := Nat.and_le_right.trans_lt hmw
  have hyw : v >>> (b * j) &&& m < 2 ^ w := Nat.and_le_right.trans_lt hmw
  have hadd := field_add_mod hw (hx.sum_lt hy hc) hxw hyw
  refine ⟨⟨hadd, hx.add_mod hw hy hc hxw hyw⟩, fun i hi => ?_⟩
  rw [foldStep, hadd, field_and (hm i hi) hq, field_and (hm i hi) hq, field_shiftRight]

theorem step_lt (w v : ℕ) : v % 2 ^ w < 2 ^ w := Nat.mod_lt _ (Nat.pow_pos (by decide))

end Packed

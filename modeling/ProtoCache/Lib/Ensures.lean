import Mathlib.Data.List.Range
import Mathlib.Logic.Basic

/-!
# Outcomes that keep to a rule

`Outcome.Ensures E P x`: the call `x` has a result with `P`, or it stops in a way that
`E` allows. The rules follow the constructs of a call: a result, a stop, one call after
another, a loop over a list with an invariant.
-/

namespace Outcome

universe u

variable {ε : Type*} {α β : Type u} {E : ε → Prop}

/-- The result has `P`, and a call without one stops as `E` allows. -/
def Ensures (E : ε → Prop) (P : α → Prop) : Except ε α → Prop
  | .error e => E e
  | .ok a => P a

@[simp] theorem ensures_ok {P : α → Prop} {a : α} : Ensures E P (.ok a) ↔ P a := Iff.rfl

@[simp] theorem ensures_pure {P : α → Prop} {a : α} : Ensures E P (pure a) ↔ P a := Iff.rfl

/-- A first call gives its result to the second. -/
theorem bind_of_ok {x : Except ε α} {f : α → Except ε β} {a : α} (h : x = .ok a) :
    (x >>= f) = f a := by
  rw [h]
  rfl

/-- A first call, and one with its result, give a result together. -/
theorem bind_eq_ok_iff {x : Except ε α} {f : α → Except ε β} {b : β} :
    (x >>= f) = .ok b ↔ ∃ a, x = .ok a ∧ f a = .ok b := by
  cases x with
  | error e => exact ⟨fun h => (by cases h), fun ⟨a, h, _⟩ => (by cases h)⟩
  | ok a => exact ⟨fun h => ⟨a, rfl, h⟩, fun ⟨a', h, h'⟩ => (by cases h; exact h')⟩

@[simp] theorem ensures_error {P : α → Prop} {e : ε} : Ensures E P (.error e) ↔ E e := Iff.rfl

namespace Ensures

variable {P : α → Prop} {Q : β → Prop} {x : Except ε α}

/-- One call after another: the second has what the first ensures. -/
theorem bind {f : α → Except ε β} (h : Ensures E P x) (hf : ∀ a, P a → Ensures E Q (f a)) :
    Ensures E Q (x >>= f) := by
  cases x with
  | error e => exact h
  | ok a => exact hf a h

/-- A first call with a known result. -/
theorem bind_eq {f : α → Except ε β} {a : α} (h : x = .ok a) (hf : Ensures E Q (f a)) :
    Ensures E Q (x >>= f) := by
  rw [h]
  exact hf

theorem mono {P' : α → Prop} (h : Ensures E P x) (hP : ∀ a, P a → P' a) : Ensures E P' x := by
  cases x with
  | error e => exact h
  | ok a => exact hP a h

/-- The rule of consequence, for the stops as well. -/
theorem conseq {E' : ε → Prop} {P' : α → Prop} (h : Ensures E P x) (hE : ∀ e, E e → E' e)
    (hP : ∀ a, P a → P' a) : Ensures E' P' x := by
  cases x with
  | error e => exact hE e h
  | ok a => exact hP a h

/-- The other stops do not occur. -/
theorem stops {e : ε} (h : Ensures E P x) (he : ¬E e) : x ≠ .error e := by
  rintro rfl
  exact he h

/-- What is known of a result. -/
theorem of_ok {a : α} (h : Ensures E P x) (ha : x = .ok a) : P a := by
  rw [ha] at h
  exact h

/-- A loop keeps an invariant that each of its steps keeps. -/
theorem foldlM {I : β → Prop} {f : β → α → Except ε β} {l : List α} {b : β} (hb : I b)
    (hf : ∀ a ∈ l, ∀ b, I b → Ensures E I (f b a)) : Ensures E I (l.foldlM f b) := by
  induction l generalizing b with
  | nil => exact hb
  | cons a l ih =>
    rw [List.foldlM_cons]
    refine (hf a List.mem_cons_self b hb).bind fun b' hb' => ?_
    exact ih hb' fun a' ha' => hf a' (List.mem_cons_of_mem a ha')

/-- A loop over the numbers below `n`, with an invariant for each round. -/
theorem foldlM_range {I : ℕ → β → Prop} {f : β → ℕ → Except ε β} {n : ℕ} {b : β} (hb : I 0 b)
    (hf : ∀ k < n, ∀ b, I k b → Ensures E (I (k + 1)) (f b k)) :
    Ensures E (I n) ((List.range n).foldlM f b) := by
  induction n with
  | zero => exact hb
  | succ n ih =>
    rw [List.range_succ, List.foldlM_append]
    refine (ih fun k hk => hf k (Nat.lt_succ_of_lt hk)).bind fun b' hb' => ?_
    rw [List.foldlM_cons]
    exact (hf n (Nat.lt_succ_self n) b' hb').bind fun b'' hb'' => hb''

end Ensures

end Outcome

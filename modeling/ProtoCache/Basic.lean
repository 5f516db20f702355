import Mathlib

/-!
# Outcomes

A call of the code ends in a result, or stops without one (`Stop`): it returns
`false`, or it leaves the memory it may use. What follows an access outside the
memory is undefined in the source, so the model stops there; a safety result
says that it never does.

Also here: what is used of single bytes (`forall_byte`) and of the largest of some
numbers (`le_foldl_max`).
-/

namespace ProtoCache

/-- Why a call stops without a result. -/
inductive Stop
  /-- The function returns `false` (or throws). -/
  | reject
  /-- A load or a store outside the memory of the call. -/
  | fault
  /-- The recursion bound of the model is used up. -/
  | fuel
  deriving DecidableEq, Repr

/-- The outcome of a call. -/
abbrev Res (α : Type) := Except Stop α

/-- The outcome of an access to memory: undefined is a fault. -/
def access {α : Type} : Option α → Res α
  | some a => .ok a
  | none => .error .fault

@[simp] theorem access_some {α : Type} (a : α) : access (some a) = .ok a := rfl
@[simp] theorem access_none {α : Type} : access (none : Option α) = .error .fault := rfl

theorem access_eq_ok {α : Type} {o : Option α} {a : α} : access o = .ok a ↔ o = some a := by
  cases o <;> simp

namespace Res

variable {α β : Type}

@[simp] theorem ok_bind (a : α) (f : α → Res β) : (Except.ok a >>= f : Res β) = f a := rfl

@[simp] theorem error_bind (e : Stop) (f : α → Res β) :
    (Except.error e >>= f : Res β) = .error e := rfl

@[simp] theorem pure_eq (a : α) : (pure a : Res α) = .ok a := rfl

/-- A sequence of two calls has a result when both have. -/
theorem bind_eq_ok {x : Res α} {f : α → Res β} {b : β} :
    x >>= f = .ok b ↔ ∃ a, x = .ok a ∧ f a = .ok b := by
  cases x with
  | error e => simp
  | ok a => simp

end Res

/-- A property of all bytes, checked on each. -/
theorem forall_byte {P : UInt8 → Prop} (h : ∀ i : Fin 256, P (UInt8.ofNat i)) (b : UInt8) :
    P b := by
  have := h ⟨b.toNat, b.toNat_lt⟩
  rwa [show UInt8.ofNat b.toNat = b from UInt8.ofNat_toNat] at this

/-- The largest of some numbers is no less than any of them. -/
theorem le_foldl_max {n : ℕ} {ns : List ℕ} (a : ℕ) (h : n ∈ ns) : n ≤ ns.foldl max a := by
  rw [List.foldl_max_eq_max (List.ne_nil_of_mem h)]
  exact (List.le_max_of_mem h).trans (le_max_right _ _)

end ProtoCache

import Mathlib.Data.List.Forall2
import Mathlib.Data.List.OfFn

/-!
# Lists related element by element

What `List.Forall₂` says of single elements, by membership and by index.
-/

namespace Pointwise

variable {α β : Type*} {R : α → β → Prop}

/-- Every element on the right has one on the left. -/
theorem exists_left {l : List α} {l' : List β} (h : List.Forall₂ R l l') {b : β} (hb : b ∈ l') :
    ∃ a ∈ l, R a b := by
  induction h with
  | nil => exact absurd hb List.not_mem_nil
  | @cons a b' l l' hab _ ih =>
    rcases List.mem_cons.1 hb with rfl | hb
    · exact ⟨a, List.mem_cons_self, hab⟩
    · obtain ⟨a', ha', hr⟩ := ih hb
      exact ⟨a', List.mem_cons_of_mem _ ha', hr⟩

/-- Every element on the left has one on the right. -/
theorem exists_right {l : List α} {l' : List β} (h : List.Forall₂ R l l') {a : α} (ha : a ∈ l) :
    ∃ b ∈ l', R a b := exists_left h.flip ha

/-- What holds of every element on the right holds of the pairs. -/
theorem and_right {l : List α} {l' : List β} {P : β → Prop} (h : List.Forall₂ R l l')
    (hP : ∀ b ∈ l', P b) : List.Forall₂ (fun a b => R a b ∧ P b) l l' := by
  induction h with
  | nil => exact .nil
  | cons hab _ ih =>
    exact .cons ⟨hab, hP _ List.mem_cons_self⟩ (ih fun b hb => hP b (List.mem_cons_of_mem _ hb))

/-- Functions that agree on the pairs make the same list of both. -/
theorem map_eq {γ : Type*} {l : List α} {l' : List β} {f : α → γ} {g : β → γ}
    (h : List.Forall₂ R l l') (hfg : ∀ a ∈ l, ∀ b, R a b → f a = g b) : l.map f = l'.map g := by
  induction h with
  | nil => rfl
  | cons hab _ ih =>
    rw [List.map_cons, List.map_cons, hfg _ List.mem_cons_self _ hab,
      ih fun a ha => hfg a (.tail _ ha)]

/-- What holds of the elements of pairs together holds of all elements together. -/
theorem forall_iff {l : List α} {l' : List β} {P : α → Prop} {Q : β → Prop}
    (h : List.Forall₂ R l l') (hPQ : ∀ a b, R a b → (P a ↔ Q b)) :
    (∀ a ∈ l, P a) ↔ ∀ b ∈ l', Q b := by
  induction h with
  | nil => simp
  | cons hab _ ih => rw [List.forall_mem_cons, List.forall_mem_cons, hPQ _ _ hab, ih]

theorem comp {γ : Type*} {S : β → γ → Prop} {T : α → γ → Prop} {l : List α} {l' : List β}
    {l'' : List γ} (h : List.Forall₂ R l l') (h' : List.Forall₂ S l' l'')
    (hT : ∀ a b c, R a b → S b c → T a c) :
    List.Forall₂ T l l'' := by
  induction h generalizing l'' with
  | nil =>
    cases h'
    exact .nil
  | cons hab _ ih =>
    cases h' with
    | cons hbc h' => exact .cons (hT _ _ _ hab hbc) (ih h')

/-- A list of elements that there are for each index. -/
theorem exists_list {P : ℕ → α → Prop} {n : ℕ} (h : ∀ j < n, ∃ a, P j a) :
    ∃ l : List α, l.length = n ∧ ∀ (j : ℕ) a, l[j]? = some a → P j a := by
  choose f hf using h
  refine ⟨List.ofFn fun j : Fin n => f j j.isLt, List.length_ofFn, fun j a ha => ?_⟩
  obtain ⟨hj, rfl⟩ := List.getElem?_eq_some_iff.1 ha
  rw [List.getElem_ofFn]
  exact hf j _

end Pointwise

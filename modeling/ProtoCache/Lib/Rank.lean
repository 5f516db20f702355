import Mathlib.Data.Finset.Card
import Mathlib.Data.Nat.Count

/-!
# Ranks

The rank of a place is the number of occupied places before it. If every one of
`n` owners has an occupied place of its own, and no other place is occupied,
then the ranks of their places number the owners from 0 to `n - 1`
(`Owns.bijOn`).
-/

namespace Rank

theorem count_congr {p q : ℕ → Prop} [DecidablePred p] [DecidablePred q] {n : ℕ}
    (h : ∀ k < n, p k ↔ q k) : Nat.count p n = Nat.count q n := by
  rw [Nat.count_eq_card_filter_range, Nat.count_eq_card_filter_range]
  exact congrArg _ (Finset.filter_congr fun k hk => h k (Finset.mem_range.1 hk))

/-- A count over pairs of which the second never counts. -/
theorem count_two_mul {p : ℕ → Prop} [DecidablePred p] (n : ℕ) (h : ∀ k < n, ¬p (2 * k + 1)) :
    Nat.count p (2 * n) = Nat.count (fun k => p (2 * k)) n := by
  induction n with
  | zero => rfl
  | succ n ih =>
    rw [Nat.mul_succ, Nat.count_succ, Nat.count_succ, Nat.count_succ,
      ih fun k hk => h k (by omega), if_neg (h n (by omega)), Nat.add_zero]

theorem count_add_count_not {p : ℕ → Prop} [DecidablePred p] (n : ℕ) :
    Nat.count p n + Nat.count (fun k => ¬p k) n = n := by
  induction n with
  | zero => rfl
  | succ n ih =>
    rw [Nat.count_succ, Nat.count_succ]
    split <;> omega


/-- Nothing counts from `b` on. -/
theorem count_eq_of_le {p : ℕ → Prop} [DecidablePred p] {b n : ℕ} (hb : b ≤ n)
    (h : ∀ k < n, b ≤ k → ¬p k) : Nat.count p n = Nat.count p b := by
  obtain ⟨c, rfl⟩ := Nat.exists_eq_add_of_le hb
  rw [Nat.count_add, Nat.count_iff_forall_not.2 fun k hk => h (b + k) (by omega) (by omega),
    Nat.add_zero]

/-- The numbers below `n` own the places below `N` where `P` holds, each one of its
    own. -/
structure Owns (P : ℕ → Prop) (N n : ℕ) (own : ℕ → ℕ) : Prop where
  lt : ∀ e < n, own e < N
  holds : ∀ e < n, P (own e)
  inj : ∀ e < n, ∀ e' < n, own e = own e' → e = e'
  onto : ∀ p < N, P p → ∃ e < n, p = own e

variable {P : ℕ → Prop} [DecidablePred P] {N n : ℕ} {own : ℕ → ℕ}

/-- There are as many occupied places as owners. -/
theorem Owns.count_eq (h : Owns P N n own) : Nat.count P N = n := by
  have himage : (Finset.range N).filter P = (Finset.range n).image own := by
    ext p
    simp only [Finset.mem_filter, Finset.mem_range, Finset.mem_image]
    constructor
    · rintro ⟨hp, hP⟩
      obtain ⟨e, he, rfl⟩ := h.onto p hp hP
      exact ⟨e, he, rfl⟩
    · rintro ⟨e, he, rfl⟩
      exact ⟨h.lt e he, h.holds e he⟩
  have hinj : Set.InjOn own (Finset.range n) := fun e he e' he' =>
    h.inj e (Finset.mem_range.1 he) e' (Finset.mem_range.1 he')
  rw [Nat.count_eq_card_filter_range, himage, Finset.card_image_of_injOn hinj, Finset.card_range]

/-- The ranks of the places number the owners. -/
theorem Owns.bijOn (h : Owns P N n own) :
    Set.BijOn (fun e => Nat.count P (own e)) (Set.Iio n) (Set.Iio n) := by
  have hmaps : Set.MapsTo (fun e => Nat.count P (own e)) (Set.Iio n) (Set.Iio n) := fun e he => by
    have := Nat.count_strict_mono (h.holds e he) (h.lt e he)
    rwa [h.count_eq] at this
  have hinj : Set.InjOn (fun e => Nat.count P (own e)) (Set.Iio n) := fun e he e' he' heq =>
    h.inj e he e' he' (Nat.count_injective (h.holds e he) (h.holds e' he') heq)
  refine ⟨hmaps, hinj, ?_⟩
  rw [← Finset.coe_range] at *
  exact Finset.surjOn_of_injOn_of_card_le _ hmaps hinj le_rfl

/-- Numbers given to the entries of a list, each entry its own, are numbers of
    distinct keys. -/
theorem nodup_and_bijOn {α : Type*} {keys : List α} (d : α) (pos : α → ℕ)
    (h : Set.BijOn (fun e => pos (keys.getD e d)) (Set.Iio keys.length) (Set.Iio keys.length)) :
    keys.Nodup ∧ Set.BijOn pos {key | key ∈ keys} (Set.Iio keys.length) := by
  have hget : ∀ e (he : e < keys.length), keys.getD e d = keys[e] := fun e he => by
    rw [List.getD_eq_getElem?_getD, List.getElem?_eq_getElem he, Option.getD_some]
  refine ⟨?_, ?_, ?_, ?_⟩
  · refine List.nodup_iff_injective_get.2 fun i j hij => Fin.ext (h.injOn i.2 j.2 ?_)
    simp only [hget i i.2, hget j j.2]
    exact congrArg pos hij
  · rintro key hkey
    obtain ⟨e, he, rfl⟩ := List.getElem_of_mem hkey
    rw [← hget e he]
    exact h.mapsTo he
  · rintro key hkey key' hkey' heq
    obtain ⟨e, he, rfl⟩ := List.getElem_of_mem hkey
    obtain ⟨e', he', rfl⟩ := List.getElem_of_mem hkey'
    rw [← hget e he, ← hget e' he'] at heq ⊢
    rw [h.injOn he he' heq]
  · rintro q hq
    obtain ⟨e, he, rfl⟩ := h.surjOn hq
    exact ⟨keys.getD e d, by rw [hget e he]; exact List.getElem_mem _, rfl⟩

end Rank

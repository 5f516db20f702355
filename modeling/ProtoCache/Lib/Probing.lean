import Mathlib.Data.Finset.Card
import Mathlib.Data.Finset.Image
import Mathlib.Data.Nat.ModEq
import Mathlib.Order.Interval.Finset.Nat

/-!
# Open addressing with linear probing

A table of `m` cells, each free or with an entry. An entry is looked for, and put,
from a cell of its own on, around the end of the table, with at most `n` probes.

* `Filled.exists_free`: as long as there are fewer than `n` entries, one of the `n`
  probes finds a free cell, whatever the entries displaced;
* `Filled.insert`: an entry that is put in the first free cell is reached, and the
  others still are;
* `Filled.found`: an entry that was put is found before any free cell.
-/

namespace Probing

variable {α : Type*}

/-- The probes from the cell `pos` on. -/
def probe (m pos j : ℕ) : ℕ := (pos + j) % m

/-- Probe `j` is the first that finds a free cell or the entry. -/
def Stops (t : ℕ → Option α) (m pos : ℕ) (a : α) (j : ℕ) : Prop :=
  (t (probe m pos j) = none ∨ t (probe m pos j) = some a) ∧
    ∀ i < j, t (probe m pos i) ≠ none ∧ t (probe m pos i) ≠ some a

/-- The entry is reached from the cell `pos` within `n` probes, over no free cell. -/
def Reached (t : ℕ → Option α) (n m pos : ℕ) (a : α) : Prop :=
  ∃ j < n, t (probe m pos j) = some a ∧ ∀ i < j, t (probe m pos i) ≠ none

/-- A table that holds entries, each with the cell it is looked for from. -/
structure Filled (t : ℕ → Option α) (n m : ℕ) (es : List (ℕ × α)) : Prop where
  card : {p ∈ Finset.range m | t p ≠ none}.card ≤ es.length
  mem : ∀ p < m, ∀ a, t p = some a → a ∈ es.map Prod.snd
  reached : ∀ e ∈ es, Reached t n m e.1 e.2

variable {t : ℕ → Option α} {n m : ℕ} {es : List (ℕ × α)}

theorem probe_lt (hm : 0 < m) (pos j : ℕ) : probe m pos j < m := Nat.mod_lt _ hm

/-- No cell is probed twice. -/
theorem probe_inj {pos i j : ℕ} (hi : i < m) (hj : j < m) (h : probe m pos i = probe m pos j) :
    i = j := by
  have hmod : i ≡ j [MOD m] := Nat.ModEq.add_left_cancel' pos h
  rwa [Nat.ModEq, Nat.mod_eq_of_lt hi, Nat.mod_eq_of_lt hj] at hmod

theorem Filled.empty (n m : ℕ) : Filled (fun _ => (none : Option α)) n m [] where
  card := by simp
  mem _ _ _ h := absurd h (by simp)
  reached _ h := absurd h List.not_mem_nil

namespace Filled

/-- There is a free cell among `n` of the table while it has fewer entries. -/
theorem exists_free (h : Filled t n m es) (hn : n ≤ m) (hes : es.length < n) (pos : ℕ) :
    ∃ j < n, t (probe m pos j) = none := by
  by_contra hfull
  push Not at hfull
  have hm : 0 < m := by omega
  have hle : (Finset.range n).card ≤ {p ∈ Finset.range m | t p ≠ none}.card := by
    refine Finset.card_le_card_of_injOn (probe m pos) (fun j hj => ?_) fun i hi j hj hij => ?_
    · have hj : j < n := by simpa using hj
      simpa using ⟨probe_lt hm pos j, hfull j hj⟩
    · have hi : i < n := by simpa using hi
      have hj : j < n := by simpa using hj
      exact probe_inj (hi.trans_le hn) (hj.trans_le hn) hij
  rw [Finset.card_range] at hle
  have := h.card
  omega

/-- So a probe stops. -/
theorem exists_stops [DecidableEq α] (h : Filled t n m es) (hn : n ≤ m) (hes : es.length < n)
    (pos : ℕ) (a : α) : ∃ j < n, Stops t m pos a j := by
  obtain ⟨k, hk, hfree⟩ := h.exists_free hn hes pos
  have hex : ∃ j, t (probe m pos j) = none ∨ t (probe m pos j) = some a := ⟨k, .inl hfree⟩
  refine ⟨Nat.find hex, (Nat.find_min' hex (.inl hfree)).trans_lt hk, Nat.find_spec hex,
    fun i hi => ?_⟩
  exact not_or.1 (Nat.find_min hex hi)

/-- An entry that was put is what a probe stops at. -/
theorem found (h : Filled t n m es) {pos j : ℕ} {a : α} (ha : (pos, a) ∈ es)
    (hj : Stops t m pos a j) :
    t (probe m pos j) = some a := by
  obtain ⟨k, hk, hka, hocc⟩ := h.reached _ ha
  rcases Nat.lt_trichotomy j k with hjk | rfl | hjk
  · exact hj.1.resolve_left (hocc j hjk)
  · exact hka
  · exact absurd hka (hj.2 k hjk).2

/-- An entry in the first free cell is reached, and it is on no way to another. -/
theorem insert [DecidableEq α] (h : Filled t n m es) {pos j : ℕ} {a : α} (hjn : j < n)
    (hj : Stops t m pos a j) (hfree : t (probe m pos j) = none) :
    Filled (Function.update t (probe m pos j) (some a)) n m ((pos, a) :: es) := by
  have hocc {p : ℕ} (hp : t p ≠ none) : Function.update t (probe m pos j) (some a) p = t p := by
    refine Function.update_of_ne (fun heq => hp ?_) _ _
    rw [heq, hfree]
  refine ⟨?_, fun p hp b hb => ?_, fun e he => ?_⟩
  · have hsub : {p ∈ Finset.range m | Function.update t (probe m pos j) (some a) p ≠ none} ⊆
        Insert.insert (probe m pos j) {p ∈ Finset.range m | t p ≠ none} := fun p hp => by
      by_cases hpj : p = probe m pos j
      · rw [hpj]
        exact Finset.mem_insert_self _ _
      · rw [Finset.mem_filter, Function.update_of_ne hpj] at hp
        exact Finset.mem_insert_of_mem (Finset.mem_filter.2 hp)
    refine (Finset.card_le_card hsub).trans ((Finset.card_insert_le _ _).trans ?_)
    exact Nat.succ_le_succ h.card
  · by_cases hpj : p = probe m pos j
    · rw [hpj, Function.update_self] at hb
      cases hb
      exact List.mem_cons_self
    · rw [Function.update_of_ne hpj] at hb
      exact List.mem_cons_of_mem _ (h.mem p hp b hb)
  · rcases List.mem_cons.1 he with rfl | he
    · refine ⟨j, hjn, Function.update_self _ _ _, fun i hi => ?_⟩
      rw [hocc (hj.2 i hi).1]
      exact (hj.2 i hi).1
    · obtain ⟨k, hk, hka, hway⟩ := h.reached e he
      refine ⟨k, hk, ?_, fun i hi => ?_⟩
      · rw [hocc (by rw [hka]; exact Option.some_ne_none _), hka]
      · rw [hocc (hway i hi)]
        exact hway i hi

end Filled

end Probing

import ProtoCache.Lib.Peeling
import ProtoCache.PerfectHash.Graph

/-!
# Tearing is peeling

The keys of a perfect hash are the edges of a hypergraph: every edge has a slot in each
third of the table. What `TearGraph` does with its linked lists is to peel it.

* `tearGraph_iff_peelable`: `TearGraph` takes all edges away exactly if they can be peeled
  to nothing, and lists them in an order that does.
-/

namespace ProtoCache

open Peeling

/-- The edge `e` has the slot `v.2` in the third `v.1`. -/
def HasSlot (slot : ℕ → Fin 3 → ℕ) (e : ℕ) (v : Fin 3 × ℕ) : Prop := slot e v.1 = v.2

variable {kEnd n : ℕ} {slot : ℕ → Fin 3 → ℕ}

/-- What is left of an order from behind is one. -/
theorem Peel.of_append {a b : List ℕ} (h : Peel n slot (a ++ b)) : Peel n slot b := by
  induction a with
  | nil => exact h
  | cons e a ih => exact ih h.2

/-- The order in which `TearGraph` takes edges away. -/
theorem Peel.order {free : List ℕ} (h : Peel n slot free.reverse) (hnd : free.Nodup)
    (hlt : ∀ e ∈ free, e < n) : Order (HasSlot slot) free := by
  rintro before e later rfl
  rw [List.reverse_append, List.reverse_cons, List.append_assoc] at h
  obtain ⟨⟨j, hj⟩, -⟩ := h.of_append
  refine ⟨(j, slot e j), rfl, fun e' he' hslot => ?_⟩
  rw [List.nodup_append, List.nodup_cons] at hnd
  obtain ⟨-, ⟨he, -⟩, hdisj⟩ := hnd
  have hne : e' ≠ e := fun h => he (h ▸ he')
  have hbefore := hj e' (hlt e' (by simp [he'])) hslot hne
  exact hdisj e' (List.mem_reverse.1 hbefore) e' (List.mem_cons_of_mem _ he') rfl

/-- The edges that are not taken away are a core. -/
theorem Tearing.core_of_settled {t : Tearing}
    (hs : ∀ j, ∀ e < n, t.Settled n slot (fun _ => t.free) j e) :
    Core (HasSlot slot) ((Finset.range n).filter (· ∉ t.free)) := by
  intro e he v hv
  obtain ⟨hlt, hfree⟩ := Finset.mem_filter.1 he
  obtain ⟨e', hlt', hne, hfree', hslot⟩ := (hs v.1 e (Finset.mem_range.1 hlt)).resolve_left hfree
  exact ⟨e', Finset.mem_filter.2 ⟨Finset.mem_range.2 hlt', hfree'⟩, hne, hslot.trans hv⟩

/-- Edges that are all taken away are peeled to nothing. -/
theorem Tearing.Inv.peelable {t : Tearing} (h : t.Inv kEnd n slot fun _ => t.free)
    (hlen : t.free.length = n) :
    Order (HasSlot slot) t.free ∧ t.free.toFinset = Finset.range n := by
  refine ⟨h.peel.order h.nodup h.free_lt, Finset.eq_of_subset_of_card_le (fun e he => ?_) ?_⟩
  · exact Finset.mem_range.2 (h.free_lt e (List.mem_toFinset.1 he))
  · rw [Finset.card_range, List.toFinset_card_of_nodup h.nodup, hlen]

/-- After `CreateGraph` of keys that get the slots `slot`, whatever these are,
    `TearGraph` takes all edges away if and only if the hypergraph can be peeled to
    nothing by taking away edges that own a vertex of degree 1. It then lists every edge
    once, in such an order. -/
theorem tearGraph_iff_peelable {hash : List UInt8 → UInt32 → V128}
    {source : List (Option (List UInt8))} {seed m : UInt32} {slot : ℕ → Fin 3 → ℕ}
    (hn : source.length ≤ kEnd) (hm : m.toNat ≤ kEnd)
    (hs : ∀ i < source.length, ∀ j, slot i j < m.toNat)
    (hkey : ∀ i key, source[i]? = some (some key) →
      ∀ j, slot i j = ((hash key seed).u32 j).toNat % m.toNat) {g g' : Graph}
    (hg : createGraph kEnd hash source seed g (Divisor.ofValue m) = some g') :
    ((tearGraph kEnd g' source.length).isSome = true ↔
      Peelable (HasSlot slot) (Finset.range source.length)) ∧
    ∀ r, tearGraph kEnd g' source.length = some r →
      r.2.Nodup ∧ (∀ e, e ∈ r.2 ↔ e < source.length) ∧ Order (HasSlot slot) r.2 := by
  have hval : (Divisor.ofValue m).val = m := by
    by_cases hm0 : m = 0
    · subst hm0; rfl
    · exact (Divisor.ofValue_spec hm0).1
  -- The remainders are those by the divisor, which is exact.
  have hkey' : ∀ i key, source[i]? = some (some key) →
      slot i = fun j => ((Divisor.ofValue m).mod ((hash key seed).u32 j)).toNat := by
    intro i key hi
    funext j
    have hm0 : m ≠ 0 := by
      rintro rfl
      exact Nat.not_lt_zero _ (hs i (List.getElem?_eq_some_iff.1 hi).1 j)
    rw [hkey i key hi, Divisor.mod_eq hm0, UInt32.toNat_mod]
  obtain ⟨hinv, hsettled⟩ := tearGraph_inv hn
    (createGraph_spec hn (hval.symm ▸ hm) (hval.symm ▸ hs) hkey' hg) rfl
  rw [tearGraph]
  generalize tearLoop kEnd source.length 0 (offerAll kEnd source.length ⟨g', [], fun _ => false⟩) =
    t
    at hinv hsettled ⊢
  split
  · rename_i hlen
    -- All edges are gone: the list of them is the order in which they can be peeled.
    obtain ⟨horder, hall⟩ := hinv.peelable hlen
    refine ⟨iff_of_true rfl (hall ▸ peelable_of_order hinv.nodup horder), fun r hr => ?_⟩
    obtain rfl := Option.some.inj hr
    refine ⟨hinv.nodup, fun e => ?_, horder⟩
    rw [← List.mem_toFinset, hall, Finset.mem_range]
  · rename_i hlen
    refine ⟨iff_of_false (by simp) fun hpeel => hlen ?_, fun r hr => by cases hr⟩
    -- What is left owns no vertex of degree 1, so nothing of it could be peeled.
    have hempty :=
      hpeel.eq_empty_of_core (Tearing.core_of_settled hsettled) (Finset.filter_subset _ _)
    have hall : List.range source.length ⊆ t.free := fun e he => by
      by_contra hfree
      have hleft : e ∈ (Finset.range source.length).filter (· ∉ t.free) :=
        Finset.mem_filter.2 ⟨Finset.mem_range.2 (List.mem_range.1 he), hfree⟩
      rw [hempty] at hleft
      exact Finset.notMem_empty e hleft
    have hle := (List.nodup_range.subperm hall).length_le
    have hge := (hinv.nodup.subperm fun e he => List.mem_range.2 (hinv.free_lt e he)).length_le
    rw [List.length_range] at hle hge
    omega

/-- Two keys without a common slot. -/
theorem tearGraph_iff_peelable_two :
    ∃ g', createGraph 255 (fun key _ => ⟨(key.headD 0).toUInt32, (key.headD 0).toUInt32,
        (key.headD 0).toUInt32, 0⟩) [some [1], some [2]] 0 ⟨fun _ _ => ⟨0, 0, 0⟩, fun _ => 0⟩
        (Divisor.ofValue 10) = some g' ∧
      ((tearGraph 255 g' 2).isSome = true ↔
        Peelable (HasSlot fun e _ => e + 1) (Finset.range 2)) ∧
      ∀ r, tearGraph 255 g' 2 = some r →
        r.2.Nodup ∧ (∀ e, e ∈ r.2 ↔ e < 2) ∧ Order (HasSlot fun e _ => e + 1) r.2 := by
  obtain ⟨g', hg⟩ : ∃ g', createGraph 255 (fun key _ => ⟨(key.headD 0).toUInt32,
      (key.headD 0).toUInt32, (key.headD 0).toUInt32, 0⟩) [some [1], some [2]] 0
      ⟨fun _ _ => ⟨0, 0, 0⟩, fun _ => 0⟩ (Divisor.ofValue 10) = some g' :=
    ⟨_, by rw [createGraph, createGraphLoop, createGraphLoop, createGraphLoop]⟩
  have hslot : ∀ i < 2, ∀ j, (fun e _ => e + 1 : ℕ → Fin 3 → ℕ) i j < (10 : UInt32).toNat :=
    fun i hi _ => Nat.lt_of_lt_of_le (Nat.succ_lt_succ hi) (by decide)
  have hpeel := @tearGraph_iff_peelable 255 _ [some [1], some [2]] 0 10 (fun e _ => e + 1)
    (by decide) (by decide) hslot (fun i key hi j => ?_) _ g' hg
  · exact ⟨g', hg, hpeel⟩
  · rcases i with _ | _ | i
    · cases hi
      revert j
      decide
    · cases hi
      revert j
      decide
    · cases hi

end ProtoCache

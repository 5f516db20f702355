import Mathlib.Data.Finset.Basic
import Mathlib.Logic.Relation

/-!
# Peeling hypergraphs

A hypergraph is a relation `inc` between edges and vertices. It is *peeled* by
taking away edges, one after the other, that own a vertex of degree 1: a vertex of no
other edge that is left (`Step`).

* `Peelable.eq_empty_of_core`: nothing of a core, a set of edges of which every vertex is
  shared, is ever taken away;
* `peelable_of_order`: edges are peeled to nothing in any order in which every edge
  has a vertex that no later edge uses (`Order`).
-/

namespace Peeling

variable {ε ν : Type*} (inc : ε → ν → Prop)

/-- Among the edges `S`, the edge `e` owns a vertex of degree 1. -/
def Free (S : Finset ε) (e : ε) : Prop := ∃ v, inc e v ∧ ∀ e' ∈ S, inc e' v → e' = e

/-- An edge that owns a vertex of degree 1 is taken away. -/
inductive Step [DecidableEq ε] : Finset ε → Finset ε → Prop
  | remove {S : Finset ε} {e : ε} (he : e ∈ S) (hfree : Free inc S e) : Step S (S.erase e)

/-- All edges can be taken away. -/
def Peelable [DecidableEq ε] (S : Finset ε) : Prop := Relation.ReflTransGen (Step inc) S ∅

/-- Every vertex of an edge of `C` is one of another edge of `C`. -/
def Core (C : Finset ε) : Prop := ∀ e ∈ C, ∀ v, inc e v → ∃ e' ∈ C, e' ≠ e ∧ inc e' v

/-- Every edge has, at its turn, a vertex that no later edge uses. -/
def Order (l : List ε) : Prop :=
  ∀ before e later, l = before ++ e :: later → ∃ v, inc e v ∧ ∀ e' ∈ later, ¬inc e' v

variable {inc}

theorem Order.tail {e : ε} {l : List ε} (h : Order inc (e :: l)) : Order inc l := by
  rintro before e' later rfl
  exact h (e :: before) e' later rfl

variable [DecidableEq ε]

/-- A step takes away no edge of a core. -/
theorem Step.core_subset {S S' C : Finset ε} (h : Step inc S S') (hcore : Core inc C) (hC : C ⊆ S) :
    C ⊆ S' := by
  obtain ⟨he, v, hv, honly⟩ := h
  intro c hc
  refine Finset.mem_erase.2 ⟨?_, hC hc⟩
  rintro rfl
  obtain ⟨e', he', hne, hv'⟩ := hcore c hc v hv
  exact hne (honly e' (hC he') hv')

/-- Edges with a core that is not empty are not peeled to nothing. -/
theorem Peelable.eq_empty_of_core {S C : Finset ε} (h : Peelable inc S) (hcore : Core inc C)
    (hC : C ⊆ S) : C = ∅ := by
  induction h using Relation.ReflTransGen.head_induction_on with
  | refl => exact Finset.subset_empty.1 hC
  | head hstep _ ih => exact ih (hstep.core_subset hcore hC)

/-- An order of the edges peels them to nothing. -/
theorem peelable_of_order {l : List ε} (hl : l.Nodup) (h : Order inc l) :
    Peelable inc l.toFinset := by
  induction l with
  | nil => exact .refl
  | cons e l ih =>
    rw [List.nodup_cons] at hl
    obtain ⟨v, hv, hlater⟩ := h [] e l rfl
    have hfree : Free inc (e :: l).toFinset e := by
      refine ⟨v, hv, fun e' he' hv' => ?_⟩
      rw [List.mem_toFinset, List.mem_cons] at he'
      exact he'.resolve_right fun hl' => hlater e' hl' hv'
    have hstep := Step.remove (List.mem_toFinset.2 List.mem_cons_self) hfree
    rw [List.toFinset_cons, Finset.erase_insert (fun h => hl.1 (List.mem_toFinset.1 h)),
      ← List.toFinset_cons] at hstep
    exact .head hstep (ih hl.2 h.tail)

end Peeling

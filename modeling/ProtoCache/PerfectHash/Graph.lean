import Mathlib.Data.Nat.Count
import ProtoCache.Lib.DoublyLinked
import ProtoCache.PerfectHash.Divisor

/-!
# The graph of the keys

Building a perfect hash, every key is an edge between three slots, one in each
third of the table. `CreateGraph` links the edges at every slot in a doubly
linked list, and `TearGraph` takes the edges away one by one, each at a time
when it is alone at one of its slots (`src/perfect_hash.cc`).

The arrays are functions of the index; what is stored in them are numbers of
the type `Word`, whose largest is the mark `kEnd`.

* `tearGraph_spec`: if all edges are taken away, their order is one in which
  every edge has a slot that no later edge uses (`Peel`, on the reversed order);
* `tearGraph_inv`: edges that are not taken away share all their slots with others of
  them.
-/

namespace ProtoCache

open DoublyLinked

/-- The three slots of a key can be written as numbers. -/
instance neZero_three : NeZero 3 := ⟨three_ne_zero⟩

/-- `V128`, as its 32-bit words. -/
structure V128 where
  u0 : UInt32
  u1 : UInt32
  u2 : UInt32
  u3 : UInt32
  deriving DecidableEq

/-- The word that chooses the slot in a third of the table. -/
def V128.u32 (code : V128) : Fin 3 → UInt32
  | 0 => code.u0
  | 1 => code.u1
  | 2 => code.u2

/-- `Vertex`. -/
structure Vertex where
  slot : ℕ
  prev : ℕ
  next : ℕ

/-- `Graph`. -/
structure Graph where
  edges : ℕ → Fin 3 → Vertex
  nodes : ℕ → ℕ

namespace Graph

/-- Storing the vertex `j` of the edge `i`. -/
def setVertex (g : Graph) (i : ℕ) (j : Fin 3) (v : Vertex) : Graph :=
  { g with edges := Function.update g.edges i (Function.update (g.edges i) j v) }

/-- Storing the first edge of a slot. -/
def setNode (g : Graph) (s i : ℕ) : Graph :=
  { g with nodes := Function.update g.nodes s i }

@[simp] theorem setNode_edges (g : Graph) (s i : ℕ) : (g.setNode s i).edges = g.edges := rfl

@[simp] theorem setVertex_nodes (g : Graph) (i : ℕ) (j : Fin 3) (v : Vertex) :
    (g.setVertex i j v).nodes = g.nodes := rfl

theorem setVertex_edges (g : Graph) (i : ℕ) (j : Fin 3) (v : Vertex) (i' : ℕ) (j' : Fin 3) :
    (g.setVertex i j v).edges i' j' = if i' = i ∧ j' = j then v else g.edges i' j' := by
  rw [setVertex]
  by_cases hi : i' = i
  · subst hi
    by_cases hj : j' = j
    · subst hj; simp
    · simp [hj]
  · simp [hi]

/-- Storing the edge before the edge `i` in the third `j`. -/
def setPrev (g : Graph) (i : ℕ) (j : Fin 3) (e : ℕ) : Graph :=
  g.setVertex i j { g.edges i j with prev := e }

/-- Storing the edge behind the edge `i` in the third `j`. -/
def setNext (g : Graph) (i : ℕ) (j : Fin 3) (e : ℕ) : Graph :=
  g.setVertex i j { g.edges i j with next := e }

@[simp] theorem setPrev_nodes (g : Graph) (i : ℕ) (j : Fin 3) (e : ℕ) :
    (g.setPrev i j e).nodes = g.nodes := rfl

theorem setPrev_edges (g : Graph) (i : ℕ) (j : Fin 3) (e : ℕ) (i' : ℕ) (j' : Fin 3) :
    (g.setPrev i j e).edges i' j' = ⟨(g.edges i' j').slot,
      if i' = i ∧ j' = j then e else (g.edges i' j').prev, (g.edges i' j').next⟩ := by
  rw [setPrev, setVertex_edges]
  split
  · rename_i h; rw [h.1, h.2]
  · rfl

theorem setNext_edges (g : Graph) (i : ℕ) (j : Fin 3) (e : ℕ) (i' : ℕ) (j' : Fin 3) :
    (g.setNext i j e).edges i' j' = ⟨(g.edges i' j').slot, (g.edges i' j').prev,
      if i' = i ∧ j' = j then e else (g.edges i' j').next⟩ := by
  rw [setNext, setVertex_edges]
  split
  · rename_i h; rw [h.1, h.2]
  · rfl

end Graph

section

variable (kEnd : ℕ)

/-- A number stored as `Word`. -/
def word (n : ℕ) : ℕ := n % (kEnd + 1)

/-- The body of the inner loop of `CreateGraph`. -/
def addVertex (m i : ℕ) (slot : Fin 3 → ℕ) (g : Graph) (j : Fin 3) : Graph :=
  let s := word kEnd (slot j)
  let next := g.nodes (s + j * m)
  let g := (g.setVertex i j ⟨s, kEnd, next⟩).setNode (s + j * m) (word kEnd i)
  if next ≠ kEnd then g.setPrev next j (word kEnd i) else g

/-- The inner loop of `CreateGraph`. -/
def addEdge (m i : ℕ) (slot : Fin 3 → ℕ) (g : Graph) : Graph :=
  addVertex kEnd m i slot (addVertex kEnd m i slot (addVertex kEnd m i slot g 0) 1) 2

/-- The outer loop of `CreateGraph`: the keys come from `KeyReader::Read`, which
    returns a null slice when it has none. -/
def createGraphLoop (hash : List UInt8 → UInt32 → V128) (seed : UInt32) (m : Divisor) :
    List (Option (List UInt8)) → ℕ → Graph → Option Graph
  | [], _, g => some g
  | none :: _, _, _ => none
  | some key :: source, i, g =>
    createGraphLoop hash seed m source (i + 1)
      (addEdge kEnd m.val.toNat i (fun j => (m.mod ((hash key seed).u32 j)).toNat) g)

/-- `CreateGraph`, on the scratch space `g`. -/
def createGraph (hash : List UInt8 → UInt32 → V128) (source : List (Option (List UInt8)))
    (seed : UInt32) (g : Graph) (m : Divisor) : Option Graph :=
  createGraphLoop kEnd hash seed m source 0 { g with nodes := fun _ => kEnd }

/-- The state of `TearGraph`. -/
structure Tearing where
  g : Graph
  free : List ℕ
  book : ℕ → Bool

/-- Queueing the edge `i`, if it is alone at its slot in `j` and not queued yet. -/
def offer (j : Fin 3) (i : ℕ) (t : Tearing) : Tearing :=
  let v := t.g.edges i j
  if v.prev = kEnd ∧ v.next = kEnd ∧ t.book i = false then
    { t with free := t.free ++ [word kEnd i], book := Function.update t.book i true }
  else t

/-- The first loop of `TearGraph`, from the last edge to the first. -/
def offerAll : ℕ → Tearing → Tearing
  | 0, t => t
  | i + 1, t => offerAll i (offer kEnd 2 i (offer kEnd 1 i (offer kEnd 0 i t)))

/-- The edge `curr` leaves its list in `j`. -/
def unlinkVertex (curr : ℕ) (j : Fin 3) (g : Graph) : Graph :=
  let v := g.edges curr j
  let g := if v.prev ≠ kEnd then g.setNext v.prev j v.next else g
  if v.next ≠ kEnd then g.setPrev v.next j v.prev else g

/-- The body of the second loop of `TearGraph`: the edge `curr` leaves its list in
    `j`, and the edge next to it is queued if it is alone now. -/
def detach (curr : ℕ) (j : Fin 3) (t : Tearing) : Tearing :=
  let v := t.g.edges curr j
  let t := { t with g := unlinkVertex kEnd curr j t.g }
  let i := if v.next ≠ kEnd then v.next else v.prev
  if i = kEnd then t else offer kEnd j i t

/-- The second loop of `TearGraph`, through the queue. No edge is queued twice, so
    that there are as many turns as edges at most. -/
def tearLoop : ℕ → ℕ → Tearing → Tearing
  | 0, _, t => t
  | k + 1, head, t =>
    match t.free[head]? with
    | none => t
    | some curr =>
      tearLoop k (head + 1) (detach kEnd curr 2 (detach kEnd curr 1 (detach kEnd curr 0 t)))

/-- `TearGraph`: the order of the edges, if all could be taken away. -/
def tearGraph (g : Graph) (n : ℕ) : Option (Graph × List ℕ) :=
  let t := tearLoop kEnd n 0 (offerAll kEnd n ⟨g, [], fun _ => false⟩)
  if t.free.length = n then some (t.g, t.free) else none

end

/-! ## Creating the graph -/

namespace Graph

/-- The edges before those of the third `j`. -/
def prev (g : Graph) (j : Fin 3) (e : ℕ) : ℕ := (g.edges e j).prev

/-- The edges behind those of the third `j`. -/
def next (g : Graph) (j : Fin 3) (e : ℕ) : ℕ := (g.edges e j).next

end Graph

variable {kEnd : ℕ}

theorem word_of_le {n : ℕ} (h : n ≤ kEnd) : word kEnd n = n :=
  Nat.mod_eq_of_lt (Nat.lt_succ_of_le h)

/-- The edges `L` are linked at their slots in the third `j`. -/
structure Graph.Part (kEnd : ℕ) (slot : ℕ → Fin 3 → ℕ) (g : Graph) (j : Fin 3) (L : List ℕ) :
    Prop where
  slots : ∀ e ∈ L, (g.edges e j).slot = slot e j
  linked : Classed kEnd (g.prev j) (g.next j) (slot · j) L

/-- The first edge of every slot in the third `j`. -/
def Graph.Heads (kEnd m : ℕ) (slot : ℕ → Fin 3 → ℕ) (g : Graph) (j : Fin 3) (L : List ℕ) : Prop :=
  ∀ s < m, g.nodes (s + j * m) = (L.filter (slot · j = s)).headD kEnd

theorem addVertex_edges_of_ne {m i : ℕ} {slot : Fin 3 → ℕ} {g : Graph} {j j' : Fin 3} (h : j' ≠ j)
    (e : ℕ) : (addVertex kEnd m i slot g j).edges e j' = g.edges e j' := by
  rw [addVertex]
  split <;> simp [Graph.setPrev_edges, Graph.setVertex_edges, h]

theorem addVertex_nodes {m i : ℕ} {slot : Fin 3 → ℕ} {g : Graph} {j : Fin 3} (x : ℕ) :
    (addVertex kEnd m i slot g j).nodes x =
      if x = word kEnd (slot j) + j * m then word kEnd i else g.nodes x := by
  rw [addVertex]
  split <;> simp [Graph.setNode, Function.update_apply]

/-- Adding a vertex puts the edge in front of the list at its slot. -/
theorem addVertex_spec {m i : ℕ} {slot : ℕ → Fin 3 → ℕ} {g : Graph} {j : Fin 3} {L : List ℕ}
    (hp : g.Part kEnd slot j L) (hh : g.Heads kEnd m slot j L) (hL : L.Nodup) (hi : i < kEnd)
    (hlt : ∀ e ∈ L, e < i) (hs : slot i j < m) (hm : m ≤ kEnd) :
    (addVertex kEnd m i (slot i) g j).Part kEnd slot j (i :: L) ∧
      (addVertex kEnd m i (slot i) g j).Heads kEnd m slot j (i :: L) := by
  have hsi : word kEnd (slot i j) = slot i j := word_of_le (by omega)
  have hii : word kEnd i = i := word_of_le hi.le
  have hiL : i ∉ L := fun h => (hlt i h).false
  have hnil : kEnd ∉ L := fun h => by have := hlt _ h; omega
  have hhead := hh _ hs
  obtain ⟨h, hh'⟩ : ∃ h, (L.filter (slot · j = slot i j)).headD kEnd = h := ⟨_, rfl⟩
  rw [hh'] at hhead
  have hhi : h ≠ i := by
    rw [← hh', List.headD_eq_head?_getD]
    cases hc : (L.filter (slot · j = slot i j)).head? with
    | none => simp; omega
    | some x =>
      have := hlt x (List.mem_of_mem_filter (List.mem_of_head? hc))
      simp; omega
  -- What is stored: the new vertex, and the edge before the former first one.
  have hedge : ∀ e, (addVertex kEnd m i (slot i) g j).edges e j =
      if e = i then ⟨slot i j, kEnd, h⟩
      else if e = h ∧ h ≠ kEnd then ⟨(g.edges e j).slot, i, (g.edges e j).next⟩
      else g.edges e j := by
    intro e
    simp only [addVertex, hsi, hii, hhead]
    split
    · by_cases he : e = h
      · simp [Graph.setPrev_edges, Graph.setVertex_edges, *]
      · simp [Graph.setPrev_edges, Graph.setVertex_edges, he]
    · rename_i hk
      simp [Graph.setVertex_edges, not_not.1 hk]
  refine ⟨⟨?_, hp.linked.push hL hnil hiL hi.ne ?_ ?_⟩, ?_⟩
  · intro e he
    rw [hedge]
    split
    · rename_i h; rw [h]
    · rename_i hei
      have := hp.slots e ((List.mem_cons.1 he).resolve_left hei)
      split <;> exact this
  · intro u _
    rw [Graph.next, hedge, hh']
    split
    · rfl
    · split <;> rfl
  · intro u hu
    rw [Graph.prev, hedge, hh']
    split
    · rfl
    · by_cases huh : u = h
      · rw [if_pos ⟨huh, huh ▸ hu⟩, if_pos huh]
      · rw [if_neg (huh ·.1), if_neg huh, Graph.prev]
  · intro s hs'
    rw [addVertex_nodes, hsi, hii]
    by_cases hsl : s = slot i j
    · subst hsl; simp
    · rw [if_neg (by omega), hh s hs', List.filter_cons_of_neg (by simpa using Ne.symm hsl)]

/-- Parts depend on the vertices of their third only. -/
theorem Graph.Part.congr {slot : ℕ → Fin 3 → ℕ} {g g' : Graph} {j : Fin 3} {L : List ℕ}
    (h : ∀ e, g'.edges e j = g.edges e j) (hp : g.Part kEnd slot j L) : g'.Part kEnd slot j L := by
  refine ⟨fun e he => by rw [h, hp.slots e he], ?_⟩
  have hprev : g'.prev j = g.prev j := funext fun e => by rw [Graph.prev, h, Graph.prev]
  have hnext : g'.next j = g.next j := funext fun e => by rw [Graph.next, h, Graph.next]
  rw [hprev, hnext]
  exact hp.linked

/-- Adding a vertex leaves the other thirds as they are. -/
theorem addVertex_other {m i : ℕ} {slot : ℕ → Fin 3 → ℕ} {g : Graph} {j j' : Fin 3} (hj : j' ≠ j)
    {L : List ℕ} (hs : slot i j < m) (hm : m ≤ kEnd)
    (h : g.Part kEnd slot j' L ∧ g.Heads kEnd m slot j' L) :
    (addVertex kEnd m i (slot i) g j).Part kEnd slot j' L ∧
      (addVertex kEnd m i (slot i) g j).Heads kEnd m slot j' L := by
  refine ⟨h.1.congr (addVertex_edges_of_ne hj), fun s hs' => ?_⟩
  rw [addVertex_nodes, word_of_le (by omega), if_neg, h.2 s hs']
  intro heq
  have hdiv : ∀ (s k : ℕ), s < m → (s + k * m) / m = k := fun s k hs => by
    rw [Nat.add_mul_div_right _ _ (by omega), Nat.div_eq_of_lt hs, Nat.zero_add]
  exact hj (Fin.ext (by rw [← hdiv s j' hs', heq, hdiv _ j hs]))

/-- Adding an edge. -/
theorem addEdge_spec {m i : ℕ} {slot : ℕ → Fin 3 → ℕ} {g : Graph} {L : List ℕ}
    (h : ∀ j, g.Part kEnd slot j L ∧ g.Heads kEnd m slot j L) (hL : L.Nodup) (hi : i < kEnd)
    (hlt : ∀ e ∈ L, e < i) (hs : ∀ j, slot i j < m) (hm : m ≤ kEnd) (j : Fin 3) :
    (addEdge kEnd m i (slot i) g).Part kEnd slot j (i :: L) ∧
      (addEdge kEnd m i (slot i) g).Heads kEnd m slot j (i :: L) := by
  have hadd : ∀ {g : Graph} (j), g.Part kEnd slot j L ∧ g.Heads kEnd m slot j L →
      (addVertex kEnd m i (slot i) g j).Part kEnd slot j (i :: L) ∧
        (addVertex kEnd m i (slot i) g j).Heads kEnd m slot j (i :: L) :=
    fun j h => addVertex_spec h.1 h.2 hL hi hlt (hs j) hm
  have hother : ∀ {g : Graph} {j j' : Fin 3} {L}, j' ≠ j →
      g.Part kEnd slot j' L ∧ g.Heads kEnd m slot j' L →
      (addVertex kEnd m i (slot i) g j).Part kEnd slot j' L ∧
        (addVertex kEnd m i (slot i) g j).Heads kEnd m slot j' L :=
    fun hj h => addVertex_other hj (hs _) hm h
  rw [addEdge]
  match j with
  | 0 => exact hother (by decide) (hother (by decide) (hadd 0 (h 0)))
  | 1 => exact hother (by decide) (hadd 1 (hother (by decide) (h 1)))
  | 2 => exact hadd 2 (hother (by decide) (hother (by decide) (h 2)))

/-- `CreateGraph` links all edges at their slots. -/
theorem createGraphLoop_spec {hash : List UInt8 → UInt32 → V128} {seed : UInt32} {d : Divisor}
    {slot : ℕ → Fin 3 → ℕ} {n : ℕ} (hn : n ≤ kEnd) (hm : d.val.toNat ≤ kEnd)
    (hs : ∀ i < n, ∀ j, slot i j < d.val.toNat) (source : List (Option (List UInt8))) (i : ℕ)
    (g g' : Graph) (hi : i + source.length = n)
    (hkey : ∀ k key, source[k]? = some (some key) →
      slot (i + k) = fun j => (d.mod ((hash key seed).u32 j)).toNat)
    (h : ∀ j, g.Part kEnd slot j (List.range i).reverse ∧
      g.Heads kEnd d.val.toNat slot j (List.range i).reverse)
    (hg : createGraphLoop kEnd hash seed d source i g = some g') (j : Fin 3) :
    g'.Part kEnd slot j (List.range n).reverse := by
  induction source generalizing i g with
  | nil =>
    rw [createGraphLoop, Option.some_inj] at hg
    rw [List.length_nil, Nat.add_zero] at hi
    exact hg ▸ hi ▸ (h j).1
  | cons key source ih =>
    cases key with
    | none => simp [createGraphLoop] at hg
    | some key =>
      rw [List.length_cons] at hi
      rw [createGraphLoop, ← hkey 0 key rfl, Nat.add_zero] at hg
      refine ih (i + 1) _ (by omega) (fun k key hk => ?_) (fun j => ?_) hg
      · rw [Nat.add_assoc, Nat.add_comm 1 k]
        exact hkey (k + 1) key hk
      · rw [List.range_succ, List.reverse_append, List.reverse_singleton, List.singleton_append]
        exact addEdge_spec h (List.nodup_reverse.2 List.nodup_range) (by omega)
          (fun e he => List.mem_range.1 (List.mem_reverse.1 he)) (hs i (by omega)) hm j

/-- `CreateGraph` on a list of keys links all edges at their slots. -/
theorem createGraph_spec {hash : List UInt8 → UInt32 → V128} {seed : UInt32} {d : Divisor}
    {slot : ℕ → Fin 3 → ℕ} {source : List (Option (List UInt8))} (hn : source.length ≤ kEnd)
    (hm : d.val.toNat ≤ kEnd) (hs : ∀ i < source.length, ∀ j, slot i j < d.val.toNat)
    (hkey : ∀ i key, source[i]? = some (some key) →
      slot i = fun j => (d.mod ((hash key seed).u32 j)).toNat) {g g' : Graph}
    (hg : createGraph kEnd hash source seed g d = some g') (j : Fin 3) :
    g'.Part kEnd slot j (List.range source.length).reverse :=
  createGraphLoop_spec hn hm hs source 0 _ g' (by omega) (by simpa using hkey)
    (fun j => ⟨⟨by simp, fun s => linked_nil⟩, fun s _ => rfl⟩) hg j

/-! ## Tearing the graph -/

/-- An order of edges, last one first, in which every edge has a slot that no edge
    uses but those taken away before it. -/
def Peel (n : ℕ) (slot : ℕ → Fin 3 → ℕ) : List ℕ → Prop
  | [] => True
  | e :: l => (∃ j, ∀ e' < n, slot e' j = slot e j → e' ≠ e → e' ∈ l) ∧ Peel n slot l

/-- The invariant of `TearGraph`, when the edges `gone j` have left their lists in
    the third `j`. -/
structure Tearing.Inv (kEnd n : ℕ) (slot : ℕ → Fin 3 → ℕ) (gone : Fin 3 → List ℕ) (t : Tearing) :
    Prop where
  part : ∀ j, ∃ L, t.g.Part kEnd slot j L ∧ L.Nodup ∧ ∀ e, e ∈ L ↔ e < n ∧ e ∉ gone j
  slots : ∀ e < n, ∀ j, (t.g.edges e j).slot = slot e j
  free_lt : ∀ e ∈ t.free, e < n
  nodup : t.free.Nodup
  book : ∀ e < n, t.book e = true ↔ e ∈ t.free
  gone_free : ∀ j, ∀ e ∈ gone j, e ∈ t.free
  peel : Peel n slot t.free.reverse

/-- Queueing an edge that is alone. -/
theorem Tearing.Inv.offer {n : ℕ} {slot : ℕ → Fin 3 → ℕ} {gone : Fin 3 → List ℕ} {t : Tearing}
    (h : t.Inv kEnd n slot gone) (hn : n ≤ kEnd) {j : Fin 3} {i : ℕ} (hi : i < n)
    (hij : i ∉ gone j) : (offer kEnd j i t).Inv kEnd n slot gone := by
  rw [ProtoCache.offer]
  split
  · rename_i hc
    obtain ⟨hprev, hnext, hb⟩ := hc
    have hfree : i ∉ t.free := fun h' => by rw [(h.book i hi).2 h'] at hb; cases hb
    have hw : word kEnd i = i := word_of_le (by omega)
    obtain ⟨L, hp, hL, hmem⟩ := h.part j
    refine ⟨h.part, h.slots, ?_, ?_, ?_, ?_, ?_⟩
    · intro e he
      rw [hw, List.mem_append, List.mem_singleton] at he
      rcases he with he | rfl
      · exact h.free_lt e he
      · exact hi
    · rw [hw]
      exact List.nodup_append.2 ⟨h.nodup, List.nodup_singleton _, by
        simpa using fun e he => ne_of_mem_of_not_mem he hfree⟩
    · intro e he
      rw [hw, List.mem_append, List.mem_singleton, ← h.book e he]
      by_cases hei : e = i
      · simp [hei]
      · simp [hei]
    · exact fun j e he => List.mem_append_left _ (h.gone_free j e he)
    · rw [hw, List.reverse_append, List.reverse_singleton, List.singleton_append]
      refine ⟨⟨j, fun e' he' hs hne => ?_⟩, h.peel⟩
      -- The edges that left the list of the slot are in the queue.
      have hnil : kEnd ∉ L := fun h' => by have := ((hmem _).1 h').1; omega
      have halone := (hp.linked.alone_iff hL hnil ((hmem i).2 ⟨hi, hij⟩)).1 ⟨hprev, hnext⟩
      rw [List.mem_reverse]
      by_contra hfree'
      exact hne (halone e' ((hmem e').2 ⟨he', fun hg => hfree' (h.gone_free j e' hg)⟩) hs)
  · exact h

/-- What `unlinkVertex` stores: only neighbours in the third `j` change. -/
theorem unlinkVertex_edges (curr : ℕ) (j : Fin 3) (g : Graph) (u : ℕ) (j' : Fin 3) :
    (unlinkVertex kEnd curr j g).edges u j' = ⟨(g.edges u j').slot,
      if (u = g.next j curr ∧ j' = j) ∧ g.next j curr ≠ kEnd then g.prev j curr else g.prev j' u,
      if (u = g.prev j curr ∧ j' = j) ∧ g.prev j curr ≠ kEnd then g.next j curr
      else g.next j' u⟩ := by
  simp only [unlinkVertex, Graph.prev, Graph.next]
  split <;> split <;> simp [Graph.setPrev_edges, Graph.setNext_edges, *]

/-- Taking the edge `curr` out of its list in the third `j`. -/
theorem Tearing.Inv.unlink {n : ℕ} {slot : ℕ → Fin 3 → ℕ} {gone : Fin 3 → List ℕ} {t : Tearing}
    (h : t.Inv kEnd n slot gone) (hn : n ≤ kEnd) {curr : ℕ} {j : Fin 3} (hfree : curr ∈ t.free)
    (hj : curr ∉ gone j) :
    ({ t with g := unlinkVertex kEnd curr j t.g } : Tearing).Inv kEnd n slot
      (Function.update gone j (curr :: gone j)) := by
  refine ⟨fun j' => ?_, fun e he j' => ?_, h.free_lt, h.nodup, h.book, fun j' e he => ?_, h.peel⟩
  · obtain ⟨L, hp, hL, hmem⟩ := h.part j'
    by_cases hj' : j' = j
    · subst hj'
      have hnil : kEnd ∉ L := fun h' => by have := ((hmem _).1 h').1; omega
      refine ⟨L.erase curr, ⟨fun e he => ?_, ?_⟩, hL.erase _, fun e => ?_⟩
      · rw [unlinkVertex_edges]
        exact hp.slots e (List.mem_of_mem_erase he)
      · refine hp.linked.unlink hL hnil ((hmem _).2 ⟨h.free_lt _ hfree, hj⟩)
          (fun u hu => ?_) fun u hu => ?_
        · rw [Graph.next, unlinkVertex_edges]
          by_cases hu' : u = t.g.prev j' curr
          · simp [← hu', hu]
          · simp [hu']
        · rw [Graph.prev, unlinkVertex_edges]
          by_cases hu' : u = t.g.next j' curr
          · simp [← hu', hu]
          · simp [hu']
      · rw [hL.mem_erase_iff, hmem, Function.update_self, List.mem_cons]
        tauto
    · refine ⟨L, hp.congr fun e => ?_, hL, fun e => by rw [hmem, Function.update_of_ne hj']⟩
      simp [unlinkVertex_edges, hj', Graph.prev, Graph.next]
  · rw [unlinkVertex_edges]
    exact h.slots e he j'
  · by_cases hj' : j' = j
    · subst hj'
      rw [Function.update_self, List.mem_cons] at he
      exact he.elim (fun h => h ▸ hfree) (h.gone_free j' e)
    · rw [Function.update_of_ne hj'] at he
      exact h.gone_free j' e he

/-- The neighbours of an edge are edges that have not left. -/
theorem Tearing.Inv.neighbours {n : ℕ} {slot : ℕ → Fin 3 → ℕ} {gone : Fin 3 → List ℕ} {t : Tearing}
    (h : t.Inv kEnd n slot gone) (hn : n ≤ kEnd) {curr : ℕ} {j : Fin 3} (hcurr : curr < n)
    (hj : curr ∉ gone j) {i : ℕ} (hi : i ≠ kEnd) (hij : i = t.g.prev j curr ∨ i = t.g.next j curr) :
    i < n ∧ i ∉ curr :: gone j := by
  obtain ⟨L, hp, hL, hmem⟩ := h.part j
  have hnil : kEnd ∉ L := fun h' => by have := ((hmem _).1 h').1; omega
  obtain ⟨hprev, hnext⟩ := hp.linked.neighbours_mem hL hnil ((hmem _).2 ⟨hcurr, hj⟩)
  have : i ∈ L.erase curr := by
    rcases hij with rfl | rfl
    · exact hprev hi
    · exact hnext hi
  rw [hL.mem_erase_iff, hmem] at this
  exact ⟨this.2.1, by simp [this.1, this.2.2]⟩

/-- The queue grows at its end. -/
theorem offer_free (j : Fin 3) (i : ℕ) (t : Tearing) : t.free <+: (offer kEnd j i t).free := by
  rw [offer]
  split
  · exact List.prefix_append _ _
  · exact List.prefix_rfl

/-- The body of the second loop. -/
theorem Tearing.Inv.detach {n : ℕ} {slot : ℕ → Fin 3 → ℕ} {gone : Fin 3 → List ℕ} {t : Tearing}
    (h : t.Inv kEnd n slot gone) (hn : n ≤ kEnd) {curr : ℕ} {j : Fin 3} (hfree : curr ∈ t.free)
    (hj : curr ∉ gone j) : (detach kEnd curr j t).Inv kEnd n slot
      (Function.update gone j (curr :: gone j)) ∧
        t.free <+: (ProtoCache.detach kEnd curr j t).free := by
  have hu := h.unlink hn hfree hj
  simp only [ProtoCache.detach]
  by_cases hi : (if (t.g.edges curr j).next ≠ kEnd then (t.g.edges curr j).next
      else (t.g.edges curr j).prev) = kEnd
  · rw [if_pos hi]
    exact ⟨hu, List.prefix_rfl⟩
  · rw [if_neg hi]
    obtain ⟨hlt, hgone⟩ := h.neighbours hn (h.free_lt _ hfree) hj hi
      (by split <;> simp [Graph.prev, Graph.next])
    exact ⟨hu.offer hn hlt (by rwa [Function.update_self]),
      offer_free j _ { t with g := unlinkVertex kEnd curr j t.g }⟩

/-- The edge `e` is queued, or not alone at its slot in the third `j`. -/
def Tearing.Settled (n : ℕ) (slot : ℕ → Fin 3 → ℕ) (gone : Fin 3 → List ℕ) (t : Tearing)
    (j : Fin 3) (e : ℕ) : Prop :=
  e ∈ t.free ∨ ∃ e' < n, e' ≠ e ∧ e' ∉ gone j ∧ slot e' j = slot e j

/-- An edge stays settled when the queue grows. -/
theorem Tearing.Settled.mono {n : ℕ} {slot : ℕ → Fin 3 → ℕ} {gone : Fin 3 → List ℕ} {t t' : Tearing}
    {j : Fin 3} {e : ℕ} (h : t.Settled n slot gone j e) (ht : t.free <+: t'.free) :
    t'.Settled n slot gone j e :=
  h.imp_left fun he => ht.subset he

/-- An edge that was offered is settled. -/
theorem Tearing.Inv.settled_offer {n : ℕ} {slot : ℕ → Fin 3 → ℕ} {gone : Fin 3 → List ℕ}
    {t : Tearing} (h : t.Inv kEnd n slot gone) (hn : n ≤ kEnd) {j : Fin 3} {i : ℕ} (hi : i < n)
    (hij : i ∉ gone j) : (ProtoCache.offer kEnd j i t).Settled n slot gone j i := by
  rw [ProtoCache.offer]
  split
  · refine .inl (List.mem_append_right _ ?_)
    rw [word_of_le (by omega)]
    exact List.mem_singleton_self i
  · rename_i hc
    by_cases hb : t.book i = true
    · exact .inl ((h.book i hi).1 hb)
    · obtain ⟨L, hp, hL, hmem⟩ := h.part j
      have hnil : kEnd ∉ L := fun h' => by have := ((hmem _).1 h').1; omega
      have halone := hp.linked.alone_iff hL hnil ((hmem i).2 ⟨hi, hij⟩)
      have hne : ¬∀ x ∈ L, slot x j = slot i j → x = i := fun hx => by
        obtain ⟨hprev, hnext⟩ := halone.2 hx
        exact hc ⟨hprev, hnext, Bool.eq_false_iff.2 hb⟩
      push Not at hne
      obtain ⟨e', he', hslot, hne⟩ := hne
      obtain ⟨hlt, hgone⟩ := (hmem e').1 he'
      exact .inr ⟨e', hlt, hne, hgone, hslot⟩

/-- When the edge `curr` leaves its list in `j`, only its last companion there can be
    left alone, which then is next to it and offered. -/
theorem Tearing.Inv.settled_detach {n : ℕ} {slot : ℕ → Fin 3 → ℕ} {gone : Fin 3 → List ℕ}
    {t : Tearing} (h : t.Inv kEnd n slot gone) (hn : n ≤ kEnd) {curr : ℕ} {j : Fin 3}
    (hfree : curr ∈ t.free) (hj : curr ∉ gone j)
    (hs : ∀ j', ∀ e < n, t.Settled n slot gone j' e) :
    ∀ j', ∀ e < n, (ProtoCache.detach kEnd curr j t).Settled n slot
      (Function.update gone j (curr :: gone j)) j' e := by
  intro j' e he
  have hfree_le := (h.detach hn hfree hj).2
  rcases hs j' e he with hqueued | ⟨e', he', hne, hgone, hslot⟩
  · exact .inl (hfree_le.subset hqueued)
  by_cases hj' : j' = j
  swap
  · exact .inr ⟨e', he', hne, by rwa [Function.update_of_ne hj'], hslot⟩
  subst hj'
  by_cases hqueued : e ∈ t.free
  · exact .inl (hfree_le.subset hqueued)
  by_cases hother : ∃ e'' < n, e'' ≠ e ∧ e'' ∉ curr :: gone j' ∧ slot e'' j' = slot e j'
  · exact .inr (by rwa [Function.update_self])
  -- `curr` was the last companion of `e`.
  have hcurr : e' = curr := by
    by_contra hc
    exact hother ⟨e', he', hne, List.not_mem_cons_of_ne_of_not_mem hc hgone, hslot⟩
  subst hcurr
  obtain ⟨L, hp, hL, hmem⟩ := h.part j'
  have hnil : kEnd ∉ L := fun h' => by have := ((hmem _).1 h').1; omega
  have heL : e ∈ L := (hmem e).2 ⟨he, fun hg => hqueued (h.gone_free j' e hg)⟩
  have hcL : e' ∈ L := (hmem e').2 ⟨he', hj⟩
  obtain ⟨i, hi⟩ : ∃ i, (if (t.g.edges e' j').next ≠ kEnd then (t.g.edges e' j').next
      else (t.g.edges e' j').prev) = i := ⟨_, rfl⟩
  have hik : i ≠ kEnd := by
    intro hk
    rw [hk] at hi
    have hends : t.g.prev j' e' = kEnd ∧ t.g.next j' e' = kEnd := by
      rw [Graph.prev, Graph.next]
      split at hi
      · rename_i hc
        exact absurd hi hc
      · rename_i hc
        exact ⟨hi, not_not.1 hc⟩
    exact hne ((hp.linked.alone_iff hL hnil hcL).1 hends e heL hslot.symm).symm
  have hside : i = t.g.prev j' e' ∨ i = t.g.next j' e' := by
    rw [← hi]
    split <;> simp [Graph.prev, Graph.next]
  obtain ⟨hlt, hig⟩ := h.neighbours hn he' hj hik hside
  have hcls : slot i j' = slot e' j' := by
    obtain ⟨hprev, hnext⟩ := hp.linked.neighbours_cls hL hnil hcL
    rcases hside with rfl | rfl
    · exact hprev hik
    · exact hnext hik
  have hie : i = e := by
    by_contra hc
    exact hother ⟨i, hlt, hc, hig, hcls.trans hslot⟩
  subst hie
  simp only [ProtoCache.detach]
  rw [hi, if_neg hik]
  exact (h.unlink hn hfree hj).settled_offer hn he (by rwa [Function.update_self])

/-- Only which edges have left matters. -/
theorem Tearing.Inv.congr {n : ℕ} {slot : ℕ → Fin 3 → ℕ} {gone gone' : Fin 3 → List ℕ} {t : Tearing}
    (h : t.Inv kEnd n slot gone) (hg : ∀ j e, e ∈ gone' j ↔ e ∈ gone j) :
    t.Inv kEnd n slot gone' := by
  refine ⟨fun j => ?_, h.slots, h.free_lt, h.nodup, h.book,
    fun j e he => h.gone_free j e ((hg j e).1 he), h.peel⟩
  obtain ⟨L, hp, hL, hmem⟩ := h.part j
  exact ⟨L, hp, hL, fun e => by rw [hmem, hg]⟩

/-- One turn of the second loop takes an edge out of its three lists. -/
theorem Tearing.Inv.turn {n : ℕ} {slot : ℕ → Fin 3 → ℕ} {l : List ℕ} {t : Tearing}
    (h : t.Inv kEnd n slot fun _ => l) (hn : n ≤ kEnd) {curr : ℕ} (hfree : curr ∈ t.free)
    (hl : curr ∉ l) {t' : Tearing}
    (ht : ProtoCache.detach kEnd curr 2 (ProtoCache.detach kEnd curr 1
      (ProtoCache.detach kEnd curr 0 t)) = t') :
    t'.Inv kEnd n slot (fun _ => curr :: l) ∧ t.free <+: t'.free ∧
      ((∀ j, ∀ e < n, t.Settled n slot (fun _ => l) j e) →
        ∀ j, ∀ e < n, t'.Settled n slot (fun _ => curr :: l) j e) := by
  subst ht
  obtain ⟨h₀, hp₀⟩ := h.detach hn (j := 0) hfree hl
  obtain ⟨h₁, hp₁⟩ := h₀.detach hn (j := 1) (hp₀.subset hfree) hl
  obtain ⟨h₂, hp₂⟩ := h₁.detach hn (j := 2) (hp₁.subset (hp₀.subset hfree)) hl
  have hgone : Function.update (Function.update (Function.update (fun _ => l) 0 (curr :: l)) 1
      (curr :: l)) 2 (curr :: l) = fun _ : Fin 3 => curr :: l := by
    funext j
    match j with
    | 0 | 1 | 2 => rfl
  refine ⟨hgone ▸ h₂, (hp₀.trans hp₁).trans hp₂, fun hs => ?_⟩
  have hs₀ := h.settled_detach hn (j := 0) hfree hl hs
  have hs₁ := h₀.settled_detach hn (j := 1) (hp₀.subset hfree) hl hs₀
  exact hgone ▸ h₁.settled_detach hn (j := 2) (hp₁.subset (hp₀.subset hfree)) hl hs₁

/-- Only which edges have left matters. -/
theorem Tearing.Settled.congr {n : ℕ} {slot : ℕ → Fin 3 → ℕ} {gone gone' : Fin 3 → List ℕ}
    {t : Tearing} {j : Fin 3} {e : ℕ} (h : t.Settled n slot gone j e)
    (hg : ∀ j e, e ∈ gone' j ↔ e ∈ gone j) : t.Settled n slot gone' j e := by
  rcases h with h | ⟨e', he', hne, hgone, hslot⟩
  · exact .inl h
  · exact .inr ⟨e', he', hne, fun h => hgone ((hg j e').1 h), hslot⟩

/-- The second loop goes through the whole queue: at its end all queued edges have
    left, and all others are settled if they were. -/
theorem tearLoop_spec {n : ℕ} {slot : ℕ → Fin 3 → ℕ} (hn : n ≤ kEnd) (k head : ℕ)
    (hk : head + k = n) (t t' : Tearing) (ht : tearLoop kEnd k head t = t')
    (h : t.Inv kEnd n slot fun _ => t.free.take head) :
    t'.Inv kEnd n slot (fun _ => t'.free) ∧
      ((∀ j, ∀ e < n, t.Settled n slot (fun _ => t.free.take head) j e) →
        ∀ j, ∀ e < n, t'.Settled n slot (fun _ => t'.free) j e) := by
  -- By induction on the rounds that are left: the first `head` edges of the queue have left.
  induction k generalizing head t with
  | zero =>
    subst ht
    have hle : t.free.length ≤ head := by
      have hsub : t.free ⊆ List.range n := fun e he => List.mem_range.2 (h.free_lt e he)
      have := (h.nodup.subperm hsub).length_le
      rw [List.length_range] at this
      omega
    rw [List.take_of_length_le hle] at h ⊢
    exact ⟨h, id⟩
  | succ k ih =>
    rw [tearLoop] at ht
    split at ht
    · rename_i hnone
      subst ht
      rw [List.take_of_length_le (List.getElem?_eq_none_iff.1 hnone)] at h ⊢
      exact ⟨h, id⟩
    · rename_i curr hcurr
      have hhead := (List.getElem?_eq_some_iff.1 hcurr).1
      have hsplit : t.free.take (head + 1) = t.free.take head ++ [curr] := by
        rw [List.take_add_one, hcurr]
        rfl
      -- The queue holds no edge twice, so this one has not left yet.
      have hl : curr ∉ t.free.take head := by
        have := hsplit ▸ h.nodup.sublist (List.take_sublist (head + 1) _)
        exact fun hc => (List.nodup_append.1 this).2.2 _ hc _ (List.mem_singleton_self _) rfl
      obtain ⟨h', ⟨r, hr⟩, hs⟩ := h.turn hn (List.mem_of_getElem? hcurr) hl rfl
      have hgone : ∀ (_ : Fin 3) (e : ℕ), e ∈ (detach kEnd curr 2 (detach kEnd curr 1
          (detach kEnd curr 0 t))).free.take (head + 1) ↔ e ∈ curr :: t.free.take head := by
        intro _ e
        rw [← hr, List.take_append_of_le_length hhead, hsplit, List.mem_append, List.mem_singleton,
          List.mem_cons, or_comm]
      obtain ⟨hinv, hsettled⟩ := ih (head + 1) (by omega) _ ht (h'.congr hgone)
      exact ⟨hinv, fun h => hsettled fun j e he => (hs h j e he).congr hgone⟩

/-- The first loop: all edges are settled. -/
theorem offerAll_spec {n : ℕ} {slot : ℕ → Fin 3 → ℕ} (hn : n ≤ kEnd) (i : ℕ) (hi : i ≤ n)
    (t t' : Tearing) (ht : offerAll kEnd i t = t') (h : t.Inv kEnd n slot fun _ => []) :
    t'.Inv kEnd n slot (fun _ => []) ∧ t.free <+: t'.free ∧
      ∀ j, ∀ e < i, t'.Settled n slot (fun _ => []) j e := by
  induction i generalizing t with
  | zero =>
    subst ht
    exact ⟨h, List.prefix_rfl, fun _ _ he => absurd he (Nat.not_lt_zero _)⟩
  | succ i ih =>
    have hlt : i < n := hi
    have h₀ := h.offer hn (j := 0) hlt List.not_mem_nil
    have h₁ := h₀.offer hn (j := 1) hlt List.not_mem_nil
    have h₂ := h₁.offer hn (j := 2) hlt List.not_mem_nil
    have hp₁ : (offer kEnd 0 i t).free <+: (offer kEnd 1 i (offer kEnd 0 i t)).free :=
      offer_free 1 i _
    have hp₂ : (offer kEnd 1 i (offer kEnd 0 i t)).free <+:
        (offer kEnd 2 i (offer kEnd 1 i (offer kEnd 0 i t))).free := offer_free 2 i _
    obtain ⟨hinv, hp, hs⟩ := ih hlt.le _ ht h₂
    refine ⟨hinv, (((offer_free 0 i t).trans hp₁).trans hp₂).trans hp, fun j e he => ?_⟩
    rcases Nat.lt_succ_iff_lt_or_eq.1 he with he | rfl
    · exact hs j e he
    · match j with
      | 0 => exact (h.settled_offer hn hlt List.not_mem_nil).mono ((hp₁.trans hp₂).trans hp)
      | 1 => exact (h₀.settled_offer hn hlt List.not_mem_nil).mono (hp₂.trans hp)
      | 2 => exact (h₁.settled_offer hn hlt List.not_mem_nil).mono hp

/-- `TearGraph` on linked edges: the queue holds edges that were taken away in order,
    and every edge that is not in it shares all its slots with others that are not. -/
theorem tearGraph_inv {n : ℕ} {slot : ℕ → Fin 3 → ℕ} (hn : n ≤ kEnd) {g : Graph}
    (hg : ∀ j, g.Part kEnd slot j (List.range n).reverse) {t : Tearing}
    (ht : tearLoop kEnd n 0 (offerAll kEnd n ⟨g, [], fun _ => false⟩) = t) :
    t.Inv kEnd n slot (fun _ => t.free) ∧ ∀ j, ∀ e < n, t.Settled n slot (fun _ => t.free) j e := by
  have hstart : (⟨g, [], fun _ => false⟩ : Tearing).Inv kEnd n slot fun _ => [] := by
    refine ⟨fun j => ⟨_, hg j, List.nodup_reverse.2 List.nodup_range, by simp⟩, fun e he j => ?_,
      by simp, List.nodup_nil, by simp, by simp, trivial⟩
    exact (hg j).slots e (by simpa using he)
  obtain ⟨hinv, -, hs⟩ := offerAll_spec hn n le_rfl _ _ rfl hstart
  obtain ⟨hinv', hs'⟩ := tearLoop_spec hn n 0 (Nat.zero_add n) _ t ht
    (hinv.congr fun _ _ => by rw [List.take_zero])
  exact ⟨hinv', hs' fun j e he => (hs j e he).congr fun _ _ => by rw [List.take_zero]⟩

/-- If `TearGraph` takes all edges away, it lists each once, in an order in which
    every edge has a slot that no later edge uses, and leaves the slots of the
    edges as they were. -/
theorem tearGraph_spec {n : ℕ} {slot : ℕ → Fin 3 → ℕ} (hn : n ≤ kEnd) {g g' : Graph}
    {free : List ℕ} (hg : ∀ j, g.Part kEnd slot j (List.range n).reverse)
    (h : tearGraph kEnd g n = some (g', free)) :
    free.length = n ∧ free.Nodup ∧ (∀ e ∈ free, e < n) ∧ Peel n slot free.reverse ∧
      ∀ e < n, ∀ j, (g'.edges e j).slot = slot e j := by
  obtain ⟨hinv, -⟩ := tearGraph_inv hn hg rfl
  rw [tearGraph] at h
  split at h
  · rename_i hlen
    cases h
    exact ⟨hlen, hinv.nodup, hinv.free_lt, hinv.peel, hinv.slots⟩
  · cases h

end ProtoCache

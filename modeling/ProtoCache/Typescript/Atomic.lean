import ProtoCache.Typescript.Register
import Mathlib.Data.Set.Finite.Lattice
import Mathlib.Order.Interval.Finset.Nat

/-!
# Calls that fail

After a call of `compiledSchemaHandle` that throws, the handles of the nodes are what they
were before, but the nodes are not: they stay in the cache, with what they have by then.

* `AsIf`: later calls do as if a call had not been made, but for the numbers that the
  handles have;
* `Similar.call`: caches that differ in finished nodes cannot be told apart;
* `compiledSchemaHandle_atomic_iff`: that a call has thrown cannot be told afterwards exactly
  if the decoder is not there yet, or every resolver that the call had to ask gave the type
  that it stands for, so that the exception came from the decoder.
-/

namespace ProtoCache.Typescript

open Exceptional

section

variable {α : Type} {G : Graph α}

/-! ## What has to be asked -/

/-- The nodes that a call for a type has to make, if the resolvers give what they stand
    for. -/
inductive Open (G : Graph α) (nodes : Nodes α) (a : α) : Identity α → Prop
  | root (h : nodes (.type a) = none) : Open G nodes a (.type a)
  | repeated {b : α} {index : ℕ} {field : Field α} (h : Open G nodes a (.type b))
      (hfield : FieldAt G b index field)
      (hrepeated : field.repeated = true) (hnone : nodes (.field b index) = none) :
      Open G nodes a (.field b index)
  | target {x y : Identity α} (h : Open G nodes a x) (hasks : Asks G x y)
      (hnone : nodes (.type (G.target y)) = none) : Open G nodes a (.type (G.target y))

/-- The resolvers that a call for a type has to ask. -/
def Asked (G : Graph α) (nodes : Nodes α) (a : α) (y : Identity α) : Prop :=
  ∃ x, Open G nodes a x ∧ Asks G x y

theorem Open.none {nodes : Nodes α} {a : α} {x : Identity α} (h : Open G nodes a x) :
    nodes x = none := by
  cases h with
  | root h => exact h
  | repeated _ _ _ hnone => exact hnone
  | target _ _ hnone => exact hnone

/-! ## Stores -/

/-- Types, and the fields that there are. -/
def Place (G : Graph α) : Identity α → Prop
  | .type _ => True
  | .field a index => ∃ field, FieldAt G a index field

theorem finite_places (G : Graph α) : {x | Place G x}.Finite := by
  have := G.finite
  have hfields : (⋃ a, Identity.field a '' Set.Iio (G.shape a).fields.length).Finite :=
    Set.finite_iUnion fun a => (Set.finite_Iio _).image _
  refine ((Set.finite_range Identity.type).union hfields).subset ?_
  rintro (a | ⟨a, index⟩) hx
  · exact .inl ⟨a, rfl⟩
  · obtain ⟨field, fields, hshape, hindex⟩ := hx
    refine .inr (Set.mem_iUnion.2 ⟨a, index, ?_, rfl⟩)
    rw [Set.mem_Iio, hshape]
    exact (List.getElem?_eq_some_iff.1 hindex).1

/-- What holds of a store between calls: its nodes are of the right kinds and refer to each
    other, and its handles are those of nodes. -/
structure Store.Valid (G : Graph α) (s : Store α) : Prop where
  place : ∀ x, s.nodes x ≠ none → Place G x
  kind : ∀ x node, s.nodes x = some node → node.kind = (content G G.target x).kind
  closed : ∀ x node y, s.nodes x = some node → node.Refers y → s.nodes y ≠ none
  cached : ∀ x handle, s.wasmHandle x = some handle → s.nodes x ≠ none
  registry : Registry.Valid ⟨s.wasmHandle, s.count, [], []⟩

theorem valid_initial : Store.Valid G Store.initial :=
  ⟨fun _ h => absurd rfl h, fun _ _ h => (by cases h), fun _ _ _ h => (by cases h),
    fun _ _ h => (by cases h), fun _ _ _ h => (by cases h), fun _ _ h => (by cases h)⟩

/-- Any property of types and of the fields that there are is inherited. -/
theorem inherited_place {out : Outside G} {base : Nodes α} : Inherited out (Place G) base :=
  ⟨fun _ _ field _ _ hfield _ => ⟨field, hfield⟩, fun _ _ _ _ _ _ => trivial⟩

/-- The nodes that a call has to make are its own, if the resolvers that it has to ask give
    what they stand for. -/
theorem inherited_open {out : Outside G} {nodes : Nodes α} {a : α}
    (h : ∀ y, Asked G nodes a y → out.given y = G.target y) :
    Inherited out (fun x => nodes x = none → Open G nodes a x) nodes where
  repeated b index field hnone hD hfield hrepeated := .repeated (hD hnone) hfield hrepeated
  given x y hnone hD hasks _ := by
    rw [h y ⟨x, hD hnone, hasks⟩]
    exact .target (hD hnone) hasks

/-- The nodes that a call leaves. -/
theorem Store.Valid.leaves {s : Store α} {nodes : Nodes α} (h : s.Valid G)
    (hnodes : Leaves (Place G) G s.nodes nodes) :
    Store.Valid G { s with nodes } where
  place x hx := by
    rcases hs : s.nodes x with _ | node
    · obtain ⟨node, hnode⟩ := Option.ne_none_iff_exists'.1 hx
      exact (hnodes.added x node hs hnode).1
    · exact h.place x (by rw [hs]; exact Option.some_ne_none node)
  kind x node hx := by
    rcases hs : s.nodes x with _ | node'
    · exact (hnodes.added x node hs hx).2.1
    · have heq := hnodes.kept x node' hs
      have hx : nodes x = some node := hx
      rw [hx] at heq
      cases heq
      exact h.kind x node hs
  closed x node y hx hy := by
    rcases hs : s.nodes x with _ | node'
    · exact (hnodes.added x node hs hx).2.2 y hy
    · have heq := hnodes.kept x node' hs
      have hx : nodes x = some node := hx
      rw [hx] at heq
      cases heq
      exact fun hnone => h.closed x node y hs hy (hnodes.kept.none_of hnone)
  cached x handle hx hnone := h.cached x handle hx (hnodes.kept.none_of hnone)
  registry := h.registry

/-- A node that is not there has no handle. -/
theorem Store.Valid.no_handle {s : Store α} (hs : s.Valid G) {x : Identity α}
    (hx : s.nodes x = none) :
    s.wasmHandle x = none := by
  rcases h : s.wasmHandle x with _ | handle
  · rfl
  · exact absurd hx (hs.cached x handle h)

/-- What is registered at the beginning of a call. -/
def Store.start (s : Store α) : Registry α := ⟨s.wasmHandle, s.count, [], []⟩

variable [DecidableEq α]

/-- Nothing is left of the handles that a call has given, if it rolls them back. -/
theorem rollback_eq {s : Store α} {g : Registry α} (h : Grows s.start g) :
    rollback g.touched g.wasmHandle = s.wasmHandle := by
  funext x
  rw [rollback]
  split
  · rename_i hmem
    rcases h.touched x hmem with hmem | hnone
    · exact absurd hmem List.not_mem_nil
    · exact hnone.symm
  · rename_i hmem
    rcases hs : s.wasmHandle x with _ | handle
    · rcases hg : g.wasmHandle x with _ | handle
      · rfl
      · exact absurd (h.fresh x handle hs hg).2 hmem
    · exact h.kept x handle hs

/-! ## Calls -/

/-- How a call ends: the decoder is not there, the nodes cannot be made, the nodes cannot be
    registered, or it returns. -/
inductive Ends (out : Outside G) (fuel : ℕ) (a : α) (s : Store α) : Ended α → Prop
  | uninitialized {e : Thrown α} (h : out.requireWasmInitialized = .error e) :
      Ends out fuel a s ⟨.error e, s, []⟩
  | unresolved {e : Thrown α} {nodes : Nodes α} (h : out.requireWasmInitialized = .ok ⟨⟩)
      (hnodes : schemaNode out fuel a s.nodes = some (.error e, nodes)) :
      Ends out fuel a s ⟨.error e, { s with nodes }, []⟩
  | refused {e : Thrown α} {x : Identity α} {nodes : Nodes α} {g : Registry α}
      (h : out.requireWasmInitialized = .ok ⟨⟩)
      (hnodes : schemaNode out fuel a s.nodes = some (.ok x, nodes))
      (hregister : register out nodes fuel x s.start = some (.error e, g)) :
      Ends out fuel a s
        ⟨.error e, ⟨nodes, rollback g.touched g.wasmHandle, g.count⟩, g.commits⟩
  | returned {handle : ℕ} {x : Identity α} {nodes : Nodes α} {g : Registry α}
      (h : out.requireWasmInitialized = .ok ⟨⟩)
      (hnodes : schemaNode out fuel a s.nodes = some (.ok x, nodes))
      (hregister : register out nodes fuel x s.start = some (.ok handle, g)) :
      Ends out fuel a s ⟨.ok handle, ⟨nodes, g.wasmHandle, g.count⟩, g.commits⟩

theorem compiledSchemaHandle_ends {out : Outside G} {fuel : ℕ} {a : α} {s : Store α}
    {ended : Ended α} (h : compiledSchemaHandle out fuel a s = some ended) :
    Ends out fuel a s ended := by
  have hstart : (⟨s.wasmHandle, s.count, [], []⟩ : Registry α) = s.start := rfl
  rw [compiledSchemaHandle, hstart] at h
  rcases hinit : out.requireWasmInitialized with e | _
  · simp only [hinit] at h
    cases h
    exact .uninitialized hinit
  rcases hnodes : schemaNode out fuel a s.nodes with _ | ⟨e | x, nodes⟩
  · simp only [hinit, hnodes] at h
    cases h
  · simp only [hinit, hnodes] at h
    cases h
    exact .unresolved hinit hnodes
  rcases hregister : register out nodes fuel x s.start with _ | ⟨e | handle, g⟩
  · simp only [hinit, hnodes, hregister] at h
    cases h
  · simp only [hinit, hnodes, hregister] at h
    cases h
    exact .refused hinit hnodes hregister
  · simp only [hinit, hnodes, hregister] at h
    cases h
    exact .returned hinit hnodes hregister

theorem compiledSchemaHandle_of_ok {out : Outside G} {fuel : ℕ} {a : α} {s : Store α}
    {x : Identity α} {nodes : Nodes α} {handle : ℕ} {g : Registry α}
    (h : out.requireWasmInitialized = .ok ⟨⟩)
    (hnodes : schemaNode out fuel a s.nodes = some (.ok x, nodes))
    (hregister : register out nodes fuel x s.start = some (.ok handle, g)) :
    compiledSchemaHandle out fuel a s =
      some ⟨.ok handle, ⟨nodes, g.wasmHandle, g.count⟩, g.commits⟩ := by
  have hstart : (⟨s.wasmHandle, s.count, [], []⟩ : Registry α) = s.start := rfl
  rw [compiledSchemaHandle, hstart]
  simp only [h, hnodes, hregister]

/-- The nodes that a call for a type adds, where any property is inherited. -/
theorem nodes_of_ok {out : Outside G} {D : Identity α → Prop} {fuel : ℕ} {a : α} {s nodes : Nodes α}
    {x : Identity α} (hinherited : Inherited out D s) (hD : D (.type a))
    (h : schemaNode out fuel a s = some (.ok x, nodes)) :
    x = .type a ∧ Adds out D s nodes ∧ nodes (.type a) ≠ none :=
  (schemaNode_spec hinherited fuel (fun _ _ h => h) hD).of_ok rfl h

theorem nodes_of_error {out : Outside G} {D : Identity α → Prop} {fuel : ℕ} {a : α}
    {s nodes : Nodes α} {e : Thrown α} (hinherited : Inherited out D s) (hD : D (.type a))
    (h : schemaNode out fuel a s = some (.error e, nodes)) :
    Leaves D G s nodes ∧ Faulty out D s ∧ ∃ node,
      nodes (.type a) = some node ∧ Unfinished G a node :=
  (schemaNode_spec hinherited fuel (fun _ _ h => h) hD).of_error rfl h

/-- A call, whatever others do, leaves the store as it should be. -/
theorem Ends.valid {out : Outside G} {fuel : ℕ} {a : α} {s : Store α} {ended : Ended α}
    (h : Ends out fuel a s ended) (hs : s.Valid G) : ended.store.Valid G := by
  cases h with
  | uninitialized _ => exact hs
  | unresolved _ hnodes => exact hs.leaves (nodes_of_error inherited_place trivial hnodes).1
  | refused _ hnodes hregister =>
    have hvalid := hs.leaves (nodes_of_ok inherited_place trivial hnodes).2.1.leaves
    have hgrows := (register_spec _ _ s.start).of_error rfl hregister
    have hroll := rollback_eq hgrows
    refine ⟨hvalid.place, hvalid.kind, hvalid.closed, ?_, ?_, ?_⟩
    · intro x handle hx
      exact hvalid.cached x handle (hroll ▸ hx)
    · intro x y handle hx hy
      exact hs.registry.unique x y handle (hroll ▸ hx) (hroll ▸ hy)
    · intro x handle hx
      exact (hs.registry.given x handle (hroll ▸ hx)).trans hgrows.count_le
  | returned _ hnodes hregister =>
    have hvalid := hs.leaves (nodes_of_ok inherited_place trivial hnodes).2.1.leaves
    obtain ⟨-, hgrows, plans, hplans⟩ := (register_spec _ _ s.start).of_ok rfl hregister
    have hgvalid := hgrows.valid hs.registry
    refine ⟨hvalid.place, hvalid.kind, hvalid.closed, fun x handle hx => ?_, hgvalid.unique,
      hgvalid.given⟩
    rcases hstart : s.wasmHandle x with _ | handle'
    · obtain ⟨node, hnode, -⟩ := hplans.all x handle hstart hx
      exact fun hnone => (by cases hnode.symm.trans hnone)
    · exact hvalid.cached x handle' hstart

/-! ## Later calls -/

/-- The stores that there can be between calls, whatever others do during a call. -/
inductive Reached (G : Graph α) : Store α → Prop
  | initial : Reached G Store.initial
  | call {s : Store α} {out : Outside G} {fuel : ℕ} {a : α} {ended : Ended α} (h : Reached G s)
      (hcall : compiledSchemaHandle out fuel a s = some ended) : Reached G ended.store

/-- Calls, one after another, where nothing fails: each for a type, with the handle that it
    returns and with what it commits. -/
inductive Later (G : Graph α) : Store α → List (α × ℕ × List (ℕ × Plan)) → Prop
  | nil {s : Store α} : Later G s []
  | cons {s t : Store α} {a : α} {handle : ℕ} {plans : List (ℕ × Plan)}
      {calls : List (α × ℕ × List (ℕ × Plan))}
      (fuel : ℕ) (hcall : compiledSchemaHandle (Outside.sound G) fuel a s =
        some ⟨.ok handle, t, plans⟩)
      (hrest : Later G t calls) : Later G s ((a, handle, plans) :: calls)

/-- What the calls do in the one store, they do in the other one as well, with other numbers
    for the handles that are given from now on. -/
def AsIf (G : Graph α) (s s' : Store α) : Prop :=
  ∃ ρ : ℕ → ℕ, Function.Injective ρ ∧ (∀ handle ≤ s.count, ρ handle = handle) ∧
    ∀ calls, Later G s calls →
      Later G s' (calls.map fun call => (call.1, ρ call.2.1, renamed ρ call.2.2))

theorem Reached.valid {s : Store α} (h : Reached G s) : s.Valid G := by
  induction h with
  | initial => exact valid_initial
  | call _ hcall ih => exact (compiledSchemaHandle_ends hcall).valid ih

/-! ## Caches that cannot be told apart -/

/-- A store with nodes that the other one lacks, which are finished, and with other
    numbers for the handles above a bound. -/
structure Similar (G : Graph α) (bound k : ℕ) (s s' : Store α) : Prop where
  kept : Kept s.nodes s'.nodes
  extra : ∀ x node, s.nodes x = none → s'.nodes x = some node → node = content G G.target x
  handle : ∀ x, s'.wasmHandle x = (s.wasmHandle x).map (raise bound k)
  count : s'.count = s.count + k
  above : bound ≤ s.count

/-- A call returns where the resolvers give the types that they stand for and the decoder has
    room for every node. -/
theorem accepts_returns {out : Outside G} (hinit : out.requireWasmInitialized = .ok ⟨⟩)
    (hresolves : out.Resolves) (haccepts : out.Accepts {x | Place G x}.ncard) {s : Store α}
    (hs : s.Valid G) (a : α) :
    ∃ fuel handle t plans, compiledSchemaHandle out fuel a s = some ⟨.ok handle, t, plans⟩ := by
  have := G.finite
  -- There are no more types, and no more nodes, than this.
  obtain ⟨fuel, htypes, hplaces⟩ : ∃ fuel, Nat.card α < fuel ∧ {x | Place G x}.ncard < fuel :=
    ⟨max (Nat.card α) {x | Place G x}.ncard + 1, Nat.lt_succ_of_le (le_max_left _ _),
      Nat.lt_succ_of_le (le_max_right _ _)⟩
  have hlacks : Lacks fuel s.nodes := (Set.ncard_le_card _).trans_lt htypes
  obtain ⟨x, nodes, hnodes, -⟩ := schemaNode_returns (G := G) fuel a s.nodes hlacks
  have hresolver : (Outside.sound G).resolver = out.resolver := funext fun x => (hresolves x).symm
  rw [schemaNode_congr hresolver] at hnodes
  obtain ⟨rfl, hadds, hmem⟩ := nodes_of_ok inherited_place trivial hnodes
  have hvalid := hs.leaves hadds.leaves
  have hfinite : {x | nodes x ≠ none}.Finite := (finite_places G).subset hvalid.place
  have hfew : (unregistered nodes s.start).ncard ≤ {x | Place G x}.ncard :=
    Set.ncard_le_ncard (fun y hy => hvalid.place y hy.1) (finite_places G)
  have hfewer : Fewer nodes fuel {x | Place G x}.ncard s.start :=
    ⟨hfew.trans_lt hplaces, (Nat.zero_add _).trans_le hfew⟩
  obtain ⟨handle, g, hregister, -⟩ :=
    register_returns haccepts hfinite hvalid.closed fuel hmem s.start hfewer
  exact ⟨fuel, handle, _, _, compiledSchemaHandle_of_ok hinit hnodes hregister⟩

/-- Where nothing fails, a call returns. -/
theorem sound_returns {s : Store α} (hs : s.Valid G) (a : α) :
    ∃ fuel handle t plans, compiledSchemaHandle (Outside.sound G) fuel a s =
      some ⟨.ok handle, t, plans⟩ :=
  accepts_returns rfl (fun _ => rfl) ⟨fun _ _ => rfl, fun _ _ => rfl⟩ hs a

omit [DecidableEq α] in
/-- The nodes that a call makes in the one cache are in the other one as well, once the call
    has been made there. -/
theorem Similar.nodes {bound k : ℕ} {s s' : Store α} {a : α} {nodes nodes' : Nodes α}
    (h : Similar G bound k s s') (hs' : s'.Valid G)
    (hadds : Adds (Outside.sound G) (fun x => s.nodes x = none → Open G s.nodes a x) s.nodes nodes)
    (hadds' : Adds (Outside.sound G) (Place G) s'.nodes nodes') (hroot : nodes' (.type a) ≠ none) :
    Kept nodes nodes' ∧ ∀ x node, nodes x = none → nodes' x = some node →
      node = content G G.target x := by
  have hvalid' := hs'.leaves hadds'.leaves
  -- Whatever the first cache lacked at first is finished in the second one.
  have hfinished : ∀ x node, s.nodes x = none → nodes' x = some node →
      node = content G G.target x := by
    intro x node hx hnode
    rcases hx' : s'.nodes x with _ | node'
    · exact (hadds'.added x node hx' hnode).2.1.1
    · have heq := hadds'.kept x node' hx'
      rw [hnode] at heq
      cases heq
      exact h.extra x node hx hx'
  have hopen : ∀ x, Open G s.nodes a x → nodes' x = some (content G G.target x) := by
    intro x hx
    have hmem : nodes' x ≠ none := by
      induction hx with
      | root => exact hroot
      | @repeated b index field hb hfield hrepeated _ ih =>
        obtain ⟨node, hnode⟩ := Option.ne_none_iff_exists'.1 ih
        have heq := hfinished _ node hb.none hnode
        exact hvalid'.closed _ node _ hnode (heq ▸ hfield.refers hrepeated G.target)
      | @target x y hx hasks _ ih =>
        obtain ⟨node, hnode⟩ := Option.ne_none_iff_exists'.1 ih
        have heq := hfinished _ node hx.none hnode
        exact hvalid'.closed _ node _ hnode (heq ▸ hasks.refers G.target)
    obtain ⟨node, hnode⟩ := Option.ne_none_iff_exists'.1 hmem
    rw [hnode, hfinished x node hx.none hnode]
  refine ⟨fun x node hnode => ?_, fun x node hx hnode => ?_⟩
  · rcases hx : s.nodes x with _ | node'
    · obtain ⟨hD, hnode', -⟩ := hadds.added x node hx hnode
      rw [hopen x (hD hx), hnode'.1]
      rfl
    · have heq := hadds.kept x node' hx
      rw [hnode] at heq
      cases heq
      exact hadds'.kept x node (h.kept x node hx)
  · exact hfinished x node (hadds.leaves.kept.none_of hx) hnode

/-- A call where nothing fails does in the one store what it does in the other. -/
theorem Similar.call {bound k fuel handle : ℕ} {s s' t : Store α} {a : α} {plans : List (ℕ × Plan)}
    (h : Similar G bound k s s') (hs' : s'.Valid G)
    (hcall : compiledSchemaHandle (Outside.sound G) fuel a s = some ⟨.ok handle, t, plans⟩) :
    ∃ fuel' t', compiledSchemaHandle (Outside.sound G) fuel' a s' =
      some ⟨.ok (raise bound k handle), t', renamed (raise bound k) plans⟩ ∧
        Similar G bound k t t' := by
  obtain ⟨fuel', handle', t', plans', hcall'⟩ := sound_returns hs' a
  refine ⟨fuel', t', ?_⟩
  rcases compiledSchemaHandle_ends hcall with _ | _ | _ | ⟨-, hnodes, hregister⟩
  rcases compiledSchemaHandle_ends hcall' with _ | _ | _ | ⟨-, hnodes', hregister'⟩
  have hinherited : Inherited (Outside.sound G) (fun x => s.nodes x = none → Open G s.nodes a x)
    s.nodes :=
    inherited_open fun _ _ => rfl
  obtain ⟨rfl, hadds, -⟩ := nodes_of_ok hinherited (fun hnone => .root hnone) hnodes
  obtain ⟨rfl, hadds', hroot⟩ := nodes_of_ok inherited_place trivial hnodes'
  obtain ⟨hkept, hextra⟩ := h.nodes hs' hadds hadds' hroot
  have hstart : Raised bound k s.start s'.start := ⟨h.handle, h.count, h.above, rfl⟩
  obtain ⟨rfl, hraised⟩ := register_agree hkept _ _ _ _ _ hstart _ _ _ _ hregister hregister'
  refine ⟨?_, hkept, hextra, hraised.handle, hraised.count, hraised.above⟩
  rw [hcall', hraised.commits]

theorem Similar.later {bound k : ℕ} {s s' : Store α} {calls : List (α × ℕ × List (ℕ × Plan))}
    (h : Similar G bound k s s') (hs' : s'.Valid G) (hcalls : Later G s calls) :
    Later G s' (calls.map fun call =>
      (call.1, raise bound k call.2.1, renamed (raise bound k) call.2.2)) := by
  induction hcalls generalizing s' with
  | nil => exact .nil
  | cons fuel hcall _ ih =>
    obtain ⟨fuel', t', hcall', hsimilar⟩ := h.call hs' hcall
    exact .cons fuel' hcall' (ih hsimilar ((compiledSchemaHandle_ends hcall').valid hs'))

theorem Similar.asIf {k : ℕ} {s s' : Store α} (h : Similar G s.count k s s') (hs' : s'.Valid G) :
    AsIf G s s' :=
  ⟨raise s.count k, raise_injective _ _, fun _ hle => if_pos hle,
    fun _ hcalls => h.later hs' hcalls⟩

omit [DecidableEq α] in
/-- The handles that there are are not above the bound. -/
theorem raised_self {k : ℕ} {s : Store α} (hs : s.Valid G) (x : Identity α) :
    s.wasmHandle x = (s.wasmHandle x).map (raise s.count k) := by
  cases hx : s.wasmHandle x with
  | none => rfl
  | some handle => rw [Option.map_some, raise, if_pos (hs.registry.given x handle hx)]

theorem asIf_self {s : Store α} (hs : s.Valid G) : AsIf G s s := by
  have hself : Similar G s.count 0 s s := ⟨fun _ _ h => h,
    fun x node hx hnode => (by cases hx.symm.trans hnode), raised_self hs, rfl, le_rfl⟩
  exact hself.asIf hs

/-- A call that throws leaves no trace if all resolvers that it has to ask gave what they
    stand for. -/
theorem Ends.asIf {out : Outside G} {fuel : ℕ} {a : α} {s : Store α} {ended : Ended α}
    {e : Thrown α} (h : Ends out fuel a s ended) (hs : s.Valid G) (herror : ended.result = .error e)
    (hasked : ∀ y, Asked G s.nodes a y → out.resolver y = .ok (G.target y)) :
    AsIf G s ended.store := by
  have hgiven : ∀ y, Asked G s.nodes a y → out.given y = G.target y := fun y hy => by
    rw [Outside.given, hasked y hy]
  have hinherited := inherited_open hgiven
  have hvalid := h.valid hs
  cases h with
  | uninitialized _ => exact asIf_self hs
  | unresolved _ hnodes =>
    -- Every resolver has answered.
    obtain ⟨-, ⟨x, y, hx, hD, hasks, hno⟩, -⟩ :=
      nodes_of_error hinherited (fun hnone => .root hnone) hnodes
    have hy : Asked G s.nodes a y := ⟨x, hD hx, hasks⟩
    refine absurd ⟨?_, fun _ _ _ => hgiven y hy⟩ hno
    rw [hasked y hy, hgiven y hy]
  | @refused _ _ nodes g _ hnodes hregister =>
    obtain ⟨-, hadds, -⟩ := nodes_of_ok hinherited (fun hnone => .root hnone) hnodes
    have hgrows := (register_spec _ _ s.start).of_error rfl hregister
    have hcount : s.count ≤ g.count := hgrows.count_le
    have hsimilar : Similar G s.count (g.count - s.count) s
        ⟨nodes, rollback g.touched g.wasmHandle, g.count⟩ := by
      refine ⟨hadds.kept, fun x node hx hnode => ?_, fun x => ?_,
        (Nat.add_sub_cancel' hcount).symm, le_rfl⟩
      · obtain ⟨hD, hfinished, -⟩ := hadds.added x node hx hnode
        rw [hfinished.1]
        exact content_congr fun y hy => hgiven y ⟨x, hD hx, hy⟩
      · simp only [rollback_eq hgrows]
        exact raised_self hs x
    exact hsimilar.asIf hvalid
  | returned _ _ _ => cases herror

/-! ## Traces of a call that throws -/

/-- What a call that returns, where nothing fails, has committed. -/
structure Returned (G : Graph α) (s t : Store α) (a : α) (handle : ℕ) (plans : List (ℕ × Plan)) :
    Prop where
  root : t.wasmHandle (.type a) = some handle
  adds : Adds (Outside.sound G) (Place G) s.nodes t.nodes
  kept : ∀ x handle, s.wasmHandle x = some handle → t.wasmHandle x = some handle
  valid : t.Valid G
  commits : Commits t.nodes s.start ⟨t.wasmHandle, t.count, [], plans⟩ plans

theorem returned_of_call {fuel handle : ℕ} {s t : Store α} {a : α} {plans : List (ℕ × Plan)}
    (hs : s.Valid G)
    (hcall : compiledSchemaHandle (Outside.sound G) fuel a s = some ⟨.ok handle, t, plans⟩) :
    Returned G s t a handle plans := by
  have hends := compiledSchemaHandle_ends hcall
  have hvalid := hends.valid hs
  rcases hends with _ | _ | _ | ⟨-, hnodes, hregister⟩
  obtain ⟨rfl, hadds, -⟩ := nodes_of_ok inherited_place trivial hnodes
  obtain ⟨hroot, hgrows, plans, hplans⟩ := (register_spec _ _ s.start).of_ok rfl hregister
  have heq := hplans.commits
  rw [Store.start, List.nil_append] at heq
  cases heq
  exact ⟨hroot, hadds, hgrows.kept, hvalid, rfl, hplans.all, hplans.only⟩

/-- The kind of a plan. -/
def Plan.kind : Plan → Kind
  | message _ => .message
  | array _ _ => .array
  | map _ _ _ => .map

theorem Plan.rename_kind (ρ : ℕ → ℕ) (plan : Plan) : (plan.rename ρ).kind = plan.kind := by
  cases plan with
  | message fields => rfl
  | array valueKind child => rfl
  | map keyKind valueKind child => rfl

omit [DecidableEq α] in
theorem planOf_kind (handle : Identity α → Option ℕ) (node : SchemaNode α) :
    (planOf handle node).kind = node.kind := by
  cases node with
  | message fields => rfl
  | array valueKind child => rfl
  | map keyKind valueKind child => rfl

omit [DecidableEq α] in
theorem content_type_kind (τ : Identity α → α) (a : α) :
    (content G τ (.type a)).kind = (G.shape a).kind := by
  rw [content]
  cases G.shape a with
  | message fields => rfl
  | array valueKind => rfl
  | map keyKind valueKind => rfl

section

variable {ρ : ℕ → ℕ} {s s' t t' : Store α} {a : α} {handle : ℕ} {plans : List (ℕ × Plan)}

omit [DecidableEq α] in
/-- Nodes with the same handle, but for the numbers, have the same plan. -/
theorem Returned.plan_eq (hρ : Function.Injective ρ) (h : Returned G s t a handle plans)
    (h' : Returned G s' t' a (ρ handle) (renamed ρ plans)) {x x' : Identity α} {handle' : ℕ}
    (hx : t.wasmHandle x = some handle') (hx' : t'.wasmHandle x' = some (ρ handle'))
    (hnone : s'.wasmHandle x' = none) :
    ∃ node node', t.nodes x = some node ∧ t'.nodes x' = some node' ∧
      (planOf t.wasmHandle node).rename ρ = planOf t'.wasmHandle node' ∧
      ∀ y, node.Refers y → t.wasmHandle y ≠ none := by
  obtain ⟨node', hnode', hmem, -⟩ := h'.commits.all x' _ hnone hx'
  obtain ⟨⟨handle₂, plan⟩, hplan, heq⟩ := List.mem_map.1 hmem
  obtain ⟨hhandle, hplan'⟩ := Prod.ext_iff.1 heq
  obtain rfl : handle₂ = handle' := hρ hhandle
  obtain ⟨z, node, -, hz, hnode, rfl, hrefers⟩ := h.commits.only _ hplan
  obtain rfl : z = x := h.valid.registry.unique z x _ hz hx
  exact ⟨node, node', hnode, hnode', hplan', hrefers⟩

/-- A later call for a type, in both stores. -/
theorem AsIf.returned (h : AsIf G s s') (hs : s.Valid G) (hs' : s'.Valid G) (b : α) :
    ∃ ρ : ℕ → ℕ, Function.Injective ρ ∧ (∀ handle ≤ s.count, ρ handle = handle) ∧
      ∃ t t' handle plans,
      Returned G s t b handle plans ∧ Returned G s' t' b (ρ handle) (renamed ρ plans) := by
  obtain ⟨ρ, hinjective, hfix, hlater⟩ := h
  obtain ⟨fuel, handle, t, plans, hcall⟩ := sound_returns hs b
  have hcalls := hlater _ (.cons fuel hcall .nil)
  rcases hcalls with _ | ⟨fuel', hcall', -⟩
  exact ⟨ρ, hinjective, hfix, t, _, handle, plans, returned_of_call hs hcall,
    returned_of_call hs' hcall'⟩

/-- The plan of the type itself. -/
theorem AsIf.plan_eq (h : AsIf G s s') (hs : s.Valid G) (hs' : s'.Valid G) {b : α}
    {node : SchemaNode α} (hnone : s.nodes (.type b) = none)
    (hnode : s'.nodes (.type b) = some node) (hhandle : s'.wasmHandle (.type b) = none) :
    ∃ ρ : ℕ → ℕ, Function.Injective ρ ∧ (∀ handle ≤ s.count, ρ handle = handle) ∧
      ∃ t t' handle plans,
      Returned G s t b handle plans ∧ Returned G s' t' b (ρ handle) (renamed ρ plans) ∧
      (planOf t.wasmHandle (content G G.target (.type b))).rename ρ = planOf t'.wasmHandle node ∧
      ∀ y, (content G G.target (.type b)).Refers y → t.wasmHandle y ≠ none := by
  obtain ⟨ρ, hinjective, hfix, t, t', handle, plans, hret, hret'⟩ := h.returned hs hs' b
  obtain ⟨node₁, node₂, hnode₁, hnode₂, hplan, hrefers⟩ :=
    hret.plan_eq hinjective hret' hret.root hret'.root hhandle
  have hfinished := (hret.adds.added _ _ hnone hnode₁).2.1.1
  have heq := hret'.adds.kept _ _ hnode
  rw [hnode₂] at heq
  cases heq
  rw [hfinished] at hplan hrefers
  exact ⟨ρ, hinjective, hfix, t, t', handle, plans, hret, hret', hplan, hrefers⟩

/-- The node of a type that is not finished shows. -/
theorem AsIf.not_unfinished (h : AsIf G s s') (hs : s.Valid G) (hs' : s'.Valid G) {b : α}
    {node : SchemaNode α} (hnone : s.nodes (.type b) = none)
    (hnode : s'.nodes (.type b) = some node) (hhandle : s'.wasmHandle (.type b) = none) :
    ¬Unfinished G b node := by
  intro hunfinished
  obtain ⟨ρ, -, -, t, t', -, -, -, -, hplan, hrefers⟩ := h.plan_eq hs hs' hnone hnode hhandle
  -- The plan has as many fields, or it has a child.
  have hchild : ∀ valueKind, valueKind.isComplexKind = true →
      ((∀ y, containerChild valueKind (G.target (.type b)) = some y → t.wasmHandle y ≠ none) →
        ((containerChild valueKind (G.target (.type b))).bind t.wasmHandle).map ρ ≠ none) := by
    intro valueKind hcomplex hall heq
    rw [containerChild, if_pos hcomplex] at hall heq
    exact hall _ rfl (Option.map_eq_none_iff.1 heq)
  cases node with
  | message done =>
    cases hshape : G.shape b with
    | message fields =>
      rw [content, hshape] at hplan
      injection hplan with hfields
      have hlength := congrArg List.length hfields
      rw [List.length_map, List.length_map, List.length_map, List.length_mapIdx] at hlength
      rw [Unfinished, hshape, ← hlength] at hunfinished
      exact lt_irrefl _ hunfinished
    | array valueKind =>
      rw [content, hshape] at hplan
      cases hplan
    | map keyKind valueKind =>
      rw [content, hshape] at hplan
      cases hplan
  | array valueKind child =>
    obtain ⟨hcomplex, rfl⟩ := hunfinished
    rw [valueKindOf] at hcomplex
    cases hshape : G.shape b with
    | message fields =>
      rw [hshape] at hcomplex
      cases hcomplex
    | array valueKind' =>
      rw [content, hshape] at hplan hrefers
      rw [hshape] at hcomplex
      injection hplan with _ hnil
      exact hchild valueKind' hcomplex hrefers hnil
    | map keyKind valueKind' =>
      rw [content, hshape] at hplan
      cases hplan
  | map keyKind valueKind child =>
    obtain ⟨hcomplex, rfl⟩ := hunfinished
    rw [valueKindOf] at hcomplex
    cases hshape : G.shape b with
    | message fields =>
      rw [hshape] at hcomplex
      cases hcomplex
    | array valueKind' =>
      rw [content, hshape] at hplan
      cases hplan
    | map keyKind valueKind' =>
      rw [content, hshape] at hplan hrefers
      rw [hshape] at hcomplex
      injection hplan with _ _ hnil
      exact hchild valueKind' hcomplex hrefers hnil

/-- A child of the wrong kind shows. -/
theorem AsIf.child_kind (h : AsIf G s s') (hs : s.Valid G) (hs' : s'.Valid G) {b : α}
    {τ : Identity α → α} (hnone : s.nodes (.type b) = none)
    (hnode : s'.nodes (.type b) = some (content G τ (.type b)))
    (hhandles : s'.wasmHandle = s.wasmHandle) (hasks : Asks G (.type b) (.type b)) :
    τ (.type b) = G.target (.type b) ∨ (G.shape (τ (.type b))).kind =
      (G.shape (G.target (.type b))).kind := by
  have hhandle : s'.wasmHandle (.type b) = none := by
    rw [hhandles]
    exact hs.no_handle hnone
  obtain ⟨ρ, hinjective, hfix, t, t', handle, plans, hret, hret', hplan, hrefers⟩ :=
    h.plan_eq hs hs' hnone hnode hhandle
  -- The handles of the children correspond.
  have hchildren : t'.wasmHandle (.type (τ (.type b))) =
      (t.wasmHandle (.type (G.target (.type b)))).map ρ := by
    rcases hasks with hcomplex | _ | _
    have hbind : ∀ valueKind, valueKind.isComplexKind = true →
        ((containerChild valueKind (G.target (.type b))).bind t.wasmHandle).map ρ =
          (containerChild valueKind (τ (.type b))).bind t'.wasmHandle →
        t'.wasmHandle (.type (τ (.type b))) =
          (t.wasmHandle (.type (G.target (.type b)))).map ρ := by
      intro valueKind hvalue heq
      rw [containerChild, containerChild, if_pos hvalue, if_pos hvalue] at heq
      exact heq.symm
    rw [valueKindOf] at hcomplex
    cases hshape : G.shape b with
    | message fields =>
      rw [hshape] at hcomplex
      cases hcomplex
    | array valueKind =>
      rw [hshape] at hcomplex
      rw [content, content, hshape] at hplan
      injection hplan with _ heq
      exact hbind valueKind hcomplex heq
    | map keyKind valueKind =>
      rw [hshape] at hcomplex
      rw [content, content, hshape] at hplan
      injection hplan with _ _ heq
      exact hbind valueKind hcomplex heq
  obtain ⟨child, hchild⟩ := Option.ne_none_iff_exists'.1 (hrefers _ (hasks.refers G.target))
  rw [hchild, Option.map_some] at hchildren
  rcases hold : s'.wasmHandle (.type (τ (.type b))) with _ | old
  · -- Both children are registered by the call.
    obtain ⟨node, node', hnode, hnode', hplan', -⟩ :=
      hret.plan_eq hinjective hret' hchild hchildren hold
    right
    have hkind := congrArg Plan.kind hplan'
    rw [Plan.rename_kind, planOf_kind, planOf_kind, hret.valid.kind _ _ hnode,
      hret'.valid.kind _ _ hnode', content_type_kind, content_type_kind] at hkind
    exact hkind.symm
  · -- The child has a handle from before, so that it is the same.
    left
    have hold' : s.wasmHandle (.type (τ (.type b))) = some old := by rw [← hhandles, hold]
    have heq := hret'.kept _ _ hold
    rw [hchildren, ← hfix old (hs.registry.given _ _ hold')] at heq
    have hsame := hret.valid.registry.unique _ _ _ (hret.kept _ _ hold')
      (hinjective (Option.some.inj heq) ▸ hchild)
    injection hsame

end

/-- A call for a type that is in the cache does not throw. -/
theorem schemaNode_cached {out : Outside G} {fuel : ℕ} {a : α} {s t : Nodes α} {e : Thrown α}
    (h : schemaNode out fuel a s = some (.error e, t)) : s (.type a) = none := by
  cases fuel with
  | zero => cases h
  | succ fuel =>
    rcases hs : s (.type a) with _ | node
    · rfl
    · simp only [schemaNode, hs] at h
      cases h

/-- The nodes that a call has made are finished with what the resolvers stand for, if the
    call leaves no trace. -/
theorem AsIf.resolved {out : Outside G} {fuel : ℕ} {a : α} {s t : Store α} {x : Identity α}
    (h : AsIf G s t) (hs : s.Valid G) (ht : t.Valid G) (hhandles : t.wasmHandle = s.wasmHandle)
    (hnodes : schemaNode out fuel a s.nodes = some (.ok x, t.nodes)) :
    ∀ y, Asked G s.nodes a y → out.resolver y = .ok (G.target y) := by
  obtain ⟨-, hadds, hroot⟩ := nodes_of_ok inherited_place trivial hnodes
  have hnew : ∀ x, s.nodes x = none → t.nodes x ≠ none → t.nodes x = some (content G out.given x) ∧
      ∀ y, Asks G x y → out.resolver y = .ok (G.target y) ∧ out.given y = G.target y := by
    intro x hx hmem
    obtain ⟨node, hnode⟩ := Option.ne_none_iff_exists'.1 hmem
    obtain ⟨-, ⟨rfl, hanswers⟩, -⟩ := hadds.added x node hx hnode
    refine ⟨hnode, fun y hy => ?_⟩
    obtain ⟨hresolver, hfield⟩ := hanswers y hy
    suffices hgiven : out.given y = G.target y from ⟨by rw [hresolver, hgiven], hgiven⟩
    cases hy with
    | @container b hcomplex =>
      rcases h.child_kind hs ht hx hnode hhandles (.container hcomplex) with heq | hkind
      · exact heq
      · exact out.resolver_kind _ _ hresolver (hkind.trans (G.target_kind _ hcomplex))
    | repeated => exact hfield _ _ rfl
    | field => exact hfield _ _ rfl
  have hopen : ∀ x, Open G s.nodes a x → t.nodes x ≠ none := by
    intro x hx
    induction hx with
    | root => exact hroot
    | @repeated b index field hb hfield hrepeated _ ih =>
      obtain ⟨hnode, -⟩ := hnew _ hb.none ih
      exact ht.closed _ _ _ hnode (hfield.refers hrepeated out.given)
    | @target x y hx hasks _ ih =>
      obtain ⟨hnode, hall⟩ := hnew x hx.none ih
      rw [← (hall y hasks).2]
      exact ht.closed _ _ _ hnode (hasks.refers out.given)
  rintro y ⟨x, hx, hasks⟩
  exact ((hnew x hx.none (hopen x hx)).2 y hasks).1

/-- **Calls that fail.** Take any store that calls, whatever others did during them, can
    lead to, and a call that throws from there. Later calls where nothing fails commit the
    same plans and return equivalent handles, as if the call had not been made, exactly if
    the decoder was not there, or every resolver that the call had to ask gave the type that
    it stands for: if it was the decoder that refused a handle or a plan. -/
theorem compiledSchemaHandle_atomic_iff {s t : Store α} {out : Outside G} {fuel : ℕ} {a : α}
    {e : Thrown α} {plans : List (ℕ × Plan)} (hs : Reached G s)
    (hcall : compiledSchemaHandle out fuel a s = some ⟨.error e, t, plans⟩) :
    AsIf G s t ↔ (∃ e, out.requireWasmInitialized = .error e) ∨
      ∀ y, Asked G s.nodes a y → out.resolver y = .ok (G.target y) := by
  have hvalid := hs.valid
  have hends := compiledSchemaHandle_ends hcall
  have hvalid' := hends.valid hvalid
  constructor
  · intro h
    cases hends with
    | uninitialized herror => exact .inl ⟨_, herror⟩
    | @unresolved _ nodes _ hnodes =>
      -- The node of the type is in the cache, and not finished.
      obtain ⟨-, -, node, hnode, hunfinished⟩ := nodes_of_error inherited_place trivial hnodes
      have hnone := schemaNode_cached hnodes
      exact absurd hunfinished
        (h.not_unfinished hvalid hvalid' hnone hnode (hvalid.no_handle hnone))
    | @refused _ x nodes g _ hnodes hregister =>
      have hgrows := (register_spec _ _ s.start).of_error rfl hregister
      exact .inr (h.resolved hvalid hvalid' (rollback_eq hgrows) hnodes)
  · rintro (⟨e', herror⟩ | hasked)
    · have hself : compiledSchemaHandle out fuel a s = some ⟨.error e', s, []⟩ := by
        rw [compiledSchemaHandle, herror]
      rw [hcall] at hself
      cases hself
      exact asIf_self hvalid
    · exact hends.asIf hvalid rfl hasked

end

/-- A message with a string and a message of another type, which has no fields. -/
def twoTypes : Graph Bool where
  finite := inferInstance
  shape a :=
    if a then .message []
    else .message [⟨"text", 0, false, .none, .string, none⟩,
      ⟨"child", 1, false, .none, .message, some true⟩]
  target _ := true
  target_kind := by
    rintro (_ | _) h
    · rename_i a
      cases a <;> cases h
    · rename_i a index
      match a, index, h with
      | false, 1, _ => rfl

/-- The decoder refuses plans. -/
def refusing : Outside twoTypes :=
  { Outside.sound twoTypes with
    commitDecodeSchema := fun _ _ => .error (.typeError "ProtoCache decode plan was rejected") }

/-- The resolvers throw. -/
def unresolving : Outside twoTypes :=
  { Outside.sound twoTypes with
    resolver := fun _ => .error (.typeError "not yet")
    resolver_kind := fun _ _ h => (by cases h) }

/-- If the decoder refuses the plans, the call for the first type leaves no trace. -/
theorem compiledSchemaHandle_atomic_refused :
    ∃ e t plans, compiledSchemaHandle refusing 3 false Store.initial = some ⟨.error e, t, plans⟩ ∧
      AsIf twoTypes Store.initial t := by
  obtain ⟨e, t, plans, hcall⟩ : ∃ e t plans,
      compiledSchemaHandle refusing 3 false Store.initial = some ⟨.error e, t, plans⟩ :=
        ⟨_, _, _, rfl⟩
  exact ⟨e, t, plans, hcall,
    (compiledSchemaHandle_atomic_iff .initial hcall).2 (.inr fun _ _ => rfl)⟩

/-- If the resolver of its second field throws, the call for the first type leaves its node
    with the first field only. -/
theorem compiledSchemaHandle_forgets :
    ∃ e t plans, compiledSchemaHandle unresolving 3 false Store.initial =
      some ⟨.error e, t, plans⟩ ∧
      ¬AsIf twoTypes Store.initial t := by
  obtain ⟨e, t, plans, hcall, hnode⟩ : ∃ e t plans,
      compiledSchemaHandle unresolving 3 false Store.initial = some ⟨.error e, t, plans⟩ ∧
        t.nodes (.type false) = some (.message [⟨0, .string, none⟩]) := ⟨_, _, _, rfl, rfl⟩
  have hends := compiledSchemaHandle_ends hcall
  refine ⟨e, t, plans, hcall, fun h => ?_⟩
  refine h.not_unfinished valid_initial (hends.valid valid_initial) rfl hnode ?_ Nat.one_lt_two
  cases hcall
  rfl

end ProtoCache.Typescript

import ProtoCache.Typescript.Handles
import Mathlib.Data.Set.Card

/-!
# What is in the cache of nodes

A call of `schemaNode` adds nodes to the cache. If it returns, they are finished: each says
what its type says, its children are what the resolvers gave, and they are in the cache.
If it throws, the node of the type that it was called for stays in the cache, unfinished.

* `schemaNode_spec`: the above, for any answers of the resolvers. The nodes that are added
  have a property that the children inherit;
* `schemaNode_returns`: if nothing fails, a call returns, as every call in it has one more
  type in the cache.
-/

namespace ProtoCache.Typescript

open Exceptional

section

variable {α : Type} {G : Graph α}

/-! ## Finished nodes -/

/-- The children that a node refers to. -/
def SchemaNode.Refers : SchemaNode α → Identity α → Prop
  | .message fields, y => ∃ field ∈ fields, field.child = some y
  | .array _ child, y => child = some y
  | .map _ _ child, y => child = some y

/-- The child of an array or of a map, if its resolver gives `type`. -/
def containerChild (valueKind : Kind) (type : α) : Option (Identity α) :=
  if valueKind.isComplexKind then some (.type type) else none

/-- The node of a field, if the resolvers give `τ`. -/
def fieldContent (τ : Identity α → α) (a : α) (index : ℕ) (field : Field α) : FieldNode α :=
  ⟨field.id, field.kind, if field.repeated then some (.field a index)
    else containerChild field.valueKind (τ (.field a index))⟩

/-- The array or the map that a repeated field is. -/
def fieldContainer (field : Field α) : Option (Identity α) → SchemaNode α :=
  if field.keyKind = .none then .array field.valueKind else .map field.keyKind field.valueKind

/-- The node of a type or of a repeated field, if the resolvers give `τ`. -/
def content (G : Graph α) (τ : Identity α → α) : Identity α → SchemaNode α
  | .type a =>
    match G.shape a with
    | .message fields => .message (fields.mapIdx (fieldContent τ a))
    | .array valueKind => .array valueKind (containerChild valueKind (τ (.type a)))
    | .map keyKind valueKind => .map keyKind valueKind (containerChild valueKind (τ (.type a)))
  | .field a index =>
    match (G.shape a).fields[index]? with
    | none => .message []
    | some field => fieldContainer field (containerChild field.valueKind (τ (.field a index)))

/-- What the resolvers give is of no account for the kind of a node. -/
theorem content_kind (τ τ' : Identity α → α) (x : Identity α) :
    (content G τ x).kind = (content G τ' x).kind := by
  rcases x with a | ⟨a, index⟩
  · rw [content, content]
    cases G.shape a with
    | message fields => rfl
    | array valueKind => rfl
    | map keyKind valueKind => rfl
  · rw [content, content]
    cases (G.shape a).fields[index]? with
    | none => rfl
    | some field =>
      simp only [fieldContainer]
      split
      · rfl
      · rfl

/-- The field of a message at a place. -/
def FieldAt (G : Graph α) (a : α) (index : ℕ) (field : Field α) : Prop :=
  ∃ fields, G.shape a = .message fields ∧ fields[index]? = some field

/-- The resolvers that are asked for a node to be finished. -/
inductive Asks (G : Graph α) : Identity α → Identity α → Prop
  | container {a : α} (h : (valueKindOf G.shape (.type a)).isComplexKind) :
      Asks G (.type a) (.type a)
  | repeated {a : α} {index : ℕ} {field : Field α} (hfield : FieldAt G a index field)
      (h : field.valueKind.isComplexKind) : Asks G (.field a index) (.field a index)
  | field {a : α} {index : ℕ} {field : Field α} (hfield : FieldAt G a index field)
      (hsingle : field.repeated = false) (h : field.valueKind.isComplexKind) :
      Asks G (.type a) (.field a index)

/-- The kind of the values of a field. -/
theorem FieldAt.valueKindOf {a : α} {index : ℕ} {field : Field α} (h : FieldAt G a index field) :
    valueKindOf G.shape (.field a index) = field.valueKind := by
  obtain ⟨fields, hshape, hindex⟩ := h
  simp only [Typescript.valueKindOf, Shape.fields, hshape, hindex]

theorem FieldAt.unique {a : α} {index : ℕ} {field field' : Field α} (h : FieldAt G a index field)
    (h' : FieldAt G a index field') : field = field' := by
  obtain ⟨fields, hshape, hindex⟩ := h
  obtain ⟨fields', hshape', hindex'⟩ := h'
  rw [hshape] at hshape'
  cases hshape'
  exact Option.some.inj (hindex.symm.trans hindex')

/-- What a message asks. -/
theorem asks_message {a : α} {fields : List (Field α)} (h : G.shape a = .message fields)
    {y : Identity α} (hy : Asks G (.type a) y) :
    ∃ index field, y = .field a index ∧ fields[index]? = some field ∧ field.repeated = false ∧
      field.valueKind.isComplexKind = true := by
  rcases hy with hcomplex | _ | ⟨⟨fields', hshape, hindex⟩, hsingle, hcomplex⟩
  · rw [valueKindOf, h] at hcomplex
    cases hcomplex
  · rw [h] at hshape
    cases hshape
    exact ⟨_, _, rfl, hindex, hsingle, hcomplex⟩

/-- What an array or a map asks. -/
theorem asks_container {a : α} (h : ∀ fields, G.shape a ≠ .message fields) (y : Identity α) :
    Asks G (.type a) y ↔ y = .type a ∧ (valueKindOf G.shape (.type a)).isComplexKind = true := by
  constructor
  · rintro (hcomplex | _ | ⟨⟨fields, hshape, -⟩, -, -⟩)
    · exact ⟨rfl, hcomplex⟩
    · exact absurd hshape (h fields)
  · rintro ⟨rfl, hcomplex⟩
    exact .container hcomplex

theorem FieldAt.content_eq {a : α} {index : ℕ} {field : Field α} (h : FieldAt G a index field)
    (τ : Identity α → α) :
    content G τ (.field a index) = fieldContainer field
      (containerChild field.valueKind (τ (.field a index))) := by
  obtain ⟨fields, hshape, hindex⟩ := h
  simp only [content, Shape.fields, hshape, hindex]

theorem FieldAt.mem_content {a : α} {index : ℕ} {field : Field α} (h : FieldAt G a index field)
    (τ : Identity α → α) :
    ∃ fields, content G τ (.type a) = .message fields ∧ fieldContent τ a index field ∈ fields := by
  obtain ⟨fields, hshape, hindex⟩ := h
  refine ⟨_, by rw [content, hshape], ?_⟩
  refine List.mem_of_getElem? (i := index) ?_
  rw [List.getElem?_mapIdx, hindex, Option.map_some]

/-- A message refers to its repeated fields. -/
theorem FieldAt.refers {a : α} {index : ℕ} {field : Field α} (h : FieldAt G a index field)
    (hrepeated : field.repeated = true) (τ : Identity α → α) :
    (content G τ (.type a)).Refers (.field a index) := by
  obtain ⟨fields, hcontent, hmem⟩ := h.mem_content τ
  rw [hcontent]
  exact ⟨_, hmem, by rw [fieldContent, if_pos hrepeated]⟩

/-- A node refers to what its resolvers give. -/
theorem Asks.refers {x y : Identity α} (h : Asks G x y) (τ : Identity α → α) :
    (content G τ x).Refers (.type (τ y)) := by
  cases h with
  | @container a h =>
    rw [Typescript.valueKindOf] at h
    cases hshape : G.shape a with
    | message fields =>
      rw [hshape] at h
      cases h
    | array valueKind =>
      rw [hshape] at h
      rw [content, hshape]
      exact if_pos h
    | map keyKind valueKind =>
      rw [hshape] at h
      rw [content, hshape]
      exact if_pos h
  | @repeated a index field hfield h =>
    rw [hfield.content_eq]
    unfold fieldContainer
    split
    · exact if_pos h
    · exact if_pos h
  | @field a index field hfield hsingle h =>
    obtain ⟨fields, hcontent, hmem⟩ := hfield.mem_content τ
    rw [hcontent]
    refine ⟨_, hmem, ?_⟩
    rw [fieldContent, hsingle, if_neg Bool.false_ne_true]
    exact if_pos h

/-- A node is what it is by the resolvers that are asked for it. -/
theorem content_congr {τ τ' : Identity α → α} {x : Identity α} (h : ∀ y, Asks G x y → τ y = τ' y) :
    content G τ x = content G τ' x := by
  -- Only the node of a container asks, and only for a complex value.
  have hchild : ∀ valueKind y, (valueKind.isComplexKind = true → τ y = τ' y) →
      containerChild valueKind (τ y) = containerChild valueKind (τ' y) := by
    intro valueKind y hy
    unfold containerChild
    split
    · rename_i hcomplex
      rw [hy hcomplex]
    · rfl
  rcases x with a | ⟨a, index⟩
  · have hask : (valueKindOf G.shape (.type a)).isComplexKind = true → τ (.type a) = τ' (.type a) :=
      fun hcomplex => h _ (.container hcomplex)
    rw [valueKindOf] at hask
    rw [content, content]
    cases hshape : G.shape a with
    | message fields =>
      simp only [SchemaNode.message.injEq]
      refine List.ext_getElem? fun index => ?_
      rw [List.getElem?_mapIdx, List.getElem?_mapIdx]
      cases hindex : fields[index]? with
      | none => rfl
      | some field =>
        have hfield : FieldAt G a index field := ⟨fields, hshape, hindex⟩
        simp only [Option.map_some, fieldContent]
        cases hrepeated : field.repeated with
        | true => rfl
        | false =>
          rw [hchild field.valueKind (.field a index) fun hcomplex =>
            h _ (.field hfield hrepeated hcomplex)]
    | array valueKind =>
      rw [hshape] at hask
      simp only [hchild valueKind (.type a) hask]
    | map keyKind valueKind =>
      rw [hshape] at hask
      simp only [hchild valueKind (.type a) hask]
  · rw [content, content]
    cases hindex : (G.shape a).fields[index]? with
    | none => rfl
    | some field =>
      cases hshape : G.shape a with
      | message fields =>
        rw [hshape] at hindex
        have hfield : FieldAt G a index field := ⟨fields, hshape, hindex⟩
        simp only [hchild field.valueKind (.field a index) fun hcomplex =>
          h _ (.repeated hfield hcomplex)]
      | array valueKind =>
        rw [hshape] at hindex
        cases hindex
      | map keyKind valueKind =>
        rw [hshape] at hindex
        cases hindex

variable (out : Outside G)

/-- What a resolver gives, in a call. -/
def Outside.given (x : Identity α) : α :=
  match out.resolver x with
  | .ok b => b
  | .error _ => G.target x

/-- A resolver answers, and that of a field with the type that it stands for. -/
def Outside.Answers (x : Identity α) : Prop :=
  out.resolver x = .ok (out.given x) ∧ ∀ a index, x = .field a index → out.given x = G.target x

/-- The resolvers give the types that they stand for. -/
def Outside.Resolves : Prop := ∀ x, out.resolver x = .ok (G.target x)

/-- A node that is as its type says, with what the resolvers gave. -/
def Finished (x : Identity α) (node : SchemaNode α) : Prop :=
  node = content G out.given x ∧ ∀ y, Asks G x y → out.Answers y

/-- The node of a type that lacks a child, or a field. -/
def Unfinished (G : Graph α) (a : α) : SchemaNode α → Prop
  | .message fields => fields.length < (G.shape a).fields.length
  | .array _ child => (valueKindOf G.shape (.type a)).isComplexKind = true ∧ child = none
  | .map _ _ child => (valueKindOf G.shape (.type a)).isComplexKind = true ∧ child = none

/-! ## Caches that grow -/

variable (D : Identity α → Prop)

/-- The nodes of a cache are kept, and the others are finished ones with the property `D`,
    except at `z`. -/
structure AddsBut (z : Identity α) (s t : Nodes α) : Prop where
  kept : ∀ x node, x ≠ z → s x = some node → t x = some node
  added : ∀ x node, x ≠ z → s x = none → t x = some node →
    D x ∧ Finished out x node ∧ ∀ y, node.Refers y → t y ≠ none

/-- The nodes of a cache are kept, and the others are finished ones with the property `D`. -/
structure Adds (s t : Nodes α) : Prop where
  kept : ∀ x node, s x = some node → t x = some node
  added : ∀ x node, s x = none → t x = some node →
    D x ∧ Finished out x node ∧ ∀ y, node.Refers y → t y ≠ none

variable {out D}

theorem Outside.Resolves.given (h : out.Resolves) (x : Identity α) : out.given x = G.target x := by
  rw [Outside.given, h x]

theorem Outside.Resolves.answers (h : out.Resolves) (x : Identity α) : out.Answers x :=
  ⟨by rw [h x, h.given], fun _ _ _ => h.given x⟩

theorem Adds.refl (s : Nodes α) : Adds out D s s :=
  ⟨fun _ _ h => h, fun x node hnone hsome => by rw [hnone] at hsome; cases hsome⟩

theorem Adds.mem {s t : Nodes α} (h : Adds out D s t) {x : Identity α} (hx : s x ≠ none) :
    t x ≠ none := by
  obtain ⟨node, hnode⟩ := Option.ne_none_iff_exists'.1 hx
  rw [h.kept x node hnode]
  exact Option.some_ne_none node

theorem Adds.but {s t : Nodes α} (h : Adds out D s t) (z : Identity α) : AddsBut out D z s t :=
  ⟨fun x node _ => h.kept x node, fun x node _ => h.added x node⟩

/-- A cache that grows goes on growing. -/
theorem AddsBut.trans {z : Identity α} {s t u : Nodes α} (h : AddsBut out D z s t)
    (h' : Adds out D t u) :
    AddsBut out D z s u where
  kept x node hz hs := h'.kept x node (h.kept x node hz hs)
  added x node hz hs hu := by
    rcases ht : t x with _ | node'
    · exact h'.added x node ht hu
    · have heq := h'.kept x node' ht
      rw [hu] at heq
      cases heq
      obtain ⟨hD, hfinished, hrefers⟩ := h.added x node hz hs ht
      exact ⟨hD, hfinished, fun y hy => h'.mem (hrefers y hy)⟩

theorem Adds.trans {s t u : Nodes α} (h : Adds out D s t) (h' : Adds out D t u) :
    Adds out D s u where
  kept x node hs := h'.kept x node (h.kept x node hs)
  added x node hs hu := by
    rcases ht : t x with _ | node'
    · exact h'.added x node ht hu
    · have heq := h'.kept x node' ht
      rw [hu] at heq
      cases heq
      obtain ⟨hD, hfinished, hrefers⟩ := h.added x node hs ht
      exact ⟨hD, hfinished, fun y hy => h'.mem (hrefers y hy)⟩

/-- The node at `z` is finished too. -/
theorem AddsBut.finish {z : Identity α} {s t : Nodes α} (h : AddsBut out D z s t)
    {node : SchemaNode α} (hz : s z = none) (ht : t z = some node) (hD : D z)
    (hfinished : Finished out z node) (hrefers : ∀ y, node.Refers y → t y ≠ none) :
    Adds out D s t where
  kept x node' hs := by
    rcases eq_or_ne x z with rfl | hx
    · rw [hz] at hs
      cases hs
    · exact h.kept x node' hx hs
  added x node' hs ht' := by
    rcases eq_or_ne x z with rfl | hx
    · rw [ht] at ht'
      cases ht'
      exact ⟨hD, hfinished, hrefers⟩
    · exact h.added x node' hx hs ht'

/-- The nodes of a cache are kept. -/
def Kept (s t : Nodes α) : Prop := ∀ x node, s x = some node → t x = some node

theorem AddsBut.kept_of_none {z : Identity α} {s t : Nodes α} (h : AddsBut out D z s t)
    (hz : s z = none) :
    Kept s t := by
  intro x node hx
  refine h.kept x node ?_ hx
  rintro rfl
  rw [hz] at hx
  cases hx

theorem Kept.none_of {s t : Nodes α} (h : Kept s t) {x : Identity α} (hx : t x = none) :
    s x = none := by
  rcases hs : s x with _ | node
  · rfl
  · rw [h x node hs] at hx
    cases hx

theorem Kept.trans {s t u : Nodes α} (h : Kept s t) (h' : Kept t u) : Kept s u :=
  fun x node hx => h' x node (h x node hx)

variable (D) in
/-- The nodes of a cache are kept, and the others, finished or not, have the property `D`,
    the right kind and children that are in the cache. -/
structure Leaves (G : Graph α) (s t : Nodes α) : Prop where
  kept : Kept s t
  added : ∀ x node, s x = none → t x = some node →
    D x ∧ node.kind = (content G G.target x).kind ∧ ∀ y, node.Refers y → t y ≠ none

theorem Finished.kind {x : Identity α} {node : SchemaNode α} (h : Finished out x node) :
    node.kind = (content G G.target x).kind := by
  rw [h.1]
  exact content_kind _ _ x

theorem Adds.leaves {s t : Nodes α} (h : Adds out D s t) : Leaves D G s t where
  kept := h.kept
  added x node hs ht := by
    obtain ⟨hD, hfinished, hrefers⟩ := h.added x node hs ht
    exact ⟨hD, hfinished.kind, hrefers⟩

theorem Leaves.refl (s : Nodes α) : Leaves D G s s :=
  ⟨fun _ _ h => h, fun x node hnone hsome => by rw [hnone] at hsome; cases hsome⟩

theorem Leaves.trans {s t u : Nodes α} (h : Leaves D G s t) (h' : Leaves D G t u) :
    Leaves D G s u where
  kept := h.kept.trans h'.kept
  added x node hs hu := by
    rcases ht : t x with _ | node'
    · exact h'.added x node ht hu
    · have heq := h'.kept x node' ht
      rw [hu] at heq
      cases heq
      obtain ⟨hD, hkind, hrefers⟩ := h.added x node hs ht
      exact ⟨hD, hkind, fun y hy hnone => hrefers y hy (h'.kept.none_of hnone)⟩

/-- The node at `z` need not be finished. -/
theorem AddsBut.leaves {z : Identity α} {s t : Nodes α} (h : AddsBut out D z s t)
    {node : SchemaNode α} (hz : s z = none) (ht : t z = some node) (hD : D z)
    (hkind : node.kind = (content G G.target z).kind) (hrefers : ∀ y, node.Refers y → t y ≠ none) :
    Leaves D G s t where
  kept := h.kept_of_none hz
  added x node' hs ht' := by
    rcases eq_or_ne x z with rfl | hx
    · rw [ht] at ht'
      cases ht'
      exact ⟨hD, hkind, hrefers⟩
    · obtain ⟨hD', hfinished, hrefers'⟩ := h.added x node' hx hs ht'
      exact ⟨hD', hfinished.kind, hrefers'⟩

/-- Fewer than `n` types are not in the cache. -/
def Lacks (n : ℕ) (s : Nodes α) : Prop := {a | s (.type a) = none}.ncard < n

theorem Lacks.of_kept [Finite α] {n : ℕ} {s t : Nodes α} (h : Lacks n s) (hst : Kept s t) :
    Lacks n t :=
  (Set.ncard_le_ncard (fun _ ha => hst.none_of ha) (Set.toFinite _)).trans_lt h

/-! ## Asking the resolvers -/

/-- The resolver of an array or of a map, as it is. -/
theorem ask_resolver_spec {E : Thrown α → Nodes α → Prop} (a : α) (s : Nodes α)
    (hE : ∀ e, ¬out.Answers (.type a) → E e s) :
    Triple (fun t => t = s) (ask (out.resolver (.type a)))
      (fun b t => t = s ∧ b = out.given (.type a) ∧ out.Answers (.type a)) E := by
  rintro _ rfl
  rcases hresolver : out.resolver (.type a) with e | b
  · refine hE e fun hanswers => ?_
    rw [hanswers.1] at hresolver
    cases hresolver
  · have hgiven : out.given (.type a) = b := by rw [Outside.given, hresolver]
    exact ⟨rfl, hgiven.symm, by rw [hresolver, hgiven], fun _ _ h => by cases h⟩

/-- The resolver of a field, checked for the kind. -/
theorem resolveRuntimeType_spec {E : Thrown α → Nodes α → Prop} {a : α} {index : ℕ} (s : Nodes α)
    (hcomplex : (valueKindOf G.shape (.field a index)).isComplexKind)
    (hE : ∀ e, ¬out.Answers (.field a index) → E e s) :
    Triple (fun t => t = s) (resolveRuntimeType out (.field a index))
      (fun b t => t = s ∧ b = out.given (.field a index) ∧ out.Answers (.field a index)) E := by
  have hask : Triple (fun t => t = s) (ask (out.resolver (.field a index)))
      (fun b t => t = s ∧ out.resolver (.field a index) = .ok b) E := by
    rintro _ rfl
    rcases hresolver : out.resolver (.field a index) with e | b
    · refine hE e fun hanswers => ?_
      rw [hanswers.1] at hresolver
      cases hresolver
    · exact ⟨rfl, rfl⟩
  refine hask.bind fun b => ?_
  split
  · rename_i hkind
    refine Triple.pure ?_
    rintro _ ⟨rfl, hresolver⟩
    have hgiven : out.given (.field a index) = b := by rw [Outside.given, hresolver]
    refine ⟨rfl, hgiven.symm, by rw [hresolver, hgiven], fun _ _ _ => ?_⟩
    rw [hgiven]
    exact out.resolver_kind _ b hresolver hkind
  · rename_i hkind
    refine Triple.throw ?_
    rintro _ ⟨rfl, hresolver⟩
    -- An answer would be of the right kind.
    refine hE _ fun hanswers => hkind ?_
    have hgiven : out.given (.field a index) = b := by rw [Outside.given, hresolver]
    rw [← hgiven, hanswers.2 a index rfl]
    exact G.target_kind _ hcomplex

/-- If nothing fails, a resolver of a field gives its type. -/
theorem resolveRuntimeType_returns {x : Identity α} {P : Nodes α → Prop}
    (h : (valueKindOf G.shape x).isComplexKind) :
    Returns P (resolveRuntimeType (Outside.sound G) x) fun _ => P := by
  have hask : Returns P (ask ((Outside.sound G).resolver x) : Run (Nodes α) (Thrown α) α)
      fun b t => b = G.target x ∧ P t := fun s hs => ⟨_, s, rfl, rfl, hs⟩
  refine hask.bind fun b => ?_
  split
  · exact .pure fun _ h => h.2
  · rename_i hkind
    rintro s ⟨rfl, -⟩
    exact absurd (G.target_kind x h) hkind

section

variable [DecidableEq α]

/-- The node at `z` is changed. -/
theorem AddsBut.setNode {z : Identity α} {s t : Nodes α} (h : AddsBut out D z s t)
    (node : SchemaNode α) :
    AddsBut out D z s (Function.update t z (some node)) where
  kept x node' hz hs := by
    rw [Function.update_of_ne hz]
    exact h.kept x node' hz hs
  added x node' hz hs ht := by
    rw [Function.update_of_ne hz] at ht
    obtain ⟨hD, hfinished, hrefers⟩ := h.added x node' hz hs ht
    refine ⟨hD, hfinished, fun y hy => ?_⟩
    rcases eq_or_ne y z with rfl | hy'
    · rw [Function.update_self]
      exact Option.some_ne_none node
    · rw [Function.update_of_ne hy']
      exact hrefers y hy

/-! ## Making the nodes -/

/-- A resolver that was to be asked did not answer. -/
def Faulty (out : Outside G) (D : Identity α → Prop) (base : Nodes α) : Prop :=
  ∃ x y, base x = none ∧ D x ∧ Asks G x y ∧ ¬out.Answers y

variable {base : Nodes α} {next : α → Run (Nodes α) (Thrown α) (Identity α)}

/-- What is known of the call for a type. -/
def Makes (out : Outside G) (D : Identity α → Prop) (base : Nodes α)
    (next : α → Run (Nodes α) (Thrown α) (Identity α)) : Prop :=
  ∀ b, D (.type b) → ∀ s, Kept base s →
    Triple (fun t => t = s) (next b) (fun x t => x = .type b ∧ Adds out D s t ∧ t (.type b) ≠ none)
      (fun _ t => Leaves D G s t ∧ Faulty out D base)

/-- The property of the nodes is inherited. -/
structure Inherited (out : Outside G) (D : Identity α → Prop) (base : Nodes α) : Prop where
  repeated : ∀ a index field, base (.type a) = none → D (.type a) → FieldAt G a index field →
    field.repeated = true → D (.field a index)
  given : ∀ x y, base x = none → D x → Asks G x y → out.Answers y → D (.type (out.given y))

/-- An array or a map: its node is finished, or it stays without its child. -/
theorem containerNode_spec {x : Identity α} {node : Option (Identity α) → SchemaNode α}
    {valueKind : Kind} {resolver : Run (Nodes α) (Thrown α) α} {s : Nodes α}
    (hnext : Makes out D base next) (hbase : Kept base s) (hD : D x)
    (hcontent : content G out.given x = node (containerChild valueKind (out.given x)))
    (hasks : ∀ y, Asks G x y ↔ y = x ∧ valueKind.isComplexKind = true)
    (hrefers : ∀ child y, (node child).Refers y → child = some y)
    (hsame : ∀ child, (node none).kind = (node child).kind)
    (hgiven : valueKind.isComplexKind = true → base x = none → out.Answers x →
      D (.type (out.given x)))
    (hresolver : valueKind.isComplexKind = true → ∀ (E : Thrown α → Nodes α → Prop) u,
      (∀ e, ¬out.Answers x → E e u) →
      Triple (fun t => t = u) resolver (fun b t => t = u ∧ b = out.given x ∧ out.Answers x) E) :
    Triple (fun t => t = s) (containerNode next x node valueKind resolver)
      (fun r t => r = x ∧ Adds out D s t ∧ t x ≠ none)
      (fun _ t => Leaves D G s t ∧ Faulty out D base ∧ t x = some (node none) ∧
        valueKind.isComplexKind = true) := by
  intro t ht
  subst t
  rw [containerNode]
  rcases hs : s x with _ | old
  swap
  · exact ⟨rfl, Adds.refl s, by rw [hs]; exact Option.some_ne_none old⟩
  -- The node is put into the cache without its child, and stays so if the resolver throws.
  have hbasex := hbase.none_of hs
  have hadds : AddsBut out D x s (Function.update s x (some (node none))) :=
    ((Adds.refl s).but x).setNode _
  have hleaves : Leaves D G s (Function.update s x (some (node none))) :=
    hadds.leaves hs (Function.update_self ..) hD
      (by rw [content_kind G.target out.given, hcontent]; exact hsame _) fun y hy => by
        cases hrefers none y hy
  have hset : Triple (fun t => t = s) (setNode x (node none))
      (fun _ t => t = Function.update s x (some (node none)))
      (fun _ t => Leaves D G s t ∧ Faulty out D base ∧ t x = some (node none) ∧
        valueKind.isComplexKind = true) := by
    rintro _ rfl
    rfl
  refine (hset.bind fun _ => ?_) s rfl
  split
  · rename_i hcomplex
    have hfaulty : ¬out.Answers x → Faulty out D base :=
      fun h => ⟨x, x, hbasex, hD, (hasks x).2 ⟨rfl, hcomplex⟩, h⟩
    refine (hresolver hcomplex _ _ fun e hno => ?_).bind fun b => ?_
    · exact ⟨hleaves, hfaulty hno, Function.update_self .., hcomplex⟩
    -- The child is made, and then the node is finished.
    rintro _ ⟨rfl, rfl, hanswers⟩
    have hchild := hgiven hcomplex hbasex hanswers
    refine (((hnext _ hchild _ (hbase.trans hleaves.kept)).conseq (fun _ h => h) (fun _ _ h => h)
        ?_).bind fun y => ?_) _ rfl
    · rintro _ t ⟨hleaves', hfault⟩
      exact ⟨hleaves.trans hleaves', hfault, hleaves'.kept _ _ (Function.update_self ..), hcomplex⟩
    rintro t ⟨rfl, hadds', hmem⟩
    have hcontainer : containerChild valueKind (out.given x) = some (.type (out.given x)) :=
      if_pos hcomplex
    have hall := (hadds.trans hadds').setNode (node (some (.type (out.given x))))
    refine ⟨rfl, hall.finish hs (Function.update_self ..) hD ⟨?_, fun y hy => ?_⟩
      fun y hy => ?_, ?_⟩
    · rw [hcontent, hcontainer]
    · rwa [((hasks y).1 hy).1]
    · cases hrefers _ y hy
      rcases eq_or_ne (Identity.type (out.given x)) x with heq | hne
      · rw [heq, Function.update_self]
        exact Option.some_ne_none _
      · rwa [Function.update_of_ne hne]
    · rw [Function.update_self]
      exact Option.some_ne_none _
  · rename_i hsimple
    refine Triple.pure ?_
    rintro _ rfl
    have hchild : containerChild valueKind (out.given x) = none := if_neg hsimple
    refine ⟨rfl, hadds.finish hs (Function.update_self ..) hD ⟨?_, fun y hy => ?_⟩
      fun y hy => ?_, ?_⟩
    · rw [hcontent, hchild]
    · exact absurd ((hasks y).1 hy).2 hsimple
    · cases hrefers none y hy
    · rw [Function.update_self]
      exact Option.some_ne_none _

/-- The child of a field. -/
theorem fieldChild_spec {a : α} {index : ℕ} {field : Field α} {s : Nodes α}
    (hnext : Makes out D base next) (hinherited : Inherited out D base) (hbase : Kept base s)
    (hnone : base (.type a) = none) (hD : D (.type a)) (hfield : FieldAt G a index field) :
    Triple (fun t => t = s) (fieldChild out next a index field)
      (fun r t => r = (fieldContent out.given a index field).child ∧ Adds out D s t ∧
        (∀ y, r = some y → t y ≠ none) ∧
        (field.repeated = false → field.valueKind.isComplexKind = true →
          out.Answers (.field a index)))
      (fun _ t => Leaves D G s t ∧ Faulty out D base) := by
  rw [fieldChild, fieldContent]
  have hkind := hfield.valueKindOf
  cases hrepeated : field.repeated with
  | true =>
    rw [if_pos rfl, if_pos rfl]
    -- A repeated field or a map has a node of its own.
    have hDfield := hinherited.repeated a index field hnone hD hfield hrepeated
    have hasks : ∀ y, Asks G (.field a index) y ↔
        y = .field a index ∧ field.valueKind.isComplexKind = true := by
      intro y
      constructor
      · rintro (_ | ⟨hfield', h⟩ | _)
        rw [hfield.unique hfield']
        exact ⟨rfl, h⟩
      · rintro ⟨rfl, h⟩
        exact .repeated hfield h
    have hcontent := hfield.content_eq out.given
    have hspec := containerNode_spec (s := s) hnext hbase hDfield hcontent hasks
      (fun child y hy => by
        unfold fieldContainer at hy
        split at hy
        · exact hy
        · exact hy)
      (fun child => by
        unfold fieldContainer
        split
        · rfl
        · rfl)
      (fun h hbasex hanswers => hinherited.given _ _ hbasex hDfield ((hasks _).2 ⟨rfl, h⟩) hanswers)
      (fun h E u hE => resolveRuntimeType_spec u (by rwa [hkind]) hE)
    refine (hspec.conseq (fun _ h => h) (fun _ _ h => h) fun _ t ht => ⟨ht.1, ht.2.1⟩).bind
      fun r => ?_
    refine Triple.pure ?_
    rintro t ⟨rfl, hadds, hmem⟩
    exact ⟨rfl, hadds, fun y hy => by cases hy; exact hmem, fun h => by cases h⟩
  | false =>
    rw [if_neg Bool.false_ne_true, if_neg Bool.false_ne_true, containerChild]
    by_cases hcomplex : field.valueKind.isComplexKind = true
    · rw [if_pos hcomplex, if_pos hcomplex]
      -- Otherwise the child is the node of the type that the resolver gives.
      have hask := Asks.field hfield hrepeated hcomplex
      refine (resolveRuntimeType_spec s (by rwa [hkind]) fun e hno => ?_).bind fun b => ?_
      · exact ⟨.refl s, _, _, hnone, hD, hask, hno⟩
      rintro _ ⟨rfl, rfl, hanswers⟩
      have hchild := hinherited.given _ _ hnone hD hask hanswers
      refine ((hnext _ hchild _ hbase).bind fun y => ?_) _ rfl
      refine Triple.pure ?_
      rintro t ⟨rfl, hadds, hmem⟩
      exact ⟨rfl, hadds, fun y hy => by cases hy; exact hmem, fun _ _ => hanswers⟩
    · rw [if_neg hcomplex, if_neg hcomplex]
      refine Triple.pure ?_
      rintro _ rfl
      exact ⟨rfl, Adds.refl _, fun y hy => (by cases hy), fun _ h => absurd h hcomplex⟩

/-- What is there of a message, once some of its fields are. -/
structure Halfway (out : Outside G) (D : Identity α → Prop) (a : α) (front : List (Field α))
    (s t : Nodes α) : Prop where
  adds : AddsBut out D (.type a) s t
  node : t (.type a) = some (.message (front.mapIdx (fieldContent out.given a)))
  refers : ∀ field ∈ front.mapIdx (fieldContent out.given a), ∀ y, field.child = some y → t y ≠ none
  answers : ∀ index field, front[index]? = some field → field.repeated = false →
    field.valueKind.isComplexKind = true → out.Answers (.field a index)

/-- The fields of a message, by induction on those that are left. -/
theorem fieldNodes_spec {a : α} (front : List (Field α)) {fields : List (Field α)} {s : Nodes α}
    (hnext : Makes out D base next) (hinherited : Inherited out D base) (hbase : Kept base s)
    (hs : s (.type a) = none) (hD : D (.type a)) (hshape : G.shape a = .message (front ++ fields)) :
    Triple (Halfway out D a front s)
      (fieldNodes out next a fields (front.mapIdx (fieldContent out.given a)))
      (fun _ t => Halfway out D a (front ++ fields) s t)
      (fun _ t => Leaves D G s t ∧ Faulty out D base ∧
        ∃ done, t (.type a) = some (.message done) ∧ done.length < (front ++ fields).length) := by
  induction fields generalizing front with
  | nil =>
    refine Triple.pure fun t ht => ?_
    rwa [List.append_nil]
  | cons field fields ih =>
    have hnone := hbase.none_of hs
    have hfield : FieldAt G a front.length field := ⟨_, hshape, by simp⟩
    intro t ht
    have hkept := hbase.trans (ht.adds.kept_of_none hs)
    rw [fieldNodes, List.length_mapIdx]
    refine (((fieldChild_spec (s := t) hnext hinherited hkept hnone hD hfield).conseq (fun _ h => h)
      (fun _ _ h => h) ?_).bind fun child => ?_) t rfl
    · rintro _ u ⟨hleaves, hfault⟩
      -- If it throws here, the node stays with the fields that are in front of this one.
      have hleaves' : Leaves D G s t := ht.adds.leaves hs ht.node hD
        (by rw [content, hshape]; rfl) fun y ⟨f, hf, hchild⟩ => ht.refers f hf y hchild
      refine ⟨hleaves'.trans hleaves, hfault, _, hleaves.kept _ _ ht.node, ?_⟩
      rw [List.length_mapIdx, List.length_append, List.length_cons]
      omega
    rintro u ⟨rfl, hadds, hmem, hanswers⟩
    have hconcat : (front ++ [field]).mapIdx (fieldContent out.given a) =
        front.mapIdx (fieldContent out.given a) ++ [fieldContent out.given a front.length field] :=
      List.mapIdx_concat
    have hmono : ∀ y, u y ≠ none →
        Function.update u (.type a)
          (some (.message ((front ++ [field]).mapIdx (fieldContent out.given a)))) y ≠ none := by
      intro y hy
      rcases eq_or_ne y (.type a) with rfl | hne
      · rw [Function.update_self]
        exact Option.some_ne_none _
      · rwa [Function.update_of_ne hne]
    -- One more field is there.
    have hhalf : Halfway out D a (front ++ [field]) s
        (Function.update u (.type a)
          (some (.message ((front ++ [field]).mapIdx (fieldContent out.given a))))) := by
      refine ⟨(ht.adds.trans hadds).setNode _, Function.update_self .., ?_, ?_⟩
      · intro f hf y hy
        rw [hconcat, List.mem_append, List.mem_singleton] at hf
        rcases hf with hf | rfl
        · exact hmono y (hadds.mem (ht.refers f hf y hy))
        · exact hmono y (hmem y hy)
      · intro index f hf hsingle hcomplex
        rcases Nat.lt_or_ge index front.length with hlt | hge
        · rw [List.getElem?_append_left hlt] at hf
          exact ht.answers index f hf hsingle hcomplex
        · rw [List.getElem?_append_right hge, List.getElem?_singleton] at hf
          obtain ⟨hindex, hf⟩ := Option.ite_none_right_eq_some.1 hf
          cases hf
          obtain rfl : index = front.length := by omega
          exact hanswers hsingle hcomplex
    have hrest := ih (front ++ [field]) (by rwa [List.append_assoc])
    rw [List.append_assoc] at hrest
    have hset : Triple (fun v => v = u)
      (setNode (.type a) (.message ((front ++ [field]).mapIdx (fieldContent out.given a))))
        (fun _ v => Halfway out D a (front ++ [field]) s v)
        (fun _ t => Leaves D G s t ∧ Faulty out D base ∧ ∃ done, t (.type a) =
          some (.message done) ∧ done.length < (front ++ field :: fields).length) := by
      rintro _ rfl
      exact hhalf
    have hrun := (hset.bind fun _ => hrest) u rfl
    rwa [hconcat] at hrun

/-- An array or a map that is a type. -/
theorem containerType_spec {a : α} {node : Option (Identity α) → SchemaNode α} {valueKind : Kind}
    {s : Nodes α} (hnext : Makes out D base next) (hinherited : Inherited out D base)
    (hbase : Kept base s) (hD : D (.type a)) (hshape : ∀ fields, G.shape a ≠ .message fields)
    (hkind : valueKindOf G.shape (.type a) = valueKind)
    (hcontent : content G out.given (.type a) =
      node (containerChild valueKind (out.given (.type a))))
    (hrefers : ∀ child y, (node child).Refers y → child = some y)
    (hsame : ∀ child, (node none).kind = (node child).kind)
    (hunfinished : valueKind.isComplexKind = true → Unfinished G a (node none)) :
    Triple (fun t => t = s)
      (containerNode next (.type a) node valueKind (ask (out.resolver (.type a))))
      (fun x t => x = .type a ∧ Adds out D s t ∧ t (.type a) ≠ none)
      (fun _ t => Leaves D G s t ∧ Faulty out D base ∧ ∃ node,
        t (.type a) = some node ∧ Unfinished G a node) := by
  have hasks := asks_container hshape
  rw [hkind] at hasks
  have hgiven : valueKind.isComplexKind = true → base (.type a) = none → out.Answers (.type a) →
      D (.type (out.given (.type a))) := fun hcomplex hnone hanswers =>
    hinherited.given _ _ hnone hD ((hasks _).2 ⟨rfl, hcomplex⟩) hanswers
  have hspec := containerNode_spec (s := s) hnext hbase hD hcontent hasks hrefers hsame hgiven
    fun _ E u hE => ask_resolver_spec a u hE
  refine hspec.conseq (fun _ h => h) (fun _ _ h => h) ?_
  rintro _ t ⟨hleaves, hfault, hnode, hcomplex⟩
  exact ⟨hleaves, hfault, _, hnode, hunfinished hcomplex⟩

/-- A call for a type: by induction on how deep its calls are nested. -/
theorem schemaNode_spec (hinherited : Inherited out D base) (fuel : ℕ) {a : α} {s : Nodes α}
    (hbase : Kept base s) (hD : D (.type a)) :
    Triple (fun t => t = s) (schemaNode out fuel a)
      (fun x t => x = .type a ∧ Adds out D s t ∧ t (.type a) ≠ none)
      (fun _ t => Leaves D G s t ∧ Faulty out D base ∧ ∃ node,
        t (.type a) = some node ∧ Unfinished G a node) := by
  induction fuel generalizing a s with
  | zero => exact fun _ _ => trivial
  | succ fuel ih =>
    -- What a call inside leaves is told by the induction.
    have hnext : Makes out D base (schemaNode out fuel) := fun b hb u hu =>
      (ih hu hb).conseq (fun _ h => h) (fun _ _ h => h) fun _ t ht => ⟨ht.1, ht.2.1⟩
    intro t ht
    subst t
    simp only [schemaNode]
    rcases hs : s (.type a) with _ | old
    swap
    · exact ⟨rfl, Adds.refl s, by rw [hs]; exact Option.some_ne_none old⟩
    have hnone := hbase.none_of hs
    rcases hshape : G.shape a with fields | valueKind | ⟨keyKind, valueKind⟩
    · -- A message: its node is there, with no fields, before the first of them.
      have hset : Triple (fun v => v = s) (setNode (.type a) (.message []))
          (fun _ v => Halfway out D a [] s v)
          (fun _ t => Leaves D G s t ∧ Faulty out D base ∧ ∃ node,
            t (.type a) = some node ∧ Unfinished G a node) := by
        rintro _ rfl
        refine ⟨((Adds.refl _).but _).setNode _, Function.update_self .., ?_, ?_⟩
        · exact fun f hf => absurd hf List.not_mem_nil
        · exact fun index f hf => by cases hf
      have hloop := fieldNodes_spec [] hnext hinherited hbase hs hD hshape
      refine (hset.bind fun _ => (hloop.conseq (fun _ h => h) (fun _ _ h => h) ?_).bind fun _ =>
        Triple.pure ?_) s rfl
      · rintro _ t ⟨hleaves, hfault, done, hnode, hlt⟩
        refine ⟨hleaves, hfault, _, hnode, ?_⟩
        have hfields : (G.shape a).fields = fields := by
          rw [hshape]
          rfl
        rwa [Unfinished, hfields]
      · intro t ht
        -- After the last field, the node is what the type stands for.
        have hfinished :
            Finished out (.type a) (.message (fields.mapIdx (fieldContent out.given a))) := by
          refine ⟨by rw [content, hshape], fun y hy => ?_⟩
          obtain ⟨index, field, rfl, hindex, hsingle, hcomplex⟩ := asks_message hshape hy
          exact ht.answers index field hindex hsingle hcomplex
        refine ⟨rfl, ht.adds.finish hs ht.node hD hfinished ?_, ?_⟩
        · rintro y ⟨field, hfield, hchild⟩
          exact ht.refers field hfield y hchild
        · rw [ht.node]
          exact Option.some_ne_none _
    · have hkind : valueKindOf G.shape (.type a) = valueKind := by rw [valueKindOf, hshape]
      have hrefers : ∀ child (y : Identity α), (SchemaNode.array valueKind child).Refers y →
        child = some y := fun _ _ h => h
      refine containerType_spec hnext hinherited hbase hD (fun fields h => ?_) hkind ?_ hrefers
        (fun _ => rfl)
        (fun h => ⟨by rwa [hkind], rfl⟩) s rfl
      · rw [hshape] at h
        cases h
      · rw [content, hshape]
    · have hkind : valueKindOf G.shape (.type a) = valueKind := by rw [valueKindOf, hshape]
      have hrefers : ∀ child (y : Identity α), (SchemaNode.map keyKind valueKind child).Refers y →
        child = some y :=
        fun _ _ h => h
      refine containerType_spec hnext hinherited hbase hD (fun fields h => ?_) hkind ?_ hrefers
        (fun _ => rfl)
        (fun h => ⟨by rwa [hkind], rfl⟩) s rfl
      · rw [hshape] at h
        cases h
      · rw [content, hshape]

/-! ## Calls that return -/

variable [Finite α]

theorem Lacks.setNode {n : ℕ} {s : Nodes α} (h : Lacks n s) (x : Identity α) (node : SchemaNode α) :
    Lacks n (Function.update s x (some node)) := by
  refine (Set.ncard_le_ncard (fun a ha => ?_) (Set.toFinite _)).trans_lt h
  rcases eq_or_ne (Identity.type a) x with rfl | hne
  · rw [Set.mem_ofPred_eq, Function.update_self] at ha
    cases ha
  · rwa [Set.mem_ofPred_eq, Function.update_of_ne hne] at ha

/-- One more type is in the cache. -/
theorem Lacks.setType {n : ℕ} {s : Nodes α} {a : α} (h : Lacks (n + 1) s) (ha : s (.type a) = none)
    (node : SchemaNode α) : Lacks n (Function.update s (.type a) (some node)) := by
  refine Nat.lt_of_lt_of_le (Set.ncard_lt_ncard ⟨fun b hb => ?_, fun hsub => ?_⟩ (Set.toFinite _))
    (Nat.le_of_lt_succ h)
  · rcases eq_or_ne b a with rfl | hne
    · exact ha
    · rwa [Set.mem_ofPred_eq, Function.update_of_ne (by rintro ⟨⟩; exact hne rfl)] at hb
  · have hmem := hsub ha
    rw [Set.mem_ofPred_eq, Function.update_self] at hmem
    cases hmem

theorem containerNode_returns {n : ℕ} {x : Identity α} {node : Option (Identity α) → SchemaNode α}
    {valueKind : Kind} {resolver : Run (Nodes α) (Thrown α) α}
    (hnext : ∀ b, Returns (Lacks n) (next b) fun _ => Lacks n)
    (hresolver : valueKind.isComplexKind = true → Returns (Lacks n) resolver fun _ => Lacks n) :
    Returns (fun s => if s x = none then Lacks n (Function.update s x (some (node none)))
      else Lacks n s)
      (containerNode next x node valueKind resolver) fun _ => Lacks n := by
  intro s hs
  rw [containerNode]
  rcases hx : s x with _ | old
  · rw [if_pos hx] at hs
    have hset : Returns (fun t => t = s) (setNode x (node none)) fun _ => Lacks n := by
      rintro _ rfl
      exact ⟨⟨⟩, _, rfl, hs⟩
    have hchild : ∀ child, Returns (Lacks n) (setNode x (node (some child))) fun _ => Lacks n :=
      fun child t ht => ⟨⟨⟩, _, rfl, ht.setNode x _⟩
    refine (hset.bind fun _ => ?_) s rfl
    split
    · rename_i hcomplex
      refine (hresolver hcomplex).bind fun b => (hnext b).bind fun child => ?_
      exact (hchild child).bind fun _ => .pure fun _ h => h
    · exact .pure fun _ h => h
  · rw [if_neg (by rw [hx]; exact Option.some_ne_none old)] at hs
    exact ⟨x, s, rfl, hs⟩

theorem fieldNodes_returns {n : ℕ} {a : α} (front : List (Field α)) {fields : List (Field α)}
    {done : List (FieldNode α)} (hnext : ∀ b, Returns (Lacks n) (next b) fun _ => Lacks n)
    (hdone : done.length = front.length) (hshape : G.shape a = .message (front ++ fields)) :
    Returns (Lacks n) (fieldNodes (Outside.sound G) next a fields done) fun _ => Lacks n := by
  induction fields generalizing front done with
  | nil => exact .pure fun _ h => h
  | cons field fields ih =>
    have hfield : FieldAt G a done.length field := ⟨_, hshape, by simp [hdone]⟩
    have hkind := hfield.valueKindOf
    have hresolver : field.valueKind.isComplexKind = true →
        Returns (Lacks n) (resolveRuntimeType (Outside.sound G) (.field a done.length)) fun _ =>
          Lacks n :=
      fun h => resolveRuntimeType_returns (by rwa [hkind])
    have hset : ∀ done, Returns (Lacks n) (setNode (.type a) (.message done)) fun _ => Lacks n :=
      fun done t ht => ⟨⟨⟩, _, rfl, ht.setNode _ _⟩
    have hchild : Returns (Lacks n) (fieldChild (Outside.sound G) next a done.length field) fun _ =>
        Lacks n := by
      rw [fieldChild]
      split
      · refine Returns.bind
          ((containerNode_returns hnext hresolver).conseq (fun s hs => ?_) fun _ _ h => h)
          fun _ => .pure fun _ h => h
        split
        · exact hs.setNode _ _
        · exact hs
      split
      · rename_i hcomplex
        exact (hresolver hcomplex).bind fun b => (hnext b).bind fun _ => .pure fun _ h => h
      · exact .pure fun _ h => h
    refine hchild.bind fun child => (hset _).bind fun _ => ih (front ++ [field]) ?_ ?_
    · rw [List.length_append, List.length_append, hdone]
      rfl
    · rwa [List.append_assoc]

omit [Finite α] in
/-- Of the calls to others, only those of resolvers matter for the nodes. -/
theorem schemaNode_congr {out out' : Outside G} (h : out.resolver = out'.resolver) (fuel : ℕ) :
    schemaNode out fuel = schemaNode out' fuel := by
  have hresolve : ∀ x, resolveRuntimeType out x = resolveRuntimeType out' x := fun x => by
    rw [resolveRuntimeType, resolveRuntimeType, h]
  have hchild : ∀ next a index field,
    fieldChild out next a index field = fieldChild out' next a index field :=
    fun next a index field => by simp only [fieldChild, hresolve]
  have hfields : ∀ next a fields done,
      fieldNodes out next a fields done = fieldNodes out' next a fields done := by
    intro next a fields
    induction fields with
    | nil => exact fun _ => rfl
    | cons field fields ih => exact fun done => by simp only [fieldNodes, hchild, ih]
  induction fuel with
  | zero => rfl
  | succ fuel ih =>
    funext a nodes
    simp only [schemaNode, ih, hfields, h]

/-- If nothing fails, a call returns. -/
theorem schemaNode_returns (fuel : ℕ) (a : α) :
    Returns (Lacks fuel) (schemaNode (Outside.sound G) fuel a) fun _ _ => True := by
  induction fuel generalizing a with
  | zero => exact fun s hs => absurd hs (Nat.not_lt_zero _)
  | succ fuel ih =>
    have hinherited : Inherited (Outside.sound G) (fun _ => True) (fun _ => none) :=
      ⟨fun _ _ _ _ _ _ _ => trivial, fun _ _ _ _ _ _ => trivial⟩
    have hnext : ∀ b, Returns (Lacks fuel) (schemaNode (Outside.sound G) fuel b) fun _ =>
        Lacks fuel := by
      intro b s hs
      obtain ⟨x, t, hrun, -⟩ := ih b s hs
      have hspec :=
        schemaNode_spec (s := s) hinherited fuel (a := b) (fun _ _ h => by cases h) trivial
      exact ⟨x, t, hrun, hs.of_kept (hspec.of_ok rfl hrun).2.1.kept⟩
    have hask : ∀ x,
      Returns (Lacks fuel) (ask ((Outside.sound G).resolver x) : Run (Nodes α) (Thrown α) α)
        fun _ => Lacks fuel :=
      fun x s hs => ⟨_, s, rfl, hs⟩
    intro s hs
    simp only [schemaNode]
    rcases hnone : s (.type a) with _ | old
    swap
    · exact ⟨_, s, rfl, trivial⟩
    have hset := fun node => hs.setType hnone node
    rcases hshape : G.shape a with fields | valueKind | ⟨keyKind, valueKind⟩
    · have hstart : Returns (fun t => t = s) (setNode (.type a) (.message [])) fun _ =>
        Lacks fuel := by
        rintro _ rfl
        exact ⟨⟨⟩, _, rfl, hset _⟩
      have hloop := fieldNodes_returns [] hnext (rfl : ([] : List (FieldNode α)).length = 0) hshape
      exact (hstart.bind fun _ => hloop.bind fun _ => .pure fun _ _ => trivial) s rfl
    · refine ((containerNode_returns hnext fun _ => hask _).conseq (fun _ h => h) fun _ _ _ =>
        trivial) s ?_
      dsimp only
      rw [if_pos hnone]
      exact hset _
    · refine ((containerNode_returns hnext fun _ => hask _).conseq (fun _ h => h) fun _ _ _ =>
        trivial) s ?_
      dsimp only
      rw [if_pos hnone]
      exact hset _

end

end

end ProtoCache.Typescript

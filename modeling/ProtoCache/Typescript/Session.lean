import ProtoCache.Typescript.Typed

/-!
# What the decoder and the reader know of the types

`compiledSchemaHandle` has the decoder commit plans, and `compilePlan` makes plans for the reader.
Both go over the types on their own, and keep what they have made. In a session, either
is called any number of times, in any order and for any types (`Session`).

* `Session.serves`: the plans of the decoder that have a handle are those of their types. If a
  resolver gives a type of a wrong kind, the decoder notices;
* `deserialize_session`: what is made of a buffer that the decoder accepts is what its type says,
  whatever was called before.
-/

namespace ProtoCache.Typescript

open Exceptional
open Wasm (TypePlan pcDecodeTape Status)

section

variable {α : Type} [DecidableEq α] {G : Graph α}

/-! ## Sessions -/

/-- What there can be between calls: what both have kept, and the plans of the decoder. A call
    for a handle may fail at any point, except that the nodes are made; a call for a plan may fail
    anywhere. -/
inductive Session (G : Graph α) : Store α → Plans α → List TypePlan → Prop
  | initial : Session G Store.initial (fun _ => none) []
  | handle {s : Store α} {plans : Plans α} {wasm wasm' : List TypePlan} {out : Outside G} {fuel : ℕ}
      {a : α} {ended : Ended α}
      (h : Session G s plans wasm) (hcall : compiledSchemaHandle out fuel a s = some ended)
      (hresolved : ∀ e nodes, schemaNode out fuel a s.nodes ≠ some (.error e, nodes))
      (hdrives : Drives ended.commits wasm wasm') (hcount : wasm'.length = ended.store.count) :
      Session G ended.store plans wasm'
  | plan {s : Store α} {plans plans' : Plans α} {wasm : List TypePlan} {out : Outside G} {fuel : ℕ}
      {a : α}
      {result : Except (Thrown α) (DecodePlan α)} (h : Session G s plans wasm)
      (hcall : compilePlan out fuel a plans = some (result, plans')) : Session G s plans' wasm

/-- A node is as its type says, if what the resolvers gave was of the right kinds. -/
def Made (G : Graph α) (x : Identity α) (node : SchemaNode α) : Prop :=
  ∃ τ, node = content G τ x ∧ ∀ y, Asks G x y → (G.shape (τ y)).kind = valueKindOf G.shape y →
    τ y = G.target y

/-- A handle is that of a committed plan, of a node whose children have handles. -/
def Holds (nodes : Nodes α) (handle : Identity α → Option ℕ) (wasm : List TypePlan) (x : Identity α)
    (h : ℕ) : Prop :=
  ∃ node type, nodes x = some node ∧ Wasm.planOf wasm (UInt32.ofNat h) = some type ∧
    type.committed = true ∧
    Committed wasm (planOf handle node) type ∧ ∀ y, node.Refers y → handle y ≠ none

omit [DecidableEq α] in
theorem Holds.mono {nodes nodes' : Nodes α} {handle handle' : Identity α → Option ℕ}
    {wasm wasm' : List TypePlan} {x : Identity α} {h : ℕ} (hholds : Holds nodes handle wasm x h)
    (hnodes : ∀ x node, nodes x = some node → nodes' x = some node)
    (hhandle : ∀ y h, handle y = some h → handle' y = some h) (hwasm : Keeps wasm wasm') :
    Holds nodes' handle' wasm' x h := by
  obtain ⟨node, type, hnode, htype, hcommitted, hplan, hrefers⟩ := hholds
  obtain ⟨type', htype', -, hsame⟩ := hwasm _ type htype
  cases hsame hcommitted
  refine ⟨node, type, hnodes x node hnode, htype', hcommitted, ?_, fun y hy => ?_⟩
  · rw [planOf_congr fun y hy => ?_]
    · exact hwasm.plan hplan
    · obtain ⟨h', hh'⟩ := Option.ne_none_iff_exists'.1 (hrefers y hy)
      rw [hh', hhandle y h' hh']
  · obtain ⟨h', hh'⟩ := Option.ne_none_iff_exists'.1 (hrefers y hy)
    rw [hhandle y h' hh']
    exact Option.some_ne_none h'

/-- What holds between calls. -/
structure Session.Sound (G : Graph α) (s : Store α) (plans : Plans α) (wasm : List TypePlan) :
    Prop where
  valid : s.Valid G
  made : ∀ x node, s.nodes x = some node → Made G x node
  holds : ∀ x h, s.wasmHandle x = some h → Holds s.nodes s.wasmHandle wasm x h
  memory : wasm.length < 2 ^ 32
  plans : Plans.Valid G plans
  reachable : Wasm.Reachable wasm

omit [DecidableEq α] in
theorem Finished.made {out : Outside G} {x : Identity α} {node : SchemaNode α}
    (h : Finished out x node) : Made G x node :=
  ⟨out.given, h.1, fun y hy hkind => out.resolver_kind y _ (h.2 y hy).1 hkind⟩

omit [DecidableEq α] in
/-- The nodes that a call leaves are as their types say, if those before it were. -/
theorem made_of_adds {out : Outside G} {D : Identity α → Prop} {s t : Nodes α} (h : Adds out D s t)
    (hs : ∀ x node, s x = some node → Made G x node) :
    ∀ x node, t x = some node → Made G x node := by
  intro x node hx
  rcases hsx : s x with _ | node'
  · exact (h.added x node hsx hx).2.1.made
  · have heq := h.kept x node' hsx
    rw [hx] at heq
    cases heq
    exact hs x node hsx

/-- What holds between calls, holds after one more. -/
theorem Session.sound {s : Store α} {plans : Plans α} {wasm : List TypePlan}
    (h : Session G s plans wasm) :
    Session.Sound G s plans wasm := by
  induction h with
  | initial =>
    exact ⟨valid_initial, fun _ _ h => (by cases h), fun _ _ h => (by cases h), by decide,
      Plans.valid_none, .empty⟩
  | @plan s plans plans' wasm out fuel a result _ hcall ih =>
    refine ⟨ih.valid, ih.made, ih.holds, ih.memory, ?_, ih.reachable⟩
    have hspec := compilePlan_spec out fuel a plans ih.plans
    rw [hcall] at hspec
    cases result with
    | error e => exact hspec
    | ok plan => exact hspec.1
  | @handle s plans wasm wasm' out fuel a ended _ hcall hresolved hdrives hcount ih =>
    have hends := compiledSchemaHandle_ends hcall
    have hvalid := hends.valid ih.valid
    cases hends with
    | uninitialized _ =>
      refine ⟨ih.valid, ih.made, fun x h hx => ?_, hdrives.length_lt ih.memory, ih.plans,
        hdrives.reachable ih.reachable⟩
      exact (ih.holds x h hx).mono (fun _ _ h => h) (fun _ _ h => h) hdrives.keeps
    | unresolved _ hnodes => exact absurd hnodes (hresolved _ _)
    | refused _ hnodes hregister =>
      -- The handles of the call are taken back.
      have hadds := (nodes_of_ok inherited_place trivial hnodes).2.1
      have hroll := rollback_eq ((register_spec _ _ s.start).of_error rfl hregister)
      refine ⟨hvalid, made_of_adds hadds ih.made, fun x h hx => ?_, hdrives.length_lt ih.memory,
        ih.plans, hdrives.reachable ih.reachable⟩
      dsimp only at hx ⊢
      rw [hroll] at hx ⊢
      exact (ih.holds x h hx).mono hadds.kept (fun _ _ h => h) hdrives.keeps
    | returned _ hnodes hregister =>
      have hadds := (nodes_of_ok inherited_place trivial hnodes).2.1
      obtain ⟨-, hgrows, commits, hcommits⟩ := (register_spec _ _ s.start).of_ok rfl hregister
      refine ⟨hvalid, made_of_adds hadds ih.made, fun x h hx => ?_, hdrives.length_lt ih.memory,
        ih.plans, hdrives.reachable ih.reachable⟩
      rcases hold : s.wasmHandle x with _ | h'
      · obtain ⟨node, hnode, hmem, hrefers⟩ := hcommits.all x h hold hx
        have hcommit : (h, planOf _ node) ∈ _ :=
          hcommits.commits.symm ▸ List.mem_append_right _ hmem
        obtain ⟨type, htype, hcommitted, hplan⟩ := hdrives.committed hcommit
        exact ⟨node, type, hnode, htype, hcommitted, hplan, hrefers⟩
      · have heq := hgrows.kept x h' hold
        dsimp only at hx
        rw [hx] at heq
        cases heq
        exact (ih.holds x h hold).mono hadds.kept hgrows.kept hdrives.keeps

/-! ## Types of the right kinds -/

theorem Kind.eq_of_code {kind kind' : Kind} (h : UInt32.ofNat kind.code = UInt32.ofNat kind'.code) :
    kind = kind' := by
  have hcode : ∀ k : Kind, (UInt32.ofNat k.code).toNat = k.code := by
    intro k
    cases k <;> rfl
  have heq := congrArg UInt32.toNat h
  rw [hcode, hcode] at heq
  revert heq
  cases kind <;> cases kind' <;> simp [Kind.code]

omit [DecidableEq α] in
/-- The kind of a plan that is committed. -/
theorem Committed.kind {wasm : List TypePlan} {plan : Plan} {type : TypePlan}
    (h : Committed wasm plan type) :
    type.kind = UInt32.ofNat plan.kind.code := by
  cases plan with
  | message fields => exact h.1
  | array valueKind child => exact h.1
  | map keyKind valueKind child => exact h.1

omit [DecidableEq α] in
/-- The decoder has checked the kind of a child of an array or of a map. -/
theorem validateChild_container {wasm : List TypePlan} {handle : Identity α → Option ℕ}
    {type : TypePlan} {node : Option (Identity α) → SchemaNode α} {valueKind : Kind}
    {child : Option (Identity α)}
    (hnode : node = .array valueKind ∨ ∃ keyKind, node = .map keyKind valueKind)
    (h : Committed wasm (planOf handle (node child)) type) :
    Wasm.validateChild wasm (UInt32.ofNat valueKind.code) (handleOf handle child) = true := by
  rcases hnode with rfl | ⟨keyKind, rfl⟩
  · obtain ⟨-, hvalue, hchild, hvalid⟩ := h
    rwa [hvalue.eq, hchild] at hvalid
  · obtain ⟨-, -, hvalue, hchild, hvalid⟩ := h
    rwa [hvalue.eq, hchild] at hvalid

omit [DecidableEq α] in
/-- The decoder has checked the kind of what a resolver gave. -/
theorem validateChild_of_asks {wasm : List TypePlan} {handle : Identity α → Option ℕ}
    {x y : Identity α} {τ : Identity α → α} {type : TypePlan}
    (h : Committed wasm (planOf handle (content G τ x)) type) (hasks : Asks G x y) :
    Wasm.validateChild wasm (UInt32.ofNat (valueKindOf G.shape y).code)
      (handleOf handle (some (.type (τ y)))) = true := by
  -- The plan that was committed holds the handle, so that the decoder has compared its kind.
  cases hasks with
  | @container a hcomplex =>
    have hplace : Place G (.type a) := trivial
    rw [valueKindOf] at hcomplex ⊢
    rcases hshape : G.shape a with fields | valueKind | ⟨keyKind, valueKind⟩
    · rw [hshape] at hcomplex
      cases hcomplex
    · rw [hshape] at hcomplex
      rw [content_array hplace hshape, containerChild, if_pos hcomplex] at h
      exact validateChild_container (.inl rfl) h
    · rw [hshape] at hcomplex
      rw [content_map hplace hshape, containerChild, if_pos hcomplex] at h
      exact validateChild_container (.inr ⟨keyKind, rfl⟩) h
  | @repeated a index field hfield hcomplex =>
    rw [hfield.content_eq, containerChild, if_pos hcomplex, fieldContainer] at h
    rw [hfield.valueKindOf]
    split at h
    · exact validateChild_container (.inl rfl) h
    · exact validateChild_container (.inr ⟨field.keyKind, rfl⟩) h
  | @field a index field hfield hsingle hcomplex =>
    obtain ⟨fields, hcontent, hmem⟩ := hfield.mem_content τ
    rw [hcontent] at h
    obtain ⟨-, -, hvalid⟩ := h
    have hfieldValid := hvalid _ (List.mem_map_of_mem hmem)
    rw [fieldContent, hsingle, if_neg Bool.false_ne_true, containerChild,
      if_pos hcomplex] at hfieldValid
    rw [hfield.valueKindOf]
    have hkind : field.kind = field.valueKind := by
      rw [Field.kind, hsingle, if_neg Bool.false_ne_true]
    rwa [← hkind]

omit [DecidableEq α] in
/-- So that it was of the right kind. -/
theorem Session.Sound.target {s : Store α} {plans : Plans α} {wasm : List TypePlan}
    (h : Session.Sound G s plans wasm) {x y : Identity α} {τ : Identity α → α} {type : TypePlan}
    (hplan : Committed wasm (planOf s.wasmHandle (content G τ x)) type)
    (hrefers : ∀ z, (content G τ x).Refers z → s.wasmHandle z ≠ none) (hasks : Asks G x y)
    (hcomplex : (valueKindOf G.shape y).isComplexKind = true) :
    (G.shape (τ y)).kind = valueKindOf G.shape y := by
  have hchild := validateChild_of_asks hplan hasks
  obtain ⟨k, hk⟩ := Option.ne_none_iff_exists'.1 (hrefers _ (hasks.refers τ))
  obtain ⟨node, type', hnode, htype', -, hplan', -⟩ := h.holds _ k hk
  rw [Wasm.validateChild, handleOf, Option.bind_some, hk, Option.getD_some, htype', ← (Kind.is_ofNat
      _).complex, hcomplex, Bool.not_true, Bool.false_or, beq_iff_eq, hplan'.kind] at hchild
  rw [← content_type_kind G.target, ← h.valid.kind _ node hnode, ← planOf_kind s.wasmHandle node]
  exact Kind.eq_of_code hchild

omit [DecidableEq α] in
theorem Asks.complex {x y : Identity α} (h : Asks G x y) :
    (valueKindOf G.shape y).isComplexKind = true := by
  cases h with
  | container hcomplex => exact hcomplex
  | repeated hfield hcomplex => rwa [hfield.valueKindOf]
  | field hfield _ hcomplex => rwa [hfield.valueKindOf]

omit [DecidableEq α] in
/-- The plans of the decoder that have a handle are those of their types. -/
theorem Session.Sound.serves {s : Store α} {plans : Plans α} {wasm : List TypePlan}
    (h : Session.Sound G s plans wasm) :
    Serves G wasm s.wasmHandle := by
  have hcontent : ∀ x k, s.wasmHandle x = some k → s.nodes x = some (content G G.target x) := by
    intro x k hx
    obtain ⟨node, type, hnode, -, -, hplan, hrefers⟩ := h.holds x k hx
    obtain ⟨τ, rfl, hτ⟩ := h.made x node hnode
    rw [hnode]
    exact congrArg some (content_congr fun y hy => hτ y hy (h.target hplan hrefers hy hy.complex))
  refine ⟨fun x k hx => ?_, fun x k hx => ?_, fun x y hx hchild => ?_⟩
  · exact h.valid.place x (hcontent x k hx ▸ Option.some_ne_none _)
  · obtain ⟨node, type, hnode, htype, -, hplan, -⟩ := h.holds x k hx
    rw [hcontent x k hx] at hnode
    cases hnode
    exact ⟨type, htype, hplan⟩
  · obtain ⟨k, hk⟩ := Option.ne_none_iff_exists'.1 hx
    obtain ⟨node, type, hnode, -, -, -, hrefers⟩ := h.holds x k hk
    rw [hcontent x k hk] at hnode
    cases hnode
    exact hrefers y hchild

/-! ## Whole calls -/

omit [DecidableEq α] in
theorem isComplexKind_shape (shape : Shape α) : shape.kind.isComplexKind = true := by
  cases shape <;> rfl

/-- The handle that a call returns is that of its type. -/
theorem handle_of_ok {out : Outside G} {fuel handle : ℕ} {a : α} {s t : Store α}
    {commits : List (ℕ × Plan)}
    (h : compiledSchemaHandle out fuel a s = some ⟨.ok handle, t, commits⟩) :
    (∀ e nodes, schemaNode out fuel a s.nodes ≠ some (.error e, nodes)) ∧
      t.wasmHandle (.type a) = some handle := by
  have hresolved : ∀ e nodes, schemaNode out fuel a s.nodes ≠ some (.error e, nodes) := by
    intro e nodes hnodes
    rw [compiledSchemaHandle] at h
    rcases hinit : out.requireWasmInitialized with e' | _
    · simp only [hinit] at h
      cases h
    · simp only [hinit, hnodes] at h
      cases h
  refine ⟨hresolved, ?_⟩
  cases compiledSchemaHandle_ends h with
  | returned _ hnodes hregister =>
    obtain ⟨rfl, -, -⟩ := nodes_of_ok (D := Place G) inherited_place trivial hnodes
    exact ((register_spec _ _ s.start).of_ok rfl hregister).1

end

/-- A message with a number, and with one of its own type. -/
def linkedGraph : Graph PUnit where
  finite := inferInstance
  shape _ :=
    .message [⟨"id", 0, false, .none, .u32, none⟩, ⟨"next", 1, false, .none, .message, some ⟨⟩⟩]
  target _ := ⟨⟩
  target_kind := by
    rintro (a | ⟨a, _ | _ | index⟩) h
    · cases h
    · cases h
    · rfl
    · cases h

theorem linkedGraph_constructed : linkedGraph.Constructed := by
  refine fun _ => ⟨_, messageSchemaV1_ok_iff.2 ⟨rfl, fun field hfield => ?_, by decide, by decide⟩⟩
  rcases List.mem_cons.1 hfield with rfl | hfield
  · exact ⟨by decide, by decide, .inl rfl, rfl, rfl⟩
  · rw [List.mem_singleton.1 hfield]
    exact ⟨by decide, by decide, .inl rfl, rfl, rfl⟩

/-- Its plan, as the decoder has it. -/
def linkedPlan : TypePlan :=
  { kind := Wasm.kMessage, committed := true, fields :=
    [⟨0, Wasm.kU32, Wasm.kNoType⟩, ⟨1, Wasm.kMessage, 1⟩], fieldIndexById := [0, 1] }

/-- Its plan, as the reader has it. -/
def linkedType : DecodePlan PUnit :=
  ⟨0, [.message ⟨⟩
      [⟨"id", .u32, noType, .scalar (.number 0)⟩, ⟨"next", .message, 0, .scalar .undefined⟩] 1]⟩

end ProtoCache.Typescript

import ProtoCache.Lib.Exceptional
import ProtoCache.Typescript.Schema
import Mathlib.Data.Finite.Defs
import Mathlib.Logic.Function.Basic

/-!
# Handles of schemas

`compiledSchemaHandle` of the TypeScript package (`typescript/src/compiled-schema.ts`)
hands the plan of a type, and those of the types that it refers to, over to the decoder.
It first makes a node for each type, and then has a handle reserved for each node and its
plan committed. Nodes are cached under the type or, for a repeated field, the field; a
node is in the cache before its children are, as types may refer to themselves.

The functions that resolve the types of values, and the decoder, may fail at any call.
-/

namespace ProtoCache.Typescript

open Exceptional

/-! ## Graphs of types -/

/-- What a type says of its parts. -/
inductive Shape (α : Type)
  | message (fields : List (Field α))
  | array (valueKind : Kind)
  | map (keyKind valueKind : Kind)

/-- The kind of a type. -/
def Shape.kind {α : Type} : Shape α → Kind
  | message _ => .message
  | array _ => .array
  | map _ _ => .map

/-- What a node is cached under: a type, or a field of a message. It is also what a
    resolver is known by, as each type and each field has at most one. -/
inductive Identity (α : Type)
  | type (a : α)
  | field (a : α) (index : ℕ)
  deriving DecidableEq

/-- The fields of a message. -/
def Shape.fields {α : Type} : Shape α → List (Field α)
  | message fields => fields
  | _ => []

/-- The kind of the values that a resolver is for. -/
def valueKindOf {α : Type} (shape : α → Shape α) : Identity α → Kind
  | .type a =>
    match shape a with
    | .message _ => .none
    | .array valueKind => valueKind
    | .map _ valueKind => valueKind
  | .field a index =>
    match (shape a).fields[index]? with
    | none => .none
    | some field => field.valueKind

/-- A graph of types: what each of them says of its parts, and the type that each resolver
    stands for, which is of the right kind. There are finitely many. -/
structure Graph (α : Type) where
  finite : Finite α
  shape : α → Shape α
  target : Identity α → α
  target_kind : ∀ x, (valueKindOf shape x).isComplexKind →
    (shape (target x)).kind = valueKindOf shape x

/-! ## Nodes -/

/-- `SchemaFieldNode`. -/
structure FieldNode (α : Type) where
  id : ℕ
  kind : Kind
  child : Option (Identity α)

/-- `SchemaNode`, without its handle. A node that is a child is known by what it is cached
    under. -/
inductive SchemaNode (α : Type)
  | message (fields : List (FieldNode α))
  | array (valueKind : Kind) (child : Option (Identity α))
  | map (keyKind valueKind : Kind) (child : Option (Identity α))

/-- The kind of a node. -/
def SchemaNode.kind {α : Type} : SchemaNode α → Kind
  | message _ => .message
  | array _ _ => .array
  | map _ _ _ => .map

/-- `schemaNodes`. -/
abbrev Nodes (α : Type) := Identity α → Option (SchemaNode α)

/-! ## Plans -/

/-- A field of a plan, with the handle of its type. -/
structure PlanField where
  id : ℕ
  kind : Kind
  child : Option ℕ
  deriving DecidableEq

/-- A plan as it is committed, with the handles of the types that it refers to. -/
inductive Plan
  | message (fields : List PlanField)
  | array (valueKind : Kind) (child : Option ℕ)
  | map (keyKind valueKind : Kind) (child : Option ℕ)
  deriving DecidableEq

/-- `NO_TYPE`. -/
def noType : ℕ := 0xffffffff

/-- The `words` of a plan. -/
def Plan.words : Plan → List ℕ
  | message fields =>
    [Kind.message.code, fields.length, 4 + fields.length * 3, noType] ++
      fields.flatMap fun field => [field.id, field.kind.code, field.child.getD noType]
  | array valueKind child => [Kind.array.code, valueKind.code, 4, child.getD noType]
  | map keyKind valueKind child =>
    [Kind.map.code, keyKind.code ||| valueKind.code <<< 8, 4, child.getD noType]

/-! ## Calls -/

/-- What the calls to others do during a call: whether the decoder is there, what each
    resolver gives, and whether the decoder reserves a handle and commits a plan, which
    may depend on how many it has so far. A resolver may fail or give a type of another
    kind, but not another type of the right kind. -/
structure Outside {α : Type} (G : Graph α) where
  requireWasmInitialized : Except (Thrown α) PUnit
  resolver : Identity α → Except (Thrown α) α
  resolver_kind : ∀ x b, resolver x = .ok b → (G.shape b).kind = valueKindOf G.shape x →
    b = G.target x
  reserveDecodeSchema : ℕ → Except (Thrown α) PUnit
  commitDecodeSchema : ℕ → List ℕ → Except (Thrown α) PUnit

/-- Nothing fails. -/
def Outside.sound {α : Type} (G : Graph α) : Outside G where
  requireWasmInitialized := .ok ⟨⟩
  resolver x := .ok (G.target x)
  resolver_kind := by
    rintro x b ⟨rfl⟩ -
    rfl
  reserveDecodeSchema _ := .ok ⟨⟩
  commitDecodeSchema _ _ := .ok ⟨⟩

section

variable {α : Type} [DecidableEq α] {G : Graph α} (out : Outside G)

/-- A call to others, which leaves the state of the module as it is. -/
def ask {σ β : Type} (answer : Except (Thrown α) β) : Run σ (Thrown α) β :=
  fun s => some (answer, s)

/-! ## Making the nodes -/

/-- A node is put in the cache, or one that is there is changed. -/
def setNode (x : Identity α) (node : SchemaNode α) : Run (Nodes α) (Thrown α) PUnit := fun nodes =>
  some (.ok ⟨⟩, Function.update nodes x (some node))

/-- `resolveRuntimeType`, of a field. -/
def resolveRuntimeType (x : Identity α) : Run (Nodes α) (Thrown α) α := do
  let expectedKind := valueKindOf G.shape x
  let candidate ← ask (out.resolver x)
  if (G.shape candidate).kind = expectedKind then return candidate
  else
    Run.throw
      (.typeError s!"ProtoCache resolver did not return a kind {expectedKind.code} runtime type")

/-- `containerNode`, of an array or a map; `next` is `schemaNode`. -/
def containerNode (next : α → Run (Nodes α) (Thrown α) (Identity α)) (identity : Identity α)
    (node : Option (Identity α) → SchemaNode α) (valueKind : Kind)
    (resolver : Run (Nodes α) (Thrown α) α) :
    Run (Nodes α) (Thrown α) (Identity α) := fun nodes =>
  match nodes identity with
  | some _ => some (.ok identity, nodes)
  | none => (do
      setNode identity (node none)
      if valueKind.isComplexKind then
        let type ← resolver
        let child ← next type
        setNode identity (node (some child))
        return identity
      else return identity : Run (Nodes α) (Thrown α) (Identity α)) nodes

/-- The child of a field. -/
def fieldChild (next : α → Run (Nodes α) (Thrown α) (Identity α)) (a : α) (index : ℕ)
    (field : Field α) :
    Run (Nodes α) (Thrown α) (Option (Identity α)) :=
  let identity := Identity.field a index
  if field.repeated then do
    let node := if field.keyKind = .none then SchemaNode.array field.valueKind
      else SchemaNode.map field.keyKind field.valueKind
    let child ← containerNode next identity node field.valueKind (resolveRuntimeType out identity)
    return some child
  else if field.valueKind.isComplexKind then do
    let type ← resolveRuntimeType out identity
    let child ← next type
    return some child
  else return none

/-- The loop of `schemaNode` over the fields of a message. The node has the fields that
    were there before. -/
def fieldNodes (next : α → Run (Nodes α) (Thrown α) (Identity α)) (a : α) :
    List (Field α) → List (FieldNode α) → Run (Nodes α) (Thrown α) PUnit
  | [], _ => return ()
  | field :: fields, done => do
    let child ← fieldChild out next a done.length field
    let done := done ++ [⟨field.id, field.kind, child⟩]
    setNode (.type a) (.message done)
    fieldNodes next a fields done

/-- `schemaNode`. The nesting of its calls is bounded by the model. -/
def schemaNode : ℕ → α → Run (Nodes α) (Thrown α) (Identity α)
  | 0, _ => Run.never
  | fuel + 1, a => fun nodes =>
    match nodes (.type a) with
    | some _ => some (.ok (.type a), nodes)
    | none =>
      match G.shape a with
      | .array valueKind =>
        containerNode (schemaNode fuel) (.type a) (.array valueKind) valueKind
          (ask (out.resolver (.type a))) nodes
      | .map keyKind valueKind =>
        containerNode (schemaNode fuel) (.type a) (.map keyKind valueKind) valueKind
          (ask (out.resolver (.type a))) nodes
      | .message fields => (do
          setNode (.type a) (.message [])
          fieldNodes out (schemaNode fuel) a fields []
          return .type a : Run (Nodes α) (Thrown α) (Identity α)) nodes

/-! ## Registering the nodes -/

/-- The handles of the nodes, and those of the decoder: how many there are, which nodes
    the call has touched, and what it has committed. -/
structure Registry (α : Type) where
  wasmHandle : Identity α → Option ℕ
  count : ℕ
  touched : List (Identity α)
  commits : List (ℕ × Plan)

/-- `reserveDecodeSchema`, and what follows from it for the node. -/
def reserve (x : Identity α) : Run (Registry α) (Thrown α) ℕ := fun g =>
  match out.reserveDecodeSchema g.touched.length with
  | .error e => some (.error e, g)
  | .ok _ =>
    let handle := g.count + 1
    some (.ok handle, { g with
      wasmHandle := Function.update g.wasmHandle x (some handle), count := handle, touched :=
        g.touched ++ [x] })

/-- `commitDecodeSchema`. -/
def commit (handle : ℕ) (plan : Plan) : Run (Registry α) (Thrown α) PUnit := fun g =>
  match out.commitDecodeSchema g.commits.length plan.words with
  | .error e => some (.error e, g)
  | .ok _ => some (.ok ⟨⟩, { g with commits := g.commits ++ [(handle, plan)] })

section

variable {σ : Type} (next : Identity α → Run σ (Thrown α) ℕ)

/-- The handle of a child, if there is one; `next` is `register`, over any state. -/
def registerChild : Option (Identity α) → Run σ (Thrown α) (Option ℕ)
  | none => return none
  | some child => do
    let handle ← next child
    return some handle

/-- The loop of `register` over the fields of a message. -/
def registerFields : List (FieldNode α) → Run σ (Thrown α) (List PlanField)
  | [] => return []
  | field :: fields => do
    let child ← registerChild next field.child
    let rest ← registerFields fields
    return ⟨field.id, field.kind, child⟩ :: rest

/-- The plan of a node. -/
def registerNode : SchemaNode α → Run σ (Thrown α) Plan
  | .message fields => do
    let fields ← registerFields next fields
    return .message fields
  | .array valueKind child => do
    let child ← registerChild next child
    return .array valueKind child
  | .map keyKind valueKind child => do
    let child ← registerChild next child
    return .map keyKind valueKind child

end

/-- `register`. The nesting of its calls is bounded by the model. -/
def register (nodes : Nodes α) : ℕ → Identity α → Run (Registry α) (Thrown α) ℕ
  | 0, _ => Run.never
  | fuel + 1, x => fun g =>
    match g.wasmHandle x, nodes x with
    | some handle, _ => some (.ok handle, g)
    | none, none => none
    | none, some node => (do
        let handle ← reserve out x
        let plan ← registerNode (register nodes fuel) node
        commit out handle plan
        return handle : Run (Registry α) (Thrown α) ℕ) g

/-! ## The call -/

/-- What is kept between calls: the nodes, their handles, and how many handles the decoder
    has given. -/
structure Store (α : Type) where
  nodes : Nodes α
  wasmHandle : Identity α → Option ℕ
  count : ℕ

/-- Before the first call. -/
def Store.initial : Store α := ⟨fun _ => none, fun _ => none, 0⟩

/-- The handles without those of the nodes that a call has touched. -/
def rollback (touched : List (Identity α)) (wasmHandle : Identity α → Option ℕ) :
    Identity α → Option ℕ :=
  fun x => if x ∈ touched then none else wasmHandle x

/-- How a call ended, what it left, and what it committed. -/
structure Ended (α : Type) where
  result : Except (Thrown α) ℕ
  store : Store α
  commits : List (ℕ × Plan)

/-- `compiledSchemaHandle`. -/
def compiledSchemaHandle (fuel : ℕ) (a : α) (s : Store α) : Option (Ended α) :=
  match out.requireWasmInitialized with
  | .error e => some ⟨.error e, s, []⟩
  | .ok _ =>
    match schemaNode out fuel a s.nodes with
    | none => none
    | some (.error e, nodes) => some ⟨.error e, { s with nodes }, []⟩
    | some (.ok x, nodes) =>
      match register out nodes fuel x ⟨s.wasmHandle, s.count, [], []⟩ with
      | none => none
      | some (.error e, g) =>
        some ⟨.error e, ⟨nodes, rollback g.touched g.wasmHandle, g.count⟩, g.commits⟩
      | some (.ok handle, g) => some ⟨.ok handle, ⟨nodes, g.wasmHandle, g.count⟩, g.commits⟩

end

end ProtoCache.Typescript

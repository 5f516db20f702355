import ProtoCache.Typescript.Accepts
import ProtoCache.Typescript.Session

/-!
# The call with the decoder

`compiledSchemaHandle` with the decoder itself in place of its answers: handles are the ones that
`pc_decode_schema_reserve` gives, and plans go through the plan buffer to `pc_decode_plan_commit`.

* `register_simulates`: the decoder goes along with the registration of a type, and refuses nothing;
* `compiledSchemaHandle_accepted`: in any order of calls, what the constructors have accepted, the
  decoder accepts;
* `compiledSchemaHandle_serves`: so a call returns with a handle where nothing fails.
-/

namespace ProtoCache.Typescript

open Exceptional
open Wasm (TypePlan)

/-! ## The call with the decoder -/

/-- What surrounds the decoder: the calls to others may fail before the decoder is asked, and
    the plan buffer may hold more behind a plan. -/
structure Host {α : Type} (G : Graph α) extends Outside G where
  /-- `new ProtoCacheWasmError(message, status)`. -/
  wasmError : String → Wasm.Status → Thrown α
  behind : ℕ → List UInt8

/-- What a call changes: its registry, and the plans of the decoder. -/
structure Joint (α : Type) where
  registry : Registry α
  wasm : List TypePlan

section

variable {α : Type} [DecidableEq α] {G : Graph α} (host : Host G)

/-- `reserveDecodeSchema`, and what follows from it for the node, with the decoder. -/
def reserveIn (x : Identity α) (kind : Kind) : Run (Joint α) (Thrown α) ℕ := fun j =>
  match host.reserveDecodeSchema j.registry.touched.length with
  | .error e => some (.error e, j)
  | .ok _ =>
    match Wasm.schemaReserve j.wasm (UInt32.ofNat kind.code) with
    | .error _ =>
      some (.error (host.wasmError "ProtoCache decode schema allocation failed" .invalidArgument),
        j)
    | .ok wasm =>
      let handle := wasm.length
      let wasmHandle := Function.update j.registry.wasmHandle x (some handle)
      some (.ok handle, ⟨{ j.registry with wasmHandle, count := handle, touched :=
            j.registry.touched ++ [x] }, wasm⟩)

/-- `commitDecodeSchema`, with the decoder. -/
def commitIn (handle : ℕ) (plan : Plan) : Run (Joint α) (Thrown α) PUnit := fun j =>
  match host.commitDecodeSchema j.registry.commits.length plan.words with
  | .error e => some (.error e, j)
  | .ok _ =>
    -- A call that does not return false but is undefined would end here as well.
    match Wasm.commitPlan j.wasm (wordsToBytes plan.words ++ host.behind j.registry.commits.length)
      (UInt32.ofNat handle)
      (UInt32.ofNat (4 * plan.words.length)) with
    | .error _ =>
      some (.error (host.wasmError "ProtoCache decode plan was rejected" .invalidData), j)
    | .ok wasm =>
      some (.ok ⟨⟩, ⟨{ j.registry with commits := j.registry.commits ++ [(handle, plan)] }, wasm⟩)

/-- `register`, with the decoder. -/
def registerIn (nodes : Nodes α) : ℕ → Identity α → Run (Joint α) (Thrown α) ℕ
  | 0, _ => Run.never
  | fuel + 1, x => fun j =>
    match j.registry.wasmHandle x, nodes x with
    | some handle, _ => some (.ok handle, j)
    | none, none => none
    | none, some node => (do
        let handle ← reserveIn host x node.kind
        let plan ← registerNode (registerIn nodes fuel) node
        commitIn host handle plan
        return handle : Run (Joint α) (Thrown α) ℕ) j

/-- `compiledSchemaHandle`, with the decoder: how the call ended, and the plans of the decoder. -/
def compiledSchemaHandleIn (fuel : ℕ) (a : α) (s : Store α) (wasm : List TypePlan) :
    Option (Ended α × List TypePlan) :=
  match host.requireWasmInitialized with
  | .error e => some (⟨.error e, s, []⟩, wasm)
  | .ok _ =>
    match schemaNode host.toOutside fuel a s.nodes with
    | none => none
    | some (.error e, nodes) => some (⟨.error e, { s with nodes }, []⟩, wasm)
    | some (.ok x, nodes) =>
      match registerIn host nodes fuel x ⟨s.start, wasm⟩ with
      | none => none
      | some (.error e, ⟨g, wasm⟩) =>
        some (⟨.error e, ⟨nodes, rollback g.touched g.wasmHandle, g.count⟩, g.commits⟩, wasm)
      | some (.ok handle, ⟨g, wasm⟩) =>
        some (⟨.ok handle, ⟨nodes, g.wasmHandle, g.count⟩, g.commits⟩, wasm)

end

section

variable {α : Type} {G : Graph α}

/-! ## Children of the right kinds -/

/-- The nodes are as their types say. -/
def Proper (G : Graph α) (nodes : Nodes α) : Prop :=
  ∀ x node, nodes x = some node → Place G x ∧ node = content G G.target x

/-- A handle is that of a plan of the kind of its node. -/
def Matches (nodes : Nodes α) (handle : Identity α → Option ℕ) (wasm : List TypePlan) : Prop :=
  ∀ x h, handle x = some h →
  h < noType ∧ ∃ node type, nodes x = some node ∧ Wasm.planOf wasm (UInt32.ofNat h) = some type ∧
    type.kind = UInt32.ofNat node.kind.code

variable {nodes : Nodes α} {handle : Identity α → Option ℕ} {wasm : List TypePlan}

/-- A child with a handle is a child that the decoder accepts. -/
theorem Matches.fits (h : Matches nodes handle wasm) (hnodes : Proper G nodes) {kind : Kind}
    (hkind : isValueKind kind = true) {child : Option (Identity α)}
    (hsome : child.isSome = kind.isComplexKind)
    (hchild : ∀ y, child = some y → handle y ≠ none ∧ (content G G.target y).kind = kind) :
    Fits wasm kind (child.bind handle) := by
  refine ⟨hkind, ?_⟩
  cases child with
  | none => exact hsome.symm
  | some y =>
    -- In a cycle, the plan of the child may be reserved only: that has its kind already.
    obtain ⟨hhandle, hcontent⟩ := hchild y rfl
    obtain ⟨k, hk⟩ := Option.ne_none_iff_exists'.1 hhandle
    obtain ⟨hlt, node, type, hnode, htype, htypeKind⟩ := h y k hk
    rw [Option.bind_some, hk]
    refine ⟨hsome.symm, hlt, type, htype, ?_⟩
    rw [htypeKind, (hnodes y node hnode).2, hcontent]

/-- The child of an array or of a map. -/
theorem Matches.fits_values (h : Matches nodes handle wasm) (hnodes : Proper G nodes)
    {x : Identity α} {valueKind : Kind} (hkind : isValueKind valueKind = true)
    (hvalue : valueKindOf G.shape x = valueKind)
    (hhandle : ∀ y, containerChild valueKind (G.target x) = some y → handle y ≠ none) :
    Fits wasm valueKind ((containerChild valueKind (G.target x)).bind handle) := by
  refine h.fits hnodes hkind ?_ fun y hy => ⟨hhandle y hy, ?_⟩
  · rw [containerChild]
    split
    · next hcomplex => exact hcomplex.symm
    · next hplain => exact (Bool.eq_false_of_not_eq_true hplain).symm
  · rw [containerChild] at hy
    split at hy
    · next hcomplex =>
      cases hy
      rw [content_type_kind, G.target_kind x (hvalue ▸ hcomplex), hvalue]
    · cases hy

/-- The child of a field: the array or the map that it is, or the type that its resolver gives. -/
theorem Matches.fits_field (h : Matches nodes handle wasm) (hnodes : Proper G nodes) {a : α}
    {index : ℕ} {field : Field α} (hfield : FieldAt G a index field)
    (hconstructed : field.Constructed)
    (hhandle : ∀ y, (fieldContent G.target a index field).child = some y → handle y ≠ none) :
    Fits wasm field.kind ((fieldContent G.target a index field).child.bind handle) := by
  rcases hr : field.repeated with _ | _
  · have hkind : field.kind = field.valueKind := by rw [Field.kind, hr, if_neg Bool.false_ne_true]
    have hchild : (fieldContent G.target a index field).child =
        containerChild field.valueKind (G.target (.field a index)) := by
      rw [fieldContent, hr, if_neg Bool.false_ne_true]
    rw [hchild] at hhandle ⊢
    rw [hkind]
    exact h.fits_values hnodes hconstructed.value.1 hfield.valueKindOf hhandle
  · have hchild : (fieldContent G.target a index field).child = some (.field a index) := by
      rw [fieldContent, hr, if_pos rfl]
    have hkind : (content G G.target (.field a index)).kind = field.kind := by
      rw [hfield.content_eq, fieldContainer, Field.kind, hr, if_pos rfl]
      split
      · rfl
      · rfl
    have hcomplex : field.kind.isComplexKind = true ∧ isValueKind field.kind = true := by
      rw [Field.kind, hr, if_pos rfl]
      split
      · exact ⟨rfl, rfl⟩
      · exact ⟨rfl, rfl⟩
    rw [hchild] at hhandle ⊢
    refine h.fits hnodes hcomplex.2 hcomplex.1.symm fun y hy => ⟨hhandle y hy, ?_⟩
    cases hy
    exact hkind

/-- The plan of a node whose children have handles is accepted, if the constructors have
    accepted the types. -/
theorem Matches.acceptable (h : Matches nodes handle wasm) (hnodes : Proper G nodes)
    (hconstructed : G.Constructed) {x : Identity α} (hplace : Place G x)
    (hhandle : ∀ y, (content G G.target x).Refers y → handle y ≠ none) :
    Acceptable wasm (planOf handle (content G G.target x)) := by
  -- A type itself, by its shape: a message, an array or a map.
  rcases x with a | ⟨a, index⟩
  · have hshapeConstructed := hconstructed a
    rcases hshape : G.shape a with fields | valueKind | ⟨keyKind, valueKind⟩
    · rw [hshape] at hshapeConstructed
      have hfields := hshapeConstructed.fields
      rw [content_message (x := .type a) hshape] at hhandle ⊢
      refine ⟨List.forall_mem_map.2 fun node hnode => ?_, ?_⟩
      · obtain ⟨index, hindex⟩ := List.mem_iff_getElem?.1 hnode
        rw [List.getElem?_mapIdx, Option.map_eq_some_iff] at hindex
        obtain ⟨field, hfield, rfl⟩ := hindex
        have hfieldConstructed := hfields.field field (List.mem_of_getElem? hfield)
        refine ⟨hfieldConstructed.id, ?_⟩
        exact h.fits_field hnodes ⟨fields, hshape, hfield⟩ hfieldConstructed fun y hy =>
          hhandle y ⟨_, hnode, hy⟩
      · have hids : (fields.mapIdx (fieldContent G.target a)).map FieldNode.id =
          fields.map Field.id := by
          refine List.ext_getElem? fun index => ?_
          rw [List.getElem?_map, List.getElem?_mapIdx, List.getElem?_map, Option.map_map]
          rfl
        rw [List.map_map]
        exact hids.symm ▸ hfields.ids
    · rw [hshape] at hshapeConstructed
      have hvalue : valueKindOf G.shape (.type a) = valueKind := by rw [valueKindOf, hshape]
      rw [content_array hplace (x := .type a) hshape] at hhandle ⊢
      exact h.fits_values hnodes hshapeConstructed.array hvalue hhandle
    · rw [hshape] at hshapeConstructed
      have hvalue : valueKindOf G.shape (.type a) = valueKind := by rw [valueKindOf, hshape]
      rw [content_map hplace (x := .type a) hshape] at hhandle ⊢
      exact ⟨hshapeConstructed.map.1, h.fits_values hnodes hshapeConstructed.map.2 hvalue hhandle⟩
  · -- A repeated field, which is an array or a map by what the message says of its keys.
    obtain ⟨field, hfield⟩ := hplace
    obtain ⟨fields, hshape, hindex⟩ := id hfield
    have hshapeConstructed := hconstructed a
    rw [hshape] at hshapeConstructed
    have hfieldConstructed := hshapeConstructed.fields.field field (List.mem_of_getElem? hindex)
    rw [hfield.content_eq, fieldContainer] at hhandle ⊢
    split at hhandle
    · next hnone =>
      rw [if_pos hnone]
      exact h.fits_values hnodes hfieldConstructed.value.1 hfield.valueKindOf hhandle
    · next hmap =>
      rw [if_neg hmap]
      refine ⟨(hfieldConstructed.keyKind.resolve_left hmap).2, ?_⟩
      exact h.fits_values hnodes hfieldConstructed.value.1 hfield.valueKindOf hhandle

/-- The nodes that a call adds are as their types say. -/
theorem Proper.adds {out : Outside G} (hresolves : out.Resolves) {s t : Nodes α} (hs : Proper G s)
    (h : Adds out (Place G) s t) : Proper G t := by
  intro x node hnode
  rcases hx : s x with _ | node'
  · obtain ⟨hplace, ⟨rfl, -⟩, -⟩ := h.added x node hx hnode
    exact ⟨hplace, content_congr fun y _ => hresolves.given y⟩
  · have hkept := h.kept x node' hx
    rw [hnode] at hkept
    cases hkept
    exact hs x node hx

/-! ## The decoder goes along -/

theorem Matches.keeps {wasm' : List TypePlan} (h : Matches nodes handle wasm)
    (hkeeps : Keeps wasm wasm') :
    Matches nodes handle wasm' := by
  intro x k hx
  obtain ⟨hlt, node, type, hnode, htype, hkind⟩ := h x k hx
  obtain ⟨type', htype', hkind', -⟩ := hkeeps _ type htype
  exact ⟨hlt, node, type', hnode, htype', hkind'.trans hkind⟩

theorem Matches.kept {nodes' : Nodes α} {handle' : Identity α → Option ℕ}
    (h : Matches nodes handle wasm) (hkept : Kept nodes nodes')
    (hhandle : ∀ x k, handle' x = some k → handle x = some k) :
    Matches nodes' handle' wasm := by
  intro x k hx
  obtain ⟨hlt, node, type, hnode, htype⟩ := h x k (hhandle x k hx)
  exact ⟨hlt, node, type, hkept x node hnode, htype⟩

/-- The decoder goes along with the registry of a call: it has as many plans as there are
    handles, `before` first, and was driven from `start` as the call says; the call began with
    `base` handles. -/
structure Goes (nodes : Nodes α) (base : ℕ) (start before : List TypePlan) (g : Registry α)
    (j : Joint α) : Prop where
  registry : j.registry = g
  count : j.wasm.length = g.count
  touched : g.count = base + g.touched.length
  before : before <+: j.wasm
  handles : Matches nodes g.wasmHandle j.wasm
  drives : Drives g.commits start j.wasm

variable {base : ℕ} {start before : List TypePlan} {g : Registry α}

theorem Goes.mono {before' : List TypePlan} {j : Joint α} (h : Goes nodes base start before g j)
    (hbefore : before' <+: before) :
    Goes nodes base start before' g j := { h with before := hbefore.trans h.before }

/-- Plans before one that is committed stay the first ones. -/
theorem prefix_set {wasm wasm' : List TypePlan} (h : wasm <+: wasm') {i : ℕ} (hle : wasm.length ≤ i)
    (type : TypePlan) :
    wasm <+: wasm'.set i type := by
  obtain ⟨rest, rfl⟩ := h
  rw [List.set_append_right _ _ hle]
  exact List.prefix_append _ _

/-- The decoder reserves a handle for the kind of a node. -/
theorem schemaReserve_accepts (wasm : List TypePlan) (node : SchemaNode α) :
    Wasm.schemaReserve wasm (UInt32.ofNat node.kind.code) =
      .ok (wasm ++ [{ kind := UInt32.ofNat node.kind.code }]) := by
  cases node with
  | message fields => rfl
  | array valueKind child => rfl
  | map keyKind valueKind child => rfl

variable [DecidableEq α] in
/-- A handle is reserved. -/
theorem Goes.reserve (h : Goes nodes base start before g ⟨g, wasm⟩) {x : Identity α}
    {node : SchemaNode α} (hnode : nodes x = some node) (hmemory : g.count + 1 < noType) :
    Goes nodes base start (wasm ++ [{ kind := UInt32.ofNat node.kind.code }]) (reserved g x)
      ⟨reserved g x, wasm ++ [{ kind := UInt32.ofNat node.kind.code }]⟩ := by
  have hcount : wasm.length = g.count := h.count
  have hreserve := schemaReserve_accepts wasm node
  have hlt : noType < 2 ^ 32 := by decide
  have hlength : (wasm ++ [{ kind := UInt32.ofNat node.kind.code }] : List TypePlan).length =
      g.count + 1 := by
    rw [List.length_append, hcount, List.length_singleton]
  refine ⟨rfl, hlength, ?_, List.prefix_rfl, fun y k hy => ?_, ?_⟩
  · rw [reserved, h.touched, List.length_append, List.length_singleton, Nat.add_assoc]
  · rcases eq_or_ne y x with rfl | hne
    · rw [reserved_self] at hy
      cases hy
      refine ⟨hmemory, node, { kind := UInt32.ofNat node.kind.code }, hnode, ?_, rfl⟩
      rw [← hcount]
      exact planOf_append wasm _ (by omega)
    · rw [reserved_of_ne hne] at hy
      exact h.handles.keeps (keeps_reserve hreserve) y k hy
  · have hdrives := h.drives.trans (.reserve hreserve (by omega) .nil)
    rwa [List.append_nil] at hdrives

/-- A plan is committed. -/
theorem Goes.commit {j : Joint α} (h : Goes nodes base start before g j) {handle : ℕ} {plan : Plan}
    {rest : List UInt8} {wasm' : List TypePlan} (hlen : 4 * plan.words.length < 2 ^ 32)
    (hcommit : Wasm.commitPlan j.wasm (wordsToBytes plan.words ++ rest) (UInt32.ofNat handle)
      (UInt32.ofNat (4 * plan.words.length)) = .ok wasm') {before' : List TypePlan}
    (hbefore : before' <+: wasm') :
    Goes nodes base start before' { g with commits := g.commits ++ [(handle, plan)] }
      ⟨{ j.registry with commits := j.registry.commits ++ [(handle, plan)] }, wasm'⟩ := by
  obtain ⟨type, hgets, hwasm⟩ := (commitPlan_gives hlen).of_ok hcommit
  refine ⟨?_, ?_, h.touched, hbefore, ?_, h.drives.trans (.commit hlen hcommit .nil)⟩
  · rw [h.registry]
  · rw [hwasm, List.length_set]
    exact h.count
  · rw [hwasm]
    exact h.handles.keeps hgets.keeps.1

/-- The plan of a node is accepted, for the handle that was reserved before its children were
    registered. -/
theorem Goes.accepts {type : TypePlan} {g' : Registry α} {wasm' : List TypePlan}
    (h : Goes nodes base start (wasm ++ [type]) g' ⟨g', wasm'⟩) (hconstructed : G.Constructed)
    (hnodes : Proper G nodes) {x : Identity α} {node : SchemaNode α} (hnode : nodes x = some node)
    (hcount : wasm.length = g.count) (hroom : g.count + 1 < noType)
    (hkind : type.kind = UInt32.ofNat node.kind.code) (hfresh : type.committed = false)
    (hrefers : ∀ y, node.Refers y → g'.wasmHandle y ≠ none) (rest : List UInt8) :
    4 * (planOf g'.wasmHandle node).words.length < 2 ^ 32 ∧ ∃ wasm'',
      Wasm.commitPlan wasm' (wordsToBytes (planOf g'.wasmHandle node).words ++ rest)
        (UInt32.ofNat (g.count + 1))
        (UInt32.ofNat (4 * (planOf g'.wasmHandle node).words.length)) = .ok wasm'' ∧
          wasm <+: wasm'' := by
  obtain ⟨hplace, hcontent⟩ := hnodes x node hnode
  have hacceptable : Acceptable wasm' (planOf g'.wasmHandle node) := by
    rw [hcontent] at hrefers ⊢
    exact h.handles.acceptable hnodes hconstructed hplace hrefers
  have hlt : g.count + 1 < 2 ^ 32 := hroom.trans (by decide)
  have hreserved := planOf_prefix h.before (planOf_append wasm type (hcount ▸ hlt))
  rw [hcount] at hreserved
  obtain ⟨hlen, wasm'', hcommit⟩ :=
    commitPlan_accepts hacceptable hreserved hfresh (hkind.trans (by rw [planOf_kind])) rest
  refine ⟨hlen, wasm'', hcommit, ?_⟩
  obtain ⟨type', -, rfl⟩ := (commitPlan_gives hlen).of_ok hcommit
  -- The plan takes its place behind those that there were.
  refine prefix_set ((List.prefix_append _ _).trans h.before) ?_ type'
  rw [UInt32.toNat_ofNat', Nat.mod_eq_of_lt hlt, Nat.add_sub_cancel, hcount]

section

variable {ι : Type} {R : ι → Registry α → Joint α → Prop}
  {next : Identity α → Run (Registry α) (Thrown α) ℕ}
  {nextIn : Identity α → Run (Joint α) (Thrown α) ℕ}

/-- Runs with the decoder for the parts of a node go on alike if those for its children do. -/
theorem registerChild_simulates (h : ∀ x, Simulates R (next x) (nextIn x))
    (child : Option (Identity α)) :
    Simulates R (registerChild next child) (registerChild nextIn child) := by
  cases child with
  | none => exact .pure none
  | some child => exact (h child).bind fun _ => .pure _

theorem registerFields_simulates (h : ∀ x, Simulates R (next x) (nextIn x))
    (fields : List (FieldNode α)) :
    Simulates R (registerFields next fields) (registerFields nextIn fields) := by
  induction fields with
  | nil => exact .pure []
  | cons field fields ih =>
    exact (registerChild_simulates h field.child).bind fun _ => ih.bind fun _ => .pure _

theorem registerNode_simulates (h : ∀ x, Simulates R (next x) (nextIn x)) (node : SchemaNode α) :
    Simulates R (registerNode next node) (registerNode nextIn node) := by
  cases node with
  | message fields => exact (registerFields_simulates h fields).bind fun _ => .pure _
  | array valueKind child => exact (registerChild_simulates h child).bind fun _ => .pure _
  | map keyKind valueKind child => exact (registerChild_simulates h child).bind fun _ => .pure _

end

end

section

variable {α : Type} [DecidableEq α] {G : Graph α} {host : Host G} {nodes : Nodes α}

/-- The decoder has memory for fewer than 2^32 - 1 plans, of which there are `base` when a call
    begins. -/
def Host.Spares (host : Host G) (base : ℕ) : Prop :=
  ∀ k, host.reserveDecodeSchema k = .ok ⟨⟩ → base + k + 1 < noType

/-- Both reserve the same handle. -/
theorem reserve_both {g : Registry α} {wasm : List TypePlan} {x : Identity α} {answer : PUnit}
    (hreserve : host.reserveDecodeSchema g.touched.length = .ok answer)
    (hcount : wasm.length = g.count) (node : SchemaNode α) :
    reserve host.toOutside x g = some (.ok (g.count + 1), reserved g x) ∧
      reserveIn host x node.kind ⟨g, wasm⟩ =
        some (.ok (g.count + 1),
          ⟨reserved g x, wasm ++ [{ kind := UInt32.ofNat node.kind.code }]⟩) := by
  constructor
  · simp only [reserve, hreserve]
    rfl
  · simp only [reserveIn, hreserve, schemaReserve_accepts, List.length_append, hcount,
      List.length_singleton]
    rfl

/-- The call for a node goes on alike with the decoder: by induction on how deep its calls are
    nested. -/
theorem register_simulates {base : ℕ} {start : List TypePlan} (hconstructed : G.Constructed)
    (hnodes : Proper G nodes) (hmemory : host.Spares base) (fuel : ℕ) (x : Identity α) :
    Simulates (Goes nodes base start) (register host.toOutside nodes fuel x)
      (registerIn host nodes fuel x) := by
  induction fuel generalizing x with
  | zero => exact .never
  | succ fuel ih =>
    rintro before _ ⟨g, wasm⟩ hgoes
    cases hgoes.registry
    simp only [register, registerIn]
    rcases hx : g.wasmHandle x with _ | handle
    swap
    · exact alike_some hgoes
    rcases hnode : nodes x with _ | node
    · exact alike_none
    -- First both reserve a handle for the node itself, ...
    change Alike _ (Run.bind _ _ g) (Run.bind _ _ (Joint.mk g wasm))
    rcases hreserve : host.reserveDecodeSchema g.touched.length with e | _
    · simp only [Run.bind, reserve, reserveIn, hreserve]
      exact alike_some hgoes
    have hroom : g.count + 1 < noType := hgoes.touched ▸ hmemory _ hreserve
    obtain ⟨hleft, hright⟩ := reserve_both (x := x) hreserve hgoes.count node
    simp only [Run.bind, hleft, hright]
    have hbefore : before <+: wasm ++ [{ kind := UInt32.ofNat node.kind.code }] :=
      hgoes.before.trans (List.prefix_append _ _)
    -- ... then they register its children, where the plan that was reserved stays, ...
    refine Alike.bind (registerNode_simulates ih node _ _ _ (hgoes.reserve hnode hroom))
      (fun _ _ h => h.mono hbefore) ?_
    rintro plan _ ⟨g', wasm'⟩ hplan hj
    cases hj.registry
    obtain ⟨rfl, hrefers, -⟩ :=
      (registerNode_spec (register_spec fuel) node (reserved g x)).of_ok rfl hplan
    -- ... and last they commit the plan of the node, which finds its children.
    obtain ⟨hlen, wasm'', hcommit, hstay⟩ :=
      hj.accepts hconstructed hnodes hnode hgoes.count hroom rfl rfl hrefers
        (host.behind g'.commits.length)
    change Alike _ (Run.bind _ _ g') (Run.bind _ _ (Joint.mk g' wasm'))
    rcases hanswer :
      host.commitDecodeSchema g'.commits.length (planOf g'.wasmHandle node).words with e | _
    · simp only [Run.bind, commit, commitIn, hanswer]
      exact alike_some (hj.mono hbefore)
    · simp only [Run.bind, commit, commitIn, hanswer, hcommit]
      exact alike_some (hj.commit hlen hcommit (hgoes.before.trans hstay))

/-! ## Calls in any order -/

/-- What there can be between calls with the decoder, where resolvers give the types that they
    stand for and the decoder has memory for fewer than 2^32 - 1 plans. -/
inductive Served (G : Graph α) : Store α → List TypePlan → Prop
  | initial : Served G Store.initial []
  | call {s : Store α} {wasm wasm' : List TypePlan} {host : Host G} {fuel : ℕ} {a : α}
      {ended : Ended α}
      (h : Served G s wasm) (hresolves : host.Resolves) (hmemory : host.Spares s.count)
      (hcall : compiledSchemaHandleIn host fuel a s wasm = some (ended, wasm')) :
        Served G ended.store wasm'

/-- What holds between calls. -/
structure Served.Sound (G : Graph α) (s : Store α) (wasm : List TypePlan) : Prop where
  valid : s.Valid G
  proper : Proper G s.nodes
  count : wasm.length = s.count
  handles : Matches s.nodes s.wasmHandle wasm

/-- Whatever type is asked for, its nodes are made. -/
theorem schemaNode_resolves {out : Outside G} (hresolves : out.Resolves) {fuel : ℕ} {a : α}
    {s : Nodes α} (e : Thrown α) (nodes : Nodes α) :
    schemaNode out fuel a s ≠ some (.error e, nodes) := by
  intro h
  obtain ⟨-, ⟨x, y, -, -, -, hfaulty⟩, -⟩ := nodes_of_error (D := Place G) inherited_place trivial h
  exact hfaulty (hresolves.answers y)

/-- How a call ends with the decoder: as it does without, and the decoder was driven as it says. -/
theorem Served.Sound.call (hconstructed : G.Constructed) {s : Store α} {wasm : List TypePlan}
    (h : Served.Sound G s wasm) (hresolves : host.Resolves) (hmemory : host.Spares s.count)
    (fuel : ℕ) (a : α) :
    (compiledSchemaHandleIn host fuel a s wasm).map Prod.fst =
      compiledSchemaHandle host.toOutside fuel a s ∧
      ∀ ended wasm', compiledSchemaHandleIn host fuel a s wasm = some (ended, wasm') →
        Served.Sound G ended.store wasm' ∧ Drives ended.commits wasm wasm' := by
  have hvalid : ∀ ended, compiledSchemaHandle host.toOutside fuel a s = some ended →
    ended.store.Valid G :=
    fun ended hcall => (compiledSchemaHandle_ends hcall).valid h.valid
  have hstart : (⟨s.wasmHandle, s.count, [], []⟩ : Registry α) = s.start := rfl
  rw [compiledSchemaHandle, hstart] at hvalid
  rw [compiledSchemaHandleIn, compiledSchemaHandle, hstart]
  rcases hinit : host.requireWasmInitialized with e | _
  · refine ⟨rfl, ?_⟩
    rintro ended wasm' ⟨rfl⟩
    exact ⟨h, .nil⟩
  -- The nodes are made alike, as the decoder is not asked yet.
  rcases hnodes : schemaNode host.toOutside fuel a s.nodes with _ | ⟨e | x, nodes⟩
  · exact ⟨rfl, fun _ _ hcall => by cases hcall⟩
  · exact absurd hnodes (schemaNode_resolves hresolves e nodes)
  obtain ⟨-, hadds, -⟩ := nodes_of_ok (D := Place G) inherited_place trivial hnodes
  have hproper := h.proper.adds hresolves hadds
  have hgoes : Goes nodes s.count wasm wasm s.start ⟨s.start, wasm⟩ :=
    ⟨rfl, h.count, rfl, List.prefix_rfl, h.handles.kept hadds.kept fun _ _ h => h, .nil⟩
  rw [hinit, hnodes] at hvalid
  dsimp only at hvalid ⊢
  rcases (register_simulates hconstructed hproper hmemory fuel x wasm _ _ hgoes).cases with
    ⟨hplain, hjoint⟩ | ⟨r, g, ⟨g', wasm'⟩, hplain, hjoint, hended⟩
  · rw [hplain, hjoint]
    exact ⟨rfl, fun _ _ hcall => by cases hcall⟩
  cases hended.registry
  rw [hplain] at hvalid
  rw [hplain, hjoint]
  cases r with
  | error e =>
    refine ⟨rfl, ?_⟩
    rintro ended wasm'' ⟨rfl⟩
    refine ⟨⟨hvalid _ rfl, hproper, hended.count,
        hended.handles.kept (fun _ _ h => h) fun y k hy => ?_⟩, hended.drives⟩
    -- What is left of the handles are those that were there.
    change rollback g'.touched g'.wasmHandle y = some k at hy
    rw [rollback] at hy
    split at hy
    · cases hy
    · exact hy
  | ok handle =>
    refine ⟨rfl, ?_⟩
    rintro ended wasm'' ⟨rfl⟩
    exact ⟨⟨hvalid _ rfl, hproper, hended.count, hended.handles⟩, hended.drives⟩

theorem Served.sound (hconstructed : G.Constructed) {s : Store α} {wasm : List TypePlan}
    (h : Served G s wasm) :
    Served.Sound G s wasm := by
  induction h with
  | initial => exact ⟨valid_initial, fun _ _ h => (by cases h), rfl, fun _ _ h => (by cases h)⟩
  | call _ hresolves hmemory hcall ih =>
    exact ((ih.call hconstructed hresolves hmemory _ _).2 _ _ hcall).1

/-- **What the constructors accept, the decoder accepts.** After any calls where resolvers give
    the types that they stand for, whatever else has failed, one more call ends with the decoder
    just as it does where the decoder refuses nothing, and it goes on with the session. -/
theorem compiledSchemaHandle_accepted (hconstructed : G.Constructed) {s : Store α}
    {wasm : List TypePlan} (h : Served G s wasm) {host : Host G} (hresolves : host.Resolves)
    (hmemory : host.Spares s.count) (fuel : ℕ) (a : α) :
    (compiledSchemaHandleIn host fuel a s wasm).map Prod.fst =
      compiledSchemaHandle host.toOutside fuel a s ∧
      ∀ ended wasm', compiledSchemaHandleIn host fuel a s wasm = some (ended, wasm') →
        ∀ plans, Session G s plans wasm → Session G ended.store plans wasm' := by
  obtain ⟨hsame, hsound⟩ := (h.sound hconstructed).call hconstructed hresolves hmemory fuel a
  refine ⟨hsame, fun ended wasm' hcall plans hsession => ?_⟩
  obtain ⟨hsound', hdrives⟩ := hsound ended wasm' hcall
  rw [hcall] at hsame
  exact hsession.handle hsame.symm (schemaNode_resolves hresolves) hdrives hsound'.count

/-- **Calls return with the decoder.** After any such calls, if nothing fails from here on and
    the decoder has room for every node that there can be, a call returns with a handle, and
    later calls can be made. -/
theorem compiledSchemaHandle_serves (hconstructed : G.Constructed) {s : Store α}
    {wasm : List TypePlan} (h : Served G s wasm) {host : Host G}
    (hinit : host.requireWasmInitialized = .ok ⟨⟩) (hresolves : host.Resolves)
    (haccepts : host.Accepts {x | Place G x}.ncard) (hmemory : host.Spares s.count) (a : α) :
    ∃ fuel handle t commits wasm', compiledSchemaHandleIn host fuel a s wasm =
      some (⟨.ok handle, t, commits⟩, wasm') ∧
      t.wasmHandle (.type a) = some handle ∧ Served G t wasm' := by
  have hsound := h.sound hconstructed
  obtain ⟨fuel, handle, t, commits, hcall⟩ :=
    accepts_returns hinit hresolves haccepts hsound.valid a
  obtain ⟨hsame, -⟩ := hsound.call hconstructed hresolves hmemory fuel a
  rw [hcall] at hsame
  obtain ⟨⟨ended, wasm'⟩, hjoint, rfl⟩ := Option.map_eq_some_iff.1 hsame
  exact ⟨fuel, handle, t, commits, wasm', hjoint, (handle_of_ok hcall).2,
    h.call hresolves hmemory hjoint⟩

end

/-- Nothing fails, while there is memory. -/
def linkedHost : Host linkedGraph :=
  { Outside.sound linkedGraph with
    reserveDecodeSchema := fun k => if k < 8 then .ok ⟨⟩ else .error (.rangeError "out of memory")
    wasmError := fun message _ => .typeError message
    behind := fun _ => [] }

theorem linkedHost_spares : linkedHost.Spares 0 := by
  intro k hk
  by_cases hlt : k < 8
  · have : noType = 0xffffffff := rfl
    omega
  · rw [linkedHost] at hk
    dsimp only at hk
    rw [if_neg hlt] at hk
    cases hk

/-- A message of its own type is accepted in the first call, and the session goes on. -/
theorem compiledSchemaHandle_accepted_linked :
    ∃ s, (compiledSchemaHandleIn linkedHost 2 ⟨⟩ Store.initial []).map Prod.fst =
        some ⟨.ok 1, s, [(1, .message [⟨0, .u32, none⟩, ⟨1, .message, some 1⟩])]⟩ ∧
      ∃ wasm', Session linkedGraph s (fun _ => none) wasm' := by
  obtain ⟨hsame, hsession⟩ :=
    compiledSchemaHandle_accepted linkedGraph_constructed .initial (fun _ => rfl)
      linkedHost_spares 2 ⟨⟩
  obtain ⟨s, hs⟩ : ∃ s, compiledSchemaHandle linkedHost.toOutside 2 ⟨⟩ Store.initial =
      some ⟨.ok 1, s, [(1, .message [⟨0, .u32, none⟩, ⟨1, .message, some 1⟩])]⟩ := ⟨_, rfl⟩
  rw [hs] at hsame
  obtain ⟨⟨ended, wasm'⟩, hcall, rfl⟩ := Option.map_eq_some_iff.1 hsame
  exact ⟨s, hsame, wasm', hsession _ wasm' hcall _ .initial⟩

/-- The first call for a message of its own type returns. -/
theorem compiledSchemaHandle_serves_linked : ∃ fuel handle t commits wasm',
    compiledSchemaHandleIn linkedHost fuel ⟨⟩ Store.initial [] =
      some (⟨.ok handle, t, commits⟩, wasm') ∧
      t.wasmHandle (.type ⟨⟩) = some handle ∧ Served linkedGraph t wasm' := by
  -- There are the message and its two fields.
  have hplaces : {x | Place linkedGraph x} ⊆
      (({.type ⟨⟩, .field ⟨⟩ 0, .field ⟨⟩ 1} : Finset (Identity PUnit)) : Set _) := by
    rintro (a | ⟨a, index⟩) hx
    · exact Finset.mem_coe.2 (by simp)
    · obtain ⟨field, fields, hshape, hindex⟩ := hx
      cases hshape
      have hlt := (List.getElem?_eq_some_iff.1 hindex).1
      rw [List.length_cons, List.length_cons, List.length_nil] at hlt
      have hcases : index = 0 ∨ index = 1 := by omega
      rcases hcases with rfl | rfl
      · exact Finset.mem_coe.2 (by simp)
      · exact Finset.mem_coe.2 (by simp)
  have hfew : {x | Place linkedGraph x}.ncard ≤ 3 := by
    refine (Set.ncard_le_ncard hplaces (Finset.finite_toSet _)).trans ?_
    rw [Set.ncard_coe_finset]
    exact Finset.card_le_three
  have haccepts : linkedHost.Accepts {x | Place linkedGraph x}.ncard :=
    ⟨fun k hk => if_pos (hk.trans_le (hfew.trans (by decide))), fun _ _ => rfl⟩
  exact compiledSchemaHandle_serves linkedGraph_constructed .initial rfl (fun _ => rfl) haccepts
    linkedHost_spares ⟨⟩

end ProtoCache.Typescript

import ProtoCache.Typescript.Atomic
import ProtoCache.Typescript.Commit
import ProtoCache.Typescript.CompilePlan
import ProtoCache.Typescript.Constructors
import ProtoCache.Typescript.Deserialize

/-!
# What bytes mean

What a type says of the bytes of an object: what the accessors read of them (`readBy`), and the
values of JavaScript that stand for that (`decodeBy`). There are no handles, no numbers of
types and no tape here, only the types.

* `readType_eq`: by the plans of the decoder, the accessors read what the types say;
* `decode_eq`: so do the values, by a plan of the reader;
* `corresponds`: the plans of the two are the same where they are of the same type.
-/

namespace ProtoCache.Typescript

open Wasm (Raw TypePlan FieldPlan)

section

variable {α : Type} (G : Graph α)

/-! ## Types -/

/-- What a type, or a repeated field, says of its parts. -/
def shapeOf : Identity α → Shape α
  | .type a => G.shape a
  | .field a index =>
    match (G.shape a).fields[index]? with
    | none => .array .none
    | some field =>
      if field.keyKind = .none then .array field.valueKind else .map field.keyKind field.valueKind

/-- The message that a repeated field is in; a message is a type. -/
def owner : Identity α → α
  | .type a => a
  | .field a _ => a

/-- The type of a field, if it is complex. -/
def typeOfField (a : α) (index : ℕ) (field : Field α) : Option (Identity α) :=
  if field.repeated then some (.field a index)
    else containerChild field.valueKind (G.target (.field a index))

/-- The type of the values of an array or of a map, if they are complex. -/
def typeOfValues (x : Identity α) (valueKind : Kind) : Option (Identity α) :=
  containerChild valueKind (G.target x)

/-- The words of a scalar. -/
def Kind.wordCount : Kind → ℕ
  | .bool | .f32 | .u32 | .i32 | .enum => 1
  | .f64 | .u64 | .i64 => 2
  | _ => 0

/-! ## What is read -/

section

variable (rec : Identity α → Ptr → Res Raw)

/-- A value of a kind, and of a type if it is complex, in a field: of any scalar, its words. -/
def readValueBy (kind : Kind) (x : Option (Identity α)) (f : ProtoCache.Field) : Res Raw :=
  if kind.isComplexKind then do
    let ptr ← f.getObject true
    match x with
    | none => .error .reject
    | some x => rec x ptr
  else if kind = .string ∨ kind = .bytes then do Wasm.readBytes (← f.getString true)
  else Wasm.readWords kind.wordCount f

/-- A field of a message. -/
def readFieldBy (view : List UInt32) (a : α) (index : ℕ) (field : Field α) : Res Raw := do
  let f ← getField true view field.id
  if f = ProtoCache.Field.null then return .absent
  else readValueBy rec field.kind (typeOfField G a index field) f

/-- An object of a type. -/
def readObjectBy (x : Identity α) (ptr : Ptr) : Res Raw :=
  match shapeOf G x with
  | .message fields => do
    match ← openMessage true ptr with
    | none => .error .reject
    | some view =>
      return .message (← fields.zipIdx.mapM fun field =>
        readFieldBy G rec view (owner x) field.2 field.1)
  | .array valueKind =>
    if valueKind = .bool then do Wasm.readBytes (← readString true ptr)
    else do
      let a ← openArray true ptr
      if a.body = Ptr.null then .error .reject
      else return .array (← a.forEach (readValueBy rec valueKind (typeOfValues G x valueKind)))
  | .map keyKind valueKind => do
    let m ← openMap true ptr
    if m.body = Ptr.null then .error .reject
    else
      let pairs ← m.forEach fun pair => do
        let key ← readValueBy rec keyKind none pair.1
        let value ← readValueBy rec valueKind (typeOfValues G x valueKind) pair.2
        return (key, value)
      return .map (pairs.map Prod.fst) (pairs.map Prod.snd)

end

/-- What the accessors read of an object, as its type says. -/
def readBy : ℕ → Identity α → Ptr → Res Raw
  | 0, _, _ => .error .fuel
  | nested + 1, x, ptr => readObjectBy G (readBy nested) x ptr

/-! ## The values of it -/

mutual

/-- The value of a kind, and of a type if it is complex. -/
def decodeBy (kind : Kind) (x : Option (Identity α)) : Raw → Reading (Decoded α)
  | .absent => .error .missing
  | .words ws => do return .scalar (← decodeScalar kind (.words ws))
  | .bytes bs =>
    if kind.isComplexKind then return .array (bs.map fun b => .scalar (.boolean (b != 0)))
    else do return .scalar (← decodeScalar kind (.bytes bs))
  | .message raws =>
    match x with
    | none => .error .missing
    | some x =>
      match shapeOf G x with
      | .message fields => do
        let out ← decodeFieldsBy (owner x) fields raws 0
          ⟨[], PresenceBits.none ((fields.length + 31) / 32)⟩
        return .message (owner x) out.fields out.present
      | _ => .error .missing
  | .array raws =>
    match x with
    | none => .error .missing
    | some x =>
      match shapeOf G x with
      | .array valueKind => do
        return .array (← decodeAllBy valueKind (typeOfValues G x valueKind) raws)
      | _ => .error .missing
  | .map keys values =>
    match x with
    | none => .error .missing
    | some x =>
      match shapeOf G x with
      | .map keyKind valueKind => do
        let pairs ← decodePairsBy keyKind valueKind (typeOfValues G x valueKind) keys values
        return .map (pairs.foldl (fun out pair => assign pair.1 pair.2 out) [])
      | _ => .error .missing

/-- A message gets its fields, from an index on. -/
def decodeFieldsBy (a : α) : List (Field α) → List Raw → ℕ → Building α → Reading (Building α)
  | field :: fields, raw :: raws, index, out =>
    match raw with
    | .absent =>
      decodeFieldsBy a fields raws (index + 1)
        { out with fields := assign field.name (defaultForField field) out.fields }
    | raw => do
      let value ← decodeBy field.kind (typeOfField G a index field) raw
      decodeFieldsBy a fields raws (index + 1) ⟨assign field.name value out.fields,
        out.present.mark index⟩
  | _, _, _, out => return out

/-- The elements of an array. -/
def decodeAllBy (kind : Kind) (x : Option (Identity α)) : List Raw → Reading (List (Decoded α))
  | [] => return []
  | raw :: raws => do
    let value ← decodeBy kind x raw
    let values ← decodeAllBy kind x raws
    return value :: values

/-- The pairs of a map. -/
def decodePairsBy (keyKind kind : Kind) (x : Option (Identity α)) :
    List Raw → List Raw → Reading (List (Scalar × Decoded α))
  | key :: keys, raw :: raws => do
    let key ← decodeScalar keyKind key
    let value ← decodeBy kind x raw
    let pairs ← decodePairsBy keyKind kind x keys raws
    return (key, value) :: pairs
  | _, _ => return []

end

end

/-! ## By the plans of the decoder -/

section

variable {α : Type} {G : Graph α}

theorem FieldAt.shapeOf {a : α} {index : ℕ} {field : Field α} (h : FieldAt G a index field) :
    shapeOf G (.field a index) =
      if field.keyKind = .none then .array field.valueKind
        else .map field.keyKind field.valueKind := by
  obtain ⟨fields, hshape, hindex⟩ := h
  simp only [Typescript.shapeOf, Shape.fields, hshape, hindex]

/-- What is not a type, or a field, says nothing. -/
theorem place_or (x : Identity α) : Place G x ∨ shapeOf G x = .array .none := by
  rcases x with a | ⟨a, index⟩
  · exact .inl trivial
  · rcases hindex : (G.shape a).fields[index]? with _ | field
    · refine .inr ?_
      rw [shapeOf, hindex]
    · rcases hshape : G.shape a with fields | valueKind | ⟨keyKind, valueKind⟩
      · rw [hshape] at hindex
        exact .inl ⟨field, fields, hshape, hindex⟩
      · rw [hshape] at hindex
        cases hindex
      · rw [hshape] at hindex
        cases hindex

/-- A message is a type. -/
theorem eq_type_of_message {x : Identity α} {fields : List (Field α)}
    (h : shapeOf G x = .message fields) :
    x = .type (owner x) ∧ G.shape (owner x) = .message fields := by
  rcases x with a | ⟨a, index⟩
  · exact ⟨rfl, h⟩
  · rw [shapeOf] at h
    split at h
    · cases h
    · split at h
      · cases h
      · cases h

theorem content_message {x : Identity α} {fields : List (Field α)}
    (h : shapeOf G x = .message fields) (τ : Identity α → α) :
    content G τ x = .message (fields.mapIdx (fieldContent τ (owner x))) := by
  obtain ⟨hx, hshape⟩ := eq_type_of_message h
  rw [hx, content, hshape]
  rfl

theorem content_array {x : Identity α} {valueKind : Kind} (hplace : Place G x)
    (h : shapeOf G x = .array valueKind) (τ : Identity α → α) :
    content G τ x = .array valueKind (containerChild valueKind (τ x)) := by
  rcases x with a | ⟨a, index⟩
  · have hshape : G.shape a = .array valueKind := h
    rw [content, hshape]
  · obtain ⟨field, hfield⟩ := hplace
    rw [hfield.shapeOf] at h
    rw [hfield.content_eq, fieldContainer]
    split at h
    · next hnone =>
      cases h
      rw [if_pos hnone]
    · cases h

theorem content_map {x : Identity α} {keyKind valueKind : Kind} (hplace : Place G x)
    (h : shapeOf G x = .map keyKind valueKind) (τ : Identity α → α) :
    content G τ x = .map keyKind valueKind (containerChild valueKind (τ x)) := by
  rcases x with a | ⟨a, index⟩
  · have hshape : G.shape a = .map keyKind valueKind := h
    rw [content, hshape]
  · obtain ⟨field, hfield⟩ := hplace
    rw [hfield.shapeOf] at h
    rw [hfield.content_eq, fieldContainer]
    split at h
    · cases h
    · next hmap =>
      cases h
      rw [if_neg hmap]

/-- The numbers of plans of the decoder: the plan of a handle is committed, and is that of its type;
    what this refers to has a handle too. -/
structure Serves (G : Graph α) (wasm : List TypePlan) (handle : Identity α → Option ℕ) : Prop where
  place : ∀ x h, handle x = some h → Place G x
  plan : ∀ x h, handle x = some h → ∃ type, Wasm.planOf wasm (UInt32.ofNat h) = some type ∧
    Committed wasm (planOf handle (content G G.target x)) type
  children : ∀ x y, handle x ≠ none → Child G x y → handle y ≠ none

/-- The number of a type that may be none. -/
def handleOf (handle : Identity α → Option ℕ) (x : Option (Identity α)) : UInt32 :=
  UInt32.ofNat ((x.bind handle).getD noType)

theorem Kind.wordCount_eq (kind : Kind) :
    (Wasm.scalarWidthWords (UInt32.ofNat kind.code)).toNat = kind.wordCount := by
  cases kind <;> rfl

/-- A value, told by its kind. -/
theorem readValue_eq {rec : UInt32 → Ptr → Res Raw} {rec' : Identity α → Ptr → Res Raw}
    {handle : Identity α → Option ℕ} {kind : Kind} {code : UInt32} (hcode : kind.Is code)
    {x : Option (Identity α)}
    (hrec : kind.isComplexKind = true → ∃ y h, x = some y ∧ handle y = some h ∧ ∀ ptr,
      rec (UInt32.ofNat h) ptr = rec' y ptr) (f : ProtoCache.Field) :
    Wasm.readValue rec code (handleOf handle x) f = readValueBy rec' kind x f := by
  rw [Wasm.readValue, readValueBy, ← hcode.complex]
  split
  · next hcomplex =>
    obtain ⟨y, h, rfl, hh, heq⟩ := hrec hcomplex
    rw [handleOf, Option.bind_some, hh, Option.getD_some]
    exact congrArg _ (funext heq)
  · simp only [hcode.string, hcode.bytes]
    rw [← Kind.wordCount_eq, ← hcode.eq]

theorem mapM_map_congr {β γ δ : Type} {f : β → γ} {g : γ → Res δ} {g' : β → Res δ} {bs : List β}
    (h : ∀ b ∈ bs, g (f b) = g' b) : (bs.map f).mapM g = bs.mapM g' := by
  induction bs with
  | nil => rfl
  | cons b bs ih =>
    rw [List.map_cons, List.mapM_cons, List.mapM_cons, h b List.mem_cons_self,
      ih fun b' hb' => h b' (List.mem_cons_of_mem b hb')]

/-- A field of a complex kind has a type, that its message refers to. -/
theorem FieldAt.child {a : α} {index : ℕ} {field : Field α} (h : FieldAt G a index field)
    (hcomplex : field.kind.isComplexKind = true) :
    ∃ z, typeOfField G a index field = some z ∧ Child G (.type a) z := by
  obtain ⟨hrepeated, hsingle⟩ := child_field h
  rw [typeOfField]
  cases hr : field.repeated with
  | true => exact ⟨_, if_pos rfl, hrepeated hr⟩
  | false =>
    rw [Field.kind, hr, if_neg Bool.false_ne_true] at hcomplex
    rw [if_neg Bool.false_ne_true, containerChild, if_pos hcomplex]
    exact ⟨_, rfl, hsingle hr hcomplex⟩

/-- Values of a complex kind have a type, that their array or map refers to. -/
theorem values_child {x : Identity α} {valueKind : Kind}
    (h : shapeOf G x = .array valueKind ∨ ∃ keyKind, shapeOf G x = .map keyKind valueKind)
    (hcomplex : valueKind.isComplexKind = true) :
    ∃ z, typeOfValues G x valueKind = some z ∧ Child G x z := by
  have hchild : containerChild valueKind (G.target x) = some (.type (G.target x)) := if_pos hcomplex
  refine ⟨_, hchild, ?_⟩
  have hplace : Place G x := by
    rcases place_or (G := G) x with hplace | hnone
    · exact hplace
    · rw [hnone] at h
      rcases h with h | ⟨keyKind, h⟩
      · cases h
        cases hcomplex
      · cases h
  rw [Child]
  rcases h with h | ⟨keyKind, h⟩
  · rw [content_array hplace h]
    exact hchild
  · rw [content_map hplace h]
    exact hchild

/-- Keys are not complex. -/
theorem isComplex_key {kind : UInt32} (h : Wasm.validKeyKind kind = true) :
    Wasm.isComplex kind = false := by
  simp only [Wasm.validKeyKind, Bool.or_eq_true, beq_iff_eq, or_assoc] at h
  rcases h with rfl | rfl | rfl | rfl | rfl <;> rfl

/-- By the plans of the decoder, the accessors read what the types say. -/
theorem readType_eq {wasm : List TypePlan} {handle : Identity α → Option ℕ}
    (hserves : Serves G wasm handle)
    (hids : ∀ a index field, FieldAt G a index field → field.id < 6387) (k : ℕ) {x : Identity α}
    {h : ℕ} (hx : handle x = some h) (ptr : Ptr) :
    Wasm.readType wasm k (UInt32.ofNat h) ptr = readBy G k x ptr := by
  induction k generalizing x h ptr with
  | zero => rfl
  | succ k ih =>
    obtain ⟨type, htype, hplan⟩ := hserves.plan x h hx
    have hplace := hserves.place x h hx
    have hmem : handle x ≠ none := hx ▸ Option.some_ne_none h
    rw [Wasm.readType, htype, readBy, readObjectBy]
    dsimp only
    -- A value is read in the same way, as its plan has the kind, and the handle of a child is
    -- that of the type that it stands for.
    have hvalue : ∀ {kind : Kind} {code : UInt32} {y : Option (Identity α)}, kind.Is code →
        (kind.isComplexKind = true → ∃ z, y = some z ∧ Child G x z) → ∀ f,
        Wasm.readValue (Wasm.readType wasm k) code (handleOf handle y) f =
          readValueBy (readBy G k) kind y f := by
      intro kind code y hcode hchild f
      refine readValue_eq hcode (fun hcomplex => ?_) f
      obtain ⟨z, rfl, hrefers⟩ := hchild hcomplex
      obtain ⟨hz, hhz⟩ := Option.ne_none_iff_exists'.1 (hserves.children x z hmem hrefers)
      exact ⟨z, hz, rfl, hhz, fun ptr => ih hhz ptr⟩
    rcases hshape : shapeOf G x with fields | valueKind | ⟨keyKind, valueKind⟩
    · obtain ⟨hx', hfields⟩ := eq_type_of_message hshape
      rw [content_message hshape] at hplan
      obtain ⟨hkind, htypes, -⟩ := hplan
      rw [Wasm.readObject, if_pos hkind, htypes, List.mapIdx_eq_zipIdx_map, List.map_map,
        List.map_map]
      refine congrArg (openMessage true ptr >>= ·) (funext fun view => ?_)
      cases view with
      | none => rfl
      | some view =>
        refine congrArg (· >>= _) (mapM_map_congr fun p hp => ?_)
        have hfield : FieldAt G (owner x) p.2 p.1 :=
          ⟨fields, hfields, List.mem_zipIdx_iff_getElem?.1 hp⟩
        -- The number of a field fits a word.
        have hid : (UInt32.ofNat p.1.id).toNat = p.1.id := by
          rw [UInt32.toNat_ofNat', Nat.mod_eq_of_lt ((hids _ _ _ hfield).trans (by decide))]
        rw [Wasm.readField, readFieldBy]
        refine (congrArg (fun id => getField true view id >>= _) hid).trans
          (congrArg (_ >>= ·) (funext fun f => ?_))
        refine if_congr Iff.rfl rfl (hvalue p.1.kind.is_ofNat (fun hcomplex => ?_) f)
        rw [hx']
        exact hfield.child hcomplex
    · have hcontent := content_array hplace hshape G.target
      rw [hcontent] at hplan
      obtain ⟨hkind, hcode, hchild, -⟩ := hplan
      rw [Wasm.readObject, if_neg (by rw [hkind]; decide), if_pos hkind]
      refine if_congr hcode.bool.symm rfl
        (congrArg (openArray true ptr >>= ·) (funext fun view => if_congr Iff.rfl rfl ?_))
      refine congrArg (fun read => view.forEach read >>= _) (funext fun f => ?_)
      rw [hchild]
      exact hvalue hcode (values_child (.inl hshape)) f
    · have hcontent := content_map hplace hshape G.target
      rw [hcontent] at hplan
      obtain ⟨hkind, ⟨hkey, hvalid⟩, hcode, hchild, -⟩ := hplan
      rw [Wasm.readObject, if_neg (by rw [hkind]; decide), if_neg (by rw [hkind]; decide),
        if_pos hkind]
      refine congrArg (openMap true ptr >>= ·) (funext fun view => if_congr Iff.rfl rfl ?_)
      refine congrArg (fun read => view.forEach read >>= _) (funext fun pair => ?_)
      have hscalar : keyKind.isComplexKind = false := hkey.complex.trans (isComplex_key hvalid)
      have hpair := hvalue (y := none) hkey fun hcomplex =>
        absurd hcomplex (by rw [hscalar]; exact Bool.false_ne_true)
      refine (congrArg (· >>= _) (hpair pair.1)).trans (congrArg (_ >>= ·) (funext fun key => ?_))
      rw [hchild]
      exact congrArg (· >>= _) (hvalue hcode (values_child (.inr ⟨keyKind, hshape⟩)) pair.2)

/-! ## By a plan of the reader -/

/-- The number of a type that may be none. -/
def numberOf (ids : Identity α → Option ℕ) (x : Option (Identity α)) : ℕ := (x.bind ids).getD noType

theorem childId_eq (ids : Identity α → Option ℕ) (valueKind : Kind) (type : α) :
    childId ids valueKind type = numberOf ids (containerChild valueKind type) := by
  rw [childId, containerChild]
  split
  · rfl
  · rfl

/-- A field of a message, by its type. -/
theorem fieldTape_eq (ids : Identity α → Option ℕ) (a : α) (index : ℕ) (field : Field α) :
    fieldTape G ids a index field =
      ⟨field.name, field.kind, numberOf ids (typeOfField G a index field),
        defaultForField field⟩ := by
  rw [fieldTape, typeOfField, childId_eq]
  split
  · rfl
  · rfl

/-- A type of a plan, by what it says. -/
theorem tapeOf_eq (ids : Identity α → Option ℕ) (x : Identity α) :
    tapeOf G ids x = match shapeOf G x with
      | .message fields =>
        .message (owner x) (fields.mapIdx (fieldTape G ids (owner x))) ((fields.length + 31) / 32)
      | .array valueKind => .array valueKind (numberOf ids (typeOfValues G x valueKind))
      | .map keyKind valueKind =>
        .map keyKind valueKind (numberOf ids (typeOfValues G x valueKind)) := by
  rcases x with a | ⟨a, index⟩
  · rw [tapeOf, shapeOf]
    cases G.shape a with
    | message fields => rfl
    | array valueKind => exact congrArg _ (childId_eq ids valueKind _)
    | map keyKind valueKind => exact congrArg _ (childId_eq ids valueKind _)
  · rw [tapeOf, shapeOf]
    cases (G.shape a).fields[index]? with
    | none => rfl
    | some field =>
      dsimp only
      rw [containerTape, childId_eq]
      split
      · rfl
      · rfl

section

variable {a : α} {plan : DecodePlan α} {ids : Identity α → Option ℕ} (hplan : PlanFor G a plan ids)
  (hlen : plan.types.length ≤ noType)

include hplan in
/-- The type of a number. -/
theorem types_numberOf {x : Identity α} (hx : ids x ≠ none) :
    plan.types[numberOf ids (some x)]? = some (tapeOf G ids x) := by
  obtain ⟨i, hi⟩ := Option.ne_none_iff_exists'.1 hx
  rw [numberOf, Option.bind_some, hi, Option.getD_some, hplan.types x i hi]

include hlen in
/-- A number of no type. -/
theorem types_none : plan.types[numberOf ids none]? = none := List.getElem?_eq_none hlen

/-- A type that is none, or has a number. -/
def Numbered (ids : Identity α → Option ℕ) (x : Option (Identity α)) : Prop :=
  ∀ y, x = some y → ids y ≠ none

include hplan in
theorem numbered_values {x : Identity α} (hx : ids x ≠ none) {valueKind : Kind}
    (h : shapeOf G x = .array valueKind ∨ ∃ keyKind, shapeOf G x = .map keyKind valueKind) :
    Numbered ids (typeOfValues G x valueKind) := by
  intro y hy
  rw [typeOfValues, containerChild] at hy
  split at hy
  · next hcomplex =>
    obtain ⟨z, hz, hchild⟩ := values_child h hcomplex
    rw [typeOfValues, containerChild, if_pos hcomplex, hy] at hz
    cases hz
    exact hplan.children x y hx hchild
  · cases hy

include hplan in
theorem numbered_field {x : Identity α} (hx : ids x ≠ none) {fields : List (Field α)}
    (h : shapeOf G x = .message fields) {index : ℕ} {field : Field α}
    (hfield : fields[index]? = some field) :
    Numbered ids (typeOfField G (owner x) index field) := by
  intro y hy
  obtain ⟨hx', hshape⟩ := eq_type_of_message h
  have hat : FieldAt G (owner x) index field := ⟨fields, hshape, hfield⟩
  cases hcomplex : field.kind.isComplexKind with
  | true =>
    obtain ⟨z, hz, hchild⟩ := hat.child hcomplex
    rw [hy] at hz
    cases hz
    exact hplan.children x y hx (hx' ▸ hchild)
  | false =>
    rw [typeOfField] at hy
    rw [Field.kind] at hcomplex
    cases hr : field.repeated with
    | true =>
      rw [hr, if_pos rfl] at hcomplex
      split at hcomplex
      · cases hcomplex
      · cases hcomplex
    | false =>
      rw [hr, if_neg Bool.false_ne_true] at hcomplex hy
      rw [containerChild, hcomplex, if_neg Bool.false_ne_true] at hy
      cases hy

end

mutual

/-- By a plan of the reader, values are as the types say. -/
theorem decode_eq {a : α} {plan : DecodePlan α} {ids : Identity α → Option ℕ}
    (hplan : PlanFor G a plan ids) (hlen : plan.types.length ≤ noType) :
    (raw : Raw) → (kind : Kind) → (x : Option (Identity α)) → Numbered ids x →
    decode plan.types kind (numberOf ids x) raw = decodeBy G kind x raw
  | .absent, kind, x, _ => by rw [decode, decodeBy]
  | .words ws, kind, x, _ => by rw [decode, decodeBy]
  | .bytes bs, kind, x, _ => by rw [decode, decodeBy]
  | .message raws, kind, none, _ => by rw [decode, decodeBy, types_none hlen]
  | .message raws, kind, some x, hx => by
    rw [decode, decodeBy, types_numberOf hplan (hx x rfl), tapeOf_eq]
    rcases hshape : shapeOf G x with fields | valueKind | ⟨keyKind, valueKind⟩
    · have hfields := decodeFields_eq hplan hlen (hx x rfl) hshape raws 0
        ⟨[], PresenceBits.none ((fields.length + 31) / 32)⟩
      exact congrArg (· >>= _) hfields
    · rfl
    · rfl
  | .array raws, kind, none, _ => by rw [decode, decodeBy, types_none hlen]
  | .array raws, kind, some x, hx => by
    rw [decode, decodeBy, types_numberOf hplan (hx x rfl), tapeOf_eq]
    rcases hshape : shapeOf G x with fields | valueKind | ⟨keyKind, valueKind⟩
    · rfl
    · exact congrArg (· >>= _)
        (decodeAll_eq hplan hlen raws valueKind _ (numbered_values hplan (hx x rfl) (.inl hshape)))
    · rfl
  | .map keys values, kind, none, _ => by rw [decode, decodeBy, types_none hlen]
  | .map keys values, kind, some x, hx => by
    rw [decode, decodeBy, types_numberOf hplan (hx x rfl), tapeOf_eq]
    rcases hshape : shapeOf G x with fields | valueKind | ⟨keyKind, valueKind⟩
    · rfl
    · rfl
    · exact congrArg (· >>= _) (decodePairs_eq hplan hlen keys values keyKind valueKind _
        (numbered_values hplan (hx x rfl) (.inr ⟨keyKind, hshape⟩)))

/-- The fields of a message, from an index on. -/
theorem decodeFields_eq {a : α} {plan : DecodePlan α} {ids : Identity α → Option ℕ}
    (hplan : PlanFor G a plan ids) (hlen : plan.types.length ≤ noType) {x : Identity α}
    (hx : ids x ≠ none) {fields : List (Field α)} (hshape : shapeOf G x = .message fields) :
    (raws : List Raw) → (index : ℕ) → (out : Building α) →
    decodeFields plan.types ((fields.mapIdx (fieldTape G ids (owner x))).drop index) raws
      index out =
      decodeFieldsBy G (owner x) (fields.drop index) raws index out
  | [], index, out => by simp [decodeFields, decodeFieldsBy]
  | raw :: raws, index, out => by
    rcases Nat.lt_or_ge index fields.length with hlt | hle
    · have hfield : fields[index]? = some fields[index] := List.getElem?_eq_getElem hlt
      rw [List.drop_eq_getElem_cons (by rwa [List.length_mapIdx]), List.getElem_mapIdx,
        List.drop_eq_getElem_cons hlt, fieldTape_eq]
      -- An absent field has its default; any other one is decoded.
      cases raw with
      | absent =>
        rw [decodeFields, decodeFieldsBy]
        exact decodeFields_eq hplan hlen hx hshape raws (index + 1) _
      | words | bytes | message | array | map =>
        simp only [decodeFields, decodeFieldsBy]
        rw [decode_eq hplan hlen _ _ _ (numbered_field hplan hx hshape hfield)]
        exact congrArg (_ >>= ·)
          (funext fun value => decodeFields_eq hplan hlen hx hshape raws (index + 1) _)
    · rw [List.drop_eq_nil_of_le (by rwa [List.length_mapIdx]), List.drop_eq_nil_of_le hle]
      simp [decodeFields, decodeFieldsBy]

theorem decodeAll_eq {a : α} {plan : DecodePlan α} {ids : Identity α → Option ℕ}
    (hplan : PlanFor G a plan ids) (hlen : plan.types.length ≤ noType) :
    (raws : List Raw) → (kind : Kind) → (x : Option (Identity α)) → Numbered ids x →
    decodeAll plan.types kind (numberOf ids x) raws = decodeAllBy G kind x raws
  | [], kind, x, _ => by rw [decodeAll, decodeAllBy]
  | raw :: raws, kind, x, hx => by
    rw [decodeAll, decodeAllBy, decode_eq hplan hlen raw kind x hx,
      decodeAll_eq hplan hlen raws kind x hx]

theorem decodePairs_eq {a : α} {plan : DecodePlan α} {ids : Identity α → Option ℕ}
    (hplan : PlanFor G a plan ids) (hlen : plan.types.length ≤ noType) :
    (keys raws : List Raw) → (keyKind kind : Kind) → (x : Option (Identity α)) →
    Numbered ids x → decodePairs plan.types keyKind kind (numberOf ids x) keys raws =
      decodePairsBy G keyKind kind x keys raws
  | [], raws, keyKind, kind, x, _ => by simp [decodePairs, decodePairsBy]
  | key :: keys, [], keyKind, kind, x, _ => by simp [decodePairs, decodePairsBy]
  | key :: keys, raw :: raws, keyKind, kind, x, hx => by
    rw [decodePairs, decodePairsBy, decode_eq hplan hlen raw kind x hx,
      decodePairs_eq hplan hlen keys raws keyKind kind x hx]

end

/-! ## The same types -/

/-- A number of the reader and a handle of the decoder that are of the same type. -/
def Paired (ids handle : Identity α → Option ℕ) (i : ℕ) (h : UInt32) : Prop :=
  ∃ x h', ids x = some i ∧ handle x = some h' ∧ h = UInt32.ofNat h'

/-- The plans of the reader and of the decoder are the same where they are of the same type. -/
theorem corresponds {a : α} {plan : DecodePlan α} {ids handle : Identity α → Option ℕ}
    {wasm : List TypePlan} (hplan : PlanFor G a plan ids) (hserves : Serves G wasm handle) :
    Corresponds plan.types wasm (Paired ids handle) := by
  rintro i _ ⟨x, h, hi, hh, rfl⟩
  obtain ⟨type, htype, hcommitted⟩ := hserves.plan x h hh
  refine ⟨_, type, hplan.types x i hi, htype, ?_⟩
  have hids : ids x ≠ none := hi ▸ Option.some_ne_none i
  have hhandle : handle x ≠ none := hh ▸ Option.some_ne_none h
  have hpaired : ∀ {y : Option (Identity α)}, (∃ z, y = some z ∧ Child G x z) →
      Paired ids handle (numberOf ids y) (handleOf handle y) := by
    rintro _ ⟨z, rfl, hchild⟩
    obtain ⟨j, hj⟩ := Option.ne_none_iff_exists'.1 (hplan.children x z hids hchild)
    obtain ⟨k, hk⟩ := Option.ne_none_iff_exists'.1 (hserves.children x z hhandle hchild)
    refine ⟨z, k, ?_, hk, ?_⟩
    · rw [numberOf, Option.bind_some, hj, Option.getD_some]
    · rw [handleOf, Option.bind_some, hk, Option.getD_some]
  have hplace := hserves.place x h hh
  rw [tapeOf_eq]
  rcases hshape : shapeOf G x with fields | valueKind | ⟨keyKind, valueKind⟩
  · rw [content_message hshape] at hcommitted
    obtain ⟨hkind, htypes, -⟩ := hcommitted
    obtain ⟨hx, hfields⟩ := eq_type_of_message hshape
    refine ⟨hkind, by rw [List.length_mapIdx], ?_⟩
    rw [htypes, List.mapIdx_eq_zipIdx_map, List.mapIdx_eq_zipIdx_map, List.map_map, List.map_map,
      List.forall₂_map_left_iff, List.forall₂_map_right_iff, List.forall₂_same]
    rintro ⟨field, index⟩ hp
    have hfield : FieldAt G (owner x) index field :=
      ⟨fields, hfields, List.mem_zipIdx_iff_getElem?.1 hp⟩
    dsimp only
    rw [fieldTape_eq]
    refine ⟨field.kind.is_ofNat, fun hcomplex => ?_⟩
    obtain ⟨z, hz, hchild⟩ := hfield.child hcomplex
    exact hpaired ⟨z, hz, hx ▸ hchild⟩
  · rw [content_array hplace hshape] at hcommitted
    obtain ⟨hkind, hvalue, hchild, -⟩ := hcommitted
    refine ⟨hkind, hvalue, fun hcomplex => ?_⟩
    rw [hchild]
    exact hpaired (values_child (.inl hshape) hcomplex)
  · rw [content_map hplace hshape] at hcommitted
    obtain ⟨hkind, ⟨hkey, hvalid⟩, hvalue, hchild, -⟩ := hcommitted
    refine ⟨hkind, hkey, hvalue, hkey.complex.trans (isComplex_key hvalid), fun hcomplex => ?_⟩
    rw [hchild]
    exact hpaired (values_child (.inr ⟨keyKind, hshape⟩) hcomplex)

end

end ProtoCache.Typescript

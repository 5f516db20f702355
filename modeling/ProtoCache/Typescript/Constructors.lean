import ProtoCache.Lib.Ensures
import ProtoCache.Typescript.Handles

/-!
# Schemas

The constructors of `typescript/src/schema.ts` check what a program says of a type: a message has
fields of distinct names and numbers, with kinds that there are, and with a function that
resolves the type of their values if that is complex; likewise for arrays and maps.

* `messageSchemaV1_ok_iff`: what is accepted, which is then as it was given.
-/

namespace ProtoCache.Typescript

open Outcome

/-! ## Kinds -/

/-- `isValueKind`, of a kind. -/
def isValueKind (kind : Kind) : Bool := kind != .none

/-- `isKeyKind`, of a kind. -/
def isKeyKind (kind : Kind) : Bool :=
  kind == .string || kind == .u64 || kind == .u32 || kind == .i64 || kind == .i32

/-! ## What is given -/

/-- A resolver as it is given. -/
inductive ValueType (α : Type)
  | undefined
  | function (resolver : α)
  /-- Another value. -/
  | other

/-- The parts of a field as they are given; what is not of the expected type is none: a string, a
    safe integer, a boolean and the numbers of two kinds. -/
structure Candidate (α : Type) where
  name : Option String
  fieldId : Option ℤ
  repeated : Option Bool
  keyKind : Option Kind
  valueKind : Option Kind
  valueType : ValueType α

section

variable {α : Type}

/-! ## The checks -/

/-- What has to be there, or a `TypeError` is thrown. -/
def expect {β : Type} (o : Option β) (text : String) : Except (Thrown α) β :=
  match o with
  | none => .error (.typeError text)
  | some b => .ok b

/-- `checkValueType`: the kind, and the resolver if there is one. -/
def checkValueType (valueKind : Option Kind) (valueType : ValueType α) (context : String) :
    Except (Thrown α) (Kind × Option α) := do
  let valueKind ← expect (valueKind.filter isValueKind) (context ++ " has an invalid value kind")
  if valueKind.isComplexKind then
    match valueType with
    | .function resolver => return (valueKind, some resolver)
    | _ => .error (.typeError (context ++ " requires a lazy complex-type resolver"))
  else
    match valueType with
    | .undefined => return (valueKind, none)
    | _ => .error (.typeError (context ++ " must not have a complex-type resolver"))

/-- A round of the loop of `messageSchemaV1`, with the names and the numbers that there were;
    what is given is none if it is not a tuple of five or six. -/
def checkField (candidate : Option (Candidate α)) (names : List String) (ids : List ℕ) :
    Except (Thrown α) (Field α) := do
  let candidate ← expect candidate "ProtoCache message field metadata must be a 5- or 6-tuple"
  let name ← expect (candidate.name.filter fun name => name != "")
    "ProtoCache field name must be a non-empty string"
  let context := "ProtoCache field " ++ name
  let fieldId ← expect (candidate.fieldId.filter fun id => decide (0 ≤ id ∧ id < 6387))
    (context ++ " has an invalid field id")
  let repeated ← expect candidate.repeated (context ++ " has an invalid repeated flag")
  let keyKind ← expect (candidate.keyKind.filter fun kind =>
    kind == .none || repeated && isKeyKind kind)
    (context ++ " has an invalid map key kind")
  let (valueKind, resolver) ← checkValueType candidate.valueKind candidate.valueType context
  if names.contains name || ids.contains fieldId.toNat then
    .error (.typeError (context ++ " duplicates a name or field id"))
  else return ⟨name, fieldId.toNat, repeated, keyKind, valueKind, resolver⟩

/-- The loop of `messageSchemaV1`. -/
def checkFields :
    List (Option (Candidate α)) → List String → List ℕ → Except (Thrown α) (List (Field α))
  | [], _, _ => return []
  | candidate :: candidates, names, ids => do
    let field ← checkField candidate names ids
    let fields ← checkFields candidates (names ++ [field.name]) (ids ++ [field.id])
    return field :: fields

/-- `messageSchemaV1`. -/
def messageSchemaV1 (candidates : List (Option (Candidate α))) :
    Except (Thrown α) (List (Field α)) :=
  checkFields candidates [] []

/-- `arraySchemaV1`. -/
def arraySchemaV1 (valueKind : Option Kind) (valueType : ValueType α) :
    Except (Thrown α) (Kind × Option α) :=
  checkValueType valueKind valueType "ProtoCache array schema"

/-- `mapSchemaV1`. -/
def mapSchemaV1 (keyKind valueKind : Option Kind) (valueType : ValueType α) :
    Except (Thrown α) (Kind × Kind × Option α) := do
  let keyKind ← expect (keyKind.filter isKeyKind) "ProtoCache map schema has an invalid key kind"
  let value ← checkValueType valueKind valueType "ProtoCache map schema"
  return (keyKind, value)

/-! ## What is accepted -/

/-- The resolver as it was given. -/
def ValueType.ofOption : Option α → ValueType α
  | none => .undefined
  | some resolver => .function resolver

/-- A field as it was given. -/
def Field.candidate (field : Field α) : Candidate α :=
  ⟨some field.name, some field.id, some field.repeated, some field.keyKind, some field.valueKind,
    .ofOption field.resolver⟩

/-- What is accepted of values: a kind, with a resolver if it is complex. -/
def Resolved (kind : Kind) (resolver : Option α) : Prop :=
  isValueKind kind = true ∧ resolver.isSome = kind.isComplexKind

/-- What is accepted of a field. -/
structure Field.Constructed (field : Field α) : Prop where
  name : field.name ≠ ""
  id : field.id < 6387
  keyKind : field.keyKind = .none ∨ field.repeated = true ∧ isKeyKind field.keyKind = true
  value : Resolved field.valueKind field.resolver

/-- What is accepted of the fields of a message. -/
structure FieldsConstructed (fields : List (Field α)) : Prop where
  field : ∀ field ∈ fields, field.Constructed
  names : (fields.map Field.name).Nodup
  ids : (fields.map Field.id).Nodup

theorem expect_ok_iff {β : Type} {o : Option β} {text : String} {b : β} :
    (expect o text : Except (Thrown α) β) = .ok b ↔ o = some b := by
  cases o with
  | none => exact ⟨fun h => (by cases h), fun h => (by cases h)⟩
  | some b' => exact ⟨fun h => (by cases h; rfl), fun h => (by cases h; rfl)⟩

theorem checkValueType_ok_iff {valueKind : Option Kind} {valueType : ValueType α} {context : String}
    {kind : Kind} {resolver : Option α} :
    checkValueType valueKind valueType context = .ok (kind, resolver) ↔
      valueKind = some kind ∧ valueType = .ofOption resolver ∧ Resolved kind resolver := by
  rw [checkValueType, bind_eq_ok_iff]
  constructor
  · rintro ⟨kind', hkind, h⟩
    rw [expect_ok_iff, Option.filter_eq_some_iff] at hkind
    obtain ⟨rfl, hvalue⟩ := hkind
    split at h
    · next hcomplex =>
      cases valueType with
      | function resolver' =>
        cases h
        exact ⟨rfl, rfl, hvalue, hcomplex.symm⟩
      | undefined | other => cases h
    · next hscalar =>
      cases valueType with
      | undefined =>
        cases h
        exact ⟨rfl, rfl, hvalue, (Bool.not_eq_true _ ▸ hscalar).symm⟩
      | function _ | other => cases h
  · rintro ⟨rfl, rfl, hvalue, hresolver⟩
    refine ⟨kind, expect_ok_iff.2 (Option.filter_eq_some_iff.2 ⟨rfl, hvalue⟩), ?_⟩
    cases resolver with
    | none => exact if_neg (hresolver ▸ Bool.false_ne_true)
    | some resolver => exact if_pos hresolver.symm

/-- A round accepts a field as it was given, if its name and its number are new. -/
theorem checkField_ok_iff {candidate : Option (Candidate α)} {names : List String} {ids : List ℕ}
    {field : Field α} :
    checkField candidate names ids = .ok field ↔
      candidate = some field.candidate ∧ field.Constructed ∧ field.name ∉ names ∧
        field.id ∉ ids := by
  simp only [checkField, bind_eq_ok_iff, expect_ok_iff, Option.filter_eq_some_iff]
  constructor
  · rintro ⟨candidate, rfl, name, ⟨hname, hnonempty⟩, fieldId, ⟨hid, hrange⟩, repeated, hrepeated,
      keyKind, ⟨hkeyKind, hkey⟩, ⟨valueKind, resolver⟩, hvalue, h⟩
    obtain ⟨hvalueKind, hvalueType, hresolved⟩ := checkValueType_ok_iff.1 hvalue
    dsimp only at h
    split at h
    · cases h
    next hnew =>
    cases h
    rw [Bool.not_eq_true, Bool.or_eq_false_iff, List.contains_eq_mem, List.contains_eq_mem,
      decide_eq_false_iff_not, decide_eq_false_iff_not] at hnew
    rw [decide_eq_true_eq] at hrange
    refine ⟨congrArg some ?_,
      ⟨bne_iff_ne.1 hnonempty, (Int.toNat_lt hrange.1).2 hrange.2, ?_, hresolved⟩, hnew⟩
    · obtain ⟨name', id', repeated', keyKind', valueKind', valueType'⟩ := candidate
      dsimp only at hname hid hrepeated hkeyKind hvalueKind hvalueType
      rw [Field.candidate, hname, hid, hrepeated, hkeyKind, hvalueKind, hvalueType,
        Int.toNat_of_nonneg hrange.1]
    · rwa [Bool.or_eq_true, beq_iff_eq, Bool.and_eq_true] at hkey
  · rintro ⟨rfl, hfield, hname, hid⟩
    refine ⟨_, rfl, field.name, ⟨rfl, bne_iff_ne.2 hfield.name⟩,
      field.id, ⟨rfl, decide_eq_true ⟨by omega, ?_⟩⟩, field.repeated, rfl, field.keyKind, ⟨rfl, ?_⟩,
      (field.valueKind, field.resolver), checkValueType_ok_iff.2 ⟨rfl, rfl, hfield.value⟩, ?_⟩
    · exact Int.ofNat_lt.2 hfield.id
    · rw [Bool.or_eq_true, beq_iff_eq, Bool.and_eq_true]
      exact hfield.keyKind
    · refine if_neg ?_
      rw [Bool.not_eq_true, Bool.or_eq_false_iff, List.contains_eq_mem, List.contains_eq_mem,
        decide_eq_false_iff_not, decide_eq_false_iff_not]
      exact ⟨hname, hid⟩

/-- The loop accepts fields as they were given, if their names and numbers are new. -/
theorem checkFields_ok_iff {candidates : List (Option (Candidate α))} {names : List String}
    {ids : List ℕ} {fields : List (Field α)} :
    checkFields candidates names ids = .ok fields ↔
      candidates = fields.map (fun field => some field.candidate) ∧ FieldsConstructed fields ∧
        (∀ field ∈ fields, field.name ∉ names) ∧ ∀ field ∈ fields, field.id ∉ ids := by
  induction candidates generalizing names ids fields with
  | nil =>
    rw [checkFields]
    constructor
    · rintro ⟨⟩
      exact ⟨rfl, ⟨fun _ h => absurd h List.not_mem_nil, .nil, .nil⟩,
        fun _ h => absurd h List.not_mem_nil, fun _ h => absurd h List.not_mem_nil⟩
    · rintro ⟨hfields, -⟩
      rw [List.map_eq_nil_iff.1 hfields.symm]
      rfl
  | cons candidate candidates ih =>
    rw [checkFields]
    simp only [bind_eq_ok_iff, checkField_ok_iff, ih]
    constructor
    · rintro ⟨field, ⟨rfl, hfield, hname, hid⟩, fields, ⟨rfl, hfields, hnames, hids⟩, h⟩
      cases h
      -- What comes later has other names and numbers.
      have hother : ∀ f ∈ fields, f.name ≠ field.name ∧ f.id ≠ field.id := fun f hf =>
        ⟨fun heq => hnames f hf (List.mem_append_right _ (List.mem_singleton.2 heq)),
          fun heq => hids f hf (List.mem_append_right _ (List.mem_singleton.2 heq))⟩
      refine ⟨rfl, ⟨List.forall_mem_cons.2 ⟨hfield, hfields.field⟩, List.nodup_cons.2
          ⟨fun hmem => ?_, hfields.names⟩, List.nodup_cons.2 ⟨fun hmem => ?_, hfields.ids⟩⟩,
        List.forall_mem_cons.2 ⟨hname, fun f hf hmem => ?_⟩,
        List.forall_mem_cons.2 ⟨hid, fun f hf hmem => ?_⟩⟩
      · obtain ⟨f, hf, heq⟩ := List.mem_map.1 hmem
        exact (hother f hf).1 heq
      · obtain ⟨f, hf, heq⟩ := List.mem_map.1 hmem
        exact (hother f hf).2 heq
      · exact hnames f hf (List.mem_append_left _ hmem)
      · exact hids f hf (List.mem_append_left _ hmem)
    · rintro ⟨hcandidates, ⟨hfields, hnames, hids⟩, hnew, hnew'⟩
      cases fields with
      | nil => cases hcandidates
      | cons field fields =>
        obtain ⟨rfl, rfl⟩ := List.cons.inj hcandidates
        rw [List.map_cons, List.nodup_cons] at hnames hids
        refine ⟨field, ⟨rfl, hfields field List.mem_cons_self,
            hnew field List.mem_cons_self, hnew' field List.mem_cons_self⟩,
          fields, ⟨rfl, ⟨fun f hf => hfields f (List.mem_cons_of_mem _ hf), hnames.2, hids.2⟩,
            fun f hf hmem => ?_, fun f hf hmem => ?_⟩, rfl⟩
        · rcases List.mem_append.1 hmem with hmem | hmem
          · exact hnew f (List.mem_cons_of_mem _ hf) hmem
          · exact hnames.1 (List.mem_singleton.1 hmem ▸ List.mem_map_of_mem hf)
        · rcases List.mem_append.1 hmem with hmem | hmem
          · exact hnew' f (List.mem_cons_of_mem _ hf) hmem
          · exact hids.1 (List.mem_singleton.1 hmem ▸ List.mem_map_of_mem hf)

/-- What `messageSchemaV1` accepts, and that it keeps it as it was given. -/
theorem messageSchemaV1_ok_iff {candidates : List (Option (Candidate α))}
    {fields : List (Field α)} :
    messageSchemaV1 candidates = .ok fields ↔
      candidates = fields.map (fun field => some field.candidate) ∧ FieldsConstructed fields := by
  rw [messageSchemaV1, checkFields_ok_iff]
  exact ⟨fun h => ⟨h.1, h.2.1⟩,
    fun h => ⟨h.1, h.2, fun _ _ => List.not_mem_nil, fun _ _ => List.not_mem_nil⟩⟩

/-! ## Types -/

/-- A type that one of the constructors has accepted. -/
def Shape.Constructed : Shape α → Prop
  | .message fields => ∃ candidates, messageSchemaV1 candidates = .ok fields
  | .array valueKind =>
    ∃ kind, ∃ valueType : ValueType α, ∃ resolver,
      arraySchemaV1 kind valueType = .ok (valueKind, resolver)
  | .map keyKind valueKind => ∃ key kind, ∃ valueType : ValueType α, ∃ resolver,
      mapSchemaV1 key kind valueType = .ok (keyKind, valueKind, resolver)

/-- All types of a graph were accepted. -/
def Graph.Constructed (G : Graph α) : Prop := ∀ a, (G.shape a).Constructed

theorem Shape.Constructed.fields {fields : List (Field α)}
    (h : (Shape.message fields).Constructed) :
    FieldsConstructed fields := by
  obtain ⟨candidates, h⟩ := h
  exact (messageSchemaV1_ok_iff.1 h).2

theorem Shape.Constructed.array {valueKind : Kind}
    (h : (Shape.array valueKind : Shape α).Constructed) :
    isValueKind valueKind = true := by
  obtain ⟨kind, valueType, resolver, h⟩ := h
  exact (checkValueType_ok_iff.1 h).2.2.1

theorem Shape.Constructed.map {keyKind valueKind : Kind}
    (h : (Shape.map keyKind valueKind : Shape α).Constructed) :
    isKeyKind keyKind = true ∧ isValueKind valueKind = true := by
  obtain ⟨key, kind, valueType, resolver, h⟩ := h
  rw [mapSchemaV1, bind_eq_ok_iff] at h
  obtain ⟨keyKind', hkey, h⟩ := h
  obtain ⟨value, hvalue, h⟩ := bind_eq_ok_iff.1 h
  cases h
  rw [expect_ok_iff, Option.filter_eq_some_iff] at hkey
  exact ⟨hkey.2, (checkValueType_ok_iff.1 hvalue).2.2.1⟩

end

end ProtoCache.Typescript

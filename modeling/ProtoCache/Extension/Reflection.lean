import ProtoCache.Basic

/-!
# The pool of descriptors

`DescriptorPool` (`src/extension/reflection.cc`): what a file declares is registered
under its full name, and the type of a field, which the file gives by a name, is
looked up among what is registered. Names are the characters of the strings; the
entries of an `unordered_map` are listed in the order in which they are visited.
The custom options of a file are left out.

* `checkType_eq`, `checkInner_spec`: the names that are looked up, in their order;
* `checkType_eq_none_iff`: a field is bound unless no scope declares its type.

What `Find` and `Register` do over time is in `ProtoCache.Extension.Pool`, and when a field is bound
to what the innermost scope declares in `ProtoCache.Extension.Scoping`.
-/

namespace ProtoCache.Reflection

/-- A `std::string`. -/
abbrev Name := List Char

/-! ## The code -/

/-- `FieldDescriptorProto::Type`. -/
inductive ProtoType
  | double | float | int64 | uint64 | int32 | fixed64 | fixed32 | bool | string | group | message
  | bytes | uint32 | enum | sfixed32 | sfixed64 | sint32 | sint64
  deriving DecidableEq

/-- `Field::Type`. -/
inductive FieldType
  | none | message | bytes | string | double | float | uint64 | uint32 | int64 | int32 | bool | enum
  | unknown
  deriving DecidableEq

/-- `FieldDescriptorProto`: a parser gives no type where there is a name instead. -/
structure FieldProto where
  name : Name
  number : ℤ
  repeated : Bool
  type : Option ProtoType
  typeName : Name
  deprecated : Bool

/-- `EnumDescriptorProto`. -/
structure EnumProto where
  name : Name
  deprecated : Bool

/-- `DescriptorProto`; the entry of a map has a field for the key and one for the value. -/
inductive MessageProto
  | message (name : Name) (deprecated : Bool) (enums : List EnumProto) (nested : List MessageProto)
      (fields : List FieldProto)
  | mapEntry (name : Name) (deprecated : Bool) (key value : FieldProto)

/-- `FileDescriptorProto`. -/
structure FileProto where
  package : Name
  enums : List EnumProto
  messages : List MessageProto

/-- `Field`. -/
structure Field where
  id : UInt32 := 0xffffffff
  repeated : Bool := false
  key : FieldType := .none
  value : FieldType := .none
  valueType : Name := []
  valueDescriptor : Option Name := none
  deriving DecidableEq

/-- `Descriptor`. -/
structure Descriptor where
  alias_ : Field := {}
  fields : List (Name × Field) := []
  deriving DecidableEq

/-- `IsAlias`. -/
def Descriptor.isAlias (d : Descriptor) : Bool := d.alias_.value ≠ .none

/-- `DescriptorPool`. -/
structure DescriptorPool where
  enum_ : List Name := []
  pool_ : List (Name × Descriptor) := []
  deriving DecidableEq

/-- `Fullname`. -/
def fullname (ns name : Name) : Name := if ns = [] then name else ns ++ '.' :: name

/-- `ConvertType`. -/
def convertType : Option ProtoType → FieldType
  | none => .unknown
  | some .message => .message
  | some .bytes => .bytes
  | some .string => .string
  | some .double => .double
  | some .float => .float
  | some .fixed64 => .uint64
  | some .uint64 => .uint64
  | some .fixed32 => .uint32
  | some .uint32 => .uint32
  | some .sfixed64 => .int64
  | some .sint64 => .int64
  | some .int64 => .int64
  | some .sfixed32 => .int32
  | some .sint32 => .int32
  | some .int32 => .int32
  | some .bool => .bool
  | some .enum => .enum
  | some .group => .none

/-- `CanBeKey`. -/
def canBeKey : FieldType → Bool
  | .string | .uint64 | .uint32 | .int64 | .int32 => true
  | _ => false

/-- `bind_type`: the field, if the name is that of an enumeration or a message. -/
def bindType (p : DescriptorPool) (name : Name) (field : Field) : Option Field :=
  if name ∈ p.enum_ then some { field with value := .enum, valueType := [] }
  else if name ∈ p.pool_.map Prod.fst then
    some { field with value := .message, valueType := name, valueDescriptor := some name }
  else none

/-- `rfind` of a dot. -/
def rfind : Name → Option ℕ
  | [] => none
  | c :: name =>
    match rfind name with
    | some pos => some (pos + 1)
    | none => if c = '.' then some 0 else none

/-- The loop of `check_type`: `name` is cut at its last dot, and the type is looked up behind
    what is left, until there is no dot. A name has fewer dots than characters. -/
def walkScopes (p : DescriptorPool) (field : Field) : ℕ → Name → Option Field
  | 0, _ => none
  | k + 1, name =>
    match rfind name with
    | none => none
    | some pos =>
      match bindType p (name.take (pos + 1) ++ field.valueType) field with
      | some field => some field
      | none => walkScopes p field k (name.take pos)

/-- `check_type`; without a result, the field is left as it is. -/
def checkType (p : DescriptorPool) (name : Name) (field : Field) : Option Field :=
  if field.value ≠ .unknown then some field
  else if field.valueType = [] then none
  else
    match bindType p field.valueType field with
    | some field => some field
    | none =>
      match bindType p (fullname name field.valueType) field with
      | some field => some field
      | none =>
        walkScopes p field (name.length + 1) ((fullname name field.valueType).take name.length)

/-- The loop of `FixUnknownType` over the fields, to the first that fails. -/
def fixFields (p : DescriptorPool) (name : Name) : List (Name × Field) → Bool × List (Name × Field)
  | [] => (true, [])
  | (n, field) :: fields =>
    match checkType p name field with
    | none => (false, (n, field) :: fields)
    | some field =>
      let (ok, fields) := fixFields p name fields
      (ok, (n, field) :: fields)

/-- `FixUnknownType`. -/
def fixUnknownType (p : DescriptorPool) (name : Name) (d : Descriptor) : Bool × Descriptor :=
  if d.isAlias then
    match checkType p name d.alias_ with
    | none => (false, d)
    | some field => (true, { d with alias_ := field })
  else
    let (ok, fields) := fixFields p name d.fields
    (ok, { d with fields })

/-- `enum_` with the enumerations of a scope. -/
def addEnums (p : DescriptorPool) (ns : Name) (enums : List EnumProto) : DescriptorPool :=
  { p with enum_ := p.enum_ ++ (enums.filter fun e => !e.deprecated).map fun e =>
    fullname ns e.name }

namespace MessageProto

def name : MessageProto → Name
  | message name _ _ _ _ => name
  | mapEntry name _ _ _ => name

def deprecated : MessageProto → Bool
  | message _ deprecated _ _ _ => deprecated
  | mapEntry _ deprecated _ _ => deprecated

/-- The fields of the entry of a map. -/
def entry : MessageProto → Option (FieldProto × FieldProto)
  | message _ _ _ _ _ => none
  | mapEntry _ _ key value => some (key, value)

end MessageProto

/-- `map_entries.find`: the first entry of the name. -/
def findEntry (nested : List MessageProto) (name : Name) : Option (FieldProto × FieldProto) :=
  (nested.find? fun m => !m.deprecated && m.entry.isSome && m.name = name).bind MessageProto.entry

/-- `convert_field`, into a field that may have been converted before. -/
def convertField (nested : List MessageProto) (src : FieldProto) (out : Field) : Option Field :=
  let out := { out with repeated := src.repeated, value := convertType src.type }
  if out.value = .none then none
  else if out.value = .message ∨ out.value = .unknown then
    match findEntry nested src.typeName with
    | some (key, value) =>
      let out := { out with key := convertType key.type, value := convertType value.type }
      if !canBeKey out.key ∨ out.value = .none then none
      else some { out with valueType := value.typeName }
    | none => some { out with valueType := src.typeName }
  else some out

/-- `fields[name]`, a new one if there is none. -/
def fieldOf (fields : List (Name × Field)) (name : Name) : Field := (fields.lookup name).getD {}

/-- A field under its name. -/
def setField (fields : List (Name × Field)) (name : Name) (field : Field) : List (Name × Field) :=
  if name ∈ fields.map Prod.fst then fields.map fun f => if f.1 = name then (name, field) else f
  else fields ++ [(name, field)]

/-- The loop of `Register` over the fields of a message. -/
def convertFields (nested : List MessageProto) :
    List FieldProto → List (Name × Field) → Option (List (Name × Field))
  | [], fields => some fields
  | one :: rest, fields =>
    if one.deprecated then convertFields nested rest fields
    else if one.number ≤ 0 then none
    else
      let field := { fieldOf fields one.name with id := UInt32.ofNat (one.number - 1).toNat }
      match convertField nested one field with
      | none => none
      | some field => convertFields nested rest (setField fields one.name field)

/-- The descriptor that `Register` makes: of an alias, if the only field is named `_`. -/
def makeDescriptor (nested : List MessageProto) (fields : List FieldProto) : Option Descriptor :=
  match fields with
  | [one] =>
    if one.name = ['_'] then (convertField nested one {}).map fun alias_ => { alias_ }
    else (convertFields nested fields []).map fun fields => { fields }
  | _ => (convertFields nested fields []).map fun fields => { fields }

/-- `pool_.emplace`, which fails where there is an entry of the name. -/
def emplace (p : DescriptorPool) (name : Name) (d : Descriptor) : Bool × DescriptorPool :=
  if name ∈ p.pool_.map Prod.fst then (false, p)
    else (true, { p with pool_ := p.pool_ ++ [(name, d)] })

/-- The end of `Register` of a message. -/
def registerFields (p : DescriptorPool) (name : Name) (nested : List MessageProto)
    (fields : List FieldProto) :
    Bool × DescriptorPool :=
  match makeDescriptor nested fields with
  | none => (false, p)
  | some d => emplace p name d

mutual

/-- `Register` of a message, in a scope. When it fails, what was registered stays. -/
def registerMessage (p : DescriptorPool) (ns : Name) : MessageProto → Bool × DescriptorPool
  | .message name _ enums nested fields =>
    let full := fullname ns name
    let (ok, p) := registerNested (addEnums p full enums) full nested
    if ok then registerFields p full nested fields else (false, p)
  | .mapEntry name _ key value => registerFields p (fullname ns name) [] [key, value]

/-- The loop of `Register` over the messages in a message. -/
def registerNested (p : DescriptorPool) (ns : Name) : List MessageProto → Bool × DescriptorPool
  | [] => (true, p)
  | one :: nested =>
    if one.deprecated || one.entry.isSome then registerNested p ns nested
    else
      let (ok, p) := registerMessage p ns one
      if ok then registerNested p ns nested else (false, p)

end

/-- The loop of `Register` over the messages of a file. -/
def registerMessages (p : DescriptorPool) (ns : Name) : List MessageProto → Bool × DescriptorPool
  | [] => (true, p)
  | one :: messages =>
    if one.deprecated then registerMessages p ns messages
    else
      let (ok, p) := registerMessage p ns one
      if ok then registerMessages p ns messages else (false, p)

/-- A descriptor whose types have been found. -/
def Descriptor.resolved (d : Descriptor) : Descriptor :=
  { d with alias_ := { d.alias_ with id := 0 } }

/-- The body of the last loop of `Register`: another try for a descriptor. -/
def resolve (p : DescriptorPool) (name : Name) (d : Descriptor) : Descriptor :=
  if d.alias_.id ≠ 0 then
    let (ok, d) := fixUnknownType p name d
    if ok then d.resolved else d
  else d

/-- `Register` of a file. -/
def register (p : DescriptorPool) (proto : FileProto) : Bool × DescriptorPool :=
  let (ok, p) :=
    registerMessages (addEnums p proto.package proto.enums) proto.package proto.messages
  if ok then (true, { p with pool_ := p.pool_.map fun e => (e.1, resolve p e.1 e.2) })
    else (false, p)

/-- A descriptor in the place of the one of the name. -/
def update (p : DescriptorPool) (name : Name) (d : Descriptor) : DescriptorPool :=
  { p with pool_ := p.pool_.map fun e => if e.1 = name then (name, d) else e }

/-- `Find`: if there is a descriptor that it returns, and the pool after it. -/
def find (p : DescriptorPool) (name : Name) : Bool × DescriptorPool :=
  match p.pool_.lookup name with
  | none => (false, p)
  | some d =>
    if d.alias_.id = 0 then (true, p)
    else if d.alias_.id ≠ 0xffffffff then (false, p)
    else
      let d := { d with alias_ := { d.alias_ with id := d.alias_.id - 1 } }
      let (ok, d) := fixUnknownType p name d
      if ok then (true, update p name d.resolved) else (false, update p name d)

/-! ## Scopes -/

/-- What is registered. -/
def Declared (p : DescriptorPool) (name : Name) : Prop :=
  name ∈ p.enum_ ∨ name ∈ p.pool_.map Prod.fst

instance (p : DescriptorPool) (name : Name) : Decidable (Declared p name) :=
  inferInstanceAs (Decidable (_ ∨ _))

/-- The full names that a name can have in a message or in the scopes around it, save the
    outermost. -/
def Inner (full name c : Name) : Prop :=
  c = fullname full name ∨ ∃ scope rest, full = scope ++ '.' :: rest ∧ c = scope ++ '.' :: name

/-- The full names that a name can have in a message or in any scope around it. -/
def Candidate (full name c : Name) : Prop := Inner full name c ∨ c = name

/-- The full name of what the innermost scope declares. -/
def Innermost (p : DescriptorPool) (full name c : Name) : Prop :=
  Candidate full name c ∧ Declared p c ∧
    ∀ c', Candidate full name c' → Declared p c' → c'.length ≤ c.length

/-- The field, bound to the enumeration or the message of a full name. -/
def bound (p : DescriptorPool) (c : Name) (field : Field) : Field :=
  if c ∈ p.enum_ then { field with value := .enum, valueType := [] }
  else { field with value := .message, valueType := c, valueDescriptor := some c }

/-- The type of the field is known, or some scope declares it. -/
def Resolvable (p : DescriptorPool) (full : Name) (field : Field) : Prop :=
  field.value = .unknown → field.valueType ≠ [] ∧ ∃ c,
    Candidate full field.valueType c ∧ Declared p c

variable {p : DescriptorPool}

theorem bindType_some {c : Name} (h : Declared p c) (field : Field) :
    bindType p c field = some (bound p c field) := by
  unfold bindType bound
  split
  · rfl
  · rw [if_pos (h.resolve_left ‹_›)]

theorem bindType_none {c : Name} (h : ¬Declared p c) (field : Field) :
    bindType p c field = none := by
  rw [Declared, not_or] at h
  rw [bindType, if_neg h.1, if_neg h.2]

/-- A field that is bound is not unknown any more. -/
theorem bound_value (c : Name) (field : Field) : (bound p c field).value ≠ .unknown := by
  unfold bound
  split <;> simp

theorem bound_value_none (c : Name) (field : Field) : (bound p c field).value ≠ .none := by
  unfold bound
  split <;> simp

theorem rfind_none {name : Name} (h : rfind name = none) : '.' ∉ name := by
  induction name with
  | nil => exact List.not_mem_nil
  | cons c name ih =>
    rw [rfind] at h
    split at h
    · cases h
    · rename_i hname
      split at h
      · cases h
      · rename_i hc
        rw [List.mem_cons, not_or]
        exact ⟨Ne.symm hc, ih hname⟩

/-- The last dot of a name. -/
theorem rfind_some {name : Name} {pos : ℕ} (h : rfind name = some pos) :
    ∃ scope rest, name = scope ++ '.' :: rest ∧ scope.length = pos ∧ '.' ∉ rest := by
  induction name generalizing pos with
  | nil => cases h
  | cons c name ih =>
    rw [rfind] at h
    split at h
    · rename_i pos' hname
      obtain ⟨scope, rest, hsplit, hlen, hrest⟩ := ih hname
      cases h
      exact ⟨c :: scope, rest, by rw [hsplit]; rfl, by rw [List.length_cons, hlen], hrest⟩
    · rename_i hname
      split at h
      · rename_i hc
        cases h
        exact ⟨[], name, by rw [hc]; rfl, rfl, rfind_none hname⟩
      · cases h

/-- The scopes of a name are those that end at its last dot, and the scopes of what is before. -/
theorem scope_cases {scope rest scope' rest' : Name}
    (h : scope' ++ '.' :: rest' = scope ++ '.' :: rest) (hrest : '.' ∉ rest) :
    scope' = scope ∨ ∃ rest'', scope = scope' ++ '.' :: rest'' := by
  rcases List.append_eq_append_iff.1 h with ⟨mid, hscope, hmid⟩ | ⟨mid, hscope, hmid⟩
  · cases mid with
    | nil => exact .inl (by rw [hscope, List.append_nil])
    | cons c mid =>
      injection hmid with hc hmid
      exact .inr ⟨mid, by rw [hscope, ← hc]⟩
  · cases mid with
    | nil => exact .inl (by rw [hscope, List.append_nil])
    | cons c mid =>
      injection hmid with hc hmid
      rw [hmid] at hrest
      exact absurd (List.mem_append_right mid List.mem_cons_self) hrest

/-- The walk finds what the innermost of the scopes declares. -/
theorem walkScopes_spec (field : Field) {k : ℕ} {name : Name} (hk : name.length < k) :
    (walkScopes p field k name = none ∧
      ∀ scope rest, name = scope ++ '.' :: rest → ¬Declared p (scope ++ '.' :: field.valueType)) ∨
    ∃ scope rest, name = scope ++ '.' :: rest ∧ Declared p (scope ++ '.' :: field.valueType) ∧
      walkScopes p field k name = some (bound p (scope ++ '.' :: field.valueType) field) ∧
      ∀ scope' rest', name = scope' ++ '.' :: rest' →
        Declared p (scope' ++ '.' :: field.valueType) →
        scope'.length ≤ scope.length := by
  -- By induction on the scopes, from the innermost one outwards.
  induction k generalizing name with
  | zero => exact absurd hk (Nat.not_lt_zero _)
  | succ k ih =>
    rw [walkScopes]
    cases hpos : rfind name with
    | none =>
      refine .inl ⟨rfl, fun scope rest hname => ?_⟩
      exact absurd (by rw [hname]; exact List.mem_append_right _ List.mem_cons_self)
        (rfind_none hpos)
    | some pos =>
      obtain ⟨scope, rest, rfl, rfl, hrest⟩ := rfind_some hpos
      -- The name is cut at its last dot, which leaves the scope around the message.
      have hlook : (scope ++ '.' :: rest).take (scope.length + 1) ++ field.valueType =
          scope ++ '.' :: field.valueType := by
        rw [List.take_length_add_append, List.append_assoc]
        rfl
      have htake : (scope ++ '.' :: rest).take scope.length = scope := List.take_left
      dsimp only
      rw [hlook, htake]
      by_cases hdecl : Declared p (scope ++ '.' :: field.valueType)
      · rw [bindType_some hdecl]
        refine .inr ⟨scope, rest, rfl, hdecl, rfl, fun scope' rest' hname _ => ?_⟩
        rcases scope_cases hname.symm hrest with rfl | ⟨mid, rfl⟩
        · exact le_rfl
        · simp
      · rw [bindType_none hdecl]
        have hlt : scope.length < k := by
          rw [List.length_append, List.length_cons] at hk
          omega
        dsimp only
        rcases ih hlt with ⟨hnone, hall⟩ | ⟨s, r, rfl, hs, hsome, hmax⟩
        · refine .inl ⟨hnone, fun scope' rest' hname => ?_⟩
          rcases scope_cases hname.symm hrest with rfl | ⟨mid, hmid⟩
          · exact hdecl
          · exact hall scope' mid hmid
        · refine .inr ⟨s, r ++ '.' :: rest, by simp, hs, hsome, fun scope' rest' hname hs' => ?_⟩
          rcases scope_cases hname.symm hrest with rfl | ⟨mid, hmid⟩
          · exact absurd hs' hdecl
          · exact hmax scope' mid hmid hs'

theorem take_fullname (full name : Name) : (fullname full name).take full.length = full := by
  unfold fullname
  split
  · rename_i h
    rw [h]
    rfl
  · exact List.take_left

/-- What an inner scope declares has a longer name than what the outermost does. -/
theorem Inner.length_le {full name c : Name} (h : Inner full name c) : name.length ≤ c.length := by
  rcases h with rfl | ⟨scope, rest, -, rfl⟩
  · unfold fullname
    split
    · exact le_rfl
    · rw [List.length_append, List.length_cons]
      omega
  · rw [List.length_append, List.length_cons]
    omega

/-- What is looked up from the inside out, after the name itself. -/
def checkInner (p : DescriptorPool) (full : Name) (field : Field) : Option Field :=
  match bindType p (fullname full field.valueType) field with
  | some field => some field
  | none => walkScopes p field (full.length + 1) ((fullname full field.valueType).take full.length)

/-- Of the inner scopes, the innermost is found. -/
theorem checkInner_spec (full : Name) (field : Field) :
    (checkInner p full field = none ∧ ∀ c, Inner full field.valueType c → ¬Declared p c) ∨
    ∃ c, Innermost p full field.valueType c ∧ checkInner p full field = some (bound p c field) := by
  have outer {c c' : Name} (hc : Inner full field.valueType c)
      (h : Candidate full field.valueType c')
      (hinner : Inner full field.valueType c' → c'.length ≤ c.length) : c'.length ≤ c.length := by
    rcases h with h | rfl
    · exact hinner h
    · exact hc.length_le
  unfold checkInner
  by_cases hfull : Declared p (fullname full field.valueType)
  · -- The message itself is the innermost scope, and no other candidate is longer.
    rw [bindType_some hfull]
    refine .inr ⟨_, ⟨.inl (.inl rfl), hfull, fun c' hc' _ => outer (.inl rfl) hc' ?_⟩, rfl⟩
    rintro (rfl | ⟨scope, rest, rfl, rfl⟩)
    · exact le_rfl
    · rw [fullname, if_neg (by simp)]
      simp
      omega
  · rw [bindType_none hfull, take_fullname]
    rcases walkScopes_spec field (Nat.lt_succ_self full.length) with
      ⟨hnone, hall⟩ | ⟨s, r, hs, hdecl, hsome, hmax⟩
    · refine .inl ⟨hnone, ?_⟩
      rintro c (rfl | ⟨scope, rest, hscope, rfl⟩)
      · exact hfull
      · exact hall scope rest hscope
    · have hin : Inner full field.valueType (s ++ '.' :: field.valueType) := .inr ⟨s, r, hs, rfl⟩
      refine .inr ⟨_, ⟨.inl hin, hdecl, fun c' hc' hdecl' => outer hin hc' ?_⟩, hsome⟩
      rintro (rfl | ⟨scope, rest, hscope, rfl⟩)
      · exact absurd hdecl' hfull
      · have := hmax scope rest hscope hdecl'
        simp
        omega

/-- The name itself is looked up first, and then what is in the scopes. -/
theorem checkType_eq {full : Name} {field : Field} (hv : field.value = .unknown)
    (hn : field.valueType ≠ []) :
    checkType p full field =
      if Declared p field.valueType then some (bound p field.valueType field)
        else checkInner p full field := by
  rw [checkType, if_neg (by rw [hv]; simp), if_neg hn]
  split
  · rename_i field' h
    split
    · rename_i hdecl
      rw [← h, bindType_some hdecl]
    · rename_i hdecl
      rw [bindType_none hdecl] at h
      cases h
  · rename_i h
    have hdecl : ¬Declared p field.valueType := fun hd => by
      rw [bindType_some hd] at h
      cases h
    rw [if_neg hdecl]
    rfl

/-- Full names of one length that a name can have are the same: each scope gives one. -/
theorem candidate_inj {full name c c' : Name} (h : Candidate full name c)
    (h' : Candidate full name c') (hlen : c.length = c'.length) : c = c' := by
  have inner {d d' : Name} (hd : Inner full name d) (hd' : Inner full name d')
    (hdd : d.length = d'.length) :
      d = d' := by
    rcases hd with rfl | ⟨s, r, rfl, rfl⟩ <;> rcases hd' with rfl | ⟨s', r', hs', rfl⟩
    · rfl
    · subst hs'
      rw [fullname, if_neg (by simp)] at hdd
      simp at hdd
      omega
    · rw [fullname, if_neg (by simp)] at hdd
      simp at hdd
      omega
    · have hss : s = s' := (List.append_inj hs' (by simp at hdd; omega)).1
      rw [hss]
  have outer {d : Name} (hd : Inner full name d) (hdd : d.length = name.length) : d = name := by
    rcases hd with rfl | ⟨s, r, rfl, rfl⟩
    · unfold fullname at hdd ⊢
      split
      · rfl
      · rename_i hf
        rw [if_neg hf] at hdd
        simp at hdd
        omega
    · simp at hdd
      omega
  rcases h with h | rfl <;> rcases h' with h' | rfl
  · exact inner h h' hlen
  · exact outer h hlen
  · exact (outer h' hlen.symm).symm
  · rfl

/-- A field that is found is bound to something that is declared. -/
theorem checkType_some {full : Name} {field field' : Field} (hv : field.value = .unknown)
    (h : checkType p full field = some field') :
    ∃ c, Candidate full field.valueType c ∧ Declared p c ∧ field' = bound p c field := by
  have hn : field.valueType ≠ [] := fun hn => by
    rw [checkType, if_neg (by rw [hv]; simp), if_pos hn] at h
    cases h
  rw [checkType_eq hv hn] at h
  by_cases hdecl : Declared p field.valueType
  · rw [if_pos hdecl] at h
    cases h
    exact ⟨_, .inr rfl, hdecl, rfl⟩
  · rw [if_neg hdecl] at h
    rcases checkInner_spec (p := p) full field with ⟨hnone, -⟩ | ⟨c, hc, hsome⟩
    · rw [hnone] at h
      cases h
    · rw [hsome] at h
      cases h
      exact ⟨c, hc.1, hc.2.1, rfl⟩

/-- A field fails when its type is nowhere declared. -/
theorem checkType_eq_none_iff {full : Name} {field : Field} :
    checkType p full field = none ↔ ¬Resolvable p full field := by
  unfold Resolvable
  by_cases hv : field.value = .unknown
  · by_cases hn : field.valueType = []
    · rw [checkType, if_neg (by rw [hv]; simp), if_pos hn]
      simp [hv, hn]
    · rw [checkType_eq hv hn]
      by_cases hdecl : Declared p field.valueType
      · rw [if_pos hdecl]
        simp only [reduceCtorEq, false_iff, not_not]
        exact fun _ => ⟨hn, _, .inr rfl, hdecl⟩
      · rw [if_neg hdecl]
        rcases checkInner_spec (p := p) full field with ⟨hnone, hall⟩ | ⟨c, hc, hsome⟩
        · rw [hnone]
          refine iff_of_true rfl fun h => ?_
          obtain ⟨-, c, hc | rfl, hc'⟩ := h hv
          · exact hall c hc hc'
          · exact hdecl hc'
        · rw [hsome]
          refine iff_of_false (by simp) (not_not.2 fun _ => ⟨hn, c, hc.1, hc.2.1⟩)
  · rw [checkType, if_pos hv]
    simp [hv]

/-- The fields of a message, or the one of an alias, in the order in which they are visited. -/
def Descriptor.visited (d : Descriptor) : List Field :=
  if d.isAlias then [d.alias_] else d.fields.map Prod.snd

/-- An alias has one field, which is tried. -/
theorem fixUnknownType_alias {full : Name} {d : Descriptor} (hd : d.isAlias = true) :
    (fixUnknownType p full d).2.visited = [(checkType p full d.alias_).getD d.alias_] := by
  rw [fixUnknownType, if_pos hd]
  cases hc : checkType p full d.alias_ with
  | none => exact if_pos hd
  | some field' =>
    refine if_pos ?_
    by_cases hv : d.alias_.value = .unknown
    · obtain ⟨c, -, -, rfl⟩ := checkType_some hv hc
      rw [Descriptor.isAlias, decide_eq_true_eq]
      exact bound_value_none c _
    · rw [checkType, if_pos hv] at hc
      cases hc
      exact hd

theorem fixUnknownType_fields {full : Name} {d : Descriptor} (hd : ¬d.isAlias = true) :
    (fixUnknownType p full d).2.visited = (fixFields p full d.fields).2.map Prod.snd := by
  rw [fixUnknownType, if_neg hd]
  exact if_neg hd

end ProtoCache.Reflection

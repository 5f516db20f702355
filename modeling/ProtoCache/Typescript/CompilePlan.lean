import ProtoCache.Typescript.Cache
import ProtoCache.Typescript.Materialize

/-!
# Plans of the reader

`compilePlan` (`typescript/src/deserialize-tape.ts`) makes the plan by which the reader goes over
a tape, of a type and those that it refers to. It numbers the types in the order in
which it meets them; the number of a type is there before its children are, as types may refer
to themselves. Plans are kept under the type that they were made for.

* `compilePlan_spec`: if a call returns, each type that it has numbered is as the type says, and
  its children have numbers; whatever the resolvers answer, and in any order of calls;
* `compilePlan_returns`: if nothing fails, a call returns.
-/

namespace ProtoCache.Typescript

open Exceptional

section

variable {α : Type} [DecidableEq α] {G : Graph α} (out : Outside G)

/-! ## Making a plan -/

/-- `types` and `typeIds`, of a call. -/
structure Compiling (α : Type) where
  types : List (Option (TapeType α))
  typeIds : Identity α → Option ℕ

/-- A type gets its number. -/
def enter (x : Identity α) : Run (Compiling α) (Thrown α) ℕ := fun c =>
  some (.ok c.types.length, ⟨c.types ++ [none], Function.update c.typeIds x (some c.types.length)⟩)

/-- The type of a number is set. -/
def finish (id : ℕ) (type : TapeType α) : Run (Compiling α) (Thrown α) PUnit := fun c =>
  some (.ok ⟨⟩, { c with types := c.types.set id (some type) })

/-- `resolveRuntimeType`, in `compilePlan`. -/
def resolveTapeType (x : Identity α) : Run (Compiling α) (Thrown α) α := do
  let expectedKind := valueKindOf G.shape x
  let candidate ← ask (out.resolver x)
  if (G.shape candidate).kind = expectedKind then return candidate
  else
    Run.throw
      (.typeError s!"ProtoCache resolver did not return a kind {expectedKind.code} runtime type")

/-- `addContainer`, of an array or a map; `next` is `addRuntimeType`. -/
def addContainer (next : α → Run (Compiling α) (Thrown α) ℕ) (identity : Identity α)
    (type : ℕ → TapeType α) (valueKind : Kind) : Run (Compiling α) (Thrown α) ℕ := fun c =>
  match c.typeIds identity with
  | some id => some (.ok id, c)
  | none => (do
      let id ← enter identity
      let child ← (if valueKind.isComplexKind then do
          let candidate ← resolveTapeType out identity
          next candidate
        else return noType)
      finish id (type child)
      return id : Run (Compiling α) (Thrown α) ℕ) c

/-- The `child` of a field. -/
def addField (next : α → Run (Compiling α) (Thrown α) ℕ) (a : α) (index : ℕ) (field : Field α) :
    Run (Compiling α) (Thrown α) ℕ :=
  if field.repeated then
    addContainer out next (.field a index)
      (if field.keyKind = .none then .array field.valueKind else .map field.keyKind field.valueKind)
        field.valueKind
  else if field.valueKind.isComplexKind then do
    let candidate ← resolveTapeType out (.field a index)
    next candidate
  else return noType

/-- The loop of `addRuntimeType` over the fields of a message, from an index on. -/
def addFields (next : α → Run (Compiling α) (Thrown α) ℕ) (a : α) :
    List (Field α) → ℕ → Run (Compiling α) (Thrown α) (List (TapeField α))
  | [], _ => return []
  | field :: fields, index => do
    let child ← addField out next a index field
    let rest ← addFields next a fields (index + 1)
    return ⟨field.name, field.kind, child, defaultForField field⟩ :: rest

/-- `addRuntimeType`. The nesting of its calls is bounded by the model. The prototype of a message
    is known by its constructor. -/
def addRuntimeType : ℕ → α → Run (Compiling α) (Thrown α) ℕ
  | 0, _ => Run.never
  | fuel + 1, a => fun c =>
    match c.typeIds (.type a) with
    | some id => some (.ok id, c)
    | none =>
      match G.shape a with
      | .array valueKind =>
        addContainer out (addRuntimeType fuel) (.type a) (.array valueKind) valueKind c
      | .map keyKind valueKind =>
        addContainer out (addRuntimeType fuel) (.type a) (.map keyKind valueKind) valueKind c
      | .message fields => (do
          let id ← enter (.type a)
          let fields ← addFields out (addRuntimeType fuel) a fields 0
          finish id (.message a fields ((fields.length + 31) / 32))
          return id : Run (Compiling α) (Thrown α) ℕ) c

/-- `plans`. -/
abbrev Plans (α : Type) := α → Option (DecodePlan α)

/-- `compilePlan`. There is no type left then that is not set. -/
def compilePlan (fuel : ℕ) (a : α) : Run (Plans α) (Thrown α) (DecodePlan α) := fun plans =>
  match plans a with
  | some plan => some (.ok plan, plans)
  | none =>
    match addRuntimeType out fuel a ⟨[], fun _ => none⟩ with
    | none => none
    | some (.error e, _) => some (.error e, plans)
    | some (.ok root, c) =>
      let plan := ⟨root, c.types.filterMap id⟩
      some (.ok plan, Function.update plans a (some plan))

end

/-! ## Types as they are -/

section

variable {α : Type} {G : Graph α}

/-- The number of the type of values. -/
def childId (ids : Identity α → Option ℕ) (valueKind : Kind) (type : α) : ℕ :=
  if valueKind.isComplexKind then (ids (.type type)).getD noType else noType

/-- A field, as its message says. -/
def fieldTape (G : Graph α) (ids : Identity α → Option ℕ) (a : α) (index : ℕ) (field : Field α) :
    TapeField α :=
  ⟨field.name, field.kind,
    if field.repeated then (ids (.field a index)).getD noType
    else childId ids field.valueKind (G.target (.field a index)), defaultForField field⟩

/-- The array or the map that a repeated field is. -/
def containerTape (field : Field α) : ℕ → TapeType α :=
  if field.keyKind = .none then .array field.valueKind else .map field.keyKind field.valueKind

/-- A type, or a repeated field, as the graph says, with the numbers of its children. -/
def tapeOf (G : Graph α) (ids : Identity α → Option ℕ) : Identity α → TapeType α
  | .type a =>
    match G.shape a with
    | .message fields => .message a (fields.mapIdx (fieldTape G ids a)) ((fields.length + 31) / 32)
    | .array valueKind => .array valueKind (childId ids valueKind (G.target (.type a)))
    | .map keyKind valueKind => .map keyKind valueKind (childId ids valueKind (G.target (.type a)))
  | .field a index =>
    match (G.shape a).fields[index]? with
    | none => .array .none noType
    | some field => containerTape field (childId ids field.valueKind (G.target (.field a index)))

/-- What a type refers to, by the types that the resolvers stand for. -/
def Child (G : Graph α) (x y : Identity α) : Prop := (content G G.target x).Refers y

theorem childId_congr {ids ids' : Identity α → Option ℕ} {valueKind : Kind} {type : α}
    (h : valueKind.isComplexKind = true → ids' (.type type) = ids (.type type)) :
    childId ids' valueKind type = childId ids valueKind type := by
  rw [childId, childId]
  split
  · next hcomplex => rw [h hcomplex]
  · rfl

/-- What a field refers to. -/
theorem child_field {a : α} {index : ℕ} {field : Field α} (h : FieldAt G a index field) :
    (field.repeated = true → Child G (.type a) (.field a index)) ∧
      (field.repeated = false → field.valueKind.isComplexKind = true →
        Child G (.type a) (.type (G.target (.field a index)))) :=
  ⟨fun hrepeated => h.refers hrepeated _,
    fun hsingle hcomplex => (Asks.field h hsingle hcomplex).refers _⟩

/-- What a type, or a repeated field, refers to if its values are complex. -/
theorem child_container {x : Identity α} (h : Asks G x x) : Child G x (.type (G.target x)) :=
  h.refers _

/-- A type depends on the numbers of its children only. -/
theorem tapeOf_congr {ids ids' : Identity α → Option ℕ} {x : Identity α}
    (h : ∀ y, Child G x y → ids' y = ids y) :
    tapeOf G ids' x = tapeOf G ids x := by
  -- A type itself by its shape, and the container of a repeated field by the keys of the field.
  rcases x with a | ⟨a, index⟩
  · rw [tapeOf, tapeOf]
    cases hshape : G.shape a with
    | message fields =>
      have hfields : fields.mapIdx (fieldTape G ids' a) = fields.mapIdx (fieldTape G ids a) := by
        refine List.ext_getElem? fun index => ?_
        rw [List.getElem?_mapIdx, List.getElem?_mapIdx]
        cases hindex : fields[index]? with
        | none => rfl
        | some field =>
          obtain ⟨hrepeated, hsingle⟩ :=
            child_field (⟨fields, hshape, hindex⟩ : FieldAt G a index field)
          rw [Option.map_some, Option.map_some, fieldTape, fieldTape]
          cases hr : field.repeated with
          | true => rw [if_pos rfl, if_pos rfl, h _ (hrepeated hr)]
          | false =>
            rw [if_neg Bool.false_ne_true, if_neg Bool.false_ne_true,
              childId_congr fun hcomplex => h _ (hsingle hr hcomplex)]
      simp only [hfields]
    | array valueKind =>
      simp only
      rw [childId_congr fun hcomplex =>
        h _ (child_container (.container (by rwa [valueKindOf, hshape])))]
    | map keyKind valueKind =>
      simp only
      rw [childId_congr fun hcomplex =>
        h _ (child_container (.container (by rwa [valueKindOf, hshape])))]
  · rw [tapeOf, tapeOf]
    cases hindex : (G.shape a).fields[index]? with
    | none => rfl
    | some field =>
      cases hshape : G.shape a with
      | message fields =>
        rw [hshape] at hindex
        simp only
        rw [childId_congr fun hcomplex =>
          h _ (child_container (.repeated ⟨fields, hshape, hindex⟩ hcomplex))]
      | array valueKind =>
        rw [hshape] at hindex
        cases hindex
      | map keyKind valueKind =>
        rw [hshape] at hindex
        cases hindex

/-! ## Numbers that are given -/

/-- A number stands for a type, with what this refers to. -/
structure Compiled (G : Graph α) (c : Compiling α) (x : Identity α) (id : ℕ) : Prop where
  type : c.types[id]? = some (some (tapeOf G c.typeIds x))
  children : ∀ y, Child G x y → c.typeIds y ≠ none

/-- Numbers are kept, and the types that were there, set or not; the others are set. -/
structure Extends (G : Graph α) (c c' : Compiling α) : Prop where
  kept : ∀ x id, c.typeIds x = some id → c'.typeIds x = some id
  length_le : c.types.length ≤ c'.types.length
  same : ∀ id < c.types.length, c'.types[id]? = c.types[id]?
  added : ∀ x id, c.typeIds x = none → c'.typeIds x = some id →
    c.types.length ≤ id ∧ Compiled G c' x id
  filled : ∀ id ≥ c.types.length, c'.types[id]? ≠ some none

theorem Extends.refl (c : Compiling α) : Extends G c c where
  kept _ _ h := h
  length_le := le_rfl
  same _ _ := rfl
  added x id hnone hsome := by
    rw [hnone] at hsome
    cases hsome
  filled id h := by
    rw [List.getElem?_eq_none h]
    exact fun h => by cases h

theorem Extends.mem {c c' : Compiling α} (h : Extends G c c') {x : Identity α}
    (hx : c.typeIds x ≠ none) :
    c'.typeIds x ≠ none := by
  obtain ⟨id, hid⟩ := Option.ne_none_iff_exists'.1 hx
  rw [h.kept x id hid]
  exact Option.some_ne_none id

/-- A type stays as it is. -/
theorem Extends.tapeOf_eq {c c' : Compiling α} (h : Extends G c c') {x : Identity α}
    (hchildren : ∀ y, Child G x y → c.typeIds y ≠ none) :
    tapeOf G c'.typeIds x = tapeOf G c.typeIds x := by
  refine tapeOf_congr fun y hy => ?_
  obtain ⟨id, hid⟩ := Option.ne_none_iff_exists'.1 (hchildren y hy)
  rw [hid, h.kept y id hid]

theorem Extends.compiled {c c' : Compiling α} (h : Extends G c c') {x : Identity α} {id : ℕ}
    (hx : Compiled G c x id) :
    Compiled G c' x id where
  type := by
    obtain ⟨hlt, -⟩ := List.getElem?_eq_some_iff.1 hx.type
    rw [h.same id hlt, hx.type, h.tapeOf_eq hx.children]
  children y hy := h.mem (hx.children y hy)

theorem Extends.trans {c c' c'' : Compiling α} (h : Extends G c c') (h' : Extends G c' c'') :
    Extends G c c'' where
  kept x id hid := h'.kept x id (h.kept x id hid)
  length_le := h.length_le.trans h'.length_le
  same id hid := (h'.same id (hid.trans_le h.length_le)).trans (h.same id hid)
  added x id hnone hsome := by
    rcases hx : c'.typeIds x with _ | id'
    · obtain ⟨hle, hcompiled⟩ := h'.added x id hx hsome
      exact ⟨h.length_le.trans hle, hcompiled⟩
    · have heq := h'.kept x id' hx
      rw [hsome] at heq
      cases heq
      obtain ⟨hle, hcompiled⟩ := h.added x id hnone hx
      exact ⟨hle, h'.compiled hcompiled⟩
  filled id hid := by
    rcases Nat.lt_or_ge id c'.types.length with hlt | hge
    · rw [h'.same id hlt]
      exact h.filled id hid
    · exact h'.filled id hge

/-! ## The calls -/

section

variable [DecidableEq α]

/-- A type has a number, and is not set yet. -/
def entered (c : Compiling α) (x : Identity α) : Compiling α :=
  ⟨c.types ++ [none], Function.update c.typeIds x (some c.types.length)⟩

theorem entered_self (c : Compiling α) (z : Identity α) :
    (entered c z).typeIds z = some c.types.length :=
  Function.update_self ..

theorem entered_of_ne {c : Compiling α} {x z : Identity α} (h : x ≠ z) :
    (entered c z).typeIds x = c.typeIds x :=
  Function.update_of_ne h ..

/-- A type is set, once what it refers to has numbers. -/
theorem Extends.finish {c d : Compiling α} {z : Identity α} (hz : c.typeIds z = none)
    (h : Extends G (entered c z) d) (hchildren : ∀ y, Child G z y → d.typeIds y ≠ none) :
    d.typeIds z = some c.types.length ∧
      Extends G c { d with types := d.types.set c.types.length (some (tapeOf G d.typeIds z)) } := by
  have hlength : (entered c z).types.length = c.types.length + 1 := List.length_append
  have hself : d.typeIds z = some c.types.length := h.kept z _ (entered_self c z)
  have hle := h.length_le
  rw [hlength] at hle
  refine ⟨hself, fun x id hid => ?_, ?_, fun id hid => ?_, fun x id hnone hsome => ?_,
    fun id hid => ?_⟩
  · refine h.kept x id ?_
    rw [entered_of_ne]
    · exact hid
    · rintro rfl
      rw [hz] at hid
      cases hid
  · rw [List.length_set]
    exact (Nat.le_succ _).trans hle
  · rw [List.getElem?_set_ne hid.ne', h.same id (by rw [hlength]; exact Nat.lt_succ_of_lt hid),
      entered, List.getElem?_append_left hid]
  · rcases eq_or_ne x z with rfl | hne
    · rw [hself] at hsome
      cases hsome
      exact ⟨le_rfl, List.getElem?_set_self hle, hchildren⟩
    · obtain ⟨hge, htype, hrest⟩ := h.added x id ((entered_of_ne hne).trans hnone) hsome
      rw [hlength] at hge
      refine ⟨(Nat.le_succ _).trans hge, ?_, hrest⟩
      rw [List.getElem?_set_ne (Nat.lt_of_succ_le hge).ne]
      exact htype
  · rcases eq_or_lt_of_le hid with rfl | hlt
    · rw [List.getElem?_set_self hle]
      exact fun h => by cases h
    · rw [List.getElem?_set_ne hlt.ne]
      exact h.filled id (by rw [hlength]; exact hlt)

variable {out : Outside G} {next : α → Run (Compiling α) (Thrown α) ℕ}

/-- What is known of the call for a type. -/
def Numbers (G : Graph α) (next : α → Run (Compiling α) (Thrown α) ℕ) : Prop :=
  ∀ b c, Triple (fun d => d = c) (next b)
    (fun id d => d.typeIds (.type b) = some id ∧ Extends G c d) fun _ _ => True

theorem enter_spec (x : Identity α) (c : Compiling α) :
    Triple (fun d => d = c) (enter x) (fun id d => id = c.types.length ∧ d = entered c x) fun _ _ =>
      True := by
  rintro _ rfl
  exact ⟨rfl, rfl⟩

omit [DecidableEq α] in
/-- A resolver gives the type that it stands for, if its answer is of the right kind. -/
theorem resolveTapeType_spec (x : Identity α) (c : Compiling α) :
    Triple (fun d => d = c) (resolveTapeType out x) (fun b d => d = c ∧ b = G.target x) fun _ _ =>
      True := by
  have hask : Triple (fun d => d = c) (ask (out.resolver x) : Run (Compiling α) (Thrown α) α)
      (fun b d => d = c ∧ out.resolver x = .ok b) fun _ _ => True := by
    rintro _ rfl
    cases hresolver : out.resolver x with
    | error e => trivial
    | ok b => exact ⟨rfl, rfl⟩
  refine hask.bind fun b => ?_
  split
  · next hkind => exact Triple.pure fun d h => ⟨h.1, out.resolver_kind x b h.2 hkind⟩
  · exact Triple.throw fun _ _ => trivial

theorem addContainer_spec {x : Identity α} {type : ℕ → TapeType α} {valueKind : Kind}
    (c : Compiling α) (hnext : Numbers G next)
    (htape : ∀ ids, tapeOf G ids x = type (childId ids valueKind (G.target x)))
    (hchild : ∀ y, Child G x y → y = .type (G.target x) ∧ valueKind.isComplexKind = true) :
    Triple (fun d => d = c) (addContainer out next x type valueKind)
      (fun id d => d.typeIds x = some id ∧ Extends G c d) fun _ _ => True := by
  intro d hd
  subst d
  rw [addContainer]
  rcases hx : c.typeIds x with _ | id
  swap
  · exact ⟨hx, .refl c⟩
  refine ((enter_spec x c).bind fun id => ?_) c rfl
  -- The child is there, and then the type is set.
  refine Triple.bind (M := fun child d => id = c.types.length ∧ Extends G (entered c x) d ∧
    child = childId d.typeIds valueKind (G.target x) ∧
    (valueKind.isComplexKind = true → d.typeIds (.type (G.target x)) ≠ none)) ?_ fun child => ?_
  · rintro _ ⟨rfl, rfl⟩
    by_cases hcomplex : valueKind.isComplexKind = true
    · rw [if_pos hcomplex]
      refine ((resolveTapeType_spec x (entered c x)).bind fun b => ?_) _ rfl
      rintro _ ⟨rfl, rfl⟩
      refine ((hnext _ _).conseq (fun _ h => h) (fun child d h => ⟨rfl, h.2, ?_, fun _ => ?_⟩)
        fun _ _ h => h) _ rfl
      · rw [childId, if_pos hcomplex, h.1, Option.getD_some]
      · rw [h.1]
        exact Option.some_ne_none child
    · rw [if_neg hcomplex]
      exact ⟨rfl, .refl _, by rw [childId, if_neg hcomplex], fun h => absurd h hcomplex⟩
  · rintro d ⟨rfl, hextends, rfl, hmem⟩
    have hfinish := hextends.finish hx fun y hy => (hchild y hy).1 ▸ hmem (hchild y hy).2
    rw [htape] at hfinish
    exact hfinish

/-- The array or the map that a repeated field is. -/
theorem addContainer_field {a : α} {index : ℕ} {field : Field α} (c : Compiling α)
    (hnext : Numbers G next) (hfield : FieldAt G a index field) :
    Triple (fun d => d = c)
      (addContainer out next (.field a index) (containerTape field) field.valueKind)
      (fun id d => d.typeIds (.field a index) = some id ∧ Extends G c d) fun _ _ => True := by
  refine addContainer_spec c hnext (fun ids => ?_) fun y hy => ?_
  · obtain ⟨fields, hshape, hindex⟩ := hfield
    simp only [tapeOf, Shape.fields, hshape, hindex]
  · have hrefers : containerChild field.valueKind (G.target (.field a index)) = some y := by
      rw [Child, hfield.content_eq, fieldContainer] at hy
      split at hy
      · exact hy
      · exact hy
    rw [containerChild] at hrefers
    split at hrefers
    · next hcomplex =>
      cases hrefers
      exact ⟨rfl, hcomplex⟩
    · cases hrefers

/-- The child of a field. -/
theorem addField_spec {a : α} {index : ℕ} {field : Field α} (c : Compiling α)
    (hnext : Numbers G next) (hfield : FieldAt G a index field) :
    Triple (fun d => d = c) (addField out next a index field)
      (fun child d => Extends G c d ∧ ⟨field.name, field.kind, child, defaultForField field⟩ =
        fieldTape G d.typeIds a index field ∧
        (field.repeated = true → d.typeIds (.field a index) ≠ none) ∧
        (field.repeated = false → field.valueKind.isComplexKind = true →
          d.typeIds (.type (G.target (.field a index))) ≠ none)) fun _ _ => True := by
  rw [addField]
  cases hrepeated : field.repeated with
  | true =>
    rw [if_pos rfl]
    refine (addContainer_field c hnext hfield).conseq (fun _ h => h)
      (fun child d h => ⟨h.2, ?_, fun _ => ?_, fun h => by cases h⟩)
      fun _ _ h => h
    · rw [fieldTape, hrepeated, if_pos rfl, h.1, Option.getD_some]
    · rw [h.1]
      exact Option.some_ne_none child
  | false =>
    rw [if_neg Bool.false_ne_true]
    by_cases hcomplex : field.valueKind.isComplexKind = true
    · rw [if_pos hcomplex]
      refine (resolveTapeType_spec (.field a index) c).bind fun b => ?_
      rintro _ ⟨rfl, rfl⟩
      refine ((hnext _ _).conseq (fun _ h => h)
        (fun child d h => ⟨h.2, ?_, fun h => (by cases h), fun _ _ => ?_⟩) fun _ _ h => h) _ rfl
      · rw [fieldTape, hrepeated, if_neg Bool.false_ne_true, childId, if_pos hcomplex, h.1,
          Option.getD_some]
      · rw [h.1]
        exact Option.some_ne_none child
    · rw [if_neg hcomplex]
      refine Triple.pure ?_
      rintro _ rfl
      refine ⟨.refl _, ?_, fun h => (by cases h), fun _ h => absurd h hcomplex⟩
      rw [fieldTape, hrepeated, if_neg Bool.false_ne_true, childId, if_neg hcomplex]

omit [DecidableEq α] in
/-- A field depends on the number of its type only. -/
theorem fieldTape_congr {ids ids' : Identity α → Option ℕ} {a : α} {index : ℕ} {field : Field α}
    (hrepeated : field.repeated = true → ids' (.field a index) = ids (.field a index))
    (hsingle : field.repeated = false → field.valueKind.isComplexKind = true →
      ids' (.type (G.target (.field a index))) = ids (.type (G.target (.field a index)))) :
    fieldTape G ids' a index field = fieldTape G ids a index field := by
  rw [fieldTape, fieldTape]
  cases hr : field.repeated with
  | true => rw [if_pos rfl, if_pos rfl, hrepeated hr]
  | false => rw [if_neg Bool.false_ne_true, if_neg Bool.false_ne_true, childId_congr (hsingle hr)]

/-- The fields of a message have numbers for what they refer to. -/
def Known (G : Graph α) (c : Compiling α) (a : α) (fields : List (Field α)) (index : ℕ) : Prop :=
  ∀ (j : ℕ) field, fields[j]? = some field →
    (field.repeated = true → c.typeIds (.field a (index + j)) ≠ none) ∧
      (field.repeated = false → field.valueKind.isComplexKind = true →
        c.typeIds (.type (G.target (.field a (index + j)))) ≠ none)

/-- The fields of a message, by induction on those that are left. -/
theorem addFields_spec {a : α} {fields : List (Field α)} {index : ℕ} (c : Compiling α)
    (hnext : Numbers G next)
    (hfields : ∀ (j : ℕ) field, fields[j]? = some field → FieldAt G a (index + j) field) :
    Triple (fun d => d = c) (addFields out next a fields index)
      (fun tapes d => Extends G c d ∧ tapes =
        fields.mapIdx (fun j => fieldTape G d.typeIds a (index + j)) ∧
        Known G d a fields index) fun _ _ => True := by
  induction fields generalizing index c with
  | nil =>
    refine Triple.pure ?_
    rintro _ rfl
    exact ⟨.refl _, rfl, fun j field h => by cases h⟩
  | cons field fields ih =>
    rw [addFields]
    refine (addField_spec c hnext (hfields 0 field rfl)).bind fun child => ?_
    rintro d ⟨hextends, htape, hrepeated, hsingle⟩
    have hrest := @ih (index + 1) d fun j field hj => by
      have h := hfields (j + 1) field hj
      rwa [Nat.add_comm j, ← Nat.add_assoc] at h
    refine (hrest.bind fun tapes => Triple.pure fun e he => ?_) d rfl
    obtain ⟨hextends', rfl, hknown⟩ := he
    have hkeep : ∀ x, d.typeIds x ≠ none → e.typeIds x = d.typeIds x := by
      intro x hx
      obtain ⟨id, hid⟩ := Option.ne_none_iff_exists'.1 hx
      rw [hid, hextends'.kept x id hid]
    refine ⟨hextends.trans hextends', ?_, fun j field' hj => ?_⟩
    · rw [List.mapIdx_cons, htape]
      refine congrArg₂ List.cons (fieldTape_congr (fun h => hkeep _ (hrepeated h)) fun h h' =>
        hkeep _ (hsingle h h')).symm ?_
      exact congrArg (fun f => fields.mapIdx f) (funext fun j => by
        rw [Nat.add_assoc, Nat.add_comm 1 j])
    · cases j with
      | zero =>
        cases hj
        exact ⟨fun h => hextends'.mem (hrepeated h), fun h h' => hextends'.mem (hsingle h h')⟩
      | succ j =>
        have h := hknown j field' hj
        rwa [Nat.add_assoc, Nat.add_comm 1 j] at h

omit [DecidableEq α] in
/-- What a message refers to. -/
theorem child_message {a : α} {fields : List (Field α)} (hshape : G.shape a = .message fields)
    {y : Identity α} (h : Child G (.type a) y) :
    ∃ (j : ℕ) (field : Field α), fields[j]? = some field ∧
      (field.repeated = true ∧ y = .field a j ∨
        field.repeated = false ∧ field.valueKind.isComplexKind = true ∧
          y = .type (G.target (.field a j))) := by
  rw [Child, content, hshape] at h
  obtain ⟨node, hnode, hchild⟩ := h
  obtain ⟨j, hj⟩ := List.mem_iff_getElem?.1 hnode
  rw [List.getElem?_mapIdx] at hj
  obtain ⟨field, hfield, rfl⟩ := Option.map_eq_some_iff.1 hj
  refine ⟨j, field, hfield, ?_⟩
  rw [fieldContent] at hchild
  cases hrepeated : field.repeated with
  | true =>
    rw [hrepeated, if_pos rfl] at hchild
    cases hchild
    exact .inl ⟨rfl, rfl⟩
  | false =>
    rw [hrepeated, if_neg Bool.false_ne_true, containerChild] at hchild
    split at hchild
    · next hcomplex =>
      cases hchild
      exact .inr ⟨rfl, hcomplex, rfl⟩
    · cases hchild

/-- A call for a type: by induction on how deep its calls are nested. -/
theorem addRuntimeType_spec (fuel : ℕ) : Numbers G (addRuntimeType out fuel) := by
  induction fuel with
  | zero => exact fun _ _ _ _ => trivial
  | succ fuel ih =>
    intro a c d hd
    subst d
    simp only [addRuntimeType]
    rcases hx : c.typeIds (.type a) with _ | id
    swap
    · exact ⟨hx, .refl c⟩
    -- The only child of an array or a map is the type that the resolver gives.
    have hcontainer : ∀ valueKind, (∀ fields, G.shape a ≠ .message fields) →
      valueKindOf G.shape (.type a) = valueKind →
        ∀ y, Child G (.type a) y → y = .type (G.target (.type a)) ∧
          valueKind.isComplexKind = true := by
      intro valueKind hshape hkind y hy
      have hrefers : containerChild valueKind (G.target (.type a)) = some y := by
        rw [Child, content] at hy
        rw [valueKindOf] at hkind
        cases hs : G.shape a with
        | message fields => exact absurd hs (hshape fields)
        | array valueKind' =>
          rw [hs] at hy hkind
          cases hkind
          exact hy
        | map keyKind valueKind' =>
          rw [hs] at hy hkind
          cases hkind
          exact hy
      rw [containerChild] at hrefers
      split at hrefers
      · next hcomplex =>
        cases hrefers
        exact ⟨rfl, hcomplex⟩
      · cases hrefers
    rcases hshape : G.shape a with fields | valueKind | ⟨keyKind, valueKind⟩
    · -- A message: it has a number before its fields are there.
      refine ((enter_spec (.type a) c).bind fun id => ?_) c rfl
      rintro _ ⟨rfl, rfl⟩
      have hfields :=
        @addFields_spec _ _ _ out _ a fields 0 (entered c (.type a)) ih fun j field hj =>
        ⟨fields, hshape, by rwa [Nat.zero_add]⟩
      refine (hfields.bind fun tapes => ?_) _ rfl
      rintro d ⟨hextends, rfl, hknown⟩
      have hfinish := hextends.finish hx fun y hy => by
        obtain ⟨j, field, hj, ⟨hrepeated, rfl⟩ | ⟨hsingle, hcomplex, rfl⟩⟩ :=
          child_message hshape hy
        · have h := (hknown j field hj).1 hrepeated
          rwa [Nat.zero_add] at h
        · have h := (hknown j field hj).2 hsingle hcomplex
          rwa [Nat.zero_add] at h
      have htape : tapeOf G d.typeIds (.type a) =
        .message a (fields.mapIdx fun j => fieldTape G d.typeIds a (0 + j))
          (((fields.mapIdx fun j => fieldTape G d.typeIds a (0 + j)).length + 31) / 32) := by
        simp only [tapeOf, hshape, Nat.zero_add, List.length_mapIdx]
      rw [htape] at hfinish
      exact hfinish
    · refine addContainer_spec c ih (fun ids => ?_)
        (hcontainer valueKind (fun fields h => ?_) ?_) c rfl
      · rw [tapeOf, hshape]
      · rw [hshape] at h
        cases h
      · rw [valueKindOf, hshape]
    · refine addContainer_spec c ih (fun ids => ?_)
        (hcontainer valueKind (fun fields h => ?_) ?_) c rfl
      · rw [tapeOf, hshape]
      · rw [hshape] at h
        cases h
      · rw [valueKindOf, hshape]

/-! ## Plans -/

/-- A plan is as the graph says: the types that have numbers are, and what they refer to has a
    number too. -/
structure PlanFor (G : Graph α) (a : α) (plan : DecodePlan α) (ids : Identity α → Option ℕ) :
    Prop where
  root : ids (.type a) = some plan.root
  types : ∀ x i, ids x = some i → plan.types[i]? = some (tapeOf G ids x)
  children : ∀ x y, ids x ≠ none → Child G x y → ids y ≠ none

/-- The plans that are kept are as the graph says. -/
def Plans.Valid (G : Graph α) (plans : Plans α) : Prop :=
  ∀ a plan, plans a = some plan → ∃ ids, PlanFor G a plan ids

omit [DecidableEq α] in
theorem Plans.valid_none : Plans.Valid G fun _ => none := fun a plan h => by cases h

theorem map_some_filterMap {β : Type} {l : List (Option β)} (h : ∀ i : ℕ, l[i]? ≠ some none) :
    (l.filterMap id).map some = l := by
  induction l with
  | nil => rfl
  | cons o l ih =>
    cases o with
    | none => exact absurd rfl (h 0)
    | some b => exact congrArg (some b :: ·) (ih fun i => h (i + 1))

/-- A call leaves plans that are as the graph says, and so is the one that it returns. -/
theorem compilePlan_spec (out : Outside G) (fuel : ℕ) (a : α) :
    Triple (Plans.Valid G) (compilePlan out fuel a) (fun plan plans => Plans.Valid G plans ∧ ∃ ids,
      PlanFor G a plan ids)
      fun _ plans => Plans.Valid G plans := by
  intro plans hplans
  rw [compilePlan]
  rcases hplan : plans a with _ | plan
  swap
  · exact ⟨hplans, hplans a plan hplan⟩
  have hspec := @addRuntimeType_spec _ _ _ out fuel a ⟨[], fun _ => none⟩ _ rfl
  dsimp only
  rcases hrun : addRuntimeType out fuel a ⟨[], fun _ => none⟩ with _ | ⟨e | root, c⟩
  · trivial
  · exact hplans
  · rw [hrun] at hspec
    obtain ⟨hroot, hextends⟩ := hspec
    have htypes : (c.types.filterMap id).map some = c.types :=
      map_some_filterMap fun i => hextends.filled i (Nat.zero_le i)
    have hplan : PlanFor G a ⟨root, c.types.filterMap id⟩ c.typeIds := by
      refine ⟨hroot, fun x i hi => ?_, fun x y hx hy => ?_⟩
      · have htype := (hextends.added x i rfl hi).2.type
        rw [← htypes, List.getElem?_map] at htype
        obtain ⟨type, htype, heq⟩ := Option.map_eq_some_iff.1 htype
        cases heq
        exact htype
      · obtain ⟨i, hi⟩ := Option.ne_none_iff_exists'.1 hx
        exact (hextends.added x i rfl hi).2.children y hy
    refine ⟨fun b plan hb => ?_, _, hplan⟩
    rcases eq_or_ne b a with rfl | hne
    · rw [Function.update_self] at hb
      cases hb
      exact ⟨_, hplan⟩
    · rw [Function.update_of_ne hne] at hb
      exact hplans b plan hb

/-! ## Calls that return -/

variable [Finite α]

/-- Fewer than `n` types have no number. -/
def Misses (n : ℕ) (c : Compiling α) : Prop := {a | c.typeIds (.type a) = none}.ncard < n

omit [DecidableEq α] in
theorem Misses.of_extends {n : ℕ} {c d : Compiling α} (h : Misses n c) (hcd : Extends G c d) :
    Misses n d := by
  refine (Set.ncard_le_ncard (fun a ha => ?_) (Set.toFinite _)).trans_lt h
  by_contra hne
  exact hcd.mem hne ha

theorem Misses.entered {n : ℕ} {c : Compiling α} (h : Misses n c) (x : Identity α) :
    Misses n (entered c x) := by
  refine (Set.ncard_le_ncard (fun a ha => ?_) (Set.toFinite _)).trans_lt h
  rcases eq_or_ne (Identity.type a) x with rfl | hne
  · rw [Set.mem_ofPred_eq, entered_self] at ha
    cases ha
  · rwa [Set.mem_ofPred_eq, entered_of_ne hne] at ha

/-- One more type has a number. -/
theorem Misses.entered_type {n : ℕ} {c : Compiling α} {a : α} (h : Misses (n + 1) c)
    (ha : c.typeIds (.type a) = none) :
    Misses n (Typescript.entered c (.type a)) := by
  refine Nat.lt_of_lt_of_le (Set.ncard_lt_ncard ⟨fun b hb => ?_, fun hsub => ?_⟩ (Set.toFinite _))
    (Nat.le_of_lt_succ h)
  · rcases eq_or_ne b a with rfl | hne
    · exact ha
    · rwa [Set.mem_ofPred_eq, entered_of_ne (by rintro ⟨⟩; exact hne rfl)] at hb
  · have hmem := hsub ha
    rw [Set.mem_ofPred_eq, entered_self] at hmem
    cases hmem

omit [DecidableEq α] [Finite α] in
/-- If nothing fails, a resolver gives its type. -/
theorem resolveTapeType_returns {x : Identity α} {P : Compiling α → Prop}
    (h : (valueKindOf G.shape x).isComplexKind) :
    Returns P (resolveTapeType (Outside.sound G) x) fun _ => P := by
  have hask : Returns P (ask ((Outside.sound G).resolver x) : Run (Compiling α) (Thrown α) α)
      fun b d => b = G.target x ∧ P d := fun c hc => ⟨_, c, rfl, rfl, hc⟩
  refine hask.bind fun b => ?_
  split
  · exact .pure fun _ h => h.2
  · next hkind =>
    rintro c ⟨rfl, -⟩
    exact absurd (G.target_kind x h) hkind

omit [Finite α] in
theorem addContainer_returns {n : ℕ} {x : Identity α} {type : ℕ → TapeType α} {valueKind : Kind}
    (hnext : ∀ b, Returns (Misses n) (next b) fun _ => Misses n)
    (hkind : valueKind.isComplexKind = true → (valueKindOf G.shape x).isComplexKind) :
    Returns (fun c => if c.typeIds x = none then Misses n (entered c x) else Misses n c)
      (addContainer (Outside.sound G) next x type valueKind) fun _ => Misses n := by
  intro c hc
  rw [addContainer]
  rcases hx : c.typeIds x with _ | id
  · rw [if_pos hx] at hc
    have henter : Returns (fun d => d = c) (enter x) fun _ => Misses n := by
      rintro _ rfl
      exact ⟨_, _, rfl, hc⟩
    have hfinish : ∀ id type,
      Returns (Misses n) (finish id type : Run (Compiling α) (Thrown α) PUnit) fun _ => Misses n :=
      fun id type d hd => ⟨⟨⟩, _, rfl, hd⟩
    refine (henter.bind fun id => ?_) c rfl
    refine Returns.bind (M := fun _ => Misses n) ?_ fun child =>
      (hfinish id (type child)).bind fun _ => .pure fun _ h => h
    split
    · next hcomplex => exact (resolveTapeType_returns (hkind hcomplex)).bind fun b => hnext b
    · exact .pure fun _ h => h
  · rw [if_neg (by rw [hx]; exact Option.some_ne_none id)] at hc
    exact ⟨id, c, rfl, hc⟩

omit [Finite α] in
theorem addFields_returns {n : ℕ} {a : α} {fields : List (Field α)} {index : ℕ}
    (hnext : ∀ b, Returns (Misses n) (next b) fun _ => Misses n)
    (hfields : ∀ (j : ℕ) field, fields[j]? = some field → FieldAt G a (index + j) field)
    (hmisses : ∀ (c : Compiling α) x, Misses n c → Misses n (entered c x)) :
    Returns (Misses n) (addFields (Outside.sound G) next a fields index) fun _ => Misses n := by
  induction fields generalizing index with
  | nil => exact .pure fun _ h => h
  | cons field fields ih =>
    have hkind : valueKindOf G.shape (.field a index) = field.valueKind :=
      (hfields 0 field rfl).valueKindOf
    have hchild : Returns (Misses n) (addField (Outside.sound G) next a index field) fun _ =>
        Misses n := by
      rw [addField]
      split
      · refine (addContainer_returns hnext fun h => by rwa [hkind]).conseq (fun c hc => ?_)
          fun _ _ h => h
        split
        · exact hmisses c _ hc
        · exact hc
      · split
        · next hcomplex =>
          exact (resolveTapeType_returns (by rwa [hkind])).bind fun b => hnext b
        · exact .pure fun _ h => h
    refine hchild.bind fun child => Returns.bind (ih fun j field hj => ?_) fun rest =>
      .pure fun _ h => h
    have h := hfields (j + 1) field hj
    rwa [Nat.add_comm j, ← Nat.add_assoc] at h

theorem addRuntimeType_returns (fuel : ℕ) (a : α) :
    Returns (Misses fuel) (addRuntimeType (Outside.sound G) fuel a) fun _ _ => True := by
  induction fuel generalizing a with
  | zero => exact fun c hc => absurd hc (Nat.not_lt_zero _)
  | succ fuel ih =>
    have hnext : ∀ b, Returns (Misses fuel) (addRuntimeType (Outside.sound G) fuel b) fun _ =>
        Misses fuel := by
      intro b c hc
      obtain ⟨id, d, hrun, -⟩ := ih b c hc
      exact ⟨id, d, hrun, hc.of_extends ((addRuntimeType_spec fuel b c).of_ok rfl hrun).2⟩
    intro c hc
    simp only [addRuntimeType]
    rcases hx : c.typeIds (.type a) with _ | id
    swap
    · exact ⟨_, c, rfl, trivial⟩
    have hentered := hc.entered_type hx
    rcases hshape : G.shape a with fields | valueKind | ⟨keyKind, valueKind⟩
    · have henter : Returns (fun d => d = c) (enter (.type a)) fun _ => Misses fuel := by
        rintro _ rfl
        exact ⟨_, _, rfl, hentered⟩
      have hfields := @addFields_returns _ G _ _ fuel a fields 0 hnext
        (fun j field hj => ⟨fields, hshape, by rwa [Nat.zero_add]⟩) fun c x hc => hc.entered x
      refine (henter.bind fun id => hfields.bind fun tapes => ?_) c rfl
      exact fun d _ => ⟨id, _, rfl, trivial⟩
    · refine ((addContainer_returns hnext fun h => ?_).conseq (fun _ h => h) fun _ _ _ => trivial) c
        ?_
      · rwa [valueKindOf, hshape]
      · dsimp only
        rw [if_pos hx]
        exact hentered
    · refine ((addContainer_returns hnext fun h => ?_).conseq (fun _ h => h) fun _ _ _ => trivial) c
        ?_
      · rwa [valueKindOf, hshape]
      · dsimp only
        rw [if_pos hx]
        exact hentered

/-- If nothing fails, a call returns, however the types refer to each other. -/
theorem compilePlan_returns (fuel : ℕ) (hfuel : Nat.card α < fuel) (a : α) :
    Returns (fun _ => True) (compilePlan (Outside.sound G) fuel a) fun _ _ => True := by
  intro plans _
  rw [compilePlan]
  rcases plans a with _ | plan
  · have hmisses : Misses fuel (⟨[], fun _ => none⟩ : Compiling α) := by
      rw [Misses, show {a : α | (none : Option ℕ) = none} = Set.univ from
        Set.eq_univ_of_forall fun _ => rfl, Set.ncard_univ]
      exact hfuel
    obtain ⟨root, c, hrun, -⟩ := addRuntimeType_returns (G := G) fuel a _ hmisses
    dsimp only
    rw [hrun]
    exact ⟨_, _, rfl, trivial⟩
  · exact ⟨plan, plans, rfl, trivial⟩

end

end

end ProtoCache.Typescript

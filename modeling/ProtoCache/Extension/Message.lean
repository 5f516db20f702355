import Mathlib
import ProtoCache.Lib.Pointwise

/-!
# Messages of Protobuf

The types and values that `src/extension/serialize.cc` and `src/extension/deserialize.cc`
reach by reflection: descriptors of fields, and messages with a slot for every field.

* A map has no order: `Value.Same`.
* Fields that are deprecated, and singular messages in which nothing is set, are not
  kept: `Value.canon`.
-/

namespace ProtoCache.Extension

/-- `FieldDescriptor::Type`; a message is told by its number in a schema. -/
inductive FieldType
  | double | float | int64 | uint64 | int32 | fixed64 | fixed32 | bool | string | group
  | message (name : ℕ)
  | bytes | uint32 | enum | sfixed32 | sfixed64 | sint32 | sint64
  deriving DecidableEq

/-- A field: a singular one, or else `is_repeated()`, for a map with the types of its keys
    and values. -/
inductive FieldKind
  | single (type : FieldType)
  | repeated (type : FieldType)
  | map (key value : FieldType)
  deriving DecidableEq

/-- `FieldDescriptor`. -/
structure FieldDescriptor where
  name : String
  number : ℕ
  deprecated : Bool := false
  kind : FieldKind
  deriving DecidableEq

/-- The fields of the messages, in the order in which they are declared. -/
abbrev Descriptors := ℕ → List FieldDescriptor

/-- The cases of the switches over the type of a field; a group is in none of them. -/
inductive Form
  | message (name : ℕ)
  | str | w64 | w32 | bool | other
  deriving DecidableEq

/-- The case of a type. -/
def FieldType.form : FieldType → Form
  | .message name => .message name
  | .bytes | .string => .str
  | .double | .fixed64 | .uint64 | .sfixed64 | .sint64 | .int64 => .w64
  | .float | .fixed32 | .uint32 | .sfixed32 | .sint32 | .int32 | .enum => .w32
  | .bool => .bool
  | .group => .other

/-- The cases of the switches over the type of a key. -/
def FieldType.keyForm : FieldType → Form
  | .bytes | .string => .str
  | .fixed64 | .uint64 | .sfixed64 | .sint64 | .int64 => .w64
  | .fixed32 | .uint32 | .sfixed32 | .sint32 | .int32 => .w32
  | _ => .other

/-- The field of an alias message: the only one, named `_`, with the number 1. -/
def aliasField : List FieldDescriptor → Option FieldDescriptor
  | [f] => if f.name = "_" ∧ f.number = 1 then some f else none
  | _ => none

/-- The keys of maps. -/
inductive Key
  | w32 (x : UInt32)
  | w64 (x : UInt64)
  | str (s : List UInt8)
  deriving DecidableEq

mutual

/-- The values of singular fields, and the elements of the others; a number is told by its
    bits. -/
inductive Value
  | w32 (x : UInt32)
  | w64 (x : UInt64)
  | bool (x : Bool)
  | str (s : List UInt8)
  | message (slots : List Slot)

/-- What a message has for a field. -/
inductive Slot
  | absent
  | one (v : Value)
  | repeated (vs : List Value)
  | map (pairs : List (Key × Value))

end

/-- A property of values and of slots that is handed on from their parts. -/
theorem induction {P : Value → Prop} {Q : Slot → Prop} (hw32 : ∀ x, P (.w32 x))
    (hw64 : ∀ x, P (.w64 x)) (hbool : ∀ x, P (.bool x)) (hstr : ∀ s, P (.str s))
    (hmessage : ∀ slots, (∀ s ∈ slots, Q s) → P (.message slots)) (habsent : Q .absent)
    (hone : ∀ v, P v → Q (.one v)) (hrepeated : ∀ vs, (∀ v ∈ vs, P v) → Q (.repeated vs))
    (hmap : ∀ pairs, (∀ p ∈ pairs, P p.2) → Q (.map pairs)) : (∀ v, P v) ∧ ∀ s, Q s := by
  have hnil : ∀ {α : Type} (R : α → Prop), ∀ a ∈ ([] : List α), R a :=
    fun _ _ h => absurd h List.not_mem_nil
  exact ⟨fun v => @Value.rec P Q (∀ s ∈ ·, Q s) (∀ v ∈ ·, P v) (∀ p ∈ ·, P p.2)
    (P ·.2) hw32 hw64 hbool hstr hmessage habsent hone hrepeated hmap (hnil _) (fun _ _ h hs =>
      List.forall_mem_cons.2 ⟨h, hs⟩) (hnil _) (fun _ _ h hs => List.forall_mem_cons.2 ⟨h, hs⟩)
    (hnil _) (fun _ _ h hs => List.forall_mem_cons.2 ⟨h, hs⟩) (fun _ _ h => h) v, fun s =>
    @Slot.rec P Q (∀ s ∈ ·, Q s) (∀ v ∈ ·, P v) (∀ p ∈ ·, P p.2) (P ·.2) hw32 hw64 hbool hstr
    hmessage habsent hone hrepeated hmap (hnil _) (fun _ _ h hs => List.forall_mem_cons.2 ⟨h, hs⟩)
    (hnil _) (fun _ _ h hs => List.forall_mem_cons.2 ⟨h, hs⟩) (hnil _)
    (fun _ _ h hs => List.forall_mem_cons.2 ⟨h, hs⟩) (fun _ _ h => h) s⟩

/-! ## Equality -/

mutual

/-- The equality of messages: the pairs of a map have no order. -/
def Value.Same : Value → Value → Prop
  | .message slots, .message slots' => sameSlots slots slots'
  | .w32 x, .w32 y => x = y
  | .w64 x, .w64 y => x = y
  | .bool x, .bool y => x = y
  | .str s, .str t => s = t
  | _, _ => False
termination_by structural x => x

def Slot.Same : Slot → Slot → Prop
  | .absent, .absent => True
  | .one v, .one v' => v.Same v'
  | .repeated vs, .repeated vs' => sameValues vs vs'
  | .map pairs, .map pairs' => ∃ qs, pairs'.Perm qs ∧ samePairs pairs qs
  | _, _ => False
termination_by structural x => x

def sameSlots : List Slot → List Slot → Prop
  | [], [] => True
  | s :: slots, s' :: slots' => s.Same s' ∧ sameSlots slots slots'
  | _, _ => False
termination_by structural x => x

def sameValues : List Value → List Value → Prop
  | [], [] => True
  | v :: vs, v' :: vs' => v.Same v' ∧ sameValues vs vs'
  | _, _ => False
termination_by structural x => x

def samePairs : List (Key × Value) → List (Key × Value) → Prop
  | [], [] => True
  | p :: pairs, p' :: pairs' => samePair p p' ∧ samePairs pairs pairs'
  | _, _ => False
termination_by structural x => x

def samePair : Key × Value → Key × Value → Prop
  | (k, v), p => k = p.1 ∧ v.Same p.2
termination_by structural x => x

end

theorem sameSlots_iff {ss ss' : List Slot} : sameSlots ss ss' ↔ List.Forall₂ Slot.Same ss ss' := by
  induction ss generalizing ss' with
  | nil => cases ss' <;> simp [sameSlots]
  | cons s ss ih => cases ss' <;> simp [sameSlots, ih]

theorem sameValues_iff {vs vs' : List Value} :
    sameValues vs vs' ↔ List.Forall₂ Value.Same vs vs' := by
  induction vs generalizing vs' with
  | nil => cases vs' <;> simp [sameValues]
  | cons v vs ih => cases vs' <;> simp [sameValues, ih]

theorem samePairs_iff {ps ps' : List (Key × Value)} :
    samePairs ps ps' ↔ List.Forall₂ (fun p q => p.1 = q.1 ∧ p.2.Same q.2) ps ps' := by
  induction ps generalizing ps' with
  | nil => cases ps' <;> simp [samePairs]
  | cons p ps ih =>
    rcases p with ⟨k, v⟩
    cases ps' <;> simp [samePairs, samePair, ih]

/-! ## Sizes -/

mutual

/-- The number of the values that are set in a value. -/
def Value.size : Value → ℕ
  | .message slots => sizeSlots slots
  | _ => 1
termination_by structural x => x

def Slot.size : Slot → ℕ
  | .absent => 0
  | .one v => 1 + v.size
  | .repeated vs => sizeValues vs
  | .map pairs => sizePairs pairs
termination_by structural x => x

def sizeSlots : List Slot → ℕ
  | [] => 0
  | s :: slots => s.size + sizeSlots slots
termination_by structural x => x

def sizeValues : List Value → ℕ
  | [] => 0
  | v :: vs => 1 + v.size + sizeValues vs
termination_by structural x => x

def sizePairs : List (Key × Value) → ℕ
  | [] => 0
  | p :: pairs => sizePair p + sizePairs pairs
termination_by structural x => x

def sizePair : Key × Value → ℕ
  | (_, v) => 1 + v.size
termination_by structural x => x

end

theorem sizeSlots_eq (slots : List Slot) : sizeSlots slots = (slots.map Slot.size).sum := by
  induction slots with
  | nil => rfl
  | cons s slots ih => rw [sizeSlots, ih]; rfl

theorem sizeValues_eq (vs : List Value) : sizeValues vs = (vs.map fun v => 1 + v.size).sum := by
  induction vs with
  | nil => rfl
  | cons v vs ih => rw [sizeValues, ih]; rfl

theorem sizePairs_eq (pairs : List (Key × Value)) :
    sizePairs pairs = (pairs.map fun p => 1 + p.2.size).sum := by
  induction pairs with
  | nil => rfl
  | cons p pairs ih =>
    rcases p with ⟨k, v⟩
    rw [sizePairs, ih]
    rfl

/-- Values that are the same have the same size. -/
theorem size_eq :
    (∀ v v' : Value, v.Same v' → v.size = v'.size) ∧ ∀ s s' : Slot,
      s.Same s' → s.size = s'.size := by
  refine induction ?_ ?_ ?_ ?_ (fun slots ih v' h => ?_) (fun s' h => ?_) (fun v ih s' h => ?_)
    (fun vs ih s' h => ?_) fun pairs ih s' h => ?_
  · rintro x (_ | _ | _ | _ | _) h <;> first | rfl | exact absurd h id
  · rintro x (_ | _ | _ | _ | _) h <;> first | rfl | exact absurd h id
  · rintro x (_ | _ | _ | _ | _) h <;> first | rfl | exact absurd h id
  · rintro x (_ | _ | _ | _ | _) h <;> first | rfl | exact absurd h id
  · rcases v' with _ | _ | _ | _ | slots' <;> try exact absurd h id
    have hslots : List.Forall₂ Slot.Same slots slots' := sameSlots_iff.1 h
    rw [Value.size, Value.size, sizeSlots_eq, sizeSlots_eq, Pointwise.map_eq hslots ih]
  · rcases s' with _ | _ | _ | _ <;> first | rfl | exact absurd h id
  · rcases s' with _ | v' | _ | _ <;> try exact absurd h id
    exact congrArg (1 + ·) (ih v' h)
  · rcases s' with _ | _ | vs' | _ <;> try exact absurd h id
    have hvs : List.Forall₂ Value.Same vs vs' := sameValues_iff.1 h
    rw [Slot.size, Slot.size, sizeValues_eq, sizeValues_eq,
      Pointwise.map_eq hvs fun v hv v' h => congrArg (1 + ·) (ih v hv v' h)]
  · rcases s' with _ | _ | _ | pairs' <;> try exact absurd h id
    obtain ⟨qs, hperm, h⟩ : ∃ qs, pairs'.Perm qs ∧ samePairs pairs qs := h
    rw [Slot.size, Slot.size, sizePairs_eq, sizePairs_eq, (hperm.map _).sum_eq,
      Pointwise.map_eq (samePairs_iff.1 h) fun p hp q h => congrArg (1 + ·) (ih p hp q.2 h.2)]

/-! ## Canonical values -/

/-- The Booleans of an alias message, if there are one, two or three of them. -/
def lost (fields : List FieldDescriptor) (slots : List Slot) : Bool :=
  match aliasField fields, slots with
  | some f, [.repeated vs] =>
    f.kind = .repeated .bool && !f.deprecated && vs.length != 0 && vs.length < 4
  | _, _ => false

/-- A slot with nothing in it. -/
def Slot.clear : Slot → Slot
  | .absent => .absent
  | .one _ => .absent
  | .repeated _ => .repeated []
  | .map _ => .map []

section

variable (schema : Descriptors) (cut : Bool)

mutual

/-- The canonical value: without the deprecated fields and without the singular messages in
    which nothing is set; with `cut`, also without the Booleans that are `lost`. -/
def Value.canon : Value → FieldType → Value
  | .message slots, t =>
    match t.form with
    | .message name =>
      .message (if cut && lost (schema name) slots then [.repeated []]
        else canonSlots slots (schema name))
    | _ => .message slots
  | v, _ => v
termination_by structural x => x

def Slot.canon : Slot → FieldKind → Slot
  | .absent, _ => .absent
  | .one v, kind =>
    match kind with
    | .single t => if (v.canon t).size = 0 then .absent else .one (v.canon t)
    | _ => .one v
  | .repeated vs, kind =>
    match kind with
    | .repeated t => .repeated (canonValues vs t)
    | _ => .repeated vs
  | .map pairs, kind =>
    match kind with
    | .map _ t => .map (canonPairs pairs t)
    | _ => .map pairs
termination_by structural x => x

def canonSlots : List Slot → List FieldDescriptor → List Slot
  | [], _ => []
  | s :: slots, fields =>
    match fields with
    | [] => s :: slots
    | f :: fields => (if f.deprecated then s.clear else s.canon f.kind) :: canonSlots slots fields
termination_by structural x => x

def canonValues : List Value → FieldType → List Value
  | [], _ => []
  | v :: vs, t => v.canon t :: canonValues vs t
termination_by structural x => x

def canonPairs : List (Key × Value) → FieldType → List (Key × Value)
  | [], _ => []
  | p :: pairs, t => canonPair p t :: canonPairs pairs t
termination_by structural x => x

def canonPair : Key × Value → FieldType → Key × Value
  | (k, v), t => (k, v.canon t)
termination_by structural x => x

end

end

variable {schema : Descriptors} {cut : Bool}

theorem canonValues_eq (vs : List Value) (t : FieldType) :
    canonValues schema cut vs t = vs.map fun v => v.canon schema cut t := by
  induction vs with
  | nil => rfl
  | cons v vs ih => rw [canonValues, ih]; rfl

theorem canonPairs_eq (pairs : List (Key × Value)) (t : FieldType) :
    canonPairs schema cut pairs t = pairs.map fun p => (p.1, p.2.canon schema cut t) := by
  induction pairs with
  | nil => rfl
  | cons p pairs ih =>
    rcases p with ⟨k, v⟩
    rw [canonPairs, ih]
    rfl

theorem lost_eq_true {fields : List FieldDescriptor} {slots : List Slot}
    (h : lost fields slots = true) :
    ∃ f vs, aliasField fields = some f ∧ slots = [.repeated vs] ∧ f.kind = .repeated .bool ∧
      f.deprecated = false ∧ vs ≠ [] ∧ vs.length < 4 := by
  unfold lost at h
  split at h
  · next f vs hf =>
    simp only [Bool.and_eq_true, decide_eq_true_eq, Bool.not_eq_true', bne_iff_ne, ne_eq,
      List.length_eq_zero_iff] at h
    exact ⟨f, vs, hf, rfl, h.1.1.1, h.1.1.2, h.1.2, h.2⟩
  · cases h

theorem sizeValues_pos {vs : List Value} (h : vs ≠ []) : 0 < sizeValues vs := by
  rcases vs with _ | ⟨v, vs⟩
  · exact absurd rfl h
  · rw [sizeValues]
    omega

theorem size_clear (s : Slot) : s.clear.size = 0 := by
  cases s <;> rfl

/-- A slot of size zero has nothing in it. -/
theorem clear_eq {s : Slot} (h : s.size = 0) : s.clear = s := by
  rcases s with _ | v | vs | pairs
  · rfl
  · rw [Slot.size] at h
    omega
  · rcases vs with _ | ⟨v, vs⟩
    · rfl
    · rw [Slot.size, sizeValues] at h
      omega
  · rcases pairs with _ | ⟨⟨k, v⟩, pairs⟩
    · rfl
    · rw [Slot.size, sizePairs, sizePair] at h
      omega

theorem canonSlots_size {slots : List Slot} (h : ∀ s ∈ slots, ∀ kind,
      (s.canon schema cut kind).size ≤ s.size ∧
        (s.size ≤ (s.canon schema cut kind).size → s.canon schema cut kind = s))
    (fields : List FieldDescriptor) :
    sizeSlots (canonSlots schema cut slots fields) ≤ sizeSlots slots ∧
      (sizeSlots slots ≤ sizeSlots (canonSlots schema cut slots fields) →
        canonSlots schema cut slots fields = slots) := by
  induction slots generalizing fields with
  | nil => exact ⟨Nat.le_refl _, fun _ => rfl⟩
  | cons s slots ih =>
    rcases fields with _ | ⟨f, fields⟩
    · exact ⟨Nat.le_refl _, fun _ => rfl⟩
    · obtain ⟨h₁, h₂⟩ := ih (fun s hs => h s (.tail _ hs)) fields
      obtain ⟨h₃, h₄⟩ := h s List.mem_cons_self f.kind
      rw [canonSlots, sizeSlots, sizeSlots]
      split
      · rw [size_clear]
        exact ⟨by omega, fun h => by rw [clear_eq (by omega), h₂ (by omega)]⟩
      · exact ⟨by omega, fun h => by rw [h₄ (by omega), h₂ (by omega)]⟩

/-- What is not canonical is larger than its canonical value. -/
theorem canon_size (schema : Descriptors) (cut : Bool) :
    (∀ (v : Value) t, (v.canon schema cut t).size ≤ v.size ∧
      (v.size ≤ (v.canon schema cut t).size → v.canon schema cut t = v)) ∧
    ∀ (s : Slot) kind, (s.canon schema cut kind).size ≤ s.size ∧
      (s.size ≤ (s.canon schema cut kind).size → s.canon schema cut kind = s) := by
  -- By induction on the value: only a lost array and an empty message are made smaller.
  refine induction (fun x t => ?_) (fun x t => ?_) (fun x t => ?_) (fun s t => ?_)
    (fun slots ih t => ?_)
    (fun kind => ?_) (fun v ih kind => ?_) (fun vs ih kind => ?_) fun pairs ih kind => ?_
  iterate 4 · exact ⟨Nat.le_refl _, fun _ => rfl⟩
  · rw [Value.canon]
    split
    · next name _ =>
      split
      · next hlost =>
        obtain ⟨f, vs, -, rfl, -, -, hne, -⟩ := lost_eq_true (Bool.and_eq_true _ _ ▸ hlost).2
        have hpos := sizeValues_pos hne
        simp only [Value.size, sizeSlots, Slot.size, sizeValues]
        exact ⟨Nat.zero_le _, fun h => by omega⟩
      · obtain ⟨h₁, h₂⟩ := canonSlots_size ih (schema name)
        exact ⟨h₁, fun h => congrArg Value.message (h₂ h)⟩
    · exact ⟨Nat.le_refl _, fun _ => rfl⟩
  · rw [Slot.canon]
    exact ⟨Nat.le_refl _, fun _ => rfl⟩
  · rcases kind with t | t | ⟨k, t⟩
    · obtain ⟨h₁, h₂⟩ := ih t
      rw [Slot.canon]
      split
      · exact ⟨Nat.zero_le _, fun h => by rw [Slot.size, Slot.size] at h; omega⟩
      · rw [Slot.size, Slot.size]
        exact ⟨by omega, fun h => by rw [h₂ (by omega)]⟩
    all_goals exact ⟨Nat.le_refl _, fun _ => rfl⟩
  · rcases kind with t | t | ⟨k, t⟩
    · exact ⟨Nat.le_refl _, fun _ => rfl⟩
    · rw [Slot.canon, Slot.size, Slot.size]
      induction vs with
      | nil => exact ⟨Nat.le_refl _, fun _ => rfl⟩
      | cons v vs hvs =>
        obtain ⟨h₁, h₂⟩ := hvs fun v hv => ih v (.tail _ hv)
        obtain ⟨h₃, h₄⟩ := ih v List.mem_cons_self t
        rw [canonValues, sizeValues, sizeValues]
        exact ⟨by omega, fun h => by rw [h₄ (by omega), Slot.repeated.inj (h₂ (by omega))]⟩
    · exact ⟨Nat.le_refl _, fun _ => rfl⟩
  · rcases kind with t | t | ⟨k, t⟩
    · exact ⟨Nat.le_refl _, fun _ => rfl⟩
    · exact ⟨Nat.le_refl _, fun _ => rfl⟩
    · rw [Slot.canon, Slot.size, Slot.size]
      induction pairs with
      | nil => exact ⟨Nat.le_refl _, fun _ => rfl⟩
      | cons p pairs hpairs =>
        rcases p with ⟨key, v⟩
        obtain ⟨h₁, h₂⟩ := hpairs fun p hp => ih p (.tail _ hp)
        obtain ⟨h₃, h₄⟩ := ih (key, v) List.mem_cons_self t
        dsimp only at h₃ h₄
        rw [canonPairs, sizePairs, sizePairs, canonPair, sizePair, sizePair]
        exact ⟨by omega, fun h => by rw [h₄ (by omega), Slot.map.inj (h₂ (by omega))]⟩

/-- The values in a slot of a field, with their type. -/
inductive Slot.Has : Slot → FieldKind → FieldType → Value → Prop
  | one {v : Value} {t : FieldType} : Has (.one v) (.single t) t v
  | element {vs : List Value} {v : Value} {t : FieldType} :
      v ∈ vs → Has (.repeated vs) (.repeated t) t v
  | value {pairs : List (Key × Value)} {p : Key × Value} {k t : FieldType} :
    p ∈ pairs → Has (.map pairs) (.map k t) t p.2

/-- A value in which there is a message as `P` says that is not in a deprecated field. -/
inductive Occurs (schema : Descriptors) (P : ℕ → List Slot → Prop) : FieldType → Value → Prop
  | here {t : FieldType} {name : ℕ} {slots : List Slot} :
    t.form = .message name → P name slots → Occurs schema P t (.message slots)
  | inside {t t' : FieldType} {name : ℕ} {slots : List Slot} {s : Slot} {f : FieldDescriptor}
      {v : Value} :
    t.form = .message name → (s, f) ∈ slots.zip (schema name) → f.deprecated = false →
    s.Has f.kind t' v → Occurs schema P t' v → Occurs schema P t (.message slots)

/-- A value in which there is an alias message of one, two or three Booleans. -/
abbrev Short (schema : Descriptors) : FieldType → Value → Prop :=
  Occurs schema fun name slots => lost (schema name) slots = true

/-- Nothing is lost where there is no such alias. -/
theorem canon_eq_of_not_short :
    (∀ (v : Value) t, ¬Short schema t v → v.canon schema true t = v.canon schema false t) ∧
    ∀ (s : Slot) kind, (∀ t v, s.Has kind t v → ¬Short schema t v) →
      s.canon schema true kind = s.canon schema false kind := by
  -- By induction on the value: what is short in a part of it is short in all of it.
  refine induction (fun x t _ => rfl) (fun x t _ => rfl) (fun x t _ => rfl) (fun s t _ => rfl)
    (fun slots ih t h => ?_) (fun kind _ => ?_) (fun v ih kind h => ?_) (fun vs ih kind h => ?_)
    fun pairs ih kind h => ?_
  · rw [Value.canon, Value.canon]
    split
    · next name ht =>
      rw [if_neg fun hlost => h (.here ht (Bool.and_eq_true _ _ ▸ hlost).2),
        if_neg fun hlost => Bool.false_ne_true (Bool.and_eq_true _ _ ▸ hlost).1]
      have hin : ∀ s f, (s, f) ∈ slots.zip (schema name) → f.deprecated = false →
          s.canon schema true f.kind = s.canon schema false f.kind := fun s f hs hf =>
        ih s (List.of_mem_zip hs).1 f.kind fun t v hv hshort => h (.inside ht hs hf hv hshort)
      generalize schema name = fields at hin
      clear ih h
      refine congrArg Value.message ?_
      induction slots generalizing fields with
      | nil => rfl
      | cons s slots hslots =>
        rcases fields with _ | ⟨f, fields⟩
        · rfl
        · rw [canonSlots, canonSlots, hslots fields fun s f hs => hin s f (.tail _ hs)]
          split
          · rfl
          · next hf => rw [hin s f List.mem_cons_self (by simpa using hf)]
    · rfl
  · rw [Slot.canon, Slot.canon]
  · rcases kind with t | t | ⟨k, t⟩
    · rw [Slot.canon, Slot.canon, ih t (h t v .one)]
    all_goals rfl
  · rcases kind with t | t | ⟨k, t⟩
    · rfl
    · rw [Slot.canon, Slot.canon, canonValues_eq, canonValues_eq,
        List.map_congr_left fun v hv => ih v hv t (h t v (.element hv))]
    · rfl
  · rcases kind with t | t | ⟨k, t⟩
    · rfl
    · rfl
    · rw [Slot.canon, Slot.canon, canonPairs_eq, canonPairs_eq,
        List.map_congr_left fun p hp => congrArg (Prod.mk p.1) (ih p hp t (h t p.2 (.value hp)))]

theorem canonSlots_cons (s : Slot) (slots : List Slot) (f : FieldDescriptor)
    (fields : List FieldDescriptor) :
    sizeSlots (canonSlots schema cut (s :: slots) (f :: fields)) =
      (if f.deprecated then 0 else (s.canon schema cut f.kind).size) +
        sizeSlots (canonSlots schema cut slots fields) := by
  rw [canonSlots, sizeSlots]
  split
  · rw [size_clear]
  · rfl

theorem canonSlots_le {slots : List Slot}
    (h : ∀ s ∈ slots, ∀ kind, (s.canon schema true kind).size ≤ (s.canon schema false kind).size)
    (fields : List FieldDescriptor) :
    sizeSlots (canonSlots schema true slots fields) ≤
      sizeSlots (canonSlots schema false slots fields) := by
  induction slots generalizing fields with
  | nil => exact Nat.le_refl _
  | cons s slots ih =>
    rcases fields with _ | ⟨f, fields⟩
    · exact Nat.le_refl _
    · rw [canonSlots_cons, canonSlots_cons]
      refine Nat.add_le_add ?_ (ih (fun s hs => h s (.tail _ hs)) fields)
      split
      · exact Nat.le_refl _
      · exact h s List.mem_cons_self f.kind

/-- With `cut`, there is no more in a canonical value. -/
theorem canon_cut_size (schema : Descriptors) :
    (∀ (v : Value) t, (v.canon schema true t).size ≤ (v.canon schema false t).size) ∧
    ∀ (s : Slot) kind, (s.canon schema true kind).size ≤ (s.canon schema false kind).size := by
  -- The two differ at a message with a lost array, which only `cut` leaves out.
  refine induction (fun x t => ?_) (fun x t => ?_) (fun x t => ?_) (fun s t => ?_)
    (fun slots ih t => ?_)
    (fun kind => ?_) (fun v ih kind => ?_) (fun vs ih kind => ?_) fun pairs ih kind => ?_
  iterate 4 · exact Nat.le_refl _
  · rw [Value.canon, Value.canon]
    split
    · next name _ =>
      rw [Bool.false_and, if_neg Bool.false_ne_true, Value.size]
      split
      · exact Nat.zero_le _
      · exact canonSlots_le ih (schema name)
    · exact Nat.le_refl _
  · exact Nat.le_refl _
  · rcases kind with t | t | ⟨k, t⟩
    · have hv := ih t
      rw [Slot.canon, Slot.canon]
      split
      · exact Nat.zero_le _
      · rw [if_neg (by omega), Slot.size, Slot.size]
        omega
    all_goals exact Nat.le_refl _
  · rcases kind with t | t | ⟨k, t⟩
    · exact Nat.le_refl _
    · rw [Slot.canon, Slot.canon, Slot.size, Slot.size]
      induction vs with
      | nil => exact Nat.le_refl _
      | cons v vs hvs =>
        rw [canonValues, canonValues, sizeValues, sizeValues]
        have := ih v List.mem_cons_self t
        have := hvs fun v hv => ih v (.tail _ hv)
        omega
    · exact Nat.le_refl _
  · rcases kind with t | t | ⟨k, t⟩
    · exact Nat.le_refl _
    · exact Nat.le_refl _
    · rw [Slot.canon, Slot.canon, Slot.size, Slot.size]
      induction pairs with
      | nil => exact Nat.le_refl _
      | cons p pairs hpairs =>
        rcases p with ⟨key, v⟩
        rw [canonPairs, canonPairs, sizePairs, sizePairs, canonPair, canonPair, sizePair, sizePair]
        have : (v.canon schema true t).size ≤ (v.canon schema false t).size :=
          ih (key, v) List.mem_cons_self t
        have := hpairs fun p hp => ih p (.tail _ hp)
        omega

theorem Slot.Has.canon_lt {s : Slot} {kind : FieldKind} {t : FieldType} {v : Value}
    (h : s.Has kind t v) (hv : (v.canon schema true t).size < (v.canon schema false t).size) :
    (s.canon schema true kind).size < (s.canon schema false kind).size := by
  have hle := (canon_cut_size schema).1
  cases h with
  | one =>
    rw [Slot.canon, Slot.canon, if_neg (c := (Value.canon schema false v t).size = 0) (by omega)]
    split
    · rw [Slot.size, Slot.size]
      omega
    · rw [Slot.size, Slot.size]
      omega
  | @element vs v t hmem =>
    rw [Slot.canon, Slot.canon, Slot.size, Slot.size]
    induction vs with
    | nil => exact absurd hmem List.not_mem_nil
    | cons v' vs ih =>
      rw [canonValues, canonValues, sizeValues, sizeValues]
      have h' := hle v' t
      have hvs := (canon_cut_size schema).2 (.repeated vs) (.repeated t)
      rw [Slot.canon, Slot.canon, Slot.size, Slot.size] at hvs
      rcases List.mem_cons.1 hmem with rfl | hmem
      · omega
      · have := ih hmem
        omega
  | @value pairs p k t hmem =>
    rw [Slot.canon, Slot.canon, Slot.size, Slot.size]
    induction pairs with
    | nil => exact absurd hmem List.not_mem_nil
    | cons p' pairs ih =>
      rcases p' with ⟨k', v'⟩
      rw [canonPairs, canonPairs, sizePairs, sizePairs, canonPair, canonPair, sizePair, sizePair]
      have h' := hle v' t
      have hps := (canon_cut_size schema).2 (.map pairs) (.map k t)
      rw [Slot.canon, Slot.canon, Slot.size, Slot.size] at hps
      rcases List.mem_cons.1 hmem with rfl | hmem
      · dsimp only at hv
        omega
      · have := ih hmem
        omega

theorem aliasField_eq {fields : List FieldDescriptor} {f : FieldDescriptor}
    (h : aliasField fields = some f) :
    fields = [f] ∧ f.name = "_" ∧ f.number = 1 := by
  unfold aliasField at h
  split at h
  · split at h
    · next hf =>
      cases h
      exact ⟨rfl, hf⟩
    · cases h
  · cases h

/-- What is lost is something. -/
theorem size_lost {fields : List FieldDescriptor} {slots : List Slot}
    (h : lost fields slots = true) :
    0 < sizeSlots (canonSlots schema false slots fields) := by
  obtain ⟨f, vs, hf, rfl, hkind, hdep, hne, -⟩ := lost_eq_true h
  obtain ⟨rfl, -, -⟩ := aliasField_eq hf
  have : 0 < sizeValues (vs.map fun v => v.canon schema false .bool) :=
    sizeValues_pos (by simpa using hne)
  rw [canonSlots_cons, hdep, if_neg Bool.false_ne_true, hkind, Slot.canon, Slot.size,
    canonValues_eq]
  omega

theorem canonSlots_lt {slots : List Slot} {fields : List FieldDescriptor} {s : Slot}
    {f : FieldDescriptor} (hmem : (s, f) ∈ slots.zip fields) (hdep : f.deprecated = false)
    (h : (s.canon schema true f.kind).size < (s.canon schema false f.kind).size) :
    sizeSlots (canonSlots schema true slots fields) <
      sizeSlots (canonSlots schema false slots fields) := by
  induction slots generalizing fields with
  | nil => exact absurd hmem List.not_mem_nil
  | cons s' slots ih =>
    rcases fields with _ | ⟨f', fields⟩
    · exact absurd hmem List.not_mem_nil
    · rw [canonSlots_cons, canonSlots_cons]
      have hle := canonSlots_le (fun s (_ : s ∈ slots) => (canon_cut_size schema).2 s) fields
      have hle' := (canon_cut_size schema).2 s' f'.kind
      rcases List.mem_cons.1 hmem with heq | hmem
      · cases heq
        rw [if_neg (by simp [hdep]), if_neg (by simp [hdep])]
        omega
      · have := ih hmem
        split <;> omega

/-- With `cut`, there is less in a canonical value where there is such an alias. -/
theorem Short.canon_lt {t : FieldType} {v : Value} (h : Short schema t v) :
    (v.canon schema true t).size < (v.canon schema false t).size := by
  induction h with
  | @here t name slots ht hlost =>
    rw [Value.canon, Value.canon, ht]
    dsimp only
    rw [hlost, Bool.true_and, if_pos rfl, Bool.false_and, if_neg Bool.false_ne_true, Value.size,
      Value.size]
    exact size_lost hlost
  | @inside t t' name slots s f v ht hmem hdep hhas _ ih =>
    rw [Value.canon, Value.canon, ht]
    dsimp only
    rw [Bool.true_and, Bool.false_and, if_neg Bool.false_ne_true, Value.size]
    split
    · next hlost => exact size_lost hlost
    · exact canonSlots_lt hmem hdep (hhas.canon_lt ih)

end ProtoCache.Extension

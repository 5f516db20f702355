import ProtoCache.Basic
import ProtoCache.Lib.Ensures
import ProtoCache.Lib.LittleEndian
import ProtoCache.Lib.Storage

/-!
# Plans

The decoder of the WASM module (`typescript/wasm/decode_tape.cc`) goes by *plans* of the
types, which the host reserves and then commits, each from words of its own making
(`CommitPlan`). The types may refer to each other in any way, as handles are reserved
before their plans are there.

* `Reachable.indexed`: in whatever order handles are reserved and plans committed, the
  index of a plan, from the numbers of its fields to their positions, stays in its fields.
-/

namespace ProtoCache.Wasm

open LittleEndian Outcome

/-! ## Outcomes -/

/-- Why a call of the decoder stops. -/
inductive Halt
  /-- The function returns `false`. -/
  | refused
  /-- There is no memory for what is to be appended. -/
  | memory
  /-- An access outside the memory that the call may use. -/
  | fault
  /-- The nesting bound of the model is used up. -/
  | depth
  deriving DecidableEq, Repr

/-- The outcome of a call of the decoder. -/
abbrev Run (α : Type) := Except Halt α

/-- An access to memory: undefined is a fault. -/
def within {α : Type} : Option α → Run α
  | some a => .ok a
  | none => .error .fault

/-- `return false`, unless a condition holds. -/
def require (b : Bool) : Run PUnit := if b then .ok () else .error .refused

/-- `Load32`. -/
def load32 (mem : List UInt8) (pos : ℕ) : Run UInt32 := do
  let bs ← within (Storage.load (mem.drop pos) 4)
  return UInt32.ofNat (le bs)

/-! ## Kinds -/

/-- `Kind`. -/
def kNone : UInt32 := 0
/-- `kMessage`. -/
def kMessage : UInt32 := 1
/-- `kBytes`. -/
def kBytes : UInt32 := 2
/-- `kString`. -/
def kString : UInt32 := 3
/-- `kF64`. -/
def kF64 : UInt32 := 4
/-- `kF32`. -/
def kF32 : UInt32 := 5
/-- `kU64`. -/
def kU64 : UInt32 := 6
/-- `kU32`. -/
def kU32 : UInt32 := 7
/-- `kI64`. -/
def kI64 : UInt32 := 8
/-- `kI32`. -/
def kI32 : UInt32 := 9
/-- `kBool`. -/
def kBool : UInt32 := 10
/-- `kEnum`. -/
def kEnum : UInt32 := 11
/-- `kArray`. -/
def kArray : UInt32 := 20
/-- `kMap`. -/
def kMap : UInt32 := 21

/-- `kNoType`. -/
def kNoType : UInt32 := 0xffffffff

/-- `ValidValueKind`. -/
def validValueKind (kind : UInt32) : Bool :=
  decide (kind ≥ kMessage ∧ kind ≤ kEnum) || kind == kArray || kind == kMap

/-- `ValidKeyKind`. -/
def validKeyKind (kind : UInt32) : Bool :=
  kind == kString || kind == kU64 || kind == kU32 || kind == kI64 || kind == kI32

/-- `IsComplex`. -/
def isComplex (kind : UInt32) : Bool := kind == kMessage || kind == kArray || kind == kMap

/-- `ScalarWidthWords`. -/
def scalarWidthWords (kind : UInt32) : UInt32 :=
  if kind = kBool ∨ kind = kF32 ∨ kind = kU32 ∨ kind = kI32 ∨ kind = kEnum then 1
  else if kind = kF64 ∨ kind = kU64 ∨ kind = kI64 then 2
  else 0

/-! ## Plans -/

/-- `FieldPlan`. -/
structure FieldPlan where
  id : UInt32 := 0
  kind : UInt32 := kNone
  child : UInt32 := kNoType
  deriving DecidableEq

/-- `TypePlan`. An entry of `fieldIndexById` is below 6387, and fits in its 16 bits. -/
structure TypePlan where
  kind : UInt32 := kNone
  valueKind : UInt32 := kNone
  keyKind : UInt32 := kNone
  child : UInt32 := kNoType
  committed : Bool := false
  fields : List FieldPlan := []
  fieldIndexById : List ℤ := []
  deriving DecidableEq

/-- The plan of a handle, which counts from 1. -/
def planOf (types : List TypePlan) (handle : UInt32) : Option TypePlan :=
  if handle = 0 then none else types[handle.toNat - 1]?

/-- `pc_decode_schema_reserve`, where there is memory for one more. -/
def schemaReserve (types : List TypePlan) (kind : UInt32) : Run (List TypePlan) := do
  require (kind == kMessage || kind == kArray || kind == kMap)
  return types ++ [{ kind := kind }]

/-! ## Committing a plan -/

section

variable (types : List TypePlan) (plan : List UInt8)

/-- `word`, in `CommitPlan`. -/
def planWord (index : ℕ) : Run UInt32 := load32 plan (index * 4)

/-- The first loop of `CommitPlan`: the fields. -/
def planFields : ℕ → ℕ → Run (List FieldPlan)
  | 0, _ => return []
  | count + 1, index => do
    let id ← planWord plan (4 + index * 3)
    let kind ← planWord plan (5 + index * 3)
    let child ← planWord plan (6 + index * 3)
    require (decide (id < 6387) && validValueKind kind && isComplex kind == (child != kNoType))
    let fields ← planFields count (index + 1)
    return ⟨id, kind, child⟩ :: fields

/-- The second loop of `CommitPlan`: the position of each field, by its number; two fields
    of one number are refused. -/
def indexFields : List FieldPlan → ℕ → List ℤ → Run (List ℤ)
  | [], _, byId => return byId
  | field :: fields, index, byId => do
    let at_ ← within byId[field.id.toNat]?
    require (at_ == -1)
    indexFields fields (index + 1) (byId.set field.id.toNat index)

/-- `validate_child`, in `CommitPlan`. -/
def validateChild (expectedKind childHandle : UInt32) : Bool :=
  !isComplex expectedKind ||
    match planOf types childHandle with
    | none => false
    | some child => child.kind == expectedKind

/-- The plan of a message, in `CommitPlan`. -/
def messagePlan (auxiliary recordWords child : UInt32) : Run TypePlan := do
  require (recordWords == 4 + auxiliary * 3 && decide (auxiliary ≤ 6387))
  let fields ← planFields plan auxiliary.toNat 0
  let maximumId := (fields.map fun field => field.id.toNat).foldl max 0
  let fieldIndexById ← (if fields.isEmpty then return []
    else indexFields fields 0 (List.replicate (maximumId + 1) (-1)))
  require (fields.all fun field => validateChild types field.kind field.child)
  return { kind := kMessage, child, committed := true, fields, fieldIndexById }

/-- The plan of an array, in `CommitPlan`. -/
def arrayPlan (auxiliary recordWords child : UInt32) : Run TypePlan := do
  require (recordWords == 4 && validValueKind auxiliary)
  require (isComplex auxiliary == (child != kNoType))
  require (validateChild types auxiliary child)
  return { kind := kArray, valueKind := auxiliary, child, committed := true }

/-- The plan of a map, in `CommitPlan`. -/
def mapPlan (auxiliary recordWords child : UInt32) : Run TypePlan := do
  let keyKind := auxiliary &&& 0xff
  let valueKind := (auxiliary >>> 8) &&& 0xff
  require (recordWords == 4 && validKeyKind keyKind && validValueKind valueKind)
  require (isComplex valueKind == (child != kNoType))
  require (validateChild types valueKind child)
  return { kind := kMap, valueKind, keyKind, child, committed := true }

/-- `CommitPlan`: the types with the plan of a handle, from the first `length` bytes of
    the plan buffer. -/
def commitPlan (handle length : UInt32) : Run (List TypePlan) := do
  require (decide (length ≥ 16) && length &&& 3 == 0 && decide (length.toNat ≤ plan.length))
  require (decide (handle ≠ 0 ∧ handle.toNat ≤ types.length))
  let words := length / 4
  let kind ← planWord plan 0
  let auxiliary ← planWord plan 1
  let recordWords ← planWord plan 2
  let child ← planWord plan 3
  require (recordWords == words && decide (recordWords ≥ 4))
  let reserved ← within (planOf types handle)
  require (!reserved.committed && reserved.kind == kind)
  let type ← (if kind = kMessage then messagePlan types plan auxiliary recordWords child
    else if kind = kArray then arrayPlan types auxiliary recordWords child
    else if kind = kMap then mapPlan types auxiliary recordWords child
    else .error .refused)
  return types.set (handle.toNat - 1) type

end

/-- The types that there can be: handles are reserved and plans committed, in any order. -/
inductive Reachable : List TypePlan → Prop
  | empty : Reachable []
  | reserve {types types' : List TypePlan} {kind : UInt32} (h : Reachable types)
      (hreserve : schemaReserve types kind = .ok types') : Reachable types'
  | commit {types types' : List TypePlan} {plan : List UInt8} {handle length : UInt32}
      (h : Reachable types)
      (hcommit : commitPlan types plan handle length = .ok types') : Reachable types'

/-! ## The index of a plan -/

/-- The positions that an index leads to are below `n`. -/
def Below (n : ℕ) (byId : List ℤ) : Prop := ∀ i ∈ byId, i < (n : ℤ)

/-- The index of a plan leads to fields of the plan. -/
def TypePlan.Indexed (plan : TypePlan) : Prop := Below plan.fields.length plan.fieldIndexById

section

variable {E : Halt → Prop}

theorem require_ensures (hE : E .refused) (b : Bool) :
    Ensures E (fun _ => b = true) (require b) := by
  cases b with
  | false => exact hE
  | true => rfl

theorem within_ensures {α : Type} (hE : E .fault) (o : Option α) :
    Ensures E (fun a => o = some a) (within o) := by
  cases o with
  | none => exact hE
  | some a => rfl

end

/-- The second loop of `CommitPlan` sets positions of fields. -/
theorem indexFields_below {n index : ℕ} {fields : List FieldPlan} {byId : List ℤ}
    (hn : index + fields.length ≤ n) (h : Below n byId) :
    Ensures (fun _ => True) (Below n) (indexFields fields index byId) := by
  induction fields generalizing index byId with
  | nil => exact h
  | cons field fields ih =>
    rw [List.length_cons] at hn
    rw [indexFields]
    refine (within_ensures trivial _).bind fun _ _ => (require_ensures trivial _).bind fun _ _ => ?_
    refine ih (by omega) fun i hi => ?_
    rcases List.mem_or_eq_of_mem_set hi with hi | rfl
    · exact h i hi
    · exact Int.ofNat_lt.2 (by omega)

theorem messagePlan_indexed (types : List TypePlan) (plan : List UInt8)
    (auxiliary recordWords child : UInt32) :
    Ensures (fun _ => True) TypePlan.Indexed
      (messagePlan types plan auxiliary recordWords child) := by
  have hfields : Ensures (fun _ => True) (fun _ => True) (planFields plan auxiliary.toNat 0) := by
    cases planFields plan auxiliary.toNat 0 <;> trivial
  have hindex : ∀ fields : List FieldPlan, Ensures (fun _ => True) (Below fields.length)
      (if fields.isEmpty then return [] else indexFields fields 0
        (List.replicate ((fields.map fun field => field.id.toNat).foldl max 0 + 1) (-1))) := by
    intro fields
    split
    · exact fun i hi => absurd hi List.not_mem_nil
    · refine indexFields_below (Nat.zero_add _).le fun i hi => ?_
      rw [List.eq_of_mem_replicate hi]
      exact (by decide : (-1 : ℤ) < 0).trans_le (Int.natCast_nonneg _)
  rw [messagePlan]
  refine (require_ensures trivial _).bind fun _ _ => hfields.bind fun fields _ => ?_
  refine (hindex fields).bind fun byId hbyId => ?_
  exact (require_ensures trivial _).bind fun _ _ => hbyId

theorem commitPlan_indexed {types : List TypePlan} (h : ∀ plan ∈ types, plan.Indexed)
    (plan : List UInt8) (handle length : UInt32) :
    Ensures (fun _ => True) (fun types' => ∀ plan ∈ types', plan.Indexed)
      (commitPlan types plan handle length) := by
  have hword : ∀ i, Ensures (fun _ => True) (fun _ => True) (planWord plan i) := by
    intro i
    cases planWord plan i <;> trivial
  have hunindexed : ∀ plan : TypePlan, plan.fieldIndexById = [] → plan.Indexed := by
    intro plan hnil i hi
    rw [hnil] at hi
    exact absurd hi List.not_mem_nil
  rw [commitPlan]
  refine (require_ensures trivial _).bind fun _ _ => (require_ensures trivial _).bind fun _ _ => ?_
  refine (hword _).bind fun kind _ => (hword _).bind fun auxiliary _ => ?_
  refine (hword _).bind fun recordWords _ => (hword _).bind fun child _ => ?_
  refine (require_ensures trivial _).bind fun _ _ => (within_ensures trivial _).bind
    fun reserved _ => ?_
  refine (require_ensures trivial _).bind fun _ _ => ?_
  refine Ensures.bind (P := TypePlan.Indexed) ?_ fun type htype => ?_
  · split
    · exact messagePlan_indexed _ _ _ _ _
    · split
      · rw [arrayPlan]
        refine (require_ensures trivial _).bind fun _ _ => (require_ensures trivial _).bind
          fun _ _ => ?_
        exact (require_ensures trivial _).bind fun _ _ => hunindexed _ rfl
      · split
        · rw [mapPlan]
          refine (require_ensures trivial _).bind fun _ _ =>
            (require_ensures trivial _).bind fun _ _ => ?_
          exact (require_ensures trivial _).bind fun _ _ => hunindexed _ rfl
        · trivial
  · intro plan' hplan'
    rcases List.mem_or_eq_of_mem_set hplan' with hmem | rfl
    · exact h plan' hmem
    · exact htype

/-- The plans that there can be have an index that stays in their fields. -/
theorem Reachable.indexed {types : List TypePlan} (h : Reachable types) :
    ∀ plan ∈ types, plan.Indexed := by
  induction h with
  | empty => exact fun plan hplan => absurd hplan List.not_mem_nil
  | @reserve types types' kind _ hreserve ih =>
    have hensures : Ensures (fun _ => True) (fun types' => ∀ plan ∈ types', plan.Indexed)
        (schemaReserve types kind) := by
      refine (require_ensures trivial _).bind fun _ _ plan hplan => ?_
      rcases List.mem_append.1 hplan with hplan | hplan
      · exact ih plan hplan
      · rw [List.mem_singleton.1 hplan]
        exact fun i hi => absurd hi List.not_mem_nil
    exact hensures.of_ok hreserve
  | @commit types types' plan handle length _ hcommit ih =>
    exact (commitPlan_indexed ih plan handle length).of_ok hcommit

end ProtoCache.Wasm

import ProtoCache.Lib.LittleEndian
import ProtoCache.Lib.Storage
import ProtoCache.Typescript.Schema
import ProtoCache.Typescript.Strings

/-!
# From the tape to values

The reader of the TypeScript package (`typescript/src/deserialize-tape.ts`) goes by a plan
of its own, and makes values of JavaScript of the tape that the decoder in WASM has left,
and of the input that the tape points into. It walks over the tape by a cursor, and takes
it for granted that what is there is what its plan expects.

A number of JavaScript is known here by what it was read from: an integer by its value, a
floating-point number by its bits.
-/

namespace ProtoCache.Typescript

open LittleEndian

/-! ## Values -/

/-- A value without parts. -/
inductive Scalar
  | undefined
  | boolean (b : Bool)
  | number (n : ℤ)
  | bigint (n : ℤ)
  | float32 (bits : UInt32)
  | float64 (bits : UInt64)
  | string (units : List UInt16)
  | bytes (bs : List UInt8)
  deriving DecidableEq, Repr

/-- `PresenceBits`. -/
inductive PresenceBits
  | word (w : UInt32)
  | words (ws : List UInt32)
  deriving DecidableEq, Repr

/-- A value that the reader makes. A message has its prototype, and its fields in the order
    in which they were set, and so do the entries of a `Map`. -/
inductive Decoded (α : Type)
  | scalar (s : Scalar)
  | message (prototype : α) (fields : List (String × Decoded α)) (present : PresenceBits)
  | array (elements : List (Decoded α))
  | map (entries : List (Scalar × Decoded α))

/-- What stands under a name or a key is replaced at its place; what is new comes last. -/
def assign {κ β : Type} [DecidableEq κ] (key : κ) (value : β) : List (κ × β) → List (κ × β)
  | [] => [(key, value)]
  | entry :: entries =>
    if entry.1 = key then (key, value) :: entries else entry :: assign key value entries

/-! ## Presence -/

/-- `1 << (index & 31)`. -/
def presenceMask (index : ℕ) : UInt32 := 1 <<< UInt32.ofNat (index % 32)

/-- The bit of a field is set. -/
def PresenceBits.mark (index : ℕ) : PresenceBits → PresenceBits
  | .word w => .word (w ||| presenceMask index)
  | .words ws => .words (ws.set (index / 32) ((ws[index / 32]?).getD 0 ||| presenceMask index))

/-- No bit is set, of as many words. -/
def PresenceBits.none (presenceWordCount : ℕ) : PresenceBits :=
  if presenceWordCount ≤ 1 then .word 0 else .words (List.replicate presenceWordCount 0)

/-! ## Plans -/

/-- `TapeField`. -/
structure TapeField (α : Type) where
  name : String
  kind : Kind
  child : ℕ
  createDefault : Decoded α

/-- `TapeType`. -/
inductive TapeType (α : Type)
  | message (prototype : α) (fields : List (TapeField α)) (presenceWordCount : ℕ)
  | array (valueKind : Kind) (child : ℕ)
  | map (keyKind valueKind : Kind) (child : ℕ)

/-- `DecodePlan`. -/
structure DecodePlan (α : Type) where
  root : ℕ
  types : List (TapeType α)

/-- What `defaultFactoryForField` makes. -/
def defaultForField {α : Type} (field : Field α) : Decoded α :=
  if field.repeated then (if field.keyKind = .none then .array [] else .map [])
  else
    match field.valueKind with
    | .message => .scalar .undefined
    | .bytes => .scalar (.bytes [])
    | .string => .scalar (.string [])
    | .u64 | .i64 => .scalar (.bigint 0)
    | .bool => .scalar (.boolean false)
    | .array => .array []
    | .map => .map []
    | _ => .scalar (.number 0)

/-! ## Reading -/

/-- What the reader throws. -/
inductive Failure
  /-- The `TextDecoder` is fatal: a `TypeError`. -/
  | encoding
  /-- An access outside of a `DataView`: a `RangeError`. -/
  | bounds
  /-- A property of `undefined`: a `TypeError`. -/
  | missing
  /-- `ProtoCache decode tape has trailing records`: a `TypeError`. -/
  | trailing
  /-- The nesting bound of the model is used up. -/
  | depth
  deriving DecidableEq, Repr

/-- A result of the reader. -/
abbrev Reading (β : Type) := Except Failure β

/-- What may be undefined, and is used in any case. -/
def defined {β : Type} (failure : Failure) : Option β → Reading β
  | some b => .ok b
  | none => .error failure

/-- `DataView.getUint32(offset, true)`. -/
def getUint32At (input : List UInt8) (offset : ℕ) : Reading UInt32 := do
  let bs ← defined .bounds (Storage.load (input.drop offset) 4)
  return UInt32.ofNat (le bs)

/-- `DataView.getBigUint64(offset, true)`. -/
def getBigUint64At (input : List UInt8) (offset : ℕ) : Reading UInt64 := do
  let bs ← defined .bounds (Storage.load (input.drop offset) 8)
  return UInt64.ofNat (le bs)

/-- `scalarAt`. -/
def scalarAt (input : List UInt8) (kind : Kind) (first second : ℕ) : Reading Scalar :=
  match kind with
  | .string => do return .string (← defined .encoding (decodeString input first second))
  | .bytes => return .bytes ((input.drop first).take second)
  | .bool => do return .boolean ((← getUint32At input (first * 4)) != 0)
  | .i32 | .enum => do return .number (← getUint32At input (first * 4)).toInt32.toInt
  | .u32 => do return .number (← getUint32At input (first * 4)).toNat
  | .i64 => do return .bigint (← getBigUint64At input (first * 4)).toInt64.toInt
  | .u64 => do return .bigint (← getBigUint64At input (first * 4)).toNat
  | .f32 => do return .float32 (← getUint32At input (first * 4))
  | .f64 => do return .float64 (← getBigUint64At input (first * 4))
  | _ => return .undefined

/-- `MaterializeContext`, without its cursor. -/
structure MaterializeContext (α : Type) where
  input : List UInt8
  tape : List UInt32
  types : List (TapeType α)

/-- `tape[index] ?? 0`. -/
def tapeAt (tape : List UInt32) (index : ℕ) : ℕ := ((tape[index]?).getD 0).toNat

/-- A message, while its fields are set. -/
structure Building (α : Type) where
  fields : List (String × Decoded α)
  present : PresenceBits

/-- A field is set to its default. -/
def Building.omit {α : Type} (field : TapeField α) (out : Building α) : Building α :=
  { out with fields := assign field.name field.createDefault out.fields }

/-- A field is set to a value that is present. -/
def Building.set {α : Type} (field : TapeField α) (presenceIndex : ℕ) (value : Decoded α)
    (out : Building α) : Building α where
  fields := assign field.name value out.fields
  present := out.present.mark presenceIndex

/-- `materialize`, of a type, from a cursor on: the value, and where the cursor is then. -/
abbrev Materializer (α : Type) := ℕ → ℕ → Reading (Decoded α × ℕ)

section

variable {α : Type} (context : MaterializeContext α) (rec : Materializer α)

/-- The value of a field or of an element, of a complex kind or not. -/
def valueAt (kind : Kind) (child first second cursor : ℕ) : Reading (Decoded α × ℕ) :=
  if kind.isComplexKind then rec child cursor
  else do return (.scalar (← scalarAt context.input kind first second), cursor)

/-- The loop over the fields of a message. -/
def materializeFields (descriptors : ℕ) :
    List (TapeField α) → ℕ → Building α → ℕ → Reading (Building α × ℕ)
  | [], _, out, cursor => return (out, cursor)
  | field :: fields, presenceIndex, out, cursor => do
    let first := tapeAt context.tape (descriptors + presenceIndex * 2)
    let second := tapeAt context.tape (descriptors + presenceIndex * 2 + 1)
    if first = 0 then
      materializeFields descriptors fields (presenceIndex + 1) (out.omit field) cursor
    else
      let (value, cursor) ← valueAt context rec field.kind field.child first second cursor
      materializeFields descriptors fields (presenceIndex + 1)
        (out.set field presenceIndex value) cursor

/-- A loop that makes `count` values, from an index on. -/
def collect {β : Type} (make : ℕ → ℕ → Reading (β × ℕ)) : ℕ → ℕ → ℕ → Reading (List β × ℕ)
  | 0, _, cursor => return ([], cursor)
  | count + 1, index, cursor => do
    let (value, cursor) ← make index cursor
    let (values, cursor) ← collect make count (index + 1) cursor
    return (value :: values, cursor)

/-- `materialize`, of an array. -/
def materializeArray (valueKind : Kind) (child start : ℕ) : Reading (Decoded α × ℕ) := do
  let count := tapeAt context.tape (start + 2)
  let data0 := tapeAt context.tape (start + 3)
  let data1 := tapeAt context.tape (start + 4)
  if valueKind = .bool then
    -- What is not there is not zero either.
    return (.array ((List.range count).map fun index =>
      .scalar (.boolean (context.input[data0 + index]? != some 0))), start + 5)
  else
    let (out, cursor) ← (
      if valueKind = .string ∨ valueKind = .bytes then
        collect (fun index cursor => do
          let first := tapeAt context.tape (start + 5 + index * 2)
          let second := tapeAt context.tape (start + 5 + index * 2 + 1)
          return (.scalar (← scalarAt context.input valueKind first second), cursor)) count 0
            (start + 5 + count * 2)
      else collect (fun index => valueAt context rec valueKind child (data0 + index * data1) data1)
        count 0 (start + 5))
    return (.array out, cursor)

/-- The key and the value of a pair, in `materialize` of a map. -/
def materializePair (keyKind valueKind : Kind)
    (child data0 keyWidth valueWidth descriptors descriptorStride index cursor : ℕ) :
    Reading ((Scalar × Decoded α) × ℕ) := do
  let descriptor := descriptors + index * descriptorStride
  let pair := data0 + index * (keyWidth + valueWidth)
  let key ← (if keyKind = .string then
      scalarAt context.input keyKind (tapeAt context.tape descriptor)
        (tapeAt context.tape (descriptor + 1))
    else scalarAt context.input keyKind pair keyWidth)
  let descriptor := if keyKind = .string then descriptor + 2 else descriptor
  let (value, cursor) ← (if valueKind = .string ∨ valueKind = .bytes then do
      let value ← scalarAt context.input valueKind (tapeAt context.tape descriptor)
        (tapeAt context.tape (descriptor + 1))
      return (.scalar value, cursor)
    else valueAt context rec valueKind child (pair + keyWidth) valueWidth cursor)
  return ((key, value), cursor)

/-- `materialize`, of a map. -/
def materializeMap (keyKind valueKind : Kind) (child start : ℕ) : Reading (Decoded α × ℕ) := do
  let count := tapeAt context.tape (start + 2)
  let data0 := tapeAt context.tape (start + 3)
  let data1 := tapeAt context.tape (start + 4)
  let keyWidth := data1 % 2 ^ 16
  let valueWidth := data1 / 2 ^ 16
  let descriptorStride := (if keyKind = .string then 2 else 0) +
    (if valueKind = .string ∨ valueKind = .bytes then 2 else 0)
  let descriptors := start + 5
  let (pairs, cursor) ← collect
    (materializePair context rec keyKind valueKind child data0 keyWidth valueWidth descriptors
      descriptorStride)
    count 0 (descriptors + descriptorStride * count)
  return (.map (pairs.foldl (fun out pair => assign pair.1 pair.2 out) []), cursor)

end

/-- `materialize`. -/
def materialize {α : Type} (context : MaterializeContext α) : ℕ → Materializer α
  | 0, _, _ => .error .depth
  | nested + 1, expectedType, start => do
    match ← defined .missing context.types[expectedType]? with
    | .message prototype fields presenceWordCount =>
      let descriptors := start + 5
      let (out, cursor) ← materializeFields context (materialize context nested) descriptors
        fields 0
        ⟨[], PresenceBits.none presenceWordCount⟩ (descriptors + fields.length * 2)
      return (.message prototype out.fields out.present, cursor)
    | .array valueKind child =>
      materializeArray context (materialize context nested) valueKind child start
    | .map keyKind valueKind child =>
      materializeMap context (materialize context nested) keyKind valueKind child start

/-- The end of `deserializeWithTape`, with the tape that the decoder has left. -/
def deserializeWithTape {α : Type} (nested : ℕ) (plan : DecodePlan α) (input : List UInt8)
    (tape : List UInt32) :
    Reading (Decoded α) := do
  let (value, cursor) ← materialize ⟨input, tape, plan.types⟩ nested plan.root 0
  if cursor ≠ tape.length then .error .trailing else return value

end ProtoCache.Typescript

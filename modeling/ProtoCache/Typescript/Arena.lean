import ProtoCache.Lib.Exceptional
import ProtoCache.Typescript.Schema
import Mathlib.Data.Finset.Erase
import Mathlib.Data.Finset.Insert
import Mathlib.Data.Finset.Dedup

/-!
# Writing the arena

The writer of the TypeScript package (`typescript/src/serialize-arena.ts`) walks over the
objects that are to be serialized, and writes records of them to an arena. What it does to
objects (it reads properties, goes over iterators, asks for prototypes) may run code of the
program, which may throw, do anything to its own objects and call the writer again; with
the memory of the arena, the caches and the checks of scalars that is an `Engine` here.
The module itself keeps the objects on the current path, for the writer to refuse cycles,
in a `Context`, and a flag against calls while one is under way.

An array of JavaScript that is used as a stack is a list here, its last element first.
-/

namespace ProtoCache.Typescript

open Exceptional

/-- A call of `serializeWithArena`. -/
structure Call (α : Type) where
  type : RuntimeType α
  value : Value α

/-- An operation that may run code of the program, which may call the writer back. -/
abbrev Act (σ α β : Type) := σ → Guest σ (Thrown α) (Call α) (List UInt8) β

/-- What surrounds the walk over the objects. -/
structure Engine (σ α : Type) where
  /-- `compiledSchemaHandle(type)`. -/
  compiledSchemaHandle : RuntimeType α → Act σ α ℕ
  /-- `compiledMessageFields(type)`, which is cached. -/
  compiledMessageFields : α → Act σ α (List (Field α))
  /-- `resolveRuntimeType(resolver, Kind.Message)`, which the writer caches. -/
  resolveMessage : Option α → Act σ α α
  /-- `resolveRuntimeType(resolver, Kind.Array)`, likewise. -/
  resolveArray : Option α → Act σ α (Kind × Option α)
  /-- `resolveRuntimeType(resolver, Kind.Map)`, likewise. -/
  resolveMap : Option α → Act σ α (Kind × Kind × Option α)
  /-- `typeof value === "function"`. -/
  callable : α → Bool
  /-- `Object.getPrototypeOf(value) === type.prototype`. -/
  hasPrototypeOf : α → α → Act σ α Bool
  /-- `record[name]`. -/
  get : α → String → Act σ α (Value α)
  /-- `Array.isArray(value)`. -/
  isArray : α → Act σ α Bool
  /-- `value.length`. -/
  length : α → Act σ α (Value α)
  /-- `value instanceof Map`. -/
  instanceofMap : α → Act σ α Bool
  /-- `value.size`. -/
  size : α → Act σ α (Value α)
  /-- `value instanceof Uint8Array`. -/
  instanceofBytes : α → Act σ α Bool
  /-- `value.byteLength`. -/
  byteLength : α → Act σ α (Value α)
  /-- The iterator that `for … of` asks for. -/
  iterator : α → Act σ α α
  /-- The next item of an iterator. -/
  next : α → Act σ α (Option (Value α))
  /-- The next item, taken apart as a key and a value. -/
  nextEntry : α → Act σ α (Option (Value α × Value α))
  /-- The iterator is told that the loop ends early. -/
  close : α → Act σ α PUnit
  /-- `currentArena()`. -/
  currentArena : Act σ α PUnit
  /-- `arena.offset`. -/
  offset : Act σ α ℕ
  /-- `arena.offset = start`. -/
  setOffset : ℕ → Act σ α PUnit
  /-- `arena.begin(kind, auxiliary, count)`. -/
  begin : Kind → ℕ → Value α → Act σ α ℕ
  /-- `arena.finish(start)`. -/
  finish : ℕ → Act σ α PUnit
  /-- `arena.view.setUint32(start + 8, count, true)`. -/
  setCount : ℕ → ℕ → Act σ α PUnit
  /-- `arena.writeU32(value)`. -/
  writeU32 : ℕ → Act σ α PUnit
  /-- `writeBlob(arena, kind, value)`. -/
  writeBlob : Kind → Value α → Act σ α PUnit
  /-- `writeScalar(arena, kind, value)`. -/
  writeScalar : Kind → Value α → Act σ α PUnit
  /-- `writeScalarArray(arena, kind, value)`. -/
  writeScalarArray : Kind → Value α → Act σ α PUnit
  /-- `finishSerializationArena(schemaHandle, arena.pointer, arena.offset)`. -/
  finishSerializationArena : ℕ → Act σ α (List UInt8)

/-- How the walk over the objects runs an operation of the engine, and how it writes an
    object that it has not left yet. -/
structure Walk (S σ α : Type) where
  act : {β : Type} → Act σ α β → Run S (Thrown α) β
  guarded : {β : Type} → α → Run S (Thrown α) β → Run S (Thrown α) β

/-! ## The walk over the objects -/

section

variable {S σ α : Type} (E : Engine σ α) (W : Walk S σ α)

/-- The writer of the values of a kind, where they are one level deeper. -/
abbrev ValueWriter (S α : Type) := Kind → Option α → Bool → Value α → Run S (Thrown α) PUnit

/-- `value === 0`. -/
def isZero : Value α → Bool
  | .number bits => bits == 0 || bits == 0x8000000000000000
  | _ => false

/-- The array that a value is. -/
def asArray : Value α → Run S (Thrown α) (Option α)
  | .object a => do
    let array ← W.act (E.isArray a)
    return if array then some a else none
  | _ => return none

/-- The `Map` that a value is. -/
def asMap : Value α → Run S (Thrown α) (Option α)
  | .object a => do
    let map ← W.act (E.instanceofMap a)
    return if map then some a else none
  | _ => return none

/-- The `Uint8Array` that a value is. -/
def asBytes : Value α → Run S (Thrown α) (Option α)
  | .object a => do
    let bytes ← W.act (E.instanceofBytes a)
    return if bytes then some a else none
  | _ => return none

/-- A condition on the object that a value may be, and on its size. -/
def emptyOf (found : Run S (Thrown α) (Option α)) (count : α → Act σ α (Value α)) :
    Run S (Thrown α) Bool := do
  match ← found with
  | none => return false
  | some a =>
    let size ← W.act (count a)
    return isZero size

/-- `isDefault`. -/
def isDefault (field : Field α) : Value α → Run S (Thrown α) Bool
  | .undefined => return true
  | .null => return true
  | value =>
    if field.keyKind ≠ .none then emptyOf W (asMap E W value) E.size
    else if field.repeated then emptyOf W (asArray E W value) E.length
    else match field.valueKind, value with
      | .bool, .boolean b => return !b
      | .i32, value | .enum, value | .u32, value | .f32, value | .f64, value => return isZero value
      | .i64, .bigint n | .u64, .bigint n => return n == 0
      | .string, .string units => return units.isEmpty
      | .bytes, value => emptyOf W (asBytes E W value) E.byteLength
      | .array, value => emptyOf W (asArray E W value) E.length
      | .map, value => emptyOf W (asMap E W value) E.size
      | _, _ => return false

/-- The rest of `for (const item of value)`. A run is given a number of rounds, and does
    not end if that does not do. -/
def forOf {β : Type} (next : Act σ α (Option β)) (close : Act σ α PUnit)
    (body : β → Run S (Thrown α) PUnit) :
    ℕ → Run S (Thrown α) PUnit
  | 0 => Run.never
  | rounds + 1 => do
    match ← W.act next with
    | none => return ()
    | some item =>
      (body item).onThrow (W.act close)
      forOf next close body rounds

/-- `writeKey`. -/
def writeKey (kind : Kind) (value : Value α) : Run S (Thrown α) PUnit :=
  if kind = .string then W.act (E.writeBlob .string value) else W.act (E.writeScalar kind value)

/-- The writer that `compileArrayWriter` makes, given that of the elements. -/
def writeArray (rounds : ℕ) (kind : Kind) (writeElement : Value α → Run S (Thrown α) PUnit)
    (value : Value α) :
    Run S (Thrown α) PUnit :=
  if kind.isScalarKind then W.act (E.writeScalarArray kind value)
  else do
    match ← asArray E W value with
    | none => Run.throw (.typeError "ProtoCache repeated field must be an Array")
    | some a =>
      W.guarded a do
        let length ← W.act (E.length a)
        let start ← W.act (E.begin .array kind.code length)
        let iterator ← W.act (E.iterator a)
        forOf W (E.next iterator) (E.close iterator) writeElement rounds
        W.act (E.finish start)

/-- `writeMap`. -/
def writeMap (rounds : ℕ) (keyKind valueKind : Kind) (writeValue : Value α → Run S (Thrown α) PUnit)
    (value : Value α) : Run S (Thrown α) PUnit := do
  match ← asMap E W value with
  | none => Run.throw (.typeError "ProtoCache map field must be a Map")
  | some a =>
    W.guarded a do
      let size ← W.act (E.size a)
      let start ← W.act (E.begin .map (keyKind.code ||| valueKind.code <<< 8) size)
      let iterator ← W.act (E.iterator a)
      forOf W (E.nextEntry iterator) (E.close iterator) (fun entry => do
        writeKey E W keyKind entry.1
        writeValue entry.2) rounds
      W.act (E.finish start)

/-- The `write` of a field, in `compileMessageWriter`. -/
def writeField (rounds : ℕ) (write : ValueWriter S α) (field : Field α) (value : Value α) :
    Run S (Thrown α) PUnit :=
  if field.keyKind ≠ .none then
    writeMap E W rounds field.keyKind field.valueKind
      (write field.valueKind field.resolver false) value
  else if field.repeated then
    writeArray E W rounds field.valueKind (write field.valueKind field.resolver false) value
  else write field.valueKind field.resolver (field.valueKind == .message) value

/-- The loop of the writer that `compileMessageWriter` makes, over the fields. -/
def writeFields (rounds : ℕ) (write : ValueWriter S α) (record : α) :
    List (Field α) → ℕ → Run S (Thrown α) ℕ
  | [], count => return count
  | field :: fields, count => do
    let fieldValue ← W.act (E.get record field.name)
    let skipped ← isDefault E W field fieldValue
    if skipped then writeFields rounds write record fields count
    else do
      W.act (E.writeU32 field.id)
      writeField E W rounds write field fieldValue
      writeFields rounds write record fields (count + 1)

/-- The writer that `compileMessageWriter` makes; the number of fields that it writes. -/
def writeMessage (rounds : ℕ) (write : ValueWriter S α) (fields : List (Field α)) :
    Value α → Run S (Thrown α) ℕ
  | .object a =>
    if E.callable a then Run.throw (.typeError "ProtoCache message field must be an object")
    else W.guarded a do
      let fieldCapacity := (fields.map fun field => field.id + 1).foldl max 1
      let start ← W.act (E.begin .message fieldCapacity (.number 0))
      let count ← writeFields E W rounds write a fields 0
      W.act (E.setCount start count)
      W.act (E.finish start)
      return count
  | _ => Run.throw (.typeError "ProtoCache message field must be an object")

/-- `typeof value !== "object" || value === null || Object.getPrototypeOf(value) !== type.prototype`
    is refused. -/
def requireExact (text : String) (type : α) : Value α → Run S (Thrown α) PUnit
  | .object a => do
    if E.callable a then Run.throw (.typeError text)
    else do
      let exact_ ← W.act (E.hasPrototypeOf a type)
      if exact_ then return () else Run.throw (.typeError text)
  | _ => Run.throw (.typeError text)

/-- `nextDepth`: the writer for one level deeper, if there is one. -/
def nextDepth {β : Type} (deeper : Option (ValueWriter S α))
    (f : ValueWriter S α → Run S (Thrown α) β) :
    Run S (Thrown α) β :=
  match deeper with
  | none => Run.throw (.rangeError "ProtoCache nesting depth exceeds the runtime limit")
  | some write => f write

/-- The writer that `compileValueWriter` makes, given that for one level deeper. -/
def writeValueWith (rounds : ℕ) (deeper : Option (ValueWriter S α)) (kind : Kind)
    (resolver : Option α) (omitEmptyMessage : Bool) (value : Value α) : Run S (Thrown α) PUnit :=
  match kind with
  | .string | .bytes => W.act (E.writeBlob kind value)
  | .message => do
    let type ← W.act (E.resolveMessage resolver)
    let fields ← W.act (E.compiledMessageFields type)
    requireExact E W "ProtoCache message field must match its schema type exactly" type value
    let start ← W.act E.offset
    let count ← nextDepth deeper fun write => writeMessage E W rounds write fields value
    if omitEmptyMessage && count == 0 then do
      W.act (E.setOffset start)
      let _ ← W.act (E.begin .none 0 (.number 0))
      return ()
    else return ()
  | .array => do
    let schema ← W.act (E.resolveArray resolver)
    nextDepth deeper fun write => writeArray E W rounds schema.1
      (write schema.1 schema.2 false) value
  | .map => do
    let schema ← W.act (E.resolveMap resolver)
    nextDepth deeper fun write =>
      writeMap E W rounds schema.1 schema.2.1 (write schema.2.1 schema.2.2 false) value
  | kind => W.act (E.writeScalar kind value)

/-- `MAX_DEPTH`. -/
def maxDepth : ℕ := 256

/-- The writer that `compileValueWriter` makes, where `levels` more are allowed: that is
    `MAX_DEPTH - depth`. -/
def writeValue (rounds : ℕ) : ℕ → ValueWriter S α
  | 0 => writeValueWith E W rounds none
  | levels + 1 => writeValueWith E W rounds (some (writeValue rounds levels))

/-- The writer that `compileRoot` makes. -/
def writeRoot (rounds : ℕ) (type : RuntimeType α) (value : Value α) : Run S (Thrown α) PUnit :=
  let write := writeValue E W rounds maxDepth
  match type with
  | .message constructor => do
    let fields ← W.act (E.compiledMessageFields constructor)
    let _ ← writeMessage E W rounds write fields value
    return ()
  | .array _ valueKind valueType =>
    writeArray E W rounds valueKind (write valueKind valueType false) value
  | .map _ keyKind valueKind valueType =>
    writeMap E W rounds keyKind valueKind (write valueKind valueType false) value
  | .unsupported _ => Run.throw (.typeError "Unsupported ProtoCache runtime type")

/-- The check of the root, in `serializeWithArena`. -/
def requireRoot (type : RuntimeType α) (value : Value α) : Run S (Thrown α) PUnit :=
  match type with
  | .message constructor =>
    requireExact E W "ProtoCache root message must match its schema type exactly" constructor value
  | _ => return ()

/-- The statements that `try` guards in `serializeWithArena`. -/
def serializeBody (rounds : ℕ) (call : Call α) : Run S (Thrown α) (List UInt8) := do
  let schemaHandle ← W.act (E.compiledSchemaHandle call.type)
  requireRoot E W call.type call.value
  W.act E.currentArena
  writeRoot E W rounds call.type call.value
  W.act (E.finishSerializationArena schemaHandle)

end

/-! ## Cycles -/

section

variable {σ α : Type} [DecidableEq α]

/-- `Context`: the objects on the path, the last first, and the `WeakSet` of them. -/
structure Context (α : Type) where
  stack : List α := []
  set : Option (Finset α) := none

/-- `CYCLE_SET_THRESHOLD`. -/
def cycleSetThreshold : ℕ := 16

/-- The error of `enterCycle`. -/
def cyclic : Thrown α := .typeError "ProtoCache cannot serialize a cyclic object graph"

/-- The loop of `enterCycle`: is the object on the stack? -/
def scan (value : α) : List α → Bool
  | [] => false
  | top :: stack => top == value || scan value stack

/-- `enterCycle`. -/
def enterCycle (value : α) (context : Context α) : Except (Thrown α) (Context α) :=
  match context.set with
  | none =>
    if scan value context.stack then .error cyclic
    else if context.stack.length = cycleSetThreshold then
      .ok ⟨value :: context.stack, some (insert value context.stack.toFinset)⟩
    else .ok ⟨value :: context.stack, none⟩
  | some set =>
    if value ∈ set then .error cyclic
    else .ok ⟨value :: context.stack, some (insert value set)⟩

/-- `leaveCycle`. -/
def leaveCycle (value : α) (context : Context α) : Context α :=
  let stack := context.stack.tail
  match context.set with
  | none => ⟨stack, none⟩
  | some set => ⟨stack, if stack.length < cycleSetThreshold then none else some (set.erase value)⟩

/-- What the module keeps: `serializationContext` and `serializationActive`. -/
structure Module (α : Type) where
  context : Context α := {}
  active : Bool := false

/-- The module, before the first call. -/
def Module.initial : Module α := {}

/-- The walk of the module: an object is entered, and it is left in any case. The calls
    back go to `again`. -/
def moduleWalk (again : Call α → Run (Module α × σ) (Thrown α) (List UInt8)) :
    Walk (Module α × σ) σ α where
  act a := fun s => (a s.2).run again s
  guarded value body := fun s =>
    match enterCycle value s.1.context with
    | .error e => some (.error e, s)
    | .ok context =>
      body.always (fun s => ({ s.1 with context := leaveCycle value s.1.context }, s.2))
        ({ s.1 with context := context }, s.2)

/-- `serializeWithArena`. Its calls back may call back in turn, `nested` times. -/
def serializeWithArena (E : Engine σ α) (rounds : ℕ) :
    ℕ → Call α → Run (Module α × σ) (Thrown α) (List UInt8)
  | nested, call => fun s =>
    if s.1.active then
      some (.error (.typeError "ProtoCache WASM serialization is not reentrant"), s)
    else
      match nested with
      | 0 => none
      | nested + 1 =>
        (serializeBody E (moduleWalk (serializeWithArena E rounds nested)) rounds call).always
          (fun s => ({ s.1 with active := false }, s.2)) ({ s.1 with active := true }, s.2)

end

end ProtoCache.Typescript

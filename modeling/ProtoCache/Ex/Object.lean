import ProtoCache.Detect
import ProtoCache.Discriminator
import ProtoCache.MapEx

/-!
# EX objects

`include/protocache/access-ex.h`, and the classes for it that `tools/protoc-gen-pccx.cc`
makes. A message is bound to an object in a buffer, and takes a field from there when it is
accessed first; from then on it has a value of its own for the field. A message none of whose
fields was accessed is written by copying what `Detect` finds, and so is a field that was not
accessed.

A call of `Serialize` is given one `end`, and hands it on to all calls that it makes. It is the
end of the buffer `raw`, in which the messages of an object are bound.

The functions for the fields are given the one for objects (`Writer`), and `serialize` ties
the knot.
-/

namespace ProtoCache.Ex

open Extension (Key Seeds Seeds.call)

/-- What a message is bound to: a position in the buffer of which all messages of a call share the
    end, or the shared empty message, which is in no buffer, so that it may compare as past this
    end. -/
inductive Bound
  | at (pos : ℕ)
  | empty (past : Bool)

/-- Values of the fields, elements and pairs: scalars, and `uint8_t` for a Boolean in a map;
    `std::string`; `ArrayEX` of Booleans, of other scalars and of anything else; `MapEX`; and
    `std::unique_ptr` of a message of a class, with the values of those of its fields that were
    accessed. Numbers are told by their bits. -/
inductive Object
  | w32 (x : UInt32)
  | w64 (x : UInt64)
  | float (x : UInt32)
  | double (x : UInt64)
  | bool (x : Bool)
  | octet (x : UInt8)
  | str (s : List UInt8)
  | bools (core : List UInt8)
  | scalars (m : ℕ) (core : List (List UInt32))
  | array (core : List Object)
  | map (core : List (Key × Object))
  | message (name : ℕ) (view : Bound) (fields : List (Option Object))
  | null

/-- `Serialize` of an object. -/
abbrev Writer := Seeds → Object → Buffer → Res (Unit × Buffer)

/-- `field == 0`, of a scalar. -/
def Object.isZero : Object → Bool
  | .w32 x => x = 0
  | .w64 x => x = 0
  | .float x => x <<< 1 = 0
  | .double x => x <<< 1 = 0
  | .bool x => !x
  | .octet x => x = 0
  | _ => false

/-- `field.empty()`. -/
def Object.isEmpty : Object → Bool
  | .str s => s.isEmpty
  | .bools core => core.isEmpty
  | .scalars _ core => core.isEmpty
  | .array core => core.isEmpty
  | .map core => core.isEmpty
  | _ => false

/-- The words of a slice. -/
def wordsOfSlice (s : WordSlice) : Res (List UInt32) :=
  match s.ptr with
  | .at v => access (Storage.load v s.size)
  | .nul _ => if s.size = 0 then .ok [] else .error .fault

/-- `Copy`. -/
def copy (src : WordSlice) (fold : Bool) (buf : Buffer) : Res (Unit × Buffer) := do
  return copySlice (← wordsOfSlice src) fold buf {}

/-- The words that a message is bound to, and what stands behind them up to the end. -/
def Bound.words (raw : List UInt32) : Bound → List UInt32
  | .at pos => raw.drop pos
  | .empty _ => [0]

/-- `Detect` of the class of a message, at what it is bound to. -/
def Bound.detect (classes : Schema) (raw : List UInt32) (bounded : Bool) (name : ℕ) (view : Bound) :
    Res WordSlice :=
  match view with
  | .empty true =>
    if bounded then .ok WordSlice.null
      else ProtoCache.detect classes false false 2 (.message name) (.at [0])
  | view =>
    ProtoCache.detect classes false bounded ((view.words raw).length + 1) (.message name)
      (.at (view.words raw))

/-! ## Loops -/

section

variable {α : Type} (put : ℕ → α → Buffer → Res (Unit × Buffer))

/-- The loop over the elements of `ArrayEX`, from its end. -/
def putAll : List α → Buffer → Res (List Unit × Buffer)
  | [], buf => return ([], buf)
  | x :: xs, buf => do
    let (units, buf) ← putAll xs buf
    let (unit, buf) ← put xs.length x buf
    return (unit :: units, buf)

/-- The loop over the fields of a message, from the last one. There are parts for the numbers
    between the fields, too, and they stay as they are. -/
def putParts : List (Option α) → Buffer → Res (List Unit × Buffer)
  | [], buf => return ([], buf)
  | none :: table, buf => do
    let (parts, buf) ← putParts table buf
    return ({} :: parts, buf)
  | some x :: table, buf => do
    let (parts, buf) ← putParts table buf
    let (part, buf) ← put table.length x buf
    return (part :: parts, buf)

end

/-- The fields at their places, from the `k`-th on. -/
def spread {α : Type} : ℕ → List (ℕ × α) → List (Option α)
  | _, [] => []
  | k, (i, a) :: l => List.replicate (i - k) none ++ some a :: spread (i + 1) l

/-! ## Fields -/

/-- The end of `SerializeField` of a message: one without fields is not kept. -/
def keepMessage (unit : Unit) (buf : Buffer) : Res (Unit × Buffer) :=
  if unit.size = 1 then
    if unit.len = 0 then return ({ unit with d₁ := 0 }, buf.drop 1)
      else return ({ unit with len := 0 }, buf)
  else foldField buf unit

section

variable (hash : List UInt8 → UInt32 → V128) (classes : Schema) (raw : List UInt32) (bounded : Bool)
  (rec : Writer)

/-- `MessageEX::SerializeField`, of a field of a type that has a value if it was accessed. -/
def serializeField (seeds : Seeds) (view : List UInt32) (id : ℕ) (t : Ty) (field : Option Object)
    (buf : Buffer) :
    Res (Unit × Buffer) :=
  match field with
  | none => do
    let f ← getField bounded view id
    let src ← Field.detect (detect classes false bounded (view.length + 1)) bounded t f
    let (unit, buf) ← copy src true buf
    match t with
    | .message _ => keepMessage unit buf
    | _ => return (unit, buf)
  | some x =>
    match t with
    | .scalar => if x.isZero then return ({}, buf) else rec seeds x buf
    | .message _ => do
      let (unit, buf) ← rec seeds x buf
      keepMessage unit buf
    | _ =>
      if x.isEmpty then return ({}, buf)
      else do
        let (unit, buf) ← rec seeds x buf
        foldField buf unit

/-- `Serialize` of a message, with what its fields have: what it is bound to is copied if no
    field was accessed. -/
def serializeMessageEX (seeds : Seeds) (name : ℕ) (view : Bound) (fields : List (Option Object))
    (buf : Buffer) :
    Res (Unit × Buffer) :=
  if fields.all Option.isNone then do copy (← view.detect classes raw bounded name) false buf
  else do
    let table := spread 0 (((classes name).zip fields).map fun e => (e.1.1, e))
    let (parts, out) ← putParts
      (fun i e => serializeField classes bounded rec (seeds.call i) (view.words raw) e.1.1 e.1.2
        e.2) table buf
    serializeMessage parts out buf.length

/-- `Serialize` of an object. -/
def serializeObject (seeds : Seeds) (x : Object) (buf : Buffer) : Res (Unit × Buffer) :=
  match x with
  | .w32 x | .float x => .ok (serialize32 x, buf)
  | .w64 x | .double x => .ok (serialize64 x, buf)
  | .bool x => .ok (serializeBool x, buf)
  | .octet x => .ok (serializeScalar 1 x.toUInt64, buf)
  | .str s => serializeString s buf
  | .bools core => serializeString core buf
  | .scalars m core => serializeScalars m core buf
  | .array core => do
    let (units, out) ← putAll (fun i x => rec (seeds.call i) x) core buf
    serializeArray units out buf.length
  | .map core =>
    serializeMapFieldByKey hash (seeds []) Key.bytes Key.put (fun i x => rec (seeds.call i) x)
      core buf
  | .message name view fields =>
    serializeMessageEX classes raw bounded rec seeds name view fields buf
  | .null => .error .reject

end

/-- `Serialize` of an object, of which the messages are bound in the buffer `raw`. -/
def serialize (hash : List UInt8 → UInt32 → V128) (classes : Schema) (raw : List UInt32)
    (bounded : Bool) : ℕ → Writer
  | 0, _, _, _ => .error .fuel
  | fuel + 1, seeds, x, buf =>
    serializeObject hash classes raw bounded (serialize hash classes raw bounded fuel) seeds x buf

/-- `Serialize` of an object into a buffer: the unit is a dummy. -/
def serializeRoot (hash : List UInt8 → UInt32 → V128) (classes : Schema) (raw : List UInt32)
    (bounded : Bool) (fuel : ℕ) (seeds : Seeds) (x : Object) (buf : Buffer) : Res Buffer := do
  let (_, buf) ← serialize hash classes raw bounded fuel seeds x buf
  return buf

end ProtoCache.Ex

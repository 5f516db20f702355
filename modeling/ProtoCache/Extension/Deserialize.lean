import ProtoCache.Access
import ProtoCache.Extension.Message

/-!
# Reading a message of Protobuf

`src/extension/deserialize.cc`. The functions for the fields are given the one for
messages (`Reader`), and `deserialize` ties the knot. A message is cleared before it is
read, so what is not read of it is clear.
-/

namespace ProtoCache.Extension

/-- `Deserialize` of a message of a type. -/
abbrev Reader := ℕ → Ptr → Res Value

section

variable (rec : Reader) (bounded : Bool)

/-- `DeserializeSingle`. -/
def deserializeSingle (t : FieldType) (src : Field) : Res Value :=
  match t.form with
  | .message name => do rec name (← src.getObject bounded)
  | .str => do return .str (← ByteSlice.get (← src.getString bounded))
  | .w64 => do return .w64 (← src.get64 bounded)
  | .w32 => do return .w32 (← src.get32 bounded)
  | .bool => do return .bool (← src.getBool bounded)
  | .other => .error .reject

/-- `DeserializeArray`. The loops over strings and over numbers are told no end. -/
def deserializeArray (t : FieldType) (ptr : Ptr) : Res (List Value) :=
  match t.form with
  | .message name => do
    (← openArray bounded ptr).forEach fun one => do rec name (← one.getObject bounded)
  | .str => do
    (← openArray bounded ptr).forEach fun one =>
      do return .str (← ByteSlice.get (← one.getString false))
  | .w64 => do (← openArray bounded ptr).numbers 2 fun one => do return .w64 (← one.get64 false)
  | .w32 => do (← openArray bounded ptr).numbers 1 fun one => do return .w32 (← one.get32 false)
  | .bool => do
    let bytes ← ByteSlice.get (← readString bounded ptr)
    return bytes.map fun b => .bool (b ≠ 0)
  | .other => .error .reject

/-- The key of a pair. -/
def deserializeKey (t : FieldType) (src : Field) : Res Key :=
  match t.keyForm with
  | .str => do return .str (← ByteSlice.get (← src.getString bounded))
  | .w64 => do return .w64 (← src.get64 bounded)
  | .w32 => do return .w32 (← src.get32 bounded)
  | _ => .error .reject

/-- `DeserializeMap`. -/
def deserializeMap (key value : FieldType) (ptr : Ptr) : Res (List (Key × Value)) := do
  let map ← openMap bounded ptr
  if map.body = Ptr.null then .error .reject
  else
    map.forEach fun pair => do
      let k ← deserializeKey bounded key pair.1
      let v ← deserializeSingle rec bounded value pair.2
      return (k, v)

/-- What a message has for a field that is clear. -/
def FieldKind.clear : FieldKind → Slot
  | .single _ => .absent
  | .repeated _ => .repeated []
  | .map _ _ => .map []

/-- What is read for a field of a message. -/
def deserializeField (view : List UInt32) (f : FieldDescriptor) : Res Slot :=
  if f.deprecated then return f.kind.clear
  else do
    let src ← getField bounded view (f.number - 1)
    if src.ptr = Ptr.null then return f.kind.clear
    else
      match f.kind with
      | .single t => do return .one (← deserializeSingle rec bounded t src)
      | .repeated t =>
        do return .repeated (← deserializeArray rec bounded t (← src.getObject bounded))
      | .map key value =>
        do return .map (← deserializeMap rec bounded key value (← src.getObject bounded))

/-- The loop over the fields of a message. -/
def deserializeFields (view : List UInt32) : List FieldDescriptor → Res (List Slot)
  | [] => return []
  | f :: fields => do
    let slot ← deserializeField rec bounded view f
    let slots ← deserializeFields view fields
    return slot :: slots

/-- `Deserialize` of a message with these fields. -/
def deserializeMessage (fields : List FieldDescriptor) (ptr : Ptr) : Res Value :=
  match aliasField fields with
  | some f =>
    match f.kind with
    | .single _ => .error .reject
    | .repeated t => do return .message [.repeated (← deserializeArray rec bounded t ptr)]
    | .map key value => do return .message [.map (← deserializeMap rec bounded key value ptr)]
  | none => do
    match ← openMessage bounded ptr with
    | none => .error .reject
    | some view => do return .message (← deserializeFields rec bounded view fields)

end

/-- `Deserialize` of a message of a type at a pointer. -/
def deserialize (schema : Descriptors) (bounded : Bool) : ℕ → Reader
  | 0, _, _ => .error .fuel
  | fuel + 1, name, ptr =>
    deserializeMessage (deserialize schema bounded fuel) bounded (schema name) ptr

/-- `Deserialize` of a buffer, which is null if it is empty and there is no memory behind it
    (`mem`). A message takes at least one word. -/
def deserializeRoot (schema : Descriptors) (name : ℕ) (mem : Bool) (raw : List UInt32) :
    Res Value :=
  if raw = [] ∧ mem = false then deserialize schema false 1 name Ptr.null
  else deserialize schema true (raw.length + 1) name (.at raw)

end ProtoCache.Extension

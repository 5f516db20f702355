import ProtoCache.Extension.Message
import ProtoCache.Serialize.MapField
import ProtoCache.Serialize.Message

/-!
# Writing a message of Protobuf

`src/extension/serialize.cc`. A message is written from its last field to its first, and
what is in a field is written before the field, so that all that belongs to a message
stands behind its head.

The functions for the fields are given the one for messages (`Writer`), and `serialize`
ties the knot. A message has slots for the fields of its type (`fits`), and they hold
values of the types of the fields; others are no messages of the type.
-/

namespace ProtoCache.Extension

open LittleEndian

/-- The random numbers that a call draws on: its own, and those of the calls in it. -/
abbrev Seeds := List ℕ → ℕ → UInt32

/-- The random numbers of the `i`-th call. -/
def Seeds.call (seeds : Seeds) (i : ℕ) : Seeds := fun path => seeds (i :: path)

/-- `Serialize` of a message of a type. -/
abbrev Writer := Seeds → ℕ → Value → Buffer → Res (Unit × Buffer)

/-! ## Keys -/

namespace Key

/-- The case that a key is of. -/
def form : Key → Form
  | w32 _ => .w32
  | w64 _ => .w64
  | str _ => .str

/-- The bytes of a key that are hashed. -/
def bytes : Key → List UInt8
  | w32 x => wordBytes x
  | w64 x => toLE 8 x.toNat
  | str s => s

/-- `Serialize` of a key. -/
def put : Key → Buffer → Res (Unit × Buffer)
  | w32 x, buf => .ok (serialize32 x, buf)
  | w64 x, buf => .ok (serialize64 x, buf)
  | str s, buf => serializeString s buf

end Key

section

variable (hash : List UInt8 → UInt32 → V128) (rec : Writer)

/-! ## Fields -/

/-- `SerializeContext::SerializeSimpleField`. -/
def serializeSimpleField (seeds : Seeds) (t : FieldType) (v : Value) (buf : Buffer) :
    Res (Unit × Buffer) :=
  match t.form, v with
  | .message name, v => rec seeds name v buf
  | .str, .str s => serializeString s buf
  | .w64, .w64 x => .ok (serialize64 x, buf)
  | .w32, .w32 x => .ok (serialize32 x, buf)
  | .bool, .bool x => .ok (serializeBool x, buf)
  | _, _ => .error .reject

/-- The loop over the elements of an array, from its end. -/
def putElements (put : ℕ → Value → Buffer → Res (Unit × Buffer)) :
    List Value → Buffer → Res (List Unit × Buffer)
  | [], buf => return ([], buf)
  | v :: vs, buf => do
    let (units, buf) ← putElements put vs buf
    let (unit, buf) ← put vs.length v buf
    return (unit :: units, buf)

/-- The words of a number. -/
def numberWords : Value → Res (List UInt32)
  | .w32 x => .ok [x]
  | .w64 x => .ok [x.toUInt32, (x >>> 32).toUInt32]
  | _ => .error .reject

/-- The words of numbers of `m` words. -/
def allNumbers (m : ℕ) : List Value → Res (List UInt32)
  | [] => .ok []
  | v :: vs => do
    let words ← numberWords v
    let rest ← allNumbers m vs
    if words.length = m then return words ++ rest else .error .reject

/-- The bytes of Booleans. -/
def boolBytes : List Value → Res (List UInt8)
  | [] => .ok []
  | .bool x :: vs => do return (if x then 1 else 0) :: (← boolBytes vs)
  | _ :: _ => .error .reject

/-- `SerializeContext::SerializeArray`, of numbers of `m` words. -/
def serializeNumbers (m : ℕ) (vs : List Value) (buf : Buffer) : Res (Unit × Buffer) :=
  if vs.length = 0 then .ok ({ len := 1, d₀ := UInt32.ofNat m }, buf)
  else if 2 ^ 30 ≤ m * vs.length then .error .reject
  else do
    let words ← allNumbers m vs
    let out := UInt32.ofNat (vs.length <<< 2 ||| m) :: (words ++ buf)
    return (segment buf.length out.length, out)

/-- `SerializeContext::SerializeArrayField`, of enumerations. -/
def serializeEnums (vs : List Value) (buf : Buffer) : Res (Unit × Buffer) :=
  if 2 ^ 30 ≤ vs.length then .error .reject
  else do
    let words ← allNumbers 1 vs
    let out := UInt32.ofNat (vs.length <<< 2 ||| 1) :: (words ++ buf)
    return (segment buf.length out.length, out)

/-- `SerializeContext::SerializeArrayField`. -/
def serializeArrayField (seeds : Seeds) (t : FieldType) (vs : List Value) (buf : Buffer) :
    Res (Unit × Buffer) :=
  if t = .enum then serializeEnums vs buf
  else
    match t.form with
    | .w64 => serializeNumbers 2 vs buf
    | .w32 => serializeNumbers 1 vs buf
    | .bool => do serializeString (← boolBytes vs) buf
    | .other => .error .reject
    | _ => do
      let (units, out) ← putElements (fun i v => serializeSimpleField rec (seeds.call i) t v) vs buf
      serializeArray units out buf.length

/-- `SerializeContext::SerializeMapField`. -/
def serializeMapField (seeds : Seeds) (key value : FieldType) (pairs : List (Key × Value))
    (buf : Buffer) :
    Res (Unit × Buffer) :=
  if key.keyForm = .other ∨ ∃ p ∈ pairs, p.1.form ≠ key.keyForm then .error .reject
  else
    serializeMapFieldByKey hash (seeds []) Key.bytes Key.put
      (fun i v => serializeSimpleField rec (seeds.call i) value v) pairs buf

/-- `SerializeContext::SerializeField`. -/
def serializeField (seeds : Seeds) (kind : FieldKind) (slot : Slot) (buf : Buffer) :
    Res (Unit × Buffer) :=
  match kind, slot with
  | .repeated t, .repeated vs =>
    if vs.length = 0 then return ({}, buf) else serializeArrayField rec seeds t vs buf
  | .map key value, .map pairs =>
    if pairs.length = 0 then return ({}, buf)
      else serializeMapField hash rec seeds key value pairs buf
  | .single _, .absent => return ({}, buf)
  | .single t, .one v => do
    let (unit, buf) ← serializeSimpleField rec seeds t v buf
    match t.form with
    | .message _ =>
      -- An empty message is not kept.
      if unit.size = 1 then
        if unit.len = 0 then return ({ unit with d₁ := 0 }, buf.drop 1)
          else return ({ unit with len := 0 }, buf)
      else return (unit, buf)
    | _ => return (unit, buf)
  | _, _ => .error .reject

/-! ## Messages -/

/-- A field that is not deprecated, with what the message has for it, at every number; the
    loop over the fields. -/
def fillTable : List (FieldDescriptor × Slot) → List (Option (FieldDescriptor × Slot)) →
    Res (List (Option (FieldDescriptor × Slot)))
  | [], table => return table
  | (f, slot) :: fields, table =>
    if f.deprecated then fillTable fields table
    else
      match table[f.number - 1]? with
      | some none => fillTable fields (table.set (f.number - 1) (some (f, slot)))
      | _ => .error .reject

/-- The largest number of a field. -/
def maxId (fields : List FieldDescriptor) : ℕ := (fields.map FieldDescriptor.number).foldl max 1

/-- The loop over the fields of a message, from the last number. -/
def putFields (seeds : Seeds) :
    List (Option (FieldDescriptor × Slot)) → Buffer → Res (List Unit × Buffer)
  | [], buf => return ([], buf)
  | none :: table, buf => do
    let (parts, buf) ← putFields seeds table buf
    return ({} :: parts, buf)
  | some (f, slot) :: table, buf => do
    let (parts, buf) ← putFields seeds table buf
    let (part, buf) ← serializeField hash rec (seeds.call table.length) f.kind slot buf
    let (part, buf) ← foldField buf part
    return (part :: parts, buf)

/-- `SerializeContext::Serialize` of an alias message. -/
def serializeAlias (seeds : Seeds) (kind : FieldKind) (slot : Slot) (buf : Buffer) :
    Res (Unit × Buffer) :=
  match kind with
  | .single _ => .error .reject
  | .repeated _ => do
    let (unit, buf) ← serializeField hash rec seeds kind slot buf
    if unit.segLen = 0 then return ({ unit with len := 1, d₀ := 1 }, buf) else return (unit, buf)
  | .map _ _ => do
    let (unit, buf) ← serializeField hash rec seeds kind slot buf
    if unit.segLen = 0 then return ({ unit with len := 1, d₀ := (5 : UInt32) <<< 28 }, buf)
      else return (unit, buf)

/-- `SerializeContext::Serialize` of a message with these fields at the numbers. -/
def serializeTable (seeds : Seeds) (table : List (Option (FieldDescriptor × Slot))) (buf : Buffer) :
    Res (Unit × Buffer) := do
  let (parts, out) ← putFields hash rec seeds table buf
  serializeMessage parts out buf.length

/-- `SerializeContext::Serialize`. -/
def serializeSlots (seeds : Seeds) (fields : List FieldDescriptor) (slots : List Slot)
    (buf : Buffer) :
    Res (Unit × Buffer) :=
  if fields.length = 0 then .error .reject
  else if ∃ f ∈ fields, f.number = 0 then .error .reject
  else if 12 + 25 * 255 < maxId fields ∨ 6 < maxId fields - fields.length ∧
    fields.length * 2 < maxId fields then
    .error .reject
  else do
    let table ← fillTable (fields.zip slots) (List.replicate (maxId fields) none)
    match table with
    | [some (f, slot)] =>
      if f.name = "_" then serializeAlias hash rec seeds f.kind slot buf
      else serializeTable hash rec seeds table buf
    | _ => serializeTable hash rec seeds table buf

end

/-- A slot of a field of this kind. -/
def Slot.fits : Slot → FieldKind → Bool
  | .absent, .single _ => true
  | .one _, .single _ => true
  | .repeated _, .repeated _ => true
  | .map _, .map _ _ => true
  | _, _ => false

/-- The slots of a message with these fields. -/
def fits : List Slot → List FieldDescriptor → Bool
  | [], [] => true
  | s :: slots, f :: fields => s.fits f.kind && fits slots fields
  | _, _ => false

/-- `SerializeContext::Serialize` of a message of a type. -/
def serialize (hash : List UInt8 → UInt32 → V128) (schema : Descriptors) : ℕ → Writer
  | 0, _, _, _, _ => .error .fuel
  | fuel + 1, seeds, name, v, buf =>
    match v with
    | .message slots =>
      if fits slots (schema name) then
        serializeSlots hash (serialize hash schema fuel) seeds (schema name) slots buf
      else .error .reject
    | _ => .error .reject

/-- `Serialize` of a message: what it says of the words that are not in the buffer is
    dropped. -/
def serializeRoot (hash : List UInt8 → UInt32 → V128) (schema : Descriptors) (fuel : ℕ)
    (seeds : Seeds) (name : ℕ) (v : Value) (buf : Buffer) : Res Buffer := do
  let (_, buf) ← serialize hash schema fuel seeds name v buf
  return buf

end ProtoCache.Extension

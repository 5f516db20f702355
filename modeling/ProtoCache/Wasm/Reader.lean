import ProtoCache.Access
import ProtoCache.Wasm.Plan

/-!
# What the accessors read

What the views of `include/protocache/access.h` read of an object, told the end of the buffer,
by the plan of its type (`readType`): the words that `GetValue` has for a scalar, the bytes of a
string, the fields of a message that are there, and the elements or pairs in the order of the
loops over `Array` and `Map`. It fails where one of the views is empty. This is the meaning of a
buffer that the other readers are compared with.

Scalars are told by their words. What `ScalarField` makes of the word of a Boolean is less: it
looks at the first byte (`getBool_of_readWords`).
-/

namespace ProtoCache.Wasm

/-- What is read of an object, or of a field that is not there. -/
inductive Raw
  | absent
  | words (ws : List UInt32)
  | bytes (bs : List UInt8)
  | message (fields : List Raw)
  | array (elements : List Raw)
  | map (keys values : List Raw)

/-- A slice of bytes that has to be there. -/
def readBytes (slice : Option ByteSlice) : Res Raw :=
  match slice with
  | none => .error .reject
  | some s => do return .bytes (← ByteSlice.get (some s))

/-- The words that `GetValue` has for a field of a width. -/
def readWords (width : ℕ) (f : Field) : Res Raw :=
  match f.getValue true with
  | (.at view, n) =>
    if n = width then do return .words (← access (Storage.load view n)) else .error .reject
  | (.nul _, _) => .error .reject

/-- Of the word of a Boolean, `ScalarField` takes the first byte. -/
theorem getBool_of_readWords {f : Field} {w : UInt32} (h : readWords 1 f = .ok (.words [w])) :
    f.getBool true = .ok (w &&& 0xff ≠ 0) := by
  rw [readWords] at h
  rw [Field.getBool]
  rcases hvalue : f.getValue true with ⟨view | n, k⟩
  · rw [hvalue] at h
    dsimp only at h ⊢
    split at h
    · next h1 =>
      subst h1
      obtain ⟨ws, hload, heq⟩ := Res.bind_eq_ok.1 h
      cases heq
      rw [access_eq_ok] at hload
      cases view with
      | nil => cases hload
      | cons x view =>
        cases hload
        rw [if_neg (not_not.2 rfl)]
        rfl
    · cases h
  · rw [hvalue] at h
    cases h

section

variable (rec : UInt32 → Ptr → Res Raw)

/-- A value of a kind, in a field: of any scalar, its words. -/
def readValue (kind child : UInt32) (f : Field) : Res Raw :=
  if isComplex kind then do rec child (← f.getObject true)
  else if kind = kString ∨ kind = kBytes then do readBytes (← f.getString true)
  else readWords (scalarWidthWords kind).toNat f

/-- A field of a message. -/
def readField (view : List UInt32) (field : FieldPlan) : Res Raw := do
  let f ← getField true view field.id.toNat
  if f = Field.null then return .absent else readValue rec field.kind field.child f

/-- An object of a type. -/
def readObject (plan : TypePlan) (ptr : Ptr) : Res Raw :=
  if plan.kind = kMessage then do
    match ← openMessage true ptr with
    | none => .error .reject
    | some view => return .message (← plan.fields.mapM (readField rec view))
  else if plan.kind = kArray then
    if plan.valueKind = kBool then do readBytes (← readString true ptr)
    else do
      let a ← openArray true ptr
      if a.body = Ptr.null then .error .reject
      else return .array (← a.forEach (readValue rec plan.valueKind plan.child))
  else if plan.kind = kMap then do
    let m ← openMap true ptr
    if m.body = Ptr.null then .error .reject
    else
      let pairs ← m.forEach fun pair => do
        let key ← readValue rec plan.keyKind kNoType pair.1
        let value ← readValue rec plan.valueKind plan.child pair.2
        return (key, value)
      return .map (pairs.map Prod.fst) (pairs.map Prod.snd)
  else .error .reject

end

/-- What the accessors read of an object of a type. -/
def readType (plans : List TypePlan) : ℕ → UInt32 → Ptr → Res Raw
  | 0, _, _ => .error .fuel
  | nested + 1, typeId, ptr =>
    match planOf plans typeId with
    | none => .error .reject
    | some plan => readObject (readType plans nested) plan ptr

end ProtoCache.Wasm

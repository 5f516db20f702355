import ProtoCache.PerfectHash.Locate
import ProtoCache.Words

/-!
# Reading a buffer

The views of `include/protocache/access.h`. A pointer into a buffer is what stands
from it to the end of the buffer, so that where `end` is given to a view it is
the end of what its pointer is; a view that is told no `end` reads without a check.
A load outside the buffer, or through a null pointer, is a fault.
-/

namespace ProtoCache

open LittleEndian

/-- A pointer to words: into a buffer, with what stands from it on, or a null pointer
    that was moved by `off` words. -/
inductive Ptr
  | at (view : List UInt32)
  | nul (off : ℕ)
  deriving DecidableEq

namespace Ptr

/-- `nullptr`. -/
def null : Ptr := nul 0

/-- `*ptr`. -/
def load : Ptr → Res UInt32
  | .at view => access view.head?
  | .nul _ => .error .fault

/-- `ptr + k`. -/
def add : Ptr → ℕ → Ptr
  | .at view, k => .at (view.drop k)
  | .nul off, k => .nul (off + k)

/-- `end != nullptr && ptr >= end`. A null pointer is below any `end`, moved or not. -/
def reaches (bounded : Bool) : Ptr → Bool
  | .at view => bounded && view.isEmpty
  | .nul _ => false

/-- `end != nullptr && ptr + k > end`. -/
def exceeds (bounded : Bool) : Ptr → ℕ → Bool
  | .at view, k => bounded && decide (view.length < k)
  | .nul _, _ => false

end Ptr

/-! ## Strings -/

/-- A slice of bytes: the memory from its start on, and its size. -/
structure ByteSlice where
  mem : List UInt8
  size : ℕ
  deriving DecidableEq

/-- The loop of `String::String` over the bytes of the mark behind the first. -/
def stringMark (bounded : Bool) (sft mark : ℕ) : List UInt8 → Res (Option ByteSlice)
  | [] => if sft < 32 ∧ bounded = false then .error .fault else .ok none
  | b :: p =>
    if sft < 32 then
      if b &&& 0x80 ≠ 0 then stringMark bounded (sft + 7) (mark ||| (b &&& 0x7f).toNat <<< sft) p
      else
        let mark := mark ||| b.toNat <<< sft
        if bounded ∧ p.length < mark >>> 2 then .ok none else .ok (some ⟨p, mark >>> 2⟩)
    else .ok none

/-- `String::String`; null if there is no string at the pointer. -/
def readString (bounded : Bool) (ptr : Ptr) : Res (Option ByteSlice) :=
  if ptr = Ptr.null ∨ ptr.reaches bounded then .ok none
  else
    match ptr with
    | .nul _ => .error .fault
    | .at view =>
      match bytesOf view with
      | [] => .error .fault
      | b :: p =>
        if b &&& 3 ≠ 0 then .ok none
        else if b &&& 0x80 = 0 then
          let strLen := (b >>> 2).toNat
          if bounded ∧ p.length < strLen then .ok none else .ok (some ⟨p, strLen⟩)
        else stringMark bounded 7 (b &&& 0x7f).toNat p

/-- The bytes of a slice, read; none of a null slice. -/
def ByteSlice.get : Option ByteSlice → Res (List UInt8)
  | none => .ok []
  | some s => access (Storage.load s.mem s.size)

/-! ## Fields -/

/-- `Field`. -/
structure Field where
  ptr : Ptr
  width : ℕ
  deriving DecidableEq

/-- `Field::Field()`. -/
def Field.null : Field := ⟨Ptr.null, 0⟩

/-- `Field::GetValue`: the start and the size of the slice. -/
def Field.getValue (bounded : Bool) (f : Field) : Ptr × ℕ :=
  if f.ptr.exceeds bounded f.width then (Ptr.null, 0) else (f.ptr, f.width)

/-- `Field::GetObject`. -/
def Field.getObject (bounded : Bool) (f : Field) : Res Ptr :=
  if f.ptr.reaches bounded then .ok Ptr.null
  else if f.ptr = Ptr.null then .ok Ptr.null
  else do
    let w ← f.ptr.load
    let ptr := if w &&& 3 = 3 then f.ptr.add (w >>> 2).toNat else f.ptr
    return if ptr.reaches bounded then Ptr.null else ptr

/-- `ScalarField::Get` of a number of 32 bits. -/
def Field.get32 (bounded : Bool) (f : Field) : Res UInt32 :=
  let view := f.getValue bounded
  if view.2 ≠ 1 then .ok 0 else view.1.load

/-- `ScalarField::Get` of a number of 64 bits. -/
def Field.get64 (bounded : Bool) (f : Field) : Res UInt64 :=
  let view := f.getValue bounded
  if view.2 ≠ 2 then .ok 0
  else do
    let lo ← view.1.load
    let hi ← (view.1.add 1).load
    return lo.toUInt64 ||| hi.toUInt64 <<< 32

/-- `ScalarField::Get` of a Boolean, which is the first byte of the word. -/
def Field.getBool (bounded : Bool) (f : Field) : Res Bool :=
  let view := f.getValue bounded
  if view.2 ≠ 1 then .ok false
  else do
    let w ← view.1.load
    return w &&& 0xff ≠ 0

/-- `StringField::Get`. -/
def Field.getString (bounded : Bool) (f : Field) : Res (Option ByteSlice) := do
  readString bounded (← f.getObject bounded)

/-! ## Messages -/

/-- `Count64` and `Count32`, in the build with a population count: the sum of the
    2-bit fields of a number. -/
def count64 (v : UInt64) : ℕ := popcount (v &&& 0xaaaaaaaaaaaaaaaa) + popcount v

/-- `Count32`. -/
def count32 (v : UInt32) : ℕ := popcount (v.toUInt64 &&& 0xaaaaaaaa) + popcount v.toUInt64

/-- `Message::Message`: what stands from the message on, or nothing where the shared
    empty message stands in for one that is missing or leaves the buffer. -/
def openMessage (bounded : Bool) (ptr : Ptr) : Res (Option (List UInt32)) :=
  match ptr with
  | .nul 0 => .ok none
  | .nul _ => .error .fault
  | .at view => do
    let w ← ptr.load
    if ptr.exceeds bounded (1 + (w &&& 0xff).toNat * 2) then return none else return some view

/-- The 64-bit word `a` of the extended sections of a message. -/
def sectionWord (view : List UInt32) (a : ℕ) : Res UInt64 := do
  let lo ← access view[1 + 2 * a]?
  let hi ← access view[2 + 2 * a]?
  return lo.toUInt64 ||| hi.toUInt64 <<< 32

/-- `Message::GetField`. -/
def getField (bounded : Bool) (view : List UInt32) (id : ℕ) : Res Field := do
  let head ← access view.head?
  let sections := (head &&& 0xff).toNat
  let body := 1 + sections * 2
  if id < 12 then
    let v := head >>> 8
    let width := ((v >>> UInt32.ofNat (id * 2)) &&& 3).toNat
    if width = 0 then return Field.null
    else
      let off := count32 (v &&& ~~~((0xffffffff : UInt32) <<< UInt32.ofNat (id * 2)))
      if (Ptr.at view).exceeds bounded (body + off + width) then return Field.null
      else return ⟨(Ptr.at view).add (body + off), width⟩
  else
    let a := (id - 12) / 25
    let b := (id - 12) % 25
    if a ≥ sections then return Field.null
    else do
      let vec ← sectionWord view a
      let width := ((vec >>> UInt64.ofNat (b * 2)) &&& 3).toNat
      if width = 0 then return Field.null
      else
        let mask := ~~~((0xffffffffffffffff : UInt64) <<< UInt64.ofNat (b * 2))
        let off := count64 (vec &&& mask) + (vec >>> 50).toNat
        if (Ptr.at view).exceeds bounded (body + off + width) then return Field.null
        else return ⟨(Ptr.at view).add (body + off), width⟩

/-! ## Arrays -/

/-- `Array`. -/
structure ArrayView where
  body : Ptr
  size : ℕ
  width : ℕ
  deriving DecidableEq

/-- `Array::Array`: an array that leaves the buffer has no body, but keeps its size
    and width. -/
def openArray (bounded : Bool) (ptr : Ptr) : Res ArrayView :=
  if ptr = Ptr.null then .ok ⟨Ptr.null, 0, 0⟩
  else do
    let w ← ptr.load
    let size := (w >>> 2).toNat
    let width := (w &&& 3).toNat
    if width = 0 ∨ ptr.exceeds bounded (1 + width * size) then return ⟨Ptr.null, size, width⟩
    else return ⟨ptr.add 1, size, width⟩

/-- Going through `n` cells of a width from a pointer on, in order. -/
def forCells {α : Type} (f : Field → Res α) (width : ℕ) : ℕ → Ptr → Res (List α)
  | 0, _ => .ok []
  | n + 1, ptr => do
    let a ← f ⟨ptr, width⟩
    let as ← forCells f width n (ptr.add width)
    return a :: as

/-- The loop over an `Array`, from `begin()` to `end()`. -/
def ArrayView.forEach {α : Type} (a : ArrayView) (f : Field → Res α) : Res (List α) :=
  if a.width = 0 then .ok [] else forCells f a.width a.size a.body

/-- `Array::Numbers<T>`, with `T` of `k` words: the cells of another width are not
    read. -/
def ArrayView.numbers {α : Type} (a : ArrayView) (k : ℕ) (f : Field → Res α) : Res (List α) :=
  if a.width ≠ k then .ok [] else forCells f k a.size a.body

/-! ## Maps -/

section

variable (hash : List UInt8 → UInt32 → V128)

/-- `PerfectHash::Size`. -/
def PerfectHash.size (h : PerfectHash) : Res ℕ :=
  match h.data with
  | none => .ok 0
  | some mem => do return realSize (← readLE mem 0 4)

/-- `Map`. -/
structure MapView where
  index : PerfectHash := {}
  body : Ptr := Ptr.null
  keyWidth : ℕ := 0
  valueWidth : ℕ := 0
  deriving DecidableEq

/-- `Map::Map`; without a body if there is no map in the buffer. The bytes up to the
    end are counted in 32 bits. -/
def openMap (bounded : Bool) (ptr : Ptr) : Res MapView :=
  match ptr with
  | .nul 0 => .ok {}
  | .nul _ => .error .fault
  | .at view => do
    let w ← ptr.load
    let keyWidth := ((w >>> 30) &&& 3).toNat
    let valueWidth := ((w >>> 28) &&& 3).toNat
    if keyWidth = 0 ∨ valueWidth = 0 then return { keyWidth, valueWidth }
    else do
      let sz := if bounded then view.length * 4 % 2 ^ 32 else 0
      let index ← PerfectHash.ofData (bytesOf view) sz
      if index.data = none then return { index, keyWidth, valueWidth }
      else do
        let n ← index.size
        let body := wordSize index.dataSize
        if ptr.exceeds bounded (body + (keyWidth + valueWidth) * n) then
          return { index, keyWidth, valueWidth }
        else return ⟨index, ptr.add body, keyWidth, valueWidth⟩

/-- `Pair`: the fields of the key and of the value, where they lie next to each
    other. -/
def pairAt (m : MapView) (ptr : Ptr) : Field × Field :=
  (⟨ptr, m.keyWidth⟩, ⟨ptr.add m.keyWidth, m.valueWidth⟩)

/-- The loop over the pairs of a `Map`, from `begin()` to `end()`. -/
def MapView.forEach {α : Type} (m : MapView) (f : Field × Field → Res α) : Res (List α) := do
  forCells (fun c => f (pairAt m c.ptr)) (m.keyWidth + m.valueWidth) (← m.index.size) m.body

/-- The `Map::Find` functions: the pair at the position of the key, if `same` accepts
    its key field; nothing is `end()`. -/
def MapView.findWith (m : MapView) (key : List UInt8) (same : Field → Res Bool) :
    Res (Option (Field × Field)) := do
  let pos ← m.index.locate hash key
  if pos ≥ (← m.index.size) then return none
  else do
    let pair := pairAt m (m.body.add ((m.keyWidth + m.valueWidth) * pos))
    if ← same pair.1 then return some pair else return none

/-- `Map::Find` of the bytes of a string. -/
def MapView.findChars (m : MapView) (bounded : Bool) (str : List UInt8) :
    Res (Option (Field × Field)) :=
  m.findWith hash str fun f => do
    match ← f.getString bounded with
    | none => return false
    | some view =>
      if view.size ≠ str.length then return false
      else return (← ByteSlice.get (some view)) = str

/-- `Map::Find` of a string; its length is passed on as an `unsigned`. -/
def MapView.findString (m : MapView) (bounded : Bool) (key : List UInt8) :
    Res (Option (Field × Field)) :=
  m.findChars hash bounded (key.take (key.length % 2 ^ 32))

/-- `Map::Find` of a number of 32 bits. -/
def MapView.find32 (m : MapView) (bounded : Bool) (key : UInt32) : Res (Option (Field × Field)) :=
  m.findWith hash (wordBytes key) fun f => do
    let view := f.getValue bounded
    if view.2 ≠ 1 then return false else return (← view.1.load) = key

/-- `Map::Find` of a number of 64 bits. -/
def MapView.find64 (m : MapView) (bounded : Bool) (key : UInt64) : Res (Option (Field × Field)) :=
  m.findWith hash (toLE 8 key.toNat) fun f => do
    let view := f.getValue bounded
    if view.2 ≠ 2 then return false else return (← f.get64 bounded) = key

end

end ProtoCache

import ProtoCache.Wasm.Bytes
import ProtoCache.Wasm.Index
import ProtoCache.Wasm.Plan

/-!
# Decoding to a tape

`pc_decode_tape` (`typescript/wasm/decode_tape.cc`) walks over the input as the plans of its
types tell, and appends to the tape, for every object, a header and what it found of the
fields, elements or pairs. The visitors of the three kinds of types are given the one for the
objects inside (`Visitor`), and `visit` ties the knot.

The input is the list of its bytes below the input length, the tape the list of the words
that were appended. Whether there is memory for a tape of a length is `room`.
-/

namespace ProtoCache.Wasm

open LittleEndian

/-- `kMaximumDepth`. -/
def kMaximumDepth : UInt32 := 256

/-- `kInitialTapeWords`. -/
def kInitialTapeWords : ℕ := 2048

/-- `Location`. -/
structure Location where
  wordOffset : UInt32
  limitWordOffset : UInt32
  deriving DecidableEq

/-- `ByteSpan`. -/
structure ByteSpan where
  offset : UInt32
  length : UInt32
  deriving DecidableEq

/-! ## The input -/

/-- `RequireWords`. -/
def requireWords (offset : UInt32) (width : UInt64) (limit : UInt32) : Bool :=
  decide (offset ≤ limit ∧ width ≤ (limit - offset).toUInt64)

section

variable (input : List UInt8)

/-- `g_input_length`. -/
def inputLength : UInt32 := UInt32.ofNat input.length

/-- `RequireInputWords`. -/
def requireInputWords (offset : UInt32) (width : UInt64) : Bool :=
  requireWords offset width (inputLength input / 4)

/-- `ReadWord`. -/
def readWord (offset : UInt32) : Run UInt32 := do
  require (requireInputWords input offset 1)
  load32 input (offset.toNat * 4)

/-- `ObjectLocation`. -/
def objectLocation (wordOffset width : UInt32) : Run Location := do
  require (width != 0)
  let first ← readWord input wordOffset
  if first &&& 3 = 3 then
    let delta := first >>> 2
    require (!(delta == 0 || decide (delta > inputLength input / 4 - wordOffset)))
    let target := wordOffset + delta
    require (requireInputWords input target 1)
    return ⟨target, inputLength input / 4⟩
  else
    require (requireInputWords input wordOffset width.toUInt64)
    return ⟨wordOffset, wordOffset + width⟩

/-- The loop of `ParseBytes`, with `k` bytes of the mark left. -/
def parseMark (byteLimit : UInt64) : ℕ → ℕ → UInt64 → UInt64 → Run ByteSpan
  | 0, _, _, _ => .error .refused
  | k + 1, shift, byteOffset, mark => do
    require
      (!(decide (byteOffset ≥ byteLimit) || decide (byteOffset ≥ (inputLength input).toUInt64)))
    let byte ← within input[byteOffset.toNat]?
    let byteOffset := byteOffset + 1
    let mark := mark + (byte &&& 0x7f).toUInt64 <<< UInt64.ofNat shift
    if byte &&& 0x80 = 0 then
      require (mark &&& 3 == 0)
      let length := mark / 4
      require (!(decide (length > 0xffffffff) || decide (byteOffset > byteLimit) || decide
          (length > byteLimit - byteOffset) || decide (byteOffset > (inputLength input).toUInt64) ||
          decide (length > (inputLength input).toUInt64 - byteOffset)))
      return ⟨byteOffset.toUInt32, length.toUInt32⟩
    else parseMark byteLimit k (shift + 7) byteOffset mark

/-- `ParseBytes`. -/
def parseBytes (location : Location) : Run ByteSpan := do
  require (requireWords location.wordOffset 1 location.limitWordOffset)
  parseMark input (location.limitWordOffset.toUInt64 * 4) 5 0 (location.wordOffset.toUInt64 * 4) 0

end

/-- `SumWidths`. -/
def sumWidths : UInt32 → ℕ → UInt32
  | _, 0 => 0
  | widths, count + 1 => (widths &&& (3 : UInt32)) + sumWidths (widths >>> 2) count

/-! ## The tape -/

section

variable (room : ℕ → Bool)

/-- `Append`. -/
def append (value : UInt32) (tape : List UInt32) : Run (List UInt32) :=
  if room (tape.length + 1) then .ok (tape ++ [value]) else .error .memory

/-- `AppendHeader`. -/
def appendHeader (kind typeId count data0 data1 : UInt32) (tape : List UInt32) :
    Run (List UInt32) := do
  let tape ← append room kind tape
  let tape ← append room typeId tape
  let tape ← append room count tape
  let tape ← append room data0 tape
  append room data1 tape

/-- `g_tape.resize(g_tape.size() + count, 0)`. -/
def extend (count : ℕ) (tape : List UInt32) : Run (List UInt32) :=
  if room (tape.length + count) then .ok (tape ++ List.replicate count 0) else .error .memory

end

/-- `g_tape[i] = value`. -/
def store (i : ℕ) (value : UInt32) (tape : List UInt32) : Run (List UInt32) :=
  if i < tape.length then .ok (tape.set i value) else .error .fault

/-! ## Visiting -/

/-- `Visit` of an object of a type. -/
abbrev Visitor := UInt32 → Location → List UInt32 → Run (List UInt32)

section

variable (input : List UInt8) (room : ℕ → Bool)

/-- `ValidateScalar`. -/
def validateScalar (kind wordOffset width descriptor : UInt32) (tape : List UInt32) :
    Run (List UInt32) := do
  if kind = kString ∨ kind = kBytes then
    let object ← objectLocation input wordOffset width
    let bytes ← parseBytes input object
    let tape ← store descriptor.toNat bytes.offset tape
    store (descriptor + 1).toNat bytes.length tape
  else
    require (width == scalarWidthWords kind)
    return tape

/-- A complex value, at a depth: `ObjectLocation` and `Visit` of a type one deeper. -/
def visitChild (rec : Visitor) (wordOffset width child : UInt32) (tape : List UInt32) :
    Run (List UInt32) := do
  rec child (← objectLocation input wordOffset width) tape

section

variable (plan : TypePlan) (location : Location)

/-- `record`, in `VisitMessage`. -/
def record (descriptors : ℕ) (id wordOffset width : UInt32) (tape : List UInt32) :
    Run (List UInt32) :=
  match plan.fieldIndexById[id.toNat]? with
  | none => return tape
  | some index =>
    if index < 0 then return tape
    else do
      let tape ← store (descriptors + (UInt32.ofNat index.toNat * 2).toNat) wordOffset tape
      store (descriptors + (UInt32.ofNat index.toNat * 2).toNat + 1) width tape

/-- The step of the loops of `VisitMessage` over the widths of fields: where the next field is,
    and the tape. -/
def recordField (body : UInt32) (descriptors : ℕ) (id width : UInt32) (s : UInt32 × List UInt32) :
    Run (UInt32 × List UInt32) :=
  if width ≠ 0 then do
    require (requireWords (body + s.1) width.toUInt64 location.limitWordOffset)
    let tape ← record plan descriptors id (body + s.1) width s.2
    return (s.1 + width, tape)
  else return s

/-- The sections of a message behind its header, in `VisitMessage`. -/
def recordSection (body : UInt32) (descriptors : ℕ) (section_ : ℕ) (tape : List UInt32) :
    Run (List UInt32) := do
  let sectionOffset := location.wordOffset + 1 + UInt32.ofNat section_ * 2
  let low ← readWord input sectionOffset
  let high ← readWord input (sectionOffset + 1)
  let s ← (List.range 25).foldlM (fun s index => do
    let shift := UInt32.ofNat index * 2
    let width := if shift < 32 then low >>> shift &&& 3 else high >>> (shift - 32) &&& 3
    recordField plan location body descriptors
      (12 + UInt32.ofNat section_ * 25 + UInt32.ofNat index) width s)
    (high >>> 18, tape)
  return s.2

/-- The words of the body of a message. -/
def bodyWords (first : UInt32) : Run UInt32 :=
  let sectionCount := first &&& 0xff
  if sectionCount = 0 then return sumWidths (first >>> 8) 12
  else do
    let last := location.wordOffset + 1 + (sectionCount - 1) * 2
    let low ← readWord input last
    let high ← readWord input (last + 1)
    return (high >>> 18) + sumWidths low 16 + sumWidths (high &&& 0x0003ffff) 9

/-- The last loop of `VisitMessage`: what was recorded of a field of the plan. -/
def visitField (rec : Visitor) (depth : UInt32) (descriptors : ℕ) (index : ℕ) (tape : List UInt32) :
    Run (List UInt32) := do
  let descriptor := descriptors + index * 2
  let wordOffset ← within tape[descriptor]?
  let width ← within tape[descriptor + 1]?
  if wordOffset = 0 then return tape
  else
    let field ← within plan.fields[index]?
    if !isComplex field.kind then
      validateScalar input field.kind wordOffset width (UInt32.ofNat descriptor) tape
    else
      require (!(decide (depth ≥ kMaximumDepth) || field.child == kNoType))
      visitChild input rec wordOffset width field.child tape

/-- `VisitMessage`. -/
def visitMessage (rec : Visitor) (typeId depth : UInt32) (tape : List UInt32) :
    Run (List UInt32) := do
  require (requireWords location.wordOffset 1 location.limitWordOffset)
  let first ← readWord input location.wordOffset
  let sectionCount := first &&& 0xff
  let headerWords : UInt64 := 1 + sectionCount.toUInt64 * 2
  require (requireWords location.wordOffset headerWords location.limitWordOffset)
  let body := location.wordOffset + headerWords.toUInt32
  let words ← bodyWords input location first
  require (requireWords body words.toUInt64 location.limitWordOffset)
  let tape ← appendHeader room kMessage typeId (UInt32.ofNat plan.fields.length) 0 0 tape
  let descriptors := tape.length
  let tape ← extend room (plan.fields.length * 2) tape
  -- The first twelve fields have their widths in the head, the others in the sections.
  let s ← (List.range 12).foldlM (fun s id =>
    recordField plan location body descriptors (UInt32.ofNat id)
      (first >>> 8 >>> (UInt32.ofNat id * 2) &&& 3) s)
    (0, tape)
  let tape ← (List.range sectionCount.toNat).foldlM (fun tape section_ =>
    recordSection input plan location body descriptors section_ tape) s.2
  (List.range plan.fields.length).foldlM (fun tape index =>
    visitField input plan rec depth descriptors index tape) tape

/-- `VisitArray`. -/
def visitArray (rec : Visitor) (typeId depth : UInt32) (tape : List UInt32) :
    Run (List UInt32) := do
  if plan.valueKind = kBool then
    -- Booleans are stored as a string of bytes.
    let bytes ← parseBytes input location
    appendHeader room kArray typeId bytes.length bytes.offset 0 tape
  else
    require (requireWords location.wordOffset 1 location.limitWordOffset)
    let header ← readWord input location.wordOffset
    let width := header &&& 3
    let count := header >>> 2
    let body := location.wordOffset + 1
    require
      (width != 0 && requireWords body (width.toUInt64 * count.toUInt64) location.limitWordOffset)
    let tape ← appendHeader room kArray typeId count body width tape
    if plan.valueKind = kString ∨ plan.valueKind = kBytes then
      let descriptors := tape.length
      let tape ← extend room (count.toNat * 2) tape
      (List.range count.toNat).foldlM (fun tape index =>
        validateScalar input plan.valueKind (body + UInt32.ofNat index * width) width
          (UInt32.ofNat descriptors + UInt32.ofNat index * 2) tape) tape
    else if !isComplex plan.valueKind then
      require (width == scalarWidthWords plan.valueKind)
      return tape
    else
      require (!(decide (depth ≥ kMaximumDepth) || plan.child == kNoType))
      (List.range count.toNat).foldlM (fun tape index =>
        visitChild input rec (body + UInt32.ofNat index * width) width plan.child tape) tape

/-- The first loop of `VisitMap`: what is recorded of a pair. -/
def visitPair (key keyWidth valueWidth descriptor : UInt32) (tape : List UInt32) :
    Run (List UInt32) := do
  let stringKey := plan.keyKind == kString
  let byteValue := plan.valueKind == kString || plan.valueKind == kBytes
  let tape ← (if stringKey then validateScalar input kString key keyWidth descriptor tape
    else return tape)
  let descriptor := if stringKey then descriptor + 2 else descriptor
  if byteValue then validateScalar input plan.valueKind (key + keyWidth) valueWidth descriptor tape
    else return tape

/-- `VisitMap`. -/
def visitMap (rec : Visitor) (typeId depth : UInt32) (tape : List UInt32) : Run (List UInt32) := do
  require (requireWords location.wordOffset 1 location.limitWordOffset)
  let header ← readWord input location.wordOffset
  let keyWidth := header >>> 30 &&& 3
  let valueWidth := header >>> 28 &&& 3
  let count := header &&& 0x0fffffff
  let body64 := location.wordOffset.toUInt64 + (indexByteLength count + 3) / 4
  require (!(keyWidth == 0 || valueWidth == 0 || decide (body64 > 0xffffffff)))
  let body := body64.toUInt32
  let stride := keyWidth + valueWidth
  require (requireWords body (stride.toUInt64 * count.toUInt64) location.limitWordOffset)
  let tape ← appendHeader room kMap typeId count body (keyWidth ||| valueWidth <<< 16) tape
  let stringKey := plan.keyKind == kString
  let byteValue := plan.valueKind == kString || plan.valueKind == kBytes
  let descriptorStride : ℕ := (if stringKey then 2 else 0) + (if byteValue then 2 else 0)
  let descriptors := tape.length
  -- The slots of all pairs, which the loop below fills.
  let tape ← (if descriptorStride ≠ 0 then extend room (descriptorStride * count.toNat) tape
    else return tape)
  require (!(!stringKey && keyWidth != scalarWidthWords plan.keyKind))
  require
    (!(!isComplex plan.valueKind && !byteValue && valueWidth != scalarWidthWords plan.valueKind))
  let tape ← (List.range count.toNat).foldlM (fun tape index =>
    visitPair input plan (body + UInt32.ofNat index * stride) keyWidth valueWidth
      (UInt32.ofNat descriptors + UInt32.ofNat index * UInt32.ofNat descriptorStride) tape) tape
  if !isComplex plan.valueKind then return tape
  else
    require (!(decide (depth ≥ kMaximumDepth) || plan.child == kNoType))
    (List.range count.toNat).foldlM (fun tape index =>
      visitChild input rec (body + UInt32.ofNat index * stride + keyWidth) valueWidth plan.child
        tape) tape

end

/-- `Visit`. -/
def visit (types : List TypePlan) : ℕ → UInt32 → UInt32 → Location → List UInt32 → Run (List UInt32)
  | 0, _, _, _, _ => .error .depth
  | nested + 1, depth, typeId, location, tape => do
    require (decide (typeId ≠ 0 ∧ typeId.toNat ≤ types.length))
    let plan ← within (planOf types typeId)
    require plan.committed
    let rec_ := visit types nested (depth + 1)
    if plan.kind = kMessage then visitMessage input room plan location rec_ typeId depth tape
    else if plan.kind = kArray then visitArray input room plan location rec_ typeId depth tape
    else if plan.kind = kMap then visitMap input room plan location rec_ typeId depth tape
    else .error .refused

end

/-! ## The call -/

/-- The arguments that `pc_decode_tape` accepts. -/
def accepts (types : List TypePlan) (buffer : List UInt8) (schemaHandle length : UInt32) : Bool :=
  decide (length ≠ 0 ∧ length &&& 3 = 0 ∧ length.toNat ≤ buffer.length) &&
    (planOf types schemaHandle).any fun plan => plan.committed

/-- `pc_decode_tape`: what it returns, the tape and `g_decode_error`, from what these are
    before. Objects are visited up to a nesting of `nested`. -/
def pcDecodeTape (nested : ℕ) (types : List TypePlan) (room : ℕ → Bool) (buffer : List UInt8)
    (schemaHandle length : UInt32) (tape : List UInt32) (decodeError : Status) :
    Run (UInt32 × List UInt32 × Status) :=
  if !accepts types buffer schemaHandle length then .ok (0, tape, .invalidArgument)
  else if !room kInitialTapeWords then .ok (0, [], .outOfMemory)
  else
    let root : Location := ⟨0, length / 4⟩
    match visit (buffer.take length.toNat) room types nested 0 schemaHandle root [] with
    | .error .refused => .ok (0, [], if decodeError = .ok then .invalidData else decodeError)
    | .error .memory => .ok (0, [], .outOfMemory)
    | .error halt => .error halt
    | .ok tape =>
      if tape.length > 0xffffffff / 4 then .ok (0, [], .outOfMemory)
      else .ok (UInt32.ofNat (tape.length * 4), tape, .ok)

end ProtoCache.Wasm

import Mathlib.Data.List.DropRight
import ProtoCache.Basic
import ProtoCache.Lib.Row
import ProtoCache.Lib.Storage
import ProtoCache.Lib.Varint
import ProtoCache.Words

/-!
# Writing a buffer

The writers of `include/protocache/serialize.h` and `src/serialize.cc`. A buffer
grows at its front, so it is the list of its words, head first, and a position in
it is the number of words from there to its end. What was written for a value is
told by a `Unit`: its words, if it has no more than three and they were kept out
of the buffer, or else the position of its first word and the number of them.
-/

namespace ProtoCache

open LittleEndian

/-- `Buffer`: the words in use, from `Head()` on. -/
abbrev Buffer := List UInt32

/-- `Unit`. The words `d₀` and `d₁` are also `seg.pos` and `seg.len`. -/
structure Unit where
  len : ℕ := 0
  d₀ : UInt32 := 0
  d₁ : UInt32 := 0
  d₂ : UInt32 := 0
  deriving DecidableEq

namespace Unit

/-- `seg.pos`. -/
def segPos (u : Unit) : UInt32 := u.d₀

/-- `seg.len`. -/
def segLen (u : Unit) : UInt32 := u.d₁

/-- `seg.end()`. -/
def segEnd (u : Unit) : UInt32 := u.segPos - u.segLen

/-- `data`, the first `len` words. -/
def data (u : Unit) : List UInt32 := [u.d₀, u.d₁, u.d₂].take u.len

/-- `size()`. -/
def size (u : Unit) : ℕ := if u.len = 0 then u.segLen.toNat else u.len

/-- Storing up to three words in `data`, which keeps the others. -/
def store (u : Unit) : List UInt32 → Unit
  | [] => u
  | [a] => { u with d₀ := a }
  | [a, b] => { u with d₀ := a, d₁ := b }
  | a :: b :: c :: _ => { u with d₀ := a, d₁ := b, d₂ := c }

end Unit

/-- `Segment`. -/
def segment (last now : ℕ) : Unit := { d₀ := UInt32.ofNat now, d₁ := UInt32.ofNat (now - last) }

/-- `FoldField`. -/
def foldField (buf : Buffer) (unit : Unit) : Res (Unit × Buffer) :=
  if unit.len = 0 ∧ unit.segLen ≠ 0 ∧ unit.segLen < 4 then do
    let len := unit.segLen.toNat
    let src ← access (Storage.load buf len)
    return ({ unit.store src with len }, buf.drop len)
  else return (unit, buf)

/-! ## Scalars and strings -/

/-- `Serialize` of a number of 32 bits. -/
def serialize32 (v : UInt32) : Unit := { len := 1, d₀ := v }

/-- `Serialize` of a number of 64 bits. -/
def serialize64 (v : UInt64) : Unit := { len := 2, d₀ := v.toUInt32, d₁ := (v >>> 32).toUInt32 }

/-- `Serialize` of a Boolean. -/
def serializeBool (v : Bool) : Unit := { len := 1, d₀ := if v then 1 else 0 }

/-- The words of a string: the mark, which is its size and two zero bits, and its
    bytes; the rest of the last word is zero. -/
def stringWords (str : List UInt8) : List UInt32 :=
  wordsOf (Varint.encode (str.length <<< 2) ++ str)

/-- `Serialize` of a string. -/
def serializeString (str : List UInt8) (buf : Buffer) : Res (Unit × Buffer) :=
  if 2 ^ 30 ≤ str.length then .error .reject
  else
    match stringWords str with
    | [w] => .ok ({ len := 1, d₀ := w }, buf)
    | ws => .ok (segment buf.length (ws.length + buf.length), ws ++ buf)

/-! ## Arrays and maps -/

/-- `Offset`. -/
def offset (off : UInt32) : UInt32 := off <<< 2 ||| 3

/-- The words of an array with cells of `m` words: those of the cells, and those of
    the elements that do not fit in a cell. -/
def arraySize (m : ℕ) (elements : List Unit) : ℕ :=
  (elements.map fun u => m + if u.size ≤ m then 0 else u.size).sum

/-- `BestArraySize`: the first width with the smallest size, and the size. -/
def bestArraySize (elements : List Unit) : ℕ × ℕ :=
  let mode := if arraySize 2 elements < arraySize 1 elements then 2 else 1
  let mode := if arraySize 3 elements < arraySize mode elements then 3 else mode
  (mode, arraySize mode elements)

/-- The word at a position, which is `d` words before the end of the buffer. -/
def wordAt (buf : Buffer) (d : ℕ) : Res UInt32 :=
  if d ≤ buf.length then access buf[buf.length - d]? else .error .fault

/-- Storing a word at a position. -/
def setWord (buf : Buffer) (d : ℕ) (w : UInt32) : Res Buffer :=
  if 1 ≤ d ∧ d ≤ buf.length then .ok (buf.set (buf.length - d) w) else .error .fault

/-- The move loop of `Pick`: `k` words, the last first, from before the position
    `src` to before `tail`. Four words at a time are moved where there is SSE. -/
def moveWords : ℕ → Buffer → ℕ → ℕ → Res Buffer
  | 0, buf, _, _ => .ok buf
  | k + 1, buf, tail, src => do
    let w ← wordAt buf (src + 1)
    let buf ← setWord buf (tail + 1) w
    moveWords k buf (tail + 1) (src + 1)

/-- `Pick`: a unit that fits in a cell of `m` words is taken from the buffer, and
    another is moved to `tail`, in front of what was kept before. -/
def pick (unit : Unit) (buf : Buffer) (tail m : ℕ) : Res (Unit × Buffer × ℕ) :=
  let len := unit.segLen.toNat
  if unit.len ≠ 0 then return (unit, buf, tail)
  else if len ≤ m then
    if len = 0 ∨ unit.segPos.toNat ≤ buf.length then do
      let src ← access (Storage.load (buf.drop (buf.length - unit.segPos.toNat)) len)
      return ({ unit.store src with len }, buf, tail)
    else .error .fault
  else
    let src := unit.segEnd.toNat
    if tail < src then do
      let buf ← moveWords len buf tail src
      return ({ unit with d₀ := unit.segPos - UInt32.ofNat (src - tail) }, buf, tail + len)
    else return (unit, buf, tail + len)

/-- `Pick` of all cells, each with its width, from the last to the first. -/
def pickAll : List (ℕ × Unit) → Buffer → ℕ → Res (List (ℕ × Unit) × Buffer × ℕ)
  | [], buf, tail => return ([], buf, tail)
  | (m, unit) :: units, buf, tail => do
    let (units, buf, tail) ← pickAll units buf tail
    let (unit, buf, tail) ← pick unit buf tail m
    return ((m, unit) :: units, buf, tail)

/-- `Mark`. The words of a unit that is too long for its cell run over what is
    behind it. -/
def mark (unit : Unit) (buf : Buffer) (m : ℕ) : Res Buffer :=
  if unit.len = 0 then
    if m = 0 then .error .fault
    else return offset (UInt32.ofNat (m + buf.length) - unit.segPos) ::
      (List.replicate (m - 1) 0 ++ buf)
  else if unit.len - m ≤ buf.length then
    return unit.data ++ (List.replicate (m - unit.len) 0 ++ buf.drop (unit.len - m))
  else .error .fault

/-- `Mark` of all cells, from the last to the first. -/
def markAll : List (ℕ × Unit) → Buffer → Res Buffer
  | [], buf => return buf
  | (m, unit) :: units, buf => do mark unit (← markAll units buf) m

/-- The cells of a container that was begun at the position `last`: `Pick` of each,
    the buffer without what was picked from it, and `Mark` of each. -/
def putCells (cells : List (ℕ × Unit)) (buf : Buffer) (last : ℕ) : Res Buffer := do
  let (cells, buf, tail) ← pickAll cells buf last
  markAll cells (buf.drop (buf.length - tail))

/-- `SerializeArray`. -/
def serializeArray (elements : List Unit) (buf : Buffer) (last : ℕ) : Res (Unit × Buffer) :=
  if elements = [] then return ({ len := 1, d₀ := 1 }, buf)
  else
    let (m, size) := bestArraySize elements
    if 2 ^ 30 ≤ size then .error .reject
    else do
      let buf ← putCells (elements.map fun u => (m, u)) buf last
      let buf := UInt32.ofNat (elements.length <<< 2 ||| m) :: buf
      return (segment last buf.length, buf)

/-- The cells of the pairs of a map. -/
def pairCells (m₁ m₂ : ℕ) (pairs : List (Unit × Unit)) : List (ℕ × Unit) :=
  pairs.flatMap fun p => [(m₁, p.1), (m₂, p.2)]

/-- The words of the index of a map, with the widths of the keys and the values in
    the first. -/
def indexWords (index : List UInt8) (m₁ m₂ : ℕ) : Res (List UInt32) :=
  match wordsOf index with
  | [] => .error .fault
  | w :: ws => return (w ||| (UInt32.ofNat m₁ <<< 30 ||| UInt32.ofNat m₂ <<< 28)) :: ws

/-- `SerializeMap`. -/
def serializeMap (index : List UInt8) (pairs : List (Unit × Unit)) (buf : Buffer) (last : ℕ) :
    Res (Unit × Buffer) :=
  if pairs = [] then return ({ len := 1, d₀ := (5 : UInt32) <<< 28 }, buf)
  else
    let (m₁, keySize) := bestArraySize (pairs.map Prod.fst)
    let (m₂, valueSize) := bestArraySize (pairs.map Prod.snd)
    if 2 ^ 30 ≤ wordSize index.length + keySize + valueSize then .error .reject
    else do
      let buf ← putCells (pairCells m₁ m₂ pairs) buf last
      let head ← indexWords index m₁ m₂
      return (segment last (head ++ buf).length, head ++ buf)

/-! ## Messages -/

/-- The width of a field in the header of a message: a segment has one word, the
    link to it. -/
def Unit.width (u : Unit) : ℕ := if u.len ≠ 0 then u.len else if u.segLen ≠ 0 then 1 else 0

/-- Widths packed in numbers of two bits, from the bit `s` on. -/
def packWidths : ℕ → List ℕ → ℕ
  | _, [] => 0
  | s, w :: ws => w <<< s ||| packWidths (s + 2) ws

/-- The `k` words of 64 bits behind the head of a message: each has the number of
    words of the fields before its own, and the widths of its 25 fields. -/
def sectionWords : ℕ → ℕ → List Unit → Res (List UInt32)
  | 0, _, _ => return []
  | k + 1, cnt, fields =>
    if 2 ^ 14 ≤ cnt then .error .reject
    else do
      let widths := (fields.take 25).map Unit.width
      let mark := UInt64.ofNat (cnt <<< 50 ||| packWidths 0 widths)
      let rest ← sectionWords k (cnt + widths.sum) (fields.drop 25)
      return mark.toUInt32 :: (mark >>> 32).toUInt32 :: rest

/-- The words of the fields; `pos` is the position of the first. -/
def fieldWords : ℕ → List Unit → List UInt32
  | _, [] => []
  | pos, u :: us =>
    if u.len ≠ 0 then u.data ++ fieldWords (pos - u.len) us
    else if u.segLen ≠ 0 then offset (UInt32.ofNat pos - u.segPos) :: fieldWords (pos - 1) us
    else fieldWords pos us

/-- `SerializeMessage`. -/
def serializeMessage (fields : List Unit) (buf : Buffer) (last : ℕ) : Res (Unit × Buffer) :=
  if fields = [] then .error .reject
  else
    let fields := fields.rdropWhile fun u => u.size = 0
    if fields = [] then return (segment last (1 + buf.length), 0 :: buf)
    else
      let section_ := (fields.length + 12) / 25
      let widths := fields.map Unit.width
      if 2 ^ 30 ≤ (fields.map Unit.size).sum then .error .reject
      else if 0xff < section_ then .error .reject
      else do
        let head := UInt32.ofNat (section_ ||| packWidths 8 (widths.take 12))
        let blocks ← sectionWords section_ (widths.take 12).sum (fields.drop 12)
        let body := fieldWords (widths.sum + buf.length) fields
        let buf := head :: (blocks ++ (body ++ buf))
        return (segment last buf.length, buf)

end ProtoCache

import ProtoCache.Typescript.Materialize
import ProtoCache.Wasm.Reader

/-!
# Values of what was read

The values of JavaScript that stand for what is read of a buffer (`decode`): strings are decoded,
numbers are made of words, and fields that are absent have their defaults. It is the
specification of the reader of the TypeScript package, together with what the accessors of
the library read, and knows nothing of a tape.
-/

namespace ProtoCache.Typescript

open Wasm (Raw)

/-- A word of 64 bits of its halves. -/
def joined (low high : UInt32) : UInt64 := low.toUInt64 ||| high.toUInt64 <<< 32

/-- A scalar of its words. -/
def scalarOf : Kind → List UInt32 → Scalar
  | .bool, [w] => .boolean (w != 0)
  | .i32, [w] | .enum, [w] => .number w.toInt32.toInt
  | .u32, [w] => .number w.toNat
  | .f32, [w] => .float32 w
  | .i64, [low, high] => .bigint (joined low high).toInt64.toInt
  | .u64, [low, high] => .bigint (joined low high).toNat
  | .f64, [low, high] => .float64 (joined low high)
  | _, _ => .undefined

/-- A value without parts. -/
def decodeScalar (kind : Kind) : Raw → Reading Scalar
  | .words ws => return scalarOf kind ws
  | .bytes bs =>
    if kind = .string then do return .string (← defined .encoding (decodeString bs 0 bs.length))
    else return .bytes bs
  | _ => .error .missing

mutual

/-- The value of a kind, and of a type if it is complex. -/
def decode {α : Type} (types : List (TapeType α)) (kind : Kind) (child : ℕ) :
    Raw → Reading (Decoded α)
  | .absent => .error .missing
  | .words ws => do return .scalar (← decodeScalar kind (.words ws))
  | .bytes bs =>
    if kind.isComplexKind then return .array (bs.map fun b => .scalar (.boolean (b != 0)))
    else do return .scalar (← decodeScalar kind (.bytes bs))
  | .message raws =>
    match types[child]? with
    | some (.message prototype fields presenceWordCount) => do
      let out ← decodeFields types fields raws 0 ⟨[], PresenceBits.none presenceWordCount⟩
      return .message prototype out.fields out.present
    | _ => .error .missing
  | .array raws =>
    match types[child]? with
    | some (.array valueKind child) => do return .array (← decodeAll types valueKind child raws)
    | _ => .error .missing
  | .map keys values =>
    match types[child]? with
    | some (.map keyKind valueKind child) => do
      let pairs ← decodePairs types keyKind valueKind child keys values
      return .map (pairs.foldl (fun out pair => assign pair.1 pair.2 out) [])
    | _ => .error .missing

/-- A message gets its fields. -/
def decodeFields {α : Type} (types : List (TapeType α)) :
    List (TapeField α) → List Raw → ℕ → Building α → Reading (Building α)
  | field :: fields, raw :: raws, presenceIndex, out =>
    match raw with
    | .absent => decodeFields types fields raws (presenceIndex + 1) (out.omit field)
    | raw => do
      let value ← decode types field.kind field.child raw
      decodeFields types fields raws (presenceIndex + 1) (out.set field presenceIndex value)
  | _, _, _, out => return out

/-- The elements of an array. -/
def decodeAll {α : Type} (types : List (TapeType α)) (kind : Kind) (child : ℕ) :
    List Raw → Reading (List (Decoded α))
  | [] => return []
  | raw :: raws => do
    let value ← decode types kind child raw
    let values ← decodeAll types kind child raws
    return value :: values

/-- The pairs of a map. -/
def decodePairs {α : Type} (types : List (TapeType α)) (keyKind kind : Kind) (child : ℕ) :
    List Raw → List Raw → Reading (List (Scalar × Decoded α))
  | key :: keys, raw :: raws => do
    let key ← decodeScalar keyKind key
    let value ← decode types kind child raw
    let pairs ← decodePairs types keyKind kind child keys raws
    return (key, value) :: pairs
  | _, _ => return []

end

end ProtoCache.Typescript

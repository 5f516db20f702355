import Mathlib.Data.Int.Notation
import Mathlib.Data.Nat.Notation

/-!
# Schemas

The runtime types of the TypeScript package (`typescript/src/kind.ts`, `schema.ts` and
`compiled-fields.ts`): the kinds of values, and what a type says of its parts. Objects of
JavaScript are known by an identity only, of type `α`; that of a type is an object too.
-/

namespace ProtoCache.Typescript

/-! ## Values -/

/-- A value of JavaScript; functions are among the objects. -/
inductive Value (α : Type)
  | undefined
  | null
  | boolean (b : Bool)
  /-- A number, as the bits of its double. -/
  | number (bits : UInt64)
  | bigint (n : ℤ)
  | string (units : List UInt16)
  | symbol (n : ℕ)
  | object (a : α)

/-- What is thrown: an error of the module, or a value of the program. -/
inductive Thrown (α : Type)
  | typeError (text : String)
  | rangeError (text : String)
  | value (v : Value α)

/-! ## Kinds -/

/-- `Kind`. -/
inductive Kind
  | none
  | message
  | bytes
  | string
  | f64
  | f32
  | u64
  | u32
  | i64
  | i32
  | bool
  | enum
  | array
  | map
  deriving DecidableEq, Repr

namespace Kind

/-- The number of a kind. -/
def code : Kind → ℕ
  | none => 0
  | message => 1
  | bytes => 2
  | string => 3
  | f64 => 4
  | f32 => 5
  | u64 => 6
  | u32 => 7
  | i64 => 8
  | i32 => 9
  | bool => 10
  | enum => 11
  | array => 20
  | map => 21

/-- `isComplexKind`. -/
def isComplexKind (kind : Kind) : Bool := kind == message || kind == array || kind == map

/-- `isScalarKind`. -/
def isScalarKind (kind : Kind) : Bool := decide (f64.code ≤ kind.code ∧ kind.code ≤ enum.code)

end Kind

/-! ## Types -/

/-- `CompiledFieldMetadata`: a field of a message. A field of a complex kind has a function
    that resolves the type of its values. -/
structure Field (α : Type) where
  name : String
  id : ℕ
  repeated : Bool
  keyKind : Kind
  valueKind : Kind
  resolver : Option α

/-- The `kind` of a field. -/
def Field.kind {α : Type} (field : Field α) : Kind :=
  if field.repeated then (if field.keyKind = .none then .array else .map) else field.valueKind

/-- `RuntimeType`: the constructor of a message, or the schema of an array or of a map. -/
inductive RuntimeType (α : Type)
  | message (constructor : α)
  | array (schema : α) (valueKind : Kind) (valueType : Option α)
  | map (schema : α) (keyKind valueKind : Kind) (valueType : Option α)
  | unsupported (candidate : α)

end ProtoCache.Typescript

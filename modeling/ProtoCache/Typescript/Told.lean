import ProtoCache.Typescript.Decode
import ProtoCache.Wasm.Fields
import ProtoCache.Wasm.Index
import ProtoCache.Wasm.Reader

/-!
# What the tape tells

`pc_decode_tape` walks over a buffer and leaves a tape, and `materialize` walks over the tape and
makes values. The plans that they go by are made of the same types, but apart from each
other, and neither checks what the other does (`Corresponds`).

What a visitor appends for an object tells what the accessors read of it, if the reader that
starts there gets the values of that, and ends behind it (`Told`).

* `visitMessage_told`: what is appended for a message tells of it, where the visitor of the
  objects inside appends what tells of these;
* `visitArray_told`: likewise for an array.
-/

namespace ProtoCache.Typescript

open LittleEndian Outcome
open Wasm

/-! ## Kinds -/

/-- A kind of the reader is one of the decoder. -/
def Kind.Is (kind : Kind) (code : UInt32) : Prop := kind.code = code.toNat

theorem Kind.Is.eq {kind : Kind} {code : UInt32} (h : kind.Is code) :
    code = UInt32.ofNat kind.code := by
  rw [Kind.Is] at h
  rw [h, UInt32.ofNat_toNat]

theorem Kind.Is.complex {kind : Kind} {code : UInt32} (h : kind.Is code) :
    kind.isComplexKind = isComplex code := by
  rw [h.eq]
  cases kind <;> rfl

theorem Kind.Is.string {kind : Kind} {code : UInt32} (h : kind.Is code) :
    kind = .string ↔ code = kString := by
  rw [h.eq]
  cases kind <;> decide

theorem Kind.Is.bytes {kind : Kind} {code : UInt32} (h : kind.Is code) :
    kind = .bytes ↔ code = kBytes := by
  rw [h.eq]
  cases kind <;> decide

theorem Kind.Is.bool {kind : Kind} {code : UInt32} (h : kind.Is code) :
    kind = .bool ↔ code = kBool := by
  rw [h.eq]
  cases kind <;> decide

/-! ## Plans -/

section

variable {α : Type}

/-- A type of the reader's plan and one of the decoder's are the same, where those that they refer
    to are. -/
def SameType (R : ℕ → UInt32 → Prop) (type : TapeType α) (plan : TypePlan) : Prop :=
  match type with
  | .message _ fields presenceWordCount =>
    plan.kind = kMessage ∧ presenceWordCount = (fields.length + 31) / 32 ∧
      List.Forall₂ (fun field planned => field.kind.Is planned.kind ∧
        (field.kind.isComplexKind = true → R field.child planned.child)) fields plan.fields
  | .array valueKind child =>
    plan.kind = kArray ∧ valueKind.Is plan.valueKind ∧
      (valueKind.isComplexKind = true → R child plan.child)
  | .map keyKind valueKind child =>
    plan.kind = kMap ∧ keyKind.Is plan.keyKind ∧ valueKind.Is plan.valueKind ∧
      keyKind.isComplexKind = false ∧
      (valueKind.isComplexKind = true → R child plan.child)

/-- The types of the reader and of the decoder that are related are the same. -/
def Corresponds (types : List (TapeType α)) (plans : List TypePlan) (R : ℕ → UInt32 → Prop) :
    Prop :=
  ∀ i handle, R i handle → ∃ type plan,
    types[i]? = some type ∧ Wasm.planOf plans handle = some plan ∧ SameType R type plan

/-! ## What the tape tells -/

variable (W : List UInt32) (plans : List TypePlan) (types : List (TapeType α))
  (R : ℕ → UInt32 → Prop) (n : ℕ)

/-- What was appended for an object tells what the accessors read of it, and the reader gets the
    values of that. -/
def Told (handle : UInt32) (view ext : List UInt32) (raw : Raw) : Prop :=
  raw ≠ .absent ∧ (∀ k ≥ n, readType plans k handle (.at view) = .ok raw) ∧
    ∀ i kind, R i handle → kind.isComplexKind = true → ∀ k ≥ n, ∀ pre post,
      materialize ⟨bytesOf W, pre ++ (ext ++ post), types⟩ k i pre.length =
        decode types kind i raw >>= fun value => pure (value, pre.length + ext.length)

/-- Likewise for a value in a field, of which two numbers were recorded. -/
def ToldValue (kind child : UInt32) (f : ProtoCache.Field) (p : ℕ × ℕ) (ext : List UInt32)
    (raw : Raw) : Prop :=
  raw ≠ .absent ∧ (∀ k ≥ n, readValue (readType plans k) kind child f = .ok raw) ∧
    ∀ (tkind : Kind) tchild, tkind.Is kind → (tkind.isComplexKind = true → R tchild child) →
      ∀ k ≥ n, ∀ pre post,
      valueAt ⟨bytesOf W, pre ++ (ext ++ post), types⟩
        (materialize ⟨bytesOf W, pre ++ (ext ++ post), types⟩ k)
          tkind tchild p.1 p.2 pre.length =
        decode types tkind tchild raw >>= fun value => pure (value, pre.length + ext.length)

variable {W plans types R n}

/-! ## Values without parts -/

theorem getUint32At_eq {o : ℕ} {w : UInt32} (h : W[o]? = some w) :
    getUint32At (bytesOf W) (o * 4) = .ok w := by
  obtain ⟨hlt, rfl⟩ := List.getElem?_eq_some_iff.1 h
  rw [getUint32At, Nat.mul_comm, drop_bytesOf, List.drop_eq_getElem_cons hlt,
    bytesOf_cons, Storage.load_of_le (by simp), List.take_append_of_le_length (by simp),
    List.take_of_length_le (by simp)]
  exact congrArg Except.ok (ofNat_le_wordBytes _)

theorem getBigUint64At_eq {o : ℕ} {low high : UInt32} (h : W[o]? = some low)
    (h' : W[o + 1]? = some high) :
    getBigUint64At (bytesOf W) (o * 4) = .ok (joined low high) := by
  obtain ⟨hlt, rfl⟩ := List.getElem?_eq_some_iff.1 h
  obtain ⟨hlt', rfl⟩ := List.getElem?_eq_some_iff.1 h'
  have hload : Storage.load ((bytesOf W).drop (o * 4)) 8 =
      some (wordBytes W[o] ++ wordBytes W[o + 1]) := by
    rw [Nat.mul_comm, drop_bytesOf, List.drop_eq_getElem_cons hlt, List.drop_eq_getElem_cons hlt',
      bytesOf_cons, bytesOf_cons, ← List.append_assoc, Storage.load_of_le (by simp; omega),
      List.take_append_of_le_length (by simp), List.take_of_length_le (by simp)]
  have hle : le (wordBytes W[o] ++ wordBytes W[o + 1]) = W[o].toNat + 2 ^ 32 * W[o + 1].toNat := by
    rw [le_append, length_wordBytes, wordBytes, wordBytes, le_toLE W[o].toNat_lt,
      le_toLE W[o + 1].toNat_lt]
    rfl
  have hor := Nat.two_pow_add_eq_or_of_lt W[o].toNat_lt W[o + 1].toNat
  have hlow := W[o].toNat_lt
  have hhigh := W[o + 1].toNat_lt
  rw [getBigUint64At, hload]
  refine congrArg Except.ok (UInt64.toNat_inj.1 ?_)
  rw [hle, UInt64.toNat_ofNat', Nat.mod_eq_of_lt (by omega), joined,
    UInt64.toNat_or, UInt64.toNat_shiftLeft, UInt32.toNat_toUInt64, UInt32.toNat_toUInt64,
    show (32 : UInt64).toNat % 64 = 32 from rfl, Nat.shiftLeft_eq, Nat.mod_eq_of_lt (by omega),
    Nat.or_comm, Nat.mul_comm (W[o + 1].toNat), ← hor, Nat.add_comm]

/-- The words of a scalar. -/
theorem scalarAt_words {tkind : Kind} {kind : UInt32} (hkind : tkind.Is kind)
    (hcomplex : isComplex kind = false) (hbytes : ¬(kind = kString ∨ kind = kBytes)) {o w : ℕ}
    (hw : w = (scalarWidthWords kind).toNat) (hin : o + w ≤ W.length) (second : ℕ) :
    scalarAt (bytesOf W) tkind o second = .ok (scalarOf tkind ((W.drop o).take w)) := by
  have hone : w = 1 → ∃ x, W[o]? = some x ∧ (W.drop o).take w = [x] := by
    rintro rfl
    rw [List.drop_eq_getElem_cons (by omega)]
    exact ⟨_, List.getElem?_eq_getElem (by omega), rfl⟩
  have htwo : w = 2 → ∃ x y, W[o]? = some x ∧ W[o + 1]? = some y ∧ (W.drop o).take w = [x, y] := by
    rintro rfl
    rw [List.drop_eq_getElem_cons (by omega), List.drop_eq_getElem_cons (by omega)]
    exact ⟨_, _, List.getElem?_eq_getElem (by omega), List.getElem?_eq_getElem (by omega), rfl⟩
  rw [hkind.eq] at hcomplex hbytes hw
  cases tkind with
  | none => rfl
  | message | array | map => exact absurd hcomplex (by decide)
  | bytes | string => exact absurd (by decide) hbytes
  | bool | i32 | u32 | f32 | enum =>
    obtain ⟨x, hx, htake⟩ := hone hw
    rw [htake, scalarAt, getUint32At_eq hx]
    rfl
  | i64 | u64 | f64 =>
    obtain ⟨x, y, hx, hy, htake⟩ := htwo hw
    rw [htake, scalarAt, getBigUint64At_eq hx hy]
    rfl

/-- A scalar is told by where it is. -/
theorem told_words {kind child : UInt32} (hcomplex : isComplex kind = false)
    (hbytes : ¬(kind = kString ∨ kind = kBytes)) {o w : ℕ} (hw : w = (scalarWidthWords kind).toNat)
    (hin : o + w ≤ W.length) (second : ℕ) :
    ToldValue W plans types R n kind child ⟨.at (W.drop o), w⟩ (o, second) []
      (.words ((W.drop o).take w)) := by
  refine ⟨fun h => (by cases h), fun k _ => ?_, fun tkind tchild hkind _ k _ pre post => ?_⟩
  · rw [readValue, if_neg (by rw [hcomplex]; decide), if_neg hbytes, readWords,
      Field.getValue, if_neg]
    · dsimp only
      rw [if_pos hw, Storage.load_of_le (by rw [List.length_drop]; omega)]
      rfl
    · rw [Ptr.exceeds, Bool.true_and, decide_eq_true_eq, List.length_drop]
      exact not_lt.2 (Nat.le_sub_of_add_le (Nat.add_comm o w ▸ hin))
  · rw [valueAt, hkind.complex, hcomplex, if_neg (by decide),
      scalarAt_words hkind hcomplex hbytes hw hin, decode]
    rfl

theorem decodeAscii_slice (before bs after : List UInt8) (index count : ℕ)
    (h : index + count ≤ bs.length) :
    decodeAscii (before ++ (bs ++ after)) (before.length + index) count =
      decodeAscii bs index count := by
  induction count generalizing index with
  | zero => rfl
  | succ count ih =>
    rw [decodeAscii, decodeAscii, List.getElem?_append_right (by omega), Nat.add_sub_cancel_left,
      List.getElem?_append_left (by omega), Nat.add_assoc, ih (index + 1) (by omega)]

/-- A string is decoded of its bytes alone. -/
theorem decodeString_slice {input : List UInt8} {offset length : ℕ}
    (h : offset + length ≤ input.length) :
    decodeString input offset length =
      decodeString ((input.drop offset).take length) 0
        ((input.drop offset).take length).length := by
  have hlen : ((input.drop offset).take length).length = length := by
    rw [List.length_take, List.length_drop]
    omega
  have hinput : input = input.take offset ++
      ((input.drop offset).take length ++ (input.drop offset).drop length) := by
    rw [List.take_append_drop, List.take_append_drop]
  have hascii : decodeAscii input offset length = decodeAscii ((input.drop offset).take length) 0
      length := by
    have hslice := decodeAscii_slice (input.take offset) ((input.drop offset).take length)
      ((input.drop offset).drop length) 0 length (by omega)
    rwa [← hinput, List.length_take_of_le (by omega), Nat.add_zero] at hslice
  rw [decodeString, decodeString, hascii, hlen, List.drop_zero, List.take_of_length_le hlen.le]

/-- A string is told by where its bytes are. -/
theorem told_bytes {kind child : UInt32} (hbytes : kind = kString ∨ kind = kBytes)
    {f : ProtoCache.Field} {offset length : ℕ}
    (hstring : f.getString true = .ok (some ⟨(bytesOf W).drop offset, length⟩))
    (hin : offset + length ≤ 4 * W.length) :
    ToldValue W plans types R n kind child f (offset, length) []
      (.bytes (((bytesOf W).drop offset).take length)) := by
  have hlen := length_bytesOf W
  have hcomplex : isComplex kind = false := by
    rcases hbytes with rfl | rfl <;> rfl
  refine ⟨fun h => (by cases h), fun k _ => ?_, fun tkind tchild hkind _ k _ pre post => ?_⟩
  · have hload : Storage.load ((bytesOf W).drop offset) length =
      some (((bytesOf W).drop offset).take length) :=
      Storage.load_of_le (by rw [List.length_drop]; omega)
    rw [readValue, if_neg (by rw [hcomplex]; decide), if_pos hbytes, hstring, Res.ok_bind,
      readBytes, ByteSlice.get, hload]
    rfl
  · rw [valueAt, hkind.complex, hcomplex, if_neg (by decide), decode, hkind.complex, hcomplex,
      if_neg (by decide), decodeScalar]
    rcases hbytes with rfl | rfl
    · have hslice := @decodeString_slice (bytesOf W) offset length (by omega)
      rw [hkind.string.2 rfl, if_pos rfl, scalarAt, ← hslice]
      cases decodeString (bytesOf W) offset length <;> rfl
    · rw [hkind.bytes.2 rfl, if_neg (by decide), scalarAt]
      rfl

/-- An object is told by what follows. -/
theorem told_object {kind child : UInt32} (hcomplex : isComplex kind = true) {f : ProtoCache.Field}
    {view ext : List UInt32} {raw : Raw} (hobject : f.getObject true = .ok (.at view))
    (h : Told W plans types R n child view ext raw) (p : ℕ × ℕ) :
    ToldValue W plans types R n kind child f p ext raw := by
  obtain ⟨hne, hread, hmake⟩ := h
  refine ⟨hne, fun k hk => ?_, fun tkind tchild hkind hchild k hk pre post => ?_⟩
  · rw [readValue, if_pos hcomplex, hobject]
    exact hread k hk
  · have htkind := hkind.complex.trans hcomplex
    rw [valueAt, if_pos htkind]
    exact hmake tchild tkind (hchild htkind) htkind k hk pre post

/-! ## Descriptors -/

theorem store_length (i : ℕ) (value : UInt32) (tape : List UInt32) :
    Wasm.Gives (fun tape' => tape'.length = tape.length) (Wasm.store i value tape) := by
  rw [Wasm.store]
  split
  · exact ensures_ok.2 List.length_set
  · trivial

theorem validateScalar_length (kind wordOffset width descriptor : UInt32) (tape : List UInt32) :
    Wasm.Gives (fun tape' => tape'.length = tape.length)
      (validateScalar (bytesOf W) kind wordOffset width descriptor tape) := by
  rw [validateScalar]
  split
  · refine (gives_true _).bind fun object _ => (gives_true _).bind fun bytes _ => ?_
    exact (store_length _ _ _).bind fun tape' h => (store_length _ _ _).mono fun _ h' => h'.trans h
  · exact (require_gives _).bind fun _ _ => rfl

variable (hW : W.length < 2 ^ 30)

include hW

variable (plans types R n) in
/-- The descriptor of a string tells where its bytes are. -/
theorem validateScalar_bytes {kind wordOffset width descriptor : UInt32} (child : UInt32)
    (hbytes : kind = kString ∨ kind = kBytes) {base kids : List UInt32} {ps : List (ℕ × ℕ)} {i : ℕ}
    (hd : descriptor.toNat = base.length + i * 2) (hi : i < ps.length)
    (hlen : (base ++ (pairWords ps ++ kids)).length < 2 ^ 32) :
    Wasm.Gives (fun tape => ∃ (p : ℕ × ℕ) (raw : Raw), p.1 ≠ 0 ∧ p.1 < 2 ^ 32 ∧ p.2 < 2 ^ 32 ∧
        ToldValue W plans types R n kind child ⟨.at (W.drop wordOffset.toNat), width.toNat⟩ p
          [] raw ∧
        tape = base ++ (pairWords (ps.set i p) ++ kids))
      (validateScalar (bytesOf W) kind wordOffset width descriptor
        (base ++ (pairWords ps ++ kids))) := by
  have hnext : (descriptor + 1).toNat = descriptor.toNat + 1 := by
    rw [List.length_append, List.length_append, length_pairWords] at hlen
    rw [UInt32.toNat_add, show (1 : UInt32).toNat = 1 from rfl, Nat.mod_eq_of_lt (by omega)]
  rw [validateScalar, if_pos hbytes]
  refine (objectLocation_gives hW _ _).bind fun location hlocation => ?_
  obtain ⟨hin, hobject⟩ := hlocation
  refine (parseBytes_gives hW hin).bind fun bytes hbytes' => ?_
  obtain ⟨hpos, hle, hstring⟩ := hbytes'
  rw [hnext]
  refine (storePair_gives hd hi bytes.offset bytes.length).mono fun tape htape => ?_
  refine ⟨_, _, (by omega : bytes.offset.toNat ≠ 0), bytes.offset.toNat_lt, bytes.length.toNat_lt,
    told_bytes hbytes ?_ hle, htape⟩
  rw [Field.getString, hobject]
  exact hstring

variable (plans types R n) in
omit hW in
/-- A scalar is where it is. -/
theorem validateScalar_words {kind wordOffset width : UInt32} (child : UInt32)
    (hcomplex : isComplex kind = false) (hbytes : ¬(kind = kString ∨ kind = kBytes))
    (hin : wordOffset.toNat + width.toNat ≤ W.length) (descriptor : UInt32) (tape : List UInt32) :
    Wasm.Gives (fun tape' => tape' = tape ∧ ∃ raw, ToldValue W plans types R n kind child
        ⟨.at (W.drop wordOffset.toNat), width.toNat⟩ (wordOffset.toNat, width.toNat) [] raw)
      (validateScalar (bytesOf W) kind wordOffset width descriptor tape) := by
  rw [validateScalar, if_neg hbytes]
  refine (require_gives _).bind fun _ hwidth => ?_
  have hwidth : width.toNat = (scalarWidthWords kind).toNat :=
    congrArg UInt32.toNat (beq_iff_eq.1 hwidth)
  exact ensures_pure.2 ⟨rfl, _, told_words hcomplex hbytes hwidth hin _⟩

/-! ## Messages -/

variable (W plans types R n) in
/-- What a visitor does to the tape, unless this is too long in the end. -/
def Tells (handle : UInt32) (view tape tape' : List UInt32) : Prop :=
  tape.length ≤ tape'.length ∧ (tape'.length < 2 ^ 32 →
    ∃ ext raw, tape' = tape ++ ext ∧ Told W plans types R n handle view ext raw)

/-- What there is of a field in the end: its descriptor, what was appended for it, and what the
    accessors read of it. -/
structure Entry where
  field : FieldPlan
  descriptor : ℕ × ℕ
  ext : List UInt32
  raw : Raw

variable (W plans types R n) in
/-- A field is told. -/
def Entry.Told (view : List UInt32) (e : Entry) : Prop :=
  e.descriptor.1 < 2 ^ 32 ∧ e.descriptor.2 < 2 ^ 32 ∧
    (e.descriptor.1 = 0 ∧ e.ext = [] ∧ e.raw = .absent ∧
      getField true view e.field.id.toNat = .ok ProtoCache.Field.null ∨ e.descriptor.1 ≠ 0 ∧ ∃ f,
      getField true view e.field.id.toNat = .ok f ∧ f ≠ ProtoCache.Field.null ∧
      ToldValue W plans types R n e.field.kind e.field.child f e.descriptor e.ext e.raw)

variable {rec : Visitor} (hrec : ∀ child location tape, location.In W →
  Wasm.Gives (Tells W plans types R n child (location.view W) tape) (rec child location tape))

include hrec

/-- A complex value is visited. -/
theorem visitChild_told {kind : UInt32} (hcomplex : isComplex kind = true)
    (wordOffset width child : UInt32) (tape : List UInt32) (p : ℕ × ℕ) :
    Wasm.Gives (fun tape' => tape.length ≤ tape'.length ∧
      (tape'.length < 2 ^ 32 → ∃ ext raw, tape' = tape ++ ext ∧
        ToldValue W plans types R n kind child ⟨.at (W.drop wordOffset.toNat), width.toNat⟩ p
          ext raw))
      (visitChild (bytesOf W) rec wordOffset width child tape) := by
  refine (objectLocation_gives hW _ _).bind fun location hlocation => ?_
  obtain ⟨hin, hobject⟩ := hlocation
  refine (hrec child location tape hin).mono fun tape' h => ⟨h.1, fun hlt => ?_⟩
  obtain ⟨ext, raw, htape, htold⟩ := h.2 hlt
  exact ⟨ext, raw, htape, told_object hcomplex hobject htold p⟩

/-- The tape only grows. -/
theorem visitField_grows (plan : TypePlan) (depth : UInt32) (descriptors index : ℕ)
    (tape : List UInt32) :
    Wasm.Gives (fun tape' => tape.length ≤ tape'.length)
      (visitField (bytesOf W) plan rec depth descriptors index tape) := by
  rw [visitField]
  refine (gives_true _).bind fun wordOffset _ => (gives_true _).bind fun width _ => ?_
  split
  · exact ensures_pure.2 le_rfl
  · refine (gives_true _).bind fun field _ => ?_
    split
    · exact (validateScalar_length _ _ _ _ _).mono fun _ h => h.ge
    · refine (gives_true _).bind fun _ _ => (objectLocation_gives hW _ _).bind
        fun location hlocation => ?_
      exact (hrec _ location tape hlocation.1).mono fun _ h => h.1

omit hW hrec in
/-- What is between two lists. -/
theorem getElem?_middle {base xs rest : List UInt32} {k : ℕ} {w : UInt32} (h : xs[k]? = some w) :
    (base ++ (xs ++ rest))[base.length + k]? = some w := by
  obtain ⟨hlt, -⟩ := List.getElem?_eq_some_iff.1 h
  rw [List.getElem?_append_right (Nat.le_add_right _ _), Nat.add_sub_cancel_left,
    List.getElem?_append_left hlt, h]

/-- The step of the last loop of `VisitMessage`. -/
theorem visitField_told {plan : TypePlan} {view base kids : List UInt32} {ps : List (ℕ × ℕ)}
    {index : ℕ} {field : FieldPlan} {p : ℕ × ℕ} {depth : UInt32}
    (hfield : plan.fields[index]? = some field) (hp : ps[index]? = some p)
    (hrecorded : Wasm.Recorded W view field.id.toNat p) :
    Wasm.Gives (fun tape => (base ++ (pairWords ps ++ kids)).length ≤ tape.length ∧
      (tape.length < 2 ^ 32 →
        ∃ e : Entry, e.field = field ∧ e.Told W plans types R n view ∧
          tape = base ++ (pairWords (ps.set index e.descriptor) ++ (kids ++ e.ext))))
      (visitField (bytesOf W) plan rec depth base.length index
        (base ++ (pairWords ps ++ kids))) := by
  obtain ⟨hlt, rfl⟩ := List.getElem?_eq_some_iff.1 hp
  obtain ⟨hfirst, hsecond⟩ := pairWords_get hp
  have hwords := length_pairWords ps
  rw [visitField, getElem?_middle hfirst, Nat.add_assoc, getElem?_middle hsecond, hfield]
  refine Ensures.bind_eq rfl (Ensures.bind_eq rfl ?_)
  have hset : ps.set index ps[index] = ps := List.set_getElem_self hlt
  rcases hrecorded with ⟨hzero, hnull⟩ | ⟨hne, hwidth, hin, hfound⟩
  · -- The field is not there, and its descriptor stays as it is.
    have hskip : UInt32.ofNat ((0, 0) : ℕ × ℕ).1 = 0 := rfl
    rw [hzero] at hset ⊢
    rw [if_pos hskip]
    refine ensures_pure.2 ⟨le_rfl, fun _ => ⟨⟨field, (0, 0), [], .absent⟩, rfl,
        ⟨Nat.two_pow_pos 32, Nat.two_pow_pos 32, .inl ⟨rfl, rfl, rfl, hnull⟩⟩, ?_⟩⟩
    rw [hset, List.append_nil]
  · -- What was recorded fits a word, so that the place is read back as it is.
    have h₁ : (UInt32.ofNat ps[index].1).toNat = ps[index].1 := by
      rw [UInt32.toNat_ofNat', Nat.mod_eq_of_lt (by omega)]
    have h₂ : (UInt32.ofNat ps[index].2).toNat = ps[index].2 := by
      rw [UInt32.toNat_ofNat', Nat.mod_eq_of_lt (by omega)]
    have hplace : (⟨.at (W.drop (UInt32.ofNat ps[index].1).toNat),
        (UInt32.ofNat ps[index].2).toNat⟩ : ProtoCache.Field) =
        ⟨.at (W.drop ps[index].1), ps[index].2⟩ := by rw [h₁, h₂]
    have hthere : (⟨.at (W.drop ps[index].1), ps[index].2⟩ : ProtoCache.Field) ≠
        ProtoCache.Field.null := by
      intro h
      cases h
    have hsmall : ps[index].1 < 2 ^ 32 ∧ ps[index].2 < 2 ^ 32 := by omega
    rw [if_neg fun h => hne (by rw [← h₁, h]; rfl)]
    refine Ensures.bind_eq rfl ?_
    cases hcomplex : isComplex field.kind with
    | false =>
      rw [if_pos (by rfl)]
      -- The descriptor of a string is replaced, the one of a scalar stays; nothing is appended
      -- for either.
      by_cases hbytes : field.kind = kString ∨ field.kind = kBytes
      · by_cases hlen : (base ++ (pairWords ps ++ kids)).length < 2 ^ 32
        · have hd : (UInt32.ofNat (base.length + index * 2)).toNat = base.length + index * 2 := by
            rw [List.length_append, List.length_append] at hlen
            rw [UInt32.toNat_ofNat', Nat.mod_eq_of_lt (by omega)]
          refine (validateScalar_bytes plans types R n hW field.child hbytes hd hlt hlen).mono
            fun tape h => ?_
          obtain ⟨p, raw, hp, hp₁, hp₂, htold, rfl⟩ := h
          rw [hplace] at htold
          refine ⟨by simp, fun _ => ⟨⟨field, p, [], raw⟩, rfl,
              ⟨hp₁, hp₂, .inr ⟨hp, _, hfound, hthere, htold⟩⟩, ?_⟩⟩
          rw [List.append_nil]
        · exact (validateScalar_length _ _ _ _ _).mono fun tape h =>
            ⟨h.ge, fun hlt => absurd (h ▸ hlt) hlen⟩
      · refine (validateScalar_words plans types R n field.child hcomplex hbytes
          (by rw [h₁, h₂]; exact hin) _ _).mono fun tape h => ?_
        obtain ⟨rfl, raw, htold⟩ := h
        rw [hplace, h₁, h₂] at htold
        refine ⟨le_rfl, fun _ => ⟨⟨field, ps[index], [], raw⟩, rfl,
          ⟨hsmall.1, hsmall.2, .inr ⟨hne, _, hfound, hthere, htold⟩⟩, ?_⟩⟩
        rw [hset, List.append_nil]
    | true =>
      rw [if_neg (by decide)]
      -- The descriptor of an object stays, and what tells of it is appended.
      refine (require_gives _).bind fun _ _ =>
        (visitChild_told hW hrec hcomplex _ _ _ _ ps[index]).mono fun tape h => ?_
      refine ⟨h.1, fun hlt => ?_⟩
      obtain ⟨ext, raw, rfl, htold⟩ := h.2 hlt
      rw [hplace] at htold
      refine ⟨⟨field, ps[index], ext, raw⟩, rfl,
        ⟨hsmall.1, hsmall.2, .inr ⟨hne, _, hfound, hthere, htold⟩⟩, ?_⟩
      rw [hset, List.append_assoc, List.append_assoc]

omit hW hrec

/-- A word of the tape in descriptors. -/
theorem tapeAt_pair (base rest : List UInt32) {ps : List (ℕ × ℕ)} {i : ℕ} {p : ℕ × ℕ}
    (hp : ps[i]? = some p) (h₁ : p.1 < 2 ^ 32) (h₂ : p.2 < 2 ^ 32) :
    tapeAt (base ++ (pairWords ps ++ rest)) (base.length + i * 2) = p.1 ∧
      tapeAt (base ++ (pairWords ps ++ rest)) (base.length + i * 2 + 1) = p.2 := by
  obtain ⟨hfirst, hsecond⟩ := pairWords_get hp
  rw [tapeAt, tapeAt, Nat.add_assoc, getElem?_middle hfirst, getElem?_middle hsecond]
  exact ⟨(UInt32.toNat_ofNat' ..).trans (Nat.mod_eq_of_lt h₁),
    (UInt32.toNat_ofNat' ..).trans (Nat.mod_eq_of_lt h₂)⟩

/-- A field that is there. -/
theorem decodeFields_cons (field : TapeField α) (fields : List (TapeField α)) (presenceIndex : ℕ)
    (out : Building α) {raw : Raw} (hraw : raw ≠ .absent) (raws : List Raw) :
    decodeFields types (field :: fields) (raw :: raws) presenceIndex out =
      decode types field.kind field.child raw >>= fun value =>
        decodeFields types fields raws (presenceIndex + 1) (out.set field presenceIndex value) := by
  rw [decodeFields]
  exact hraw

/-- The loop over the fields of a message sets what the decoded fields are. -/
theorem materializeFields_eq {k : ℕ} (hk : n ≤ k) {view base post : List UInt32}
    (done rest : List Entry) {fields : List (TapeField α)}
    (hsame : List.Forall₂ (fun field (e : Entry) => field.kind.Is e.field.kind ∧
        (field.kind.isComplexKind = true → R field.child e.field.child)) fields rest)
    (htold : ∀ e ∈ rest, e.Told W plans types R n view) (out : Building α) {tape : List UInt32}
    (htape : tape = base ++ (pairWords ((done ++ rest).map Entry.descriptor) ++
        ((done ++ rest).flatMap Entry.ext ++ post))) :
    materializeFields ⟨bytesOf W, tape, types⟩ (materialize ⟨bytesOf W, tape, types⟩ k) base.length
      fields done.length out
        (base.length + (done ++ rest).length * 2 + (done.flatMap Entry.ext).length) =
      decodeFields types fields (rest.map Entry.raw) done.length out >>= fun out =>
        pure (out, base.length + (done ++ rest).length * 2 +
          ((done ++ rest).flatMap Entry.ext).length) := by
  -- By induction on the fields that are left; the cursor is behind what was appended for those
  -- that are done.
  induction hsame generalizing done out with
  | nil =>
    rw [List.append_nil]
    rfl
  | @cons field e fields rest hfield _ ih =>
    have hassoc : done ++ e :: rest = (done ++ [e]) ++ rest := by rw [List.append_assoc]; rfl
    have hnext := fun out => ih (done ++ [e]) (fun e' he' => htold e' (List.mem_cons_of_mem _ he'))
      out (hassoc ▸ htape)
    rw [← hassoc, List.length_append, List.length_singleton] at hnext
    obtain ⟨h₁, h₂, hcase⟩ := htold e List.mem_cons_self
    have hget : ((done ++ e :: rest).map Entry.descriptor)[done.length]? = some e.descriptor := by
      rw [List.getElem?_map, List.getElem?_append_right le_rfl, Nat.sub_self]
      rfl
    obtain ⟨hfirst, hsecond⟩ :=
      tapeAt_pair base ((done ++ e :: rest).flatMap Entry.ext ++ post) hget h₁ h₂
    rw [← htape] at hfirst hsecond
    rw [materializeFields]
    dsimp only
    rw [hfirst, hsecond, List.map_cons]
    rcases hcase with ⟨hzero, hext, hraw, -⟩ | ⟨hne, f, -, -, hne', -, hmake⟩
    · rw [if_pos hzero, hraw, decodeFields]
      have hkids : ((done ++ [e]).flatMap Entry.ext).length = (done.flatMap Entry.ext).length := by
        rw [List.flatMap_append, List.length_append, List.flatMap_singleton, hext]
        rfl
      rw [← hnext, hkids]
    · have hpre : tape = (base ++
        (pairWords ((done ++ e :: rest).map Entry.descriptor) ++ done.flatMap Entry.ext)) ++
          (e.ext ++ (rest.flatMap Entry.ext ++ post)) := by
        rw [htape, List.flatMap_append, List.flatMap_cons]
        simp only [List.append_assoc]
      have hcursor : (base ++
        (pairWords ((done ++ e :: rest).map Entry.descriptor) ++ done.flatMap Entry.ext)).length =
          base.length + (done ++ e :: rest).length * 2 + (done.flatMap Entry.ext).length := by
        rw [List.length_append, List.length_append, length_pairWords, List.length_map,
          Nat.add_assoc]
      have hvalue := hmake field.kind field.child hfield.1 hfield.2 k hk
        (base ++ (pairWords ((done ++ e :: rest).map Entry.descriptor) ++ done.flatMap Entry.ext))
        (rest.flatMap Entry.ext ++ post)
      rw [← hpre, hcursor] at hvalue
      have hkids : ((done ++ [e]).flatMap Entry.ext).length = (done.flatMap Entry.ext).length +
          e.ext.length := by
        rw [List.flatMap_append, List.length_append, List.flatMap_singleton]
      have hlen : base.length + (done ++ e :: rest).length * 2 + (done.flatMap Entry.ext).length +
        e.ext.length =
          base.length + (done ++ e :: rest).length * 2 +
            ((done ++ [e]).flatMap Entry.ext).length := by
        rw [hkids, Nat.add_assoc]
      rw [if_neg hne, hvalue, decodeFields_cons _ _ _ _ hne']
      cases decode types field.kind field.child e.raw with
      | error failure => rfl
      | ok value =>
        refine Eq.trans ?_ (hnext (out.set field done.length value))
        rw [← hlen]
        rfl

theorem appendHeader_gives (room : ℕ → Bool) (kind typeId count data0 data1 : UInt32)
    (tape : List UInt32) :
    Wasm.Gives (fun tape' => tape' = tape ++ [kind, typeId, count, data0, data1])
      (appendHeader room kind typeId count data0 data1 tape) := by
  have happend : ∀ value tape,
      Wasm.Gives (fun tape' => tape' = tape ++ [value]) (append room value tape) := by
    intro value tape
    rw [append]
    split
    · exact ensures_ok.2 rfl
    · trivial
  refine (happend _ _).bind fun _ h₁ => (happend _ _).bind fun _ h₂ =>
    (happend _ _).bind fun _ h₃ => ?_
  refine (happend _ _).bind fun _ h₄ => (happend _ _).mono fun _ h₅ => ?_
  rw [h₅, h₄, h₃, h₂, h₁]
  simp only [List.append_assoc, List.cons_append, List.nil_append]

theorem extend_gives (room : ℕ → Bool) (count : ℕ) (tape : List UInt32) :
    Wasm.Gives (fun tape' => tape' = tape ++ List.replicate count 0) (extend room count tape) := by
  rw [extend]
  split
  · exact ensures_ok.2 rfl
  · trivial

/-- One result after the other. -/
theorem mapM_entries {β γ : Type} {f : β → Res γ} {entries : List Entry} {key : Entry → β}
    (value : Entry → γ) (h : ∀ e ∈ entries, f (key e) = .ok (value e)) :
    (entries.map key).mapM f = .ok (entries.map value) := by
  induction entries with
  | nil => rfl
  | cons e entries ih =>
    rw [List.map_cons, List.mapM_cons, h e List.mem_cons_self,
      ih fun e' he' => h e' (List.mem_cons_of_mem _ he')]
    rfl

include hW hrec

/-- The last loop of `VisitMessage`. -/
theorem visitFields_told {plan : TypePlan} {view base : List UInt32} {found : ℕ → ℕ × ℕ}
    (depth : UInt32) (hfound : ∀ id, Wasm.Recorded W view id (found id)) :
    Wasm.Gives (fun tape => (base ++ pairWords (plan.descriptors found)).length ≤ tape.length ∧
      (tape.length < 2 ^ 32 →
        ∃ entries : List Entry, entries.map Entry.field = plan.fields ∧
          (∀ e ∈ entries, e.Told W plans types R n view) ∧
          tape = base ++ (pairWords (entries.map Entry.descriptor) ++ entries.flatMap Entry.ext)))
      ((List.range plan.fields.length).foldlM (fun tape index =>
        visitField (bytesOf W) plan rec depth base.length index tape)
          (base ++ pairWords (plan.descriptors found))) := by
  -- After `k` fields, these have their last descriptors and the others those that were recorded.
  refine (Ensures.foldlM_range
    (I := fun k tape => (base ++ pairWords (plan.descriptors found)).length ≤ tape.length ∧
      (tape.length < 2 ^ 32 → ∃ entries : List Entry, entries.map Entry.field = plan.fields.take k ∧
        (∀ e ∈ entries, e.Told W plans types R n view) ∧ tape = base ++ (pairWords (entries.map
        Entry.descriptor ++ (plan.descriptors found).drop k) ++ entries.flatMap Entry.ext))) ?_
    fun k hk tape htape => ?_).mono fun tape h => ⟨h.1, fun hlt => ?_⟩
  · exact ⟨le_rfl, fun _ => ⟨[], rfl, fun e he => absurd he List.not_mem_nil, by simp⟩⟩
  · obtain ⟨hle, hentries⟩ := htape
    by_cases hlen : tape.length < 2 ^ 32
    · obtain ⟨entries, hfields, htold, rfl⟩ := hentries hlen
      have hcount : entries.length = k := by
        have := congrArg List.length hfields
        rwa [List.length_map, List.length_take_of_le hk.le] at this
      have hfield : plan.fields[k]? = some plan.fields[k] := List.getElem?_eq_getElem hk
      have hp : (entries.map Entry.descriptor ++ (plan.descriptors found).drop k)[k]? =
          some (found plan.fields[k].id.toNat) := by
        rw [List.getElem?_append_right (by rw [List.length_map]; omega), List.length_map,
          hcount, Nat.sub_self, List.getElem?_drop, Nat.add_zero, TypePlan.descriptors,
          List.getElem?_map, hfield]
        rfl
      refine (visitField_told hW hrec hfield hp (hfound _)).mono fun tape' h =>
        ⟨hle.trans h.1, fun hlt => ?_⟩
      obtain ⟨e, he, hetold, rfl⟩ := h.2 hlt
      refine ⟨entries ++ [e], ?_, fun e' he' => ?_, ?_⟩
      · rw [List.map_append, hfields, List.take_add_one, hfield, ← he]
        rfl
      · rcases List.mem_append.1 he' with he' | he'
        · exact htold e' he'
        · rw [List.mem_singleton.1 he']
          exact hetold
      · have hdrop : (plan.descriptors found).drop k =
            found plan.fields[k].id.toNat :: (plan.descriptors found).drop (k + 1) := by
          rw [List.drop_eq_getElem_cons (by simpa using hk)]
          simp [TypePlan.descriptors]
        have hset : (entries.map Entry.descriptor ++ (plan.descriptors found).drop k).set k
          e.descriptor =
            (entries ++ [e]).map Entry.descriptor ++ (plan.descriptors found).drop (k + 1) := by
          rw [hdrop, List.set_append_right _ _ (by rw [List.length_map]; omega), List.length_map,
            hcount, Nat.sub_self, List.set_cons_zero, List.map_append, List.append_assoc]
          rfl
        rw [hset, List.flatMap_append, List.flatMap_singleton]
    · exact (visitField_grows hW hrec _ _ _ _ _).mono fun tape' h =>
        ⟨hle.trans h, fun hlt => absurd (h.trans_lt hlt) hlen⟩
  · obtain ⟨entries, hfields, htold, htape⟩ := h.2 hlt
    rw [List.take_length] at hfields
    rw [List.drop_eq_nil_of_le (by rw [TypePlan.length_descriptors]), List.append_nil] at htape
    exact ⟨entries, hfields, htold, htape⟩

variable {room : ℕ → Bool} {location : Location} (hin : location.In W) {plan : TypePlan}
  {typeId : UInt32}

omit hW hrec in
/-- The numbers of words that stand before the body of a message. -/
theorem headerWords_toNat (first : UInt32) :
    (1 + (first &&& 0xff).toUInt64 * 2 : UInt64).toNat = 1 + (first &&& 0xff).toNat * 2 := by
  have hlt := sections_lt first
  rw [UInt64.toNat_add, UInt64.toNat_mul, UInt32.toNat_toUInt64,
    show (1 : UInt64).toNat = 1 from rfl, show (2 : UInt64).toNat = 2 from rfl,
    Nat.mod_eq_of_lt (a := _ * 2) (by omega), Nat.mod_eq_of_lt (by omega)]

include hin

/-- A visitor of messages tells of the message. -/
theorem visitMessage_told (hcorresponds : Corresponds types plans R) (hexact : plan.Exact)
    (hplan : Wasm.planOf plans typeId = some plan) (hkind : plan.kind = kMessage) (depth : UInt32)
    (tape : List UInt32) :
    Wasm.Gives (Tells W plans types R (n + 1) typeId (location.view W) tape)
      (visitMessage (bytesOf W) room plan location rec typeId depth tape) := by
  have hle := hin.le
  rw [visitMessage]
  refine (require_gives _).bind fun _ _ => (readWord_gives _).bind fun first hfirst => ?_
  refine (require_gives _).bind fun _ hheader => (gives_true _).bind fun words _ =>
    (gives_true _).bind fun _ _ => ?_
  rw [← List.head?_drop] at hfirst
  have hfirst : (location.view W).head? = some first := hfirst
  rw [requireWords_iff, headerWords_toNat] at hheader
  -- The body is behind the head and its sections, without wrapping around.
  have hbody : (location.wordOffset + (1 + (first &&& 0xff).toUInt64 * 2 : UInt64).toUInt32).toNat =
      location.wordOffset.toNat + (1 + (first &&& 0xff).toNat * 2) := by
    rw [UInt32.toNat_add, UInt64.toNat_toUInt32, headerWords_toNat,
      Nat.mod_eq_of_lt (a := 1 + _) (by omega), Nat.mod_eq_of_lt (by omega)]
  have hopen : openMessage true (.at (location.view W)) = .ok (some (location.view W)) := by
    have hview : (location.view W).length = W.length - location.wordOffset.toNat := List.length_drop
    rw [openMessage, Ptr.load, hfirst, access_some, Res.ok_bind, Ptr.exceeds, Bool.true_and, if_neg]
    · rfl
    · rw [decide_eq_true_eq]
      omega
  refine (appendHeader_gives _ _ _ _ _ _ _).bind fun tape₁ htape₁ =>
    (extend_gives _ _ _).bind fun tape₂ htape₂ => ?_
  subst htape₂
  rw [← bind_assoc]
  -- First all descriptors are set to what `GetField` finds, then the loop replaces those of
  -- strings and appends what tells of objects.
  refine (recordAll_gives hexact hW hin hfirst hbody).bind fun tape₃ h => ?_
  obtain ⟨found, rfl, hfound⟩ := h
  refine (visitFields_told hW hrec depth hfound).mono fun tape' h => ⟨?_, fun hlt => ?_⟩
  · have := h.1
    rw [htape₁, List.length_append, List.length_append] at this
    omega
  · obtain ⟨entries, hfields, htold, rfl⟩ := h.2 hlt
    refine ⟨_, .message (entries.map Entry.raw), by rw [htape₁, List.append_assoc], fun h => (by
        cases h), fun k hk => ?_, fun i kind hi hkind' k hk pre post => ?_⟩
    · obtain ⟨k, rfl⟩ : ∃ j, k = j + 1 := ⟨k - 1, by omega⟩
      -- The accessors open the message and read the same fields.
      rw [readType, hplan]
      dsimp only
      rw [readObject, if_pos hkind, hopen, Res.ok_bind]
      dsimp only
      rw [← hfields, mapM_entries Entry.raw fun e he => ?_]
      · rfl
      · rw [readField]
        rcases (htold e he).2.2 with ⟨-, -, hraw, hnull⟩ | ⟨-, f, hget, hne, -, hread, -⟩
        · rw [hnull, Res.ok_bind, if_pos rfl, hraw]
          rfl
        · rw [hget, Res.ok_bind, if_neg hne]
          exact hread k (by omega)
    · obtain ⟨k, rfl⟩ : ∃ j, k = j + 1 := ⟨k - 1, by omega⟩
      obtain ⟨type, plan', htype, hplan', hsame⟩ := hcorresponds i typeId hi
      rw [hplan] at hplan'
      cases hplan'
      cases type with
      | message prototype fields presenceWordCount =>
        -- The reader walks over the descriptors, and over what was appended for one field after
        -- the other.
        obtain ⟨-, -, hsame⟩ := hsame
        rw [← hfields, List.forall₂_map_right_iff] at hsame
        have hheader : (pre ++ [kMessage, typeId, UInt32.ofNat plan.fields.length, 0, 0]).length =
          pre.length + 5 :=
          List.length_append
        have hcount : fields.length = entries.length := hsame.length_eq
        have hloop := @materializeFields_eq α W plans types R n k (by omega) (location.view W)
          (pre ++ [kMessage, typeId, UInt32.ofNat plan.fields.length, 0, 0]) post [] entries fields
            hsame htold
          ⟨[], PresenceBits.none presenceWordCount⟩ _ rfl
        rw [List.nil_append, List.flatMap_nil, List.length_nil, List.length_nil, Nat.add_zero,
          hheader, ← hcount] at hloop
        have htape : pre ++ ([kMessage, typeId, UInt32.ofNat plan.fields.length, 0, 0] ++
            (pairWords (entries.map Entry.descriptor) ++ entries.flatMap Entry.ext) ++ post) =
            (pre ++ [kMessage, typeId, UInt32.ofNat plan.fields.length, 0, 0]) ++
            (pairWords (entries.map Entry.descriptor) ++ (entries.flatMap Entry.ext ++ post)) := by
          simp only [List.append_assoc]
        have hlength : ([kMessage, typeId, UInt32.ofNat plan.fields.length, 0, 0] ++
            (pairWords (entries.map Entry.descriptor) ++ entries.flatMap Entry.ext)).length =
            5 + (fields.length * 2 + (entries.flatMap Entry.ext).length) := by
          rw [List.length_append, List.length_append, length_pairWords, List.length_map, hcount]
          rfl
        rw [htape, hlength, materialize, htype, decode, htype]
        refine (congrArg (· >>=
            fun r => pure (Decoded.message prototype r.1.fields r.1.present, r.2)) hloop).trans ?_
        simp only [← Nat.add_assoc]
        cases decodeFields types fields (entries.map Entry.raw) 0
          ⟨[], PresenceBits.none presenceWordCount⟩ <;> rfl
      | array valueKind child => exact absurd (hkind.symm.trans hsame.1) (by decide)
      | map keyKind valueKind child => exact absurd (hkind.symm.trans hsame.1) (by decide)

/-! ## Arrays -/

/-- What there is of an element or of a pair in the end: what was appended for it, and what
    the accessors read of it. -/
structure Part (ρ : Type) where
  ext : List UInt32
  raw : ρ

omit hW hrec hin

theorem tapeAt_header (pre rest : List UInt32) (a b c d e : UInt32) :
    tapeAt (pre ++ ([a, b, c, d, e] ++ rest)) (pre.length + 2) = c.toNat ∧
      tapeAt (pre ++ ([a, b, c, d, e] ++ rest)) (pre.length + 3) = d.toNat ∧
      tapeAt (pre ++ ([a, b, c, d, e] ++ rest)) (pre.length + 4) = e.toNat := by
  have hget : ∀ (k : ℕ) w, ([a, b, c, d, e] : List UInt32)[k]? = some w →
      tapeAt (pre ++ ([a, b, c, d, e] ++ rest)) (pre.length + k) = w.toNat := by
    intro k w hw
    rw [tapeAt, getElem?_middle hw]
    rfl
  exact ⟨hget 2 c rfl, hget 3 d rfl, hget 4 e rfl⟩

/-- A loop that makes the values of parts, one after the other. -/
theorem collect_eq {β ρ : Type} {make : ℕ → ℕ → Reading (β × ℕ)} {f : ρ → Reading β}
    {g : List ρ → Reading (List β)} (hnil : g [] = pure [])
    (hcons : ∀ r rs, g (r :: rs) = f r >>= fun v => g rs >>= fun vs => pure (v :: vs))
    (parts : List (Part ρ)) (index cursor : ℕ)
    (h : ∀ (j : ℕ) part, parts[j]? = some part →
      make (index + j) (cursor + ((parts.take j).flatMap Part.ext).length) = f part.raw >>=
      fun v => pure (v, cursor + ((parts.take j).flatMap Part.ext).length + part.ext.length)) :
    collect make parts.length index cursor =
      g (parts.map Part.raw) >>= fun vs => pure (vs, cursor + (parts.flatMap Part.ext).length) := by
  induction parts generalizing index cursor with
  | nil =>
    rw [List.map_nil, hnil]
    rfl
  | cons part parts ih =>
    have hrest := ih (index + 1) (cursor + part.ext.length) fun j part' hpart' => by
      have hj := h (j + 1) part' hpart'
      rw [List.take_succ_cons, List.flatMap_cons, List.length_append, ← Nat.add_assoc cursor,
        Nat.add_comm j, ← Nat.add_assoc index] at hj
      exact hj
    have hfirst := h 0 part rfl
    rw [List.take_zero, List.flatMap_nil, List.length_nil, Nat.add_zero, Nat.add_zero] at hfirst
    rw [List.length_cons, collect, hfirst, List.map_cons, hcons, List.flatMap_cons,
      List.length_append, ← Nat.add_assoc]
    cases f part.raw with
    | error failure => rfl
    | ok v =>
      refine (congrArg (· >>= fun r => pure (v :: r.1, r.2)) hrest).trans ?_
      cases g (parts.map Part.raw) <;> rfl

theorem decodeAll_nil (types : List (TapeType α)) (kind : Kind) (child : ℕ) :
    decodeAll types kind child [] = pure [] := by
  rw [decodeAll]

theorem decodeAll_cons (types : List (TapeType α)) (kind : Kind) (child : ℕ) (raw : Raw)
    (raws : List Raw) :
    decodeAll types kind child (raw :: raws) =
      decode types kind child raw >>= fun value => decodeAll types kind child raws >>= fun values =>
        pure (value :: values) := by rw [decodeAll]

/-- The bytes of an array of Booleans. -/
theorem booleans_eq {input : List UInt8} {offset count : ℕ} (h : offset + count ≤ input.length) :
    ((List.range count).map fun index =>
      (Decoded.scalar (.boolean (input[offset + index]? != some 0)) : Decoded α)) =
      ((input.drop offset).take count).map fun b => .scalar (.boolean (b != 0)) := by
  refine List.ext_getElem ?_ fun i hi hi' => ?_
  · simp
    omega
  · rw [List.length_map, List.length_range] at hi
    rw [List.getElem_map, List.getElem_map, List.getElem_range, List.getElem_take,
      List.getElem_drop, List.getElem?_eq_getElem (by omega)]
    rfl

/-- The value of a part without parts of its own is told where the cursor is. -/
theorem ToldValue.scalar {kind child : UInt32} {f : ProtoCache.Field} {p : ℕ × ℕ} {raw : Raw}
    (h : ToldValue W plans types R n kind child f p [] raw) {tkind : Kind} (htkind : tkind.Is kind)
    (hcomplex : tkind.isComplexKind = false) (tchild cursor : ℕ) :
    (scalarAt (bytesOf W) tkind p.1 p.2 >>= fun s => pure (Decoded.scalar s, cursor)) =
      decode types tkind tchild raw >>= fun value => pure (value, cursor) := by
  have hvalue := h.2.2 tkind tchild htkind (fun h => by rw [hcomplex] at h; cases h) n le_rfl
    (List.replicate cursor 0) []
  rw [valueAt, hcomplex, if_neg (by decide), List.length_replicate] at hvalue
  exact hvalue

/-- The place of an element. -/
theorem element_toNat {start width : UInt32} {count index : ℕ} (hW : W.length < 2 ^ 30)
    (hwidth : width.toNat ≠ 0) (hin : start.toNat + width.toNat * count ≤ W.length)
    (hindex : index < count) :
    (start + UInt32.ofNat index * width).toNat = start.toNat + width.toNat * index ∧
      start.toNat + width.toNat * index + width.toNat ≤ W.length := by
  have hle : width.toNat * (index + 1) ≤ width.toNat * count := Nat.mul_le_mul_left _ hindex
  have hpos : index ≤ width.toNat * index := Nat.le_mul_of_pos_left _ (Nat.pos_of_ne_zero hwidth)
  rw [Nat.mul_succ] at hle
  rw [UInt32.toNat_add, UInt32.toNat_mul, UInt32.toNat_ofNat',
    Nat.mod_eq_of_lt (a := index) (by omega), Nat.mul_comm index,
    Nat.mod_eq_of_lt (a := _ * _) (by omega), Nat.mod_eq_of_lt (by omega)]
  exact ⟨rfl, by omega⟩

/-- What the accessors read of the cells of parts. -/
theorem forCells_parts {β : Type} {f : ProtoCache.Field → Res β} {start width : ℕ}
    {parts : List (Part β)}
    (h : ∀ (j : ℕ) part, parts[j]? = some part → f ⟨.at (W.drop (start + width * j)), width⟩ =
      .ok part.raw) :
    forCells f width parts.length (.at (W.drop start)) = .ok (parts.map Part.raw) := by
  obtain ⟨raws, hraws, hall⟩ :=
    @forCells_eq β (Part β) (fun raw part => raw = part.raw) f width parts (W.drop start)
    fun i hi => ⟨_, by rw [List.drop_drop]; exact h i _ (List.getElem?_eq_getElem hi), rfl⟩
  have heq : raws = parts.map Part.raw := by
    rwa [← List.forall₂_eq_eq_eq, List.forall₂_map_right_iff]
  rw [hraws, heq]

theorem openArray_view {location : Location} {header : UInt32}
    (hheader : (location.view W).head? = some header) (hwidth : (header &&& 3).toNat ≠ 0)
    (hin : location.wordOffset.toNat + 1 + (header &&& 3).toNat * (header >>> 2).toNat ≤ W.length) :
    openArray true (.at (location.view W)) =
      .ok ⟨.at (W.drop (location.wordOffset.toNat + 1)), (header >>> 2).toNat,
        (header &&& 3).toNat⟩ := by
  have hview : (location.view W).length = W.length - location.wordOffset.toNat := List.length_drop
  rw [openArray, if_neg (fun h => by cases h), Ptr.load, hheader, access_some, Res.ok_bind]
  dsimp only
  rw [if_neg, Ptr.add, Location.view, List.drop_drop]
  · rfl
  · rw [Ptr.exceeds, Bool.true_and, decide_eq_true_eq, not_or, not_lt]
    exact ⟨hwidth, by omega⟩

/-- An array is told by its header and what follows. -/
theorem told_array {plan : TypePlan} {typeId : UInt32} (hcorresponds : Corresponds types plans R)
    (hplan : Wasm.planOf plans typeId = some plan) (hkind : plan.kind = kArray)
    (hbool : plan.valueKind ≠ kBool) {view : List UInt32} {start count width : ℕ}
    (hopen : openArray true (.at view) = .ok ⟨.at (W.drop start), count, width⟩)
    (hwidth : width ≠ 0) (parts : List (Part Raw)) (hcount : parts.length = count)
    {rest : List UInt32} {c d e : UInt32}
    (htold : ∀ (j : ℕ) part, parts[j]? = some part → ∃ p, ToldValue W plans types R n plan.valueKind
      plan.child ⟨.at (W.drop (start + width * j)), width⟩ p part.ext part.raw)
    (hmake : ∀ (valueKind : Kind) child, valueKind.Is plan.valueKind →
      (valueKind.isComplexKind = true → R child plan.child) → ∀ k ≥ n,
      ∀ pre post, ∀ tape, tape = pre ++ ([kArray, typeId, c, d, e] ++ rest ++ post) →
      materializeArray ⟨bytesOf W, tape, types⟩ (materialize ⟨bytesOf W, tape, types⟩ k) valueKind
      child pre.length = decodeAll types valueKind child (parts.map Part.raw) >>=
      fun values => pure (Decoded.array values, pre.length + (5 + rest.length))) :
    Told W plans types R (n + 1) typeId view ([kArray, typeId, c, d, e] ++ rest)
      (.array (parts.map Part.raw)) := by
  refine ⟨fun h => (by cases h), fun k hk => ?_, fun i kind hi _ k hk pre post => ?_⟩
  · -- The reader goes through the cells, which are what the parts tell of.
    obtain ⟨k, rfl⟩ : ∃ j, k = j + 1 := ⟨k - 1, by omega⟩
    rw [readType, hplan]
    dsimp only
    rw [readObject, hkind, if_neg (by decide), if_pos rfl, if_neg hbool, hopen, Res.ok_bind]
    dsimp only
    rw [if_neg (fun h => by cases h), ArrayView.forEach]
    dsimp only
    rw [if_neg hwidth, ← hcount, forCells_parts fun j part hpart => ?_]
    · rfl
    · obtain ⟨p, -, hread, -⟩ := htold j part hpart
      exact hread k (by omega)
  · obtain ⟨k, rfl⟩ : ∃ j, k = j + 1 := ⟨k - 1, by omega⟩
    obtain ⟨type, plan', htype, hplan', hsame⟩ := hcorresponds i typeId hi
    rw [hplan] at hplan'
    cases hplan'
    cases type with
    | message prototype fields presenceWordCount =>
      exact absurd (hkind.symm.trans hsame.1) (by decide)
    | array valueKind child =>
      obtain ⟨-, hvalue, hchild⟩ := hsame
      have hlength : ([kArray, typeId, c, d, e] ++ rest).length = 5 + rest.length :=
        List.length_append
      rw [materialize, htype, decode, htype, hlength]
      refine (hmake valueKind child hvalue hchild k (by omega) pre post _ rfl).trans ?_
      dsimp only
      cases decodeAll types valueKind child (parts.map Part.raw) <;> rfl
    | map keyKind valueKind child => exact absurd (hkind.symm.trans hsame.1) (by decide)

include hW hrec in
/-- A loop over complex values tells of each of them. -/
theorem visitChildren_told {kind : UInt32} (hcomplex : isComplex kind = true) (count : ℕ)
    (at_ : ℕ → UInt32) (width child : UInt32) (p : ℕ → ℕ × ℕ) (tape : List UInt32) :
    Wasm.Gives (fun tape' => tape.length ≤ tape'.length ∧
      (tape'.length < 2 ^ 32 → ∃ parts : List (Part Raw),
        parts.length = count ∧ tape' = tape ++ parts.flatMap Part.ext ∧ ∀ (j : ℕ) part,
        parts[j]? = some part →
          ToldValue W plans types R n kind child ⟨.at (W.drop (at_ j).toNat), width.toNat⟩ (p j)
            part.ext part.raw))
      ((List.range count).foldlM
        (fun tape index => visitChild (bytesOf W) rec (at_ index) width child tape) tape) := by
  refine Ensures.foldlM_range (I := fun k tape' => tape.length ≤ tape'.length ∧
    (tape'.length < 2 ^ 32 → ∃ parts : List (Part Raw), parts.length = k ∧ tape' =
      tape ++ parts.flatMap Part.ext ∧ ∀ (j : ℕ) part, parts[j]? = some part → ToldValue W plans
      types R n kind child ⟨.at (W.drop (at_ j).toNat), width.toNat⟩ (p j) part.ext part.raw)) ?_
    fun k hk tape₁ htape₁ => ?_
  · exact ⟨le_rfl, fun _ => ⟨[], rfl, (List.append_nil _).symm, fun j part h => by cases h⟩⟩
  · obtain ⟨hle, hparts⟩ := htape₁
    refine (visitChild_told hW hrec hcomplex (at_ k) width child tape₁ (p k)).mono fun tape₂ h =>
      ⟨hle.trans h.1, fun hlt => ?_⟩
    obtain ⟨ext, raw, rfl, htold⟩ := h.2 hlt
    obtain ⟨parts, rfl, rfl, hall⟩ := hparts (h.1.trans_lt hlt)
    refine ⟨parts ++ [⟨ext, raw⟩], List.length_append, ?_, fun j part hpart => ?_⟩
    · rw [List.flatMap_append, List.flatMap_singleton, List.append_assoc]
    · rcases lt_trichotomy j parts.length with hj | rfl | hj
      · rw [List.getElem?_append_left hj] at hpart
        exact hall j part hpart
      · rw [List.getElem?_append_right le_rfl, Nat.sub_self] at hpart
        cases hpart
        exact htold
      · rw [List.getElem?_eq_none
          (by rw [List.length_append, List.length_singleton]; omega)] at hpart
        cases hpart

include hW in
/-- A loop over strings sets the descriptor of each of them. -/
theorem visitStrings_told {kind : UInt32} (hbytes : kind = kString ∨ kind = kBytes) (child : UInt32)
    (count : ℕ) (at_ : ℕ → UInt32) (width : UInt32) {base : List UInt32}
    (hlen : base.length + count * 2 < 2 ^ 32) :
    Wasm.Gives (fun tape' => ∃ items : List ((ℕ × ℕ) × Raw), items.length = count ∧
        tape' = base ++ pairWords (items.map Prod.fst) ∧ ∀ (j : ℕ) item, items[j]? = some item →
          item.1.1 < 2 ^ 32 ∧ item.1.2 < 2 ^ 32 ∧
            ToldValue W plans types R n kind child ⟨.at (W.drop (at_ j).toNat), width.toNat⟩ item.1
              [] item.2)
      ((List.range count).foldlM
        (fun tape index => validateScalar (bytesOf W) kind (at_ index) width
        (UInt32.ofNat base.length + UInt32.ofNat index * 2) tape)
          (base ++ List.replicate (count * 2) 0)) := by
  -- After `k` rounds the first `k` pairs of the block are set, and the others are zero.
  refine
    (Ensures.foldlM_range (I := fun k tape' => ∃ items : List ((ℕ × ℕ) × Raw), items.length = k ∧
      tape' = base ++ (pairWords (items.map Prod.fst ++ List.replicate (count - k) (0, 0)) ++ []) ∧
      ∀ (j : ℕ) item, items[j]? = some item → item.1.1 < 2 ^ 32 ∧ item.1.2 < 2 ^ 32 ∧ ToldValue
      W plans types R n kind child ⟨.at (W.drop (at_ j).toNat), width.toNat⟩ item.1 [] item.2) ?_
    fun k hk tape₁ htape₁ => ?_).mono fun tape' h => ?_
  · refine ⟨[], rfl, ?_, fun j item h => by cases h⟩
    rw [List.map_nil, List.nil_append, List.append_nil, Nat.sub_zero, pairWords_zeros]
  · obtain ⟨items, rfl, rfl, hall⟩ := htape₁
    have hd : (UInt32.ofNat base.length + UInt32.ofNat items.length * 2).toNat =
        base.length + items.length * 2 := by
      rw [UInt32.toNat_add, UInt32.toNat_mul, UInt32.toNat_ofNat', UInt32.toNat_ofNat',
        show (2 : UInt32).toNat = 2 from rfl, Nat.mod_eq_of_lt (a := base.length) (by omega),
        Nat.mod_eq_of_lt (a := items.length) (by omega),
        Nat.mod_eq_of_lt (a := items.length * 2) (by omega), Nat.mod_eq_of_lt (by omega)]
    refine (validateScalar_bytes plans types R n hW child hbytes hd (by simp; omega)
      (by simp; omega)).mono fun tape₂ h => ?_
    obtain ⟨p, raw, -, hp₁, hp₂, htold, rfl⟩ := h
    refine ⟨items ++ [(p, raw)], List.length_append, ?_, fun j item hitem => ?_⟩
    · have hrep : List.replicate (count - items.length) ((0, 0) : ℕ × ℕ) =
          (0, 0) :: List.replicate (count - (items.length + 1)) (0, 0) := by
        rw [← List.replicate_succ]
        congr 1
        omega
      rw [hrep, List.set_append_right _ _ (by rw [List.length_map]), List.length_map, Nat.sub_self,
        List.set_cons_zero, List.map_append, List.append_assoc]
      rfl
    · rcases lt_trichotomy j items.length with hj | rfl | hj
      · rw [List.getElem?_append_left hj] at hitem
        exact hall j item hitem
      · rw [List.getElem?_append_right le_rfl, Nat.sub_self] at hitem
        cases hitem
        exact ⟨hp₁, hp₂, htold⟩
      · rw [List.getElem?_eq_none
          (by rw [List.length_append, List.length_singleton]; omega)] at hitem
        cases hitem
  · obtain ⟨items, hcount, htape, hall⟩ := h
    rw [Nat.sub_self, List.replicate_zero, List.append_nil, List.append_nil] at htape
    exact ⟨items, hcount, htape, hall⟩

/-- Nothing was appended for parts without parts of their own. -/
theorem exts_nil {ρ : Type} {parts : List (Part ρ)} (h : ∀ part ∈ parts, part.ext = []) :
    parts.flatMap Part.ext = [] :=
  List.flatMap_eq_nil_iff.2 h

/-- A loop that makes values without parts does not move the cursor. -/
theorem collect_plain {β ρ : Type} {make : ℕ → ℕ → Reading (β × ℕ)} {f : ρ → Reading β}
    {g : List ρ → Reading (List β)} (hnil : g [] = pure [])
    (hcons : ∀ r rs, g (r :: rs) = f r >>= fun v => g rs >>= fun vs => pure (v :: vs))
    (raws : List ρ) (cursor : ℕ)
    (h : ∀ (j : ℕ) raw, raws[j]? = some raw → make j cursor = f raw >>= fun v => pure (v, cursor)) :
    collect make raws.length 0 cursor = g raws >>= fun vs => pure (vs, cursor) := by
  have hext : ∀ parts : List ρ, (parts.map (Part.mk [])).flatMap Part.ext = [] := by
    intro parts
    refine exts_nil fun part hpart => ?_
    obtain ⟨raw, -, rfl⟩ := List.mem_map.1 hpart
    rfl
  have hcollect := collect_eq hnil hcons (raws.map (Part.mk [])) 0 cursor fun j part hpart => by
    rw [List.getElem?_map] at hpart
    obtain ⟨raw, hraw, rfl⟩ := Option.map_eq_some_iff.1 hpart
    rw [← List.map_take, hext, Nat.zero_add]
    exact h j raw hraw
  rw [List.length_map, hext, List.map_map] at hcollect
  refine hcollect.trans ?_
  have hid : Part.raw ∘ Part.mk [] = (id : ρ → ρ) := rfl
  rw [hid, List.map_id]
  rfl

section

variable {valueKind : Kind} {child : ℕ} {code planned : UInt32} {typeId c d e : UInt32}
  {pre post tape : List UInt32} {rec : Materializer α}

/-- The strings of an array are read by their descriptors. -/
theorem materializeArray_strings (hkind : valueKind.Is code)
    (hbytes : code = kString ∨ code = kBytes) {items : List ((ℕ × ℕ) × Raw)}
    (hcount : c.toNat = items.length)
    (hall : ∀ (j : ℕ) item, items[j]? = some item → item.1.1 < 2 ^ 32 ∧ item.1.2 < 2 ^ 32 ∧ ∃ f,
      ToldValue W plans types R n code planned f item.1 [] item.2)
    (htape : tape = pre ++ ([kArray, typeId, c, d, e] ++ pairWords (items.map Prod.fst) ++ post)) :
    materializeArray ⟨bytesOf W, tape, types⟩ rec valueKind child pre.length =
      decodeAll types valueKind child (items.map Prod.snd) >>= fun values =>
        pure (Decoded.array values,
          pre.length + (5 + (pairWords (items.map Prod.fst)).length)) := by
  have hplain : valueKind.isComplexKind = false := by
    rw [hkind.complex]
    rcases hbytes with rfl | rfl <;> rfl
  have hstring : valueKind = .string ∨ valueKind = .bytes := hbytes.imp hkind.string.2 hkind.bytes.2
  have hbool : valueKind ≠ .bool := by
    rintro rfl
    rcases hstring with h | h <;> cases h
  rw [List.append_assoc] at htape
  obtain ⟨hc, -, -⟩ :=
    tapeAt_header pre (pairWords (items.map Prod.fst) ++ post) kArray typeId c d e
  rw [← htape] at hc
  have hpair : ∀ (j : ℕ) item, items[j]? = some item →
      tapeAt tape (pre.length + 5 + j * 2) = item.1.1 ∧ tapeAt tape (pre.length + 5 + j * 2 + 1) =
        item.1.2 := by
    intro j item hitem
    have hget : (items.map Prod.fst)[j]? = some item.1 := by rw [List.getElem?_map, hitem]; rfl
    have h := tapeAt_pair (pre ++ [kArray, typeId, c, d, e]) post hget (hall j item hitem).1
      (hall j item hitem).2.1
    rw [List.append_assoc, ← htape, List.length_append] at h
    exact h
  have hlength : items.length = (items.map Prod.snd).length := (List.length_map _).symm
  rw [materializeArray, hc, if_neg hbool, if_pos hstring, hcount, hlength]
  refine (congrArg (· >>= fun r => pure (Decoded.array r.1, r.2))
    (collect_plain (decodeAll_nil types valueKind child) (decodeAll_cons types valueKind child)
      (items.map Prod.snd) _ fun j raw hraw => ?_)).trans ?_
  · rw [List.getElem?_map] at hraw
    obtain ⟨item, hitem, rfl⟩ := Option.map_eq_some_iff.1 hraw
    obtain ⟨-, -, f, htold⟩ := hall j item hitem
    dsimp only
    rw [(hpair j item hitem).1, (hpair j item hitem).2]
    exact htold.scalar hkind hplain child _
  · rw [length_pairWords, List.length_map, List.length_map, Nat.add_assoc]
    cases decodeAll types valueKind child (items.map Prod.snd) <;> rfl

/-- The scalars of an array are read where they are. -/
theorem materializeArray_words (hkind : valueKind.Is code) (hcomplex : isComplex code = false)
    (hbytes : ¬(code = kString ∨ code = kBytes)) (hbool : code ≠ kBool) {raws : List Raw}
    (hcount : c.toNat = raws.length)
    (hall : ∀ (j : ℕ) raw, raws[j]? = some raw → ∃ f,
      ToldValue W plans types R n code planned f (d.toNat + j * e.toNat, e.toNat) [] raw)
    (htape : tape = pre ++ ([kArray, typeId, c, d, e] ++ [] ++ post)) :
    materializeArray ⟨bytesOf W, tape, types⟩ rec valueKind child pre.length =
      decodeAll types valueKind child raws >>= fun values =>
        pure (Decoded.array values, pre.length + (5 + 0)) := by
  have hplain : valueKind.isComplexKind = false := hkind.complex.trans hcomplex
  rw [List.append_nil] at htape
  obtain ⟨hc, hd, he⟩ := tapeAt_header pre post kArray typeId c d e
  rw [← htape] at hc hd he
  rw [materializeArray, hc, hd, he, if_neg fun h => hbool (hkind.bool.1 h),
    if_neg fun h => hbytes (h.imp hkind.string.1 hkind.bytes.1), hcount]
  refine (congrArg (· >>= fun r => pure (Decoded.array r.1, r.2))
    (collect_plain (decodeAll_nil types valueKind child) (decodeAll_cons types valueKind child) raws
      _ fun j raw hraw => ?_)).trans ?_
  · obtain ⟨f, htold⟩ := hall j raw hraw
    rw [valueAt, hplain, if_neg (by decide)]
    exact htold.scalar hkind hplain child _
  · cases decodeAll types valueKind child raws <;> rfl

/-- The objects of an array are read one after the other. -/
theorem materializeArray_objects (hkind : valueKind.Is code) (hcomplex : isComplex code = true)
    (hchild : valueKind.isComplexKind = true → R child planned) {parts : List (Part Raw)}
    (hcount : c.toNat = parts.length)
    (hall : ∀ (j : ℕ) part, parts[j]? = some part → ∃ f,
      ToldValue W plans types R n code planned f (d.toNat + j * e.toNat, e.toNat) part.ext part.raw)
    (htape : tape = pre ++ ([kArray, typeId, c, d, e] ++ parts.flatMap Part.ext ++ post)) {k : ℕ}
    (hk : n ≤ k) :
    materializeArray ⟨bytesOf W, tape, types⟩ (materialize ⟨bytesOf W, tape, types⟩ k) valueKind
      child pre.length =
      decodeAll types valueKind child (parts.map Part.raw) >>= fun values =>
        pure (Decoded.array values, pre.length + (5 + (parts.flatMap Part.ext).length)) := by
  have hplain : valueKind.isComplexKind = true := hkind.complex.trans hcomplex
  have hother : ∀ kind : Kind, kind.isComplexKind = false → valueKind ≠ kind := by
    rintro kind hfalse rfl
    rw [hfalse] at hplain
    cases hplain
  rw [List.append_assoc] at htape
  obtain ⟨hc, hd, he⟩ := tapeAt_header pre (parts.flatMap Part.ext ++ post) kArray typeId c d e
  rw [← htape] at hc hd he
  rw [materializeArray, hc, hd, he, if_neg (hother _ rfl),
    if_neg (not_or.2 ⟨hother _ rfl, hother _ rfl⟩), hcount]
  refine (congrArg (· >>= fun r => pure (Decoded.array r.1, r.2))
    (collect_eq (decodeAll_nil types valueKind child) (decodeAll_cons types valueKind child) parts 0
      _ fun j part hpart => ?_)).trans ?_
  · obtain ⟨hj, rfl⟩ := List.getElem?_eq_some_iff.1 hpart
    obtain ⟨f, -, -, hmake⟩ := hall j _ hpart
    -- The cursor is at the words of this part when those before it are read.
    have hsplit : parts.flatMap Part.ext =
        (parts.take j).flatMap Part.ext ++
          (parts[j].ext ++ (parts.drop (j + 1)).flatMap Part.ext) := by
      rw [← List.flatMap_cons, ← List.drop_eq_getElem_cons hj, ← List.flatMap_append,
        List.take_append_drop]
    have hpre : tape = (pre ++ ([kArray, typeId, c, d, e] ++ (parts.take j).flatMap Part.ext)) ++
        (parts[j].ext ++ ((parts.drop (j + 1)).flatMap Part.ext ++ post)) := by
      rw [htape, hsplit]
      simp only [List.append_assoc]
    have hcursor : (pre ++ ([kArray, typeId, c, d, e] ++ (parts.take j).flatMap Part.ext)).length =
        pre.length + 5 + ((parts.take j).flatMap Part.ext).length := by
      rw [List.length_append, List.length_append, Nat.add_assoc]
      rfl
    have hvalue := hmake valueKind child hkind hchild k hk
      (pre ++ ([kArray, typeId, c, d, e] ++ (parts.take j).flatMap Part.ext))
      ((parts.drop (j + 1)).flatMap Part.ext ++ post)
    rw [← hpre, hcursor] at hvalue
    rw [Nat.zero_add]
    exact hvalue
  · rw [Nat.add_assoc]
    cases decodeAll types valueKind child (parts.map Part.raw) <;> rfl

end

theorem shiftRight_two_toNat (header : UInt32) : (header >>> 2).toNat = header.toNat / 4 := by
  rw [UInt32.toNat_shiftRight]
  exact Nat.shiftRight_eq_div_pow _ 2

include hW hin in
/-- The body of an array starts behind its header. -/
theorem arrayBody_toNat : (location.wordOffset + 1).toNat = location.wordOffset.toNat + 1 := by
  have hlt := hin.lt
  rw [UInt32.toNat_add, show (1 : UInt32).toNat = 1 from rfl, Nat.mod_eq_of_lt (by omega)]

section

variable (hcorresponds : Corresponds types plans R) (hplan : Wasm.planOf plans typeId = some plan)
  (hkind : plan.kind = kArray)

include hcorresponds hplan hkind

include hW hin in
/-- An array of Booleans is told by where its bytes are. -/
theorem visitBooleans_told (hbool : plan.valueKind = kBool) (tape : List UInt32) :
    Wasm.Gives (Tells W plans types R (n + 1) typeId (location.view W) tape)
      (parseBytes (bytesOf W) location >>= fun bytes =>
        appendHeader room kArray typeId bytes.length bytes.offset 0 tape) := by
  refine (parseBytes_gives hW hin).bind fun bytes hbytes => ?_
  obtain ⟨-, hbound, hstring⟩ := hbytes
  refine (appendHeader_gives _ _ _ _ _ _ _).mono fun tape' htape' =>
    ⟨by simp [htape'], fun _ => ?_⟩
  refine ⟨_, .bytes (((bytesOf W).drop bytes.offset.toNat).take bytes.length.toNat), htape',
    fun h => (by cases h), fun k hk => ?_, fun i kind hi hcomplex k hk pre post => ?_⟩
  · -- The accessors read the bytes as a string.
    obtain ⟨k, rfl⟩ : ∃ j, k = j + 1 := ⟨k - 1, by omega⟩
    have hload : Storage.load ((bytesOf W).drop bytes.offset.toNat) bytes.length.toNat =
        some (((bytesOf W).drop bytes.offset.toNat).take bytes.length.toNat) :=
      Storage.load_of_le (by rw [List.length_drop, length_bytesOf]; omega)
    rw [readType, hplan]
    dsimp only
    rw [readObject, hkind, if_neg (by decide), if_pos rfl, if_pos hbool, hstring, Res.ok_bind,
      readBytes, ByteSlice.get, hload]
    rfl
  · -- The reader makes a Boolean of each of the bytes.
    obtain ⟨k, rfl⟩ : ∃ j, k = j + 1 := ⟨k - 1, by omega⟩
    obtain ⟨type, plan', htype, hplan', hsame⟩ := hcorresponds i typeId hi
    rw [hplan] at hplan'
    cases hplan'
    cases type with
    | message prototype fields presenceWordCount =>
      exact absurd (hkind.symm.trans hsame.1) (by decide)
    | array valueKind child =>
      obtain ⟨hcount, hdata, -⟩ := tapeAt_header pre post kArray typeId bytes.length bytes.offset 0
      rw [materialize, htype, decode, if_pos hcomplex,
        ← booleans_eq (by rw [length_bytesOf]; exact hbound)]
      change materializeArray _ (materialize _ k) valueKind child pre.length = _
      rw [materializeArray, hcount, hdata, if_pos (hsame.2.1.bool.2 hbool)]
      rfl
    | map keyKind valueKind child => exact absurd (hkind.symm.trans hsame.1) (by decide)

variable (hbool : plan.valueKind ≠ kBool) {header : UInt32}
  (hheader : (location.view W).head? = some header) (hwidth : (header &&& 3).toNat ≠ 0)
  (hroom : location.wordOffset.toNat + 1 + (header &&& 3).toNat * (header >>> 2).toNat ≤ W.length)
  {tape tape₁ : List UInt32} (htape₁ : tape₁ = tape ++
    [kArray, typeId, header >>> 2, location.wordOffset + 1, header &&& 3])

include hbool hheader hwidth hroom htape₁

omit hcorresponds hplan hkind hbool hheader htape₁ in
include hW hin in
/-- The place of an element, whose number of words is told by the header. -/
theorem arrayElement_toNat {j : ℕ} (hj : j < (header >>> 2).toNat) :
    (location.wordOffset + 1 + UInt32.ofNat j * (header &&& 3)).toNat =
        location.wordOffset.toNat + 1 + (header &&& 3).toNat * j ∧
      location.wordOffset.toNat + 1 + (header &&& 3).toNat * j + (header &&& 3).toNat ≤
        W.length := by
  rw [← arrayBody_toNat hW hin]
  exact element_toNat hW hwidth (by rwa [arrayBody_toNat hW hin]) hj

include hW hin in
/-- An array of strings is told by their descriptors, which follow its header. -/
theorem visitArrayStrings_told (hbytes : plan.valueKind = kString ∨ plan.valueKind = kBytes) :
    Wasm.Gives (Tells W plans types R (n + 1) typeId (location.view W) tape)
      (extend room ((header >>> 2).toNat * 2) tape₁ >>= fun tape' =>
        (List.range (header >>> 2).toNat).foldlM (fun tape index =>
          validateScalar (bytesOf W) plan.valueKind
            (location.wordOffset + 1 + UInt32.ofNat index * (header &&& 3)) (header &&& 3)
            (UInt32.ofNat tape₁.length + UInt32.ofNat index * 2) tape) tape') := by
  refine (extend_gives _ _ _).bind fun tape₂ htape₂ => ?_
  subst htape₂
  by_cases hlen : tape₁.length + (header >>> 2).toNat * 2 < 2 ^ 32
  · refine (@visitStrings_told α W plans types R n hW plan.valueKind hbytes plan.child _ _ _ _
      hlen).mono fun tape' h => ?_
    obtain ⟨items, hcount, rfl, hall⟩ := h
    refine ⟨by simp [htape₁], fun _ =>
      ⟨_, .array ((items.map fun item => Part.mk [] item.2).map Part.raw),
        by rw [htape₁, List.append_assoc], ?_⟩⟩
    have hraws : (items.map fun item => Part.mk [] item.2).map Part.raw = items.map Prod.snd :=
      List.map_map
    refine told_array hcorresponds hplan hkind hbool (openArray_view hheader hwidth hroom) hwidth
      (items.map fun item => Part.mk [] item.2) ((List.length_map _).trans hcount)
      (fun j part hpart => ?_) fun valueKind child hvalue _ k hk pre post tape' htape' => ?_
    · rw [List.getElem?_map] at hpart
      obtain ⟨item, hitem, rfl⟩ := Option.map_eq_some_iff.1 hpart
      have hj := (List.getElem?_eq_some_iff.1 hitem).1
      have htold := (hall j item hitem).2.2
      rw [(arrayElement_toNat hW hin hwidth hroom (hcount ▸ hj)).1] at htold
      exact ⟨item.1, htold⟩
    · rw [hraws]
      exact materializeArray_strings hvalue hbytes hcount.symm
        (fun j item hitem => ⟨(hall j item hitem).1, (hall j item hitem).2.1, _,
          (hall j item hitem).2.2⟩) htape'
  · -- The tape is too long, and stays so.
    refine (Ensures.foldlM_range
      (I := fun _ tape' => tape'.length = tape₁.length + (header >>> 2).toNat * 2) (by simp)
      fun k _ tape₂ h => (validateScalar_length _ _ _ _ _).mono fun _ h' => h'.trans h).mono
        fun tape' h => ?_
    refine ⟨by rw [h, htape₁, List.length_append]; omega, fun hlt => absurd (h ▸ hlt) hlen⟩

include hW hin in
/-- An array of scalars is told by its header alone. -/
theorem visitArrayScalars_told (hcomplex : isComplex plan.valueKind = false)
    (hbytes : ¬(plan.valueKind = kString ∨ plan.valueKind = kBytes))
    (hfits : (header &&& 3).toNat = (scalarWidthWords plan.valueKind).toNat) :
    Tells W plans types R (n + 1) typeId (location.view W) tape tape₁ := by
  have hplace := fun j hj => (@arrayElement_toNat W hW location hin header hwidth hroom j hj).2
  have htold := fun j hj second => @told_words α W plans types R n plan.valueKind plan.child
    hcomplex hbytes (location.wordOffset.toNat + 1 + (header &&& 3).toNat * j) _ hfits
    (hplace j hj) second
  have hpart : ∀ {β : Type} (f : ℕ → β) (j : ℕ) (b : β),
      ((List.range (header >>> 2).toNat).map f)[j]? = some b →
        j < (header >>> 2).toNat ∧ f j = b := by
    intro β f j b h
    rw [List.getElem?_map] at h
    obtain ⟨i, hi, rfl⟩ := Option.map_eq_some_iff.1 h
    obtain ⟨hj, rfl⟩ := List.getElem?_eq_some_iff.1 hi
    rw [List.getElem_range]
    exact ⟨by rwa [List.length_range] at hj, rfl⟩
  refine ⟨by simp [htape₁], fun _ => ⟨_ ++ [], _, by rw [htape₁, List.append_nil],
    told_array hcorresponds hplan hkind hbool (openArray_view hheader hwidth hroom) hwidth
      ((List.range (header >>> 2).toNat).map fun j => Part.mk [] (.words
        ((W.drop (location.wordOffset.toNat + 1 + (header &&& 3).toNat * j)).take
          (header &&& 3).toNat)))
      (by simp) (fun j part h => ?_)
      fun valueKind child hvalue _ k hk pre post tape' htape' => ?_⟩⟩
  · obtain ⟨hj, rfl⟩ := hpart _ j part h
    exact ⟨_, htold j hj 0⟩
  · rw [List.map_map]
    have hall : ∀ (j : ℕ) raw, ((List.range (header >>> 2).toNat).map (Part.raw ∘ fun j =>
        Part.mk [] (.words ((W.drop (location.wordOffset.toNat + 1 + (header &&& 3).toNat * j)).take
          (header &&& 3).toNat))))[j]? = some raw →
        ∃ f, ToldValue W plans types R n plan.valueKind plan.child f
          ((location.wordOffset + 1).toNat + j * (header &&& 3).toNat, (header &&& 3).toNat) []
          raw := by
      intro j raw h
      obtain ⟨hj, rfl⟩ := hpart _ j raw h
      rw [arrayBody_toNat hW hin, Nat.mul_comm j]
      exact ⟨_, htold j hj _⟩
    exact materializeArray_words hvalue hcomplex hbytes hbool (by simp) hall htape'

include hW hrec hin in
/-- An array of objects is told by what is appended for them, one after the other. -/
theorem visitArrayObjects_told (hcomplex : isComplex plan.valueKind = true) :
    Wasm.Gives (Tells W plans types R (n + 1) typeId (location.view W) tape)
      ((List.range (header >>> 2).toNat).foldlM (fun tape index =>
        visitChild (bytesOf W) rec (location.wordOffset + 1 + UInt32.ofNat index * (header &&& 3))
          (header &&& 3) plan.child tape) tape₁) := by
  refine (visitChildren_told hW hrec hcomplex _ _ _ _
    (fun j => ((location.wordOffset + 1).toNat + j * (header &&& 3).toNat, (header &&& 3).toNat))
    _).mono fun tape' h => ⟨?_, fun hlt => ?_⟩
  · have hle := h.1
    rw [htape₁, List.length_append] at hle
    omega
  · obtain ⟨parts, hcount, rfl, hall⟩ := h.2 hlt
    refine ⟨_, _, by rw [htape₁, List.append_assoc],
      told_array hcorresponds hplan hkind hbool (openArray_view hheader hwidth hroom) hwidth parts
        hcount (fun j part hpart => ?_)
        fun valueKind child hvalue hchild k hk pre post tape' htape' => ?_⟩
    · have hj := (List.getElem?_eq_some_iff.1 hpart).1
      have htold := hall j part hpart
      rw [(arrayElement_toNat hW hin hwidth hroom (hcount ▸ hj)).1] at htold
      exact ⟨_, htold⟩
    · exact materializeArray_objects hvalue hcomplex hchild hcount.symm
        (fun j part hpart => ⟨_, hall j part hpart⟩) htape' hk

end

include hW hrec hin in
/-- A visitor of arrays tells of the array. -/
theorem visitArray_told (hcorresponds : Corresponds types plans R)
    (hplan : Wasm.planOf plans typeId = some plan) (hkind : plan.kind = kArray) (depth : UInt32)
    (tape : List UInt32) :
    Wasm.Gives (Tells W plans types R (n + 1) typeId (location.view W) tape)
      (visitArray (bytesOf W) room plan location rec typeId depth tape) := by
  rw [visitArray]
  split
  · next hbool => exact visitBooleans_told hW hin hcorresponds hplan hkind hbool tape
  · next hbool =>
    refine (require_gives _).bind fun _ _ => (readWord_gives _).bind fun header hheader => ?_
    rw [← List.head?_drop] at hheader
    refine (require_gives _).bind fun _ hroom =>
      (appendHeader_gives _ _ _ _ _ _ _).bind fun tape₁ htape₁ => ?_
    rw [Bool.and_eq_true, bne_iff_ne, requireWords_iff] at hroom
    obtain ⟨hne, hroom⟩ := hroom
    have hwidth : (header &&& 3).toNat ≠ 0 := fun h => hne (UInt32.toNat_inj.1 h)
    -- The number of words of the elements does not wrap around.
    have hproduct : ((header &&& 3).toUInt64 * (header >>> 2).toUInt64).toNat =
        (header &&& 3).toNat * (header >>> 2).toNat := by
      have hwide : (header &&& 3).toNat * (header >>> 2).toNat ≤ 3 * 2 ^ 30 := by
        have := header.toNat_lt
        rw [and_three, shiftRight_two_toNat]
        exact Nat.mul_le_mul (by omega) (by omega)
      rw [UInt64.toNat_mul, UInt32.toNat_toUInt64, UInt32.toNat_toUInt64,
        Nat.mod_eq_of_lt (by omega)]
    rw [hproduct, arrayBody_toNat hW hin] at hroom
    have hroom := hroom.trans hin.le
    split
    · next hbytes =>
      exact visitArrayStrings_told hW hin hcorresponds hplan hkind hbool hheader hwidth hroom
        htape₁ hbytes
    · next hbytes =>
      split
      · next hscalar =>
        refine (require_gives _).bind fun _ hfits => ensures_pure.2 ?_
        exact visitArrayScalars_told hW hin hcorresponds hplan hkind hbool hheader hwidth hroom
          htape₁ (by simpa using hscalar) hbytes (congrArg UInt32.toNat (beq_iff_eq.1 hfits))
      · next hcomplex =>
        refine (require_gives _).bind fun _ _ => ?_
        exact visitArrayObjects_told hW hrec hin hcorresponds hplan hkind hbool hheader hwidth
          hroom htape₁ (by simpa using hcomplex)

end

end ProtoCache.Typescript

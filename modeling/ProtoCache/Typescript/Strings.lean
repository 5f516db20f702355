import ProtoCache.Lib.Unicode
import ProtoCache.Typescript.PackedArena
import Mathlib

/-!
# Strings in the arena

How a string of JavaScript gets into the arena (`writeBlob` of
`typescript/src/serialize-arena.ts`) and comes back from a buffer (`decodeString` of
`typescript/src/deserialize-tape.ts`). Both take a short way for up to 128 units of ASCII.
The writer finds out only on that way whether a string is ASCII; if it is not, the record
begins again.

The standard of encodings is followed by `TextEncoder` and `TextDecoder`. The decoder is
made with `fatal`, so it throws for bytes that are not UTF-8, and without `ignoreBOM`, so it
takes U+FEFF at the beginning for a mark, which is no part of the text. A string that
begins with U+FEFF comes back without it (`writeBlob_faithful_iff`).
-/

namespace ProtoCache.Typescript

open Exceptional

open PackedArena

/-! ## The writer -/

/-- `MAX_DIRECT_ASCII_LENGTH`. -/
def maxDirectAsciiLength : ℕ := 128

/-- The loop of `validatedUtf8Length`, which ends at a surrogate that is isolated. -/
def utf8Length : List UInt16 → ℕ → Option ℕ
  | [], byteLength => some byteLength
  | [first], byteLength =>
    if Unicode.isLead first then none
    else if Unicode.isTrail first then none
    else if first < 0x80 then some (byteLength + 1)
    else if first < 0x800 then some (byteLength + 2)
    else some (byteLength + 3)
  | first :: second :: rest, byteLength =>
    if Unicode.isLead first then
      if Unicode.isTrail second then utf8Length rest (byteLength + 4) else none
    else if Unicode.isTrail first then none
    else if first < 0x80 then utf8Length (second :: rest) (byteLength + 1)
    else if first < 0x800 then utf8Length (second :: rest) (byteLength + 2)
    else utf8Length (second :: rest) (byteLength + 3)

/-- `validatedUtf8Length`. -/
def validatedUtf8Length (value : List UInt16) : Run PackedArena ArenaError ℕ :=
  match utf8Length value 0 with
  | none => Run.throw (.typeError "ProtoCache string contains an isolated UTF-16 surrogate")
  | some byteLength =>
    if maxBytes ≤ byteLength then Run.throw (.rangeError "ProtoCache string is too large")
      else pure byteLength

/-- What `writeBlob` is given. -/
inductive BlobValue
  | string (units : List UInt16)
  | bytes (bytes : List UInt8)
  /-- Neither a string nor a `Uint8Array`. -/
  | other

/-- The units of a string, until one is not ASCII; whether there is none. -/
def writeAscii : List UInt16 → Run PackedArena ArenaError Bool
  | [] => pure true
  | code :: rest =>
    if 0x80 ≤ code then
      pure false
    else do
      let offset ← getOffset
      storeByte offset code.toUInt8
      setOffset (offset + 1)
      writeAscii rest

/-- The end of `writeBlob`, for a string whose bytes have been counted. -/
def writeEncoded (value : List UInt16) (byteLength : ℕ) : Run PackedArena ArenaError PUnit := do
  let start ← beginRecord .string 0 0
  require byteLength
  let offset ← getOffset
  let capacity ← getCapacity
  let result := Unicode.encodeInto (Unicode.scalars value) (min byteLength (capacity - offset))
  store offset result.2
  if result.1 ≠ value.length ∨ result.2.length ≠ byteLength then
    Run.throw (.typeError "TextEncoder did not consume the validated string")
  else do
    setOffset (offset + result.2.length)
    setUint32 (start + 8) byteLength
    finish start

/-- `writeBlob` for a string of which it is not known that it is ASCII. -/
def writeText (value : List UInt16) : Run PackedArena ArenaError PUnit := do
  require (16 + value.length)
  let byteLength ← validatedUtf8Length value
  writeEncoded value byteLength

/-- `writeBlob` for a string. -/
def writeString (value : List UInt16) : Run PackedArena ArenaError PUnit :=
  if value.length ≤ maxDirectAsciiLength then do
    require (16 + value.length)
    let start ← beginRecord .string 0 0
    let direct ← writeAscii value
    if direct then do
      setUint32 (start + 8) value.length
      finish start
    else do
      setOffset start
      writeText value
  else
    writeText value

/-- `writeBlob` for bytes. -/
def writeBytes (kind : Kind) (value : List UInt8) : Run PackedArena ArenaError PUnit :=
  if maxBytes ≤ value.length then
    Run.throw (.rangeError "ProtoCache byte array is too large")
  else do
    require (16 + value.length)
    let start ← beginRecord kind 0 0
    require value.length
    let offset ← getOffset
    store offset value
    setOffset (offset + value.length)
    setUint32 (start + 8) value.length
    finish start

/-- `writeBlob`. -/
def writeBlob (kind : Kind) (value : BlobValue) : Run PackedArena ArenaError PUnit :=
  if kind = .string then
    match value with
    | .string units => writeString units
    | _ => Run.throw (.typeError "ProtoCache string field must be a string")
  else
    match value with
    | .bytes bytes => writeBytes kind bytes
    | _ => Run.throw (.typeError "ProtoCache bytes field must be a Uint8Array")

/-! ## The reader -/

/-- `textDecoder.decode(input)`, which may throw. -/
def textDecode (input : List UInt8) : Option (List UInt16) :=
  (Unicode.decode input).map fun cs => Unicode.units (Unicode.dropMark cs)

/-- The loop of `decodeString` over some bytes, which ends at one that is not ASCII. -/
def decodeAscii (input : List UInt8) : ℕ → ℕ → Option (List UInt16)
  | _, 0 => some []
  | index, count + 1 =>
    let byte := (input[index]?).getD 0
    if byte &&& 0x80 ≠ 0 then none
      else (decodeAscii input (index + 1) count).map (byte.toUInt16 :: ·)

/-- `decodeString`, which may throw. -/
def decodeString (input : List UInt8) (offset length : ℕ) : Option (List UInt16) :=
  if length ≤ maxDirectAsciiLength then
    match decodeAscii input offset length with
    | some out => some out
    | none => textDecode ((input.drop offset).take length)
  else
    textDecode ((input.drop offset).take length)

/-! ## What is written of a string -/

section

variable {F : ℕ → Prop} {R : Prop} {E : ArenaError → PackedArena → Prop} {p : List UInt8} {n k : ℕ}

/-- The bytes of a text in UTF-16. -/
def utf8 (s : List UInt16) : List UInt8 := Unicode.encode (Unicode.scalars s)

/-- The end of the record of a string at an offset. -/
def recordEnd (offset : ℕ) (s : List UInt16) : ℕ := (offset + 16 + (utf8 s).length + 3) / 4 * 4

/-- A record with bytes in it ends what is held. -/
def Recorded (F : ℕ → Prop) (p bytes : List UInt8) (arena : PackedArena) : Prop :=
  ∃ size pad, Holding F (p ++ (header .string 0 bytes.length size ++ (bytes ++ pad))) [] 0 arena

theorem writeAscii_settles {s : List UInt16} (hs : s.length ≤ n) :
    Settles (Holding F p [] n) (writeAscii s)
    (fun direct b =>
      (direct = true ∧ (∀ u ∈ s, u.toNat < 0x80) ∧ Holding F (p ++ s.map UInt16.toUInt8) [] 0 b) ∨
      (direct = false ∧ (∃ u ∈ s, ¬u.toNat < 0x80) ∧ ∃ w, Holding F (p ++ w) [] 0 b)) E := by
  induction s generalizing p n with
  | nil =>
    refine Settles.pure fun a ha => .inl ⟨rfl, by simp, ?_⟩
    rw [List.map_nil, List.append_nil]
    exact ha.mono (Nat.zero_le n)
  | cons code rest ih =>
    rw [List.length_cons] at hs
    rw [writeAscii]
    split_ifs with hcode
    · refine Settles.pure fun a ha => .inr ⟨rfl, ⟨code, List.mem_cons_self, ?_⟩, [], ?_⟩
      · exact not_lt.2 (UInt16.le_iff_toNat_le.1 hcode)
      · rw [List.append_nil]
        exact ha.mono (Nat.zero_le n)
    · have hlt : code.toNat < 0x80 := not_le.1 fun h => hcode (UInt16.le_iff_toNat_le.2 h)
      refine getOffset_bind ?_
      refine Settles.bind (storeByte_settles (by omega)) fun _ => ?_
      refine Settles.bind (setOffset_settles (List.append_nil _).symm (by simp)) fun _ => ?_
      refine (ih (by omega)).conseq (fun _ h => h) ?_ fun _ _ h => h
      rintro direct b (⟨hd, hrest, hb⟩ | ⟨hd, ⟨u, hu, hge⟩, w, hb⟩)
      · refine .inl ⟨hd, List.forall_mem_cons.2 ⟨hlt, hrest⟩, ?_⟩
        rwa [List.append_assoc] at hb
      · refine .inr ⟨hd, ⟨u, List.mem_cons_of_mem code hu, hge⟩, [code.toUInt8] ++ w, ?_⟩
        rwa [List.append_assoc] at hb

/-- A unit that stands for itself counts for its bytes. -/
theorem utf8Length_plain {u : UInt16} (hl : ¬Unicode.isLead u) (ht : ¬Unicode.isTrail u)
    (rest : List UInt16) (n : ℕ) : utf8Length (u :: rest) n =
      utf8Length rest (n + (String.utf8EncodeChar (Char.ofNat u.toNat)).length) := by
  have hlt : u.toNat < 0x10000 := u.toNat_lt
  have hu : (Char.ofNat u.toNat).toNat = u.toNat := by
    rw [Unicode.isLead_iff] at hl
    rw [Unicode.isTrail_iff] at ht
    exact Unicode.toNat_ofNat (by omega)
  have h7 : u < 0x80 ↔ u.toNat < 0x80 := UInt16.lt_iff_toNat_lt
  have h11 : u < 0x800 ↔ u.toNat < 0x800 := UInt16.lt_iff_toNat_lt
  rw [Unicode.length_utf8EncodeChar, hu]
  cases rest with
  | nil =>
    simp only [utf8Length, hl, ht, h7, h11, hlt, if_true, Bool.false_eq_true, if_false]
    split_ifs <;> rfl
  | cons v rest =>
    simp only [utf8Length, hl, ht, h7, h11, hlt, if_true, Bool.false_eq_true, if_false]
    split_ifs <;> rfl

/-- The loop of `validatedUtf8Length` counts the bytes of a text, and it finds the units that
    are isolated. -/
theorem utf8Length_eq (s : List UInt16) (n : ℕ) :
    (Unicode.Isolated s ∧ utf8Length s n = none) ∨
      (¬Unicode.Isolated s ∧ utf8Length s n = some (n + (utf8 s).length)) := by
  induction hm : s.length using Nat.strongRecOn generalizing s n with
  | _ m ih =>
    cases s with
    | nil => exact .inr ⟨Unicode.isolated_nil, rfl⟩
    | cons u rest =>
      -- By the first unit: a character of its own, a pair, or one of the two isolated ones.
      rcases Unicode.units_cases u rest with ⟨hl, ht⟩ | ⟨v, rest, hl, ht, rfl⟩ | ⟨hl, ht⟩ | ht
      · rw [utf8Length_plain hl ht, Unicode.isolated_plain hl ht, utf8, Unicode.scalars_plain hl ht,
          Unicode.encode_cons, List.length_append, ← Nat.add_assoc]
        exact ih rest.length (by simp [← hm]) rest _ rfl
      · have hpair : (String.utf8EncodeChar (Unicode.pair u v)).length = 4 := by
          have hl' := Unicode.isLead_iff.1 hl
          have ht' := Unicode.isTrail_iff.1 ht
          have hn : (Unicode.pair u v).toNat = 0x10000 + (u.toNat - 0xd800) * 0x400 +
            (v.toNat - 0xdc00) :=
            Unicode.toNat_ofNat (by omega)
          rw [Unicode.length_utf8EncodeChar, hn, if_neg (by omega), if_neg (by omega),
            if_neg (by omega)]
        have hstep : utf8Length (u :: v :: rest) n = utf8Length rest (n + 4) := by
          simp only [utf8Length, hl, ht, if_true]
        rw [hstep, Unicode.isolated_pair hl ht, utf8, Unicode.scalars_pair hl ht,
          Unicode.encode_cons, List.length_append, hpair, ← Nat.add_assoc]
        exact ih rest.length (by rw [← hm, List.length_cons, List.length_cons]; omega) rest _ rfl
      · refine .inl ⟨Unicode.isolated_of_lead hl ht, ?_⟩
        cases rest with
        | nil => simp only [utf8Length, hl, if_true]
        | cons v rest =>
          have hv : ¬Unicode.isTrail v := ht v rfl
          simp only [utf8Length, hl, hv, if_true, Bool.false_eq_true, if_false]
      · refine .inl ⟨Unicode.isolated_of_trail ht rest, ?_⟩
        have hl : ¬Unicode.isLead u := fun hl => Unicode.not_isTrail_of_isLead hl ht
        cases rest with
        | nil => simp only [utf8Length, hl, ht, if_true, Bool.false_eq_true, if_false]
        | cons v rest => simp only [utf8Length, hl, ht, if_true, Bool.false_eq_true, if_false]

/-- Units of text are not more than their bytes. -/
theorem length_le_utf8 {s : List UInt16} (h : ¬Unicode.Isolated s) :
    s.length ≤ (utf8 s).length := by
  have hle := Unicode.length_units_le (Unicode.scalars s)
  rwa [Unicode.units_scalars h] at hle

/-- A string in the general way, once its bytes have been counted. -/
theorem writeEncoded_settles {s : List UInt16} (hs : ¬Unicode.Isolated s)
    (hR : ∀ r ≤ recordEnd p.length s, ¬F r → R) :
    Settles (Holding F p [] k) (writeEncoded s (utf8 s).length)
      (fun _ b => F (recordEnd p.length s) ∧ Recorded F p (utf8 s) b) (fun _ _ => R) := by
  have hend : p.length + 16 + (utf8 s).length ≤ recordEnd p.length s := by
    rw [recordEnd]
    omega
  refine Settles.bind (beginRecord_settles (hR _ (by omega))) fun start =>
    Settles.of_fact fun hstart => ?_
  have hlength : (p ++ header .string 0 0 16).length = p.length + 16 := by
    rw [List.length_append, length_header]
  refine Settles.bind (require_settles (by rw [hlength]; exact hR _ hend)) fun _ =>
    Settles.of_fact fun _ => ?_
  refine getOffset_bind (getCapacity_bind fun capacity hcapacity => ?_)
  have hmin :
      (utf8 s).length ≤ min (utf8 s).length (capacity - (p ++ header .string 0 0 16).length) := by
    rw [List.length_nil] at hcapacity
    omega
  have hresult := Unicode.encodeInto_eq hmin
  rw [Unicode.units_scalars hs] at hresult
  simp only [hresult]
  refine Settles.bind (store_settles rfl (by exact le_max_right _ _)) fun _ => ?_
  rw [if_neg (by simp [utf8]), hstart]
  have hsplit : (p ++ header .string 0 0 16) ++ ([] ++ utf8 s) =
      (p ++ (header .string 0 0 16 ++ utf8 s)) ++ [] := by
    simp only [List.nil_append, List.append_nil, List.append_assoc]
  refine Settles.bind (setOffset_settles hsplit (by simp [utf8]; omega)) fun _ => ?_
  refine Settles.bind setCount_settles fun _ => ?_
  exact finish_settles (hR _ le_rfl)

/-- A string in the general way. -/
theorem writeValidated_settles {s : List UInt16} (hmax : ∀ r, F r → r < maxBytes)
    (hR : ∀ r ≤ recordEnd p.length s, ¬F r → R) (hisolated : Unicode.Isolated s → R) :
    Settles (Holding F p [] k) (validatedUtf8Length s >>= writeEncoded s)
      (fun _ b => ¬Unicode.Isolated s ∧ F (recordEnd p.length s) ∧ Recorded F p (utf8 s) b)
        (fun _ _ => R) := by
  rcases utf8Length_eq s 0 with ⟨hs, hlength⟩ | ⟨hs, hlength⟩
  · refine Settles.bind (M := fun _ _ => False) ?_ fun _ _ h => h.elim
    rw [validatedUtf8Length, hlength]
    exact Settles.throw fun _ _ => hisolated hs
  rw [Nat.zero_add] at hlength
  rw [validatedUtf8Length, hlength]
  dsimp only
  split_ifs with hlarge
  · refine Settles.bind (M := fun _ _ => False) (Settles.throw fun _ _ => ?_) fun _ _ h => h.elim
    refine hR _ le_rfl fun hF => ?_
    have hlt := hmax _ hF
    rw [recordEnd] at hlt
    omega
  · refine Settles.bind (M := fun byteLength b => byteLength = (utf8 s).length ∧ Holding F p [] k b)
      (Settles.pure fun _ h => ⟨rfl, h⟩) fun byteLength => Settles.of_fact fun hbytes => ?_
    rw [hbytes]
    exact (writeEncoded_settles hs hR).conseq (fun _ h => h) (fun _ _ h => ⟨hs, h⟩) fun _ _ h => h

/-- A string of ASCII in the direct way. -/
theorem writeDirect_settles {s : List UInt16} (hs : s.length ≤ n)
    (hR : ∀ r ≤ recordEnd p.length s, ¬F r → R) (hisolated : Unicode.Isolated s → R)
    (hmax : ∀ r, F r → r < maxBytes) (hrequire : ¬F (p.length + (16 + s.length)) → R) :
    Settles (Holding F p [] (16 + n)) (do
        let start ← beginRecord .string 0 0
        let direct ← writeAscii s
        if direct then do
          setUint32 (start + 8) s.length
          finish start
        else do
          setOffset start
          writeText s)
      (fun _ b => ¬Unicode.Isolated s ∧ F (recordEnd p.length s) ∧ Recorded F p (utf8 s) b)
        (fun _ _ => R) := by
  have hbegin : ¬F (p.length + 16) → R := hR _ (by rw [recordEnd]; omega)
  refine Settles.bind (beginRecord_settles hbegin) fun start => Settles.of_fact fun hstart => ?_
  refine Settles.bind (writeAscii_settles (by omega)) fun direct => ?_
  rintro b (⟨hd, hall, hb⟩ | ⟨hd, -, w, hb⟩)
  · -- All units were bytes: the record is finished as it is.
    obtain ⟨htext, hbytes⟩ := Unicode.ascii_units hall
    have hlength : s.length = (s.map UInt16.toUInt8).length := (List.length_map _).symm
    have hend : (p.length + 16 + (s.map UInt16.toUInt8).length + 3) / 4 * 4 =
        recordEnd p.length s := by
      rw [recordEnd, utf8, hbytes]
    rw [if_pos hd, hstart, hlength]
    rw [List.append_assoc] at hb
    refine Settles.bind setCount_settles
      (fun _ => (finish_settles (by rw [hend]; exact hR _ le_rfl)).conseq (fun _ h => h)
      (fun _ b hb => ⟨htext, ?_⟩) fun _ _ h => h) b hb
    rw [hend] at hb
    rw [utf8, hbytes]
    exact hb
  · rw [if_neg (by rw [hd]; decide), hstart]
    -- There was another unit: the record is dropped, and the text is encoded from its start.
    refine Settles.bind (M := fun _ => Holding F p [] 0) ?_ (fun _ => ?_) b hb
    · have hsplit : (p ++ header .string 0 0 16 ++ w) ++ [] =
        p ++ (header .string 0 0 16 ++ w) := by
        rw [List.append_nil, List.append_assoc]
      exact (setOffset_settles hsplit rfl).conseq (fun _ h => h) (fun _ _ h => h.forget)
        fun _ _ h => h
    · rw [writeText]
      refine Settles.bind (require_settles hrequire) fun _ => Settles.of_fact fun _ => ?_
      exact writeValidated_settles hmax hR hisolated

/-- The record of a string does not fit in the arena. -/
def TooLarge (s : List UInt16) (arena : PackedArena) : Prop :=
  ¬arena.Fits (recordEnd arena.offset s)

/-- `writeBlob` throws for a string that is no text or is too large; else there is a record
    of the string. -/
theorem writeString_settles (s : List UInt16) (arena : PackedArena) :
    Settles (fun a => a = arena) (writeString s)
      (fun _ b => ¬(Unicode.Isolated s ∨ TooLarge s arena) ∧
        ∃ p, p.length = arena.offset ∧ Recorded arena.Fits p (utf8 s) b)
      (fun _ _ => Unicode.Isolated s ∨ TooLarge s arena) := by
  have hlarge : ∀ r ≤ recordEnd arena.offset s, ¬arena.Fits r →
    Unicode.Isolated s ∨ TooLarge s arena :=
    fun r hr hF => .inr fun hend => hF (hend.mono hr)
  have hmax : ∀ r, arena.Fits r → r < maxBytes := fun r h => h.1
  -- Reserving as much as the units take is no more than the bytes of a text take.
  have hunits : ¬arena.Fits (arena.offset + (16 + s.length)) →
      Unicode.Isolated s ∨ TooLarge s arena := by
    intro hF
    by_cases hs : Unicode.Isolated s
    · exact .inl hs
    · have hle := length_le_utf8 hs
      refine hlarge _ ?_ hF
      rw [recordEnd]
      omega
  have hpost {p : List UInt8} {b : PackedArena} (hp : p.length = arena.offset)
      (hb : ¬Unicode.Isolated s ∧ arena.Fits (recordEnd p.length s) ∧
        Recorded arena.Fits p (utf8 s) b) :
      ¬(Unicode.Isolated s ∨ TooLarge s arena) ∧ ∃ p,
        p.length = arena.offset ∧ Recorded arena.Fits p (utf8 s) b := by
    obtain ⟨hs, hF, hrecorded⟩ := hb
    rw [hp] at hF
    exact ⟨not_or.2 ⟨hs, not_not.2 hF⟩, p, hp, hrecorded⟩
  have hfirst :=
    (require_first arena (16 + s.length)).conseq (fun _ h => h) (fun _ _ h => h) fun _ _ => hunits
  rw [writeString]
  split_ifs
  · refine Settles.bind hfirst fun _ => Settles.of_exists fun p => Settles.of_fact fun hp => ?_
    refine (writeDirect_settles le_rfl ?_ .inl hmax ?_).conseq (fun _ h => h) (fun _ _ => hpost hp)
      fun _ _ h => h
    · rwa [hp]
    · rwa [hp]
  · rw [writeText]
    refine Settles.bind hfirst fun _ => Settles.of_exists fun p => Settles.of_fact fun hp => ?_
    refine (writeValidated_settles hmax ?_ .inl).conseq (fun _ h => h) (fun _ _ => hpost hp)
      fun _ _ h => h
    rwa [hp]

end

/-! ## What comes back -/

/-- `view.getUint32(position, true)`. -/
def getUint32 (bytes : List UInt8) (position : ℕ) : ℕ :=
  match bytes.drop position with
  | b₀ :: b₁ :: b₂ :: b₃ :: _ =>
    b₀.toNat + b₁.toNat * 0x100 + b₂.toNat * 0x10000 + b₃.toNat * 0x1000000
  | _ => 0

/-- The bytes in the record at an offset, as `ParseNode` finds them. -/
def encodedAt (arena : PackedArena) (start : ℕ) : List UInt8 :=
  (arena.bytes.drop (start + 16)).take (getUint32 arena.bytes (start + 8))

/-- Wherever the bytes stand in a buffer, `decodeString` returns the string. -/
def Decodes (bytes : List UInt8) (s : List UInt16) : Prop :=
  ∀ before after, decodeString (before ++ bytes ++ after) before.length bytes.length = some s

/-- What comes back of a string: it loses U+FEFF at its beginning. -/
def unmarked (s : List UInt16) : List UInt16 := if s.head? = some 0xfeff then s.tail else s

theorem getUint32_append {x z : List UInt8} {n : ℕ} (hn : n < 2 ^ 32) :
    getUint32 (x ++ (littleEndian n ++ z)) x.length = n := by
  have hbyte (m : ℕ) : (UInt8.ofNat m).toNat = m % 0x100 := UInt8.toNat_ofNat
  rw [getUint32, List.drop_left]
  change (UInt8.ofNat n).toNat + (UInt8.ofNat (n / 0x100)).toNat * 0x100 +
    (UInt8.ofNat (n / 0x10000)).toNat * 0x10000 + (UInt8.ofNat (n / 0x1000000)).toNat *
      0x1000000 = n
  rw [hbyte, hbyte, hbyte, hbyte]
  omega

theorem Recorded.encodedAt {F : ℕ → Prop} {p bytes : List UInt8} {arena : PackedArena}
    (h : Recorded F p bytes arena) (hlength : bytes.length < 2 ^ 32) :
    encodedAt arena p.length = bytes := by
  obtain ⟨size, pad, q, hbytes, -, -, -⟩ := h
  have hcount : arena.bytes = (p ++ (littleEndian Kind.string.code ++ littleEndian 0)) ++
      (littleEndian bytes.length ++ (littleEndian size ++ (bytes ++ pad ++ q))) := by
    rw [hbytes]
    simp only [header, List.append_nil, List.append_assoc]
  have hx : p.length + 8 = (p ++ (littleEndian Kind.string.code ++ littleEndian 0)).length := by
    simp only [List.length_append, length_littleEndian]
  have hbody : arena.bytes = (p ++ header .string 0 bytes.length size) ++
      (bytes ++ (pad ++ q)) := by
    rw [hbytes]
    simp only [List.append_nil, List.append_assoc]
  have hy : p.length + 16 = (p ++ header .string 0 bytes.length size).length := by
    rw [List.length_append, length_header]
  have hget : getUint32 arena.bytes (p.length + 8) = bytes.length := by
    rw [hcount, hx]
    exact getUint32_append hlength
  rw [Typescript.encodedAt, hget, hy, hbody, List.drop_left, List.take_left]

theorem and_0x80 (byte : UInt8) : byte &&& 0x80 ≠ 0 ↔ ¬byte.toNat < 0x80 := by
  have hlt := byte.toNat_lt
  have hand : (byte &&& 0x80).toNat = (byte.toNat.testBit 7).toNat * 2 ^ 7 := by
    rw [UInt8.toNat_and]
    exact Nat.and_two_pow byte.toNat 7
  rw [Ne, ← UInt8.toNat_inj, hand, Nat.testBit_eq_decide_div_mod_eq, UInt8.toNat_zero]
  rcases Nat.lt_or_ge byte.toNat 0x80 with h | h
  · rw [decide_eq_false (by omega)]
    simp [h]
  · rw [decide_eq_true (by omega)]
    simp only [Bool.toNat_true]
    omega

/-- The short way of the reader, over bytes of ASCII. -/
theorem decodeAscii_eq (before bytes after : List UInt8) :
    decodeAscii (before ++ bytes ++ after) before.length bytes.length =
      if ∀ b ∈ bytes, b.toNat < 0x80 then some (bytes.map UInt8.toUInt16) else none := by
  induction bytes generalizing before with
  | nil => simp [decodeAscii]
  | cons b bytes ih =>
    have hget : (before ++ b :: bytes ++ after)[before.length]? = some b := by
      rw [List.append_assoc, List.getElem?_append_right le_rfl, Nat.sub_self]
      rfl
    have hshift : before ++ b :: bytes ++ after = (before ++ [b]) ++ bytes ++ after := by
      simp only [List.append_assoc, List.cons_append, List.nil_append]
    have hlength : before.length + 1 = (before ++ [b]).length := by simp
    rw [List.length_cons, decodeAscii, hget, Option.getD_some, hshift, hlength, ih, List.map_cons]
    simp only [and_0x80, List.forall_mem_cons]
    by_cases hb : b.toNat < 0x80
    · simp only [hb, not_true, if_false, true_and]
      split_ifs <;> rfl
    · simp only [hb, not_false_eq_true, if_true, false_and, if_false]

theorem textDecode_utf8 {s : List UInt16} (h : ¬Unicode.Isolated s) :
    textDecode (utf8 s) = some (unmarked s) := by
  rw [textDecode, utf8, Unicode.decode_encode, Option.map_some, Unicode.units_dropMark h]
  rfl

/-- On every way of the reader a string comes back without its mark. -/
theorem decodes_utf8 {s : List UInt16} (h : ¬Unicode.Isolated s) :
    Decodes (utf8 s) (unmarked s) := by
  intro before after
  have htake : ((before ++ utf8 s ++ after).drop before.length).take (utf8 s).length = utf8 s := by
    rw [List.append_assoc, List.drop_left, List.take_left]
  rw [decodeString, htake, textDecode_utf8 h, decodeAscii_eq]
  split_ifs with hshort hascii
  · have hchars := Unicode.ascii_of_encode hascii
    have hunits : (utf8 s).map UInt8.toUInt16 = s := by
      rw [utf8, Unicode.encode_ascii hchars, Unicode.units_scalars h]
    have hmark : s.head? ≠ some 0xfeff := by
      intro hhead
      obtain ⟨rest, rfl⟩ : ∃ rest, s = 0xfeff :: rest := by
        cases s with
        | nil => cases hhead
        | cons u rest =>
          cases hhead
          exact ⟨rest, rfl⟩
      rw [Unicode.scalars_plain (by decide) (by decide)] at hchars
      exact absurd (hchars _ List.mem_cons_self) (by decide)
    change some ((utf8 s).map UInt8.toUInt16) = _
    rw [hunits, unmarked, if_neg hmark]
  · rfl
  · rfl

theorem Decodes.unique {bytes : List UInt8} {s s' : List UInt16} (h : Decodes bytes s)
    (h' : Decodes bytes s') :
    s = s' := Option.some.inj ((h [] []).symm.trans (h' [] []))

/-- A string is written. -/
def Accepted (s : List UInt16) (arena : PackedArena) : Prop :=
  ¬(Unicode.Isolated s ∨ TooLarge s arena)

/-- `writeBlob` of a string. -/
theorem writeBlob_cases (s : List UInt16) (arena : PackedArena) :
    (Accepted s arena ∧ ∃ b, writeBlob .string (.string s) arena = some (.ok ⟨⟩, b) ∧
      encodedAt b arena.offset = utf8 s) ∨
    (¬Accepted s arena ∧ ∃ e b, writeBlob .string (.string s) arena = some (.error e, b)) := by
  have hwrite : writeBlob .string (.string s) = writeString s := if_pos rfl
  obtain ⟨r, b, hb, hr⟩ := writeString_settles s arena arena rfl
  rw [hwrite]
  cases r with
  | error e => exact .inr ⟨not_not.2 hr, e, b, hb⟩
  | ok _ =>
    obtain ⟨haccepted, p, hp, hrecorded⟩ := hr
    refine .inl ⟨haccepted, b, hb, ?_⟩
    have hfits : arena.Fits (recordEnd arena.offset s) := not_not.1 (not_or.1 haccepted).2
    have hlt : recordEnd arena.offset s < 2 ^ 30 := hfits.1
    rw [← hp]
    refine hrecorded.encodedAt ?_
    rw [recordEnd] at hlt
    omega

/-! ## Whether strings survive -/

/-- A string in an arena: `writeBlob` throws exactly when it is no text or is too large, and
    else the bytes that it has encoded are decoded to the string. -/
def Survives (s : List UInt16) (arena : PackedArena) : Prop :=
  ((∃ e b, writeBlob .string (.string s) arena = some (.error e, b)) ↔
    Unicode.Isolated s ∨ TooLarge s arena) ∧
    ∀ b, writeBlob .string (.string s) arena = some (.ok ⟨⟩, b) →
      Decodes (encodedAt b arena.offset) s

/-- If two different strings are both written, then what comes back of them is different. -/
def KeptApart (s : List UInt16) (arena : PackedArena) (s' : List UInt16) (arena' : PackedArena) :
    Prop :=
  s ≠ s' → ∀ b b', writeBlob .string (.string s) arena = some (.ok ⟨⟩, b) →
    writeBlob .string (.string s') arena' = some (.ok ⟨⟩, b') →
    ¬∃ t, Decodes (encodedAt b arena.offset) t ∧ Decodes (encodedAt b' arena'.offset) t

/-- A string begins with U+FEFF. -/
abbrev Marked (s : List UInt16) : Prop := s.head? = some 0xfeff

theorem unmarked_eq {s : List UInt16} : unmarked s = s ↔ ¬Marked s := by
  rw [unmarked, Marked]
  split_ifs with h
  · cases s with
    | nil => cases h
    | cons u s =>
      refine ⟨fun heq => absurd (congrArg List.length heq) ?_, fun hn => absurd h hn⟩
      simp
  · exact ⟨fun _ => h, fun _ => rfl⟩

theorem marked_eq {s : List UInt16} (h : Marked s) : s = 0xfeff :: unmarked s := by
  rw [unmarked]
  split_ifs with hhead
  swap
  · exact absurd h hhead
  cases s with
  | nil => cases h
  | cons u s =>
    cases h
    rfl

theorem unmarked_inj {s s' : List UInt16} (h : s ≠ s') :
    unmarked s = unmarked s' ↔ (s = 0xfeff :: s' ∧ ¬Marked s') ∨
      (s' = 0xfeff :: s ∧ ¬Marked s) := by
  -- A marked text loses its first unit, and any other text is as it was.
  by_cases hs : Marked s
  · by_cases hs' : Marked s'
    · refine iff_of_false (fun heq => h ?_) (by simp [hs, hs'])
      rw [marked_eq hs, heq, ← marked_eq hs']
    · rw [unmarked_eq.2 hs']
      constructor
      · intro heq
        rw [← heq]
        exact .inl ⟨marked_eq hs, by rwa [heq]⟩
      · rintro (⟨heq, -⟩ | ⟨-, hn⟩)
        · rw [heq]
          rfl
        · exact absurd hs hn
  · rw [unmarked_eq.2 hs]
    by_cases hs' : Marked s'
    · constructor
      · intro heq
        rw [heq]
        exact .inr ⟨marked_eq hs', by rwa [← heq]⟩
      · rintro (⟨-, hn⟩ | ⟨heq, -⟩)
        · exact absurd hs' hn
        · rw [heq]
          rfl
    · rw [unmarked_eq.2 hs']
      refine iff_of_false h ?_
      rintro (⟨heq, -⟩ | ⟨heq, -⟩)
      · exact hs (by rw [heq]; rfl)
      · exact hs' (by rw [heq]; rfl)

theorem survives_iff (s : List UInt16) (arena : PackedArena) :
    Survives s arena ↔ ¬(Marked s ∧ Accepted s arena) := by
  rcases writeBlob_cases s arena with ⟨haccepted, b, hb, hbytes⟩ | ⟨hrefused, e, b, hb⟩
  · have htext : ¬Unicode.Isolated s := fun h => haccepted (.inl h)
    constructor
    · rintro ⟨-, hkept⟩ ⟨hmarked, -⟩
      have hdecodes := hkept b hb
      rw [hbytes] at hdecodes
      exact unmarked_eq.1 ((decodes_utf8 htext).unique hdecodes) hmarked
    · intro hn
      refine ⟨iff_of_false ?_ haccepted, fun b' hb' => ?_⟩
      · rintro ⟨e, b', hb'⟩
        rw [hb] at hb'
        cases hb'
      · rw [hb] at hb'
        cases hb'
        have hdecodes := decodes_utf8 htext
        rwa [unmarked_eq.2 fun hmarked => hn ⟨hmarked, haccepted⟩, ← hbytes] at hdecodes
  · refine iff_of_true ⟨iff_of_true ⟨e, b, hb⟩ (not_not.1 hrefused), fun b' hb' => ?_⟩ fun h =>
      hrefused h.2
    rw [hb] at hb'
    cases hb'

theorem keptApart_iff (s : List UInt16) (arena : PackedArena) (s' : List UInt16)
    (arena' : PackedArena) :
    KeptApart s arena s' arena' ↔ ¬(Accepted s arena ∧ Accepted s' arena' ∧
      ((s = 0xfeff :: s' ∧ ¬Marked s') ∨ (s' = 0xfeff :: s ∧ ¬Marked s))) := by
  by_cases hne : s = s'
  · refine iff_of_true (fun h => absurd hne h) ?_
    rintro ⟨-, -, ⟨h, -⟩ | ⟨h, -⟩⟩
    · exact absurd (congrArg List.length (hne.symm.trans h)) (by simp)
    · exact absurd (congrArg List.length (hne.trans h)) (by simp)
  rcases writeBlob_cases s arena with ⟨haccepted, b, hb, hbytes⟩ | ⟨hrefused, e, b, hb⟩
  · rcases writeBlob_cases s' arena' with ⟨haccepted', b', hb', hbytes'⟩ | ⟨hrefused, e, b', hb'⟩
    · -- Both are written, and each is read as its text without a mark.
      have hdecodes := decodes_utf8 fun h => haccepted (.inl h)
      have hdecodes' := decodes_utf8 fun h => haccepted' (.inl h)
      rw [← unmarked_inj hne]
      constructor
      · rintro h ⟨-, -, heq⟩
        refine h hne b b' hb hb' ⟨unmarked s, ?_, ?_⟩
        · rwa [hbytes]
        · rwa [hbytes', heq]
      · rintro h - c c' hc hc' ⟨t, ht, ht'⟩
        rw [hb] at hc
        cases hc
        rw [hb'] at hc'
        cases hc'
        rw [hbytes] at ht
        rw [hbytes'] at ht'
        exact h ⟨haccepted, haccepted', (hdecodes.unique ht).trans (hdecodes'.unique ht').symm⟩
    · refine iff_of_true (fun _ c c' _ hc' => ?_) fun h => hrefused h.2.1
      rw [hb'] at hc'
      cases hc'
  · refine iff_of_true (fun _ c c' hc => ?_) fun h => hrefused h.1
    rw [hb] at hc
    cases hc

/-- A string comes back as it was unless it is written and begins with U+FEFF; and two
    strings that are written come back the same exactly if one is the other after U+FEFF,
    and the other does not begin with U+FEFF itself. -/
theorem writeBlob_faithful_iff (s : List UInt16) (arena : PackedArena) (s' : List UInt16)
    (arena' : PackedArena) :
    (Survives s arena ↔ ¬(Marked s ∧ Accepted s arena)) ∧
      (KeptApart s arena s' arena' ↔ ¬(Accepted s arena ∧ Accepted s' arena' ∧
        ((s = 0xfeff :: s' ∧ ¬Marked s') ∨ (s' = 0xfeff :: s ∧ ¬Marked s)))) :=
  ⟨survives_iff s arena, keptApart_iff s arena s' arena'⟩

/-- The arena as it is when the module starts. -/
def startArena : PackedArena where
  bytes := List.replicate 0x10000 0
  bytes_ne_nil := List.ne_nil_of_length_pos (by rw [List.length_replicate]; decide)
  offset := 0
  room := 0x10000

theorem accepted_start {s : List UInt16} (h : ∀ u ∈ s, ¬Unicode.isLead u ∧ ¬Unicode.isTrail u)
    (hs : recordEnd 0 s ≤ 0x10000) : Accepted s startArena := by
  have htext : ¬Unicode.Isolated s := by
    induction s with
    | nil => exact Unicode.isolated_nil
    | cons u s ih =>
      obtain ⟨hl, ht⟩ := h u List.mem_cons_self
      rw [Unicode.isolated_plain hl ht]
      refine ih (fun v hv => h v (List.mem_cons_of_mem u hv)) (le_trans ?_ hs)
      rw [recordEnd, recordEnd, utf8, utf8, Unicode.scalars_plain hl ht, Unicode.encode_cons,
        List.length_append]
      omega
  have hlength : startArena.bytes.length = 0x10000 := List.length_replicate
  have hfits : startArena.Fits (recordEnd startArena.offset s) :=
    ⟨lt_of_le_of_lt (b := 0x10000) hs (by decide), .inl (by rw [hlength]; exact hs)⟩
  exact not_or.2 ⟨htext, not_not.2 hfits⟩

/-- The keys `"\uFEFFa"` and `"a"` of a map become equal. -/
theorem writeBlob_marked :
    ¬∀ s arena s' arena', Survives s arena ∧ KeptApart s arena s' arena' := by
  intro h
  refine (keptApart_iff [0xfeff, 0x61] startArena [0x61] startArena).1
    (h [0xfeff, 0x61] startArena [0x61] startArena).2 ⟨?_, ?_, .inl ⟨rfl, by decide⟩⟩
  · exact accepted_start (by rw [List.forall_mem_cons, List.forall_mem_singleton]; decide)
      (by decide +kernel)
  · exact accepted_start (by rw [List.forall_mem_singleton]; decide) (by decide +kernel)

end ProtoCache.Typescript

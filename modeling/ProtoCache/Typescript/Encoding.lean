import ProtoCache.Typescript.Told

/-!
# What can go wrong with values

Whatever the accessors read of a buffer has a value, but for its strings: these may not be
UTF-8. All that a value is made of is there, as the plans of the reader and of the decoder are
of the same types.

* `decode_ensures`: there is a value exactly if all strings in what was read are UTF-8.
-/

namespace ProtoCache.Typescript

open Outcome
open Wasm

variable {α : Type} {plans : List TypePlan} {types : List (TapeType α)} {R : ℕ → UInt32 → Prop}

/-! ## The strings of what was read -/

/-- The bytes of a value without parts, if it is a string. -/
def stringsOfScalar (kind : Kind) : Raw → List (List UInt8)
  | .bytes bs => if kind = .string then [bs] else []
  | _ => []

mutual

/-- The bytes of the strings in what was read, in their order. -/
def stringsOf (types : List (TapeType α)) (kind : Kind) (child : ℕ) : Raw → List (List UInt8)
  | .absent => []
  | .words _ => []
  | .bytes bs => stringsOfScalar kind (.bytes bs)
  | .message raws =>
    match types[child]? with
    | some (.message _ fields _) => stringsOfFields types fields raws
    | _ => []
  | .array raws =>
    match types[child]? with
    | some (.array valueKind child) => stringsOfAll types valueKind child raws
    | _ => []
  | .map keys values =>
    match types[child]? with
    | some (.map keyKind valueKind child) =>
      stringsOfPairs types keyKind valueKind child keys values
    | _ => []

/-- Those of the fields of a message. -/
def stringsOfFields (types : List (TapeType α)) :
    List (TapeField α) → List Raw → List (List UInt8)
  | field :: fields, raw :: raws =>
    stringsOf types field.kind field.child raw ++ stringsOfFields types fields raws
  | _, _ => []

/-- Those of the elements of an array. -/
def stringsOfAll (types : List (TapeType α)) (kind : Kind) (child : ℕ) :
    List Raw → List (List UInt8)
  | [] => []
  | raw :: raws => stringsOf types kind child raw ++ stringsOfAll types kind child raws

/-- Those of the keys and values of a map. -/
def stringsOfPairs (types : List (TapeType α)) (keyKind kind : Kind) (child : ℕ) :
    List Raw → List Raw → List (List UInt8)
  | key :: keys, raw :: raws =>
    stringsOfScalar keyKind key ++ (stringsOf types kind child raw ++
      stringsOfPairs types keyKind kind child keys raws)
  | _, _ => []

end

/-- Bytes that are a text in UTF-8. -/
def IsText (bs : List UInt8) : Prop := ∃ cs, bs = Unicode.encode cs

/-- The reader decodes the bytes of a text, and refuses others. -/
theorem isSome_decodeString (bs : List UInt8) :
    (decodeString bs 0 bs.length).isSome = true ↔ IsText bs := by
  have htext : (textDecode bs).isSome = true ↔ IsText bs := by
    rw [textDecode, Option.isSome_map, Unicode.isSome_decode_iff]
    rfl
  have hascii := decodeAscii_eq [] bs []
  rw [List.nil_append, List.append_nil, List.length_nil] at hascii
  rw [decodeString, hascii, List.drop_zero, List.take_length]
  split
  · split
    · next out hout =>
      -- On the short way all bytes are ASCII, and so a text.
      split at hout
      · next hall => exact iff_of_true rfl (Unicode.exists_encode_of_ascii hall)
      · cases hout
    · exact htext
  · exact htext

/-- A result, exactly if the strings that it is made of are texts. -/
abbrev Encoded {β : Type} (strings : List (List UInt8)) (x : Reading β) : Prop :=
  Ensures (fun failure => failure = .encoding ∧ ¬∀ bs ∈ strings, IsText bs)
    (fun _ => ∀ bs ∈ strings, IsText bs) x

section

variable {β γ : Type} {strings strings' : List (List UInt8)} {x : Reading β}

theorem encoded_nil (b : β) : Encoded [] (.ok b) := List.forall_mem_nil _

theorem Encoded.bind {f : β → Reading γ} (hx : Encoded strings x)
    (hf : ∀ b, Encoded strings' (f b)) : Encoded (strings ++ strings') (x >>= f) := by
  cases x with
  | error failure =>
    exact ⟨hx.1, fun h => hx.2 fun bs hbs => h bs (List.mem_append_left _ hbs)⟩
  | ok b =>
    refine Ensures.conseq (hf b) (fun failure h => ⟨h.1, fun hall => h.2 fun bs hbs => ?_⟩)
      fun _ h => ?_
    · exact hall bs (List.mem_append_right _ hbs)
    · exact List.forall_mem_append.2 ⟨hx, h⟩

theorem Encoded.map (hx : Encoded strings x) (f : β → γ) :
    Encoded strings (x >>= fun b => pure (f b)) := by
  cases x with
  | error failure => exact hx
  | ok b => exact hx

end

/-! ## Results of loops -/

theorem mapM_ok {β γ : Type} {f : β → Res γ} {bs : List β} {cs : List γ} (h : bs.mapM f = .ok cs) :
    List.Forall₂ (fun b c => f b = .ok c) bs cs := by
  induction bs generalizing cs with
  | nil =>
    cases h
    exact .nil
  | cons b bs ih =>
    rw [List.mapM_cons] at h
    obtain ⟨c, hc, h⟩ := Res.bind_eq_ok.1 h
    obtain ⟨cs', hcs, h⟩ := Res.bind_eq_ok.1 h
    cases h
    exact .cons hc (ih hcs)

theorem forCells_mem {β : Type} {f : ProtoCache.Field → Res β} {width n : ℕ} {ptr : Ptr}
    {bs : List β} (h : forCells f width n ptr = .ok bs) {b : β} (hb : b ∈ bs) :
    ∃ c, f c = .ok b := by
  induction n generalizing ptr bs with
  | zero =>
    cases h
    cases hb
  | succ n ih =>
    rw [forCells] at h
    obtain ⟨b', hb', h⟩ := Res.bind_eq_ok.1 h
    obtain ⟨bs', hbs, h⟩ := Res.bind_eq_ok.1 h
    cases h
    rcases List.mem_cons.1 hb with rfl | hb
    · exact ⟨_, hb'⟩
    · exact ih hbs hb

/-! ## Values -/

theorem decodeScalar_words (kind : Kind) (ws : List UInt32) :
    Encoded (stringsOfScalar kind (.words ws)) (decodeScalar kind (.words ws)) :=
  encoded_nil _

theorem decodeScalar_bytes (kind : Kind) (bs : List UInt8) :
    Encoded (stringsOfScalar kind (.bytes bs)) (decodeScalar kind (.bytes bs)) := by
  rw [decodeScalar, stringsOfScalar]
  split
  · have htext := isSome_decodeString bs
    cases hdecode : decodeString bs 0 bs.length with
    | none =>
      rw [hdecode] at htext
      refine ⟨rfl, fun h => ?_⟩
      cases htext.2 (h bs List.mem_cons_self)
    | some cs =>
      rw [hdecode] at htext
      exact List.forall_mem_singleton.2 (htext.1 rfl)
  · exact encoded_nil _

/-- What is read of bytes is bytes. -/
theorem readBytes_ok {slice : Option ByteSlice} {raw : Raw} (h : readBytes slice = .ok raw) :
    ∃ bs, raw = .bytes bs := by
  cases slice with
  | none => cases h
  | some slice =>
    obtain ⟨bs, -, h⟩ := Res.bind_eq_ok.1 h
    cases h
    exact ⟨bs, rfl⟩

/-- What is read of a value without parts of its own. -/
theorem readValue_plain {rec : UInt32 → Ptr → Res Raw} {kind child : UInt32}
    (hcomplex : isComplex kind = false) {f : ProtoCache.Field} {raw : Raw}
    (h : readValue rec kind child f = .ok raw) :
    (∃ ws, raw = .words ws) ∨ ∃ bs, raw = .bytes bs := by
  rw [readValue, if_neg (by rw [hcomplex]; decide)] at h
  split at h
  · obtain ⟨slice, -, h⟩ := Res.bind_eq_ok.1 h
    exact .inr (readBytes_ok h)
  · rw [readWords] at h
    split at h
    · split at h
      · obtain ⟨ws, -, h⟩ := Res.bind_eq_ok.1 h
        cases h
        exact .inl ⟨ws, rfl⟩
      · cases h
    · cases h

theorem decodeScalar_ensures {rec : UInt32 → Ptr → Res Raw} {kind child : UInt32}
    (hcomplex : isComplex kind = false) {f : ProtoCache.Field} {raw : Raw}
    (h : readValue rec kind child f = .ok raw) (tkind : Kind) :
    Encoded (stringsOfScalar tkind raw) (decodeScalar tkind raw) := by
  rcases readValue_plain hcomplex h with ⟨ws, rfl⟩ | ⟨bs, rfl⟩
  · exact decodeScalar_words tkind ws
  · exact decodeScalar_bytes tkind bs

section

variable {rec : UInt32 → Ptr → Res Raw}
  (hrec : ∀ child ptr raw, rec child ptr = .ok raw → raw ≠ .absent ∧ ∀ i kind,
    R i child → kind.isComplexKind = true →
      Encoded (stringsOf types kind i raw) (decode types kind i raw))

include hrec

/-- A value of a kind. -/
theorem decode_value {tkind : Kind} {tchild : ℕ} {kind child : UInt32} (hkind : tkind.Is kind)
    (hchild : tkind.isComplexKind = true → R tchild child) {f : ProtoCache.Field} {raw : Raw}
    (h : readValue rec kind child f = .ok raw) :
    raw ≠ .absent ∧ Encoded (stringsOf types tkind tchild raw) (decode types tkind tchild raw) := by
  cases hcomplex : isComplex kind with
  | true =>
    rw [readValue, if_pos hcomplex] at h
    obtain ⟨ptr, -, h⟩ := Res.bind_eq_ok.1 h
    obtain ⟨hne, hall⟩ := hrec child ptr raw h
    exact ⟨hne, hall tchild tkind (hchild (hkind.complex.trans hcomplex))
      (hkind.complex.trans hcomplex)⟩
  | false =>
    rcases readValue_plain hcomplex h with ⟨ws, rfl⟩ | ⟨bs, rfl⟩
    · rw [decode, stringsOf]
      exact ⟨fun h => (by cases h), (decodeScalar_words tkind ws).map _⟩
    · rw [decode, stringsOf, hkind.complex, hcomplex, if_neg (by decide)]
      exact ⟨fun h => (by cases h), (decodeScalar_bytes tkind bs).map _⟩

/-- The elements of an array. -/
theorem decodeAll_ensures {tkind : Kind} {tchild : ℕ} {kind child : UInt32} (hkind : tkind.Is kind)
    (hchild : tkind.isComplexKind = true → R tchild child) {raws : List Raw}
    (h : ∀ raw ∈ raws, ∃ f, readValue rec kind child f = .ok raw) :
    Encoded (stringsOfAll types tkind tchild raws) (decodeAll types tkind tchild raws) := by
  induction raws with
  | nil =>
    rw [decodeAll, stringsOfAll]
    exact encoded_nil _
  | cons raw raws ih =>
    obtain ⟨f, hf⟩ := h raw List.mem_cons_self
    rw [decodeAll, stringsOfAll]
    refine (decode_value hrec hkind hchild hf).2.bind fun value => ?_
    exact (ih fun raw hraw => h raw (List.mem_cons_of_mem _ hraw)).map _

/-- The pairs of a map. -/
theorem decodePairs_ensures {tkey tkind : Kind} {tchild : ℕ} {key kind child : UInt32}
    (hkey : tkey.Is key) (hkind : tkind.Is kind) (hcomplex : tkey.isComplexKind = false)
    (hchild : tkind.isComplexKind = true → R tchild child) {pairs : List (Raw × Raw)}
    (h : ∀ pair ∈ pairs, (∃ f, readValue rec key kNoType f = .ok pair.1) ∧ ∃ f,
      readValue rec kind child f = .ok pair.2) :
    Encoded (stringsOfPairs types tkey tkind tchild (pairs.map Prod.fst) (pairs.map Prod.snd))
      (decodePairs types tkey tkind tchild (pairs.map Prod.fst) (pairs.map Prod.snd)) := by
  induction pairs with
  | nil =>
    rw [List.map_nil, List.map_nil, decodePairs, stringsOfPairs]
    · exact encoded_nil _
    all_goals
      intros
      contradiction
  | cons pair pairs ih =>
    obtain ⟨⟨f, hf⟩, f', hf'⟩ := h pair List.mem_cons_self
    rw [List.map_cons, List.map_cons, decodePairs, stringsOfPairs]
    refine (decodeScalar_ensures (hkey.complex.symm.trans hcomplex) hf tkey).bind fun s => ?_
    refine (decode_value hrec hkind hchild hf').2.bind fun value => ?_
    exact (ih fun pair hpair => h pair (List.mem_cons_of_mem _ hpair)).map _

/-- The fields of a message. -/
theorem decodeFields_ensures {view : List UInt32} {fields : List (TapeField α)}
    {planned : List FieldPlan}
    (hsame : List.Forall₂ (fun field planned => field.kind.Is planned.kind ∧
        (field.kind.isComplexKind = true → R field.child planned.child)) fields planned)
    {raws : List Raw}
    (h : List.Forall₂ (fun planned raw => readField rec view planned = .ok raw) planned raws)
    (presenceIndex : ℕ) (out : Building α) :
    Encoded (stringsOfFields types fields raws)
      (decodeFields types fields raws presenceIndex out) := by
  induction hsame generalizing raws presenceIndex out with
  | nil =>
    cases h
    rw [decodeFields, stringsOfFields]
    · exact encoded_nil _
    all_goals
      intros
      contradiction
  | @cons field planned fields rest hfield _ ih =>
    cases h with
    | @cons _ raw _ raws hraw hraws =>
      rw [readField] at hraw
      obtain ⟨f, -, hraw⟩ := Res.bind_eq_ok.1 hraw
      split at hraw
      · -- The field is not there.
        cases hraw
        rw [decodeFields, stringsOfFields, stringsOf, List.nil_append]
        exact ih hraws _ _
      · obtain ⟨hne, hvalue⟩ := decode_value hrec hfield.1 hfield.2 hraw
        rw [decodeFields_cons _ _ _ _ hne, stringsOfFields]
        exact hvalue.bind fun value => ih hraws _ _

/-- An object of a type. -/
theorem decode_object (hcorresponds : Corresponds types plans R) {handle : UInt32} {plan : TypePlan}
    (hplan : Wasm.planOf plans handle = some plan) {ptr : Ptr} {raw : Raw}
    (h : readObject rec plan ptr = .ok raw) :
    raw ≠ .absent ∧ ∀ i kind, R i handle → kind.isComplexKind = true →
      Encoded (stringsOf types kind i raw) (decode types kind i raw) := by
  rw [readObject] at h
  split at h
  · next hmessage =>
    obtain ⟨view, -, h⟩ := Res.bind_eq_ok.1 h
    cases view with
    | none => cases h
    | some view =>
      obtain ⟨raws, hraws, h⟩ := Res.bind_eq_ok.1 h
      cases h
      -- In each case the type of the reader is of the kind of the decoder's, and the values in
      -- the object are decoded by the children of both.
      refine ⟨fun h => (by cases h), fun i kind hi _ => ?_⟩
      obtain ⟨type, plan', htype, hplan', hsame⟩ := hcorresponds i handle hi
      rw [hplan] at hplan'
      cases hplan'
      rw [decode, stringsOf, htype]
      cases type with
      | message prototype fields presenceWordCount =>
        exact (decodeFields_ensures hrec hsame.2.2 (mapM_ok hraws) 0 _).map _
      | array valueKind child => exact absurd (hmessage.symm.trans hsame.1) (by decide)
      | map keyKind valueKind child => exact absurd (hmessage.symm.trans hsame.1) (by decide)
  · split at h
    · next harray =>
      split at h
      · obtain ⟨slice, -, h⟩ := Res.bind_eq_ok.1 h
        obtain ⟨bs, rfl⟩ := readBytes_ok h
        refine ⟨fun h => (by cases h), fun i kind _ hkind => ?_⟩
        have hstring : kind ≠ .string := by
          rintro rfl
          cases hkind
        rw [decode, if_pos hkind, stringsOf, stringsOfScalar, if_neg hstring]
        exact encoded_nil _
      · obtain ⟨a, -, h⟩ := Res.bind_eq_ok.1 h
        split at h
        · cases h
        · obtain ⟨raws, hraws, h⟩ := Res.bind_eq_ok.1 h
          cases h
          refine ⟨fun h => (by cases h), fun i kind hi _ => ?_⟩
          obtain ⟨type, plan', htype, hplan', hsame⟩ := hcorresponds i handle hi
          rw [hplan] at hplan'
          cases hplan'
          rw [decode, stringsOf, htype]
          cases type with
          | message prototype fields presenceWordCount =>
            exact absurd (harray.symm.trans hsame.1) (by decide)
          | array valueKind child =>
            refine (decodeAll_ensures hrec hsame.2.1 hsame.2.2 fun raw hraw => ?_).map _
            rw [ArrayView.forEach] at hraws
            split at hraws
            · cases hraws
              cases hraw
            · exact forCells_mem hraws hraw
          | map keyKind valueKind child => exact absurd (harray.symm.trans hsame.1) (by decide)
    · split at h
      · next hmap =>
        obtain ⟨m, -, h⟩ := Res.bind_eq_ok.1 h
        split at h
        · cases h
        · obtain ⟨pairs, hpairs, h⟩ := Res.bind_eq_ok.1 h
          cases h
          refine ⟨fun h => (by cases h), fun i kind hi _ => ?_⟩
          obtain ⟨type, plan', htype, hplan', hsame⟩ := hcorresponds i handle hi
          rw [hplan] at hplan'
          cases hplan'
          rw [decode, stringsOf, htype]
          cases type with
          | message prototype fields presenceWordCount =>
            exact absurd (hmap.symm.trans hsame.1) (by decide)
          | array valueKind child => exact absurd (hmap.symm.trans hsame.1) (by decide)
          | map keyKind valueKind child =>
            obtain ⟨-, hkey, hvalue, hcomplex, hchild⟩ := hsame
            refine (decodePairs_ensures hrec hkey hvalue hcomplex hchild fun pair hpair => ?_).map _
            obtain ⟨n, -, hloop⟩ := Res.bind_eq_ok.1 hpairs
            obtain ⟨c, hc⟩ := forCells_mem hloop hpair
            obtain ⟨key, hkeyRaw, hc⟩ := Res.bind_eq_ok.1 hc
            obtain ⟨value, hvalueRaw, hc⟩ := Res.bind_eq_ok.1 hc
            cases hc
            exact ⟨⟨_, hkeyRaw⟩, _, hvalueRaw⟩
      · cases h

end

/-- What was read of an object has a value, exactly if its strings are UTF-8. -/
theorem decode_ensures (hcorresponds : Corresponds types plans R) (k : ℕ) (handle : UInt32)
    (ptr : Ptr) (raw : Raw) (h : readType plans k handle ptr = .ok raw) :
    raw ≠ .absent ∧ ∀ i kind, R i handle → kind.isComplexKind = true →
      Encoded (stringsOf types kind i raw) (decode types kind i raw) := by
  induction k generalizing handle ptr raw with
  | zero => cases h
  | succ k ih =>
    rw [readType] at h
    split at h
    · cases h
    · next plan hplan => exact decode_object ih hcorresponds hplan h

end ProtoCache.Typescript

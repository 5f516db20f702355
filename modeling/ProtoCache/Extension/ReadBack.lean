import ProtoCache.Extension.Deserialize
import ProtoCache.Extension.Objects

/-!
# Reading back a message of Protobuf

* `deserialize_reads`: at the words of a message, whatever stands behind them,
  `deserialize` reads the canonical value of the message.
-/

namespace ProtoCache.Extension

open Row LittleEndian

/-! ## What is not read back -/

/-- The field of an alias message that is not read from what is written for it: it is not
    in a switch over the types, or it is deprecated and no array. -/
def FieldDescriptor.Barred (f : FieldDescriptor) : Prop :=
  match f.kind with
  | .repeated t => t.form = .other
  | _ => f.deprecated = true

/-- A value in which there is an alias message that is not read back, in a field that is
    kept. -/
inductive Barred (schema : Descriptors) : FieldType → Value → Prop
  | here {t : FieldType} {name : ℕ} {slots : List Slot} {f : FieldDescriptor} :
    t.form = .message name → aliasField (schema name) = some f → f.Barred →
      Barred schema t (.message slots)
  | inside {t t' : FieldType} {name : ℕ} {slots : List Slot} {s : Slot} {f : FieldDescriptor}
      {v : Value} :
    t.form = .message name → (s, f) ∈ slots.zip (schema name) → f.deprecated = false →
    (s.canon schema true f.kind).size ≠ 0 → s.Has f.kind t' v → Barred schema t' v →
    Barred schema t (.message slots)

theorem Barred.message {schema : Descriptors} {t : FieldType} {v : Value} (h : Barred schema t v) :
    ∃ name, t = .message name := by
  cases h with
  | here ht _ _ => exact ⟨_, form_eq_message ht⟩
  | inside ht _ _ _ _ _ => exact ⟨_, form_eq_message ht⟩

/-! ## Cells -/

theorem Cell.imp {b b' : Bool} {c : Option ℕ} {f : Field} {K K' : List UInt32 → Prop}
    (h : Cell b c f K) (hb : b' = true → b = true) (hK : ∀ ws, K ws → K' ws) : Cell b' c f K' := by
  obtain ⟨v, M, p, hf, hshow, hM, hfit, hw, hin, hp⟩ := h
  exact ⟨v, M, p, hf, hshow, fun h => hM (hb h), hfit, hw, hin, hK _ hp⟩

variable {schema : Descriptors} {hash : List UInt8 → UInt32 → V128}
  {lay : ℕ → Value → List UInt32 → Prop} {rec : Reader} {k : ℕ}

/-- An object near the end of the buffer, or at its end. -/
def Close (ws rest : List UInt32) : Prop := Near ws rest ∨ rest = []

/-- A reader of messages that reads their canonical values from up to `k` words. -/
def Reads (schema : Descriptors) (k : ℕ) (rec : Reader) (lay : ℕ → Value → List UInt32 → Prop) :
    Prop :=
  ∀ name v ws rest, lay name v ws → ws.length ≤ k → Close ws rest →
    ¬Barred schema (.message name) v →
    ∃ out, rec name (.at (ws ++ rest)) = .ok out ∧ out.Same (v.canon schema true (.message name))

/-- What is read at a cell of a number, a Boolean or a string. -/
theorem deserializeSingle_scalar {t : FieldType} {v : Value} {f : Field} {b : Bool}
    (h : Cell b t.form.shape f (Spelled lay t v)) (ht : t.form.isMessage = false) :
    deserializeSingle rec b t f = .ok v := by
  obtain ⟨ws, hs⟩ : ∃ ws, Spelled lay t v ws := by
    obtain ⟨-, -, p, -, -, -, -, -, -, hs⟩ := h
    exact ⟨_, hs⟩
  unfold deserializeSingle
  unfold Spelled at h hs
  cases hform : t.form with
  | message name => rw [hform] at ht; cases ht
  | str =>
    rw [hform] at h hs
    rcases v with x | x | x | s | slots <;> try exact absurd hs id
    obtain ⟨slice, hget, hbytes⟩ := Kind.shown (k := .str) (x := s) h
    dsimp only
    rw [hget, Res.ok_bind, hbytes]
    rfl
  | w64 =>
    rw [hform] at h hs
    rcases v with x | x | x | s | slots <;> try exact absurd hs id
    dsimp only
    rw [Kind.shown (k := .w64) (x := x) h]
    rfl
  | w32 =>
    rw [hform] at h hs
    rcases v with x | x | x | s | slots <;> try exact absurd hs id
    dsimp only
    rw [Kind.shown (k := .w32) (x := x) h]
    rfl
  | bool =>
    rw [hform] at h hs
    rcases v with x | x | x | s | slots <;> try exact absurd hs id
    dsimp only
    rw [Kind.shown (k := .bool) (x := x) h]
    rfl
  | other =>
    rw [hform] at hs
    exact absurd hs id

theorem same_self {t : FieldType} {v : Value} {ws : List UInt32} (h : Spelled lay t v ws)
    (ht : t.form.isMessage = false) : v.Same (v.canon schema true t) := by
  rw [(spelled_canon schema h ht).1]
  unfold Spelled at h
  split at h
  · next hform =>
    rw [hform] at ht
    cases ht
  · rfl
  · rfl
  · rfl
  · rfl
  · exact absurd h id

theorem deserializeSingle_eq (hlay : Objects schema lay) (hrec : Reads schema k rec lay)
    {t : FieldType} {v : Value} {f : Field}
    (h : Cell true t.form.shape f fun ws => Spelled lay t v ws ∧ ws.length ≤ k)
    (hb : ¬Barred schema t v) :
    ∃ out, deserializeSingle rec true t f = .ok out ∧ out.Same (v.canon schema true t) := by
  by_cases ht : t.form.isMessage = true
  · obtain ⟨view, M, p, hf, hshow, hM, hfit, hw, -, hs, hle⟩ := h
    rcases f with ⟨ptr, w⟩
    obtain rfl : ptr = .at view := hf
    obtain ⟨name, rfl⟩ : ∃ name, t = .message name := by
      cases t <;> first | exact ⟨_, rfl⟩ | cases ht
    obtain ⟨tail, hobj, hnear⟩ := getObject_eq w true hshow hfit hw (hlay.isObject _ _ _ hs)
    obtain ⟨out, hout, hsame⟩ := hrec _ _ _ tail hs hle (.inl (hnear (hM rfl))) hb
    refine ⟨out, ?_, hsame⟩
    unfold deserializeSingle
    dsimp only [FieldType.form]
    rw [hobj, Res.ok_bind, hout]
  · have ht := Bool.not_eq_true _ ▸ ht
    refine ⟨v, deserializeSingle_scalar (Cell.imp h id fun _ h => h.1) ht, ?_⟩
    obtain ⟨-, -, p, -, -, -, -, -, -, hs, -⟩ := h
    exact same_self hs ht

theorem deserializeKey_eq {t : FieldType} {key : Key} {f : Field}
    (h : Cell true t.keyForm.shape f key.Spelled) (hk : key.form = t.keyForm) :
    deserializeKey true t f = .ok key := by
  rw [← hk] at h
  unfold deserializeKey
  rw [← hk]
  cases key with
  | w32 x =>
    dsimp only [Key.form]
    rw [Kind.shown (k := .w32) (x := x) h]
    rfl
  | w64 x =>
    dsimp only [Key.form]
    rw [Kind.shown (k := .w64) (x := x) h]
    rfl
  | str s =>
    obtain ⟨slice, hget, hbytes⟩ := Kind.shown (k := .str) (x := s) h
    dsimp only [Key.form]
    rw [hget, Res.ok_bind, hbytes]
    rfl

/-! ## Arrays -/

/-- The cells of an array show its elements, and these have fewer words. -/
theorem array_cell {t : FieldType} {vs : List Value} {ws rest : List UInt32} {m : ℕ}
    {ps : List (Piece UInt32)} (harray : IsArray m ps ws)
    (hall : List.Forall₂
      (fun v (p : Piece UInt32) => Spelled lay t v p.words ∧ InColumn t.form.shape m p) vs ps)
    (hn : Close ws rest) {i : ℕ} (hi : i < vs.length) :
    Cell true t.form.shape ⟨.at ((arrayBody m ps rest).drop (m * i)), m⟩
      fun ws' => Spelled lay t vs[i] ws' ∧ ws'.length < ws.length := by
  have hi' : i < ps.length := hall.length_eq ▸ hi
  have hmem : ps[i] ∈ ps := List.getElem_mem hi'
  obtain ⟨hs, hin⟩ := hall.get hi hi'
  refine ⟨_, _, ps[i], rfl, harray.shows rest hi', fun _ ho => ?_, harray.fits _ hmem, harray.le,
    hin, hs, harray.words_lt hmem⟩
  rcases hn with hn | rfl
  · exact harray.near hn hmem ho
  · exact (Nat.le_add_left _ _).trans_lt harray.size

theorem deserializeArray_eq (hlay : Objects schema lay) (hrec : Reads schema k rec lay)
    {t : FieldType} {vs : List Value} {ws rest : List UInt32} (h : ArrayLayout lay t vs ws)
    (hvs : vs ≠ []) (hle : ws.length ≤ k + 1) (hn : Close ws rest)
    (hb : ∀ v ∈ vs, ¬Barred schema t v) :
    ∃ out, deserializeArray rec true t (.at (ws ++ rest)) = .ok out ∧
      List.Forall₂ (fun a v => a.Same (v.canon schema true t)) out vs := by
  rw [ArrayLayout] at h
  unfold deserializeArray
  split at h
  · next hform =>
    obtain ⟨bs, rfl, hlt, rfl⟩ := h
    -- Booleans are a string of bytes.
    have hlt : (bs.map boolByte).length < 2 ^ 30 := by rwa [List.length_map]
    obtain ⟨s, hread, -, hget⟩ := readString_eq hlt true rest
    refine ⟨bs.map Value.bool, ?_, ?_⟩
    · rw [hform]
      dsimp only
      rw [hread, Res.ok_bind, hget, Res.ok_bind, List.map_map]
      refine congrArg Except.ok (List.map_congr_left fun b _ => ?_)
      cases b <;> rfl
    · rw [List.forall₂_same]
      intro v hv
      obtain ⟨b, -, rfl⟩ := List.mem_map.1 hv
      rfl
  · next hbool =>
    obtain ⟨m, ps, harray, hall⟩ := h
    have hm : m ≠ 0 := Nat.one_le_iff_ne_zero.1 harray.pos
    have hcell := fun i hi => array_cell harray hall hn (i := i) hi
    -- Each element is read from its cell, so that the loop reads them all.
    have hloop : ∀ f : Field → Res Value, (∀ i (hi : i < vs.length), ∃ a, f
      ⟨.at ((arrayBody m ps rest).drop (m * i)), m⟩ = .ok a ∧ a.Same (vs[i].canon schema true t)) →
        ∃ out, forCells f m ps.length (.at (arrayBody m ps rest)) = .ok out ∧
          List.Forall₂ (fun a v => a.Same (v.canon schema true t)) out vs := fun f hf => by
      rw [← hall.length_eq]
      exact forCells_eq hf
    -- The cells of numbers have the width that the array of them checks.
    have hnumbers : ∀ n, t.form.shape = some n → m = n := fun n hn => by
      obtain ⟨v, hv⟩ := List.exists_mem_of_ne_nil vs hvs
      obtain ⟨p, -, -, hin⟩ := Pointwise.exists_right hall hv
      exact (hin n hn).1
    have hscalar : t.form.isMessage = false → ∀ i (hi : i < vs.length),
        ∃ a, deserializeSingle rec false t ⟨.at ((arrayBody m ps rest).drop (m * i)), m⟩ = .ok a ∧
          a.Same (vs[i].canon schema true t) := fun ht i hi => by
      refine ⟨vs[i], deserializeSingle_scalar
        (Cell.imp (hcell i hi) (fun h => by cases h) fun _ h => h.1) ht, ?_⟩
      obtain ⟨-, -, p, -, -, -, -, -, -, hs, -⟩ := hcell i hi
      exact same_self hs ht
    unfold deserializeSingle at hscalar
    cases hform : t.form with
    | message name =>
      dsimp only
      rw [openArray_eq harray, Res.ok_bind, ArrayView.forEach, if_neg hm]
      refine hloop _ fun i hi => ?_
      have hone :=
        deserializeSingle_eq hlay hrec (Cell.imp (hcell i hi) id fun ws h => ⟨h.1, by omega⟩)
        (hb _ (List.getElem_mem hi))
      unfold deserializeSingle at hone
      rwa [hform] at hone
    | str =>
      rw [hform] at hscalar
      dsimp only
      rw [openArray_eq harray, Res.ok_bind, ArrayView.forEach, if_neg hm]
      exact hloop _ (hscalar rfl)
    | w64 =>
      rw [hform] at hscalar hnumbers
      dsimp only
      rw [openArray_eq harray, Res.ok_bind, ArrayView.numbers, ← hnumbers 2 rfl,
        if_neg (not_not.2 rfl)]
      exact hloop _ (hscalar rfl)
    | w32 =>
      rw [hform] at hscalar hnumbers
      dsimp only
      rw [openArray_eq harray, Res.ok_bind, ArrayView.numbers, ← hnumbers 1 rfl,
        if_neg (not_not.2 rfl)]
      exact hloop _ (hscalar rfl)
    | bool => exact absurd hform hbool
    | other =>
      obtain ⟨v, hv⟩ := List.exists_mem_of_ne_nil vs hvs
      obtain ⟨p, -, hs, -⟩ := Pointwise.exists_right hall hv
      unfold Spelled at hs
      rw [hform] at hs
      exact absurd hs id

/-! ## Maps -/

/-- The words of the values of a map are fewer than those of the map. -/
theorem isMapOf_lt {κ β : Type} {keyBytes : κ → List UInt8} {c₁ c₂ : Option ℕ}
    {K : κ → List UInt32 → Prop} {V : β → List UInt32 → Prop} {pairs : List (κ × β)}
    {w : List UInt32} (h : IsMapOf hash keyBytes c₁ c₂ K V pairs w) :
    IsMapOf hash keyBytes c₁ c₂ K (fun v ws => V v ws ∧ ws.length < w.length) pairs w := by
  obtain ⟨index, pos, slots, qs, m₁, m₂, hperm, hkeyed, hpos, hmap, hall⟩ := h
  refine ⟨index, pos, slots, qs, m₁, m₂, hperm, hkeyed, hpos, hmap, ?_⟩
  refine (Pointwise.and_right hall fun q hq => ?_).imp fun slot q h =>
    ⟨h.1.1, ⟨h.1.2.1, h.2⟩, h.1.2.2⟩
  exact hmap.words_lt (List.mem_flatMap.2 ⟨q, hq, .tail _ List.mem_cons_self⟩)

theorem isMapOf_near {κ β : Type} {keyBytes : κ → List UInt8} {c₁ c₂ : Option ℕ}
    {K : κ → List UInt32 → Prop} {V : β → List UInt32 → Prop} {pairs : List (κ × β)}
    {w rest : List UInt32} (h : IsMapOf hash keyBytes c₁ c₂ K V pairs w) (hn : Close w rest) :
    Near w rest :=
  hn.elim id fun h0 => h.near (.inl h0)

theorem deserializeMap_eq (hlay : Objects schema lay) (hrec : Reads schema k rec lay)
    {key value : FieldType} {pairs : List (Key × Value)} {ws rest : List UInt32}
    (h : IsMapOf hash Key.bytes key.keyForm.shape value.form.shape Key.Spelled (Spelled lay value)
      pairs ws) (hkeys : ∀ p ∈ pairs, p.1.form = key.keyForm) (hle : ws.length ≤ k + 1)
    (hn : Close ws rest) (hb : ∀ p ∈ pairs, ¬Barred schema value p.2) :
    ∃ out, deserializeMap rec true key value (.at (ws ++ rest)) = .ok out ∧
      ∃ qs, (canonPairs schema true pairs value).Perm qs ∧
        List.Forall₂ (fun p q => p.1 = q.1 ∧ p.2.Same q.2) out qs := by
  obtain ⟨m, slots, pos, hopen, hperm, hholds⟩ :=
    (isMapOf_lt h).holds (b := true) fun _ => isMapOf_near h hn
  obtain ⟨out, hout, hall⟩ := hholds.forEach_eq
    (R := fun a slot => a.1 = slot.1 ∧ a.2.Same (slot.2.canon schema true value))
    (f := fun pair => do
      let k ← deserializeKey true key pair.1
      let v ← deserializeSingle rec true value pair.2
      return (k, v)) fun slot hslot fields h₁ h₂ => by
    have hmem := hperm.mem_iff.1 hslot
    obtain ⟨v, hv, hsame⟩ :=
      deserializeSingle_eq hlay hrec (Cell.imp h₂ id fun ws h => ⟨h.1, by omega⟩) (hb _ hmem)
    refine ⟨(slot.1, v), ?_, rfl, hsame⟩
    rw [deserializeKey_eq h₁ (hkeys _ hmem), Res.ok_bind, hv]
    rfl
  obtain ⟨body, hbody, -⟩ := hholds.cells
  refine ⟨out, ?_, slots.map fun p => (p.1, p.2.canon schema true value), ?_, ?_⟩
  · rw [deserializeMap, hopen, Res.ok_bind, if_neg (by rw [hbody]; exact fun h => by cases h), hout]
  · rw [canonPairs_eq]
    exact (hperm.symm.map _)
  · rw [List.forall₂_map_right_iff]
    exact hall

/-! ## Fields -/

/-- What a field for which there are no words is read as. -/
theorem SlotLayout.clear (hlay : Objects schema lay) {kind : FieldKind} {slot : Slot}
    (h : SlotLayout hash lay kind slot []) : slot.canon schema true kind = kind.clear := by
  have hsize := (h.empty hlay).1 rfl
  unfold SlotLayout at h
  rcases kind with t | t | ⟨k, t⟩
  · rcases slot with _ | v | vs | pairs <;> try exact absurd h id
    · rfl
    · rw [Slot.canon] at hsize ⊢
      split at hsize
      · next h0 => rw [if_pos h0]; rfl
      · rw [Slot.size] at hsize
        omega
  · rcases slot with _ | v | vs | pairs <;> try exact absurd h id
    rw [size_canon_repeated.1 hsize]
    rfl
  · rcases slot with _ | v | vs | pairs <;> try exact absurd h id
    rw [size_canon_map.1 hsize]
    rfl

theorem clear_same (kind : FieldKind) : kind.clear.Same kind.clear := by
  cases kind with
  | single t => trivial
  | repeated t => trivial
  | map k t => exact ⟨[], .nil, trivial⟩

theorem fits_clear {s : Slot} {kind : FieldKind} (h : s.fits kind = true) :
    s.clear = kind.clear := by
  rcases kind with t | t | ⟨k, t⟩
  all_goals rcases s with _ | v | vs | pairs <;> first | rfl | cases h

/-- A number that is in its own cell fills it. -/
theorem folded_inColumn {t : FieldType} {v : Value} {p : Piece UInt32} (h : Spelled lay t v p.words)
    (hp : Folded p) : InColumn t.form.shape (pieceWidth p) p := by
  intro n hn
  have hlen : p.words.length = n := by
    unfold Spelled at h
    split at h
    · next hform => rw [hform] at hn; cases hn
    · next hform => rw [hform] at hn; cases hn
    · next hform => rw [hform] at hn; cases hn; rw [h]; rfl
    · next hform => rw [hform] at hn; cases hn; rw [h]; rfl
    · next hform => rw [hform] at hn; cases hn; rw [h]; rfl
    · exact absurd h id
  have hn2 : n ≤ 2 := by
    cases hform : t.form <;> rw [hform] at hn <;> cases hn <;> decide
  cases p with
  | inl ws => exact ⟨hlen, ws, rfl, hlen⟩
  | out ws =>
    have h3 : 3 < ws.length := hp
    have : ws.length = n := hlen
    omega

theorem folded_ne {p : Piece UInt32} (h : Folded p) : p ≠ .out [] := by
  rintro rfl
  have h3 : 3 < ([] : List UInt32).length := h
  exact absurd h3 (Nat.not_lt_zero 3)

/-- The cell of a field for which there are words. -/
theorem message_cell {ps : List (Piece UInt32)} {w rest : List UInt32}
    (hmsg : IsMessage (trim ps) w) (hfold : ∀ p ∈ ps, Folded p) (hn : Close w rest) {id : ℕ}
    {p : Piece UInt32} (hp : ps[id]? = some p) (hne : p.words ≠ []) : p.words.length < w.length ∧
      ∃ v, getField true (w ++ rest) id = .ok ⟨.at v, pieceWidth p⟩ ∧ pieceWidth p ≤ 3 ∧
      p.Fits (pieceWidth p) ∧
        ∃ M, Shows 0 linkWord (2 ^ 30) M (pieceWidth p) v p ∧ (p.outer ≠ [] → M < 2 ^ 30) := by
  -- The fields dropped at the end are empty, and this one is not.
  have hempty : ∀ q ∈ ps, q ≠ .out [] := fun q hq => folded_ne (hfold q hq)
  have hpiece : fieldPiece (trim ps) id = p := by
    rw [fieldPiece_trim ps hempty, fieldPiece, hp]
    rfl
  have hwidth : pieceWidth p ≠ 0 := by
    cases p with
    | inl ws => exact fun h => hne (List.length_eq_zero_iff.1 h)
    | out ws => exact Nat.one_ne_zero
  have hmem : p ∈ trim ps := by
    rw [fieldPiece] at hpiece
    rcases hget : (trim ps)[id]? with _ | q
    · rw [hget] at hpiece
      subst hpiece
      exact absurd rfl hne
    · rw [hget] at hpiece
      subst hpiece
      exact List.mem_of_getElem? hget
  have hlt := hmsg.words_lt hmem
  have hat := getField_at hmsg true rest id
  have hfound := hmsg.found rest (show pieceWidth (fieldPiece (trim ps) id) ≠ 0 by rwa [hpiece])
  rw [hpiece] at hat hfound
  rw [if_neg hwidth] at hat
  refine ⟨hlt, _, hat, (hmsg.widths p hmem).1, ?_, _, hfound.2, fun ho => ?_⟩
  · cases p with
    | inl ws => exact le_rfl
    | out ws => exact le_rfl
  · -- What is out of line has more than three words, and so has the message.
    have hlen := length_messageWords (trim ps)
    rw [← hmsg.eq] at hlen
    cases p with
    | inl ws => exact absurd rfl ho
    | out ws =>
      have h3 : 3 < (Piece.out ws).words.length := hfold _ (List.mem_of_getElem? hp)
      have houters := outers_le_total (trim ps)
      have hsize := hmsg.size
      rcases hn with (hn | hn) | rfl
      · omega
      · omega
      · rw [List.length_nil]
        omega

/-- The object of a field for which there are words. -/
theorem cell_object {p : Piece UInt32} {v : List UInt32} {M : ℕ}
    (hshow : Shows 0 linkWord (2 ^ 30) M (pieceWidth p) v p) (hM : p.outer ≠ [] → M < 2 ^ 30)
    (hfit : p.Fits (pieceWidth p)) (h3 : pieceWidth p ≤ 3) (hobj : IsObject p.words) :
    ∃ tail, Field.getObject true ⟨.at v, pieceWidth p⟩ = .ok (.at (p.words ++ tail)) ∧
      Near p.words tail := by
  obtain ⟨tail, hobj, hnear⟩ := getObject_eq (pieceWidth p) true hshow hfit h3 hobj
  exact ⟨tail, hobj, hnear hM⟩

/-- The pieces of a message are folded. -/
theorem folded_of_entries {table : List (Option (FieldDescriptor × Slot))}
    {ps : List (Piece UInt32)}
    (h : List.Forall₂ (fun entry p => EntryLayout hash lay entry p.words ∧ Folded p) table ps) :
    ∀ p ∈ ps, Folded p := by
  intro p hp
  obtain ⟨-, -, -, hfold⟩ := Pointwise.exists_left h hp
  exact hfold

/-- The piece of a field that is not deprecated. -/
theorem piece_of_entry {fields : List FieldDescriptor} {slots : List Slot}
    {table : List (Option (FieldDescriptor × Slot))} {ps : List (Piece UInt32)}
    (htable : fillTable (fields.zip slots) (List.replicate (maxId fields) none) = .ok table)
    (h : List.Forall₂ (fun entry p => EntryLayout hash lay entry p.words ∧ Folded p) table ps)
    {f : FieldDescriptor} {slot : Slot} (hmem : (f, slot) ∈ fields.zip slots)
    (hdep : f.deprecated = false) :
    ∃ p, ps[f.number - 1]? = some p ∧ SlotLayout hash lay f.kind slot p.words := by
  obtain ⟨hi, hget⟩ := List.getElem?_eq_some_iff.1 (table_of_mem htable hmem hdep)
  have hi' : f.number - 1 < ps.length := h.length_eq ▸ hi
  have hlayout := (h.get hi hi').1
  rw [List.get_eq_getElem, List.get_eq_getElem, hget] at hlayout
  exact ⟨_, List.getElem?_eq_getElem hi', hlayout⟩

theorem mem_zip_comm {α β : Type} {a : α} {b : β} {as : List α} {bs : List β} :
    (a, b) ∈ as.zip bs ↔ (b, a) ∈ bs.zip as := by
  rw [← List.zip_swap bs as, List.mem_map]
  constructor
  · rintro ⟨⟨b', a'⟩, h, heq⟩
    cases heq
    exact h
  · exact fun h => ⟨(b, a), h, rfl⟩

theorem deserializeField_eq (hlay : Objects schema lay) (hrec : Reads schema k rec lay)
    {ps : List (Piece UInt32)} {w rest : List UInt32} (hmsg : IsMessage (trim ps) w)
    (hfold : ∀ p ∈ ps, Folded p) (hle : w.length ≤ k + 1) (hn : Close w rest) {f : FieldDescriptor}
    {slot : Slot} {p : Piece UInt32} (hp : ps[f.number - 1]? = some p)
    (h : SlotLayout hash lay f.kind slot p.words) (hdep : f.deprecated = false)
    (hb : (slot.canon schema true f.kind).size ≠ 0 → ∀ t v,
      slot.Has f.kind t v → ¬Barred schema t v) :
    ∃ out, deserializeField rec true (w ++ rest) f = .ok out ∧
      out.Same (slot.canon schema true f.kind) := by
  rw [deserializeField, if_neg (by simp [hdep])]
  by_cases hne : p.words = []
  · -- Nothing was written for the field, and it is read as nothing, which is its canonical value.
    have hempty : ∀ q ∈ ps, q ≠ .out [] := fun q hq => folded_ne (hfold q hq)
    have hwidth : pieceWidth (fieldPiece (trim ps) (f.number - 1)) = 0 := by
      rw [fieldPiece_trim ps hempty, fieldPiece, hp]
      cases p with
      | inl ws => exact List.length_eq_zero_iff.2 hne
      | out ws =>
        obtain rfl : ws = [] := hne
        exact absurd rfl (hempty _ (List.mem_of_getElem? hp))
    rw [getField_at hmsg, if_pos hwidth, Res.ok_bind,
      if_pos (show Field.null.ptr = Ptr.null from rfl)]
    rw [hne] at h
    rw [h.clear hlay]
    exact ⟨_, rfl, clear_same f.kind⟩
  · -- The field is read from its cell, and is less than the whole message.
    obtain ⟨hlt, v, hfield, h3, hfit, M, hshow, hM⟩ := message_cell hmsg hfold hn hp hne
    rw [hfield, Res.ok_bind, if_neg (show ¬Ptr.at v = Ptr.null from fun h => by cases h)]
    have hsize : (slot.canon schema true f.kind).size ≠ 0 := fun h0 => hne ((h.empty hlay).2 h0)
    have hb := hb hsize
    have hobject := fun hkind => cell_object hshow hM hfit h3 (h.isObject hkind hne)
    unfold SlotLayout at h
    rcases hk : f.kind with t | t | ⟨key, t⟩
    · rw [hk] at h hb hsize
      rcases slot with _ | val | vs | pairs <;> try exact absurd h id
      · exact absurd h hne
      · obtain ⟨ws', hs, hws⟩ := h
        rw [if_neg fun h => hne (by rw [hws, if_pos h])] at hws
        subst hws
        obtain ⟨out, hout, hsame⟩ :=
          deserializeSingle_eq hlay hrec (t := t) (v := val) (f := ⟨.at v, pieceWidth p⟩)
          ⟨v, M, p, rfl, hshow, fun _ => hM, hfit, h3,
            folded_inColumn hs (hfold _ (List.mem_of_getElem? hp)), hs, by omega⟩ (hb t val .one)
        refine ⟨.one out, by dsimp only; rw [hout]; rfl, ?_⟩
        rw [Slot.canon] at hsize ⊢
        split at hsize
        · exact absurd rfl hsize
        · next h0 =>
          rw [if_neg h0]
          exact hsame
    · rw [hk] at h hb
      obtain ⟨tail, hobj, hnear⟩ := hobject (by rw [hk]; exact fun _ h => by cases h)
      rcases slot with _ | val | vs | pairs <;> try exact absurd h id
      dsimp only at h
      split at h
      · exact absurd h hne
      · next hvs =>
        obtain ⟨out, hout, hsame⟩ := deserializeArray_eq hlay hrec h hvs (by omega) (.inl hnear)
          fun v hv => hb t v (.element hv)
        refine ⟨.repeated out, by dsimp only; rw [hobj, Res.ok_bind, hout]; rfl, ?_⟩
        rw [Slot.canon, canonValues_eq]
        exact sameValues_iff.2 (List.forall₂_map_right_iff.2 hsame)
    · rw [hk] at h hb
      obtain ⟨tail, hobj, hnear⟩ := hobject (by rw [hk]; exact fun _ h => by cases h)
      rcases slot with _ | val | vs | pairs <;> try exact absurd h id
      dsimp only at h
      split at h
      · exact absurd h hne
      · next hpairs =>
        obtain ⟨out, hout, qs, hperm, hsame⟩ :=
          deserializeMap_eq hlay hrec h.2 h.1 (by omega) (.inl hnear)
          fun p hp => hb t p.2 (.value hp)
        refine ⟨.map out, by dsimp only; rw [hobj, Res.ok_bind, hout]; rfl, ?_⟩
        rw [Slot.canon]
        exact ⟨qs, hperm, samePairs_iff.2 hsame⟩

/-- A field that is deprecated is read as clear. -/
theorem deserializeField_deprecated (view : List UInt32) {f : FieldDescriptor} {slot : Slot}
    (hfits : slot.fits f.kind = true) (hdep : f.deprecated = true) :
    ∃ out, deserializeField rec true view f = .ok out ∧ out.Same slot.clear := by
  rw [deserializeField, if_pos hdep, fits_clear hfits]
  exact ⟨_, rfl, clear_same f.kind⟩

theorem deserializeFields_eq {view : List UInt32} {fields : List FieldDescriptor}
    {slots : List Slot} (hlen : slots.length = fields.length)
    (h : ∀ f s, (f, s) ∈ fields.zip slots → ∃ out, deserializeField rec true view f = .ok out ∧
      out.Same (if f.deprecated then s.clear else s.canon schema true f.kind)) :
    ∃ out, deserializeFields rec true view fields = .ok out ∧
      sameSlots out (canonSlots schema true slots fields) := by
  induction slots generalizing fields with
  | nil =>
    obtain rfl := List.length_eq_zero_iff.1 hlen.symm
    exact ⟨[], rfl, trivial⟩
  | cons s slots ih =>
    rcases fields with _ | ⟨f, fields⟩
    · cases hlen
    · obtain ⟨out, hout, hsame⟩ := h f s List.mem_cons_self
      obtain ⟨outs, houts, hsames⟩ := ih (Nat.succ.inj hlen) fun f s hmem => h f s (.tail _ hmem)
      refine ⟨out :: outs, ?_, hsame, hsames⟩
      rw [deserializeFields, hout, Res.ok_bind, houts]
      rfl

/-! ## Messages -/

/-- The first word of an empty alias message, or of a message without fields, is read as an
    array without elements. -/
theorem deserializeArray_mark {t : FieldType} (ht : t.form ≠ .other) {w : UInt32}
    (hw : w = 0 ∨ w = 1) (rest : List UInt32) :
    deserializeArray rec true t (.at (w :: rest)) = .ok [] := by
  have hopen : ∃ body m, openArray true (.at (w :: rest)) = .ok ⟨body, 0, m⟩ := by
    rcases hw with rfl | rfl
    · exact ⟨Ptr.null, 0, by simp [openArray, Ptr.null, Ptr.load]⟩
    · exact ⟨.at rest, 1, by simp [openArray, Ptr.null, Ptr.load, Ptr.exceeds, Ptr.add]⟩
  have hread : ∃ s, readString true (.at (w :: rest)) = .ok s ∧ ByteSlice.get s = .ok [] := by
    rcases hw with rfl | rfl
    · obtain ⟨s, hs, -, hget⟩ :=
        readString_eq (show List.length ([] : List UInt8) < 2 ^ 30 by decide) true rest
      exact ⟨some s, by rwa [stringWords_nil] at hs, hget⟩
    · exact ⟨none, rfl, rfl⟩
  obtain ⟨body, m, hopen⟩ := hopen
  obtain ⟨s, hread, hget⟩ := hread
  have hcells : ∀ {α : Type} (f : Field → Res α) (n : ℕ) (ptr : Ptr), forCells f n 0 ptr = .ok [] :=
    fun _ _ _ => rfl
  unfold deserializeArray
  cases hform : t.form with
  | bool =>
    dsimp only
    rw [hread, Res.ok_bind, hget]
    rfl
  | other => exact absurd hform ht
  | _ =>
    dsimp only
    rw [hopen, Res.ok_bind]
    simp only [ArrayView.forEach, ArrayView.numbers, hcells, ite_self]

/-- The words of a map without pairs. -/
theorem isMapOf_nil (hash : List UInt8 → UInt32 → V128) (c₁ c₂ : Option ℕ)
    (K : Key → List UInt32 → Prop) (V : Value → List UInt32 → Prop) :
    IsMapOf hash Key.bytes c₁ c₂ K V [] [(5 : UInt32) <<< 28] := by
  have h : serializeMapFieldByKey hash (fun _ => 0) Key.bytes Key.put
    (fun _ (_ : Value) _ => .error .reject) [] [] =
      .ok ({ len := 1, d₀ := (5 : UInt32) <<< 28 }, []) := rfl
  have hwrote : Wrote none [] ({ len := 1, d₀ := (5 : UInt32) <<< 28 }, []) fun p =>
      IsMapOf hash Key.bytes c₁ c₂ K V [] p.words :=
    serializeMapFieldByKey_spec (fun p hp => absurd hp List.not_mem_nil)
      (fun p hp => absurd hp List.not_mem_nil) h
  obtain ⟨p, -, hon, -, -, -, hmap⟩ := hwrote
  cases p with
  | inl ws =>
    obtain rfl : [(5 : UInt32) <<< 28] = ws := hon.1.2.1
    exact hmap (by decide)
  | out ws => exact absurd hon.1.1 Nat.one_ne_zero

theorem canonSlots_one {cut : Bool} {s : Slot} {f : FieldDescriptor} (hdep : f.deprecated = false) :
    canonSlots schema cut [s] [f] = [s.canon schema cut f.kind] := by
  rw [canonSlots, hdep, if_neg Bool.false_ne_true]
  rfl

/-- An alias message is read as the array or the map that it is. -/
theorem deserializeAlias_eq (hlay : Objects schema lay) (hrec : Reads schema k rec lay)
    {f : FieldDescriptor} {slot : Slot} {ws rest : List UInt32} (hf : aliasField [f] = some f)
    (hdep : f.deprecated = false) (hbar : ¬f.Barred) (h : AliasLayout hash lay f.kind slot ws)
    (hle : ws.length ≤ k + 1) (hn : Close ws rest)
    (hb : (slot.canon schema true f.kind).size ≠ 0 → ∀ t v,
      slot.Has f.kind t v → ¬Barred schema t v) :
    ∃ out, deserializeMessage rec true [f] (.at (ws ++ rest)) = .ok out ∧ out.Same (.message
      (if lost [f] [slot] then [.repeated []] else canonSlots schema true [slot] [f])) := by
  obtain ⟨hkind, ws', hslot, rfl⟩ := h
  -- Instead of one word or none, the mark of an empty array or map was written.
  have hiff := hslot.length_le hkind hf hdep
  have hclear := fun h0 : ws' = [] => SlotLayout.clear hlay (h0 ▸ hslot)
  rw [canonSlots_one hdep]
  unfold deserializeMessage
  rw [hf]
  dsimp only
  unfold SlotLayout at hslot
  rcases hk : f.kind with t | t | ⟨key, t⟩
  · exact absurd hk (hkind t)
  · rw [hk] at hslot hb hclear hle hn
    have ht : t.form ≠ .other := fun h0 => hbar (by rw [FieldDescriptor.Barred, hk]; exact h0)
    rcases slot with _ | val | vs | pairs <;> try exact absurd hslot id
    by_cases h1 : ws'.length ≤ 1
    · rw [if_pos h1, show aliasMark (.repeated t) = 1 from rfl]
      -- The mark is read as no elements: these are the elements, or they are Booleans that are
      -- lost.
      refine ⟨.message [.repeated []], ?_, ?_⟩
      · dsimp only
        rw [List.singleton_append, deserializeArray_mark ht (.inr rfl)]
        rfl
      · split
        · exact ⟨trivial, trivial⟩
        · next hlost =>
          rw [hclear ((hiff.1 h1).resolve_right hlost)]
          exact ⟨clear_same (.repeated t), trivial⟩
    · rw [if_neg h1] at hle hn ⊢
      rw [if_neg fun hlost => h1 (hiff.2 (.inr hlost))]
      dsimp only at hslot
      split at hslot
      · exact absurd (hiff.2 (.inl hslot)) h1
      · next hvs =>
        obtain ⟨out, hout, hsame⟩ := deserializeArray_eq hlay hrec hslot hvs hle hn fun v hv =>
          hb (fun h0 => hvs (size_canon_repeated.1 h0)) t v (.element hv)
        refine ⟨.message [.repeated out], ?_, ?_⟩
        · dsimp only
          rw [hout]
          rfl
        · rw [Slot.canon, canonValues_eq]
          exact ⟨sameValues_iff.2 (List.forall₂_map_right_iff.2 hsame), trivial⟩
  · rw [hk] at hslot hb hclear hle hn
    -- A map is not lost.
    have hlost : ¬lost [f] [slot] = true := by
      intro h
      obtain ⟨f', vs, hf', -, hk', -⟩ := lost_eq_true h
      cases hf.symm.trans hf'
      rw [hk] at hk'
      cases hk'
    rw [if_neg hlost]
    rcases slot with _ | val | vs | pairs <;> try exact absurd hslot id
    dsimp only at hslot
    by_cases h1 : ws'.length ≤ 1
    · rw [if_pos h1, show aliasMark (.map key t) = (5 : UInt32) <<< 28 from rfl] at hle hn ⊢
      have hkeys : ∀ p ∈ ([] : List (Key × Value)), p.1.form = key.keyForm :=
        fun p hp => absurd hp List.not_mem_nil
      obtain ⟨out, hout, qs, hperm, hsame⟩ := deserializeMap_eq hlay hrec
        (isMapOf_nil hash key.keyForm.shape t.form.shape Key.Spelled (Spelled lay t)) hkeys hle hn
        fun p hp => absurd hp List.not_mem_nil
      refine ⟨.message [.map out], ?_, ?_⟩
      · dsimp only
        rw [hout]
        rfl
      · rw [hclear ((hiff.1 h1).resolve_right hlost)]
        exact ⟨⟨qs, hperm, samePairs_iff.2 hsame⟩, trivial⟩
    · rw [if_neg h1] at hle hn ⊢
      split at hslot
      · exact absurd (hiff.2 (.inl hslot)) h1
      · next hpairs =>
        obtain ⟨out, hout, qs, hperm, hsame⟩ := deserializeMap_eq hlay hrec hslot.2 hslot.1 hle hn
          fun p hp => hb (fun h0 => hpairs (size_canon_map.1 h0)) t p.2 (.value hp)
        refine ⟨.message [.map out], ?_, ?_⟩
        · dsimp only
          rw [hout]
          rfl
        · rw [Slot.canon]
          exact ⟨⟨qs, hperm, samePairs_iff.2 hsame⟩, trivial⟩

/-- A message without fields is a single word. -/
theorem TableLayout.eq_zero {table : List (Option (FieldDescriptor × Slot))} {ws : List UInt32}
    (h : TableLayout hash lay table ws) (ht : table = [none]) : ws = [0] := by
  obtain ⟨ps, hmsg, hall⟩ := h
  have hnil : ∀ p ∈ ps, p.words = [] := fun p hp => by
    obtain ⟨entry, hentry, hlayout, -⟩ := Pointwise.exists_left hall hp
    rw [ht, List.mem_singleton] at hentry
    subst hentry
    exact hlayout
  have hrow : trim ps = [] := by
    rw [trim, List.rdropWhile_eq_nil_iff]
    exact fun p hp => by simp [hnil p hp]
  rw [hmsg.eq, hrow]
  rfl

/-- A message is read as its fields; if its only field is that of an alias message, but
    deprecated, as an array without elements. -/
theorem deserializeTable_eq (hlay : Objects schema lay) (hrec : Reads schema k rec lay)
    {fields : List FieldDescriptor} {slots : List Slot}
    {table : List (Option (FieldDescriptor × Slot))} {ws rest : List UInt32}
    (hfits : fits slots fields = true)
    (htable : fillTable (fields.zip slots) (List.replicate (maxId fields) none) = .ok table)
    (hname : ∀ f slot, table = [some (f, slot)] → f.name ≠ "_")
    (hbar : ∀ f, aliasField fields = some f → ¬f.Barred) (h : TableLayout hash lay table ws)
    (hle : ws.length ≤ k + 1) (hn : Close ws rest)
    (hb : ∀ f s, (f, s) ∈ fields.zip slots → f.deprecated = false →
      (s.canon schema true f.kind).size ≠ 0 → ∀ t v, s.Has f.kind t v → ¬Barred schema t v) :
    ∃ out, deserializeMessage rec true fields (.at (ws ++ rest)) = .ok out ∧
      out.Same (.message (canonSlots schema true slots fields)) := by
  obtain ⟨ps, hmsg, hall⟩ := h
  unfold deserializeMessage
  cases hf : aliasField fields with
  | some f =>
    -- The only field is that of an alias message, but was written into a table: it is deprecated,
    -- and there are no words of it.
    obtain ⟨s, rfl, ht⟩ := table_of_alias htable hfits hf
    have hdep : f.deprecated = true := by
      by_contra hdep
      rw [if_neg hdep] at ht
      exact hname f s ht (aliasField_eq hf).2.1
    rw [if_pos hdep] at ht
    obtain ⟨t, hk⟩ : ∃ t, f.kind = .repeated t := by
      have hbar := hbar f hf
      rw [FieldDescriptor.Barred] at hbar
      cases hk : f.kind with
      | repeated t => exact ⟨t, rfl⟩
      | _ => rw [hk] at hbar; exact absurd hdep hbar
    have ht' : t.form ≠ .other := fun h0 => hbar f hf (by rw [FieldDescriptor.Barred, hk]; exact h0)
    have hws : ws = [0] := TableLayout.eq_zero ⟨ps, hmsg, hall⟩ ht
    obtain ⟨rfl, -, -⟩ := aliasField_eq hf
    refine ⟨.message [.repeated []], ?_, ?_⟩
    · dsimp only
      rw [hk, hws, List.singleton_append]
      dsimp only
      rw [deserializeArray_mark ht' (.inl rfl)]
      rfl
    · have hfit : s.fits f.kind = true := by
        cases fits_iff.1 hfits with
        | cons h _ => exact h
      rw [canonSlots, if_pos hdep, fits_clear hfit, hk]
      exact ⟨clear_same (.repeated t), trivial⟩
  | none =>
    obtain ⟨out, hout, hsame⟩ : ∃ out, deserializeFields rec true (ws ++ rest) fields = .ok out ∧
        sameSlots out (canonSlots schema true slots fields) :=
      deserializeFields_eq (fits_iff.1 hfits).length_eq fun f s hmem => by
        -- A deprecated field was not written and is not read; any other one is read from its
        -- entry.
        by_cases hdep : f.deprecated = true
        · rw [if_pos hdep]
          refine deserializeField_deprecated _ ?_ hdep
          have hzip := List.forall₂_iff_zip.1 (fits_iff.1 hfits)
          exact hzip.2 (mem_zip_comm.1 hmem)
        · have hdep := Bool.not_eq_true _ ▸ hdep
          rw [if_neg (by simp [hdep])]
          obtain ⟨p, hp, hlayout⟩ := piece_of_entry htable hall hmem hdep
          exact deserializeField_eq hlay hrec hmsg (folded_of_entries hall) hle hn hp hlayout hdep
            (hb f s hmem hdep)
    refine ⟨.message out, ?_, hsame⟩
    dsimp only
    rw [openMessage_eq hmsg, Res.ok_bind]
    dsimp only
    rw [hout]
    rfl

theorem deserializeMessage_eq (hlay : Objects schema lay) (hrec : Reads schema k rec lay) {name : ℕ}
    {slots : List Slot} {ws rest : List UInt32} (hd : Distinct (schema name))
    (h : MessageLayout hash lay (schema name) slots ws) (hle : ws.length ≤ k + 1)
    (hn : Close ws rest) (hb : ¬Barred schema (.message name) (.message slots)) :
    ∃ out, deserializeMessage rec true (schema name) (.at (ws ++ rest)) = .ok out ∧
      out.Same ((Value.message slots).canon schema true (.message name)) := by
  obtain ⟨hfits, table, htable, hnumber, hlayout⟩ := h
  have hbar : ∀ f, aliasField (schema name) = some f → ¬f.Barred :=
    fun f hf hbar => hb (.here rfl hf hbar)
  have hin : ∀ f s, (f, s) ∈ (schema name).zip slots → f.deprecated = false →
      (s.canon schema true f.kind).size ≠ 0 → ∀ t v, s.Has f.kind t v → ¬Barred schema t v :=
    fun f s hmem hdep hsize t v hv hbar => by
    exact hb (.inside rfl (mem_zip_comm.1 hmem) hdep hsize hv hbar)
  rw [Value.canon]
  dsimp only [FieldType.form]
  rw [Bool.true_and]
  rcases hlayout with ⟨f, slot, ht, hname, hlayout⟩ | ⟨hname, hlayout⟩
  · obtain ⟨hfields, rfl, hone, hdep⟩ := alias_of_table htable hfits hnumber hd ht
    have hf : aliasField [f] = some f := if_pos ⟨hname, hone⟩
    rw [hfields] at hbar hin ⊢
    exact deserializeAlias_eq hlay hrec hf hdep (hbar f hf) hlayout hle hn
      (hin f slot List.mem_cons_self hdep)
  · rw [lost_of_table hfits htable hname, if_neg Bool.false_ne_true]
    exact deserializeTable_eq hlay hrec hfits htable hname hbar hlayout hle hn hin

/-- At the words of a message, `deserialize` reads its canonical value. -/
theorem deserialize_reads (hd : ∀ name, Distinct (schema name)) (n k : ℕ) :
    Reads schema k (deserialize schema true k) (Layout hash schema n) := by
  induction n generalizing k with
  | zero => exact fun _ _ _ _ h => absurd h id
  | succ n ih =>
    rintro name v ws rest ⟨slots, rfl, h⟩ hle hn hb
    cases k with
    | zero =>
      obtain ⟨w, tail, rfl, -⟩ := h.isObject
      exact absurd hle (Nat.not_succ_le_zero _)
    | succ k => exact deserializeMessage_eq (layout_objects hash hd n) (ih k) (hd name) h hle hn hb

/-! ## What is refused -/

theorem forCells_ok {α : Type} {f : Field → Res α} {W n : ℕ} {v : List UInt32} {as : List α}
    (h : forCells f W n (.at v) = .ok as) {i : ℕ} (hi : i < n) :
    ∃ a, f ⟨.at (v.drop (W * i)), W⟩ = .ok a := by
  induction n generalizing v as i with
  | zero => exact absurd hi (Nat.not_lt_zero i)
  | succ n ih =>
    rw [forCells] at h
    obtain ⟨a, ha, h⟩ := Res.bind_eq_ok.1 h
    obtain ⟨as', has, -⟩ := Res.bind_eq_ok.1 h
    cases i with
    | zero => exact ⟨a, by rwa [Nat.mul_zero, List.drop_zero]⟩
    | succ i =>
      obtain ⟨a', ha'⟩ := ih has (Nat.lt_of_succ_lt_succ hi)
      rw [List.drop_drop, Nat.add_comm, ← Nat.mul_succ] at ha'
      exact ⟨a', ha'⟩

/-- A reader that has no result for a message in which there is an alias that is not read
    back. -/
def Refuses (schema : Descriptors) (rec : Reader) (lay : ℕ → Value → List UInt32 → Prop) : Prop :=
  ∀ name v ws rest, lay name v ws → Close ws rest → Barred schema (.message name) v →
    ∀ out, rec name (.at (ws ++ rest)) ≠ .ok out

theorem deserializeSingle_refused (hlay : Objects schema lay) (hrec : Refuses schema rec lay)
    {t : FieldType} {v : Value} {f : Field} (h : Cell true t.form.shape f (Spelled lay t v))
    (hb : Barred schema t v) (out : Value) : deserializeSingle rec true t f ≠ .ok out := by
  obtain ⟨name, rfl⟩ := hb.message
  obtain ⟨view, M, p, hf, hshow, hM, hfit, hw, -, hs⟩ := h
  rcases f with ⟨ptr, w⟩
  obtain rfl : ptr = .at view := hf
  obtain ⟨tail, hobj, hnear⟩ := getObject_eq w true hshow hfit hw (hlay.isObject _ _ _ hs)
  unfold deserializeSingle
  dsimp only [FieldType.form]
  rw [hobj, Res.ok_bind]
  exact hrec _ _ _ tail hs (.inl (hnear (hM rfl))) hb out

theorem deserializeArray_refused (hlay : Objects schema lay) (hrec : Refuses schema rec lay)
    {t : FieldType} {vs : List Value} {ws rest : List UInt32} (h : ArrayLayout lay t vs ws)
    (hn : Close ws rest) {v : Value} (hv : v ∈ vs) (hb : Barred schema t v) (out : List Value) :
    deserializeArray rec true t (.at (ws ++ rest)) ≠ .ok out := by
  obtain ⟨name, rfl⟩ := hb.message
  obtain ⟨m, ps, harray, hall⟩ : ∃ m ps, IsArray m ps ws ∧ List.Forall₂ (fun v (p : Piece UInt32) =>
    Spelled lay (.message name) v p.words ∧ InColumn (FieldType.message name).form.shape m p)
      vs ps := h
  obtain ⟨i, hi, rfl⟩ := List.getElem_of_mem hv
  unfold deserializeArray
  dsimp only [FieldType.form]
  rw [openArray_eq harray, Res.ok_bind, ArrayView.forEach,
    if_neg (Nat.one_le_iff_ne_zero.1 harray.pos)]
  intro h
  obtain ⟨a, ha⟩ := forCells_ok h (hall.length_eq ▸ hi)
  exact deserializeSingle_refused hlay hrec
    (Cell.imp (array_cell harray hall hn hi) id fun _ h => h.1) hb a ha

theorem deserializeMap_refused (hlay : Objects schema lay) (hrec : Refuses schema rec lay)
    {key value : FieldType} {pairs : List (Key × Value)} {ws rest : List UInt32}
    (h : IsMapOf hash Key.bytes key.keyForm.shape value.form.shape Key.Spelled (Spelled lay value)
      pairs ws) (hn : Close ws rest) {p : Key × Value} (hp : p ∈ pairs)
    (hb : Barred schema value p.2) (out : List (Key × Value)) :
    deserializeMap rec true key value (.at (ws ++ rest)) ≠ .ok out := by
  obtain ⟨m, slots, pos, hopen, hperm, hholds⟩ := h.holds (b := true) fun _ => isMapOf_near h hn
  obtain ⟨body, hbody, hcells⟩ := hholds.cells
  obtain ⟨i, hi, hslot⟩ := List.getElem_of_mem (hperm.mem_iff.2 hp)
  rw [deserializeMap, hopen, Res.ok_bind, if_neg (by rw [hbody]; exact fun h => by cases h),
    MapView.forEach, hholds.size, Res.ok_bind, hbody]
  intro h
  obtain ⟨a, ha⟩ := forCells_ok h hi
  obtain ⟨k, -, ha⟩ := Res.bind_eq_ok.1 ha
  obtain ⟨v, hv, -⟩ := Res.bind_eq_ok.1 ha
  have hcell := (hcells i hi).2
  rw [hslot] at hcell
  exact deserializeSingle_refused hlay hrec hcell hb v hv

theorem deserializeField_refused (hlay : Objects schema lay) (hrec : Refuses schema rec lay)
    {ps : List (Piece UInt32)} {w rest : List UInt32} (hmsg : IsMessage (trim ps) w)
    (hfold : ∀ p ∈ ps, Folded p) (hn : Close w rest) {f : FieldDescriptor} {slot : Slot}
    {p : Piece UInt32} (hp : ps[f.number - 1]? = some p)
    (h : SlotLayout hash lay f.kind slot p.words) (hdep : f.deprecated = false) {t : FieldType}
    {v : Value} (hv : slot.Has f.kind t v) (hb : Barred schema t v)
    (hsize : (slot.canon schema true f.kind).size ≠ 0) (out : Slot) :
    deserializeField rec true (w ++ rest) f ≠ .ok out := by
  -- There are words for the field, as its canonical value is not empty.
  have hne : p.words ≠ [] := fun h0 => hsize ((h.empty hlay).1 h0)
  obtain ⟨hlt, view, hfield, h3, hfit, M, hshow, hM⟩ := message_cell hmsg hfold hn hp hne
  rw [deserializeField, if_neg (by simp [hdep]), hfield, Res.ok_bind,
    if_neg (show ¬Ptr.at view = Ptr.null from fun h => by cases h)]
  have hobject := fun hkind => cell_object hshow hM hfit h3 (h.isObject hkind hne)
  intro hok
  unfold SlotLayout at h
  rcases hk : f.kind with t | t | ⟨key, t⟩
  · rw [hk] at h hv hok
    cases hv
    obtain ⟨ws', hs, hws⟩ := h
    -- The barred value is what the field, an element or a pair of it holds.
    rw [if_neg fun h => hne (by rw [hws, if_pos h])] at hws
    subst hws
    obtain ⟨a, ha, -⟩ := Res.bind_eq_ok.1 hok
    exact deserializeSingle_refused hlay hrec (f := ⟨.at view, pieceWidth p⟩)
      ⟨view, M, p, rfl, hshow, fun _ => hM, hfit, h3,
        folded_inColumn hs (hfold _ (List.mem_of_getElem? hp)), hs⟩
      hb a ha
  · rw [hk] at h hv hok
    obtain ⟨tail, hobj, hnear⟩ := hobject (by rw [hk]; exact fun _ h => by cases h)
    cases hv with
    | element hmem =>
      obtain ⟨ptr, hptr, hok⟩ := Res.bind_eq_ok.1 hok
      obtain rfl := Except.ok.inj (hobj.symm.trans hptr)
      obtain ⟨a, ha, -⟩ := Res.bind_eq_ok.1 hok
      dsimp only at h
      rw [if_neg (List.ne_nil_of_mem hmem)] at h
      exact deserializeArray_refused hlay hrec h (.inl hnear) hmem hb a ha
  · rw [hk] at h hv hok
    obtain ⟨tail, hobj, hnear⟩ := hobject (by rw [hk]; exact fun _ h => by cases h)
    cases hv with
    | value hmem =>
      obtain ⟨ptr, hptr, hok⟩ := Res.bind_eq_ok.1 hok
      obtain rfl := Except.ok.inj (hobj.symm.trans hptr)
      obtain ⟨a, ha, -⟩ := Res.bind_eq_ok.1 hok
      dsimp only at h
      rw [if_neg (List.ne_nil_of_mem hmem)] at h
      exact deserializeMap_refused hlay hrec h.2 (.inl hnear) hmem hb a ha

theorem deserializeFields_ok {b : Bool} {view : List UInt32} {fields : List FieldDescriptor}
    {outs : List Slot} (h : deserializeFields rec b view fields = .ok outs) {f : FieldDescriptor}
    (hf : f ∈ fields) :
    ∃ out, deserializeField rec b view f = .ok out := by
  induction fields generalizing outs with
  | nil => exact absurd hf List.not_mem_nil
  | cons f' fields ih =>
    obtain ⟨out, hout, h⟩ := Res.bind_eq_ok.1 h
    obtain ⟨outs', houts, -⟩ := Res.bind_eq_ok.1 h
    rcases List.mem_cons.1 hf with rfl | hf
    · exact ⟨out, hout⟩
    · exact ih houts hf

/-- The single word of a message without fields is no map. -/
theorem deserializeMap_zero (key value : FieldType) (rest : List UInt32)
    (out : List (Key × Value)) :
    deserializeMap rec true key value (.at (0 :: rest)) ≠ .ok out := by
  have hopen : openMap true (.at (0 :: rest)) = .ok {} := by
    rw [openMap, Ptr.load, List.head?_cons, access_some, Res.ok_bind]
    rfl
  rw [deserializeMap, hopen, Res.ok_bind, if_pos rfl]
  exact fun h => by cases h

theorem deserializeMessage_barred {fields : List FieldDescriptor} {slots : List Slot}
    {ws rest : List UInt32} (h : MessageLayout hash lay fields slots ws) {f : FieldDescriptor}
    (hf : aliasField fields = some f) (hbar : f.Barred) (out : Value) :
    deserializeMessage rec true fields (.at (ws ++ rest)) ≠ .ok out := by
  obtain ⟨hfits, table, htable, -, hlayout⟩ := h
  unfold deserializeMessage
  rw [hf]
  dsimp only
  rw [FieldDescriptor.Barred] at hbar
  rcases hk : f.kind with t | t | ⟨key, t⟩
  · exact fun h => by cases h
  · rw [hk] at hbar
    dsimp only at hbar ⊢
    unfold deserializeArray
    rw [hbar]
    exact fun h => by cases h
  · rw [hk] at hbar
    dsimp only at hbar ⊢
    obtain ⟨s, rfl, ht⟩ := table_of_alias htable hfits hf
    rw [if_pos hbar] at ht
    have hws : ws = [0] := by
      rcases hlayout with ⟨f', slot, ht', -⟩ | ⟨-, hlayout⟩
      · rw [ht] at ht'
        cases ht'
      · exact hlayout.eq_zero ht
    intro h
    obtain ⟨out, hout, -⟩ := Res.bind_eq_ok.1 h
    rw [hws] at hout
    exact deserializeMap_zero key t rest out hout

theorem deserializeMessage_refused (hlay : Objects schema lay) (hrec : Refuses schema rec lay)
    {name : ℕ} {slots : List Slot} {ws rest : List UInt32} (hd : Distinct (schema name))
    (h : MessageLayout hash lay (schema name) slots ws) (hn : Close ws rest)
    (hb : Barred schema (.message name) (.message slots)) (out : Value) :
    deserializeMessage rec true (schema name) (.at (ws ++ rest)) ≠ .ok out := by
  cases hb with
  | @here _ name' _ f ht hf hbar =>
    cases ht
    exact deserializeMessage_barred h hf hbar out
  | @inside _ t name' _ s f v ht hmem hdep hsize hv hb =>
    cases ht
    obtain ⟨hfits, table, htable, hnumber, hlayout⟩ := h
    have hmem' : (f, s) ∈ (schema name).zip slots := mem_zip_comm.1 hmem
    unfold deserializeMessage
    -- An alias message is read as its array or map, any other one as its fields; one of these has
    -- the value that is refused.
    rcases hlayout with ⟨f', slot, ht, hname, hkind, ws', hslot, rfl⟩ | ⟨hname, ps, hmsg, hall⟩
    · obtain ⟨hfields, rfl, hone, hdep'⟩ := alias_of_table htable hfits hnumber hd ht
      rw [hfields] at hmem ⊢
      cases List.mem_singleton.1 hmem
      have hf : aliasField [f] = some f := if_pos ⟨hname, hone⟩
      have hlong : ¬ws'.length ≤ 1 := by
        rw [hslot.length_le hkind hf hdep, not_or]
        refine ⟨fun h0 => hsize ((hslot.empty hlay).1 h0), fun hlost => ?_⟩
        -- There are no messages in an alias message of Booleans.
        obtain ⟨f', vs, hf', -, hk, -⟩ := lost_eq_true hlost
        cases hf.symm.trans hf'
        obtain ⟨name', rfl⟩ := hb.message
        rw [hk] at hv
        cases hv
      rw [if_neg hlong] at hn ⊢
      rw [hf]
      dsimp only
      unfold SlotLayout at hslot
      rcases hk : f.kind with t | t | ⟨key, t⟩
      · exact absurd hk (hkind t)
      · rw [hk] at hslot hv
        cases hv with
        | element hin =>
          dsimp only at hslot
          rw [if_neg (List.ne_nil_of_mem hin)] at hslot
          intro h
          obtain ⟨a, ha, -⟩ := Res.bind_eq_ok.1 h
          exact deserializeArray_refused hlay hrec hslot hn hin hb a ha
      · rw [hk] at hslot hv
        cases hv with
        | value hin =>
          dsimp only at hslot
          rw [if_neg (List.ne_nil_of_mem hin)] at hslot
          intro h
          obtain ⟨a, ha, -⟩ := Res.bind_eq_ok.1 h
          exact deserializeMap_refused hlay hrec hslot.2 hn hin hb a ha
    · have hnone : aliasField (schema name) = none := by
        rw [Option.eq_none_iff_forall_ne_some]
        intro f' hf'
        obtain ⟨s', rfl, ht⟩ := table_of_alias htable hfits hf'
        rw [(aliasField_eq hf').1] at hmem
        cases List.mem_singleton.1 hmem
        rw [if_neg (by simp [hdep])] at ht
        exact hname f s ht (aliasField_eq hf').2.1
      rw [hnone]
      dsimp only
      rw [openMessage_eq hmsg, Res.ok_bind]
      dsimp only
      intro h
      obtain ⟨outs, houts, -⟩ := Res.bind_eq_ok.1 h
      obtain ⟨a, ha⟩ := deserializeFields_ok houts (List.of_mem_zip hmem').1
      obtain ⟨p, hp, hslot⟩ := piece_of_entry htable hall hmem' hdep
      exact deserializeField_refused hlay hrec hmsg (folded_of_entries hall) hn hp hslot hdep hv hb
        hsize a ha

/-- `deserialize` has no result for a message in which there is an alias that is not read
    back. -/
theorem deserialize_refuses (hd : ∀ name, Distinct (schema name)) (n k : ℕ) :
    Refuses schema (deserialize schema true k) (Layout hash schema n) := by
  induction n generalizing k with
  | zero => exact fun _ _ _ _ h => absurd h id
  | succ n ih =>
    rintro name v ws rest ⟨slots, rfl, h⟩ hn hb out
    cases k with
    | zero => exact fun h => by cases h
    | succ k =>
      exact deserializeMessage_refused (layout_objects hash hd n) (ih k) (hd name) h hn hb out

end ProtoCache.Extension

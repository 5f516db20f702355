import ProtoCache.Extension.Serialize

/-!
# What is written for a message of Protobuf

The words of a message, by recursion over its type (`Layout`): a message of the fields in
the order of their numbers, or the array or the map of an alias.

* `serialize_wrote`: `serialize` writes the words of the message.
-/

namespace ProtoCache.Extension

open Row LittleEndian

/-- The pieces of values of a case. -/
def Form.shape : Form → Option ℕ
  | .w32 | .bool => some 1
  | .w64 => some 2
  | _ => none

/-- A message, as opposed to the other cases. -/
def Form.isMessage : Form → Bool
  | .message _ => true
  | _ => false

/-- The words of a key. -/
def Key.Spelled : Key → List UInt32 → Prop
  | .w32 x, ws => ws = [x]
  | .w64 x, ws => ws = [x.toUInt32, (x >>> 32).toUInt32]
  | .str s, ws => s.length < 2 ^ 30 ∧ ws = stringWords s

/-- The byte of a Boolean. -/
def boolByte (x : Bool) : UInt8 := if x then 1 else 0

section

variable (hash : List UInt8 → UInt32 → V128) (lay : ℕ → Value → List UInt32 → Prop)

/-- The words of a value of a type. -/
def Spelled (t : FieldType) (v : Value) (ws : List UInt32) : Prop :=
  match t.form, v with
  | .message name, v => lay name v ws
  | .str, .str s => s.length < 2 ^ 30 ∧ ws = stringWords s
  | .w64, .w64 x => ws = [x.toUInt32, (x >>> 32).toUInt32]
  | .w32, .w32 x => ws = [x]
  | .bool, .bool x => ws = [if x then 1 else 0]
  | _, _ => False

/-- The words of a repeated field: Booleans are the bytes of a string. -/
def ArrayLayout (t : FieldType) (vs : List Value) (ws : List UInt32) : Prop :=
  if t.form = .bool then
    ∃ bs : List Bool, vs = bs.map Value.bool ∧ bs.length < 2 ^ 30 ∧
      ws = stringWords (bs.map boolByte)
  else
    ∃ m ps, IsArray m ps ws ∧
      List.Forall₂ (fun v p => Spelled lay t v p.words ∧ InColumn t.form.shape m p) vs ps

/-- The words of a field, none if nothing is set. -/
def SlotLayout (kind : FieldKind) (slot : Slot) (ws : List UInt32) : Prop :=
  match kind, slot with
  | .repeated t, .repeated vs => if vs = [] then ws = [] else ArrayLayout lay t vs ws
  | .map k t, .map pairs =>
    if pairs = [] then ws = []
    else (∀ p ∈ pairs, p.1.form = k.keyForm) ∧
      IsMapOf hash Key.bytes k.keyForm.shape t.form.shape Key.Spelled (Spelled lay t) pairs ws
  | .single _, .absent => ws = []
  | .single t, .one v =>
    ∃ ws', Spelled lay t v ws' ∧ ws = if t.form.isMessage ∧ ws'.length = 1 then [] else ws'
  | _, _ => False

/-- A piece that is in its cell if it fits in it. -/
def Folded : Piece UInt32 → Prop
  | .inl ws => ws.length ≤ 3
  | .out ws => 3 < ws.length

/-- The words of what a message has at a number. -/
def EntryLayout (entry : Option (FieldDescriptor × Slot)) (ws : List UInt32) : Prop :=
  match entry with
  | none => ws = []
  | some (f, slot) => SlotLayout hash lay f.kind slot ws

/-- The words of a message with these fields at the numbers. -/
def TableLayout (table : List (Option (FieldDescriptor × Slot))) (ws : List UInt32) : Prop :=
  ∃ ps, IsMessage (trim ps) ws ∧
    List.Forall₂ (fun entry p => EntryLayout hash lay entry p.words ∧ Folded p) table ps

/-- The first word of an alias message that is empty. -/
def aliasMark : FieldKind → UInt32
  | .map _ _ => (5 : UInt32) <<< 28
  | _ => 1

/-- The words of an alias message. A single word is replaced. -/
def AliasLayout (kind : FieldKind) (slot : Slot) (ws : List UInt32) : Prop :=
  (∀ t, kind ≠ .single t) ∧
    ∃ ws', SlotLayout hash lay kind slot ws' ∧ ws = if ws'.length ≤ 1 then [aliasMark kind] else ws'

/-- The words of a message with these fields. -/
def MessageLayout (fields : List FieldDescriptor) (slots : List Slot) (ws : List UInt32) : Prop :=
  fits slots fields = true ∧
    ∃ table, fillTable (fields.zip slots) (List.replicate (maxId fields) none) = .ok table ∧
      (∀ f ∈ fields, f.number ≠ 0) ∧
      ((∃ f slot, table = [some (f, slot)] ∧ f.name = "_" ∧ AliasLayout hash lay f.kind slot ws) ∨
        ((∀ f slot, table = [some (f, slot)] → f.name ≠ "_") ∧ TableLayout hash lay table ws))

end

/-- The words of a message of a type. -/
def Layout (hash : List UInt8 → UInt32 → V128) (schema : Descriptors) :
    ℕ → ℕ → Value → List UInt32 → Prop
  | 0, _, _, _ => False
  | fuel + 1, name, v, ws =>
    ∃ slots, v = .message slots ∧ MessageLayout hash (Layout hash schema fuel) (schema name)
      slots ws

/-! ## Values and keys -/

/-- A unit whose words are in the buffer, or are followed by zero. -/
def Single (u : Unit) : Prop := u.len ≠ 0 → u.segLen = 0

/-- A writer of messages that writes their words. -/
structure Writes (rec : Writer) (lay : ℕ → Value → List UInt32 → Prop) : Prop where
  wrote : ∀ seeds name v B r, rec seeds name v B = .ok r →
    Wrote none B r fun p => lay name v p.words
  inline : ∀ seeds name v B r, rec seeds name v B = .ok r → Single r.1

variable {hash : List UInt8 → UInt32 → V128} {rec : Writer} {lay : ℕ → Value → List UInt32 → Prop}

theorem Key.put_wrote {k : Key} {B : Buffer} {r : Unit × Buffer} (h : k.put B = .ok r) :
    Wrote k.form.shape B r fun p => k.Spelled p.words := by
  cases k with
  | w32 x => cases h; exact (serialize32_wrote x B).imp fun p _ hp => by rw [hp]; rfl
  | w64 x => cases h; exact (serialize64_wrote x B).imp fun p _ hp => by rw [hp]; rfl
  | str s =>
    obtain ⟨hlt, hw⟩ := serializeString_wrote h
    exact hw.imp fun p _ hp => ⟨hlt, hp⟩

theorem serializeSimpleField_wrote (hrec : Writes rec lay) {seeds : Seeds} {t : FieldType}
    {v : Value} {B : Buffer} {r : Unit × Buffer}
    (h : serializeSimpleField rec seeds t v B = .ok r) :
    Wrote t.form.shape B r fun p => Spelled lay t v p.words := by
  unfold serializeSimpleField at h
  unfold Spelled
  generalize t.form = form at h ⊢
  rcases form with name | _ | _ | _ | _ | _
  · exact hrec.wrote _ _ _ _ _ h
  · rcases v with x | x | x | s | slots <;> try cases h
    obtain ⟨hlt, hw⟩ := serializeString_wrote h
    exact hw.imp fun p _ hp => ⟨hlt, hp⟩
  · rcases v with x | x | x | s | slots <;> cases h
    exact (serialize64_wrote x B).imp fun p _ hp => by rw [hp]; rfl
  · rcases v with x | x | x | s | slots <;> cases h
    exact (serialize32_wrote x B).imp fun p _ hp => by rw [hp]; rfl
  · rcases v with x | x | x | s | slots <;> cases h
    exact (serializeBool_wrote x B).imp fun p _ hp => by rw [hp]; rfl
  · rcases v with x | x | x | s | slots <;> cases h

/-! ## Arrays -/

theorem putElements_spec {put : ℕ → Value → Buffer → Res (Unit × Buffer)} {c : Option ℕ}
    {V : Value → List UInt32 → Prop}
    (hput : ∀ i v B r, put i v B = .ok r → Wrote c B r fun p => V v p.words) {vs : List Value}
    {B out : Buffer} {us : List Unit} (h : putElements put vs B = .ok (us, out)) :
    Items c V B vs us out := by
  induction vs generalizing us out with
  | nil =>
    cases h
    exact items_nil
  | cons v vs ih =>
    rw [putElements] at h
    obtain ⟨⟨us, out₁⟩, h₁, h⟩ := Res.bind_eq_ok.1 h
    obtain ⟨⟨u, out₂⟩, h₂, h⟩ := Res.bind_eq_ok.1 h
    cases h
    exact (ih h₁).cons (hput _ _ _ _ h₂)

theorem outers_inl (cells : List (List UInt32)) : outers (cells.map Piece.inl) = [] := by
  induction cells with
  | nil => rfl
  | cons c cells ih => rw [List.map_cons, outers_cons, ih]; rfl

/-- The array of words that are in the cells and fill them. -/
theorem isArray_cells {m : ℕ} {cells : List (List UInt32)} (h1 : 1 ≤ m) (h2 : m ≤ 2)
    (hlen : ∀ c ∈ cells, c.length = m) (hsize : m * cells.length < 2 ^ 30) :
    IsArray m (cells.map Piece.inl) (UInt32.ofNat (cells.length <<< 2 ||| m) :: cells.flatten) := by
  refine ⟨?_, h1, by omega, fun p hp => ?_, fun ws hp => ?_, fun _ => h2, ?_⟩
  · rw [arrayWords, outers_inl, List.append_nil, List.length_map]
    congr 1
    clear hsize
    suffices ∀ n, Row.cells 0 linkWord n (column m (cells.map Piece.inl)) = cells.flatten from
      (this 0).symm
    induction cells with
    | nil => exact fun _ => rfl
    | cons c cells ih =>
      intro n
      rw [List.map_cons, column, List.map_cons, Row.cells, cellWords, ← column,
        ih (fun c hc => hlen c (.tail _ hc)), hlen c List.mem_cons_self, Nat.sub_self,
        List.replicate_zero, List.append_nil, List.flatten_cons]
  · obtain ⟨c, hc, rfl⟩ := List.mem_map.1 hp
    exact (hlen c hc).le
  · obtain ⟨c, -, hc⟩ := List.mem_map.1 hp
    cases hc
  · rw [outers_inl, List.length_map]
    exact hsize

theorem single_segment (last now : ℕ) : Single (segment last now) := fun h => absurd rfl h

theorem serializeString_single {str : List UInt8} {B : Buffer} {r : Unit × Buffer}
    (h : serializeString str B = .ok r) : Single r.1 := by
  rw [serializeString] at h
  split at h
  · cases h
  · split at h
    · cases h
      exact fun _ => rfl
    · cases h
      exact single_segment _ _

theorem serializeArray_single {us : List Unit} {B : Buffer} {last : ℕ} {r : Unit × Buffer}
    (h : serializeArray us B last = .ok r) : Single r.1 := by
  rw [serializeArray] at h
  split at h
  · cases h
    exact fun _ => rfl
  · dsimp only at h
    split at h
    · cases h
    · obtain ⟨buf, -, h⟩ := Res.bind_eq_ok.1 h
      cases h
      exact single_segment _ _

theorem serializeMap_single {index : List UInt8} {us : List (Unit × Unit)} {B : Buffer} {last : ℕ}
    {r : Unit × Buffer} (h : serializeMap index us B last = .ok r) : Single r.1 := by
  rw [serializeMap] at h
  split at h
  · cases h
    exact fun _ => rfl
  · dsimp only at h
    split at h
    · cases h
    · obtain ⟨buf, -, h⟩ := Res.bind_eq_ok.1 h
      obtain ⟨head, -, h⟩ := Res.bind_eq_ok.1 h
      cases h
      exact single_segment _ _

/-! ### Numbers -/

theorem allNumbers_spec {m : ℕ} {vs : List Value} {words : List UInt32}
    (h : allNumbers m vs = .ok words) :
    ∃ cells, words = cells.flatten ∧
      List.Forall₂ (fun v c => numberWords v = .ok c ∧ c.length = m) vs cells := by
  induction vs generalizing words with
  | nil =>
    cases h
    exact ⟨[], rfl, .nil⟩
  | cons v vs ih =>
    rw [allNumbers] at h
    obtain ⟨c, hc, h⟩ := Res.bind_eq_ok.1 h
    obtain ⟨rest, hrest, h⟩ := Res.bind_eq_ok.1 h
    split at h
    · next hlen =>
      cases h
      obtain ⟨cells, rfl, hcells⟩ := ih hrest
      exact ⟨c :: cells, rfl, .cons ⟨hc, hlen⟩ hcells⟩
    · cases h

/-- The case of numbers of `m` words. -/
def IsNumber (form : Form) (m : ℕ) : Prop := form = .w32 ∧ m = 1 ∨ form = .w64 ∧ m = 2

theorem numberWords_spelled {t : FieldType} {m : ℕ} (ht : IsNumber t.form m) {v : Value}
    {c : List UInt32} (hc : numberWords v = .ok c) (hlen : c.length = m) :
    Spelled lay t v c ∧ InColumn t.form.shape m (.inl c) := by
  unfold Spelled
  rcases ht with ⟨hform, rfl⟩ | ⟨hform, rfl⟩
  all_goals
    rw [hform]
    rcases v with x | x | x | s | slots <;> cases hc <;> cases hlen
    refine ⟨rfl, fun k hk => ?_⟩
    cases hk
    exact ⟨rfl, _, rfl, rfl⟩

/-- The array of numbers that is in front of the buffer. -/
theorem numbers_wrote {t : FieldType} {m : ℕ} (ht : IsNumber t.form m) {vs : List Value}
    {words : List UInt32} (hwords : allNumbers m vs = .ok words) (hlt : m * vs.length < 2 ^ 30)
    (B : Buffer) :
    Wrote none B (segment B.length (UInt32.ofNat (vs.length <<< 2 ||| m) :: (words ++ B)).length,
        UInt32.ofNat (vs.length <<< 2 ||| m) :: (words ++ B)) fun p =>
          ArrayLayout lay t vs p.words := by
  obtain ⟨cells, rfl, hcells⟩ := allNumbers_spec hwords
  have hlen := hcells.length_eq
  have hm : 1 ≤ m ∧ m ≤ 2 ∧ t.form ≠ .bool := by
    rcases ht with ⟨hform, rfl⟩ |
      ⟨hform, rfl⟩ <;> exact ⟨by decide, by decide, by rw [hform]; decide⟩
  rw [hlen] at hlt
  have hcell : ∀ c ∈ cells, c.length = m := by
    intro c hc
    obtain ⟨v, -, -, hlen⟩ := Pointwise.exists_left hcells hc
    exact hlen
  have harray := isArray_cells hm.1 hm.2.1 hcell hlt
  have hsize := length_arrayWords harray.fits
  rw [← harray.eq, List.length_map, outers_inl, List.length_nil, Nat.add_zero] at hsize
  rw [hlen, ← List.cons_append, List.length_append]
  refine wrote_out _ (List.cons_ne_nil _ _) (by omega) fun _ => ?_
  rw [ArrayLayout, if_neg hm.2.2]
  refine ⟨m, _, harray, ?_⟩
  rw [List.forall₂_map_right_iff]
  exact hcells.imp fun v c h => numberWords_spelled ht h.1 h.2

/-! ### Booleans -/

theorem boolBytes_spec {vs : List Value} {bytes : List UInt8} (h : boolBytes vs = .ok bytes) :
    ∃ bs : List Bool, vs = bs.map Value.bool ∧ bytes = bs.map boolByte := by
  induction vs generalizing bytes with
  | nil =>
    cases h
    exact ⟨[], rfl, rfl⟩
  | cons v vs ih =>
    rcases v with x | x | x | s | slots <;> try cases h
    rw [boolBytes] at h
    obtain ⟨rest, hrest, h⟩ := Res.bind_eq_ok.1 h
    obtain ⟨bs, rfl, rfl⟩ := ih hrest
    cases h
    exact ⟨x :: bs, rfl, rfl⟩

/-! ### Repeated fields -/

theorem serializeArrayField_wrote (hrec : Writes rec lay) {seeds : Seeds} {t : FieldType}
    {vs : List Value} {B : Buffer} {r : Unit × Buffer} (hne : vs ≠ [])
    (h : serializeArrayField rec seeds t vs B = .ok r) :
    Wrote none B r (fun p => ArrayLayout lay t vs p.words) ∧ Single r.1 := by
  have hnumbers : ∀ m, IsNumber t.form m → serializeNumbers m vs B = .ok r →
      Wrote none B r (fun p => ArrayLayout lay t vs p.words) ∧ Single r.1 := by
    intro m hm h
    rw [serializeNumbers, if_neg (by simpa using hne)] at h
    split at h
    · cases h
    · next hlt =>
      obtain ⟨words, hwords, h⟩ := Res.bind_eq_ok.1 h
      cases h
      exact ⟨numbers_wrote hm hwords (by omega) B, single_segment _ _⟩
  unfold serializeArrayField at h
  split at h
  · next ht =>
    subst ht
    rw [serializeEnums] at h
    split at h
    · cases h
    · next hlt =>
      obtain ⟨words, hwords, h⟩ := Res.bind_eq_ok.1 h
      cases h
      exact ⟨numbers_wrote (.inl ⟨rfl, rfl⟩) hwords (by omega) B, single_segment _ _⟩
  · split at h
    · next hform => exact hnumbers 2 (.inr ⟨hform, rfl⟩) h
    · next hform => exact hnumbers 1 (.inl ⟨hform, rfl⟩) h
    · next hform =>
      obtain ⟨bytes, hbytes, h⟩ := Res.bind_eq_ok.1 h
      obtain ⟨bs, rfl, rfl⟩ := boolBytes_spec hbytes
      obtain ⟨hlt, hw⟩ := serializeString_wrote h
      rw [List.length_map] at hlt
      refine ⟨hw.imp fun p _ hp => ?_, serializeString_single h⟩
      rw [ArrayLayout, if_pos hform]
      exact ⟨bs, rfl, hlt, hp⟩
    · cases h
    · next hform₁ hform₂ hform₃ hform₄ =>
      obtain ⟨⟨us, out⟩, hput, h⟩ := Res.bind_eq_ok.1 h
      have hitems := putElements_spec (fun i v B r h => serializeSimpleField_wrote hrec h) hput
      refine ⟨(serializeArray_items hitems h).imp fun p _ harray => ?_, serializeArray_single h⟩
      rw [ArrayLayout, if_neg hform₃]
      exact harray

/-! ## Maps -/

theorem serializeMapField_wrote (hrec : Writes rec lay) {seeds : Seeds} {k t : FieldType}
    {pairs : List (Key × Value)} {B : Buffer} {r : Unit × Buffer}
    (h : serializeMapField hash rec seeds k t pairs B = .ok r) :
    Wrote none B r (fun p => (∀ p ∈ pairs, p.1.form = k.keyForm) ∧
      IsMapOf hash Key.bytes k.keyForm.shape t.form.shape Key.Spelled (Spelled lay t) pairs
        p.words) ∧
      Single r.1 := by
  rw [serializeMapField] at h
  split at h
  · cases h
  · next hkeys =>
    have hkeys : ∀ p ∈ pairs, p.1.form = k.keyForm := by
      intro p hp
      by_contra hne
      exact hkeys (.inr ⟨p, hp, hne⟩)
    refine ⟨(serializeMapFieldByKey_spec (fun p hp B r hput => ?_) (fun p _ i B r hput =>
          serializeSimpleField_wrote hrec hput) h).imp fun p _ hp => ⟨hkeys, hp⟩, ?_⟩
    · rw [← hkeys p hp]
      exact Key.put_wrote hput
    · rw [serializeMapFieldByKey] at h
      obtain ⟨obj, -, h⟩ := Res.bind_eq_ok.1 h
      split at h
      · cases h
      · obtain ⟨book, -, h⟩ := Res.bind_eq_ok.1 h
        obtain ⟨⟨us, out⟩, -, h⟩ := Res.bind_eq_ok.1 h
        exact serializeMap_single h

/-! ## Fields -/

/-- On the buffer `B` there were left words, maybe none, for which the unit stands, and they
    are as `Q` says where the buffer has less than `2 ^ 32` words with one more, which a
    message that is not kept has taken. -/
def Left (B : Buffer) (r : Unit × Buffer) (Q : List UInt32 → Prop) : Prop :=
  ∃ p, r.2 = p.outer ++ B ∧ r.1.On B.length p ∧ p.words.length < 2 ^ 31 ∧
    (p.words.length + 1 + B.length < 2 ^ 32 → Q p.words)

theorem left_nil {u : Unit} {B : Buffer} (hlen : u.len = 0) (hseg : u.segLen = 0)
    {Q : List UInt32 → Prop} (hQ : 1 + B.length < 2 ^ 32 → Q []) : Left B (u, B) Q := by
  refine ⟨.inl [], rfl, ⟨⟨hlen, ?_, fun _ => hseg⟩, fun h => absurd rfl h⟩, by
    simp [Piece.words], hQ⟩
  rw [Unit.data, hlen]
  rfl

theorem wrote_left {c : Option ℕ} {B : Buffer} {r : Unit × Buffer} {Q : Piece UInt32 → Prop}
    {Q' : List UInt32 → Prop} (h : Wrote c B r Q)
    (hQ : ∀ p, r.1.size = p.words.length → Q p → Q' p.words) :
    Left B r Q' := by
  obtain ⟨p, h₁, h₂, h₃, h₄, -, h₆⟩ := h
  exact ⟨p, h₁, h₂, h₄, fun hlt => hQ p h₂.1.size_eq (h₆ (by omega))⟩

theorem serializeOne_left (hrec : Writes rec lay) {seeds : Seeds} {t : FieldType} {v : Value}
    {B : Buffer} {r : Unit × Buffer}
    (h : serializeField hash rec seeds (.single t) (.one v) B = .ok r) :
    Left B r (SlotLayout hash lay (.single t) (.one v)) := by
  obtain ⟨⟨u, out⟩, hv, h⟩ := Res.bind_eq_ok.1 h
  have hw := serializeSimpleField_wrote hrec hv
  -- Anything but a message of one word is left as it is written.
  have hkept : ∀ ws : List UInt32, ¬(t.form.isMessage = true ∧ ws.length = 1) → Spelled lay t v ws →
      SlotLayout hash lay (.single t) (.one v) ws := fun ws hp hs => ⟨ws, hs, (if_neg hp).symm⟩
  dsimp only at h
  split at h
  · next name hform =>
    split at h
    · next h1 =>
      -- A message of one word is taken back.
      obtain ⟨p, hout, hon, -, -, -, hQ⟩ := hw
      dsimp only at hout hon h1
      rw [hon.1.size_eq] at h1
      have hnil : 1 + B.length < 2 ^ 32 → SlotLayout hash lay (.single t) (.one v) [] :=
        fun hlt => ⟨p.words, hQ (by omega), (if_pos ⟨by rw [hform]; rfl, h1⟩).symm⟩
      split at h
      · next h0 =>
        cases h
        cases p with
        | inl ws =>
          exact absurd (h0.symm.trans hon.1.1) (by rw [show ws.length = 1 from h1]; decide)
        | out ws =>
          obtain ⟨w, rfl⟩ := List.length_eq_one_iff.1 (show ws.length = 1 from h1)
          rw [hout]
          refine left_nil ?_ ?_ hnil
          · exact h0
          · rfl
      · next h0 =>
        cases h
        cases p with
        | inl ws =>
          rw [hout]
          have hinline : Single u := by
            unfold serializeSimpleField at hv
            rw [hform] at hv
            exact hrec.inline _ _ _ _ _ hv
          refine left_nil ?_ ?_ hnil
          · rfl
          · exact hinline h0
        | out ws => exact absurd hon.1.1 h0
    · next h1 =>
      cases h
      exact wrote_left hw fun p hsize hp => hkept _ (fun h => h1 (hsize.trans h.2)) hp
  · next hform =>
    cases h
    refine wrote_left hw fun p _ hp => hkept _ (fun h => ?_) hp
    cases ht : t.form with
    | message name => exact hform name ht
    | _ => rw [ht] at h; cases h.1

/-- What is left of a field that is repeated, or a map: its words, if anything is set. -/
theorem serializeMany_wrote (hrec : Writes rec lay) {seeds : Seeds} {kind : FieldKind} {slot : Slot}
    {B : Buffer} {r : Unit × Buffer} (hkind : ∀ t, kind ≠ .single t)
    (h : serializeField hash rec seeds kind slot B = .ok r) :
    r = ({}, B) ∧ SlotLayout hash lay kind slot [] ∨
      Wrote none B r (fun p => SlotLayout hash lay kind slot p.words) ∧ Single r.1 := by
  rcases kind with t | t | ⟨k, t⟩
  · exact absurd rfl (hkind t)
  · rcases slot with _ | v | vs | pairs <;> try cases h
    rw [serializeField] at h
    split at h
    · next h0 =>
      cases h
      exact .inl ⟨rfl, (if_pos (List.length_eq_zero_iff.1 h0)).mpr rfl⟩
    · next h0 =>
      have hne : vs ≠ [] := fun h => h0 (List.length_eq_zero_iff.2 h)
      obtain ⟨hw, hsingle⟩ := serializeArrayField_wrote hrec hne h
      exact .inr ⟨hw.imp fun p _ hp => (if_neg hne).mpr hp, hsingle⟩
  · rcases slot with _ | v | vs | pairs <;> try cases h
    rw [serializeField] at h
    split at h
    · next h0 =>
      cases h
      exact .inl ⟨rfl, (if_pos (List.length_eq_zero_iff.1 h0)).mpr rfl⟩
    · next h0 =>
      have hne : pairs ≠ [] := fun h => h0 (List.length_eq_zero_iff.2 h)
      obtain ⟨hw, hsingle⟩ := serializeMapField_wrote hrec h
      exact .inr ⟨hw.imp fun p _ hp => (if_neg hne).mpr hp, hsingle⟩

theorem serializeField_left (hrec : Writes rec lay) {seeds : Seeds} {kind : FieldKind} {slot : Slot}
    {B : Buffer} {r : Unit × Buffer} (h : serializeField hash rec seeds kind slot B = .ok r) :
    Left B r (SlotLayout hash lay kind slot) := by
  rcases kind with t | t | ⟨k, t⟩
  · rcases slot with _ | v | vs | pairs
    · cases h
      exact left_nil rfl rfl fun _ => rfl
    · exact serializeOne_left hrec h
    all_goals cases h
  all_goals
    rcases serializeMany_wrote hrec (fun _ hk => by cases hk) h with ⟨rfl, hs⟩ | ⟨hw, -⟩
    · exact left_nil rfl rfl fun _ => hs
    · exact wrote_left hw fun p _ hp => hp

/-- What was left on the buffer `B` is in its cell if it fits in it. -/
def Kept (B : Buffer) (r : Unit × Buffer) (Q : List UInt32 → Prop) : Prop :=
  ∃ p, r.2 = p.outer ++ B ∧ r.1.On B.length p ∧ Folded p ∧ p.words.length < 2 ^ 31 ∧
    (p.words.length + 1 + B.length < 2 ^ 32 → Q p.words)

/-- `FoldField` takes the words of a piece from the buffer if they fit in a cell. -/
theorem foldField_left {B : Buffer} {r r' : Unit × Buffer} {Q : List UInt32 → Prop} (h : Left B r Q)
    (hok : foldField r.2 r.1 = .ok r') : Kept B r' Q := by
  obtain ⟨p, hout, hon, hlen, hQ⟩ := h
  rw [foldField] at hok
  cases p with
  | inl ws =>
    rw [if_neg] at hok
    · cases hok
      exact ⟨.inl ws, hout, hon, hon.1.length_le, hlen, hQ⟩
    · rintro ⟨h0, hseg, -⟩
      exact hseg (hon.1.2.2 (List.length_eq_zero_iff.1 (hon.1.1.symm.trans h0)))
  | out ws =>
    obtain ⟨⟨h0, hseg, hne⟩, hpos⟩ := hon
    have hseg0 : r.1.segLen ≠ 0 := fun h => hne (by simpa [h] using hseg.symm)
    split at hok
    · next hlt =>
      have hlt : ws.length < 4 := by
        have := UInt32.lt_iff_toNat_lt.1 hlt.2.2
        rwa [hseg] at this
      obtain ⟨src, hsrc, hok⟩ := Res.bind_eq_ok.1 hok
      rw [hseg, hout, Piece.outer, access_eq_ok, Storage.load_of_le (by simp),
        List.take_left] at hsrc
      cases hsrc
      cases hok
      rw [hseg, hout]
      refine ⟨.inl ws, List.drop_left, ⟨r.1.sized_store (by omega) fun h => absurd h hne,
          fun h => absurd rfl h⟩, Nat.le_of_lt_succ hlt, hlen, hQ⟩
    · next hge =>
      cases hok
      refine ⟨.out ws, hout, ⟨⟨h0, hseg, hne⟩, hpos⟩,
        Nat.lt_of_not_le fun hle => hge ⟨h0, hseg0, ?_⟩, hlen, hQ⟩
      rw [UInt32.lt_iff_toNat_lt, hseg]
      exact Nat.lt_succ_of_le hle

/-! ## Messages -/

/-- The parts of a message, for a table of its fields. -/
def Parts {α : Type} (P : α → List UInt32 → Prop) (B : Buffer) (table : List α) (us : List Unit)
    (out : Buffer) : Prop :=
  ∃ ps, out = outers ps ++ B ∧ List.Forall₂ Unit.Sized us ps ∧ Placed B.length us ps ∧
    (∀ p ∈ ps, Folded p) ∧ (total ps + 1 + B.length < 2 ^ 32 →
      List.Forall₂ (fun entry p => P entry p.words) table ps)

section

variable {α : Type} {P : α → List UInt32 → Prop} {B out : Buffer} {table : List α} {us : List Unit}

theorem parts_nil : Parts P B [] [] B :=
  ⟨[], rfl, .nil, trivial, fun _ hp => absurd hp List.not_mem_nil, fun _ => .nil⟩

/-- One more part, in front of the others. -/
theorem Parts.cons (h : Parts P B table us out) {entry : α} {r : Unit × Buffer}
    (hr : Kept out r (P entry)) :
    Parts P B (entry :: table) (r.1 :: us) r.2 := by
  obtain ⟨ps, rfl, hsized, hplaced, hfolds, hcontent⟩ := h
  obtain ⟨p, hout, hon, hfold, -, hQ⟩ := hr
  rw [List.length_append, Nat.add_comm] at hon
  refine ⟨p :: ps, by simp [hout], .cons hon.1 hsized, placed_cons hon hplaced,
    List.forall_mem_cons.2 ⟨hfold, hfolds⟩, fun hlt => ?_⟩
  have hle := outers_le_total ps
  rw [total_cons] at hlt
  exact .cons (hQ (by rw [List.length_append]; omega)) (hcontent (by omega))

/-- A part for which there is nothing. -/
theorem kept_nil {Q : List UInt32 → Prop} (hQ : Q []) : Kept B ({}, B) Q :=
  ⟨.inl [], rfl, ⟨⟨rfl, rfl, fun _ => rfl⟩, fun h => absurd rfl h⟩, Nat.zero_le _, by decide,
    fun _ => hQ⟩

end

theorem putFields_spec (hrec : Writes rec lay) {seeds : Seeds}
    {table : List (Option (FieldDescriptor × Slot))} {B out : Buffer} {us : List Unit}
    (h : putFields hash rec seeds table B = .ok (us, out)) :
    Parts (EntryLayout hash lay) B table us out := by
  induction table generalizing us out with
  | nil =>
    cases h
    exact parts_nil
  | cons entry table ih =>
    rcases entry with _ | ⟨f, slot⟩
    · rw [putFields] at h
      obtain ⟨⟨us', out'⟩, h₁, h⟩ := Res.bind_eq_ok.1 h
      cases h
      have hnil : EntryLayout hash lay none [] := rfl
      exact (ih h₁).cons (kept_nil hnil)
    · rw [putFields] at h
      obtain ⟨⟨us', out₁⟩, h₁, h⟩ := Res.bind_eq_ok.1 h
      obtain ⟨r₂, h₂, h⟩ := Res.bind_eq_ok.1 h
      obtain ⟨⟨u, out₃⟩, h₃, h⟩ := Res.bind_eq_ok.1 h
      cases h
      exact (ih h₁).cons (foldField_left (serializeField_left hrec h₂) h₃)

theorem total_trim (ps : List (Piece UInt32)) : total (trim ps) = total ps := by
  obtain ⟨es, hps, hes⟩ := trim_append ps
  have h0 : total es = 0 := by
    clear hps
    induction es with
    | nil => rfl
    | cons p es ih =>
      rw [total_cons, hes p List.mem_cons_self, ih fun p hp => hes p (.tail _ hp)]
      rfl
  conv_rhs => rw [hps, total, List.map_append, List.sum_append]
  exact ((congrArg (total (trim ps) + ·) h0).trans (Nat.add_zero _)).symm

theorem serializeTable_wrote (hrec : Writes rec lay) {seeds : Seeds}
    {table : List (Option (FieldDescriptor × Slot))} {B : Buffer} {r : Unit × Buffer}
    (h : serializeTable hash rec seeds table B = .ok r) :
    Wrote none B r (fun p => TableLayout hash lay table p.words ∧ p.outer ≠ []) ∧ Single r.1 := by
  obtain ⟨⟨us, out⟩, hput, h⟩ := Res.bind_eq_ok.1 h
  obtain ⟨ps, rfl, hsized, hplaced, hfolds, hcontent⟩ := putFields_spec hrec hput
  rcases r with ⟨u, buf⟩
  have hsegment := serializeMessage_unit h
  refine ⟨?_, by rw [hsegment]; exact single_segment _ _⟩
  obtain ⟨p, hout, hon, hne, hlt, hshape, hQ⟩ := serializeMessage_spec hsized hplaced h
  refine ⟨p, hout, hon, hne, hlt, hshape, fun hlt => ⟨?_, ?_⟩⟩
  · obtain ⟨-, hmsg⟩ := hQ hlt
    have hlen := length_messageWords (trim ps)
    have hle := total_le_widths (trim ps)
    rw [← hmsg.eq] at hlen
    rw [total_trim] at hle
    exact ⟨ps, hmsg, Pointwise.and_right (hcontent (by omega)) hfolds⟩
  · cases p with
    | inl ws =>
      exact absurd (List.length_eq_zero_iff.1 (hon.1.1.symm.trans (by rw [hsegment]; rfl))) hne
    | out ws => exact hne

theorem length_isMapOf {c₁ c₂ : Option ℕ} {K : Key → List UInt32 → Prop}
    {V : Value → List UInt32 → Prop} {pairs : List (Key × Value)} {w : List UInt32}
    (h : IsMapOf hash Key.bytes c₁ c₂ K V pairs w) :
    2 * pairs.length ≤ w.length := by
  obtain ⟨index, pos, slots, qs, m₁, m₂, hperm, -, -, hmap, hall⟩ := h
  have hlen := length_mapWords m₁ m₂ index hmap.fits
  have h₁ := hmap.pos₁
  have h₂ := hmap.pos₂
  have hle : 2 * qs.length ≤ (m₁ + m₂) * qs.length := Nat.mul_le_mul_right _ (by omega)
  rw [hmap.eq, hlen, ← hperm.length_eq, hall.length_eq]
  omega

/-- The words of a repeated field or a map: none, or two at least, if they are not those of
    a string. -/
theorem SlotLayout.long {kind : FieldKind} {slot : Slot} {ws : List UInt32}
    (h : SlotLayout hash lay kind slot ws) (hkind : ∀ t, kind ≠ .single t)
    (hbool : ∀ t, kind = .repeated t → t.form ≠ .bool) (hne : ws ≠ []) : 2 ≤ ws.length := by
  unfold SlotLayout at h
  rcases kind with t | t | ⟨k, t⟩
  · exact absurd rfl (hkind t)
  · rcases slot with _ | v | vs | pairs <;> try exact absurd h id
    dsimp only at h
    split at h
    · exact absurd h hne
    · next hvs =>
      rw [ArrayLayout, if_neg (hbool t rfl)] at h
      obtain ⟨m, ps, harray, hall⟩ := h
      have hlen := length_arrayWords harray.fits
      have hm := harray.pos
      have hpos := List.length_pos_iff.2 hvs
      rw [hall.length_eq] at hpos
      have := Nat.mul_pos hm hpos
      rw [harray.eq, hlen]
      omega
  · rcases slot with _ | v | vs | pairs <;> try exact absurd h id
    dsimp only at h
    split at h
    · exact absurd h hne
    · next hpairs =>
      have hlen := length_isMapOf h.2
      have := List.length_pos_iff.2 hpairs
      omega

theorem serializeBools_long {seeds : Seeds} {t : FieldType} (ht : t.form = .bool) {slot : Slot}
    {B : Buffer} {r : Unit × Buffer}
    (h : serializeField hash rec seeds (.repeated t) slot B = .ok r) (hseg : r.1.segLen ≠ 0) :
    2 ≤ r.1.segLen.toNat := by
  have henum : t ≠ .enum := by
    rintro rfl
    cases ht
  rcases slot with _ | v | vs | pairs <;> try cases h
  rw [serializeField] at h
  split at h
  · cases h
    exact absurd rfl hseg
  · unfold serializeArrayField at h
    rw [if_neg henum, ht] at h
    obtain ⟨bytes, -, h⟩ := Res.bind_eq_ok.1 h
    have hw := serializeString_wrote h
    rw [serializeString] at h
    split at h
    · cases h
    · split at h
      · cases h
        exact absurd rfl hseg
      · next hwords =>
        obtain ⟨-, p, hout, hon, hne, -⟩ := hw
        cases h
        cases p with
        | inl ws => exact absurd (hon.1.2.2 (List.length_eq_zero_iff.1 hon.1.1.symm)) hseg
        | out ws =>
          obtain rfl := List.append_cancel_right hout
          rw [hon.1.2.1]
          rcases hw : stringWords bytes with _ | ⟨w, _ | ⟨w', rest⟩⟩
          · exact absurd hw hne
          · exact absurd hw (hwords w)
          · simp

theorem serializeAlias_wrote (hrec : Writes rec lay) {seeds : Seeds} {kind : FieldKind}
    {slot : Slot} {B : Buffer} {r : Unit × Buffer}
    (h : serializeAlias hash rec seeds kind slot B = .ok r) :
    Wrote none B r (fun p => AliasLayout hash lay kind slot p.words ∧
      (p.outer = [] ↔ p.words.length = 1)) ∧
      Single r.1 := by
  have hkind : ∀ t, kind ≠ .single t := by
    rintro t rfl
    cases h
  -- Only repeated fields and maps are aliases, and these have one body.
  have hbody : (serializeField hash rec seeds kind slot B >>= fun p =>
      if p.1.segLen = 0 then .ok ({ p.1 with len := 1, d₀ := aliasMark kind }, p.2)
        else .ok (p.1, p.2)) =
        (.ok r : Res (Unit × Buffer)) := by
    rcases kind with t | t | ⟨k, t⟩
    · exact absurd rfl (hkind t)
    · exact h
    · exact h
  obtain ⟨⟨u, out⟩, hfield, h⟩ := Res.bind_eq_ok.1 hbody
  dsimp only at h
  rcases serializeMany_wrote hrec hkind hfield with ⟨heq, hs⟩ |
    ⟨⟨p, hout, hon, hne, hlen, hshape, hQ⟩, hsingle⟩
  · cases heq
    rw [if_pos (show ({} : Unit).segLen = 0 from rfl)] at h
    cases h
    exact ⟨(wrote_inl [aliasMark kind] rfl rfl (List.cons_ne_nil _ _)
      ⟨⟨hkind, [], hs, (if_pos (Nat.zero_le _)).symm⟩, iff_of_true rfl rfl⟩).weaken, fun _ => rfl⟩
  · dsimp only at hout hon hsingle
    cases p with
    | inl ws =>
      -- An inline unit is overwritten by the mark, whatever its words were.
      have h1 : ws.length ≤ 1 := hshape ws rfl
      have hseg : u.segLen = 0 :=
        hsingle fun h0 => hne (List.length_eq_zero_iff.1 (hon.1.1.symm.trans h0))
      rw [if_pos hseg] at h
      cases h
      have hwl : ws.length = 1 := le_antisymm h1 (List.length_pos_iff.2 hne)
      refine ⟨⟨.inl [aliasMark kind], hout,
          ⟨⟨rfl, rfl, fun h => by cases h⟩, fun h => absurd rfl h⟩, List.cons_ne_nil _ _, by
          simp [Piece.words], fun ws h => by cases h; exact le_rfl, fun hlt => ?_⟩, fun _ => hseg⟩
      refine ⟨⟨hkind, ws, hQ ?_, (if_pos h1).symm⟩, iff_of_true rfl rfl⟩
      rwa [Piece.words, hwl]
    | out ws =>
      have hseg : u.segLen ≠ 0 :=
        fun h0 => hne (List.length_eq_zero_iff.1 (hon.1.2.1.symm.trans (by rw [h0]; rfl)))
      rw [if_neg hseg] at h
      cases h
      refine ⟨⟨.out ws, hout, hon, hne, hlen, hshape, fun hlt => ?_⟩, hsingle⟩
      -- What is out of line is no single word, so the layout keeps it.
      have h2 : 2 ≤ ws.length := by
        by_cases hbool : ∃ t, kind = .repeated t ∧ t.form = .bool
        · obtain ⟨t, rfl, ht⟩ := hbool
          rw [← hon.1.2.1]
          exact serializeBools_long ht hfield hseg
        · exact (hQ hlt).long hkind (fun t hk ht => hbool ⟨t, hk, ht⟩) hne
      exact ⟨⟨hkind, ws, hQ hlt, (if_neg (by omega)).symm⟩,
        iff_of_false hne fun h1 : ws.length = 1 => by omega⟩

/-! ## The writer -/

/-- The message is an alias message to `serialize`. -/
def IsAlias (fields : List FieldDescriptor) (slots : List Slot) : Prop :=
  ∃ f slot, fillTable (fields.zip slots) (List.replicate (maxId fields) none) =
    .ok [some (f, slot)] ∧ f.name = "_"

theorem serializeSlots_wrote (hrec : Writes rec lay) {seeds : Seeds} {fields : List FieldDescriptor}
    {slots : List Slot} {B : Buffer} {r : Unit × Buffer} (hfits : fits slots fields = true)
    (h : serializeSlots hash rec seeds fields slots B = .ok r) :
    Wrote none B r (fun p => MessageLayout hash lay fields slots p.words ∧
      (p.outer = [] ↔ IsAlias fields slots ∧ p.words.length = 1)) ∧ Single r.1 := by
  rw [serializeSlots] at h
  split at h
  · cases h
  · split at h
    · cases h
    · next hnumber =>
      have hnumber : ∀ f ∈ fields, f.number ≠ 0 := fun f hf h0 => hnumber ⟨f, hf, h0⟩
      split at h
      · cases h
      · obtain ⟨table, htable, h⟩ := Res.bind_eq_ok.1 h
        have htab : (∀ f slot, table = [some (f, slot)] → f.name ≠ "_") →
            serializeTable hash rec seeds table B = .ok r →
            Wrote none B r (fun p => MessageLayout hash lay fields slots p.words ∧ (p.outer = [] ↔
                IsAlias fields slots ∧ p.words.length = 1)) ∧ Single r.1 := fun hname h => by
          obtain ⟨hw, hsingle⟩ := serializeTable_wrote hrec h
          refine ⟨hw.imp fun p _ hp => ⟨⟨hfits, table, htable, hnumber, .inr ⟨hname, hp.1⟩⟩, ?_⟩,
            hsingle⟩
          refine iff_of_false hp.2 fun ⟨halias, _⟩ => ?_
          obtain ⟨f, slot, ht, hn⟩ := halias
          exact hname f slot (Except.ok.inj (htable.symm.trans ht)) hn
        split at h
        · next f slot =>
          split at h
          · next hname =>
            obtain ⟨hw, hsingle⟩ := serializeAlias_wrote hrec h
            refine ⟨hw.imp fun p _ hp =>
              ⟨⟨hfits, _, htable, hnumber, .inl ⟨f, slot, rfl, hname, hp.1⟩⟩, ?_⟩, hsingle⟩
            exact hp.2.trans (and_iff_right ⟨f, slot, htable, hname⟩).symm
          · next hname => exact htab (fun f' slot' heq => by cases heq; exact hname) h
        · next hnot => exact htab (fun f' slot' heq => absurd heq (hnot f' slot')) h

/-- `serialize` writes the words of the message. -/
theorem serialize_writes (hash : List UInt8 → UInt32 → V128) (schema : Descriptors) (fuel : ℕ) :
    Writes (serialize hash schema fuel) (Layout hash schema fuel) := by
  induction fuel with
  | zero => exact ⟨fun _ _ _ _ _ h => (by cases h), fun _ _ _ _ _ h => (by cases h)⟩
  | succ fuel ih =>
    have hslots : ∀ seeds name v B r, serialize hash schema (fuel + 1) seeds name v B = .ok r →
        Wrote none B r (fun p => Layout hash schema (fuel + 1) name v p.words) ∧ Single r.1 := by
      intro seeds name v B r h
      rcases v with x | x | x | s | slots <;> try cases h
      rw [serialize] at h
      split at h
      · next hfits =>
        obtain ⟨hw, hsingle⟩ := serializeSlots_wrote ih hfits h
        exact ⟨hw.imp fun p _ hp => ⟨slots, rfl, hp.1⟩, hsingle⟩
      · cases h
    exact ⟨fun _ _ _ _ _ h => (hslots _ _ _ _ _ h).1, fun _ _ _ _ _ h => (hslots _ _ _ _ _ h).2⟩

end ProtoCache.Extension

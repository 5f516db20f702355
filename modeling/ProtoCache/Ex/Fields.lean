import ProtoCache.Ex.Object
import ProtoCache.Extension.Extent

/-!
# The fields of EX messages

What is in a field of an EX message when it is written: if it was accessed, the value that the
message has for it, and otherwise a copy of what `Detect` finds of it in the object that the
message is bound to.

* `serializeField_kept`: the words that are left for a field are those of its state
  (`FieldState`).
-/

namespace ProtoCache.Ex

open Row LittleEndian
open Extension (Key Seeds Left Kept Folded)

/-- The number of the words of a scalar. -/
def Object.shape : Object → Option ℕ
  | .w32 _ | .float _ | .bool _ => some 1
  | .w64 _ | .double _ => some 2
  | .octet _ => some 0
  | _ => none

/-- A message of which nothing was accessed, and which is bound to the shared empty one, past
    the end. -/
def Object.Past (bounded : Bool) (x : Object) : Prop :=
  bounded = true ∧ ∃ name fields, x = .message name (.empty true) fields ∧
    fields.all Option.isNone = true

/-- The objects of a type, of classes; their messages are bound at some positions. A scalar of a
    byte is only a value of a map. -/
inductive Typed (classes : Schema) (bound : ℕ → ℕ → Prop) : Ty → Object → Prop
  | scalar {x : Object} {k : ℕ} (h : x.shape = some k) (h0 : k ≠ 0) : Typed classes bound .scalar x
  | str (s : List UInt8) : Typed classes bound .str (.str s)
  | bools (core : List UInt8) : Typed classes bound .bools (.bools core)
  | scalars {m : ℕ} {core : List (List UInt32)} (hm : m = 1 ∨ m = 2)
      (h : ∀ ws ∈ core, ws.length = m) :
      Typed classes bound .scalars (.scalars m core)
  | array {t : Ty} {core : List Object} (ht : t ≠ .scalar)
      (h : ∀ x ∈ core, Typed classes bound t x) :
      Typed classes bound (.array t) (.array core)
  | map {k t : Ty} {form : Extension.Form} {c : Option ℕ} {core : List (Key × Object)}
      (hk : k = .str ∧ form = .str ∨ k = .scalar ∧ (form = .w32 ∨ form = .w64))
      (hkeys : ∀ p ∈ core, p.1.form = form)
      (h : ∀ p ∈ core, p.2.shape ≠ some 0 → Typed classes bound t p.2)
      (hbyte : ∀ p ∈ core, p.2.shape = some 0 → t = .scalar) (hshape : ∀ p ∈ core, p.2.shape = c) :
        Typed classes bound (.map k t) (.map core)
  | message {name : ℕ} {view : Bound} {fields : List (Option Object)}
      (hview : ∀ pos, view = .at pos → bound name pos)
      (hlen : fields.length = (classes name).length)
      (hfields : ∀ (i : ℕ) e x, (classes name)[i]? = some e → fields[i]? = some (some x) →
        Typed classes bound e.2 x) :
      Typed classes bound (.message name) (.message name view fields)
  | null (name : ℕ) : Typed classes bound (.message name) .null

/-- An element of an array or a value of a map has `V`, at any depth of an object. -/
inductive HasCell (V : Object → Prop) : Object → Prop
  | element {core : List Object} {x : Object} (hx : x ∈ core) (h : V x) : HasCell V (.array core)
  | value {core : List (Key × Object)} {p : Key × Object} (hp : p ∈ core) (h : V p.2) :
      HasCell V (.map core)
  | inElement {core : List Object} {x : Object} (hx : x ∈ core) (h : HasCell V x) :
      HasCell V (.array core)
  | inValue {core : List (Key × Object)} {p : Key × Object} (hp : p ∈ core) (h : HasCell V p.2) :
      HasCell V (.map core)
  | inField {name : ℕ} {view : Bound} {fields : List (Option Object)} {x : Object}
      (hx : some x ∈ fields)
      (h : HasCell V x) : HasCell V (.message name view fields)

/-- What nothing is written for: a scalar of a byte, and a message past the end. -/
def Void (b : Bool) (x : Object) : Prop := x.shape = some 0 ∨ x.Past b

section

variable {hash : List UInt8 → UInt32 → V128} {classes : Schema} {raw : List UInt32} {b : Bool}
  {bound : ℕ → ℕ → Prop}

/-- Only scalars have a number of words that is told by their types. -/
theorem Typed.shape {t : Ty} {x : Object} (h : Typed classes bound t x) :
    t = .scalar ↔ ∃ k, x.shape = some k := by
  cases h with
  | scalar h _ => exact iff_of_true rfl ⟨_, h⟩
  | _ => exact iff_of_false (fun h => by cases h) fun ⟨_, h⟩ => by cases h

theorem shape_le {x : Object} {k : ℕ} (h : x.shape = some k) : k ≤ 2 := by
  cases x <;> cases h <;> decide

theorem shape_past {x : Object} (h : x.Past b) : x.shape = none := by
  obtain ⟨-, name, fields, rfl, -⟩ := h
  rfl

theorem Takes.length_lt {t : Ty} {ws : List UInt32} (h : Takes hash classes t ws) :
    ws.length < 2 ^ 31 := by
  cases h with
  | str h => exact length_stringWords_lt h
  | bools h => exact length_stringWords_lt h
  | mark => decide
  | zero => exact (by decide : 1 < 2 ^ 31)
  | scalars hpos hle hlen hlt =>
    rw [List.length_cons]
    omega
  | array h =>
    have hlen := length_arrayWords h.fits
    have hsize := h.size
    rw [← h.eq] at hlen
    omega
  | @map k t keys pos m₁ m₂ index ps ws h =>
    have hlen := length_mapWords m₁ m₂ index h.fits
    have hsize := h.size
    rw [← h.eq] at hlen
    omega
  | @message name ps ws h =>
    have hlen := length_messageWords ps
    have hsize := h.size
    have houts := outers_le_total ps
    have hcount : sectionCount ps.length = (ps.length + 12) / 25 := rfl
    have hsections := h.sections
    have hwidths : (ps.map pieceWidth).sum ≤ ps.length * 3 := by
      have :=
        List.sum_le_card_nsmul (ps.map pieceWidth) 3 fun k hk => Nat.le_of_lt_succ (h.width_lt k hk)
      rwa [List.length_map, smul_eq_mul] at this
    rw [← h.eq] at hlen
    omega

/-! ## Copies -/

theorem wordsOfSlice_at {v ws : List UInt32} {k : ℕ} (h : wordsOfSlice ⟨.at v, k⟩ = .ok ws) :
    ws = v.take k ∧ ws.length = k := by
  rw [wordsOfSlice] at h
  dsimp only at h
  rw [access_eq_ok, Storage.load] at h
  split at h
  · next hle =>
    cases h
    exact ⟨rfl, List.length_take_of_le hle⟩
  · cases h

theorem wordsOfSlice_length {s : WordSlice} {ws : List UInt32} (h : wordsOfSlice s = .ok ws) :
    ws.length = s.size := by
  rcases s with ⟨v | off, k⟩
  · exact (wordsOfSlice_at h).2
  · rw [wordsOfSlice] at h
    dsimp only at h
    split at h
    · next h0 =>
      cases h
      exact h0.symm
    · cases h

theorem wordsOfSlice_append (ws rest : List UInt32) :
    wordsOfSlice ⟨.at (ws ++ rest), ws.length⟩ = .ok ws := by
  rw [wordsOfSlice]
  dsimp only
  rw [Storage.load_of_le (by simp), List.take_left, access_some]

/-- On the buffer `B` there were put words, maybe none, for which the unit stands. -/
def Put (B : Buffer) (r : Unit × Buffer) (Q : List UInt32 → Prop) : Prop :=
  ∃ p, r.2 = p.outer ++ B ∧ r.1.On B.length p ∧ p.words.length < 2 ^ 31 ∧
    (p.words.length + B.length < 2 ^ 32 → Q p.words)

theorem Put.left {B : Buffer} {r : Unit × Buffer} {Q : List UInt32 → Prop} (h : Put B r Q) :
    Left B r Q := by
  obtain ⟨p, hout, hon, hlt, hQ⟩ := h
  exact ⟨p, hout, hon, hlt, fun hlen => hQ (by omega)⟩

theorem put_nil {B : Buffer} {r : Unit × Buffer} {Q : List UInt32 → Prop} (h : r.1.IsNil ∧ r.2 = B)
    (hQ : Q []) :
    Put B r Q := by
  obtain ⟨⟨hlen, hseg⟩, hout⟩ := h
  refine ⟨.inl [], hout, ⟨⟨hlen, ?_, fun _ => hseg⟩, fun h => absurd rfl h⟩, by decide, fun _ => hQ⟩
  rw [Unit.data, hlen]
  rfl

theorem Kept.imp {B : Buffer} {r : Unit × Buffer} {Q Q' : List UInt32 → Prop} (h : Kept B r Q)
    (hQ : ∀ {ws}, Q ws → Q' ws) : Kept B r Q' := by
  obtain ⟨p, hout, hon, hfold, hlt, hwords⟩ := h
  exact ⟨p, hout, hon, hfold, hlt, fun hlen => hQ (hwords hlen)⟩

/-- `Copy` of a field keeps its words. -/
theorem copy_kept {s : WordSlice} {ws : List UInt32} {B : Buffer} {r : Unit × Buffer}
    (hs : wordsOfSlice s = .ok ws) (hlt : ws.length < 2 ^ 31) (h : copy s true B = .ok r) :
    Put B r (· = ws) ∧ Kept B r (· = ws) := by
  rw [copy, hs, Res.ok_bind] at h
  cases h
  rw [copySlice]
  split
  · next hfold =>
    rw [Bool.true_and, decide_eq_true_eq] at hfold
    have hon : Unit.On B.length { Unit.store {} ws with len := ws.length } (.inl ws) :=
      ⟨Unit.sized_store (by omega) fun _ => rfl, fun h => absurd rfl h⟩
    exact ⟨⟨.inl ws, rfl, hon, hlt, fun _ => rfl⟩, .inl ws, rfl, hon, Nat.le_of_lt_succ hfold, hlt,
      fun _ => rfl⟩
  · next hfold =>
    rw [Bool.true_and, decide_eq_true_eq] at hfold
    have hne : ws ≠ [] := fun h0 => hfold (by rw [h0]; decide)
    have hon := segment_on hne (by omega) B.length
    refine ⟨⟨.out ws, rfl, hon, hlt, fun _ => rfl⟩, .out ws, rfl, hon, ?_, hlt, fun _ => rfl⟩
    exact Nat.lt_of_not_le fun hle => hfold (Nat.lt_succ_of_le hle)

theorem copy_single {s : WordSlice} {fold : Bool} {B : Buffer} {r : Unit × Buffer}
    (h : copy s fold B = .ok r) (h1 : r.1.len = 1) : r.1.segLen = 0 := by
  obtain ⟨ws, -, h⟩ := Res.bind_eq_ok.1 h
  cases h
  rw [copySlice] at h1 ⊢
  split at h1
  · next hfold =>
    obtain ⟨w, rfl⟩ := List.length_eq_one_iff.1 (show ws.length = 1 from h1)
    rw [if_pos hfold]
    rfl
  · cases h1

/-- A message without fields is not kept in a field. -/
def keep : Ty → List UInt32 → List UInt32
  | .message _, ws => if ws.length = 1 then [] else ws
  | _, ws => ws

theorem keep_of_ne {t : Ty} (h : ∀ name, t ≠ .message name) (ws : List UInt32) :
    keep t ws = ws := by
  cases t with
  | message name => exact absurd rfl (h name)
  | _ => rfl

theorem keepMessage_kept (name : ℕ) {B : Buffer} {r r' : Unit × Buffer} {Q : List UInt32 → Prop}
    (h : Put B r Q) (hone : r.1.len = 1 → r.1.segLen = 0) (hok : keepMessage r.1 r.2 = .ok r') :
    Kept B r' fun ws => ∃ us, Q us ∧ ws = keep (.message name) us := by
  rw [keepMessage] at hok
  split at hok
  · next h1 =>
    obtain ⟨p, hout, hon, -, hQ⟩ := h
    rw [hon.1.size_eq] at h1
    -- The word of a message without fields is dropped.
    have hdrop : 0 + 1 + B.length < 2 ^ 32 → ∃ us, Q us ∧ [] = keep (.message name) us := fun hlt =>
      ⟨p.words, hQ (by omega), (if_pos h1).symm⟩
    split at hok
    · next h0 =>
      cases hok
      cases p with
      | inl ws => exact absurd (h0.symm.trans hon.1.1) (by rw [show ws.length = 1 from h1]; decide)
      | out ws =>
        obtain ⟨w, rfl⟩ := List.length_eq_one_iff.1 (show ws.length = 1 from h1)
        refine ⟨.inl [], by rw [hout]; rfl, ⟨⟨h0, ?_, fun _ => rfl⟩, fun h => absurd rfl h⟩,
          Nat.zero_le _, by decide, hdrop⟩
        rw [Unit.data, h0]
        rfl
    · next h0 =>
      cases hok
      cases p with
      | inl ws =>
        have hlen : r.1.len = 1 := hon.1.1.trans h1
        exact ⟨.inl [], hout, ⟨⟨rfl, rfl, fun _ => hone hlen⟩, fun h => absurd rfl h⟩,
          Nat.zero_le _, by decide, hdrop⟩
      | out ws => exact absurd hon.1.1 h0
  · next h1 =>
    obtain ⟨p, hout, hon, hlt, hQ⟩ := h
    rw [hon.1.size_eq] at h1
    have hleft : Left B r fun ws => ∃ us, Q us ∧ ws = keep (.message name) us :=
      ⟨p, hout, hon, hlt, fun hlen => ⟨p.words, hQ (by omega), (if_neg h1).symm⟩⟩
    exact Extension.foldField_left hleft hok

/-! ## Bound objects -/

theorem length_fieldPiece_lt {ps : List (Piece UInt32)} {ws : List UInt32} (h : IsMessage ps ws)
    (i : ℕ) :
    (fieldPiece ps i).words.length < 2 ^ 31 := by
  have hsize := h.size
  cases hi : ps[i]? with
  | none =>
    rw [fieldPiece, hi]
    decide
  | some p =>
    rw [fieldPiece, hi]
    have hle := length_le_total (List.mem_of_getElem? hi)
    change p.words.length < 2 ^ 31
    omega

/-- The words of a field in a message. -/
def FieldWords (hash : List UInt8 → UInt32 → V128) (classes : Schema) (t : Ty) (ws : List UInt32) :
    Prop :=
  if t = .scalar then ws.length ≤ 3 else ws = [] ∨ Takes hash classes t ws

theorem FieldWords.nil {t : Ty} : FieldWords hash classes t [] := by
  rw [FieldWords]
  split
  · exact Nat.zero_le _
  · exact .inl rfl

theorem FieldWords.of_takes {t : Ty} {ws : List UInt32} (h : Takes hash classes t ws) :
    FieldWords hash classes t ws := by
  rw [FieldWords, if_neg h.ne_scalar]
  exact .inr h

/-- A message is bound to an object with these fields. -/
structure BoundTo (hash : List UInt8 → UInt32 → V128) (classes : Schema) (raw : List UInt32)
    (name : ℕ) (view : Bound) (ps : List (Piece UInt32)) (old : List UInt32) : Prop where
  words : ∃ rest, view.words raw = old ++ rest
  message : IsMessage ps old
  takes : Takes hash classes (.message name) old
  fields : ∀ e ∈ classes name, FieldWords hash classes e.2 (fieldPiece ps e.1).words
  scalar : ∀ i, (i, .scalar) ∈ classes name → ∃ us, fieldPiece ps i = .inl us

/-- What a message takes that is bound to an object. -/
def Held (hash : List UInt8 → UInt32 → V128) (classes : Schema) (name : ℕ) (v : List UInt32) :
    Prop :=
  ∃ ws rest, v = ws ++ rest ∧ Takes hash classes (.message name) ws ∧ (Near ws rest ∨ rest = [])

theorem takes_empty (hash : List UInt8 → UInt32 → V128) (classes : Schema) (name : ℕ) :
    Takes hash classes (.message name) [0] := by
  have hmsg : IsMessage [] [0] :=
    ⟨rfl, fun p hp => absurd hp List.not_mem_nil, by decide, by simp, by decide⟩
  refine .message hmsg (fun p hp => absurd hp List.not_mem_nil) (fun i t p _ _ hp => ?_)
    fun i p hp => ?_
  · cases hp
  · cases hp

/-- The words that a message is bound to start with an object. -/
theorem held_words {name : ℕ} {view : Bound}
    (hbound : ∀ pos, bound name pos → Held hash classes name (raw.drop pos))
    (hview : ∀ pos, view = .at pos → bound name pos) : Held hash classes name (view.words raw) := by
  cases view with
  | «at» pos => exact hbound pos (hview pos rfl)
  | empty past => exact ⟨[0], [], rfl, takes_empty hash classes name, .inr rfl⟩

section

variable (hsorted : ∀ name, (classes name).Pairwise fun f f' => f.1 < f'.1)

include hsorted

omit hsorted in
/-- A class has one field of a number. -/
theorem eq_of_sorted {fields : List (ℕ × Ty)} (h : fields.Pairwise fun f f' => f.1 < f'.1) {i : ℕ}
    {t t' : Ty} (hmem : (i, t) ∈ fields) (hmem' : (i, t') ∈ fields) : t = t' := by
  have hnodup : (fields.map Prod.fst).Nodup := List.pairwise_map.2 (h.imp fun hlt => hlt.ne)
  exact congrArg Prod.snd (List.inj_on_of_nodup_map hnodup hmem hmem' rfl)

/-- `Detect` of what a message is bound to, if this is not past the end. -/
theorem detect_bound {name : ℕ} {view : Bound} {ws rest : List UInt32}
    (htakes : Takes hash classes (.message name) ws) (hwords : view.words raw = ws ++ rest)
    (hn : Near ws rest ∨ rest = []) (hpast : ¬(b = true ∧ view = .empty true)) {s : WordSlice}
    (hs : view.detect classes raw b name = .ok s) : wordsOfSlice s = .ok ws := by
  have hlen := congrArg List.length hwords
  rw [List.length_append] at hlen
  have hdetect : ∀ b',
    ProtoCache.detect classes false b' ((view.words raw).length + 1) (.message name)
      (.at (view.words raw)) = .ok s → wordsOfSlice s = .ok ws := by
    intro b' h
    rw [hwords, htakes.detected hsorted rest _ (fun _ => hn) (by rw [List.length_append]; omega)
      id] at h
    cases h
    exact wordsOfSlice_append ws rest
  rcases view with v | past
  · exact hdetect b hs
  · cases past with
    | false => exact hdetect b hs
    | true =>
      rw [Bound.detect, if_neg fun h => hpast ⟨h, rfl⟩] at hs
      exact hdetect false hs

/-- A scalar is in its cell. -/
theorem scalar_piece {name : ℕ} {ps : List (Piece UInt32)} {ws : List UInt32}
    (hmsg : IsMessage ps ws)
    (hknown : ∀ i p, ps[i]? = some p → p.outer ≠ [] → ∃ t, (i, t) ∈ classes name ∧ t ≠ .scalar)
    {i : ℕ} (hmem : (i, .scalar) ∈ classes name) : ∃ us, fieldPiece ps i = .inl us := by
  cases hi : ps[i]? with
  | none =>
    rw [fieldPiece, hi]
    exact ⟨[], rfl⟩
  | some p =>
    rw [fieldPiece, hi]
    cases p with
    | inl us => exact ⟨us, rfl⟩
    | out us =>
      have hne := (hmsg.widths _ (List.mem_of_getElem? hi)).2
      obtain ⟨t, hmem', hne'⟩ := hknown i _ hi fun h0 => hne (congrArg Piece.out h0)
      exact absurd (eq_of_sorted (hsorted name) hmem' hmem) hne'

/-- What `Detect` finds of a field of a message: its words, unless it sees no object there. -/
theorem detect_field {name : ℕ} {ps : List (Piece UInt32)} {ws rest : List UInt32}
    (hmsg : IsMessage ps ws) (hlong : ∀ p ∈ ps, ∀ x, p ≠ .out [x])
    (hfields : ∀ i t p, (i, t) ∈ classes name → t ≠ .scalar → ps[i]? = some p → p.words ≠ [] →
      Takes hash classes t p.words)
    (hknown : ∀ i p, ps[i]? = some p → p.outer ≠ [] → ∃ t, (i, t) ∈ classes name ∧ t ≠ .scalar)
    (hn : Near ws rest ∨ rest = []) {i : ℕ} {t : Ty} (hmem : (i, t) ∈ classes name) {f : Field}
    {s : WordSlice} {fuel : ℕ} (hfuel : ws.length < fuel) (hf : getField b (ws ++ rest) i = .ok f)
    (hs : Field.detect (ProtoCache.detect classes false b fuel) b t f = .ok s) {ws' : List UInt32}
    (hws' : wordsOfSlice s = .ok ws') :
    Unseen t (fieldPiece ps i).words ∧ ws' = [] ∨ ¬Unseen t (fieldPiece ps i).words ∧
      ws' = (fieldPiece ps i).words := by
  have hshown := getField_eq hmsg b rest i
  rw [hf] at hshown
  have hempty : pieceWidth (fieldPiece ps i) = 0 → (fieldPiece ps i).words = [] := by
    intro h0
    cases hp : fieldPiece ps i with
    | inl us =>
      rw [hp] at h0
      exact List.length_eq_zero_iff.1 h0
    | out us =>
      rw [hp] at h0
      cases h0
  by_cases ht : t = .scalar
  · -- A scalar is in its cell.
    subst ht
    refine .inr ⟨id, ?_⟩
    rw [Field.detect, if_pos rfl] at hs
    cases hs
    rcases hshown with ⟨h0, hnull⟩ | ⟨v, hv, hshow⟩
    · cases hnull
      rw [hempty h0]
      exact List.length_eq_zero_iff.1 (wordsOfSlice_length hws')
    · cases hv
      obtain ⟨us, hus⟩ := scalar_piece hsorted hmsg hknown hmem
      rw [hus] at hshow hws' ⊢
      obtain ⟨tail, rfl, hvalue⟩ := getValue_eq b us hshow
      change wordsOfSlice ⟨(Field.getValue b ⟨.at (us ++ tail), us.length⟩).1, _⟩ = .ok ws' at hws'
      rw [show pieceWidth (.inl us) = us.length from rfl, hvalue, wordsOfSlice_append] at hws'
      exact (Except.ok.inj hws').symm
  · -- An object is looked for where the row of the message has the cell of the field.
    have hrow : Rowed classes b (Takes hash classes) _ ws rest _ _ :=
      rowed_message hmsg (hsorted name) hlong hfields hknown rest
    have ha : (i, (t, getField b (ws ++ rest) i)) ∈
        ((classes name).reverse.filter fun field => field.2 ≠ .scalar).map fun field =>
          (field.1, (field.2, getField b (ws ++ rest) field.1)) :=
      List.mem_map.2 ⟨(i, t), List.mem_filter.2 ⟨List.mem_reverse.2 hmem, by simpa using ht⟩, rfl⟩
    obtain ⟨-, hcell⟩ := hrow.child _ ha
    dsimp only at hcell
    rw [hf] at hcell
    rw [Field.detect, if_neg ht] at hs
    rcases hcell with ⟨hnull, -⟩ | ⟨w, p, w', hj, hcell, hlong, hlt, hp⟩
    · cases hnull
      -- Nothing is there, and nothing was written for the field.
      have h0 : pieceWidth (fieldPiece ps i) = 0 := by
        rcases hshown with ⟨h0, -⟩ | ⟨v, hv, -⟩
        · exact h0
        · cases hv
      obtain ⟨fuel, rfl⟩ := Nat.exists_eq_succ_of_ne_zero (Nat.ne_zero_of_lt hfuel)
      rw [show Field.getObject b Field.null = .ok Ptr.null from rfl, Res.ok_bind, detect_null] at hs
      cases hs
      cases hws'
      rw [hempty h0]
      refine .inr ⟨fun hseen => ?_, rfl⟩
      have := hseen.length
      cases this
    · cases hcell
      have hpiece : fieldPiece ps i = p := by
        rw [messageRow, List.getElem?_map] at hj
        obtain ⟨p', hp', heq⟩ := Option.map_eq_some_iff.1 hj
        cases heq
        rw [fieldPiece, hp']
        rfl
      rw [hpiece]
      obtain ⟨tail, hobj, hnear⟩ :=
        near_cell hrow.fit hrow.narrow hrow.linked rest hj hp.isObject b w'
      rw [hobj, Res.ok_bind] at hs
      -- In an object of some words `Detect` sees them all, unless it takes these for none.
      by_cases hseen : Unseen t p.words
      · obtain ⟨fuel, rfl⟩ := Nat.exists_eq_succ_of_ne_zero (Nat.ne_zero_of_lt hfuel)
        rw [hseen.detect] at hs
        cases hs
        cases hws'
        exact .inl ⟨hseen, rfl⟩
      · rw [hp.detected hsorted tail _ (fun _ =>
            .inl (hnear (hrow.near hn _ (List.mem_of_getElem? hj)))) (hlt.trans hfuel) hseen] at hs
        cases hs
        rw [wordsOfSlice_append] at hws'
        exact .inr ⟨hseen, (Except.ok.inj hws').symm⟩

/-- The words that a message has for a field. -/
theorem fieldWords_piece {name : ℕ} {ps : List (Piece UInt32)} {ws : List UInt32}
    (hmsg : IsMessage ps ws)
    (hfields : ∀ i t p, (i, t) ∈ classes name → t ≠ .scalar → ps[i]? = some p → p.words ≠ [] →
      Takes hash classes t p.words)
    (hknown : ∀ i p, ps[i]? = some p → p.outer ≠ [] → ∃ t, (i, t) ∈ classes name ∧ t ≠ .scalar)
    {i : ℕ} {t : Ty} (hmem : (i, t) ∈ classes name) :
    FieldWords hash classes t (fieldPiece ps i).words := by
  cases hi : ps[i]? with
  | none =>
    rw [fieldPiece, hi]
    exact FieldWords.nil
  | some p =>
    rw [fieldPiece, hi]
    change FieldWords hash classes t p.words
    by_cases ht : t = .scalar
    · subst ht
      obtain ⟨us, hus⟩ := scalar_piece hsorted hmsg hknown hmem
      rw [fieldPiece, hi] at hus
      obtain rfl : p = .inl us := hus
      rw [FieldWords, if_pos rfl]
      exact (hmsg.widths _ (List.mem_of_getElem? hi)).1
    · rw [FieldWords, if_neg ht]
      exact or_iff_not_imp_left.2 fun hne => hfields i t p hmem ht hi hne

end

/-! ## Fields -/

/-- The values that are left out of a message. -/
def Object.isDefault : Ty → Object → Bool
  | .scalar, x => x.isZero
  | .message _, _ => false
  | _, x => x.isEmpty

/-- The words of a field that was not accessed, from those that the field has in the object that
    the message is bound to. -/
def Carried (t : Ty) (old ws : List UInt32) : Prop :=
  ∃ us, (Unseen t old ∧ us = [] ∨ ¬Unseen t old ∧ us = old) ∧ ws = keep t us

section

variable (R : Object → List UInt32 → Prop)

/-- The words that are left for an object: none if it is void. -/
def Own (b : Bool) (x : Object) (ws : List UInt32) : Prop := Void b x ∧ ws = [] ∨ ¬Void b x ∧ R x ws

/-- The words of a field that was accessed, from those of its value. -/
def Assigned (t : Ty) (x : Object) (ws : List UInt32) : Prop :=
  x.isDefault t = true ∧ ws = [] ∨ x.isDefault t = false ∧ ∃ us, R x us ∧ ws = keep t us

/-- The words of a field. -/
def FieldState (old : List UInt32) (t : Ty) : Option Object → List UInt32 → Prop
  | none, ws => Carried t old ws
  | some x, ws => Assigned R t x ws

end

/-- A writer of the objects of their types: it writes the words of all but those that are void. -/
structure Writes (classes : Schema) (b : Bool) (bound : ℕ → ℕ → Prop) (rec : Writer)
    (R : Object → List UInt32 → Prop) : Prop where
  wrote : ∀ {seeds x t B r}, Typed classes bound t x → ¬Void b x → rec seeds x B = .ok r →
    Wrote x.shape B r fun p => R x p.words
  void : ∀ {seeds x B r}, Void b x → rec seeds x B = .ok r → r.1.IsNil ∧ r.2 = B
  message : ∀ {seeds x name B r}, Typed classes bound (.message name) x → rec seeds x B = .ok r →
    r.1.len = 0

section

variable {R : Object → List UInt32 → Prop} {rec : Writer} (hrec : Writes classes b bound rec R)
  {seeds : Seeds} {x : Object} {B : Buffer} {r : Unit × Buffer}

include hrec

theorem Writes.put {t : Ty} (hx : Typed classes bound t x) (h : rec seeds x B = .ok r) :
    Put B r (Own R b x) := by
  by_cases hvoid : Void b x
  · exact put_nil (hrec.void hvoid h) (.inl ⟨hvoid, rfl⟩)
  · obtain ⟨p, hout, hon, -, hlt, -, hQ⟩ := hrec.wrote hx hvoid h
    exact ⟨p, hout, hon, hlt, fun hlen => .inr ⟨hvoid, hQ hlen⟩⟩

/-- A scalar is in its cell. -/
theorem Writes.kept (hx : Typed classes bound .scalar x) (h : rec seeds x B = .ok r) :
    Kept B r (Own R b x) := by
  obtain ⟨k, hk⟩ := hx.shape.1 rfl
  by_cases hvoid : Void b x
  · obtain ⟨⟨hlen, hseg⟩, hout⟩ := hrec.void hvoid h
    refine ⟨.inl [], hout, ⟨⟨hlen, ?_, fun _ => hseg⟩, fun h => absurd rfl h⟩, Nat.zero_le _, by
      decide, fun _ => .inl ⟨hvoid, rfl⟩⟩
    rw [Unit.data, hlen]
    rfl
  · have hw := hrec.wrote hx hvoid h
    rw [hk] at hw
    obtain ⟨p, hout, hon, -, hlt, ⟨ws, rfl, hws⟩, hQ⟩ := hw
    have hle := shape_le hk
    exact ⟨_, hout, hon, show ws.length ≤ 3 by omega, hlt, fun hlen => .inr ⟨hvoid, hQ (by omega)⟩⟩

end

/-- `SerializeField` of a field that was not accessed. -/
theorem serializeField_none {rec : Writer} {v : List UInt32} {i : ℕ} {t : Ty} {seeds : Seeds}
    {B : Buffer} {r : Unit × Buffer} (h : serializeField classes b rec seeds v i t none B = .ok r) :
    ∃ f s r', getField b v i = .ok f ∧
      Field.detect (ProtoCache.detect classes false b (v.length + 1)) b t f = .ok s ∧
      copy s true B = .ok r' ∧
      ((∃ name, t = .message name) ∧ keepMessage r'.1 r'.2 = .ok r ∨
        (∀ name, t ≠ .message name) ∧ r = r') := by
  rw [serializeField] at h
  obtain ⟨f, hf, h₁⟩ := Res.bind_eq_ok.1 h
  obtain ⟨s, hs, h₂⟩ := Res.bind_eq_ok.1 h₁
  obtain ⟨r', hcopy, h₃⟩ := Res.bind_eq_ok.1 h₂
  refine ⟨f, s, r', hf, hs, hcopy, ?_⟩
  clear h h₁ h₂ hs
  dsimp only at h₃
  split at h₃
  · exact .inl ⟨⟨_, rfl⟩, h₃⟩
  · next hno =>
    cases h₃
    exact .inr ⟨hno, rfl⟩

/-- `SerializeField` of a field that was accessed. -/
theorem serializeField_some {rec : Writer} {v : List UInt32} {i : ℕ} {t : Ty} {seeds : Seeds}
    {x : Object} {B : Buffer} {r : Unit × Buffer}
    (h : serializeField classes b rec seeds v i t (some x) B = .ok r) :
    x.isDefault t = true ∧ r = ({}, B) ∨ x.isDefault t = false ∧ ∃ r',
      rec seeds x B = .ok r' ∧ (t = .scalar ∧ r = r' ∨
      (∃ name, t = .message name ∧ keepMessage r'.1 r'.2 = .ok r) ∨
      (∀ name, t ≠ .message name) ∧ foldField r'.2 r'.1 = .ok r) := by
  unfold serializeField at h
  dsimp only at h
  split at h
  · split at h
    · next hzero =>
      cases h
      exact .inl ⟨hzero, rfl⟩
    · next hzero => exact .inr ⟨Bool.eq_false_iff.2 hzero, r, h, .inl ⟨rfl, rfl⟩⟩
  · obtain ⟨r', hr', h⟩ := Res.bind_eq_ok.1 h
    exact .inr ⟨rfl, r', hr', .inr (.inl ⟨_, rfl, h⟩)⟩
  · next hscalar hmessage =>
    have hdefault : x.isDefault t = x.isEmpty := by
      cases t with
      | scalar => exact absurd rfl hscalar
      | message name => exact absurd rfl (hmessage name)
      | _ => rfl
    split at h
    · next hempty =>
      cases h
      exact .inl ⟨hdefault.trans hempty, rfl⟩
    · next hempty =>
      obtain ⟨r', hr', h⟩ := Res.bind_eq_ok.1 h
      exact .inr ⟨hdefault.trans (Bool.eq_false_iff.2 hempty), r', hr', .inr (.inr ⟨hmessage, h⟩)⟩

/-- What is written for a field of a message: a copy of the one that the message is bound to, or
    the value that the message has for it. -/
theorem serializeField_kept (hsorted : ∀ name, (classes name).Pairwise fun f f' => f.1 < f'.1)
    {R : Object → List UInt32 → Prop} {rec : Writer} (hrec : Writes classes b bound rec R)
    {name : ℕ} {ps : List (Piece UInt32)} {ws rest : List UInt32} (hmsg : IsMessage ps ws)
    (hlong : ∀ p ∈ ps, ∀ x, p ≠ .out [x])
    (hfields : ∀ i t p, (i, t) ∈ classes name → t ≠ .scalar → ps[i]? = some p → p.words ≠ [] →
      Takes hash classes t p.words)
    (hknown : ∀ i p, ps[i]? = some p → p.outer ≠ [] → ∃ t, (i, t) ∈ classes name ∧ t ≠ .scalar)
    (hn : Near ws rest ∨ rest = []) {i : ℕ} {t : Ty} (hmem : (i, t) ∈ classes name)
    {field : Option Object} (hx : ∀ x, field = some x → Typed classes bound t x) {seeds : Seeds}
    {B : Buffer} {r : Unit × Buffer}
    (h : serializeField classes b rec seeds (ws ++ rest) i t field B = .ok r) :
    Kept B r (FieldState (Own R b) (fieldPiece ps i).words t field) := by
  cases field with
  | none =>
    -- A field that was not accessed: what `Detect` finds of it is copied.
    obtain ⟨f, s, r', hf, hs, hcopy, hend⟩ := serializeField_none h
    have hfuel : ws.length < (ws ++ rest).length + 1 := by
      rw [List.length_append]
      omega
    obtain ⟨us, hus, -⟩ := Res.bind_eq_ok.1 hcopy
    have hfound := detect_field hsorted hmsg hlong hfields hknown hn hmem hfuel hf hs hus
    have hlt : us.length < 2 ^ 31 := by
      rcases hfound with ⟨-, rfl⟩ | ⟨-, rfl⟩
      · decide
      · exact length_fieldPiece_lt hmsg i
    obtain ⟨hput, hkept⟩ := copy_kept hus hlt hcopy
    rcases hend with ⟨⟨name', rfl⟩, hend⟩ | ⟨hno, rfl⟩
    · refine Kept.imp (keepMessage_kept name' hput (copy_single hcopy) hend) ?_
      rintro _ ⟨us', rfl, rfl⟩
      exact ⟨us', hfound, rfl⟩
    · refine Kept.imp hkept ?_
      rintro us' rfl
      exact ⟨us', hfound, (keep_of_ne hno us').symm⟩
  | some x =>
    have hx := hx x rfl
    -- An accessed field: left out when it has its default, else written, and a message put
    -- inline.
    rcases serializeField_some h with ⟨hdefault, rfl⟩ | ⟨hdefault, r', hr', hend⟩
    · exact Extension.kept_nil (.inl ⟨hdefault, rfl⟩)
    · rcases hend with ⟨rfl, rfl⟩ | ⟨name', rfl, hend⟩ | ⟨hno, hend⟩
      · exact Kept.imp (hrec.kept hx hr') fun hown => .inr ⟨hdefault, _, hown, rfl⟩
      · refine Kept.imp (keepMessage_kept name' (hrec.put hx hr') (fun h1 => ?_) hend) fun hown =>
          .inr ⟨hdefault, hown⟩
        rw [hrec.message hx hr'] at h1
        cases h1
      · refine Kept.imp (Extension.foldField_left (hrec.put hx hr').left hend) fun {ws'} hown => ?_
        exact .inr ⟨hdefault, ws', hown, (keep_of_ne hno ws').symm⟩

end

end ProtoCache.Ex

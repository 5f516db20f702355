import ProtoCache.Ex.State

/-!
# Default-constructed elements

What `Serialize` with an end makes of an array or a map whose elements are messages, of which
some were default-constructed and never accessed. Such a message is bound to the shared empty
one, which is in no buffer, and may compare as past the end.

* `HasCell.clash`: where there is a cell of an element for which nothing was written, at any depth,
  the words are not the encoding of the object: its link is in the place of other words;
* `elements_encoded_iff`: each default-constructed element is encoded as a message of one word,
  and every other one as its state, exactly if there is no such cell.
-/

namespace ProtoCache.Ex

open Row LittleEndian
open Extension (Key Seeds Folded)

section

variable (hash : List UInt8 → UInt32 → V128) (classes : Schema) (raw : List UInt32)

/-- The words are the encoding of the state of the object. -/
def Encodes (x : Object) (ws : List UInt32) : Prop := ∃ n, StateWords hash classes raw n x ws

/-- The words that are expected for an element, wherever the shared empty message is: one word for
    a message that was default-constructed, and the encoding of its state for any other. -/
def Encoded (x : Object) (ws : List UInt32) : Prop :=
  (x.Fresh → ws = [0]) ∧ (¬x.Fresh → Encodes hash classes raw x ws)

/-- The words of an array or a map, with those that are expected for its elements. -/
def ElementsEncoded (x : Object) (ws : List UInt32) : Prop :=
  match x with
  | .array core =>
    ∃ m qs, IsArray m qs ws ∧ List.Forall₂ (fun y q => Encoded hash classes raw y q.words) core qs
  | .map core =>
    ∃ c₁ c₂, IsMapOf hash Key.bytes c₁ c₂ Key.Spelled (Encoded hash classes raw) core ws
  | _ => False

end

/-! ## A cell has one reading -/

/-- A cell that shows two pieces. -/
structure SameCell (p p' : Piece UInt32) : Prop where
  shows : ∃ M M' m v, Shows 0 linkWord (2 ^ 30) M m v p ∧ Shows 0 linkWord (2 ^ 30) M' m v p' ∧
    1 ≤ m ∧ m ≤ 3 ∧
    (p.Fits m ∧ p'.Fits m) ∧ (∀ ws, p = .out ws → m < ws.length) ∧ ∀ ws,
      p' = .out ws → m < ws.length

/-- Two objects that a cell shows start at the same word. -/
theorem SameCell.words {p p' : Piece UInt32} (h : SameCell p p') (ho : IsObject p.words)
    (ho' : IsObject p'.words) :
    ∃ tail tail', p.words ++ tail = p'.words ++ tail' := by
  obtain ⟨M, M', m, v, hshow, hshow', -, hm, ⟨hfit, hfit'⟩, -⟩ := h.shows
  obtain ⟨tail, hget, -⟩ := getObject_eq m false hshow hfit hm ho
  obtain ⟨tail', hget', -⟩ := getObject_eq m false hshow' hfit' hm ho'
  exact ⟨tail, tail', Ptr.at.inj (Except.ok.inj (hget.symm.trans hget'))⟩

/-- A cell does not show both a link for the only word and a word that is none. -/
theorem SameCell.link {p p' : Piece UInt32} (h : SameCell p p') (hlink : IsLink p.words)
    {x : UInt32} (hx : p'.words = [x]) : x &&& 3 = 3 := by
  obtain ⟨M, M', m, v, hshow, hshow', hm, -, -, hlong, hlong'⟩ := h.shows
  obtain ⟨w, hw, hp⟩ := hlink
  have hinl : ∀ (q : Piece UInt32) w', (∀ ws, q = .out ws → m < ws.length) → q.words = [w'] →
      q = .inl [w'] := by
    intro q w' hlong hq
    cases q with
    | inl ws => exact congrArg Piece.inl hq
    | out ws =>
      have hlt := hlong ws rfl
      rw [show ws = [w'] from hq, List.length_singleton] at hlt
      omega
  rw [hinl p w hlong hp] at hshow
  rw [hinl p' x hlong' hx] at hshow'
  obtain ⟨tail, rfl⟩ := hshow
  obtain ⟨tail', hv⟩ := hshow'
  obtain rfl : w = x := (List.cons.inj hv).1
  exact hw

section

variable {us us' tail tail' : List UInt32} (hsame : us ++ tail = us' ++ tail')

include hsame

/-- Two arrays that start at the same word have the same cells. -/
theorem array_same {C C' : Object → List UInt32 → Prop} {core : List Object} {m m' : ℕ}
    {qs qs' : List (Piece UInt32)} (h : IsArray m qs us)
    (hall : List.Forall₂ (fun y q => C y q.words) core qs) (h' : IsArray m' qs' us')
    (hall' : List.Forall₂ (fun y q => C' y q.words) core qs') {y : Object} (hy : y ∈ core) :
    ∃ p p', SameCell p p' ∧ C y p.words ∧ C' y p'.words := by
  rw [h.eq, h'.eq, arrayWords, arrayWords, List.cons_append, List.cons_append] at hsame
  obtain ⟨hhead, hbody⟩ := List.cons.inj hsame
  have hm : m = m' := by
    rw [← (arrayHead_parts h.length_lt h.le).2, hhead, (arrayHead_parts h'.length_lt h'.le).2]
  subst hm
  obtain ⟨i, hi, rfl⟩ := List.getElem_of_mem hy
  have hq : i < qs.length := hall.length_eq ▸ hi
  have hq' : i < qs'.length := hall'.length_eq ▸ hi
  have hmem : qs[i] ∈ qs := List.getElem_mem hq
  have hmem' : qs'[i] ∈ qs' := List.getElem_mem hq'
  have hshow := h.shows tail hq
  have hshow' := h'.shows tail' hq'
  rw [arrayBody, ← List.append_assoc] at hshow hshow'
  rw [hbody] at hshow
  exact ⟨_, _, ⟨_, _, m, _, hshow, hshow', h.pos, h.le, ⟨h.fits _ hmem, h'.fits _ hmem'⟩,
      fun ws heq => h.long ws (heq ▸ hmem), fun ws heq => h'.long ws (heq ▸ hmem')⟩, hall.get hi hq,
    hall'.get hi hq'⟩

/-- Two maps of the same keys that start at the same word have the same cells. -/
theorem map_same {hash : List UInt8 → UInt32 → V128} {C C' : Object → List UInt32 → Prop}
    {c₁ c₂ c₁' c₂' : Option ℕ} {core : List (Key × Object)}
    (h : IsMapOf hash Key.bytes c₁ c₂ Key.Spelled C core us)
    (h' : IsMapOf hash Key.bytes c₁' c₂' Key.Spelled C' core us') {pair : Key × Object}
    (hpair : pair ∈ core) :
    ∃ p p', SameCell p p' ∧ C pair.2 p.words ∧ C' pair.2 p'.words := by
  obtain ⟨index, pos, slots, qs, m₁, m₂, hperm, hkeyed, hpos, hmap, hall⟩ := h
  obtain ⟨index', pos', slots', qs', m₁', m₂', hperm', hkeyed', hpos', hmap', hall'⟩ := h'
  have hlen : (core.map fun p => p.1.bytes).length = qs.length := by
    rw [List.length_map, ← hperm.length_eq, hall.length_eq]
  have hlen' : (core.map fun p => p.1.bytes).length = qs'.length := by
    rw [List.length_map, ← hperm'.length_eq, hall'.length_eq]
  -- The views of both are the same, and so are the positions of the keys.
  have hnear : false = true → Near us tail := fun h => Bool.noConfusion h
  have hnear' : false = true → Near us' tail' := fun h => Bool.noConfusion h
  obtain ⟨ph, hopen, -, hlocate⟩ := openMap_eq hmap hkeyed hlen false hnear
  obtain ⟨ph', hopen', -, hlocate'⟩ := openMap_eq hmap' hkeyed' hlen' false hnear'
  rw [hsame] at hopen
  have hview := Except.ok.inj (hopen.symm.trans hopen')
  rw [MapView.mk.injEq] at hview
  obtain ⟨rfl, hbody, rfl, rfl⟩ := hview
  have hsamePos : pos pair.1.bytes = pos' pair.1.bytes :=
    Except.ok.inj ((hlocate _).symm.trans (hlocate' _))
  obtain ⟨i, hi, hslot⟩ := List.getElem_of_mem (hperm.mem_iff.2 hpair)
  obtain ⟨i', hi', hslot'⟩ := List.getElem_of_mem (hperm'.mem_iff.2 hpair)
  have hat := hpos i hi
  have hat' := hpos' i' hi'
  rw [hslot] at hat
  rw [hslot'] at hat'
  obtain rfl : i = i' := hat.symm.trans (hsamePos.trans hat')
  have hq : i < qs.length := hall.length_eq ▸ hi
  have hq' : i < qs'.length := hall'.length_eq ▸ hi'
  have hshow := (hmap.shows tail hq).2
  have hshow' := (hmap'.shows tail' hq').2
  have hvalue := (hall.get hi hq).2.1
  have hvalue' := (hall'.get hi' hq').2.1
  rw [List.get_eq_getElem, List.get_eq_getElem] at hvalue hvalue'
  rw [hslot] at hvalue
  rw [hslot'] at hvalue'
  rw [mapBody, Ptr.at.inj hbody] at hshow
  have hmem : qs[i] ∈ qs := List.getElem_mem hq
  have hmem' : qs'[i] ∈ qs' := List.getElem_mem hq'
  exact ⟨_, _, ⟨_, _, m₂, _, hshow, hshow', hmap.pos₂, hmap.le₂, ⟨(hmap.fits _ hmem).2,
        (hmap'.fits _ hmem').2⟩, (hmap.long _ hmem).2, (hmap'.long _ hmem').2⟩, hvalue, hvalue'⟩

/-- Two messages that start at the same word have the same cell for a field. -/
theorem message_same {qs qs' : List (Piece UInt32)} (h : IsMessage qs us) (hf : ∀ q ∈ qs, Folded q)
    (h' : IsMessage qs' us') (hf' : ∀ q ∈ qs', Folded q) {i : ℕ}
    (hne : (fieldPiece qs i).words ≠ []) (hne' : (fieldPiece qs' i).words ≠ []) :
    SameCell (fieldPiece qs i) (fieldPiece qs' i) := by
  have hwidth : ∀ q : Piece UInt32, Folded q → q.words ≠ [] →
      1 ≤ pieceWidth q ∧ pieceWidth q ≤ 3 := by
    intro q hq hne
    cases q with
    | inl ws => exact ⟨List.length_pos_iff.2 hne, hq⟩
    | out ws => exact ⟨le_refl 1, show 1 ≤ 3 by decide⟩
  have hpiece : ∀ qs : List (Piece UInt32), (∀ q ∈ qs, Folded q) → Folded (fieldPiece qs i) := by
    intro qs hf
    cases hi : qs[i]? with
    | none =>
      rw [fieldPiece, hi]
      exact Nat.zero_le 3
    | some q =>
      rw [fieldPiece, hi]
      exact hf q (List.mem_of_getElem? hi)
  have hout : ∀ q : Piece UInt32, Folded q → ∀ ws, q = .out ws → pieceWidth q < ws.length := by
    rintro q hq ws rfl
    exact lt_trans (show 1 < 3 by decide) hq
  have hfit : ∀ q : Piece UInt32, q.Fits (pieceWidth q) := fun q => by
    cases q with
    | inl ws => exact le_refl ws.length
    | out ws => exact le_refl 1
  obtain ⟨h1, h3⟩ := hwidth _ (hpiece qs hf) hne
  obtain ⟨h1', -⟩ := hwidth _ (hpiece qs' hf') hne'
  rcases getField_eq h false tail i with ⟨h0, -⟩ | ⟨v, hget, hshow⟩
  · omega
  rcases getField_eq h' false tail' i with ⟨h0, -⟩ | ⟨v', hget', hshow'⟩
  · omega
  rw [hsame] at hget
  have heq := Except.ok.inj (hget.symm.trans hget')
  rw [Field.mk.injEq, Ptr.at.injEq] at heq
  obtain ⟨rfl, hm⟩ := heq
  have hout' := hout _ (hpiece qs' hf')
  have hfit' := hfit (fieldPiece qs' i)
  rw [← hm] at hshow' hout' hfit'
  exact ⟨_, _, _, _, hshow, hshow', h1, h3, ⟨hfit _, hfit'⟩, hout _ (hpiece qs hf), hout'⟩

end

/-! ## Cells for which nothing was written -/

section

variable {hash : List UInt8 → UInt32 → V128} {classes : Schema} {raw : List UInt32} {b : Bool}
  {bound : ℕ → ℕ → Prop} {V : Object → Prop}

theorem HasCell.shape {x : Object} (h : HasCell V x) : x.shape = none := by
  cases h <;> rfl

/-- Where there is a cell, there is something to write. -/
theorem HasCell.not_void {x : Object} (h : HasCell V x) : ¬Void b x := by
  rintro (h0 | ⟨-, name, fields, rfl, hnone⟩)
  · rw [h.shape] at h0
    cases h0
  · cases h with
    | inField hx _ =>
      have := List.all_eq_true.1 hnone _ hx
      cases this

theorem HasCell.not_scalar {x : Object} {t : Ty} (hx : Typed classes bound t x) (h : HasCell V x) :
    t ≠ .scalar := by
  intro h0
  obtain ⟨k, hk⟩ := hx.shape.1 h0
  rw [h.shape] at hk
  cases hk

theorem HasCell.not_empty {x : Object} (h : HasCell V x) : x.isEmpty = false := by
  cases h with
  | element hy _ | inElement hy _ | value hy _ | inValue hy _ =>
    exact List.isEmpty_eq_false_iff.2 (List.ne_nil_of_mem hy)
  | inField _ _ => rfl

/-- Where there is a cell, the field is not left out. -/
theorem HasCell.not_default {x : Object} {t : Ty} (hx : Typed classes bound t x) (h : HasCell V x) :
    x.isDefault t = false := by
  have hscalar := h.not_scalar hx
  cases t with
  | scalar => exact absurd rfl hscalar
  | message name => rfl
  | _ => exact h.not_empty

/-- A field that was accessed is one of the class. -/
theorem Typed.entry {name : ℕ} {view : Bound} {fields : List (Option Object)}
    (h : Typed classes bound (.message name) (.message name view fields)) {x : Object}
    (hx : some x ∈ fields) :
    ∃ e ∈ (classes name).zip fields, e.2 = some x := by
  cases h with
  | message hview hlen hfields =>
    obtain ⟨j, hj, hget⟩ := List.mem_iff_getElem.1 hx
    have hzip : j < ((classes name).zip fields).length := by
      rw [List.length_zip]
      omega
    refine ⟨((classes name).zip fields)[j], List.getElem_mem hzip, ?_⟩
    rw [List.getElem_zip]
    exact hget

/-- What a message that was written has for a field in which there is a cell. -/
theorem MessageState.field {O : Object → List UInt32 → Prop} {name : ℕ} {view : Bound}
    {fields : List (Option Object)} {ws : List UInt32}
    (h : MessageState hash classes raw O name view fields ws) {e : (ℕ × Ty) × Option Object}
    (he : e ∈ (classes name).zip fields) {x : Object} (hx : e.2 = some x)
    (ht : Typed classes bound e.1.2 x) (hcell : HasCell V x) :
    ∃ qs us, IsMessage qs ws ∧ (∀ q ∈ qs, Folded q) ∧ O x us ∧
      (fieldPiece qs e.1.1).words = keep e.1.2 us := by
  obtain ⟨ps, old, -, ⟨hnone, -⟩ | ⟨-, qs, hqs, hfolded, hstate, -⟩⟩ := h
  · have := List.all_eq_true.1 hnone _ (mem_of_zip he hx)
    cases this
  · have hfield := hstate e he
    rw [hx] at hfield
    rcases hfield with ⟨hdefault, -⟩ | ⟨-, us, hus, hwords⟩
    · rw [hcell.not_default ht] at hdefault
      cases hdefault
    · exact ⟨qs, us, hqs, hfolded, hus, hwords⟩

theorem keep_long {t : Ty} {us : List UInt32} (h : 2 ≤ us.length) : keep t us = us := by
  cases t with
  | message name => exact if_neg (by omega)
  | _ => rfl

/-- An object with a cell in it takes more than a word. -/
theorem State.two_le {C O : Object → List UInt32 → Prop} {t : Ty} {x : Object} {ws : List UInt32}
    (hx : Typed classes bound t x) (hcell : HasCell V x)
    (hO : ∀ {t y us}, Typed classes bound t y → HasCell V y → O y us → 2 ≤ us.length)
    (h : State hash classes raw C O x ws) : 2 ≤ ws.length := by
  -- Where the cell is: an array or a map has a head and at least one cell, and a message the cell
  -- of its field.
  cases hcell with
  | @element core y hy _ | @inElement core y hy _ =>
    obtain ⟨m, qs, harray, hall⟩ := h
    have hlen := length_arrayWords harray.fits
    have hpos := Nat.mul_pos harray.pos (hall.length_eq ▸ List.length_pos_of_mem hy)
    rw [← harray.eq] at hlen
    omega
  | @value core p hp _ | @inValue core p hp _ =>
    obtain ⟨c₁, c₂, -, -, index, pos, slots, qs, m₁, m₂, hperm, -, -, hmap, hall⟩ := h
    have hlen := length_mapWords m₁ m₂ index hmap.fits
    have hcount : 0 < qs.length := by
      rw [← hall.length_eq, hperm.length_eq]
      exact List.length_pos_of_mem hp
    have hpos := Nat.mul_le_mul (Nat.add_le_add hmap.pos₁ hmap.pos₂) (Nat.succ_le_of_lt hcount)
    rw [← hmap.eq] at hlen
    omega
  | @inField name view fields y hy hcell =>
    have hx' := hx
    cases hx with
    | scalar hk _ => cases hk
    | message _ _ _ =>
      obtain ⟨e, he, heq⟩ := hx'.entry hy
      have ht := hx'.field he heq
      obtain ⟨qs, us, hqs, hfolded, hus, hwords⟩ := MessageState.field h he heq ht hcell
      have hlong := hO ht hcell hus
      rw [keep_long hlong] at hwords
      -- The cell of the field takes a word.
      have hwidth : 1 ≤ (qs.map pieceWidth).sum := by
        cases hi : qs[e.1.1]? with
        | none =>
          rw [fieldPiece, hi] at hwords
          rw [← hwords] at hlong
          exact absurd hlong (by decide)
        | some q =>
          rw [fieldPiece, hi] at hwords
          have hle := List.single_le_sum (fun _ _ => Nat.zero_le _) _
            (List.mem_map_of_mem (f := pieceWidth) (List.mem_of_getElem? hi))
          refine le_trans ?_ hle
          cases q with
          | inl ws =>
            change 1 ≤ ws.length
            rw [show ws = us from hwords]
            omega
          | out ws => exact le_refl 1
      have hlen := length_messageWords qs
      rw [← hqs.eq] at hlen
      omega

theorem Written.two_le {n : ℕ} {t : Ty} {x : Object} {ws : List UInt32}
    (hx : Typed classes bound t x) (hcell : HasCell V x) (h : Written hash classes raw b n x ws) :
    2 ≤ ws.length := by
  induction n generalizing t x ws with
  | zero => exact absurd h id
  | succ n ih =>
    refine State.two_le hx hcell (fun hy hcell hus => ?_) h
    rcases hus with ⟨hv, -⟩ | ⟨-, hus⟩
    · exact absurd hv hcell.not_void
    · exact ih hy hcell hus

theorem StateWords.two_le {n : ℕ} {t : Ty} {x : Object} {ws : List UInt32}
    (hx : Typed classes bound t x) (hcell : HasCell V x) (h : StateWords hash classes raw n x ws) :
    2 ≤ ws.length := by
  induction n generalizing t x ws with
  | zero => exact absurd h id
  | succ n ih => exact State.two_le hx hcell ih h

/-- The encoding of what nothing is written for is a word that is not taken for a link. -/
theorem StateWords.void {n : ℕ} {x : Object} {ws : List UInt32} (hv : Void b x)
    (h : StateWords hash classes raw n x ws) : ∃ w, ws = [w] ∧ w &&& 3 ≠ 3 := by
  cases n with
  | zero => exact absurd h id
  | succ n =>
    rcases hv with hshape | hpast
    · cases x <;> cases hshape
      case octet.refl x =>
        refine ⟨_, h, ?_⟩
        split <;> decide
    · exact ⟨0, state_fresh hpast.fresh h, by decide⟩

/-- Where nothing was written for an element of an array or a map, at any depth, the words are not
    the encoding of the object: there is a link where other words should be. -/
theorem HasCell.clash {t : Ty} {x : Object} (hcell : HasCell (Void b) x)
    (hx : Typed classes bound t x) {n n' : ℕ} {us us' tail tail' : List UInt32}
    (h : Written hash classes raw b n x us) (h' : StateWords hash classes raw n' x us') :
    us ++ tail ≠ us' ++ tail' := by
  -- By induction on where the cell is; the objects around it start at the same words.
  intro hsame
  -- At the cell itself there is a link on one side and another word on the other.
  have hlink : ∀ {y : Object} {p p' : Piece UInt32} {n : ℕ},
    Void b y → SameCell p p' → IsLink p.words →
      StateWords hash classes raw n y p'.words → False := by
    intro y p p' n hv hcells hlink hstate
    obtain ⟨w, hw, hne⟩ := hstate.void hv
    exact hne (hcells.link hlink hw)
  induction hcell generalizing t n n' us us' tail tail' with
  | element hy hv =>
    cases n with
    | zero => exact h
    | succ n =>
    cases n' with
    | zero => exact h'
    | succ n' =>
      obtain ⟨m, qs, harray, hall⟩ := h
      obtain ⟨m', qs', harray', hall'⟩ := h'
      obtain ⟨p, p', hcells, hp, hp'⟩ := array_same hsame harray hall harray' hall' hy
      exact hlink hv hcells (hp.1 hv) hp'
  | value hp hv =>
    cases n with
    | zero => exact h
    | succ n =>
    cases n' with
    | zero => exact h'
    | succ n' =>
      obtain ⟨c₁, c₂, -, -, hmap⟩ := h
      obtain ⟨c₁', c₂', -, -, hmap'⟩ := h'
      obtain ⟨p, p', hcells, hp, hp'⟩ := map_same hsame hmap hmap' hp
      exact hlink hv hcells (hp.1 hv) hp'
  | inElement hy hcell ih =>
    cases n with
    | zero => exact h
    | succ n =>
    cases n' with
    | zero => exact h'
    | succ n' =>
      obtain ⟨m, qs, harray, hall⟩ := h
      obtain ⟨m', qs', harray', hall'⟩ := h'
      obtain ⟨p, p', hcells, hp, hp'⟩ := array_same hsame harray hall harray' hall' hy
      cases hx with
      | scalar hk _ => cases hk
      | array _ hcore =>
        have ht := hcell.not_scalar (hcore _ hy)
        -- The element leads to the cell, so it is not the cell, and its own words start at the
        -- same place.
        have hwritten := hp.2 hcell.not_void
        obtain ⟨tail, tail', hwords⟩ :=
          hcells.words (hwritten.isObject (hcore _ hy) ht) (hp'.isObject (hcore _ hy) ht)
        exact ih (hcore _ hy) hwritten hp' hwords
  | inValue hpair hcell ih =>
    cases n with
    | zero => exact h
    | succ n =>
    cases n' with
    | zero => exact h'
    | succ n' =>
      obtain ⟨c₁, c₂, -, -, hmap⟩ := h
      obtain ⟨c₁', c₂', -, -, hmap'⟩ := h'
      obtain ⟨p, p', hcells, hp, hp'⟩ := map_same hsame hmap hmap' hpair
      cases hx with
      | scalar hk _ => cases hk
      | map _ _ hvalues _ _ =>
        have hy := hvalues _ hpair (by rw [hcell.shape]; exact fun h => by cases h)
        have ht := hcell.not_scalar hy
        have hwritten := hp.2 hcell.not_void
        obtain ⟨tail, tail', hwords⟩ := hcells.words (hwritten.isObject hy ht) (hp'.isObject hy ht)
        exact ih hy hwritten hp' hwords
  | inField hy hcell ih =>
    cases n with
    | zero => exact h
    | succ n =>
    cases n' with
    | zero => exact h'
    | succ n' =>
      have hx' := hx
      cases hx with
      | scalar hk _ => cases hk
      | message _ _ _ =>
        obtain ⟨e, he, heq⟩ := hx'.entry hy
        have ht := hx'.field he heq
        obtain ⟨qs, ws, hqs, hfolded, hws, hpiece⟩ := MessageState.field h he heq ht hcell
        obtain ⟨qs', ws', hqs', hfolded', hws', hpiece'⟩ := MessageState.field h' he heq ht hcell
        have hwritten := (hws.resolve_left fun hown => hcell.not_void hown.1).2
        -- A field that leads to the cell is too long to be left out.
        have hlong := hwritten.two_le ht hcell
        have hlong' := hws'.two_le ht hcell
        rw [keep_long hlong] at hpiece
        rw [keep_long hlong'] at hpiece'
        have hcells := message_same hsame hqs hfolded hqs' hfolded' (i := e.1.1)
          (by rw [hpiece]; exact List.ne_nil_of_length_pos (by omega))
          (by rw [hpiece']; exact List.ne_nil_of_length_pos (by omega))
        have hobj := hwritten.isObject ht (hcell.not_scalar ht)
        have hobj' := hws'.isObject ht (hcell.not_scalar ht)
        rw [← hpiece] at hobj
        rw [← hpiece'] at hobj'
        obtain ⟨tail, tail', hwords⟩ := hcells.words hobj hobj'
        rw [hpiece, hpiece'] at hwords
        exact ih ht hwritten hws' hwords

theorem HasCell.not_fresh {x : Object} (h : HasCell V x) : ¬x.Fresh := by
  rintro ⟨name, past, fields, rfl, hnone⟩
  cases h with
  | inField hx _ =>
    have := List.all_eq_true.1 hnone _ hx
    cases this

/-! ## Elements -/

/-- An element in which every cell was written is as expected. -/
theorem Written.encoded {n : ℕ} {t : Ty} {x : Object} {ws : List UInt32}
    (hx : Typed classes bound t x) (hwhole : ¬HasCell (Void b) x)
    (h : Written hash classes raw b n x ws) : Encoded hash classes raw x ws := by
  refine ⟨fun hfresh => ?_, fun _ => ⟨n + 1, h.state hx hwhole⟩⟩
  cases n with
  | zero => exact absurd h id
  | succ n => exact state_fresh hfresh h

/-- Where something in the cell of an element was not written, the element is not as expected. -/
theorem SameCell.not_encoded {n : ℕ} {name : ℕ} {x : Object} {p p' : Piece UInt32}
    (h : SameCell p p') (hx : Typed classes bound (.message name) x)
    (hcell : Void b x ∨ HasCell (Void b) x)
    (hp : InCell b (Written hash classes raw b n) x p.words) :
    ¬Encoded hash classes raw x p'.words := by
  rintro ⟨hfresh, hstate⟩
  rcases hcell with hv | hcell
  · have hpast : x.Past b := hv.resolve_left fun h0 => by
      cases hx with
      | message => cases h0
      | null => cases h0
    exact absurd (h.link (hp.1 hv) (hfresh hpast.fresh)) (by decide)
  · obtain ⟨n', hstate⟩ := hstate hcell.not_fresh
    have hwritten := hp.2 hcell.not_void
    have hscalar := hcell.not_scalar hx
    obtain ⟨tail, tail', hwords⟩ :=
      h.words (hwritten.isObject hx hscalar) (hstate.isObject hx hscalar)
    exact hcell.clash hx hwritten hstate hwords

section

variable (hsorted : ∀ name, (classes name).Pairwise fun f f' => f.1 < f'.1)
  (hbound : ∀ name pos, bound name pos → Held hash classes name (raw.drop pos))

include hsorted hbound

theorem array_encoded_iff (fuel : ℕ) {seeds : Seeds} {name : ℕ} {core : List Object}
    (hx : Typed classes bound (.array (.message name)) (.array core)) {buf out : Buffer} {u : Unit}
    (h : serialize hash classes raw true fuel seeds (.array core) buf = .ok (u, out))
    (hbuf : buf.length < 2 ^ 31) :
    ElementsEncoded hash classes raw (.array core) (u.words out) ↔
      ¬HasCell (Void true) (.array core) := by
  have hrec : Writes classes true bound (serialize hash classes raw true fuel)
    (Written hash classes raw true fuel) :=
    serialize_writes hash hsorted hbound fuel
  have hnot : ¬Void true (.array core) := by rintro (h | ⟨-, _, _, h, -⟩) <;> cases h
  obtain ⟨p, hwritten, hwords⟩ := (hrec.wrote hx hnot h).words hbuf
  rw [hwords]
  cases fuel with
  | zero => cases h
  | succ n =>
    obtain ⟨m, qs, harray, hall⟩ := hwritten
    cases hx with
    | array _ hcore =>
      constructor
      · rintro ⟨m', qs', harray', hall'⟩ hcell
        have hat : ∃ y ∈ core, Void true y ∨ HasCell (Void true) y := by
          cases hcell with
          | element hy hv => exact ⟨_, hy, .inl hv⟩
          | inElement hy hcell => exact ⟨_, hy, .inr hcell⟩
        obtain ⟨y, hy, hcell⟩ := hat
        have hsame : p.words ++ [] = p.words ++ [] := rfl
        obtain ⟨q, q', hcells, hq, hq'⟩ := array_same hsame harray hall harray' hall' hy
        exact hcells.not_encoded (hcore y hy) hcell hq hq'
      · intro hwhole
        refine ⟨m, qs, harray, List.forall₂_iff_get.2 ⟨hall.length_eq, fun i hi hi' => ?_⟩⟩
        have hy := List.getElem_mem hi
        have hq := (hall.get hi hi').2 fun hv => hwhole (.element hy hv)
        exact hq.encoded (hcore _ hy) fun hcell => hwhole (.inElement hy hcell)

theorem map_encoded_iff (fuel : ℕ) {seeds : Seeds} {k : Ty} {name : ℕ} {core : List (Key × Object)}
    (hx : Typed classes bound (.map k (.message name)) (.map core)) {buf out : Buffer} {u : Unit}
    (h : serialize hash classes raw true fuel seeds (.map core) buf = .ok (u, out))
    (hbuf : buf.length < 2 ^ 31) :
    ElementsEncoded hash classes raw (.map core) (u.words out) ↔
      ¬HasCell (Void true) (.map core) := by
  have hrec : Writes classes true bound (serialize hash classes raw true fuel)
    (Written hash classes raw true fuel) :=
    serialize_writes hash hsorted hbound fuel
  have hnot : ¬Void true (.map core) := by rintro (h | ⟨-, _, _, h, -⟩) <;> cases h
  obtain ⟨p, hwritten, hwords⟩ := (hrec.wrote hx hnot h).words hbuf
  rw [hwords]
  cases fuel with
  | zero => cases h
  | succ n =>
    obtain ⟨c₁, c₂, -, -, hmap⟩ := hwritten
    cases hx with
    | map _ _ hvalues hbyte _ =>
      -- No value is a byte, as the values are messages.
      have hcore : ∀ pair ∈ core, Typed classes bound (.message name) pair.2 := fun pair hpair =>
        hvalues pair hpair fun h0 => by cases hbyte pair hpair h0
      constructor
      · rintro ⟨c₁', c₂', hmap'⟩ hcell
        have hat : ∃ pair ∈ core, Void true pair.2 ∨ HasCell (Void true) pair.2 := by
          cases hcell with
          | value hpair hv => exact ⟨_, hpair, .inl hv⟩
          | inValue hpair hcell => exact ⟨_, hpair, .inr hcell⟩
        obtain ⟨pair, hpair, hcell⟩ := hat
        have hsame : p.words ++ [] = p.words ++ [] := rfl
        obtain ⟨q, q', hcells, hq, hq'⟩ := map_same hsame hmap hmap' hpair
        exact hcells.not_encoded (hcore pair hpair) hcell hq hq'
      · intro hwhole
        refine ⟨c₁, c₂, isMapOf_imp (fun pair hpair us hus => ?_) hmap⟩
        have hq := hus.2 fun hv => hwhole (.value hpair hv)
        exact hq.encoded (hcore _ hpair) fun hcell => hwhole (.inValue hpair hcell)

/-- What `Serialize` with an end writes for an array or a map of messages, some of which were
    default-constructed: it encodes each of these as a message of one word and every other one
    as its state, if and only if there is no cell, at any depth, of what nothing is written for. -/
theorem elements_encoded_iff (fuel : ℕ) {seeds : Seeds} {t : Ty} {name : ℕ}
    (ht : t = .array (.message name) ∨ ∃ k, t = .map k (.message name)) {x : Object}
    (hx : Typed classes bound t x) {buf out : Buffer} {u : Unit}
    (h : serialize hash classes raw true fuel seeds x buf = .ok (u, out))
    (hbuf : buf.length < 2 ^ 31) :
    ElementsEncoded hash classes raw x (u.words out) ↔ ¬HasCell (Void true) x := by
  have hx' := hx
  rcases ht with rfl | ⟨k, rfl⟩
  · cases hx with
    | array => exact array_encoded_iff hsorted hbound fuel hx' h hbuf
  · cases hx with
    | map => exact map_encoded_iff hsorted hbound fuel hx' h hbuf

end

/-- A class of messages with a field of a scalar. -/
def scalarClass : Schema := fun _ => [(0, .scalar)]

/-- An array of a message that was default-constructed and compares as past the end. -/
def pastArray : Object := .array [.message 0 (.empty true) [none]]

theorem scalarClass_sorted (name : ℕ) : (scalarClass name).Pairwise fun f f' => f.1 < f'.1 :=
  List.pairwise_singleton _ _

theorem pastArray_typed : Typed scalarClass (fun _ _ => False) (.array (.message 0)) pastArray := by
  refine .array (fun h => by cases h) fun y hy => ?_
  rw [List.mem_singleton.1 hy]
  refine .message (fun v hv => by cases hv) rfl fun i e x _ hx => ?_
  cases i with
  | zero => cases hx
  | succ i => cases hx

theorem pastArray_written :
    serialize (fun _ _ => ⟨0, 0, 0, 0⟩) scalarClass [] true 2 (fun _ _ => 0) pastArray [] =
    .ok ({ d₀ := 2, d₁ := 2 }, [5, 7]) := by decide +kernel

/-- An array of one message that compares as past the end. -/
theorem elements_encoded_iff_past :
    ElementsEncoded (fun _ _ => ⟨0, 0, 0, 0⟩) scalarClass [] pastArray [5, 7] ↔
      ¬HasCell (Void true) pastArray :=
  elements_encoded_iff scalarClass_sorted (fun _ _ (h : False) => h.elim) 2 (.inl rfl)
    pastArray_typed
    pastArray_written (by decide)

/-- The cell of the message is a link past the end of the array. -/
theorem pastArray_not_encoded :
    serialize (fun _ _ => ⟨0, 0, 0, 0⟩) scalarClass [] true 2 (fun _ _ => 0) pastArray [] =
        .ok ({ d₀ := 2, d₁ := 2 }, [5, 7]) ∧
      ¬ElementsEncoded (fun _ _ => ⟨0, 0, 0, 0⟩) scalarClass [] pastArray [5, 7] := by
  refine ⟨pastArray_written, fun h => ?_⟩
  have hwhole := (array_encoded_iff scalarClass_sorted (fun _ _ (h : False) => h.elim) 2
    pastArray_typed pastArray_written (by decide)).1 h
  exact hwhole (.element (List.mem_singleton.2 rfl) (.inr ⟨rfl, 0, [none], rfl, rfl⟩))

end

end ProtoCache.Ex

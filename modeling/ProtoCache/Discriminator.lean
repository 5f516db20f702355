import ProtoCache.Detect
import ProtoCache.Extension.Objects
import ProtoCache.Serialize.Nil
import ProtoCache.Serialize.Offsets

/-!
# Objects and links

An object may stand in a cell, and then `Field::GetObject` has only its first word to tell
it from a link. No encoder writes an object of three words or less whose first word has
the mark of a link (`IsObject`); `Copy` repeats the words that it is given.

* `discriminator`: this holds of all that the encoders write (`Encoded`); in the cells of
  the containers such an object is found where it stands, and behind a link otherwise.
* `copySlice_three`: `Copy` makes an object of the word `3`, if there is such an array.
-/

namespace ProtoCache

open Row LittleEndian

/-! ## Encoders of `include/protocache/access-ex.h` -/

/-- `Copy`, of the words of a slice. -/
def copySlice (src : List UInt32) (fold : Bool) (buf : Buffer) (unit : Unit) : Unit × Buffer :=
  if fold && decide (src.length < 4) then ({ unit.store src with len := src.length }, buf)
  else (segment buf.length (src.length + buf.length), src ++ buf)

/-- `ScalarArrayEX::Serialize`, of elements of `m` words. -/
def serializeScalars (m : ℕ) (core : List (List UInt32)) (buf : Buffer) : Res (Unit × Buffer) :=
  if core.length = 0 then return ({ len := 1, d₀ := UInt32.ofNat m }, buf)
  else if 2 ^ 30 ≤ m * core.length then .error .reject
  else
    let out := UInt32.ofNat (core.length <<< 2 ||| m) :: (core.flatten ++ buf)
    return (segment buf.length out.length, out)

/-- The words of what was encoded last: those of the unit, or those in front of the buffer. -/
def Unit.latest (u : Unit) (out : Buffer) : List UInt32 :=
  if u.len = 0 then out.take u.segLen.toNat else u.data

/-- What the encoders make of an object: a string, or an array of Booleans, which is one of
    bytes; an array of scalars; an array, a map and a message of units that were written, with
    the links to them in 32 bits; a message of Protobuf, which may be an alias; and what
    `FoldField` and `Copy` make of it. -/
inductive Encoded (hash : List UInt8 → UInt32 → V128) : Unit × Buffer → Prop
  | string {str : List UInt8} {buf : Buffer} {r : Unit × Buffer} :
      serializeString str buf = .ok r → Encoded hash r
  | scalars {m : ℕ} {core : List (List UInt32)} {buf : Buffer} {r : Unit × Buffer} :
    m = 1 ∨ m = 2 → (∀ ws ∈ core, ws.length = m) → serializeScalars m core buf = .ok r →
      Encoded hash r
  | array {us : List Unit} {base buf : Buffer} {r : Unit × Buffer} :
    Stored true base us buf → (∀ x ∈ us, x.len ≤ (bestArraySize us).1) →
    serializeArray us buf base.length = .ok r → Encoded hash r
  | map {seeds : ℕ → UInt32} {keys : List (List UInt8)} {obj : PerfectHashObject}
      {index : List UInt8}
    {us : List (Unit × Unit)} {base buf : Buffer} {r : Unit × Buffer} :
    PerfectHashObject.build hash (keys.map some) seeds true = .ok obj → obj.data = some index →
    keys.length = us.length → Stored true base (flat us) buf →
    (∀ x ∈ us.map Prod.fst, x.len ≤ (bestArraySize (us.map Prod.fst)).1) →
    (∀ x ∈ us.map Prod.snd, x.len ≤ (bestArraySize (us.map Prod.snd)).1) →
    serializeMap index us buf base.length = .ok r → Encoded hash r
  | message {us : List Unit} {base buf : Buffer} {r : Unit × Buffer} :
    Stored false base us buf → serializeMessage us buf base.length = .ok r → Encoded hash r
  | protobuf {schema : Extension.Descriptors} {fuel name : ℕ} {seeds : Extension.Seeds}
      {v : Extension.Value}
    {buf : Buffer} {r : Unit × Buffer} :
    Extension.serialize hash schema fuel seeds name v buf = .ok r → buf.length < 2 ^ 31 →
      Encoded hash r
  | fold {r r' : Unit × Buffer} : Encoded hash r → foldField r.2 r.1 = .ok r' → Encoded hash r'
  | copied {r : Unit × Buffer} (fold : Bool) (buf : Buffer) (unit : Unit) :
    Encoded hash r → Encoded hash (copySlice (r.1.latest r.2) fold buf unit)

/-! ## Objects that were encoded -/

theorem latest_segment {ws buf : List UInt32} (h : ws.length < 2 ^ 32) :
    (segment buf.length (ws ++ buf).length).latest (ws ++ buf) = ws := by
  have hlen : (segment buf.length (ws ++ buf).length).segLen.toNat = ws.length := by
    rw [segment, List.length_append, Nat.add_sub_cancel]
    exact Nat.mod_eq_of_lt h
  rw [Unit.latest, hlen, List.take_left]
  exact if_pos rfl

theorem length_latest (u : Unit) (out : Buffer) : (u.latest out).length < 2 ^ 32 := by
  rw [Unit.latest]
  split
  · exact (List.length_take_le _ _).trans_lt u.segLen.toNat_lt
  · rw [Unit.data, List.length_take]
    exact (min_le_right _ _).trans_lt (by simp)

/-- More words may follow those of an object. -/
theorem IsObject.append {ws : List UInt32} (h : IsObject ws) (ws' : List UInt32) :
    IsObject (ws ++ ws') := by
  obtain ⟨w, tail, rfl, hw⟩ := h
  refine ⟨w, tail ++ ws', rfl, fun hle => hw (le_trans ?_ hle)⟩
  rw [List.length_append]
  exact Nat.le_add_right _ _

theorem copySlice_latest {src : List UInt32} (h : src.length < 2 ^ 32) (fold : Bool) (buf : Buffer)
    (unit : Unit) (hne : src ≠ []) :
    (copySlice src fold buf unit).1.latest (copySlice src fold buf unit).2 = src := by
  rw [copySlice]
  split
  · next hfold =>
    rw [Bool.and_eq_true, decide_eq_true_eq] at hfold
    rw [Unit.latest, if_neg fun h0 => hne (List.length_eq_zero_iff.1 h0)]
    exact unit.data_store (Nat.le_of_lt_succ hfold.2)
  · rw [← List.length_append]
    exact latest_segment h

theorem foldField_latest {r r' : Unit × Buffer} (h : foldField r.2 r.1 = .ok r') :
    r'.1.latest r'.2 = r.1.latest r.2 := by
  obtain ⟨u, buf⟩ := r
  rw [foldField] at h
  dsimp only at h
  split at h
  · next hfold =>
    obtain ⟨src, hsrc, h⟩ := Res.bind_eq_ok.1 h
    cases h
    have hload := access_eq_ok.1 hsrc
    have hlen := load_length hload
    have hlt : u.segLen.toNat < 4 := UInt32.lt_iff_toNat_lt.1 hfold.2.2
    have hne : u.segLen.toNat ≠ 0 := fun h0 => hfold.2.1 (UInt32.toNat_inj.1 h0)
    have hdata := u.data_store (Nat.le_of_lt_succ (hlen.symm ▸ hlt) : src.length ≤ 3)
    rw [hlen] at hdata
    rw [Unit.latest, Unit.latest, if_neg hne, if_pos hfold.1, hdata]
    rw [Storage.load] at hload
    split at hload
    · exact (Option.some.inj hload).symm
    · cases hload
  · cases h
    rfl

/-- What was written stands in front of the buffer, or in the unit. -/
theorem Wrote.latest {c : Option ℕ} {B : Buffer} {r : Unit × Buffer} {Q : Piece UInt32 → Prop}
    (h : Wrote c B r Q) (hB : B.length < 2 ^ 31) :
    ∃ p, Q p ∧ r.1.latest r.2 = p.words := by
  obtain ⟨p, hout, ⟨hsized, -⟩, hne, hlt, -, hQ⟩ := h
  refine ⟨p, hQ (by omega), ?_⟩
  rw [hout, Unit.latest]
  cases p with
  | inl ws =>
    obtain ⟨hlen, hdata, -⟩ := hsized
    rw [if_neg (by rw [hlen]; exact fun h0 => hne (List.length_eq_zero_iff.1 h0)), hdata]
    rfl
  | out ws =>
    obtain ⟨hlen, hseg, -⟩ := hsized
    rw [if_pos hlen, hseg]
    exact List.take_left

/-- Without gaps, no more words were written than the units have. -/
theorem Stored.length_le_size {base buf : Buffer} {us : List Unit} (h : Stored false base us buf) :
    buf.length ≤ base.length + (us.map Unit.size).sum := by
  induction h with
  | nil => exact Nat.le_add_right _ _
  | gap w hg _ _ => cases hg
  | kept _ _ _ ih =>
    rw [List.map_cons, List.sum_cons]
    omega
  | segment ws h0 _ hlen _ _ ih =>
    rw [List.map_cons, List.sum_cons, List.length_append, Unit.size, if_pos h0, hlen]
    omega

/-! ### Arrays and maps -/

/-- The units of an array and the pieces of its cells: where a unit has words, they are those
    of the piece. -/
theorem serializeArray_pieces {us : List Unit} {base buf out : Buffer} {u : Unit}
    (h : Stored true base us buf) (hl : ∀ x ∈ us, x.len ≤ (bestArraySize us).1) (hne : us ≠ [])
    (hok : serializeArray us buf base.length = .ok (u, out)) :
    ∃ ps w, out = w ++ base ∧ u = segment base.length out.length ∧ w.length < 2 ^ 32 ∧
      IsArray (bestArraySize us).1 (ps.map (pickPiece (bestArraySize us).1)) w ∧
      List.Forall₂ (fun x p => ¬x.IsNil → x.words buf = p.words) us ps := by
  obtain ⟨us', hfill, hok'⟩ := serializeArray_fill hok
  have hbest := bestArraySize_fill hfill
  obtain ⟨A, r, rfl, hel, hsp, hw⟩ := (h.fill hfill).pieces (not_nil_fill hfill)
  have hfit := fits_of_len hw (bestArraySize_fst us').1 (len_le_fill hfill hl)
  have hne' : us' ≠ [] := by
    rintro rfl
    cases hfill
    exact hne rfl
  obtain ⟨w, rfl, harray, hwlen, hu⟩ := serializeArray_gaps hel hsp hfit hne' hok'
  rw [hbest] at harray
  refine ⟨r.map Prod.snd, w, rfl, hu, ?_, harray, ?_⟩
  · have hsize := harray.size
    rw [harray.eq, length_arrayWords harray.fits]
    omega
  · refine List.forall₂_iff_get.2 ⟨hfill.length_eq.trans hw.length_eq, fun i hi hi' hn => ?_⟩
    have hi'' : i < us'.length := hfill.length_eq ▸ hi
    rw [← (hfill.get hi hi'').eq_of_not_nil hn]
    exact (hw.get hi'' hi').1

/-- The units of a map and the pieces of its cells. -/
theorem serializeMap_pieces {hash : List UInt8 → UInt32 → V128} {seeds : ℕ → UInt32}
    {keys : List (List UInt8)} {obj : PerfectHashObject} {index : List UInt8}
    {us : List (Unit × Unit)} {base buf out : Buffer} {u : Unit}
    (hbuild : PerfectHashObject.build hash (keys.map some) seeds true = .ok obj)
    (hd : obj.data = some index) (hkeys : keys.length = us.length)
    (h : Stored true base (flat us) buf)
    (hl₁ : ∀ x ∈ us.map Prod.fst, x.len ≤ (bestArraySize (us.map Prod.fst)).1)
    (hl₂ : ∀ x ∈ us.map Prod.snd, x.len ≤ (bestArraySize (us.map Prod.snd)).1) (hne : us ≠ [])
    (hok : serializeMap index us buf base.length = .ok (u, out)) :
    ∃ ps w pos, out = w ++ base ∧ u = segment base.length out.length ∧ w.length < 2 ^ 32 ∧
      IsMap (bestArraySize (us.map Prod.fst)).1 (bestArraySize (us.map Prod.snd)).1 index
        (ps.map (pickPair (bestArraySize (us.map Prod.fst)).1 (bestArraySize (us.map Prod.snd)).1))
          w ∧
      IsKeyed hash keys pos index ∧
      List.Forall₂ (fun x p => (¬x.1.IsNil → x.1.words buf = p.1.words) ∧
        (¬x.2.IsNil → x.2.words buf = p.2.words))
        us ps := by
  -- A nil unit is written as the one it is filled with, and the others are left as they are.
  obtain ⟨us', hfill, hok'⟩ := serializeMap_fill hok
  have hlen : us.length = us'.length := hfill.length_eq
  have hbest₁ := bestArraySize_fill hfill.fst
  have hbest₂ := bestArraySize_fill hfill.snd
  have hl₁' := len_le_fill hfill.fst hl₁
  have hl₂' := len_le_fill hfill.snd hl₂
  obtain ⟨-, pos, -, hkeyed⟩ := IsKeyed.of_build hbuild hd
  obtain ⟨A, r, hbuf, hel, hsp, hw⟩ := (h.fill hfill.flat).pieces (not_nil_fill hfill.flat)
  obtain ⟨ps, hps, hpairs⟩ := pairs_of_flat hel
  have hhas := has_pairs (hps.symm ▸ hw)
  have hfit₁ : ∀ p ∈ ps, (pickPiece (bestArraySize (us'.map Prod.fst)).1 p.1).Fits
      (bestArraySize (us'.map Prod.fst)).1 := by
    have hfst : List.Forall₂ (Unit.Has buf) (us'.map Prod.fst) (ps.map Prod.fst) := by
      rw [List.forall₂_map_left_iff, List.forall₂_map_right_iff]
      exact hhas.imp fun _ _ h => h.1
    exact fun p hp => fits_of_len hfst (bestArraySize_fst _).1 hl₁' _ (List.mem_map_of_mem hp)
  have hfit₂ : ∀ p ∈ ps, (pickPiece (bestArraySize (us'.map Prod.snd)).1 p.2).Fits
      (bestArraySize (us'.map Prod.snd)).1 := by
    have hsnd : List.Forall₂ (Unit.Has buf) (us'.map Prod.snd) (ps.map Prod.snd) := by
      rw [List.forall₂_map_left_iff, List.forall₂_map_right_iff]
      exact hhas.imp fun _ _ h => h.2
    exact fun p hp => fits_of_len hsnd (bestArraySize_fst _).1 hl₂' _ (List.mem_map_of_mem hp)
  have hne' : us' ≠ [] := by
    rintro rfl
    cases hfill
    exact hne rfl
  rw [hbuf] at hok'
  obtain ⟨w, rfl, hmap, hu⟩ := serializeMap_gaps hps.symm hpairs hsp hfit₁ hfit₂ hne' hok'
  rw [hbest₁, hbest₂] at hmap
  refine ⟨ps, w, pos, rfl, hu, ?_, hmap, hkeyed, ?_⟩
  · have hsize := hmap.size
    rw [hmap.eq, length_mapWords _ _ _ hmap.fits]
    omega
  · refine List.forall₂_iff_get.2 ⟨hlen.trans hhas.length_eq, fun i hi hi' => ?_⟩
    have hi'' : i < us'.length := hlen ▸ hi
    obtain ⟨hf₁, hf₂⟩ := hfill.get hi hi''
    obtain ⟨hh₁, hh₂⟩ := hhas.get hi'' hi'
    exact ⟨fun hn => by rw [← hf₁.eq_of_not_nil hn]; exact hh₁.1, fun hn => by
      rw [← hf₂.eq_of_not_nil hn]; exact hh₂.1⟩

/-! ### All encoders -/

theorem serializeString_latest {str : List UInt8} {buf : Buffer} {r : Unit × Buffer}
    (h : serializeString str buf = .ok r) : r.1.latest r.2 = stringWords str := by
  have hlt := (serializeString_wrote h).1
  rw [serializeString] at h
  split at h
  · cases h
  · have hlen : (stringWords str).length < 2 ^ 32 := (length_stringWords_lt hlt).trans (by decide)
    split at h
    · next w hw =>
      cases h
      rw [hw]
      rfl
    · next ws _ =>
      cases h
      rw [← List.length_append]
      exact latest_segment hlen

theorem serializeScalars_object {m : ℕ} {core : List (List UInt32)} {buf : Buffer}
    {r : Unit × Buffer} (hm : m = 1 ∨ m = 2) (hcore : ∀ ws ∈ core, ws.length = m)
    (h : serializeScalars m core buf = .ok r) :
    IsObject (r.1.latest r.2) := by
  rw [serializeScalars] at h
  split at h
  · cases h
    change IsObject [UInt32.ofNat m]
    refine isObject_cons fun _ => ?_
    rcases hm with rfl | rfl <;> decide
  · split at h
    · cases h
    · next hlt =>
      cases h
      have hsum : core.flatten.length = core.length * m := by
        rw [List.length_flatten, List.map_congr_left hcore, List.map_const', List.sum_replicate,
          smul_eq_mul]
      have hle : core.length ≤ m * core.length := Nat.le_mul_of_pos_left _ (by omega)
      rw [Nat.mul_comm] at hsum
      rw [← List.cons_append, latest_segment (by rw [List.length_cons]; omega)]
      refine isObject_cons fun _ => ?_
      rw [arrayHead_mark (by omega) (by omega)]
      omega

/-- What the encoders make of an object is one. -/
theorem Encoded.isObject {hash : List UInt8 → UInt32 → V128} {r : Unit × Buffer}
    (h : Encoded hash r) :
    IsObject (r.1.latest r.2) := by
  -- By cases on the encoder; what the copies and the folds make of an object is the object again.
  induction h with
  | string h => rw [serializeString_latest h]; exact isObject_stringWords _
  | scalars hm hcore h => exact serializeScalars_object hm hcore h
  | @array us base buf r hst hl h =>
    by_cases hnil : us = []
    · subst hnil
      cases h
      exact Extension.isObject_mark (.repeated .string)
    · obtain ⟨ps, w, hout, hu, hlt, harray, -⟩ := serializeArray_pieces hst hl hnil h
      rw [hu, hout, latest_segment hlt]
      exact harray.isObject
  | @map seeds keys obj index us base buf r hbuild hd hkeys hst hl₁ hl₂ h =>
    by_cases hnil : us = []
    · subst hnil
      cases h
      exact Extension.isObject_mark (.map .string .string)
    · obtain ⟨ps, w, pos, hout, hu, hlt, hmap, hkeyed, hps⟩ :=
        serializeMap_pieces hbuild hd hkeys hst hl₁ hl₂ hnil h
      rw [hu, hout, latest_segment hlt]
      exact hmap.isObject hkeyed (by rw [List.length_map, hkeys, hps.length_eq])
  | @message us base buf r hst h =>
    have hl : ∀ x ∈ us, x.len ≤ 3 := fun x hx => (hst.inBuffer x hx).1
    obtain ⟨w, hout, hmsg, htotal⟩ := serializeMessage_linked hl h
    have hlen := hst.length_le_size
    have hsize := serializeMessage_size hl h
    -- The sizes that are checked bound the words that are written.
    have hw : w.length < 2 ^ 31 := by
      have hl' : ∀ x ∈ us.rdropWhile (fun x => decide (x.size = 0)), x.len ≤ 3 := fun x hx =>
        hl x ((List.rdropWhile_prefix _ _).subset hx)
      have hle := List.sum_le_sum fun x (_ : x ∈ us.rdropWhile fun x => decide (x.size = 0)) =>
        x.width_le_size
      have hsec := hmsg.sections
      rw [hmsg.eq, length_messageWords, outers_linked, widths_linked hl', List.length_nil]
      omega
    obtain ⟨front, hfront⟩ := hst.front
    rw [serializeMessage_unit h, hout, hfront, ← List.append_assoc, latest_segment]
    · exact hmsg.isObject.append front
    · rw [hfront, List.length_append] at hlen
      rw [List.length_append]
      omega
  | protobuf h hlt =>
    obtain ⟨p, hlayout, hp⟩ := ((Extension.serialize_writes _ _ _).wrote _ _ _ _ _ h).latest hlt
    rw [hp]
    exact hlayout.isObject
  | fold _ h ih => rw [foldField_latest h]; exact ih
  | copied fold buf unit _ ih =>
    obtain ⟨w, tail, hw, hmark⟩ := ih
    rw [copySlice_latest (length_latest _ _) fold buf unit (by rw [hw]; exact List.cons_ne_nil _ _)]
    exact ⟨w, tail, hw, hmark⟩

/-! ## Objects in cells -/

/-- The words of an object that is not taken for a link: the link `3` leads to itself. -/
def Unlinked (ws : List UInt32) : Prop := IsObject ws ∨ ws = [3]

/-- A cell with an object: it is in the cell, and `Field::GetObject` returns the cell, or the
    cell has a link, and `Field::GetObject` follows it to the object. -/
def Field.HoldsObject (b inline : Bool) (ws : List UInt32) (f : Field) : Prop :=
  if inline then ∃ tail, f.ptr = .at (ws ++ tail) ∧ f.getObject b = .ok f.ptr
  else ∃ d cell tail, d < 2 ^ 30 ∧ f.ptr = .at (linkWord d :: cell) ∧
    (linkWord d :: cell).drop d = ws ++ tail ∧
    f.getObject b = .ok (.at (ws ++ tail))

theorem Unlinked.ne_nil {ws : List UInt32} (h : Unlinked ws) : ws ≠ [] := by
  rcases h with ⟨w, tail, rfl, -⟩ | rfl
  · exact List.cons_ne_nil _ _
  · exact List.cons_ne_nil _ _

theorem Unlinked.not_nil {u : Unit} {buf : Buffer} (h : Unlinked (u.words buf)) : ¬u.IsNil := by
  rintro ⟨h0, hs⟩
  refine h.ne_nil ?_
  rw [Unit.words, if_pos h0, hs]
  exact List.take_zero

/-- An object in a cell is found there. -/
theorem Unlinked.getObject {ws : List UInt32} (h : Unlinked ws) (hle : ws.length ≤ 3) (b : Bool)
    (w : ℕ) (tail : List UInt32) :
    Field.getObject b ⟨.at (ws ++ tail), w⟩ = .ok (.at (ws ++ tail)) := by
  rcases h with ⟨x, xs, rfl, hx⟩ | rfl
  · simp [Field.getObject, Ptr.reaches, Ptr.load, Ptr.null, hx hle]
  · simp [Field.getObject, Ptr.reaches, Ptr.load, Ptr.null, Ptr.add]

theorem holdsObject_of_shows {M m w : ℕ} {v : List UInt32} {p : Piece UInt32} (b : Bool)
    (h : Shows 0 linkWord (2 ^ 30) M m v (pickPiece m p)) (hf : (pickPiece m p).Fits m) (hm : m ≤ 3)
    (ho : Unlinked p.words) :
    Field.HoldsObject b (decide (p.words.length ≤ m)) p.words ⟨.at v, w⟩ := by
  have hwords := words_pickPiece m p
  cases hp : pickPiece m p with
  | inl ws =>
    rw [hp] at h hf hwords
    obtain rfl : ws = p.words := hwords
    obtain ⟨tail, rfl⟩ := h
    have hle : p.words.length ≤ m := hf
    rw [Field.HoldsObject, decide_eq_true hle, if_pos rfl]
    exact ⟨_, rfl, ho.getObject (hle.trans hm) b w _⟩
  | out ws =>
    rw [hp] at h hwords
    obtain rfl : ws = p.words := hwords
    obtain ⟨d, cell, tail, hd, rfl, hdrop, -⟩ := h
    have hlt : ¬p.words.length ≤ m := fun hle => by
      cases p with
      | inl ws => cases hp
      | out ws => rw [pickPiece, if_pos (by exact hle)] at hp; cases hp
    rw [Field.HoldsObject, decide_eq_false hlt, if_neg Bool.false_ne_true]
    have hne : (linkWord d :: cell).drop d ≠ [] := by
      rw [hdrop]
      exact List.append_ne_nil_of_left_ne_nil ho.ne_nil _
    refine ⟨d, cell, tail, hd, rfl, hdrop, ?_⟩
    rw [getObject_link rfl hd hne, hdrop]

/-- The cells of an array hold its elements. -/
theorem serializeArray_holds {us : List Unit} {base buf out : Buffer} {u : Unit}
    (h : Stored true base us buf) (hl : ∀ x ∈ us, x.len ≤ (bestArraySize us).1)
    (hok : serializeArray us buf base.length = .ok (u, out)) (b : Bool) {i : ℕ} (hi : i < us.length)
    (ho : Unlinked (us[i].words buf)) :
    ∃ m body, openArray b (.at out) = .ok ⟨.at body, us.length, m⟩ ∧
      Field.HoldsObject b (decide ((us[i].words buf).length ≤ m)) (us[i].words buf)
        ⟨.at (body.drop (m * i)), m⟩ := by
  obtain ⟨ps, w, rfl, -, -, harray, hps⟩ :=
    serializeArray_pieces h hl (List.length_pos_iff.1 (Nat.zero_lt_of_lt hi)) hok
  have hlen : us.length = ps.length := hps.length_eq
  have hips : i < ps.length := hlen ▸ hi
  have hi' : i < (ps.map (pickPiece (bestArraySize us).1)).length := by rwa [List.length_map]
  refine ⟨_, _, by rw [openArray_eq harray b base, List.length_map, hlen], ?_⟩
  have hshow := harray.shows base hi'
  have hfit := harray.fits _ (List.getElem_mem hi')
  rw [List.getElem_map] at hshow hfit
  have hwords : us[i].words buf = ps[i].words := hps.get hi hips ho.not_nil
  rw [hwords] at ho ⊢
  exact holdsObject_of_shows b hshow hfit harray.le ho

/-- The cells of a map hold its keys and values. -/
theorem serializeMap_holds {hash : List UInt8 → UInt32 → V128} {seeds : ℕ → UInt32}
    {keys : List (List UInt8)} {obj : PerfectHashObject} {index : List UInt8}
    {us : List (Unit × Unit)} {base buf out : Buffer} {u : Unit}
    (hbuild : PerfectHashObject.build hash (keys.map some) seeds true = .ok obj)
    (hd : obj.data = some index) (hkeys : keys.length = us.length)
    (h : Stored true base (flat us) buf)
    (hl₁ : ∀ x ∈ us.map Prod.fst, x.len ≤ (bestArraySize (us.map Prod.fst)).1)
    (hl₂ : ∀ x ∈ us.map Prod.snd, x.len ≤ (bestArraySize (us.map Prod.snd)).1)
    (hok : serializeMap index us buf base.length = .ok (u, out)) (b : Bool) {i : ℕ}
    (hi : i < us.length) :
    ∃ w rest m₁ m₂, out = w :: rest ∧ ((w >>> 30) &&& 3).toNat = m₁ ∧
      ((w >>> 28) &&& 3).toNat = m₂ ∧
      let cell := (out.drop (wordSize index.length)).drop ((m₁ + m₂) * i)
      (Unlinked (us[i].1.words buf) → Field.HoldsObject b (decide ((us[i].1.words buf).length ≤ m₁))
        (us[i].1.words buf) ⟨.at cell, m₁⟩) ∧
      (Unlinked (us[i].2.words buf) → Field.HoldsObject b (decide ((us[i].2.words buf).length ≤ m₂))
        (us[i].2.words buf) ⟨.at (cell.drop m₁), m₂⟩) := by
  obtain ⟨ps, w, pos, rfl, -, -, hmap, hkeyed, hps⟩ := serializeMap_pieces hbuild hd hkeys h hl₁ hl₂
    (List.length_pos_iff.1 (Nat.zero_lt_of_lt hi)) hok
  have hlen : us.length = ps.length := hps.length_eq
  have hips : i < ps.length := hlen ▸ hi
  generalize hm₁ : (bestArraySize (us.map Prod.fst)).1 = m₁ at hmap
  generalize hm₂ : (bestArraySize (us.map Prod.snd)).1 = m₂ at hmap
  have hi' : i < (ps.map (pickPair m₁ m₂)).length := by rwa [List.length_map]
  obtain ⟨hshow₁, hshow₂⟩ := hmap.shows base hi'
  obtain ⟨hfit₁, hfit₂⟩ := hmap.fits _ (List.getElem_mem hi')
  rw [List.getElem_map] at hshow₁ hshow₂ hfit₁ hfit₂
  obtain ⟨hwords₁, hwords₂⟩ := hps.get hi hips
  obtain ⟨head, tail, hhead, -, hkeyWidth, hvalueWidth⟩ := hmap.head hkeyed
  refine ⟨head, tail ++ base, m₁, m₂, by rw [hhead, List.cons_append], hkeyWidth, hvalueWidth, ?_⟩
  rw [hmap.drop_index]
  refine ⟨fun ho => ?_, fun ho => ?_⟩
  · have hwords : us[i].1.words buf = ps[i].1.words := hwords₁ ho.not_nil
    rw [hwords] at ho ⊢
    exact holdsObject_of_shows b hshow₁ hfit₁ hmap.le₁ ho
  · have hwords : us[i].2.words buf = ps[i].2.words := hwords₂ ho.not_nil
    rw [hwords] at ho ⊢
    exact holdsObject_of_shows b hshow₂ hfit₂ hmap.le₂ ho

/-- The cells of a message hold its fields, if no link is too long. -/
theorem serializeMessage_holds {us : List Unit} {buf out : Buffer} {last : ℕ} {u : Unit}
    (hin : ∀ x ∈ us, x.InBuffer last buf) (hok : serializeMessage us buf last = .ok (u, out))
    (b : Bool) {id : ℕ} {x : Unit} (hx : us[id]? = some x) (ho : Unlinked (x.words buf))
    (hlt : x.IsSegment → linkDistance us buf id x < 2 ^ 30) :
    ∃ f, getField b out id = .ok f ∧ f.HoldsObject b (decide (x.len ≠ 0)) (x.words buf) := by
  rcases getField_cell (fun x hx => (hin x hx).1) hok b id with ⟨hnil, -⟩ |
    ⟨y, v, front, n, hy, -, hf, ⟨tail, hv⟩, hout, hn, hview, hlen⟩
  · exact absurd (hnil x hx) ho.not_nil
  · obtain rfl : x = y := Option.some.inj (hx.symm.trans hy)
    refine ⟨_, hf, ?_⟩
    by_cases h0 : x.len = 0
    · have hs : x.IsSegment := ⟨h0, fun hs => ho.not_nil ⟨h0, hs⟩⟩
      obtain ⟨-, hpos, -⟩ := Unit.InBuffer.segment hin hx hs
      obtain ⟨hlink, hdrop⟩ := link_cell hs hv hout hn hview hpos
      have hd := hlt hs
      rw [linkDistance, ← hlen] at hd
      obtain ⟨rest, hrest⟩ := Unit.view_words hs buf
      rw [hrest] at hdrop
      rw [Field.HoldsObject, decide_eq_false (not_not.2 h0), if_neg Bool.false_ne_true]
      refine ⟨_, tail, rest, hd, congrArg Ptr.at hlink, hlink ▸ hdrop, ?_⟩
      rw [getObject_link hlink hd
        (by rw [hdrop]; exact List.append_ne_nil_of_left_ne_nil ho.ne_nil _), hdrop]
    · have hwords : x.words buf = x.data := by rw [Unit.words, if_neg h0]
      rw [Unit.cell, if_pos h0] at hv
      rw [Field.HoldsObject, decide_eq_true h0, if_pos rfl]
      refine ⟨tail, by rw [hv, hwords], ?_⟩
      rw [hwords] at ho
      rw [hv]
      refine ho.getObject ?_ b _ tail
      rw [Unit.length_data (hin x (List.mem_of_getElem? hx)).1]
      exact (hin x (List.mem_of_getElem? hx)).1

/-! ## Objects that were detected -/

/-- The first word of what is detected as an object, of no more than three words, has not the
    mark of a link, unless it is that of an array without elements. -/
def HeadUnlinked (t : Ty) (v : List UInt32) (k : ℕ) : Prop :=
  ∃ w rest, v = w :: rest ∧ 1 ≤ k ∧
    (k ≤ 3 → w.toNat % 4 = 3 → w = 3 ∧ k = 1 ∧ (t = .scalars ∨ ∃ elem, t = .array elem))

theorem detectArray_head {b : Bool} {t : Ty} (ht : t = .scalars ∨ ∃ elem, t = .array elem)
    {v : List UInt32} {s : WordSlice} (h : detectArray b (.at v) = .ok s)
    (hs : s ≠ WordSlice.null) :
    ∃ k, s = ⟨.at v, k⟩ ∧ HeadUnlinked t v k := by
  rw [detectArray, if_neg (by simp [Ptr.null])] at h
  obtain ⟨w, hw, h⟩ := Res.bind_eq_ok.1 h
  dsimp only at h
  split at h
  · cases h
    exact absurd rfl hs
  · next hwidth =>
    split at h
    · cases h
      exact absurd rfl hs
    · cases h
      rcases v with _ | ⟨w', rest⟩
      · cases hw
      · obtain rfl : w' = w := by
          rw [Ptr.load, List.head?_cons, access_some] at hw
          exact Except.ok.inj hw
        refine ⟨_, rfl, w', rest, rfl, Nat.le_add_right _ _, fun hk h3 => ?_⟩
        rw [and_three, h3, UInt32.toNat_shiftRight, Nat.shiftRight_eq_div_pow] at hk
        change 1 + 3 * (w'.toNat / 2 ^ 2) ≤ 3 at hk
        obtain rfl : w' = 3 := by
          refine UInt32.toNat_inj.1 ?_
          change w'.toNat = 3
          omega
        exact ⟨rfl, rfl, ht⟩

theorem stringMark_mem {b : Bool} {sft mark : ℕ} {p : List UInt8} {str : ByteSlice}
    (h : stringMark b sft mark p = .ok (some str)) : str.mem.length ≤ p.length := by
  induction p generalizing sft mark with
  | nil =>
    rw [stringMark] at h
    split at h <;> cases h
  | cons c p ih =>
    rw [stringMark] at h
    split at h
    · split at h
      · exact (ih h).trans (Nat.le_succ _)
      · dsimp only at h
        split at h
        · cases h
        · cases h
          exact Nat.le_succ _
    · cases h

theorem detectString_head {b : Bool} {t : Ty} {v : List UInt32} {s : WordSlice}
    (h : detectString b (.at v) = .ok s) (hs : s ≠ WordSlice.null) :
    ∃ k, s = ⟨.at v, k⟩ ∧ HeadUnlinked t v k := by
  rw [detectString] at h
  obtain ⟨str, hstr, h⟩ := Res.bind_eq_ok.1 h
  cases str with
  | none =>
    cases h
    exact absurd rfl hs
  | some str =>
    cases h
    refine ⟨_, rfl, ?_⟩
    rw [readString] at hstr
    split at hstr
    · cases hstr
    · dsimp only at hstr
      rcases v with _ | ⟨w, rest⟩
      · cases hstr
      · have hlen := length_bytesOf (w :: rest)
        have hw : bytesOf (w :: rest) = UInt8.ofNat w.toNat ::
          (toLE 3 (w.toNat / 256) ++ bytesOf rest) := rfl
        rw [hw] at hlen hstr
        dsimp only at hstr
        split at hstr
        · cases hstr
        · next hlow =>
          rw [not_not] at hlow
          have hmod : w.toNat % 4 = 0 := by
            have h4 : (UInt8.ofNat w.toNat &&& 3).toNat = w.toNat % 256 % 2 ^ 2 := by
              rw [UInt8.toNat_and, UInt8.toNat_ofNat']
              exact Nat.and_two_pow_sub_one_eq_mod _ 2
            rw [hlow] at h4
            change 0 = w.toNat % 256 % 2 ^ 2 at h4
            omega
          have hmem : str.mem.length + 1 ≤ 4 * (w :: rest).length := by
            rw [← hlen, List.length_cons, Nat.succ_le_succ_iff]
            split at hstr
            · split at hstr
              · cases hstr
              · cases hstr
                exact le_rfl
            · exact stringMark_mem hstr
          exact ⟨w, rest, rfl, by omega, fun _ h3 => by omega⟩

theorem detectMap_head {b : Bool} {t : Ty} {v : List UInt32} {s : WordSlice}
    (h : detectMap b (.at v) = .ok s) (hs : s ≠ WordSlice.null) :
    ∃ k, s = ⟨.at v, k⟩ ∧ HeadUnlinked t v k := by
  rw [detectMap] at h
  obtain ⟨w, hw, h⟩ := Res.bind_eq_ok.1 h
  dsimp only at h
  rcases v with _ | ⟨w', rest⟩
  · cases hw
  · split at h
    · cases h
      exact absurd rfl hs
    · next hwidth =>
      obtain ⟨ph, hph, h⟩ := Res.bind_eq_ok.1 h
      obtain ⟨ph', hph', hknown⟩ := ofData_safe (List.cons_ne_nil w' rest)
        (if b = true then (w' :: rest).length * 4 % 2 ^ 32 else 0)
      obtain rfl : ph = ph' := Except.ok.inj (hph.symm.trans hph')
      split at h
      · cases h
        exact absurd rfl hs
      · next hdata =>
        obtain ⟨-, hmem, hsize⟩ := hknown hdata
        obtain ⟨n, hn, h⟩ := Res.bind_eq_ok.1 h
        -- The number of pairs is in the lower bits of the same word.
        have hread : n = w'.toNat % 2 ^ 28 := by
          rw [PerfectHash.size, hmem] at hn
          have hle : readLE (bytesOf (w' :: rest)) 0 4 = .ok w'.toNat := by
            rw [readLE, List.drop_zero, bytesOf_cons, Storage.load_of_le (by simp), access_some,
              Res.ok_bind, List.take_left' (length_wordBytes w'), wordBytes, le_toLE w'.toNat_lt]
            rfl
          dsimp only at hn
          rw [hle] at hn
          exact (Except.ok.inj hn).symm
        split at h
        · cases h
          exact absurd rfl hs
        · cases h
          refine ⟨_, rfl, w', rest, rfl, ?_, fun hk h3 => ?_⟩
          · rw [wordSize]
            omega
          · -- Three pairs have six words.
            have hn3 : 3 ≤ n := by omega
            have hmul := Nat.mul_le_mul
              (show 2 ≤ ((w >>> 30) &&& 3).toNat + ((w >>> 28) &&& 3).toNat by omega) hn3
            omega

theorem detectMessage_head {early b : Bool} {t : Ty} {v : List UInt32} {s : WordSlice}
    (h : detectMessage early b (.at v) = .ok s) (hs : s ≠ WordSlice.null) :
    ∃ k, s = ⟨.at v, k⟩ ∧ HeadUnlinked t v k := by
  rw [detectMessage] at h
  obtain ⟨w, hw, h⟩ := Res.bind_eq_ok.1 h
  dsimp only at h
  split at h
  · cases h
    exact absurd rfl hs
  · obtain ⟨body, -, h⟩ := Res.bind_eq_ok.1 h
    split at h
    · cases h
      exact absurd rfl hs
    · cases h
      rcases v with _ | ⟨w', rest⟩
      · cases hw
      · obtain rfl : w' = w := by
          rw [Ptr.load, List.head?_cons, access_some] at hw
          exact Except.ok.inj hw
        have hlow : (w' &&& 0xff).toNat = w'.toNat % 2 ^ 8 := by
          rw [UInt32.toNat_and]
          exact Nat.and_two_pow_sub_one_eq_mod _ 8
        refine ⟨_, rfl, w', rest, rfl, by omega, fun hk h3 => ?_⟩
        omega

/-- The loop only makes a slice longer. -/
theorem scan_longer {α : Type} {child : α → Res WordSlice} {v : List UInt32} {k : ℕ} {cs : List α}
    {s : WordSlice} (h : scan child ⟨.at v, k⟩ cs = .ok s) : ∃ k', s = ⟨.at v, k'⟩ ∧ k ≤ k' := by
  induction cs with
  | nil =>
    cases h
    exact ⟨k, rfl, le_rfl⟩
  | cons c cs ih =>
    rw [scan] at h
    obtain ⟨t, -, h⟩ := Res.bind_eq_ok.1 h
    split at h
    · next hpass =>
      cases h
      obtain ⟨v' | _, size⟩ := t
      · have hlt : v'.length + k < v.length + size := of_decide_eq_true hpass
        exact ⟨_, rfl, by dsimp only; omega⟩
      · cases hpass
    · exact ih h

/-- What is detected, in a buffer that need not be well formed, is not taken for a link. -/
theorem detect_unlinked {schema : Schema} {early b : Bool} {fuel : ℕ} {t : Ty} {v : List UInt32}
    {s : WordSlice} (h : detect schema early b fuel t (.at v) = .ok s) (hs : s ≠ WordSlice.null) :
    ∃ k, s = ⟨.at v, k⟩ ∧ (k ≤ v.length → Unlinked (v.take k)) := by
  cases fuel with
  | zero => cases h
  | succ fuel =>
    rw [detect] at h
    obtain ⟨view, hview, h⟩ := Res.bind_eq_ok.1 h
    split at h
    · cases h
      exact absurd rfl hs
    · next hne =>
      -- The head of what is found is no link, but for the mark of an array without elements.
      obtain ⟨k, rfl, w, rest, rfl, hk, hmark⟩ : ∃ k, view = ⟨.at v, k⟩ ∧ HeadUnlinked t v k := by
        cases t with
        | scalar => cases hview; exact absurd rfl hne
        | str => exact detectString_head hview hne
        | bools => exact detectString_head hview hne
        | scalars => exact detectArray_head (.inl rfl) hview hne
        | array t => exact detectArray_head (.inr ⟨t, rfl⟩) hview hne
        | map k t => exact detectMap_head hview hne
        | message name => exact detectMessage_head hview hne
      obtain ⟨cs, hcs, h⟩ := Res.bind_eq_ok.1 h
      obtain ⟨k', rfl, hle⟩ := scan_longer h
      refine ⟨k', rfl, fun hin => ?_⟩
      obtain ⟨j, rfl⟩ := Nat.exists_eq_succ_of_ne_zero (by omega : k' ≠ 0)
      have hlen : ((w :: rest).take (j + 1)).length = j + 1 := by
        rw [List.length_take, Nat.min_eq_left hin]
      rw [List.take_succ_cons] at hlen ⊢
      by_cases h3 : w.toNat % 4 = 3 ∧ k ≤ 3
      · -- The array has no elements, so that the loop has nothing to do.
        obtain ⟨rfl, rfl, ht⟩ := hmark h3.2 h3.1
        obtain rfl : cs = [] := by
          rcases ht with rfl | ⟨elem, rfl⟩
          · cases hcs
            rfl
          · have hopen : openArray false (.at (3 :: rest)) = .ok ⟨.at rest, 0, 3⟩ := rfl
            rw [Ty.children, hopen] at hcs
            cases hcs
            rfl
        rw [scan] at h
        obtain ⟨-, hj⟩ := WordSlice.mk.inj (Except.ok.inj h)
        obtain rfl : j = 0 := by omega
        exact .inr rfl
      · refine .inl (isObject_cons fun hl h0 => h3 ⟨h0, ?_⟩)
        omega

/-! ## The law -/

/-- What the encoders make of an object is one: it has words, and no more than three of them
    only if the first one has not the mark of a link. In the cells of an array or a map, and
    in those of a message if its links are not too long, an object that is not taken for a
    link is in the cell, where `Field::GetObject` finds it, or behind a link that it follows;
    links of messages whose fields were written without gaps are not too long. `Copy` makes
    of an object the same object; what `Detect` finds, in any buffer, has no such first word
    either if it is copied, or it is the word `3` alone. -/
theorem discriminator (hash : List UInt8 → UInt32 → V128) :
    (∀ r, Encoded hash r → IsObject (r.1.latest r.2)) ∧
    (∀ (us : List Unit) (base buf out : Buffer) (u : Unit), Stored true base us buf →
      (∀ x ∈ us, x.len ≤ (bestArraySize us).1) → serializeArray us buf base.length = .ok (u, out) →
      ∀ b i (hi : i < us.length), Unlinked (us[i].words buf) →
        ∃ m body, openArray b (.at out) = .ok ⟨.at body, us.length, m⟩ ∧
          Field.HoldsObject b (decide ((us[i].words buf).length ≤ m)) (us[i].words buf)
            ⟨.at (body.drop (m * i)), m⟩) ∧
    (∀ (seeds : ℕ → UInt32) (keys : List (List UInt8)) (obj : PerfectHashObject)
      (index : List UInt8)
      (us : List (Unit × Unit)) (base buf out : Buffer) (u : Unit),
      PerfectHashObject.build hash (keys.map some) seeds true = .ok obj → obj.data = some index →
      keys.length = us.length → Stored true base (flat us) buf →
      (∀ x ∈ us.map Prod.fst, x.len ≤ (bestArraySize (us.map Prod.fst)).1) →
      (∀ x ∈ us.map Prod.snd, x.len ≤ (bestArraySize (us.map Prod.snd)).1) →
      serializeMap index us buf base.length = .ok (u, out) → ∀ b i (hi : i < us.length),
        ∃ w rest m₁ m₂, out = w :: rest ∧ ((w >>> 30) &&& 3).toNat = m₁ ∧
          ((w >>> 28) &&& 3).toNat = m₂ ∧
          let cell := (out.drop (wordSize index.length)).drop ((m₁ + m₂) * i)
          (Unlinked (us[i].1.words buf) →
            Field.HoldsObject b (decide ((us[i].1.words buf).length ≤ m₁)) (us[i].1.words buf)
              ⟨.at cell, m₁⟩) ∧
          (Unlinked (us[i].2.words buf) →
            Field.HoldsObject b (decide ((us[i].2.words buf).length ≤ m₂)) (us[i].2.words buf)
              ⟨.at (cell.drop m₁), m₂⟩)) ∧
    (∀ (us : List Unit) (last : ℕ) (buf out : Buffer) (u : Unit), (∀ x ∈ us, x.InBuffer last buf) →
      serializeMessage us buf last = .ok (u, out) → ∀ b id x,
        us[id]? = some x → Unlinked (x.words buf) →
        (x.IsSegment → linkDistance us buf id x < 2 ^ 30) →
        ∃ f, getField b out id = .ok f ∧ f.HoldsObject b (decide (x.len ≠ 0)) (x.words buf)) ∧
    (∀ (us : List Unit) (last : ℕ) (base buf out : Buffer) (u : Unit), Stored false base us buf →
      serializeMessage us buf last = .ok (u, out) → ∀ id x, us[id]? = some x → x.IsSegment →
        linkDistance us buf id x < 2 ^ 30) ∧
    (∀ (src : List UInt32) (fold : Bool) (buf : Buffer) (unit : Unit),
      src ≠ [] → src.length < 2 ^ 32 →
      (copySlice src fold buf unit).1.latest (copySlice src fold buf unit).2 = src) ∧
    ∀ (schema : Schema) (early b : Bool) (fuel : ℕ) (t : Ty) (v : List UInt32) (s : WordSlice),
      detect schema early b fuel t (.at v) = .ok s → s ≠ WordSlice.null →
        ∃ k, s = ⟨.at v, k⟩ ∧ (k ≤ v.length → IsObject (v.take k) ∨ v.take k = [3]) := by
  refine ⟨fun r hr => hr.isObject, fun us base buf out u h hl hok b i hi ho =>
    serializeArray_holds h hl hok b hi ho,
    fun seeds keys obj index us base buf out u hbuild hd hkeys h hl₁ hl₂ hok b i hi =>
      serializeMap_holds hbuild hd hkeys h hl₁ hl₂ hok b hi,
    fun us last buf out u hin hok b id x hx ho hlt => serializeMessage_holds hin hok b hx ho hlt,
    fun us last base buf out u h hok id x hx hs => ?_,
    fun src fold buf unit hne hlt => copySlice_latest hlt fold buf unit hne,
    fun schema early b fuel t v s h hs => detect_unlinked h hs⟩
  exact (h.linkDistance_le hx hs).trans_lt
    (serializeMessage_size (fun x hx => (h.inBuffer x hx).1) hok)

/-- A copy of a string of three bytes, and the string as the element of an array. -/
theorem discriminator_string :
    IsObject ((copySlice [0x6362610c] true [] {}).1.latest (copySlice [0x6362610c] true [] {}).2) ∧
      ∃ m body, openArray true (.at [5, 0x6362610c]) = .ok ⟨.at body, 1, m⟩ ∧
        Field.HoldsObject true (decide ([0x6362610c].length ≤ m)) [0x6362610c]
          ⟨.at (body.drop (m * 0)), m⟩ := by
  have hstr : serializeString [0x61, 0x62, 0x63] [] = .ok ({ len := 1, d₀ := 0x6362610c }, []) := by
    decide +kernel
  have hobject : Unlinked [0x6362610c] := .inl (isObject_cons fun _ => by decide)
  exact ⟨(discriminator fun _ _ => ⟨0, 0, 0, 0⟩).1 _ (.copied true [] {} (.string hstr)),
    (discriminator fun _ _ => ⟨0, 0, 0, 0⟩).2.1 [{ len := 1, d₀ := 0x6362610c }]
    [] [] [5, 0x6362610c] { d₀ := 2, d₁ := 2 } (.kept (by decide) (by decide) .nil) (by decide)
    (by decide +kernel) true 0 (by decide) hobject⟩

/-- The field of a message, an array of three words for an element that has none: it is found,
    and copied as one word that has the mark of a link. -/
theorem copySlice_three :
    (getField true [0x100, 3] 0 >>=
      Field.detect (detect (fun _ => []) false true 2) true .scalars) =
        .ok ⟨.at [3], 1⟩ ∧
      copySlice [3] true [] {} = ({ len := 1, d₀ := 3 }, []) ∧
      serializeMessage [{ len := 1, d₀ := 3 }] [] 0 = .ok (segment 0 2, [0x100, 3]) ∧
      ((copySlice [3] true [] {}).1.latest (copySlice [3] true [] {}).2) = [3] ∧ ¬IsObject [3] := by
  refine ⟨by decide +kernel, by decide, by decide +kernel, by decide, ?_⟩
  rintro ⟨w, tail, hw, hmark⟩
  obtain ⟨rfl, -⟩ := List.cons.inj hw
  exact hmark (by decide) (by decide)

end ProtoCache

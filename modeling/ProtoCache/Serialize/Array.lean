import ProtoCache.Lib.Pointwise
import ProtoCache.Serialize.Cells

/-!
# Writing arrays and maps

* `serializeArray_spec`, `serializeMap_spec`: what is written is the array or the map
  of the elements (`arrayWords`, `mapWords`), in the width that takes the fewest
  words, on top of what was in the buffer.
-/

namespace ProtoCache

open Row

/-! ## The best width -/

/-- The cells of pieces that all have the width `m`. -/
def column (m : ℕ) (ps : List (Piece UInt32)) : List (ℕ × Piece UInt32) := ps.map fun p => (m, p)

/-- The pieces that the elements of one type have: of `k` words and not in the buffer,
    or else of one word if they are not in the buffer. -/
def Shaped : Option ℕ → Piece UInt32 → Prop
  | some k, p => ∃ ws, p = .inl ws ∧ ws.length = k
  | none, p => ∀ ws, p = .inl ws → ws.length ≤ 1

/-- A cell of `m` words for an element: just as wide as the element if all have the same
    width. -/
def InColumn (c : Option ℕ) (m : ℕ) (p : Piece UInt32) : Prop :=
  ∀ k, c = some k → m = k ∧ ∃ ws, p = .inl ws ∧ ws.length = k

@[simp] theorem outs_column (m : ℕ) (ps : List (Piece UInt32)) :
    outs (column m ps) = outers ps := by
  rw [← outers_map_snd, column, List.map_map]
  exact congrArg outers (List.map_id ps)

@[simp] theorem width_column (m : ℕ) (ps : List (Piece UInt32)) :
    width (column m ps) = m * ps.length := by
  induction ps with
  | nil => rfl
  | cons p ps ih => rw [column, List.map_cons, width_cons, ← column, ih, List.length_cons]; ring

@[simp] theorem picked_column (m : ℕ) (ps : List (Piece UInt32)) :
    picked (column m ps) = column m (ps.map (pickPiece m)) := by
  rw [picked, column, column, List.map_map, List.map_map]
  rfl

theorem fit_column {m : ℕ} {ps : List (Piece UInt32)} : Fit (column m ps) ↔ ∀ p ∈ ps, p.Fits m := by
  simp [Fit, column]

theorem bestArraySize_snd (us : List Unit) :
    (bestArraySize us).2 = arraySize (bestArraySize us).1 us := rfl

theorem bestArraySize_fst (us : List Unit) :
    1 ≤ (bestArraySize us).1 ∧ (bestArraySize us).1 ≤ 3 := by
  unfold bestArraySize
  dsimp only
  split <;> split <;> simp

theorem bestArraySize_le (us : List Unit) {k : ℕ} (h1 : 1 ≤ k) (h3 : k ≤ 3) :
    (bestArraySize us).2 ≤ arraySize k us := by
  unfold bestArraySize
  dsimp only
  obtain rfl | rfl | rfl : k = 1 ∨ k = 2 ∨ k = 3 := by omega
  all_goals (repeat' split) <;> omega

/-- The elements of a container: the sizes of units and of pieces, which have words. -/
def Elements (us : List Unit) (ps : List (Piece UInt32)) : Prop :=
  List.Forall₂ (fun u p => u.Sized p ∧ p.words ≠ []) us ps

theorem Elements.cells {us : List Unit} {ps : List (Piece UInt32)} (h : Elements us ps) (m : ℕ) :
    Cells (us.map fun u => (m, u)) (column m ps) := by
  rw [Cells, column, List.forall₂_map_left_iff, List.forall₂_map_right_iff]
  exact h.imp fun _ _ h => ⟨rfl, h⟩

theorem arraySize_cons (m : ℕ) (u : Unit) (us : List Unit) :
    arraySize m (u :: us) = m + (if u.size ≤ m then 0 else u.size) + arraySize m us := rfl

theorem Unit.Sized.length_le {u : Unit} {ws : List UInt32} (h : u.Sized (.inl ws)) :
    ws.length ≤ 3 := by
  rw [← h.2.1, Unit.data, List.length_take]
  exact min_le_right _ _

theorem arraySize_const {us : List Unit} {k : ℕ} (h : ∀ u ∈ us, u.size = k) (m : ℕ) :
    arraySize m us = us.length * (m + if k ≤ m then 0 else k) := by
  induction us with
  | nil => simp [arraySize]
  | cons u us ih =>
    rw [arraySize_cons, ih fun u hu => h u (.tail _ hu), h u List.mem_cons_self, List.length_cons]
    ring

/-- Units of the same size are in cells of that width. -/
theorem bestArraySize_const {us : List Unit} {k : ℕ} (h1 : 1 ≤ k) (h3 : k ≤ 3)
    (h : ∀ u ∈ us, u.size = k) (hne : us ≠ []) : (bestArraySize us).1 = k := by
  have hle := bestArraySize_le us h1 h3
  have h1 := (bestArraySize_fst us).1
  rw [bestArraySize_snd, arraySize_const h, arraySize_const h, if_pos (le_refl _),
    Nat.add_zero] at hle
  have hle := Nat.le_of_mul_le_mul_left hle (List.length_pos_iff.2 hne)
  split at hle <;> omega

/-- Elements of the same width are in cells of that width. -/
theorem bestArraySize_eq {us : List Unit} {ps : List (Piece UInt32)} {k : ℕ} (h : Elements us ps)
    (hk : ∀ p ∈ ps, Shaped (some k) p) (hne : ps ≠ []) : (bestArraySize us).1 = k := by
  have hsize : ∀ u ∈ us, u.size = k ∧ 1 ≤ k ∧ k ≤ 3 := by
    intro u hu
    obtain ⟨p, hp, hup, hpne⟩ := Pointwise.exists_right h hu
    obtain ⟨ws, rfl, rfl⟩ := hk p hp
    exact ⟨hup.size_eq, List.length_pos_iff.2 hpne, hup.length_le⟩
  have hus : us ≠ [] := fun h0 => by
    subst h0
    exact hne (List.forall₂_nil_left_iff.1 h)
  obtain ⟨u, hu⟩ := List.exists_mem_of_ne_nil us hus
  obtain ⟨-, h1, h3⟩ := hsize u hu
  exact bestArraySize_const h1 h3 (fun u hu => (hsize u hu).1) hus

/-- In the best width, all elements fit in their cells. -/
theorem fits_best {us : List Unit} {ps : List (Piece UInt32)} {c : Option ℕ} (h : Elements us ps)
    (hc : ∀ p ∈ ps, Shaped c p) :
    ∀ p ∈ ps, (pickPiece (bestArraySize us).1 p).Fits (bestArraySize us).1 := by
  have h1 := (bestArraySize_fst us).1
  intro p hp
  cases p with
  | inl ws =>
    cases c with
    | none => exact (hc _ hp ws rfl).trans h1
    | some k =>
      rw [bestArraySize_eq h hc (List.ne_nil_of_mem hp)]
      obtain ⟨ws', hws, hk⟩ := hc _ hp
      cases hws
      exact hk.le
  | out ws =>
    rw [pickPiece]
    split
    · assumption
    · exact h1

/-- In the best width, the elements of the same width fill their cells. -/
theorem inColumn_best {us : List Unit} {ps : List (Piece UInt32)} {c : Option ℕ}
    (h : Elements us ps) (hc : ∀ p ∈ ps, Shaped c p) {p : Piece UInt32} (hp : p ∈ ps) :
    InColumn c (bestArraySize us).1 (pickPiece (bestArraySize us).1 p) := by
  rintro k rfl
  obtain ⟨ws, rfl, hws⟩ := hc p hp
  exact ⟨bestArraySize_eq h hc (List.ne_nil_of_mem hp), ws, rfl, hws⟩

/-- The number of the words of pieces. -/
def total (ps : List (Piece UInt32)) : ℕ := (ps.map fun p => p.words.length).sum

@[simp] theorem total_nil : total [] = 0 := rfl

@[simp] theorem total_cons (p : Piece UInt32) (ps : List (Piece UInt32)) :
    total (p :: ps) = p.words.length + total ps := rfl

theorem outers_le_total (ps : List (Piece UInt32)) : (outers ps).length ≤ total ps := by
  induction ps with
  | nil => rfl
  | cons p ps ih =>
    rw [outers_cons, List.length_append, total_cons]
    exact Nat.add_le_add (by cases p <;> simp [Piece.outer, Piece.words]) ih

/-- The size of an array is that of its cells and of what is out of line. -/
theorem arraySize_eq {us : List Unit} {ps : List (Piece UInt32)} (h : Elements us ps) {m : ℕ}
    (hf : ∀ p ∈ ps, (pickPiece m p).Fits m) :
    arraySize m us = m * ps.length + (outers (ps.map (pickPiece m))).length := by
  induction h with
  | nil => rfl
  | @cons u p us ps hu _ ih =>
    have hsize : (if u.size ≤ m then 0 else u.size) = (pickPiece m p).outer.length := by
      rw [hu.1.size_eq]
      have hp := hf p List.mem_cons_self
      cases p with
      | inl ws => exact if_pos hp
      | out ws =>
        by_cases hle : ws.length ≤ m
        · rw [pickPiece, if_pos hle]
          exact if_pos hle
        · rw [pickPiece, if_neg hle]
          exact if_neg hle
    rw [arraySize_cons, ih fun p hp => hf p (.tail _ hp), hsize, List.map_cons, outers_cons,
      List.length_append, List.length_cons]
    ring

theorem total_le {m : ℕ} {ps : List (Piece UInt32)} (hf : ∀ p ∈ ps, (pickPiece m p).Fits m) :
    total ps ≤ m * ps.length + (outers (ps.map (pickPiece m))).length := by
  induction ps with
  | nil => exact Nat.zero_le _
  | cons p ps ih =>
    have hp : p.words.length ≤ m + (pickPiece m p).outer.length := by
      have hp := hf p List.mem_cons_self
      rw [← words_pickPiece m p]
      revert hp
      generalize pickPiece m p = q
      cases q with
      | inl ws => exact fun h => h
      | out ws => exact fun _ => Nat.le_add_left _ _
    have := ih fun p hp => hf p (.tail _ hp)
    rw [total_cons, List.map_cons, outers_cons, List.length_append, List.length_cons, Nat.mul_succ]
    omega

/-- What is left in the buffer does not fit in a cell. -/
theorem long_of_picked {m : ℕ} {ps : List (Piece UInt32)} {ws : List UInt32}
    (h : .out ws ∈ ps.map (pickPiece m)) : m < ws.length := by
  obtain ⟨p, -, hp⟩ := List.mem_map.1 h
  cases p with
  | inl ws' => cases hp
  | out ws' =>
    rw [pickPiece] at hp
    split at hp
    · cases hp
    · next hle =>
      cases hp
      exact Nat.lt_of_not_le hle

/-! ## What is written -/

/-- On the buffer `B` there were written the words of a piece of some shape, for which the
    unit stands, and they are as `Q` says, in a buffer of less than `2 ^ 32` words. -/
def Wrote (c : Option ℕ) (B : Buffer) (r : Unit × Buffer) (Q : Piece UInt32 → Prop) : Prop :=
  ∃ p, r.2 = p.outer ++ B ∧ r.1.On B.length p ∧ p.words ≠ [] ∧ p.words.length < 2 ^ 31 ∧
    Shaped c p ∧
    (p.words.length + B.length < 2 ^ 32 → Q p)

theorem Wrote.imp {c : Option ℕ} {B : Buffer} {r : Unit × Buffer} {Q Q' : Piece UInt32 → Prop}
    (h : Wrote c B r Q) (hQ : ∀ p, p.words.length + B.length < 2 ^ 32 → Q p → Q' p) :
    Wrote c B r Q' := by
  obtain ⟨p, h₁, h₂, h₃, h₄, h₅, h₆⟩ := h
  exact ⟨p, h₁, h₂, h₃, h₄, h₅, fun hlt => hQ p hlt (h₆ hlt)⟩

theorem wrote_inl {B : Buffer} {u : Unit} (ws : List UInt32) {Q : Piece UInt32 → Prop}
    (hlen : u.len = ws.length) (hdata : u.data = ws) (hne : ws ≠ []) (hQ : Q (.inl ws)) :
    Wrote (some ws.length) B (u, B) Q := by
  have hle : ws.length ≤ 3 := by rw [← hdata, Unit.data, List.length_take]; exact min_le_right _ _
  refine ⟨.inl ws, rfl, ⟨⟨hlen, hdata, fun h => absurd h hne⟩, fun h => absurd rfl h⟩, hne, ?_,
    ⟨ws, rfl, rfl⟩, fun _ => hQ⟩
  change ws.length < 2 ^ 31
  omega

theorem wrote_out {B : Buffer} (ws : List UInt32) {Q : Piece UInt32 → Prop} (hne : ws ≠ [])
    (hlt : ws.length < 2 ^ 31) (hQ : ws.length + B.length < 2 ^ 32 → Q (.out ws)) :
    Wrote none B (segment B.length (ws.length + B.length), ws ++ B) Q := by
  have hlt' : ws.length < 2 ^ 32 := hlt.trans (by decide)
  exact ⟨.out ws, rfl, segment_on hne hlt' _, hne, hlt,
    fun _ h => absurd h (by simp), hQ⟩

/-- A single word is of the shape of the elements that may be in the buffer, too. -/
theorem Wrote.weaken {B : Buffer} {r : Unit × Buffer} {Q : Piece UInt32 → Prop}
    (h : Wrote (some 1) B r Q) : Wrote none B r Q := by
  obtain ⟨p, h₁, h₂, h₃, h₄, ⟨ws, rfl, hws⟩, h₆⟩ := h
  exact ⟨_, h₁, h₂, h₃, h₄, fun ws' (h : Piece.inl ws = .inl ws') => by cases h; exact hws.le, h₆⟩

theorem serialize32_wrote (v : UInt32) (B : Buffer) :
    Wrote (some 1) B (serialize32 v, B) (· = .inl [v]) :=
  wrote_inl [v] rfl rfl (List.cons_ne_nil _ _) rfl

theorem serializeBool_wrote (v : Bool) (B : Buffer) :
    Wrote (some 1) B (serializeBool v, B) (· = .inl [if v then 1 else 0]) :=
  wrote_inl [if v then 1 else 0] rfl rfl (List.cons_ne_nil _ _) rfl

theorem serialize64_wrote (v : UInt64) (B : Buffer) :
    Wrote (some 2) B (serialize64 v, B) (· = .inl [v.toUInt32, (v >>> 32).toUInt32]) :=
  wrote_inl [v.toUInt32, (v >>> 32).toUInt32] rfl rfl (List.cons_ne_nil _ _) rfl

theorem length_stringWords_lt {str : List UInt8} (h : str.length < 2 ^ 30) :
    (stringWords str).length < 2 ^ 31 := by
  have hcode : (Varint.encode (str.length <<< 2)).length ≤ 5 :=
    Varint.length_encode_le (by decide) (by rw [Nat.shiftLeft_eq]; omega)
  rw [stringWords, length_wordsOf, List.length_append, wordSize]
  omega

/-- `Serialize` of a string writes the string. -/
theorem serializeString_wrote {str : List UInt8} {B : Buffer} {r : Unit × Buffer}
    (h : serializeString str B = .ok r) :
    str.length < 2 ^ 30 ∧ Wrote none B r fun p => p.words = stringWords str := by
  rw [serializeString] at h
  split at h
  · cases h
  · next hlt =>
    refine ⟨by omega, ?_⟩
    have hne : stringWords str ≠ [] := by
      intro h0
      have := bytesOf_wordsOf (Varint.encode (str.length <<< 2) ++ str)
      rw [← stringWords, h0] at this
      exact List.append_ne_nil_of_left_ne_nil
        (List.append_ne_nil_of_left_ne_nil (Varint.encode_ne_nil _) _) _ this.symm
    have hlen := length_stringWords_lt (Nat.lt_of_not_le hlt)
    split at h
    · next w hw =>
      cases h
      exact (wrote_inl [w] rfl rfl (List.cons_ne_nil _ _) hw.symm).weaken
    · cases h
      exact wrote_out _ hne hlen fun _ => rfl

/-- The words of an array with cells of `m` words: the size and the width, the cells, and
    the elements out of line. -/
def arrayWords (m : ℕ) (ps : List (Piece UInt32)) : List UInt32 :=
  UInt32.ofNat (ps.length <<< 2 ||| m) :: (cells 0 linkWord 0 (column m ps) ++ outers ps)

/-- An array. -/
structure IsArray (m : ℕ) (ps : List (Piece UInt32)) (w : List UInt32) : Prop where
  eq : w = arrayWords m ps
  pos : 1 ≤ m
  le : m ≤ 3
  fits : ∀ p ∈ ps, p.Fits m
  long : ∀ ws, .out ws ∈ ps → m < ws.length
  mark : ps = [] → m ≤ 2
  size : m * ps.length + (outers ps).length < 2 ^ 30

theorem narrow_column {m : ℕ} (h : m ≤ 3) (ps : List (Piece UInt32)) : Narrow (column m ps) := by
  intro c hc
  obtain ⟨p, -, rfl⟩ := List.mem_map.1 hc
  exact h

theorem fit_picked_column {m : ℕ} {ps : List (Piece UInt32)}
    (h : ∀ p ∈ ps, (pickPiece m p).Fits m) :
    Fit (picked (column m ps)) := by
  rw [picked_column, fit_column]
  exact List.forall_mem_map.2 h

theorem length_arrayWords {m : ℕ} {ps : List (Piece UInt32)} (hf : ∀ p ∈ ps, p.Fits m) :
    (arrayWords m ps).length = 1 + (m * ps.length + (outers ps).length) := by
  rw [arrayWords, List.length_cons, List.length_append, length_cells (fit_column.2 hf),
    width_column, Nat.add_comm]

/-- `SerializeArray` of elements that stand in front of `B` writes their array. -/
theorem serializeArray_spec {us : List Unit} {ps : List (Piece UInt32)} {B buf : Buffer} {u : Unit}
    {c : Option ℕ} (h : Elements us ps) (hp : Placed B.length us ps) (hc : ∀ p ∈ ps, Shaped c p)
    (hok : serializeArray us (outers ps ++ B) B.length = .ok (u, buf)) :
    Wrote none B (u, buf) fun p => total ps ≤ p.words.length ∧
      ∃ m, IsArray m (ps.map (pickPiece m)) p.words ∧ ∀ p ∈ ps, InColumn c m (pickPiece m p) := by
  rw [serializeArray] at hok
  split at hok
  · next hus =>
    -- No elements: the array is one word, and inline.
    subst hus
    cases h
    cases hok
    refine (wrote_inl [1] rfl rfl (List.cons_ne_nil _ _)
      ⟨Nat.zero_le _, 1, ⟨rfl, by simp, by simp, ?_, ?_, by simp, by simp⟩, ?_⟩).weaken
    · exact fun _ hp => absurd hp List.not_mem_nil
    · exact fun _ hp => absurd hp List.not_mem_nil
    · exact fun _ hp => absurd hp List.not_mem_nil
  · next hus =>
    -- With the width that is chosen, each element fits its cell or is out of line behind a link.
    have hfit := fits_best h hc
    have hin := fun p hp => inColumn_best (p := p) h hc hp
    have hm := bestArraySize_fst us
    have hsize := bestArraySize_snd us
    generalize bestArraySize us = best at hok hfit hin hm hsize
    obtain ⟨m, size⟩ := best
    dsimp only at hok hfit hin hm hsize
    rw [arraySize_eq h hfit] at hsize
    have hrow := fit_picked_column hfit
    split at hok
    · cases hok
    · next hlt =>
      obtain ⟨buf₁, hput, hok⟩ := Res.bind_eq_ok.1 hok
      cases hok
      have hnarrow := narrow_column hm.2 ps
      -- The cells are put in front of the elements that are out of line; what was there before
      -- stays.
      obtain ⟨Z, rfl, hZ⟩ := putCells_frame (h.cells m) hnarrow hrow (by simp) hput
      rw [width_column, picked_column, outs_column, ← hsize] at hZ
      have hlen : us.length = ps.length := h.length_eq
      set w : List UInt32 := UInt32.ofNat (us.length <<< 2 ||| m) :: Z with hw
      have hwl : w.length = size + 1 := by rw [hw, List.length_cons, hZ]
      rw [← List.cons_append, ← hw, List.length_append]
      refine wrote_out _ (List.cons_ne_nil _ _) (by omega) fun hlt' => ?_
      · change total ps ≤ w.length ∧ ∃ m, IsArray m (ps.map (pickPiece m)) w ∧ _
        have htotal := total_le hfit
        have hbuf : (outs (column m ps) ++ B).length < 2 ^ 32 := by
          have := outers_le_total ps
          rw [outs_column, List.length_append]
          omega
        -- On a buffer that is short enough the offsets of the units fit 32 bits, so the cells are
        -- those of a column of the picked elements.
        have hput' :=
          putCells_eq (h.cells m) (by simpa [column, Function.comp_def] using hp) hnarrow hrow hbuf
        rw [outs_column, hput, picked_column, outs_column, ← List.append_assoc] at hput'
        have hZ' := List.append_cancel_right (Except.ok.inj hput')
        refine ⟨by omega, m, ⟨?_, hm.1, hm.2, by simpa using hfit, fun _ => long_of_picked,
          fun h0 => ?_, by rw [List.length_map]; omega⟩, hin⟩
        · rw [hw, arrayWords, hlen, hZ', List.length_map]
        · rw [List.map_eq_nil_iff.1 h0] at h
          exact absurd (List.forall₂_nil_right_iff.1 h) hus

/-! ### The elements of an array -/

/-- On the buffer `B` there were written elements, in order, each as `V` says. -/
def Items {α : Type} (c : Option ℕ) (V : α → List UInt32 → Prop) (B : Buffer) (xs : List α)
    (us : List Unit) (out : Buffer) : Prop :=
  ∃ ps, out = outers ps ++ B ∧ Elements us ps ∧ Placed B.length us ps ∧ (∀ p ∈ ps, Shaped c p) ∧
    (total ps + B.length < 2 ^ 32 → List.Forall₂ (fun x p => V x p.words) xs ps)

section

variable {α : Type} {c : Option ℕ} {V : α → List UInt32 → Prop} {B out : Buffer} {xs : List α}
  {us : List Unit}

theorem items_nil : Items c V B [] [] B :=
  ⟨[], rfl, .nil, trivial, fun _ hp => absurd hp List.not_mem_nil, fun _ => .nil⟩

/-- One more element, in front of the others. -/
theorem Items.cons (h : Items c V B xs us out) {x : α} {r : Unit × Buffer}
    (hr : Wrote c out r fun p => V x p.words) : Items c V B (x :: xs) (r.1 :: us) r.2 := by
  obtain ⟨ps, rfl, hel, hplaced, hshape, hcontent⟩ := h
  obtain ⟨p, hout, hon, hne, -, hs, hV⟩ := hr
  have hbase : (outers ps ++ B).length = B.length + (outers ps).length := by
    rw [List.length_append, Nat.add_comm]
  refine ⟨p :: ps, by simp [hout], .cons ⟨hon.1, hne⟩ hel, placed_cons (hbase ▸ hon) hplaced,
    List.forall_mem_cons.2 ⟨hs, hshape⟩, fun hlt => ?_⟩
  rw [total_cons] at hlt
  have hle := outers_le_total ps
  exact .cons (hV (by omega)) (hcontent (by omega))

/-- `SerializeArray` of elements writes their array. -/
theorem serializeArray_items (h : Items c V B xs us out) {r : Unit × Buffer}
    (hok : serializeArray us out B.length = .ok r) :
    Wrote none B r fun p => ∃ m qs, IsArray m qs p.words ∧
      List.Forall₂ (fun x q => V x q.words ∧ InColumn c m q) xs qs := by
  obtain ⟨ps, rfl, hel, hplaced, hshape, hcontent⟩ := h
  rcases r with ⟨u, buf⟩
  refine (serializeArray_spec hel hplaced hshape hok).imp ?_
  rintro p hlt ⟨htotal, m, harray, hin⟩
  refine ⟨m, _, harray, ?_⟩
  rw [List.forall₂_map_right_iff]
  refine (Pointwise.and_right (hcontent (by omega)) hin).imp fun v q h => ?_
  rw [words_pickPiece]
  exact h

end

/-! ## Maps -/

/-- The keys and the values of pairs, in the order of their cells. -/
def flat {α : Type*} (ps : List (α × α)) : List α := ps.flatMap fun p => [p.1, p.2]

@[simp] theorem flat_nil {α : Type*} : flat ([] : List (α × α)) = [] := rfl

@[simp] theorem flat_cons {α : Type*} (p : α × α) (ps : List (α × α)) :
    flat (p :: ps) = p.1 :: p.2 :: flat ps := rfl

/-- The cells of pairs. -/
def pairRow (m₁ m₂ : ℕ) (ps : List (Piece UInt32 × Piece UInt32)) : List (ℕ × Piece UInt32) :=
  ps.flatMap fun p => [(m₁, p.1), (m₂, p.2)]

@[simp] theorem pairRow_cons (m₁ m₂ : ℕ) (p : Piece UInt32 × Piece UInt32)
    (ps : List (Piece UInt32 × Piece UInt32)) :
    pairRow m₁ m₂ (p :: ps) = (m₁, p.1) :: (m₂, p.2) :: pairRow m₁ m₂ ps := rfl

/-- What `Pick` makes of a pair. -/
def pickPair (m₁ m₂ : ℕ) (p : Piece UInt32 × Piece UInt32) : Piece UInt32 × Piece UInt32 :=
  (pickPiece m₁ p.1, pickPiece m₂ p.2)

/-- The first words of a map: the words of its index, with the widths of the keys and the
    values in the first. -/
def mapHead (m₁ m₂ : ℕ) (index : List UInt8) : List UInt32 :=
  (wordsOf index).modifyHead (· ||| (UInt32.ofNat m₁ <<< 30 ||| UInt32.ofNat m₂ <<< 28))

/-- The words of a map: the index, the cells of the pairs, and what is out of line. -/
def mapWords (m₁ m₂ : ℕ) (index : List UInt8) (ps : List (Piece UInt32 × Piece UInt32)) :
    List UInt32 :=
  mapHead m₁ m₂ index ++ (cells 0 linkWord 0 (pairRow m₁ m₂ ps) ++ outers (flat ps))

/-- A map. -/
structure IsMap (m₁ m₂ : ℕ) (index : List UInt8) (ps : List (Piece UInt32 × Piece UInt32))
    (w : List UInt32) : Prop where
  eq : w = mapWords m₁ m₂ index ps
  pos₁ : 1 ≤ m₁
  le₁ : m₁ ≤ 3
  pos₂ : 1 ≤ m₂
  le₂ : m₂ ≤ 3
  fits : ∀ p ∈ ps, p.1.Fits m₁ ∧ p.2.Fits m₂
  long : ∀ p ∈ ps, (∀ ws, p.1 = .out ws → m₁ < ws.length) ∧ ∀ ws, p.2 = .out ws → m₂ < ws.length
  size : wordSize index.length + ((m₁ + m₂) * ps.length + (outers (flat ps)).length) < 2 ^ 30

theorem outs_pairRow (m₁ m₂ : ℕ) (ps : List (Piece UInt32 × Piece UInt32)) :
    outs (pairRow m₁ m₂ ps) = outers (flat ps) := by
  induction ps with
  | nil => rfl
  | cons p ps ih => rw [pairRow_cons, outs_cons, outs_cons, ih]; rfl

theorem width_pairRow (m₁ m₂ : ℕ) (ps : List (Piece UInt32 × Piece UInt32)) :
    width (pairRow m₁ m₂ ps) = (m₁ + m₂) * ps.length := by
  induction ps with
  | nil => rfl
  | cons p ps ih => rw [pairRow_cons, width_cons, width_cons, ih, List.length_cons]; ring

theorem picked_pairRow (m₁ m₂ : ℕ) (ps : List (Piece UInt32 × Piece UInt32)) :
    picked (pairRow m₁ m₂ ps) = pairRow m₁ m₂ (ps.map (pickPair m₁ m₂)) := by
  induction ps with
  | nil => rfl
  | cons p ps ih => rw [pairRow_cons, picked_cons, picked_cons, ih]; rfl

theorem fit_pairRow {m₁ m₂ : ℕ} {ps : List (Piece UInt32 × Piece UInt32)} :
    Fit (pairRow m₁ m₂ ps) ↔ ∀ p ∈ ps, p.1.Fits m₁ ∧ p.2.Fits m₂ := by
  induction ps with
  | nil =>
    exact iff_of_true (fun _ h => absurd h List.not_mem_nil) fun _ h => absurd h List.not_mem_nil
  | cons p ps ih => rw [pairRow_cons, fit_cons, fit_cons, ih, List.forall_mem_cons, and_assoc]

theorem length_outers_flat (ps : List (Piece UInt32 × Piece UInt32)) :
    (outers (flat ps)).length = (outers (ps.map Prod.fst)).length +
      (outers (ps.map Prod.snd)).length := by
  induction ps with
  | nil => rfl
  | cons p ps ih =>
    rw [flat_cons, outers_cons, outers_cons, List.length_append, List.length_append, ih,
      List.map_cons, List.map_cons, outers_cons, outers_cons, List.length_append,
      List.length_append]
    omega

theorem total_flat (ps : List (Piece UInt32 × Piece UInt32)) :
    total (flat ps) = total (ps.map Prod.fst) + total (ps.map Prod.snd) := by
  induction ps with
  | nil => rfl
  | cons p ps ih =>
    rw [flat_cons, total_cons, total_cons, ih, List.map_cons, List.map_cons, total_cons, total_cons]
    omega

/-- The pairs of a map: their keys and values are elements. -/
def Pairs (us : List (Unit × Unit)) (ps : List (Piece UInt32 × Piece UInt32)) : Prop :=
  Elements (us.map Prod.fst) (ps.map Prod.fst) ∧ Elements (us.map Prod.snd) (ps.map Prod.snd)

theorem Pairs.cells {us : List (Unit × Unit)} {ps : List (Piece UInt32 × Piece UInt32)}
    (h : Pairs us ps) (m₁ m₂ : ℕ) : Cells (pairCells m₁ m₂ us) (pairRow m₁ m₂ ps) := by
  obtain ⟨h₁, h₂⟩ := h
  rw [Elements, List.forall₂_map_left_iff, List.forall₂_map_right_iff] at h₁ h₂
  induction h₁ with
  | nil => exact .nil
  | cons h₁ _ ih =>
    cases h₂ with
    | cons h₂ h₂' => exact .cons ⟨rfl, h₁⟩ (.cons ⟨rfl, h₂⟩ (ih h₂'))

theorem map_snd_pairCells (m₁ m₂ : ℕ) (us : List (Unit × Unit)) :
    (pairCells m₁ m₂ us).map Prod.snd = flat us := by
  rw [pairCells, List.map_flatMap]
  rfl

theorem map_snd_pairRow (m₁ m₂ : ℕ) (ps : List (Piece UInt32 × Piece UInt32)) :
    (pairRow m₁ m₂ ps).map Prod.snd = flat ps := by
  rw [pairRow, List.map_flatMap]
  rfl

theorem length_mapWords (m₁ m₂ : ℕ) (index : List UInt8) {ps : List (Piece UInt32 × Piece UInt32)}
    (hf : ∀ p ∈ ps, p.1.Fits m₁ ∧ p.2.Fits m₂) : (mapWords m₁ m₂ index ps).length =
      wordSize index.length + ((m₁ + m₂) * ps.length + (outers (flat ps)).length) := by
  rw [mapWords, List.length_append, List.length_append, length_cells (fit_pairRow.2 hf),
    width_pairRow, mapHead, List.length_modifyHead, length_wordsOf]

theorem narrow_pairRow {m₁ m₂ : ℕ} (h₁ : m₁ ≤ 3) (h₂ : m₂ ≤ 3)
    (ps : List (Piece UInt32 × Piece UInt32)) :
    Narrow (pairRow m₁ m₂ ps) := by
  intro c hc
  rw [pairRow, List.mem_flatMap] at hc
  obtain ⟨p, -, hc⟩ := hc
  rcases List.mem_pair.1 hc with rfl | rfl
  · exact h₁
  · exact h₂

theorem fit_picked_pairRow {m₁ m₂ : ℕ} {ps : List (Piece UInt32 × Piece UInt32)}
    (h : ∀ p ∈ ps.map (pickPair m₁ m₂), p.1.Fits m₁ ∧ p.2.Fits m₂) :
    Fit (picked (pairRow m₁ m₂ ps)) := by
  rw [picked_pairRow, fit_pairRow]
  exact h

theorem long_pickPair {m₁ m₂ : ℕ} {ps : List (Piece UInt32 × Piece UInt32)} :
    ∀ q ∈ ps.map (pickPair m₁ m₂),
      (∀ ws, q.1 = .out ws → m₁ < ws.length) ∧ ∀ ws, q.2 = .out ws → m₂ < ws.length := by
  refine List.forall_mem_map.2 fun p _ => ⟨fun ws hws => ?_, fun ws hws => ?_⟩
  · exact long_of_picked (List.mem_map.2 ⟨p.1, List.mem_singleton_self _, hws⟩)
  · exact long_of_picked (List.mem_map.2 ⟨p.2, List.mem_singleton_self _, hws⟩)

/-- The words of the cells of a map and of what is out of line, the keys and the values
    counted apart. -/
theorem size_pickPair {m₁ m₂ keySize valueSize : ℕ} {ps : List (Piece UInt32 × Piece UInt32)}
    (h₁ : keySize = m₁ * (ps.map Prod.fst).length +
      (outers ((ps.map Prod.fst).map (pickPiece m₁))).length)
    (h₂ : valueSize = m₂ * (ps.map Prod.snd).length +
      (outers ((ps.map Prod.snd).map (pickPiece m₂))).length) :
    keySize + valueSize = (m₁ + m₂) * (ps.map (pickPair m₁ m₂)).length +
      (outers (flat (ps.map (pickPair m₁ m₂)))).length := by
  rw [length_outers_flat, List.map_map, List.map_map, h₁, h₂, List.map_map, List.map_map,
    List.length_map, List.length_map, List.length_map, Nat.add_mul]
  simp only [Function.comp_def, pickPair]
  omega

theorem indexWords_eq {index : List UInt8} {m₁ m₂ : ℕ} {head : List UInt32}
    (h : indexWords index m₁ m₂ = .ok head) : head = mapHead m₁ m₂ index ∧ head ≠ [] := by
  rw [indexWords] at h
  rw [mapHead]
  cases hw : wordsOf index with
  | nil =>
    rw [hw] at h
    cases h
  | cons w ws =>
    rw [hw] at h
    cases h
    exact ⟨rfl, List.cons_ne_nil _ _⟩

/-- `SerializeMap` of pairs that stand in front of `B` writes their map. -/
theorem serializeMap_spec {us : List (Unit × Unit)} {ps : List (Piece UInt32 × Piece UInt32)}
    {index : List UInt8} {B buf : Buffer} {u : Unit} (h : Pairs us ps)
    {c₁ c₂ : Option ℕ} (hp : Placed B.length (flat us) (flat ps))
    (hc : ∀ p ∈ ps, Shaped c₁ p.1 ∧ Shaped c₂ p.2) (h0 : ps = [] → index = [0, 0, 0, 0])
    (hok : serializeMap index us (outers (flat ps) ++ B) B.length = .ok (u, buf)) :
    Wrote none B (u, buf) fun p => total (flat ps) ≤ p.words.length ∧
      ∃ m₁ m₂, IsMap m₁ m₂ index (ps.map (pickPair m₁ m₂)) p.words ∧
        ∀ p ∈ ps, InColumn c₁ m₁ (pickPiece m₁ p.1) ∧ InColumn c₂ m₂ (pickPiece m₂ p.2) := by
  have hc₁ : ∀ p ∈ ps.map Prod.fst, Shaped c₁ p := List.forall_mem_map.2 fun p hp => (hc p hp).1
  have hc₂ : ∀ p ∈ ps.map Prod.snd, Shaped c₂ p := List.forall_mem_map.2 fun p hp => (hc p hp).2
  rw [serializeMap] at hok
  split at hok
  · next hus =>
    subst hus
    -- No pairs: the map is the word of an index without keys, and inline.
    obtain rfl : ps = [] := List.length_eq_zero_iff.1 (by simpa using h.1.length_eq.symm)
    cases hok
    refine (wrote_inl [(5 : UInt32) <<< 28] rfl rfl (List.cons_ne_nil _ _)
      ⟨Nat.zero_le _, 1, 1, ⟨?_, by simp, by simp, by simp, by simp,
        fun _ hp => absurd hp List.not_mem_nil, fun _ hp => absurd hp List.not_mem_nil, ?_⟩,
        fun _ hp => absurd hp List.not_mem_nil⟩).weaken
    · rw [h0 rfl]
      rfl
    · rw [h0 rfl]
      decide
  · have hfit₁ := fits_best h.1 hc₁
    have hm₁ := bestArraySize_fst (us.map Prod.fst)
    have hsize₁ := bestArraySize_snd (us.map Prod.fst)
    have hfit₂ := fits_best h.2 hc₂
    have hm₂ := bestArraySize_fst (us.map Prod.snd)
    have hsize₂ := bestArraySize_snd (us.map Prod.snd)
    -- The widths of the keys and of the values are chosen apart from each other.
    have hin : ∀ p ∈ ps, InColumn c₁ _ (pickPiece _ p.1) ∧ InColumn c₂ _ (pickPiece _ p.2) :=
      fun p hp =>
      ⟨inColumn_best h.1 hc₁ (List.mem_map_of_mem hp),
        inColumn_best h.2 hc₂ (List.mem_map_of_mem hp)⟩
    generalize bestArraySize (us.map Prod.fst) = best₁ at hok hfit₁ hm₁ hsize₁ hin
    generalize bestArraySize (us.map Prod.snd) = best₂ at hok hfit₂ hm₂ hsize₂ hin
    obtain ⟨m₁, keySize⟩ := best₁
    obtain ⟨m₂, valueSize⟩ := best₂
    dsimp only at hok hfit₁ hm₁ hsize₁ hfit₂ hm₂ hsize₂ hin
    rw [arraySize_eq h.1 hfit₁] at hsize₁
    rw [arraySize_eq h.2 hfit₂] at hsize₂
    set qs := ps.map (pickPair m₁ m₂) with hqs
    have hfit : ∀ p ∈ qs, p.1.Fits m₁ ∧ p.2.Fits m₂ := by
      intro q hq
      obtain ⟨p, hp, rfl⟩ := List.mem_map.1 hq
      exact ⟨hfit₁ _ (List.mem_map_of_mem hp), hfit₂ _ (List.mem_map_of_mem hp)⟩
    have hrow := fit_picked_pairRow hfit
    -- The sizes that were computed for both are the words that are going to be written for the
    -- pairs.
    have hsize : keySize + valueSize = (m₁ + m₂) * qs.length + (outers (flat qs)).length :=
      size_pickPair hsize₁ hsize₂
    have htotal : total (flat ps) ≤ keySize + valueSize := by
      rw [total_flat, hsize₁, hsize₂]
      exact Nat.add_le_add (total_le hfit₁) (total_le hfit₂)
    split at hok
    · cases hok
    · next hlt =>
      obtain ⟨buf₁, hput, hok⟩ := Res.bind_eq_ok.1 hok
      obtain ⟨head, hhead, hok⟩ := Res.bind_eq_ok.1 hok
      cases hok
      have hnarrow := narrow_pairRow hm₁.2 hm₂.2 ps
      -- The cells are put first, and the words of the index in front of them.
      obtain ⟨Z, rfl, hZ⟩ := putCells_frame (h.cells m₁ m₂) hnarrow hrow
        (by rw [outs_pairRow]) hput
      rw [width_pairRow, picked_pairRow, outs_pairRow, ← hqs, ← List.length_map (pickPair m₁ m₂),
        ← hqs, ← hsize] at hZ
      have hheadw := indexWords_eq hhead
      have hheadl : head.length = wordSize index.length := by
        rw [hheadw.1, mapHead, List.length_modifyHead, length_wordsOf]
      have hwl : (head ++ Z).length = wordSize index.length + (keySize + valueSize) := by
        rw [List.length_append, hheadl, hZ]
      have hne : head ++ Z ≠ [] := List.append_ne_nil_of_left_ne_nil hheadw.2 _
      rw [← List.append_assoc, List.length_append]
      refine wrote_out _ hne (by omega) fun hlt' => ?_
      · change total (flat ps) ≤ (head ++ Z).length ∧ ∃ m₁ m₂, IsMap m₁ m₂ index _ (head ++ Z) ∧ _
        have hbuf : (outs (pairRow m₁ m₂ ps) ++ B).length < 2 ^ 32 := by
          have := outers_le_total (flat ps)
          rw [outs_pairRow, List.length_append]
          omega
        -- If the unit tells the segment, the links are the right ones, as for an array.
        have hput' := putCells_eq (h.cells m₁ m₂)
          (by rw [map_snd_pairCells, map_snd_pairRow]; exact hp) hnarrow hrow hbuf
        rw [outs_pairRow, hput, picked_pairRow, outs_pairRow, ← List.append_assoc, ← hqs] at hput'
        have hZ' := List.append_cancel_right (Except.ok.inj hput')
        refine ⟨by omega, m₁, m₂, ⟨?_, hm₁.1, hm₁.2, hm₂.1, hm₂.2, hfit, long_pickPair, ?_⟩, hin⟩
        · rw [← hqs, mapWords, ← hheadw.1, hZ']
        · rw [← hqs]
          omega

end ProtoCache

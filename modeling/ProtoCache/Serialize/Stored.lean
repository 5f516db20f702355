import ProtoCache.Serialize.Fields

/-!
# Elements with gaps between them

`SerializeArray` closes the gaps between the words of its elements: those that were in
front of them already, and those that the elements leave which are taken into their
cells.

* `Stored.pieces`: units that were written are in the buffer the pieces of a row, with
  gaps.
* `serializeArray_cells`: the array that is written has the words of each element in the
  cell or behind a link, and no other words than it must.
-/

namespace ProtoCache

open Row

/-- Pieces with gaps behind them, in cells of `m` words. -/
def row (m : ℕ) (r : List (List UInt32 × Piece UInt32)) : List (List UInt32 × (ℕ × Piece UInt32)) :=
  r.map fun x => (x.1, (m, x.2))

/-- The gaps and the pieces of a row, without the widths of the cells. -/
def bare (r : List (List UInt32 × (ℕ × Piece UInt32))) : List (List UInt32 × Piece UInt32) :=
  r.map fun x => (x.1, x.2.2)

theorem bare_row (m : ℕ) (r : List (List UInt32 × Piece UInt32)) : bare (row m r) = r := by
  rw [bare, row, List.map_map]
  exact List.map_id r

/-- What is in the buffer does not depend on the widths of the cells. -/
theorem spread_congr {r r' : List (List UInt32 × (ℕ × Piece UInt32))} (h : bare r = bare r') :
    spread r = spread r' := by
  induction r generalizing r' with
  | nil =>
    rw [List.map_eq_nil_iff.1 h.symm]
  | cons x r ih =>
    obtain ⟨x', r', rfl, hx, hr⟩ := List.map_eq_cons_iff.1 h.symm
    obtain ⟨hgap, hpiece⟩ := Prod.ext_iff.1 hx
    change x.2.2.outer ++ (x.1 ++ spread r) = x'.2.2.outer ++ (x'.1 ++ spread r')
    rw [ih hr.symm, show x'.1 = x.1 from hgap, show x'.2.2 = x.2.2 from hpiece]

theorem Spread.congr {n : ℕ} {us : List Unit} {r r' : List (List UInt32 × (ℕ × Piece UInt32))}
    (h : Spread n us r) (hr : bare r = bare r') : Spread n us r' := by
  induction r generalizing us r' with
  | nil =>
    rw [List.map_eq_nil_iff.1 hr.symm]
    cases us <;> exact trivial
  | cons x r ih =>
    have hspread := spread_congr hr
    obtain ⟨x', r', rfl, hx, hr'⟩ := List.map_eq_cons_iff.1 hr.symm
    obtain ⟨-, hpiece⟩ := Prod.ext_iff.1 hx
    cases us with
    | nil => exact trivial
    | cons u us =>
      refine ⟨fun hne => ?_, ih h.2 hr'.symm⟩
      rw [show x'.2.2 = x.2.2 from hpiece] at hne
      rw [h.1 hne, hspread]

theorem row_snd (m : ℕ) (r : List (List UInt32 × Piece UInt32)) :
    (row m r).map Prod.snd = column m (r.map Prod.snd) := by
  rw [row, column, List.map_map, List.map_map]
  rfl

/-- The words of a unit stay the same when others are written in front of them. -/
theorem Unit.words_append {u : Unit} {buf : Buffer} (h : u.IsSegment → u.segPos.toNat ≤ buf.length)
    (hn : ¬u.IsNil) (front : List UInt32) : u.words (front ++ buf) = u.words buf := by
  rw [words, words]
  by_cases h0 : u.len = 0
  · have hle := h ⟨h0, fun hs => hn ⟨h0, hs⟩⟩
    rw [if_pos h0, if_pos h0, List.length_append, Nat.add_sub_assoc hle, ← List.drop_drop,
      List.drop_left]
  · rw [if_neg h0, if_neg h0]

/-- A unit has the words of a piece; if they are not in the buffer, as many as it says. -/
def Unit.Has (buf : Buffer) (u : Unit) (p : Piece UInt32) : Prop :=
  u.words buf = p.words ∧ ∀ ws, p = .inl ws → ws.length = u.len

theorem has_append {us : List Unit} {ps : List (Piece UInt32)} {last : ℕ} {buf : Buffer}
    (hin : ∀ x ∈ us, x.InBuffer last buf) (hus : ∀ x ∈ us, ¬x.IsNil)
    (h : List.Forall₂ (Unit.Has buf) us ps) (front : List UInt32) :
    List.Forall₂ (Unit.Has (front ++ buf)) us ps := by
  induction h with
  | nil => exact .nil
  | cons hu _ ih =>
    refine .cons ⟨?_, hu.2⟩ (ih (fun x hx => hin x (.tail _ hx)) fun x hx => hus x (.tail _ hx))
    rw [Unit.words_append (fun hs => ((hin _ List.mem_cons_self).2 hs).2)
      (hus _ List.mem_cons_self)]
    exact hu.1

/-- The pieces of units that were written, each with the words of its unit. -/
theorem Stored.pieces {gaps : Bool} {base buf : Buffer} {us : List Unit}
    (h : Stored gaps base us buf) (hus : ∀ x ∈ us, ¬x.IsNil) :
    ∃ (A : List UInt32) (r : List (List UInt32 × Piece UInt32)),
      buf = A ++ (spread (row 0 r) ++ base) ∧
      Elements us (r.map Prod.snd) ∧ Spread base.length us (row 0 r) ∧
      List.Forall₂ (Unit.Has buf) us (r.map Prod.snd) := by
  induction h with
  | nil => exact ⟨[], [], rfl, .nil, trivial, .nil⟩
  | @gap us buf w _ hst ih =>
    obtain ⟨A, r, hbuf, hel, hsp, hw⟩ := ih hus
    exact ⟨w :: A, r, by rw [hbuf]; rfl, hel, hsp, has_append hst.inBuffer hus hw [w]⟩
  | @kept us buf u hn h3 hst ih =>
    obtain ⟨A, r, hbuf, hel, hsp, hw⟩ := ih fun x hx => hus x (.tail _ hx)
    have hlen := u.length_data h3
    have h0 : u.len ≠ 0 := fun h0 => by
      by_cases hs : u.segLen = 0
      · exact hus u List.mem_cons_self ⟨h0, hs⟩
      · exact hn ⟨h0, hs⟩
    have hne : u.data ≠ [] := fun hd => h0 (by rw [← hlen, hd]; rfl)
    refine ⟨[], (A, .inl u.data) :: r, by rw [hbuf]; exact (List.append_assoc ..).symm,
      .cons ⟨⟨hlen.symm, rfl, fun hd => absurd hd hne⟩, hne⟩ hel, ⟨fun h => absurd rfl h, hsp⟩,
      .cons ⟨?_, ?_⟩ hw⟩
    · rw [Unit.words, if_neg h0]
      rfl
    · rintro ws ⟨⟩
      exact hlen
  | @segment us buf u ws h0 hne hlen hpos hst ih =>
    have hus' : ∀ x ∈ us, ¬x.IsNil := fun x hx => hus x (.tail _ hx)
    obtain ⟨A, r, hbuf, hel, hsp, hw⟩ := ih hus'
    refine ⟨[], (A, .out ws) :: r, ?_, .cons ⟨⟨h0, hlen, hne⟩, hne⟩ hel, ⟨fun _ => ?_, hsp⟩,
      .cons ⟨?_, fun ws' h => by cases h⟩ (has_append hst.inBuffer hus' hw ws)⟩
    · rw [hbuf]
      change ws ++ (A ++ (spread (row 0 r) ++ base)) = ws ++ (A ++ spread (row 0 r)) ++ base
      simp only [List.append_assoc]
    · change u.segPos.toNat = base.length + (ws ++ (A ++ spread (row 0 r))).length
      rw [hpos, hbuf]
      simp only [List.length_append]
      omega
    · rw [Unit.words, if_pos h0, hpos, Nat.sub_self, List.drop_zero, hlen, List.take_left]
      rfl

/-- Units whose words fit in cells of `m` words, if they are not in the buffer, have pieces
    that fit. -/
theorem fits_of_len {us : List Unit} {ps : List (Piece UInt32)} {buf : Buffer} {m : ℕ}
    (h : List.Forall₂ (Unit.Has buf) us ps) (h1 : 1 ≤ m) (hl : ∀ x ∈ us, x.len ≤ m) :
    ∀ p ∈ ps, (pickPiece m p).Fits m := by
  intro p hp
  obtain ⟨x, hx, -, hxp⟩ := Pointwise.exists_left h hp
  cases p with
  | inl ws => exact (hxp ws rfl).le.trans (hl x hx)
  | out ws =>
    rw [pickPiece]
    split
    · assumption
    · exact h1

/-- `SerializeArray` of elements with gaps between them writes their array. -/
theorem serializeArray_gaps {us : List Unit} {r : List (List UInt32 × Piece UInt32)}
    {A base out : Buffer} {u : Unit} (h : Elements us (r.map Prod.snd))
    (hp : Spread base.length us (row 0 r))
    (hfit : ∀ p ∈ r.map Prod.snd, (pickPiece (bestArraySize us).1 p).Fits (bestArraySize us).1)
    (hne : us ≠ [])
    (hok : serializeArray us (A ++ (spread (row 0 r) ++ base)) base.length = .ok (u, out)) :
    ∃ w, out = w ++ base ∧
      IsArray (bestArraySize us).1 ((r.map Prod.snd).map (pickPiece (bestArraySize us).1)) w ∧
      w.length = 1 + (bestArraySize us).2 ∧ u = segment base.length out.length := by
  set ps := r.map Prod.snd with hps
  rw [serializeArray, if_neg hne] at hok
  have hm := bestArraySize_fst us
  have hsize := bestArraySize_snd us
  generalize bestArraySize us = best at hok hfit hm hsize ⊢
  obtain ⟨m, size⟩ := best
  dsimp only at hok hfit hm hsize ⊢
  rw [arraySize_eq h hfit] at hsize
  split at hok
  · cases hok
  · next hlt =>
    have hrow : (row m r).map Prod.snd = column m ps := row_snd m r
    have hcells := h.cells m
    have hfit' := fit_picked_column hfit
    have hnarrow := narrow_column hm.2 ps
    have hspread : Spread base.length ((us.map fun u => (m, u)).map Prod.snd) (row m r) := by
      rw [List.map_map]
      exact (List.map_id us).symm ▸ hp.congr (by rw [bare_row, bare_row])
    have hbare : bare (row 0 r) = bare (row m r) := by rw [bare_row, bare_row]
    rw [spread_congr hbare] at hok
    rw [putCells_spread A (hrow ▸ hcells) hspread (hrow ▸ hnarrow) (hrow ▸ hfit'), hrow,
      Res.ok_bind] at hok
    cases hok
    rw [picked_column, outs_column]
    have hlen : us.length = ps.length := h.length_eq
    refine ⟨arrayWords m (ps.map (pickPiece m)), ?_, ⟨rfl, hm.1, hm.2, by simpa using hfit,
      fun _ => long_of_picked, fun h0 => ?_, by rw [List.length_map]; omega⟩, ?_, rfl⟩
    · rw [arrayWords, List.length_map, ← hlen, List.cons_append, List.append_assoc]
    · rw [List.map_eq_nil_iff.1 h0] at h
      exact absurd (List.forall₂_nil_right_iff.1 h) hne
    · rw [length_arrayWords (by simpa using hfit), List.length_map, hsize]

/-- Units in pairs have pieces in pairs. -/
theorem pairs_of_flat {us : List (Unit × Unit)} {qs : List (Piece UInt32)}
    (h : Elements (flat us) qs) :
    ∃ ps, flat ps = qs ∧ Pairs us ps := by
  induction us generalizing qs with
  | nil =>
    obtain rfl := List.forall₂_nil_left_iff.1 h
    exact ⟨[], rfl, .nil, .nil⟩
  | cons u us ih =>
    rw [flat_cons] at h
    obtain ⟨q₁, qs₁, h₁, hs, rfl⟩ := List.forall₂_cons_left_iff.1 h
    obtain ⟨q₂, qs₂, h₂, hs', rfl⟩ := List.forall₂_cons_left_iff.1 hs
    obtain ⟨ps, rfl, hs₁, hs₂⟩ := ih hs'
    exact ⟨(q₁, q₂) :: ps, rfl, .cons h₁ hs₁, .cons h₂ hs₂⟩

/-- `SerializeMap` of pairs with gaps between them writes their map. -/
theorem serializeMap_gaps {us : List (Unit × Unit)} {r : List (List UInt32 × Piece UInt32)}
    {ps : List (Piece UInt32 × Piece UInt32)} {index : List UInt8} {A base out : Buffer} {u : Unit}
    (hr : r.map Prod.snd = flat ps) (h : Pairs us ps) (hp : Spread base.length (flat us) (row 0 r))
    (hfit₁ : ∀ p ∈ ps,
      (pickPiece (bestArraySize (us.map Prod.fst)).1 p.1).Fits (bestArraySize (us.map Prod.fst)).1)
    (hfit₂ : ∀ p ∈ ps,
      (pickPiece (bestArraySize (us.map Prod.snd)).1 p.2).Fits (bestArraySize (us.map Prod.snd)).1)
    (hne : us ≠ [])
    (hok : serializeMap index us (A ++ (spread (row 0 r) ++ base)) base.length = .ok (u, out)) :
    ∃ w, out = w ++ base ∧ IsMap (bestArraySize (us.map Prod.fst)).1
      (bestArraySize (us.map Prod.snd)).1 index
      (ps.map (pickPair (bestArraySize (us.map Prod.fst)).1 (bestArraySize (us.map Prod.snd)).1))
        w ∧
      u = segment base.length out.length := by
  rw [serializeMap, if_neg hne] at hok
  have hm₁ := bestArraySize_fst (us.map Prod.fst)
  have hsize₁ := bestArraySize_snd (us.map Prod.fst)
  have hm₂ := bestArraySize_fst (us.map Prod.snd)
  have hsize₂ := bestArraySize_snd (us.map Prod.snd)
  -- The two sides have widths of their own, but their cells are one row.
  generalize bestArraySize (us.map Prod.fst) = best₁ at hok hfit₁ hm₁ hsize₁ ⊢
  generalize bestArraySize (us.map Prod.snd) = best₂ at hok hfit₂ hm₂ hsize₂ ⊢
  obtain ⟨m₁, keySize⟩ := best₁
  obtain ⟨m₂, valueSize⟩ := best₂
  dsimp only at hok hfit₁ hm₁ hsize₁ hfit₂ hm₂ hsize₂ ⊢
  rw [arraySize_eq h.1 (List.forall_mem_map.2 hfit₁)] at hsize₁
  rw [arraySize_eq h.2 (List.forall_mem_map.2 hfit₂)] at hsize₂
  set qs := ps.map (pickPair m₁ m₂) with hqs
  have hfit : ∀ p ∈ qs, p.1.Fits m₁ ∧ p.2.Fits m₂ :=
    List.forall_mem_map.2 fun p hp => ⟨hfit₁ p hp, hfit₂ p hp⟩
  have hsize : keySize + valueSize = (m₁ + m₂) * qs.length + (outers (flat qs)).length :=
    size_pickPair hsize₁ hsize₂
  split at hok
  · cases hok
  · next hlt =>
    obtain ⟨buf₁, hput, hok⟩ := Res.bind_eq_ok.1 hok
    obtain ⟨head, hhead, hok⟩ := Res.bind_eq_ok.1 hok
    cases hok
    -- The row of the pairs, with the gaps that are behind their pieces.
    set g := (r.map Prod.fst).zip (pairRow m₁ m₂ ps) with hg
    have hlen : (r.map Prod.fst).length = (pairRow m₁ m₂ ps).length := by
      rw [List.length_map, show r.length = (r.map Prod.snd).length by rw [List.length_map], hr,
        ← map_snd_pairRow m₁ m₂, List.length_map]
    have hrow : g.map Prod.snd = pairRow m₁ m₂ ps := List.map_snd_zip hlen.ge
    -- Only the widths of the cells differ from the row that is stored.
    have hbare : bare g = bare (row 0 r) := by
      have hsnd : g.map (fun x => x.2.2) = r.map Prod.snd := by
        rw [hr, ← map_snd_pairRow m₁ m₂, ← hrow, List.map_map]
        rfl
      have hfst : g.map Prod.fst = r.map Prod.fst := List.map_fst_zip hlen.le
      rw [bare_row, bare, ← List.zip_unzip r, List.unzip_eq_map, ← hfst, ← hsnd, List.zip_map']
    have hnarrow := narrow_pairRow hm₁.2 hm₂.2 ps
    have hspread : Spread base.length ((pairCells m₁ m₂ us).map Prod.snd) g := by
      rw [map_snd_pairCells]
      exact hp.congr hbare.symm
    have hfit' := fit_picked_pairRow hfit
    have hput' := putCells_spread A (hrow ▸ h.cells m₁ m₂) hspread (hrow ▸ hnarrow) (hrow ▸ hfit')
    rw [spread_congr hbare, hput, hrow, picked_pairRow, outs_pairRow] at hput'
    cases hput'
    refine ⟨mapWords m₁ m₂ index qs, ?_,
      ⟨rfl, hm₁.1, hm₁.2, hm₂.1, hm₂.2, hfit, long_pickPair, by omega⟩, rfl⟩
    rw [mapWords, (indexWords_eq hhead).1, List.append_assoc, List.append_assoc]

/-- The words of an array with cells of `m` words, but for the first: the cells, and the
    elements that are longer. -/
def cellsSize (us : List Unit) (m : ℕ) : ℕ :=
  us.length * m + ((us.map Unit.size).filter (m < ·)).sum

theorem arraySize_eq_cellsSize (m : ℕ) (us : List Unit) : arraySize m us = cellsSize us m := by
  induction us with
  | nil => simp [arraySize, cellsSize]
  | cons u us ih =>
    rw [arraySize_cons, ih, cellsSize, cellsSize, List.map_cons, List.filter_cons, List.length_cons,
      Nat.succ_mul]
    by_cases h : u.size ≤ m
    · rw [if_pos h, if_neg (by simpa using h)]
      omega
    · rw [if_neg h, if_pos (by simpa using h), List.sum_cons]
      omega

/-- The size that is chosen is the smallest one. -/
theorem bestArraySize_min (us : List Unit) :
    (bestArraySize us).2 = min (cellsSize us 1) (min (cellsSize us 2) (cellsSize us 3)) := by
  obtain ⟨h1, h3⟩ := bestArraySize_fst us
  have hle := fun k => bestArraySize_le us (k := k)
  have h₁ := hle 1 le_rfl (by decide)
  have h₂ := hle 2 (by decide) (by decide)
  have h₃ := hle 3 (by decide) le_rfl
  have hsnd := bestArraySize_snd us
  rw [arraySize_eq_cellsSize] at h₁ h₂ h₃ hsnd
  obtain h | h | h : (bestArraySize us).1 = 1 ∨ (bestArraySize us).1 = 2 ∨
      (bestArraySize us).1 = 3 := by
    omega
  all_goals
    rw [h] at hsnd
    omega

/-- A cell with the words of an element: in it if they fit, and where `Field::GetObject`
    gets to unless they fit and look like a link. -/
def HasElement (b : Bool) (ws : List UInt32) (f : Field) : Prop :=
  (ws.length ≤ f.width → ∃ tail, f.ptr = .at (ws ++ tail)) ∧
    ((ws.length ≤ f.width → ∀ x xs, ws = x :: xs → x &&& 3 ≠ 3) →
      ∃ tail, f.getObject b = .ok (.at (ws ++ tail)))

theorem hasElement_of_shows {b : Bool} {M m : ℕ} {v : List UInt32} {p : Piece UInt32}
    (h : Shows 0 linkWord (2 ^ 30) M m v (pickPiece m p)) (hf : (pickPiece m p).Fits m) (h3 : m ≤ 3)
    (hne : p.words ≠ []) : HasElement b p.words ⟨.at v, m⟩ := by
  have hwords := words_pickPiece m p
  refine ⟨fun hle => ?_, fun hmark => ?_⟩
  · obtain ⟨ws, hp⟩ : ∃ ws, pickPiece m p = .inl ws := by
      cases p with
      | inl ws => exact ⟨ws, rfl⟩
      | out ws => exact ⟨ws, if_pos hle⟩
    rw [hp] at h hwords
    obtain ⟨tail, rfl⟩ := h
    obtain rfl : ws = p.words := hwords
    exact ⟨_, rfl⟩
  · obtain ⟨tail, hobj, -⟩ := getObject_shows m b h hf h3 (by rwa [hwords]) fun x xs hp => by
      rw [hp] at hwords hf
      exact hmark (by rw [← hwords]; exact hf) x xs hwords.symm
    exact ⟨tail, by rw [hobj, hwords]⟩

/-- The array that `SerializeArray` writes for elements that were written since `base`, the
    last one first, each of one word or in the buffer, with any gaps between them: what was
    there before stays, as many words are added as the best width of the cells takes, and
    each cell has the words of its element. -/
theorem serializeArray_cells (base buf out : Buffer) (us : List Unit) (u : Unit)
    (h : Stored true base us buf) (hus : ∀ x ∈ us, ¬x.IsNil ∧ x.len ≤ 1)
    (hok : serializeArray us buf base.length = .ok (u, out)) :
    ∃ w, (if us = [] then out = buf ∧ u.len = 1 ∧ u.data = w else out = w ++ base) ∧
      (∃ front, out = front ++ base) ∧
      w.length = 1 + min (cellsSize us 1) (min (cellsSize us 2) (cellsSize us 3)) ∧
      ∀ b rest, ∃ (m : ℕ) (body : List UInt32),
        openArray b (.at (w ++ rest)) = .ok ⟨.at body, us.length, m⟩ ∧
        ∀ i (hi : i < us.length), HasElement b (us[i].words buf) ⟨.at (body.drop (m * i)), m⟩ := by
  obtain ⟨A, r, hbuf, hel, hsp, hw⟩ := h.pieces fun x hx => (hus x hx).1
  have hlen : us.length = (r.map Prod.snd).length := hel.length_eq
  by_cases hnil : us = []
  · subst hnil
    obtain rfl : r = [] := by
      rw [List.length_map] at hlen
      exact List.length_eq_zero_iff.1 hlen.symm
    cases hok
    refine ⟨[1], by rw [if_pos rfl]; exact ⟨rfl, rfl, rfl⟩, ⟨A, hbuf⟩, rfl, fun b rest => ?_⟩
    have harray : IsArray 1 [] [1] :=
      ⟨rfl, le_rfl, by decide, fun _ hp => absurd hp List.not_mem_nil,
        fun _ hp => absurd hp List.not_mem_nil, by decide, by decide⟩
    exact ⟨1, _, openArray_eq harray b rest, fun i hi => absurd hi (Nat.not_lt_zero i)⟩
  · have hfit := fits_of_len hw (bestArraySize_fst us).1 fun x hx =>
      (hus x hx).2.trans (bestArraySize_fst us).1
    rw [hbuf] at hok
    obtain ⟨w, rfl, harray, hwlen, -⟩ := serializeArray_gaps hel hsp hfit hnil hok
    refine ⟨w, by rw [if_neg hnil], ⟨w, rfl⟩, by rw [hwlen, bestArraySize_min], fun b rest => ?_⟩
    refine ⟨_, _, by rw [openArray_eq harray b rest, List.length_map, hlen], fun i hi => ?_⟩
    have hi' : i < ((r.map Prod.snd).map (pickPiece (bestArraySize us).1)).length := by
      rw [List.length_map, ← hlen]
      exact hi
    have hshow := harray.shows rest hi'
    have hfit := harray.fits _ (List.getElem_mem hi')
    rw [List.getElem_map] at hshow hfit
    have hi'' : i < (r.map Prod.snd).length := hlen ▸ hi
    rw [show us[i].words buf = (r.map Prod.snd)[i].words from (hw.get hi hi'').1]
    obtain ⟨-, hne⟩ := hel.get hi hi''
    exact hasElement_of_shows hshow hfit harray.le hne

/-- A word, a gap and a string of five words, in front of another word. -/
theorem serializeArray_cells_two :
    let us : List Unit := [{ len := 1, d₀ := 4 }, { d₀ := 6, d₁ := 5 }]
    let out : Buffer := [9, 4, 7, 20, 21, 22, 23, 24, 1]
    ∃ w, (if us = [] then out = [0, 20, 21, 22, 23, 24, 1] ∧ Unit.len { d₀ := 9, d₁ := 8 } = 1 ∧
          Unit.data { d₀ := 9, d₁ := 8 } = w else out = w ++ [1]) ∧
      (∃ front, out = front ++ [1]) ∧
      w.length = 1 + min (cellsSize us 1) (min (cellsSize us 2) (cellsSize us 3)) ∧
      ∀ b rest, ∃ (m : ℕ) (body : List UInt32),
        openArray b (.at (w ++ rest)) = .ok ⟨.at body, us.length, m⟩ ∧
        ∀ i (hi : i < us.length),
          HasElement b (us[i].words [0, 20, 21, 22, 23, 24, 1]) ⟨.at (body.drop (m * i)), m⟩ :=
  serializeArray_cells [1] [0, 20, 21, 22, 23, 24, 1] [9, 4, 7, 20, 21, 22, 23, 24, 1]
    [{ len := 1, d₀ := 4 }, { d₀ := 6, d₁ := 5 }] { d₀ := 9, d₁ := 8 }
    (.kept (by decide) (by decide)
      (.gap 0 rfl (.segment [20, 21, 22, 23, 24] rfl (by decide) rfl rfl .nil)))
    (by decide) (by decide +kernel)

/-- A word that is a link, as an element: `Field::GetObject` follows it out of the array. -/
theorem serializeArray_link : ∃ u out, serializeArray [{ len := 1, d₀ := 7 }] [] 0 = .ok (u, out) ∧
    Stored true [] [{ len := 1, d₀ := 7 }] [] ∧
    ∃ body, openArray true (.at out) = .ok ⟨.at body, 1, 1⟩ ∧
      Field.getObject true ⟨.at body, 1⟩ = .ok Ptr.null :=
  ⟨{ d₀ := 2, d₁ := 2 }, [5, 7], by decide +kernel, .kept (by decide) (by decide) .nil, [7],
    by decide +kernel, by decide +kernel⟩

end ProtoCache

import ProtoCache.MapFind
import ProtoCache.Serialize.Stored

/-!
# Heads and links as numbers

The heads of the containers pack counts and widths in a word, and the links the distance
to a segment.

* `offsets_fit`: for units that were written, nothing that is packed runs over its bits:
  the links of arrays and maps lead over less than `2 ^ 30` words, whatever the gaps
  between the segments were, and those of messages if there were none.
* `offsets_unfit`: a unit that has no words, one that is too far away, and one that is too long.
-/

namespace ProtoCache

open Row LittleEndian

/-- What stands from the first word of what was written last on. -/
def Unit.object (u : Unit) (out : Buffer) : List UInt32 := if u.len = 0 then out else u.data

@[simp] theorem object_segment (last now : ℕ) (out : Buffer) :
    (segment last now).object out = out :=
  rfl

/-- A view that begins with a link to `ws`: over some words, and so few that no bit of the
    distance is lost. -/
def LeadsTo (v ws : List UInt32) : Prop :=
  ∃ d w tail tail', 0 < d ∧ d < 2 ^ 30 ∧ v = w :: tail ∧ w.toNat = 4 * d + 3 ∧
    v.drop d = ws ++ tail'

/-- The link in a cell of a row. -/
theorem leadsTo_cells {r r' : List (ℕ × Piece UInt32)} {w : ℕ} {ws : List UInt32}
    (h : Fit (r ++ (w, .out ws) :: r')) (hlt : w + width r' + (outs r).length < 2 ^ 30)
    (rest : List UInt32) :
    LeadsTo ((cells 0 linkWord 0 (r ++ (w, .out ws) :: r') ++
      (outs (r ++ (w, .out ws) :: r') ++ rest)).drop (width r)) ws := by
  obtain ⟨tail, hv, hdrop⟩ := link_cells 0 linkWord h rest
  have hw : 1 ≤ w := h (w, .out ws) (by simp)
  exact ⟨_, _, tail, _, by omega, hlt, hv, linkWord_toNat hlt, by rw [hv, hdrop]⟩

/-- A piece that is too long for its cell is not in it. -/
theorem pickPiece_long {u : Unit} {p : Piece UInt32} {m : ℕ} (hs : u.Sized p)
    (hf : (pickPiece m p).Fits m) (hlt : m < u.size) : pickPiece m p = .out p.words := by
  rw [hs.size_eq] at hlt
  cases p with
  | inl ws => exact absurd hf (Nat.not_le_of_lt hlt)
  | out ws => exact if_neg (Nat.not_le_of_lt hlt)

/-! ## Arrays -/

theorem IsArray.leads {m : ℕ} {ps : List (Piece UInt32)} {w : List UInt32} (h : IsArray m ps w)
    (rest : List UInt32) {i : ℕ} (hi : i < ps.length) {ws : List UInt32} (hp : ps[i] = .out ws) :
    LeadsTo ((arrayBody m ps rest).drop (m * i)) ws := by
  obtain ⟨r, r', hrow, hwidth, hlt⟩ := h.split hi
  have hfit := fit_column.2 h.fits
  rw [hp] at hrow
  rw [hrow] at hfit
  have hlead := leadsTo_cells hfit hlt rest
  rwa [← hrow, outs_column, hwidth] at hlead

/-- The head of an array of `us`, with the size and the width of the cells, and the links to
    the elements that are longer than a cell. -/
def ArrayFits (us : List Unit) (buf : Buffer) (object : List UInt32) : Prop :=
  let m := (bestArraySize us).1
  ∃ head body, object = head :: body ∧ 1 ≤ m ∧ m ≤ 3 ∧ us.length < 2 ^ 30 ∧
    head.toNat = 4 * us.length + m ∧
    ∀ i (hi : i < us.length), m < us[i].size → LeadsTo (body.drop (m * i)) (us[i].words buf)

theorem serializeArray_fits {us : List Unit} {base buf out : Buffer} {u : Unit}
    (h : Stored true base us buf) (hus : ∀ x ∈ us, ¬x.IsNil ∧ x.len ≤ (bestArraySize us).1)
    (hok : serializeArray us buf base.length = .ok (u, out)) : ArrayFits us buf (u.object out) := by
  by_cases hnil : us = []
  · subst hnil
    cases hok
    exact ⟨1, [], rfl, by decide, by decide, by decide, rfl,
      fun i hi => absurd hi (Nat.not_lt_zero i)⟩
  · obtain ⟨A, r, hbuf, hel, hsp, hw⟩ := h.pieces fun x hx => (hus x hx).1
    have hm := bestArraySize_fst us
    have hfit := fits_of_len hw hm.1 fun x hx => (hus x hx).2
    rw [hbuf] at hok
    obtain ⟨w, rfl, harray, -, rfl⟩ := serializeArray_gaps hel hsp hfit hnil hok
    set ps := r.map Prod.snd
    set m := (bestArraySize us).1
    have hlen : us.length = ps.length := hel.length_eq
    have hlt := harray.length_lt
    rw [List.length_map, ← hlen] at hlt
    refine ⟨UInt32.ofNat ((ps.map (pickPiece m)).length <<< 2 ||| m),
      arrayBody m (ps.map (pickPiece m)) base, ?_, hm.1, hm.2, hlt, ?_, fun i hi hlong => ?_⟩
    · rw [object_segment, harray.eq, arrayWords, List.cons_append, List.append_assoc]
      rfl
    · rw [List.length_map, ← hlen]
      exact arrayHead_mark hlt hm.2
    · have hi' : i < ps.length := hlen ▸ hi
      rw [show us[i].words buf = ps[i].words from (hw.get hi hi').1]
      refine harray.leads base (by rwa [List.length_map]) ?_
      rw [List.getElem_map]
      exact pickPiece_long (hel.get hi hi').1 (hfit _ (List.getElem_mem hi')) hlong

/-! ## Maps -/

theorem IsMap.leads {m₁ m₂ : ℕ} {index : List UInt8} {ps : List (Piece UInt32 × Piece UInt32)}
    {w : List UInt32} (h : IsMap m₁ m₂ index ps w) (rest : List UInt32) {i : ℕ} (hi : i < ps.length)
    (ws : List UInt32) :
    (ps[i].1 = .out ws → LeadsTo ((mapBody m₁ m₂ ps rest).drop ((m₁ + m₂) * i)) ws) ∧
      (ps[i].2 = .out ws → LeadsTo (((mapBody m₁ m₂ ps rest).drop ((m₁ + m₂) * i)).drop m₁)
        ws) := by
  obtain ⟨r, r', hrow, hwidth, h₁, h₂⟩ := h.split hi
  have hfit := fit_pairRow.2 h.fits
  refine ⟨fun hp => ?_, fun hp => ?_⟩
  · rw [hp] at hrow
    rw [hrow] at hfit
    have hlead := leadsTo_cells hfit (by rwa [width_cons]) rest
    rwa [← hrow, outs_pairRow, hwidth] at hlead
  · have hrow' : pairRow m₁ m₂ ps = (r ++ [(m₁, ps[i].1)]) ++ (m₂, .out ws) :: r' := by
      rw [hrow, hp, List.append_assoc]
      rfl
    rw [hrow'] at hfit
    have hlead := leadsTo_cells hfit ?_ rest
    · rw [← hrow', outs_pairRow, width_append, hwidth, width_cons, width_nil, Nat.add_zero] at hlead
      rwa [List.drop_drop]
    · rw [outs_append, outs_cons, outs_nil, List.append_nil, List.length_append]
      exact h₂

theorem IsMap.drop_index {m₁ m₂ : ℕ} {index : List UInt8} {ps : List (Piece UInt32 × Piece UInt32)}
    {w : List UInt32} (h : IsMap m₁ m₂ index ps w) (rest : List UInt32) :
    (w ++ rest).drop (wordSize index.length) = mapBody m₁ m₂ ps rest := by
  have hhead : (mapHead m₁ m₂ index).length = wordSize index.length := by
    rw [mapHead, List.length_modifyHead, length_wordsOf]
  rw [h.eq, mapWords, List.append_assoc, ← hhead, List.drop_left, List.append_assoc, mapBody]

/-- The head of a map of `us`, with the number of the pairs and the widths of the cells, and
    the links to the keys and the values that are longer than a cell. -/
def MapFits (index : List UInt8) (us : List (Unit × Unit)) (buf : Buffer) (object : List UInt32) :
    Prop :=
  let m₁ := (bestArraySize (us.map Prod.fst)).1
  let m₂ := (bestArraySize (us.map Prod.snd)).1
  let cells := object.drop (wordSize index.length)
  (∃ head tail, object = head :: tail ∧ 1 ≤ m₁ ∧ m₁ ≤ 3 ∧ 1 ≤ m₂ ∧ m₂ ≤ 3 ∧ us.length < 2 ^ 28 ∧
    head.toNat = us.length + 2 ^ 28 * m₂ + 2 ^ 30 * m₁) ∧
  ∀ i (hi : i < us.length),
    (m₁ < us[i].1.size → LeadsTo (cells.drop ((m₁ + m₂) * i)) (us[i].1.words buf)) ∧
    (m₂ < us[i].2.size → LeadsTo ((cells.drop ((m₁ + m₂) * i)).drop m₁) (us[i].2.words buf))

theorem has_pairs {us : List (Unit × Unit)} {ps : List (Piece UInt32 × Piece UInt32)} {buf : Buffer}
    (h : List.Forall₂ (Unit.Has buf) (flat us) (flat ps)) :
    List.Forall₂ (fun u p => u.1.Has buf p.1 ∧ u.2.Has buf p.2) us ps := by
  induction us generalizing ps with
  | nil =>
    rcases ps with _ | ⟨p, ps⟩
    · exact .nil
    · cases h
  | cons u us ih =>
    rcases ps with _ | ⟨p, ps⟩
    · cases h
    · rw [flat_cons, flat_cons] at h
      obtain ⟨h₁, h⟩ := List.forall₂_cons.1 h
      obtain ⟨h₂, h⟩ := List.forall₂_cons.1 h
      exact .cons ⟨h₁, h₂⟩ (ih h)

theorem serializeMap_fits {hash : List UInt8 → UInt32 → V128} {seeds : ℕ → UInt32}
    {keys : List (List UInt8)} {obj : PerfectHashObject} {index : List UInt8}
    {us : List (Unit × Unit)} {base buf out : Buffer} {u : Unit}
    (hbuild : PerfectHashObject.build hash (keys.map some) seeds true = .ok obj)
    (hd : obj.data = some index) (hkeys : keys.length = us.length)
    (h : Stored true base (flat us) buf)
    (hus : ∀ x ∈ us, (¬x.1.IsNil ∧ x.1.len ≤ (bestArraySize (us.map Prod.fst)).1) ∧ ¬x.2.IsNil ∧
      x.2.len ≤ (bestArraySize (us.map Prod.snd)).1)
    (hok : serializeMap index us buf base.length = .ok (u, out)) :
    MapFits index us buf (u.object out) := by
  by_cases hnil : us = []
  · subst hnil
    cases hok
    exact ⟨⟨_, [], rfl, by decide, by decide, by decide, by decide, by decide, by decide⟩,
      fun i hi => absurd hi (Nat.not_lt_zero i)⟩
  · -- The section starts are those of the map that is written; the index is as long as its header
    -- says.
    obtain ⟨body, pos, hnum, hkeyed⟩ := IsKeyed.of_build hbuild hd
    obtain ⟨A, r, hbuf, hel, hsp, hw⟩ := h.pieces fun x hx => by
      obtain ⟨y, hy, hxy⟩ := List.mem_flatMap.1 hx
      rcases List.mem_pair.1 hxy with rfl | rfl
      · exact (hus y hy).1.1
      · exact (hus y hy).2.1
    obtain ⟨ps, hps, hpairs⟩ := pairs_of_flat hel
    have hhas := has_pairs (hps.symm ▸ hw)
    have hm₁ := bestArraySize_fst (us.map Prod.fst)
    have hm₂ := bestArraySize_fst (us.map Prod.snd)
    -- What is picked of a unit fits the width that is chosen for its side.
    have hfit₁ : ∀ p ∈ ps.map Prod.fst, (pickPiece (bestArraySize (us.map Prod.fst)).1 p).Fits
        (bestArraySize (us.map Prod.fst)).1 := by
      have hkeys : List.Forall₂ (Unit.Has buf) (us.map Prod.fst) (ps.map Prod.fst) := by
        rw [List.forall₂_map_left_iff, List.forall₂_map_right_iff]
        exact hhas.imp fun _ _ h => h.1
      exact fits_of_len hkeys hm₁.1 (List.forall_mem_map.2 fun x hx => (hus x hx).1.2)
    have hfit₂ : ∀ p ∈ ps.map Prod.snd, (pickPiece (bestArraySize (us.map Prod.snd)).1 p).Fits
        (bestArraySize (us.map Prod.snd)).1 := by
      have hvalues : List.Forall₂ (Unit.Has buf) (us.map Prod.snd) (ps.map Prod.snd) := by
        rw [List.forall₂_map_left_iff, List.forall₂_map_right_iff]
        exact hhas.imp fun _ _ h => h.2
      exact fits_of_len hvalues hm₂.1 (List.forall_mem_map.2 fun x hx => (hus x hx).2.2)
    rw [List.forall_mem_map] at hfit₁ hfit₂
    rw [hbuf] at hok
    obtain ⟨w, rfl, hmap, rfl⟩ := serializeMap_gaps hps.symm hpairs hsp hfit₁ hfit₂ hnil hok
    have hlen : us.length = ps.length := hhas.length_eq
    obtain ⟨head, tail, hhead, hmark, -⟩ := hmap.head hkeyed
    rw [object_segment]
    refine ⟨⟨head, tail ++ base, by rw [hhead]; rfl, hm₁.1, hm₁.2, hm₂.1, hm₂.2, ?_, ?_⟩,
      fun i hi => ?_⟩
    · rw [← hkeys]
      exact hkeyed.length
    · rw [hmark, hkeys]
      omega
    · have hi' : i < ps.length := hlen ▸ hi
      obtain ⟨hhas₁, hhas₂⟩ := hhas.get hi hi'
      have hi'' : i < (ps.map (pickPair (bestArraySize (us.map Prod.fst)).1
            (bestArraySize (us.map Prod.snd)).1)).length := by
        rwa [List.length_map]
      -- A unit that is longer than its cell stays out of line, so the cell leads to its words.
      have hlead := hmap.leads base hi''
      simp only [List.getElem_map] at hlead
      have hsized₁ := (hpairs.1.get (i := i) (by simpa using hi) (by simpa using hi')).1
      have hsized₂ := (hpairs.2.get (i := i) (by simpa using hi) (by simpa using hi')).1
      simp only [List.get_eq_getElem, List.getElem_map] at hsized₁ hsized₂ hhas₁ hhas₂
      rw [hmap.drop_index, hhas₁.1, hhas₂.1]
      exact
        ⟨fun hlong => (hlead _).1 (pickPiece_long hsized₁ (hfit₁ _ (List.getElem_mem hi')) hlong),
        fun hlong => (hlead _).2 (pickPiece_long hsized₂ (hfit₂ _ (List.getElem_mem hi')) hlong)⟩

/-! ## Messages -/

/-- The sections of a message of `us`, each with the number of the words before those of its
    own fields, and the links to the segments that are near enough. -/
def MessageFits (us : List Unit) (buf : Buffer) (object : List UInt32) : Prop :=
  (∀ a < sectionCount (us.rdropWhile fun x => x.size = 0).length, ∃ mark low,
    sectionWord object a = .ok mark ∧ ((us.map Unit.width).take (12 + 25 * a)).sum < 2 ^ 14 ∧
    low < 2 ^ 50 ∧ mark.toNat = ((us.map Unit.width).take (12 + 25 * a)).sum * 2 ^ 50 + low) ∧
  ∀ id x, us[id]? = some x → x.IsSegment → linkDistance us buf id x < 2 ^ 30 →
    ∃ v, getField false object id = .ok ⟨.at v, 1⟩ ∧ LeadsTo v (x.words buf)

theorem Unit.view_words {x : Unit} (hs : x.IsSegment) (buf : Buffer) :
    ∃ rest, x.view buf = x.words buf ++ rest :=
  ⟨_, by rw [words, if_pos hs.1, view, List.take_append_drop]⟩

theorem trimmed_take_widths (us : List Unit) (k : ℕ)
    (hk : k ≤ (us.rdropWhile fun x => x.size = 0).length) :
    (((us.rdropWhile fun x => x.size = 0).map Unit.width).take k).sum =
      ((us.map Unit.width).take k).sum := by
  have happ :=
    List.rdropWhile_append_rtakeWhile (p := fun x : Unit => decide (x.size = 0)) (l := us)
  conv_rhs => rw [← happ, List.map_append, List.take_append_of_le_length (by rwa [List.length_map])]

theorem serializeMessage_fits {us : List Unit} {buf out : Buffer} {last : ℕ} {u : Unit}
    (hin : ∀ x ∈ us, x.InBuffer last buf) (hok : serializeMessage us buf last = .ok (u, out)) :
    MessageFits us buf (u.object out) := by
  rw [serializeMessage_unit hok, object_segment]
  constructor
  · intro a ha
    obtain ⟨w, rfl, hmsg, -⟩ := serializeMessage_linked (fun x hx => (hin x hx).1) hok
    have htake := trimmed_take_widths us (12 + 25 * a) (by rw [sectionCount] at ha; omega)
    have hl : ∀ x ∈ us.rdropWhile (fun x => decide (x.size = 0)), x.len ≤ 3 := fun x hx =>
      (hin x ((List.rdropWhile_prefix _ _).subset hx)).1
    generalize us.rdropWhile (fun x => decide (x.size = 0)) = us' at hmsg ha htake hl
    have ha' : a < sectionCount (linked ((us'.map Unit.width).sum + buf.length) us').length := by
      rwa [length_linked]
    obtain ⟨mark, hmark, hval⟩ := hmsg.section buf ha'
    have hcnt := hmsg.counts a ha'
    rw [before] at hval
    rw [widths_linked hl] at hval hcnt
    rw [htake] at hval hcnt
    refine ⟨mark, _, hmark, hcnt, ?_, hval⟩
    have hlow : TwoBit.pack (((us'.map Unit.width).drop (12 + 25 * a)).take 25) < _ :=
      TwoBit.pack_lt fun k hk =>
      hmsg.width_lt k (by
        rw [widths_linked hl]
        exact List.mem_of_mem_drop (List.mem_of_mem_take hk))
    refine hlow.trans_le ((Nat.pow_le_pow_right (by decide) (List.length_take_le _ _)).trans ?_)
    decide
  · intro id x hx hs hlt
    rcases getField_cell (fun x hx => (hin x hx).1) hok false id with ⟨hnil, -⟩ |
      ⟨y, v, front, n, hy, -, hf, ⟨tail, hv⟩, hout, hn, hview, hlen⟩
    · exact absurd (hnil x hx).2 hs.2
    · obtain rfl : x = y := Option.some.inj (hx.symm.trans hy)
      obtain ⟨-, hpos, hpos'⟩ := Unit.InBuffer.segment hin hx hs
      obtain ⟨hlink, hdrop⟩ := link_cell hs hv hout hn hview hpos
      rw [linkDistance, ← hlen] at hlt
      obtain ⟨rest, hrest⟩ := Unit.view_words hs buf
      refine ⟨v, ?_, _, _, tail, rest, ?_, hlt, hlink, linkWord_toNat hlt, by rw [hdrop, hrest]⟩
      · rw [hf, Unit.width, if_neg (not_not.2 hs.1), if_pos hs.2]
      · omega

/-! ## All containers -/

/-- What `SerializeArray`, `SerializeMap` and `SerializeMessage` pack in words when they write
    containers of units that were written, the last one first: the elements and pairs with
    any gaps between them, each unit of words in the buffer or of no more than a cell has,
    the index of a map built for as many keys; and the fields of a message without gaps. -/
theorem offsets_fit :
    (∀ (us : List Unit) (base buf out : Buffer) (u : Unit), Stored true base us buf →
      (∀ x ∈ us, ¬x.IsNil ∧ x.len ≤ (bestArraySize us).1) →
      serializeArray us buf base.length = .ok (u, out) → ArrayFits us buf (u.object out)) ∧
    (∀ (hash : List UInt8 → UInt32 → V128) (seeds : ℕ → UInt32) (keys : List (List UInt8))
      (obj : PerfectHashObject) (index : List UInt8) (us : List (Unit × Unit))
        (base buf out : Buffer) (u : Unit),
      PerfectHashObject.build hash (keys.map some) seeds true = .ok obj → obj.data = some index →
      keys.length = us.length → Stored true base (flat us) buf →
      (∀ x ∈ us, (¬x.1.IsNil ∧ x.1.len ≤ (bestArraySize (us.map Prod.fst)).1) ∧
        ¬x.2.IsNil ∧ x.2.len ≤ (bestArraySize (us.map Prod.snd)).1) →
      serializeMap index us buf base.length = .ok (u, out) → MapFits index us buf (u.object out)) ∧
    (∀ (us : List Unit) (last : ℕ) (buf out : Buffer) (u : Unit), (∀ x ∈ us, x.InBuffer last buf) →
      serializeMessage us buf last = .ok (u, out) → MessageFits us buf (u.object out)) ∧
    ∀ (us : List Unit) (last : ℕ) (base buf out : Buffer) (u : Unit), Stored false base us buf →
      serializeMessage us buf last = .ok (u, out) → ∀ id x, us[id]? = some x → x.IsSegment →
        linkDistance us buf id x < 2 ^ 30 := by
  refine ⟨fun us base buf out u h hus hok => serializeArray_fits h hus hok,
    fun hash seeds keys obj index us base buf out u hbuild hd hkeys h hus hok =>
      serializeMap_fits hbuild hd hkeys h hus hok,
    fun us last buf out u hin hok => serializeMessage_fits hin hok, ?_⟩
  intro us last base buf out u h hok id x hx hs
  have hl : ∀ x ∈ us, x.len ≤ 3 := fun x hx => (h.inBuffer x hx).1
  exact (h.linkDistance_le hx hs).trans_lt (serializeMessage_size hl hok)

/-- Two elements of one and of five words. -/
theorem offsets_fit_two :
    ArrayFits [{ len := 1, d₀ := 4 }, { d₀ := 5, d₁ := 5 }] [20, 21, 22, 23, 24]
      [9, 4, 7, 20, 21, 22, 23, 24] :=
  offsets_fit.1 [{ len := 1, d₀ := 4 }, { d₀ := 5, d₁ := 5 }] [] [20, 21, 22, 23, 24]
    [9, 4, 7, 20, 21, 22, 23, 24] { d₀ := 8, d₁ := 8 }
    (.kept (by decide) (by decide) (.segment [20, 21, 22, 23, 24] rfl (by decide) rfl rfl .nil))
    (by decide) (by decide +kernel)

/-- A value of no word, of which the position is one, is written as a link over no word; a
    segment that is `2 ^ 30 + 1` words away as a link over one word; and the link of the second
    element of an array is lost where the three words of the first run over their cell. -/
theorem offsets_unfit :
    serializeMap [1, 0, 0, 0] [({ len := 1, d₀ := 5 }, { d₀ := 1 })] [] 0 =
        .ok ({ d₀ := 3, d₁ := 3 }, [0x50000001, 5, offset 0]) ∧
      (∃ u out, serializeMessage [{ d₀ := 1, d₁ := 1 }] (List.replicate (2 ^ 30) 0 ++ [7]) 0 =
        .ok (u, out) ∧
        linkDistance [{ d₀ := 1, d₁ := 1 }] (List.replicate (2 ^ 30) 0 ++ [7]) 0
          { d₀ := 1, d₁ := 1 } = 2 ^ 30 + 1 ∧
        out[1]? = some (offset 1)) ∧
      serializeArray [{ len := 3, d₀ := 4, d₁ := 5, d₂ := 6 }, { d₀ := 5, d₁ := 5 }]
        [20, 21, 22, 23, 24] 0 =
        .ok ({ d₀ := 8, d₁ := 8 }, [9, 4, 5, 6, 21, 22, 23, 24]) := by
  refine ⟨by decide +kernel, ?_, by decide +kernel⟩
  have hlen : (List.replicate (2 ^ 30) (0 : UInt32) ++ [7]).length = 2 ^ 30 + 1 := by
    rw [List.length_append, List.length_replicate, List.length_singleton]
  generalize List.replicate (2 ^ 30) (0 : UInt32) ++ [7] = buf at hlen
  refine ⟨_, _, serializeMessage_last buf, ?_, ?_⟩
  · rw [linkDistance, hlen]
    rfl
  · have hword : offset (UInt32.ofNat (1 + buf.length) - 1) = offset 1 := by
      rw [hlen]
      decide
    rw [hword]
    rfl

end ProtoCache

import ProtoCache.Serialize.Stored

/-!
# Units without words in a container

`SerializeArray` and `SerializeMap` write a cell for a unit for which nothing was
written, too: `Mark` takes it for a segment, and makes a link from its position
(`Unit.Filled`).

* `serializeArray_fill`, `serializeMap_fill`: what is written is what would be written if
  these links were the words of the units.
* `serializeMapFieldByKey_filling`: so it is with a map of which some values have no words.
-/

namespace ProtoCache

/-- A link has the mark of a link. -/
theorem offset_mark (off : UInt32) : offset off &&& 3 = 3 := by
  have h4 : off.toNat <<< 2 % 2 ^ 32 % 2 ^ 2 = 0 := by
    rw [Nat.shiftLeft_eq]
    omega
  rw [← UInt32.toNat_inj, and_three, offset, UInt32.toNat_or, UInt32.toNat_shiftLeft]
  change (off.toNat <<< 2 % 2 ^ 32 ||| 3) % 2 ^ 2 = 3
  rw [Nat.or_mod_two_pow, h4]
  rfl

/-- A unit with a link for its word, in the place of a unit without words. -/
def Unit.Filled (u u' : Unit) : Prop :=
  ¬u.IsNil ∧ u' = u ∨ u.IsNil ∧ ∃ w : UInt32, w &&& 3 = 3 ∧ u' = { len := 1, d₀ := w }

namespace Unit.Filled

variable {u u' : Unit}

theorem eq_of_not_nil (h : u.Filled u') (hn : ¬u.IsNil) : u' = u := by
  rcases h with ⟨-, h⟩ | ⟨h, -⟩
  · exact h
  · exact absurd h hn

theorem not_nil (h : u.Filled u') : ¬u'.IsNil := by
  rcases h with ⟨hn, rfl⟩ | ⟨-, w, -, rfl⟩
  · exact hn
  · exact fun hn => absurd hn.1 Nat.one_ne_zero

theorem len_le (h : u.Filled u') {m : ℕ} (hm : 1 ≤ m) (hl : u.len ≤ m) : u'.len ≤ m := by
  rcases h with ⟨-, rfl⟩ | ⟨-, w, -, rfl⟩
  · exact hl
  · exact hm

/-- Out of line, both take as many words. -/
theorem size_le (h : u.Filled u') {m : ℕ} (hm : 1 ≤ m) :
    (if u'.size ≤ m then 0 else u'.size) = if u.size ≤ m then 0 else u.size := by
  rcases h with ⟨-, rfl⟩ | ⟨hn, w, -, rfl⟩
  · rfl
  · rw [if_pos (by exact hm), Unit.size_eq_zero.2 hn, if_pos (Nat.zero_le m)]

end Unit.Filled

/-! ## Cells -/

/-- Cells of the same widths, with a link for every unit without words. -/
def FilledCells : List (ℕ × Unit) → List (ℕ × Unit) → Prop :=
  List.Forall₂ fun c c' => c'.1 = c.1 ∧ c.2.Filled c'.2

theorem pick_nil {u : Unit} (h : u.IsNil) (buf : Buffer) (tail m : ℕ) :
    pick u buf tail m = .ok (u, buf, tail) := by
  obtain ⟨h0, hseg⟩ := h
  have hlen : u.segLen.toNat = 0 := congrArg UInt32.toNat hseg
  have hload : Storage.load (buf.drop (buf.length - u.segPos.toNat)) 0 = some [] :=
    Storage.load_of_le (Nat.zero_le _)
  rw [pick, if_neg (not_not.2 h0)]
  dsimp only
  rw [hlen, if_pos (Nat.zero_le m), if_pos (.inl rfl), hload, ← h0]
  rfl

/-- A unit with words has some after `Pick`. -/
theorem pick_not_nil {u u' : Unit} {buf buf' : Buffer} {tail tail' m : ℕ}
    (h : pick u buf tail m = .ok (u', buf', tail')) (hn : ¬u.IsNil) : ¬u'.IsNil := by
  by_cases h0 : u.len ≠ 0
  · rw [pick, if_pos h0] at h
    cases h
    exact hn
  · rw [not_not] at h0
    have hseg : u.segLen ≠ 0 := fun hs => hn ⟨h0, hs⟩
    rw [pick, if_neg (not_not.2 h0)] at h
    dsimp only at h
    split at h
    · split at h
      · obtain ⟨src, -, h⟩ := Res.bind_eq_ok.1 h
        cases h
        exact fun hn' => hseg (UInt32.toNat_inj.1 hn'.1)
      · cases h
    · split at h
      · obtain ⟨buf₁, -, h⟩ := Res.bind_eq_ok.1 h
        cases h
        exact hn
      · cases h
        exact hn

theorem pickAll_fill {cs cs₁ cs₁' : List (ℕ × Unit)} {buf buf₁ : Buffer} {tail tail₁ : ℕ}
    (h : pickAll cs buf tail = .ok (cs₁, buf₁, tail₁)) (hf : FilledCells cs₁ cs₁') :
    ∃ cs', FilledCells cs cs' ∧ pickAll cs' buf tail = .ok (cs₁', buf₁, tail₁) := by
  -- By induction on the cells, the last of which is picked first.
  induction cs generalizing cs₁ cs₁' buf₁ tail₁ with
  | nil =>
    cases h
    cases hf
    exact ⟨[], .nil, rfl⟩
  | cons c cs ih =>
    obtain ⟨m, u⟩ := c
    rw [pickAll] at h
    obtain ⟨⟨cs₂, buf₂, tail₂⟩, h₂, h⟩ := Res.bind_eq_ok.1 h
    obtain ⟨⟨u₁, buf₃, tail₃⟩, h₁, h⟩ := Res.bind_eq_ok.1 h
    cases h
    obtain ⟨⟨m', u'⟩, cs₂', ⟨hm, hu⟩, hcs, rfl⟩ := List.forall₂_cons_left_iff.1 hf
    obtain rfl : m' = m := hm
    obtain ⟨cs', hcs', hpick⟩ := ih h₂ hcs
    by_cases hn : u.IsNil
    · -- The link is not in the buffer, so it is left alone.
      rw [pick_nil hn] at h₁
      cases h₁
      obtain ⟨w, hw, rfl⟩ := (hu.resolve_left fun hnot => hnot.1 hn).2
      refine ⟨(m', { len := 1, d₀ := w }) :: cs', .cons ⟨rfl, hu⟩ hcs', ?_⟩
      rw [pickAll, hpick]
      rfl
    · obtain rfl := hu.eq_of_not_nil (pick_not_nil h₁ hn)
      refine ⟨(m', u) :: cs', .cons ⟨rfl, .inl ⟨hn, rfl⟩⟩ hcs', ?_⟩
      rw [pickAll, hpick]
      change pick u buf₂ tail₂ m' >>= _ = _
      rw [h₁]
      rfl

theorem markAll_fill {cs : List (ℕ × Unit)} {buf out : Buffer} (h : markAll cs buf = .ok out) :
    ∃ cs', FilledCells cs cs' ∧ markAll cs' buf = .ok out := by
  induction cs generalizing out with
  | nil => exact ⟨[], .nil, h⟩
  | cons c cs ih =>
    obtain ⟨m, u⟩ := c
    rw [markAll] at h
    obtain ⟨out₁, h₁, h⟩ := Res.bind_eq_ok.1 h
    obtain ⟨cs', hcs', hmark⟩ := ih h₁
    by_cases hn : u.IsNil
    · rw [mark, if_pos hn.1] at h
      split at h
      · cases h
      · next hm =>
        cases h
        refine ⟨(m, { len := 1, d₀ := offset (UInt32.ofNat (m + out₁.length) - u.segPos) }) :: cs',
          .cons ⟨rfl, .inr ⟨hn, _, offset_mark _, rfl⟩⟩ hcs', ?_⟩
        rw [markAll, hmark, Res.ok_bind, mark, if_neg Nat.one_ne_zero, Nat.sub_eq_zero_of_le
          (Nat.one_le_iff_ne_zero.2 hm), if_pos (Nat.zero_le _), List.drop_zero]
        rfl
    · exact ⟨(m, u) :: cs', .cons ⟨rfl, .inl ⟨hn, rfl⟩⟩ hcs', by
        rw [markAll, hmark, Res.ok_bind, h]⟩

theorem putCells_fill {cs : List (ℕ × Unit)} {buf out : Buffer} {last : ℕ}
    (h : putCells cs buf last = .ok out) :
    ∃ cs', FilledCells cs cs' ∧ putCells cs' buf last = .ok out := by
  rw [putCells] at h
  obtain ⟨⟨cs₁, buf₁, tail⟩, hpick, hmark⟩ := Res.bind_eq_ok.1 h
  obtain ⟨cs₁', hf₁, hmark'⟩ := markAll_fill hmark
  obtain ⟨cs', hf, hpick'⟩ := pickAll_fill hpick hf₁
  exact ⟨cs', hf, by rw [putCells, hpick', Res.ok_bind]; exact hmark'⟩

/-! ## Containers -/

theorem arraySize_fill {us us' : List Unit} (h : List.Forall₂ Unit.Filled us us') {m : ℕ}
    (hm : 1 ≤ m) :
    arraySize m us' = arraySize m us := by
  induction h with
  | nil => rfl
  | cons hu _ ih => rw [arraySize_cons, arraySize_cons, ih, hu.size_le hm]

theorem bestArraySize_fill {us us' : List Unit} (h : List.Forall₂ Unit.Filled us us') :
    bestArraySize us' = bestArraySize us := by
  have h1 := arraySize_fill h (m := 1) (by decide)
  have h2 := arraySize_fill h (m := 2) (by decide)
  have h3 := arraySize_fill h (m := 3) (by decide)
  unfold bestArraySize
  dsimp only
  rw [h1, h2, h3]
  by_cases hlt : arraySize 2 us < arraySize 1 us
  · simp only [if_pos hlt, h2]
    split
    · rw [h3]
    · rw [h2]
  · simp only [if_neg hlt, h1]
    split
    · rw [h3]
    · rw [h1]

theorem not_nil_fill {us us' : List Unit} (h : List.Forall₂ Unit.Filled us us') :
    ∀ x ∈ us', ¬x.IsNil := by
  induction h with
  | nil => exact fun x hx => absurd hx List.not_mem_nil
  | cons hu _ ih => exact List.forall_mem_cons.2 ⟨hu.not_nil, ih⟩

/-- The words that are not in the buffer fit in the cells, as they did. -/
theorem len_le_fill {us us' : List Unit} (h : List.Forall₂ Unit.Filled us us')
    (hl : ∀ x ∈ us, x.len ≤ (bestArraySize us).1) : ∀ x ∈ us', x.len ≤ (bestArraySize us').1 := by
  have hm := bestArraySize_fst us
  rw [bestArraySize_fill h]
  generalize (bestArraySize us).1 = m at hl hm
  induction h with
  | nil => exact fun x hx => absurd hx List.not_mem_nil
  | cons hu _ ih =>
    exact List.forall_mem_cons.2 ⟨hu.len_le hm.1 (hl _ List.mem_cons_self),
      ih fun x hx => hl x (.tail _ hx)⟩

theorem Stored.fill {gaps : Bool} {base buf : Buffer} {us us' : List Unit}
    (h : Stored gaps base us buf) (hf : List.Forall₂ Unit.Filled us us') :
    Stored gaps base us' buf := by
  induction h generalizing us' with
  | nil =>
    cases hf
    exact .nil
  | gap w hg _ ih => exact .gap w hg (ih hf)
  | kept hn h3 _ ih =>
    obtain ⟨u', us', hu, hus, rfl⟩ := List.forall₂_cons_left_iff.1 hf
    rcases hu with ⟨-, rfl⟩ | ⟨-, w, -, rfl⟩
    · exact .kept hn h3 (ih hus)
    · exact .kept (fun h => absurd h.1 Nat.one_ne_zero) (Nat.le_add_left 1 2) (ih hus)
  | segment ws h0 hne hlen hpos _ ih =>
    obtain ⟨u', us', hu, hus, rfl⟩ := List.forall₂_cons_left_iff.1 hf
    obtain rfl :=
      hu.eq_of_not_nil fun hn => hne (List.length_eq_zero_iff.1 (by rw [← hlen, hn.2]; rfl))
    exact .segment ws h0 hne hlen hpos (ih hus)

/-- The cells of an array, filled, are the cells of an array. -/
theorem filled_column {m : ℕ} {us : List Unit} {cs' : List (ℕ × Unit)}
    (h : FilledCells (us.map fun u => (m, u)) cs') :
    ∃ us', List.Forall₂ Unit.Filled us us' ∧ cs' = us'.map fun u => (m, u) := by
  induction us generalizing cs' with
  | nil =>
    cases h
    exact ⟨[], .nil, rfl⟩
  | cons u us ih =>
    obtain ⟨⟨m', u'⟩, cs', ⟨hm, hu⟩, hcs, rfl⟩ := List.forall₂_cons_left_iff.1 h
    obtain rfl : m' = m := hm
    obtain ⟨us', hus, rfl⟩ := ih hcs
    exact ⟨u' :: us', .cons hu hus, rfl⟩

/-- An array with units without words is that with links in their place. -/
theorem serializeArray_fill {us : List Unit} {buf : Buffer} {last : ℕ} {r : Unit × Buffer}
    (h : serializeArray us buf last = .ok r) :
    ∃ us', List.Forall₂ Unit.Filled us us' ∧ serializeArray us' buf last = .ok r := by
  by_cases hnil : us = []
  · subst hnil
    exact ⟨[], .nil, h⟩
  · rw [serializeArray, if_neg hnil] at h
    dsimp only at h
    split at h
    · cases h
    · next hlt =>
      obtain ⟨out, hput, h⟩ := Res.bind_eq_ok.1 h
      obtain ⟨cs', hf, hput'⟩ := putCells_fill hput
      obtain ⟨us', hus, rfl⟩ := filled_column hf
      have hlen : us.length = us'.length := hus.length_eq
      refine ⟨us', hus, ?_⟩
      rw [serializeArray, if_neg fun h0 => hnil (List.length_eq_zero_iff.1 (by rw [hlen, h0]; rfl)),
        bestArraySize_fill hus]
      dsimp only
      rw [if_neg hlt, hput', ← hlen]
      exact h

/-- Units in pairs, with links in the place of those without words. -/
def FilledPairs : List (Unit × Unit) → List (Unit × Unit) → Prop :=
  List.Forall₂ fun u u' => u.1.Filled u'.1 ∧ u.2.Filled u'.2

namespace FilledPairs

variable {us us' : List (Unit × Unit)}

theorem flat (h : FilledPairs us us') :
    List.Forall₂ Unit.Filled (ProtoCache.flat us) (ProtoCache.flat us') := by
  induction h with
  | nil => exact .nil
  | cons hu _ ih => exact .cons hu.1 (.cons hu.2 ih)

theorem fst (h : FilledPairs us us') :
    List.Forall₂ Unit.Filled (us.map Prod.fst) (us'.map Prod.fst) := by
  rw [List.forall₂_map_left_iff, List.forall₂_map_right_iff]
  exact h.imp fun _ _ h => h.1

theorem snd (h : FilledPairs us us') :
    List.Forall₂ Unit.Filled (us.map Prod.snd) (us'.map Prod.snd) := by
  rw [List.forall₂_map_left_iff, List.forall₂_map_right_iff]
  exact h.imp fun _ _ h => h.2

end FilledPairs

/-- The cells of a map, filled, are the cells of a map. -/
theorem filled_pairCells {m₁ m₂ : ℕ} {us : List (Unit × Unit)} {cs' : List (ℕ × Unit)}
    (h : FilledCells (pairCells m₁ m₂ us) cs') :
    ∃ us', FilledPairs us us' ∧ cs' = pairCells m₁ m₂ us' := by
  induction us generalizing cs' with
  | nil =>
    cases h
    exact ⟨[], .nil, rfl⟩
  | cons u us ih =>
    obtain ⟨⟨m₁', u₁⟩, _, ⟨hm₁, hu₁⟩, hcs₁, rfl⟩ := List.forall₂_cons_left_iff.1 h
    obtain ⟨⟨m₂', u₂⟩, cs', ⟨hm₂, hu₂⟩, hcs, rfl⟩ := List.forall₂_cons_left_iff.1 hcs₁
    obtain rfl : m₁' = m₁ := hm₁
    obtain rfl : m₂' = m₂ := hm₂
    obtain ⟨us', hus, rfl⟩ := ih hcs
    exact ⟨(u₁, u₂) :: us', .cons ⟨hu₁, hu₂⟩ hus, rfl⟩

/-- A map with units without words is that with links in their place. -/
theorem serializeMap_fill {index : List UInt8} {us : List (Unit × Unit)} {buf : Buffer} {last : ℕ}
    {r : Unit × Buffer} (h : serializeMap index us buf last = .ok r) :
    ∃ us', FilledPairs us us' ∧ serializeMap index us' buf last = .ok r := by
  by_cases hnil : us = []
  · subst hnil
    exact ⟨[], .nil, h⟩
  · rw [serializeMap, if_neg hnil] at h
    dsimp only at h
    split at h
    · cases h
    · next hlt =>
      obtain ⟨out, hput, h⟩ := Res.bind_eq_ok.1 h
      obtain ⟨cs', hf, hput'⟩ := putCells_fill hput
      obtain ⟨us', hus, rfl⟩ := filled_pairCells hf
      have hlen : us.length = us'.length := hus.length_eq
      refine ⟨us', hus, ?_⟩
      rw [serializeMap, if_neg fun h0 => hnil (List.length_eq_zero_iff.1 (by rw [hlen, h0]; rfl)),
        bestArraySize_fill hus.fst, bestArraySize_fill hus.snd]
      dsimp only
      rw [if_neg hlt, hput']
      exact h

/-! ## Maps with values that have no words -/

section

variable {κ β : Type} {putKey : κ → Buffer → Res (Unit × Buffer)}
  {put : ℕ → β → Buffer → Res (Unit × Buffer)} {pairs : List (κ × β)}

/-- A writer with a link for every value that is void; there is one for each number of pairs
    behind the value. -/
def filling (void : β → Prop) [DecidablePred void] (links : ℕ → UInt32)
    (put : ℕ → β → Buffer → Res (Unit × Buffer)) (i : ℕ) (x : β) (buf : Buffer) :
    Res (Unit × Buffer) :=
  if void x then .ok ({ len := 1, d₀ := links i }, buf) else put i x buf

section

variable (void : β → Prop) [DecidablePred void]

/-- Pairs of which some values have no words are written as if these were the links that are
    made for them. -/
theorem putPairs_filling (hkey : ∀ key B r, putKey key B = .ok r → ¬r.1.IsNil)
    (hvoid : ∀ p ∈ pairs, void p.2 → ∀ i B r, put i p.2 B = .ok r → r.1.IsNil ∧ r.2 = B)
    (hput : ∀ p ∈ pairs, ¬void p.2 → ∀ i B r, put i p.2 B = .ok r → ¬r.1.IsNil) {book : List ℕ}
    {B out : Buffer} {us us' : List (Unit × Unit)}
    (h : putPairs putKey put pairs book B = .ok (us, out)) (hf : FilledPairs us us') :
    ∃ links : ℕ → UInt32, (∀ i, links i &&& 3 = 3) ∧ ∀ links' : ℕ → UInt32,
      (∀ i < book.length, links' i = links i) →
      putPairs putKey (filling void links' put) pairs book B = .ok (us', out) := by
  induction book generalizing us us' out with
  | nil =>
    cases h
    cases hf
    exact ⟨fun _ => offset 0, fun _ => offset_mark 0, fun _ _ => rfl⟩
  | cons i book ih =>
    rw [putPairs] at h
    obtain ⟨⟨us₁, out₁⟩, h₁, h⟩ := Res.bind_eq_ok.1 h
    obtain ⟨⟨key, value⟩, hpair, h⟩ := Res.bind_eq_ok.1 h
    obtain ⟨⟨u₂, out₂⟩, h₂, h⟩ := Res.bind_eq_ok.1 h
    obtain ⟨⟨u₁, out₃⟩, h₃, h⟩ := Res.bind_eq_ok.1 h
    cases h
    obtain ⟨⟨u₁', u₂'⟩, us₁', ⟨hu₁, hu₂⟩, hus, rfl⟩ := List.forall₂_cons_left_iff.1 hf
    obtain rfl : u₁' = u₁ := hu₁.eq_of_not_nil (hkey _ _ _ h₃)
    have hmem := List.mem_of_getElem? (access_eq_ok.1 hpair)
    obtain ⟨links, hmark, hlinks⟩ := ih h₁ hus
    -- The link of this value, if it is void, is put before the others.
    have hhead : ∃ w : UInt32, w &&& 3 = 3 ∧ ∀ links' : ℕ → UInt32, links' book.length = w →
        filling void links' put book.length value out₁ = .ok (u₂', out₂) := by
      by_cases hv : void value
      · obtain ⟨hnil, hout⟩ := hvoid _ hmem hv _ _ _ h₂
        obtain rfl : out₂ = out₁ := hout
        obtain ⟨w, hw, hu₂⟩ := (hu₂.resolve_left fun hnot => hnot.1 hnil).2
        obtain rfl : u₂' = { len := 1, d₀ := w } := hu₂
        refine ⟨w, hw, fun links' heq => ?_⟩
        rw [filling, if_pos hv, heq]
      · obtain rfl : u₂' = u₂ := hu₂.eq_of_not_nil (hput _ hmem hv _ _ _ h₂)
        refine ⟨offset 0, offset_mark 0, fun links' _ => ?_⟩
        rw [filling, if_neg hv]
        exact h₂
    obtain ⟨w, hw, hhead⟩ := hhead
    refine ⟨Function.update links book.length w, fun j => ?_, fun links' heq => ?_⟩
    · by_cases hj : j = book.length
      · rw [hj, Function.update_self]
        exact hw
      · rw [Function.update_of_ne hj]
        exact hmark j
    · have hlast : links' book.length = w := by
        rw [heq _ (Nat.lt_succ_self _), Function.update_self]
      have htail : ∀ j < book.length, links' j = links j := fun j hj => by
        rw [heq j (hj.trans (Nat.lt_succ_self _)), Function.update_of_ne hj.ne]
      rw [putPairs, hlinks links' htail, Res.ok_bind]
      dsimp only
      rw [hpair, Res.ok_bind]
      dsimp only
      rw [hhead links' hlast, Res.ok_bind]
      dsimp only
      rw [h₃]
      rfl

/-- A map of which some values have no words is that with the links that are made for them. -/
theorem serializeMapFieldByKey_filling {hash : List UInt8 → UInt32 → V128} {seeds : ℕ → UInt32}
    {keyBytes : κ → List UInt8} {B : Buffer} {r : Unit × Buffer}
    (hkey : ∀ key B r, putKey key B = .ok r → ¬r.1.IsNil)
    (hvoid : ∀ p ∈ pairs, void p.2 → ∀ i B r, put i p.2 B = .ok r → r.1.IsNil ∧ r.2 = B)
    (hput : ∀ p ∈ pairs, ¬void p.2 → ∀ i B r, put i p.2 B = .ok r → ¬r.1.IsNil)
    (h : serializeMapFieldByKey hash seeds keyBytes putKey put pairs B = .ok r) :
    ∃ links : ℕ → UInt32, (∀ i, links i &&& 3 = 3) ∧
      serializeMapFieldByKey hash seeds keyBytes putKey (filling void links put) pairs B =
        .ok r := by
  rw [serializeMapFieldByKey] at h
  dsimp only at h
  obtain ⟨obj, hbuild, h⟩ := Res.bind_eq_ok.1 h
  cases hd : obj.data with
  | none =>
    rw [hd] at h
    cases h
  | some data =>
    rw [hd] at h
    obtain ⟨book, hbook, h⟩ := Res.bind_eq_ok.1 h
    obtain ⟨⟨us, out⟩, hputs, h⟩ := Res.bind_eq_ok.1 h
    obtain ⟨us', hfill, hmap⟩ := serializeMap_fill h
    obtain ⟨links, hmark, hlinks⟩ := putPairs_filling void hkey hvoid hput hputs hfill
    refine ⟨links, hmark, ?_⟩
    rw [serializeMapFieldByKey]
    dsimp only
    rw [hbuild, Res.ok_bind, hd]
    dsimp only
    rw [hbook, Res.ok_bind, hlinks links fun _ _ => rfl, Res.ok_bind]
    exact hmap

end

/-- A map whose values have no words is that of the links that are made for them. -/
theorem serializeMapFieldByKey_fill {hash : List UInt8 → UInt32 → V128} {seeds : ℕ → UInt32}
    {keyBytes : κ → List UInt8} {B : Buffer} {r : Unit × Buffer}
    (hkey : ∀ key B r, putKey key B = .ok r → ¬r.1.IsNil)
    (hput : ∀ p ∈ pairs, ∀ i B r, put i p.2 B = .ok r → r.1.IsNil ∧ r.2 = B)
    (h : serializeMapFieldByKey hash seeds keyBytes putKey put pairs B = .ok r) :
    ∃ links : ℕ → UInt32, (∀ i, links i &&& 3 = 3) ∧
      serializeMapFieldByKey hash seeds keyBytes putKey
        (fun i _ B => .ok ({ len := 1, d₀ := links i }, B)) pairs B =
        .ok r := by
  have hfill : ∀ links : ℕ → UInt32, filling (fun _ => True) links put =
      fun i _ B => .ok ({ len := 1, d₀ := links i }, B) := by
    intro links
    funext i x B
    exact if_pos trivial
  obtain ⟨links, hlinks, hr⟩ :=
    serializeMapFieldByKey_filling (fun _ => True) hkey (fun p hp _ => hput p hp)
    (fun _ _ hn => absurd trivial hn) h
  rw [hfill links] at hr
  exact ⟨links, hlinks, hr⟩

/-- The words of a link. -/
def IsLink (ws : List UInt32) : Prop := ∃ w : UInt32, w &&& 3 = 3 ∧ ws = [w]

/-- What is written for a value, or for the link in its place. -/
theorem filling_wrote (void : β → Prop) [DecidablePred void] {c : Option ℕ}
    {V : β → List UInt32 → Prop} {links : ℕ → UInt32} (hlinks : ∀ i, links i &&& 3 = 3) {x : β}
    (hc : void x → c = none ∨ c = some 1)
    (hput : ¬void x → ∀ i B r, put i x B = .ok r → Wrote c B r fun q => V x q.words) {i : ℕ}
    {B : Buffer} {r : Unit × Buffer} (h : filling void links put i x B = .ok r) :
    Wrote c B r fun q => (void x → IsLink q.words) ∧ (¬void x → V x q.words) := by
  rw [filling] at h
  split_ifs at h with hv
  · cases h
    have hone : Wrote (some 1) B ({ len := 1, d₀ := links i }, B) fun q =>
        (void x → IsLink q.words) ∧ (¬void x → V x q.words) :=
      wrote_inl [links i] rfl rfl (List.cons_ne_nil _ _)
        ⟨fun _ => ⟨links i, hlinks i, rfl⟩, fun hnot => absurd hv hnot⟩
    rcases hc hv with rfl | rfl
    · exact hone.weaken
    · exact hone
  · exact (hput hv i B r h).imp fun q _ hq => ⟨fun h => absurd h hv, fun _ => hq⟩

end

end ProtoCache

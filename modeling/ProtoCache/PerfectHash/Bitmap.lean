import ProtoCache.Basic
import ProtoCache.PerfectHash.Graph

/-!
# The bitmap of a perfect hash

The table of a perfect hash has a cell of two bits for each slot: 3 where the
slot is free, and a number below 3 where a key owns it. The cells at the three
slots of a key add up to the index of the one it owns, modulo 3. `Mapping`
(`src/perfect_hash.cc`) sets the cells, going through the edges in the reverse
of the order in which `TearGraph` took them away: each finds a slot not used by
the edges before it, and its cell decides the sum.

* `mapping_spec`: every edge owns a slot of its own, and no other cell is set.
-/

namespace ProtoCache

/-! ## Cells -/

/-- `Bit2`. -/
def bit2 (vec : List UInt8) (pos : ℕ) : Res ℕ := do
  let b ← access vec[pos >>> 2]?
  return (b >>> UInt8.ofNat ((pos &&& 3) <<< 1) &&& 3).toNat

/-- `SetBit2on11`. -/
def setBit2on11 (vec : List UInt8) (pos : ℕ) (val : UInt8) : Res (List UInt8) := do
  let b ← access vec[pos >>> 2]?
  return vec.set (pos >>> 2) (b ^^^ (~~~val &&& 3) <<< UInt8.ofNat ((pos &&& 3) <<< 1))

/-- The cell of a slot. -/
def cell (vec : List UInt8) (pos : ℕ) : ℕ := (vec.getD (pos / 4) 0).toNat / 4 ^ (pos % 4) % 4

theorem cell_lt (vec : List UInt8) (pos : ℕ) : cell vec pos < 4 := Nat.mod_lt _ (by decide)

theorem pos_shiftRight (pos : ℕ) : pos >>> 2 = pos / 4 := Nat.shiftRight_eq_div_pow pos 2

theorem pos_and (pos : ℕ) : (pos &&& 3) <<< 1 = 2 * (pos % 4) := by
  rw [Nat.shiftLeft_eq, Nat.and_two_pow_sub_one_eq_mod pos 2]
  omega

theorem byte_cell : ∀ (b : UInt8) (r : Fin 4),
    (b >>> UInt8.ofNat (2 * r) &&& 3).toNat = b.toNat / 4 ^ (r : ℕ) % 4 :=
  forall_byte (by decide +kernel)

theorem byte_set : ∀ (b : UInt8) (r r' : Fin 4) (val : Fin 3), b.toNat / 4 ^ (r : ℕ) % 4 = 3 →
    (b ^^^ (~~~UInt8.ofNat val &&& 3) <<< UInt8.ofNat (2 * r)).toNat / 4 ^ (r' : ℕ) % 4 =
      if r' = r then (val : ℕ) else b.toNat / 4 ^ (r' : ℕ) % 4 :=
  forall_byte (by decide +kernel)

theorem bit2_eq {vec : List UInt8} {pos : ℕ} (h : pos < 4 * vec.length) :
    bit2 vec pos = .ok (cell vec pos) := by
  have hlt : pos / 4 < vec.length := by omega
  rw [bit2, pos_shiftRight, pos_and, List.getElem?_eq_getElem hlt, cell,
    List.getD_eq_getElem?_getD, List.getElem?_eq_getElem hlt]
  exact congrArg _ (byte_cell vec[pos / 4] ⟨pos % 4, Nat.mod_lt _ (by decide)⟩)

/-- Setting a free cell. -/
theorem setBit2on11_eq {vec : List UInt8} {pos : ℕ} (h : pos < 4 * vec.length)
    (hc : cell vec pos = 3) {val : ℕ} (hval : val < 3) :
    ∃ vec', setBit2on11 vec pos (UInt8.ofNat val) = .ok vec' ∧ vec'.length = vec.length ∧
      ∀ p, cell vec' p = if p = pos then val else cell vec p := by
  have hlt : pos / 4 < vec.length := by omega
  rw [setBit2on11, pos_shiftRight, pos_and, List.getElem?_eq_getElem hlt]
  refine ⟨_, rfl, List.length_set, fun p => ?_⟩
  have hb : cell vec pos = vec[pos / 4].toNat / 4 ^ (pos % 4) % 4 := by
    rw [cell, List.getD_eq_getElem?_getD, List.getElem?_eq_getElem hlt, Option.getD_some]
  rw [hb] at hc
  have hset := byte_set vec[pos / 4] ⟨pos % 4, Nat.mod_lt _ (by decide)⟩
    ⟨p % 4, Nat.mod_lt _ (by decide)⟩ ⟨val, hval⟩ hc
  rw [cell, List.getD_eq_getElem?_getD, List.getElem?_set]
  by_cases hp : pos / 4 = p / 4
  · rw [if_pos hp, if_pos hlt, Option.getD_some]
    refine hset.trans ?_
    simp only [Fin.mk.injEq]
    by_cases hr : p % 4 = pos % 4
    · rw [if_pos hr, if_pos (by omega)]
    · rw [if_neg hr, if_neg (by rintro rfl; exact hr rfl), cell, ← hp,
        List.getD_eq_getElem?_getD, List.getElem?_eq_getElem hlt, Option.getD_some]
  · rw [if_neg hp, if_neg (by rintro rfl; exact hp rfl), cell, List.getD_eq_getElem?_getD]

/-! ## The code -/

/-- `Section`. -/
def sectionFor (size : ℕ) : ℕ := max 10 ((size * 105 + 255) / 256)

/-- `BitmapSize`; the mask `~31U` clears the low five bits. -/
def bitmapSize (section_ : ℕ) : ℕ := (section_ * 3 + 31) / 32 * 32 / 4

/-- `SetBit`. -/
def setBit (book : ℕ → Bool) (pos : ℕ) : ℕ → Bool := Function.update book pos true

/-- The body of the loop of `Mapping`, for an edge with the slots `a`, `b` and `c`.
    Where the source asserts false, a release build goes on. -/
def mapEdge (a b c : ℕ) (bitmap : List UInt8) (book : ℕ → Bool) :
    Res (List UInt8 × (ℕ → Bool)) :=
  if book a = false then do
    let sum := (← bit2 bitmap b) + (← bit2 bitmap c)
    let bitmap ← setBit2on11 bitmap a (UInt8.ofNat ((6 - sum) % 3))
    return (bitmap, setBit (setBit (setBit book a) b) c)
  else if book b = false then do
    let sum := (← bit2 bitmap a) + (← bit2 bitmap c)
    let bitmap ← setBit2on11 bitmap b (UInt8.ofNat ((7 - sum) % 3))
    return (bitmap, setBit (setBit book b) c)
  else if book c = false then do
    let sum := (← bit2 bitmap a) + (← bit2 bitmap b)
    let bitmap ← setBit2on11 bitmap c (UInt8.ofNat ((8 - sum) % 3))
    return (bitmap, setBit book c)
  else return (bitmap, book)

/-- The loop of `Mapping`, on the edges from the last one that was taken away. -/
def mappingLoop (g : Graph) (m : ℕ) : List ℕ → List UInt8 → (ℕ → Bool) → Res (List UInt8)
  | [], bitmap, _ => .ok bitmap
  | idx :: free, bitmap, book => do
    let edge := g.edges idx
    let (bitmap, book) ←
      mapEdge (edge 0).slot ((edge 1).slot + m) ((edge 2).slot + m * 2) bitmap book
    mappingLoop g m free bitmap book

/-- `Mapping`. -/
def mapping (g : Graph) (n : ℕ) (free : List ℕ) : Res (List UInt8) :=
  mappingLoop g (sectionFor n) free.reverse (List.replicate (bitmapSize (sectionFor n)) 0xff)
    fun _ => false

/-! ## Owners -/

/-- The slot, of three, that the cells at them choose. -/
def choose (bitmap : List UInt8) (s : Fin 3 → ℕ) : ℕ :=
  s ⟨(cell bitmap (s 0) + cell bitmap (s 1) + cell bitmap (s 2)) % 3, Nat.mod_lt _ (by decide)⟩

/-- The choice depends on the cells at the slots. -/
theorem choose_congr {bitmap bitmap' : List UInt8} {s : Fin 3 → ℕ}
    (h : ∀ j, cell bitmap' (s j) = cell bitmap (s j)) : choose bitmap' s = choose bitmap s := by
  rw [choose, choose]
  congr 2
  rw [h, h, h]

theorem setBit_eq_true {book : ℕ → Bool} {pos p : ℕ} :
    setBit book pos p = true ↔ book p = true ∨ p = pos := by
  rw [setBit, Function.update_apply]
  split <;> simp [*]

/-- What `Mapping` does for one edge: a slot not used before gets a cell that
    decides the sum. -/
theorem mapEdge_spec {s : Fin 3 → ℕ} {bitmap : List UInt8} {book : ℕ → Bool}
    (hinj : Function.Injective s) (hlt : ∀ j, s j < 4 * bitmap.length)
    (hfree : ∀ j, book (s j) = false → cell bitmap (s j) = 3) (h : ∃ j, book (s j) = false) :
    ∃ bitmap' book' j, mapEdge (s 0) (s 1) (s 2) bitmap book = .ok (bitmap', book') ∧
      bitmap'.length = bitmap.length ∧ book (s j) = false ∧ choose bitmap' s = s j ∧
      cell bitmap' (s j) ≠ 3 ∧ (∀ p ≠ s j, cell bitmap' p = cell bitmap p) ∧
      ∀ p, book' p = true ↔ book p = true ∨ ∃ j, p = s j := by
  have h01 : s 0 ≠ s 1 := fun h => absurd (hinj h) (by decide)
  have h02 : s 0 ≠ s 2 := fun h => absurd (hinj h) (by decide)
  have h12 : s 1 ≠ s 2 := fun h => absurd (hinj h) (by decide)
  have hc := fun j => cell_lt bitmap (s j)
  have hc0 := hc 0
  have hc1 := hc 1
  have hc2 := hc 2
  -- Setting the cell of the slot `j` to what is missing.
  have hset : ∀ j : Fin 3, ∀ val, book (s j) = false → (∀ bitmap',
      (∀ p, cell bitmap' p = if p = s j then val % 3 else cell bitmap p) →
      (cell bitmap' (s 0) + cell bitmap' (s 1) + cell bitmap' (s 2)) % 3 = j) →
      ∃ bitmap', setBit2on11 bitmap (s j) (UInt8.ofNat (val % 3)) = .ok bitmap' ∧
        bitmap'.length = bitmap.length ∧ choose bitmap' s = s j ∧ cell bitmap' (s j) ≠ 3 ∧
        ∀ p ≠ s j, cell bitmap' p = cell bitmap p := by
    intro j val hb hsum
    obtain ⟨bitmap', hs, hl, hcell⟩ := setBit2on11_eq (hlt j) (hfree j hb)
      (Nat.mod_lt val (by decide : 0 < 3))
    refine ⟨bitmap', hs, hl, ?_, ?_, fun p hp => by rw [hcell, if_neg hp]⟩
    · rw [choose]
      congr 1
      exact Fin.ext (hsum bitmap' hcell)
    · rw [hcell, if_pos rfl]
      omega
  have hbit := fun j => bit2_eq (hlt j)
  have hbook : ∀ p, (∃ j, p = s j) ↔ p = s 0 ∨ p = s 1 ∨ p = s 2 := fun p => by
    constructor
    · rintro ⟨j, rfl⟩
      match j with
      | 0 | 1 | 2 => simp
    · rintro (h | h | h) <;> exact ⟨_, h⟩
  simp only [mapEdge, hbit, Res.ok_bind, hbook]
  -- The first slot that is not used yet gets a cell; what it has to be makes the sum of the three
  -- cells its number modulo 3.
  by_cases hb0 : book (s 0) = false
  · obtain ⟨bitmap', hs, hl, hch, hne, hother⟩ :=
      hset 0 (6 - (cell bitmap (s 1) + cell bitmap (s 2)))
      hb0 fun bitmap' h => by
        rw [h, h, h, if_pos rfl, if_neg h01.symm, if_neg h02.symm]
        simp only [Fin.val_zero]
        omega
    refine ⟨bitmap', setBit (setBit (setBit book (s 0)) (s 1)) (s 2), 0, ?_, hl, hb0, hch, hne,
      hother, fun p => ?_⟩
    · rw [if_pos hb0, hs]
      rfl
    · simp only [setBit_eq_true]
      tauto
  · by_cases hb1 : book (s 1) = false
    · obtain ⟨bitmap', hs, hl, hch, hne, hother⟩ :=
        hset 1 (7 - (cell bitmap (s 0) + cell bitmap (s 2))) hb1 fun bitmap' h => by
          rw [h, h, h, if_pos rfl, if_neg h01, if_neg h12.symm]
          simp only [Fin.val_one]
          omega
      refine ⟨bitmap', setBit (setBit book (s 1)) (s 2), 1, ?_, hl, hb1, hch, hne, hother,
        fun p => ?_⟩
      · rw [if_neg hb0, if_pos hb1, hs]
        rfl
      · simp only [setBit_eq_true]
        rw [Bool.not_eq_false] at hb0
        constructor
        · tauto
        · rintro (h | rfl | h | h)
          · exact .inl (.inl h)
          · exact .inl (.inl hb0)
          · exact .inl (.inr h)
          · exact .inr h
    · -- One of the three is not used, so that it is the last one.
      have hb2 : book (s 2) = false := by
        obtain ⟨j, hj⟩ := h
        match j with
        | 0 => exact absurd hj hb0
        | 1 => exact absurd hj hb1
        | 2 => exact hj
      obtain ⟨bitmap', hs, hl, hch, hne, hother⟩ :=
        hset 2 (8 - (cell bitmap (s 0) + cell bitmap (s 1))) hb2 fun bitmap' h => by
          rw [h, h, h, if_pos rfl, if_neg h02, if_neg h12]
          simp only [Fin.val_two]
          omega
      refine ⟨bitmap', setBit book (s 2), 2, ?_, hl, hb2, hch, hne, hother, fun p => ?_⟩
      · rw [if_neg hb0, if_neg hb1, if_pos hb2, hs]
        rfl
      · simp only [setBit_eq_true]
        rw [Bool.not_eq_false] at hb0 hb1
        constructor
        · tauto
        · rintro (h | rfl | rfl | h)
          · exact .inl h
          · exact .inl hb0
          · exact .inl hb1
          · exact .inr h

/-- The places of the slots of an edge in the table. -/
def place (m : ℕ) (slot : ℕ → Fin 3 → ℕ) (e : ℕ) (j : Fin 3) : ℕ := slot e j + m * j

/-- Places in different thirds differ. -/
theorem place_inj {m : ℕ} {slot : ℕ → Fin 3 → ℕ} {e e' : ℕ} {j j' : Fin 3} (h : slot e j < m)
    (h' : slot e' j' < m) (heq : place m slot e j = place m slot e' j') :
    j = j' ∧ slot e j = slot e' j' := by
  have hdiv : ∀ s k : ℕ, s < m → (s + m * k) / m = k := fun s k hs => by
    rw [Nat.add_mul_div_left _ _ (by omega), Nat.div_eq_of_lt hs, Nat.zero_add]
  have hj : (j : ℕ) = j' := by rw [← hdiv _ j h, ← hdiv _ j' h']; exact congrArg (· / m) heq
  rw [place, place, hj] at heq
  exact ⟨Fin.ext hj, Nat.add_right_cancel heq⟩

/-- The invariant of `Mapping`, when the edges `done` have been mapped. -/
structure Mapped (m : ℕ) (slot : ℕ → Fin 3 → ℕ) (done : List ℕ) (bitmap : List UInt8)
    (book : ℕ → Bool) : Prop where
  free : ∀ p < 4 * bitmap.length, book p = false → cell bitmap p = 3
  book : ∀ p, book p = true ↔ ∃ e ∈ done, ∃ j, p = place m slot e j
  owns : ∀ e ∈ done, cell bitmap (choose bitmap (place m slot e)) ≠ 3
  inj : ∀ e ∈ done, ∀ e' ∈ done,
    choose bitmap (place m slot e) = choose bitmap (place m slot e') → e = e'
  owned : ∀ p < 4 * bitmap.length, cell bitmap p ≠ 3 →
    ∃ e ∈ done, p = choose bitmap (place m slot e)

/-- Mapping an edge with a slot not used before. -/
theorem Mapped.step {m : ℕ} {slot : ℕ → Fin 3 → ℕ} {done : List ℕ} {bitmap : List UInt8}
    {book : ℕ → Bool} (h : Mapped m slot done bitmap book) {e : ℕ} (hslot : ∀ j, slot e j < m)
    (hm : 3 * m ≤ 4 * bitmap.length) (hfree : ∃ j, book (place m slot e j) = false) :
    ∃ bitmap' book', mapEdge (place m slot e 0) (place m slot e 1) (place m slot e 2) bitmap book =
        .ok (bitmap', book') ∧ bitmap'.length = bitmap.length ∧
      Mapped m slot (e :: done) bitmap' book' := by
  have hlt : ∀ j, place m slot e j < 4 * bitmap.length := fun j => by
    have := hslot j
    have : m * (j : ℕ) ≤ m * 2 := Nat.mul_le_mul_left m (by omega)
    rw [place]
    omega
  obtain ⟨bitmap', book', j, hmap, hl, hb, hch, hne, hother, hbook⟩ :=
    mapEdge_spec (fun j j' hj => (place_inj (hslot j) (hslot j') hj).1) hlt
      (fun j hj => h.free _ (hlt j) hj) hfree
  -- The edges mapped before keep their cells.
  have hkeep : ∀ e' ∈ done, ∀ j', place m slot e' j' ≠ place m slot e j := fun e' he' j' heq => by
    rw [(h.book _).2 ⟨e', he', j', heq.symm⟩] at hb
    cases hb
  have hkeep' : ∀ e' ∈ done, choose bitmap (place m slot e') ≠ place m slot e j :=
    fun e' he' => hkeep e' he' _
  have hchoose : ∀ e' ∈ done, choose bitmap' (place m slot e') = choose bitmap (place m slot e') :=
    fun e' he' => choose_congr fun j' => hother _ (hkeep e' he' j')
  refine ⟨bitmap', book', hmap, hl, ?_, ?_, ?_, ?_, ?_⟩
  · intro p hp hbp
    have hnot : ¬(book p = true ∨ ∃ j, p = place m slot e j) := fun h' => by
      rw [(hbook p).2 h'] at hbp
      cases hbp
    rw [not_or, Bool.not_eq_true] at hnot
    rw [hother p fun h' => hnot.2 ⟨j, h'⟩]
    exact h.free p (hl ▸ hp) hnot.1
  · intro p
    rw [hbook, h.book]
    simp only [List.mem_cons, exists_eq_or_imp]
    exact or_comm
  · intro e' he'
    rcases List.mem_cons.1 he' with rfl | he'
    · rw [hch]
      exact hne
    · rw [hchoose e' he', hother _ (hkeep' e' he')]
      exact h.owns e' he'
  · intro e₁ he₁ e₂ he₂ heq
    rcases List.mem_cons.1 he₁ with h₁ | h₁ <;> rcases List.mem_cons.1 he₂ with h₂ | h₂
    · rw [h₁, h₂]
    · rw [h₁, hch, hchoose e₂ h₂] at heq
      exact absurd heq.symm (hkeep' e₂ h₂)
    · rw [h₂, hch, hchoose e₁ h₁] at heq
      exact absurd heq (hkeep' e₁ h₁)
    · rw [hchoose e₁ h₁, hchoose e₂ h₂] at heq
      exact h.inj e₁ h₁ e₂ h₂ heq
  · intro p hp hc
    by_cases hpj : p = place m slot e j
    · exact ⟨e, List.mem_cons_self, by rw [hch, hpj]⟩
    · rw [hother p hpj] at hc
      obtain ⟨e', he', hpe⟩ := h.owned p (hl ▸ hp) hc
      exact ⟨e', List.mem_cons_of_mem _ he', by rw [hchoose e' he', hpe]⟩

/-- The loop of `Mapping`, on an order in which every edge has a slot that no edge
    before it uses. -/
theorem mappingLoop_spec {m n : ℕ} {slot : ℕ → Fin 3 → ℕ} {g : Graph}
    (hg : ∀ e < n, ∀ j, (g.edges e j).slot = slot e j) (hslot : ∀ e < n, ∀ j, slot e j < m)
    (free done : List ℕ) (bitmap : List UInt8) (book : ℕ → Bool) (hm : 3 * m ≤ 4 * bitmap.length)
    (hpeel : Peel n slot free) (hlt : ∀ e ∈ free ++ done, e < n) (hnd : (free ++ done).Nodup)
    (h : Mapped m slot done bitmap book) :
    ∃ bitmap' book', mappingLoop g m free bitmap book = .ok bitmap' ∧
      bitmap'.length = bitmap.length ∧ Mapped m slot (free.reverse ++ done) bitmap' book' := by
  induction free generalizing done bitmap book with
  | nil => exact ⟨bitmap, book, rfl, rfl, h⟩
  | cons e free ih =>
    obtain ⟨⟨j, hj⟩, hpeel⟩ := hpeel
    have he := hlt e List.mem_cons_self
    have hnd' := hnd
    rw [List.cons_append, List.nodup_cons] at hnd'
    -- A slot of `e` that is booked is one of an edge still to come.
    have hfree : ∃ j, book (place m slot e j) = false := by
      refine ⟨j, Bool.eq_false_iff.2 fun hb => ?_⟩
      obtain ⟨e', he', j', heq⟩ := (h.book _).1 hb
      have he'n := hlt e' (List.mem_append_right _ he')
      obtain ⟨rfl, hs⟩ := place_inj (hslot e he j) (hslot e' he'n j') heq
      have hne : e' ≠ e := fun h => hnd'.1 (List.mem_append_right _ (h ▸ he'))
      exact (List.nodup_append.1 hnd'.2).2.2 e' (hj e' he'n hs.symm hne) e' he' rfl
    obtain ⟨bitmap₁, book₁, hmap, hl, h₁⟩ := h.step (hslot e he) hm hfree
    obtain ⟨bitmap₂, book₂, hloop, hl₂, h₂⟩ := ih (e :: done) bitmap₁ book₁ (by rw [hl]; exact hm)
      hpeel (fun e' h' => hlt e' (by simp at h' ⊢; tauto))
      (List.nodup_middle.2 (by simpa using hnd)) h₁
    refine ⟨bitmap₂, book₂, ?_, hl₂.trans hl, by simpa using h₂⟩
    rw [mappingLoop]
    simp only [hg e he]
    rw [place, place, place] at hmap
    simp only [Fin.val_zero, Fin.val_one, Fin.val_two, Nat.mul_zero, Nat.mul_one,
      Nat.add_zero] at hmap
    rw [hmap]
    exact hloop

/-- The edges below `n` own the cells that are set, each one of its own. -/
structure Owners (n m : ℕ) (slot : ℕ → Fin 3 → ℕ) (bitmap : List UInt8) : Prop where
  owns : ∀ e < n, cell bitmap (choose bitmap (place m slot e)) ≠ 3
  inj : ∀ e < n, ∀ e' < n,
    choose bitmap (place m slot e) = choose bitmap (place m slot e') → e = e'
  owned : ∀ p < 4 * bitmap.length, cell bitmap p ≠ 3 → ∃ e < n, p = choose bitmap (place m slot e)

theorem bitmapSize_eq (m : ℕ) : bitmapSize m = (m * 3 + 31) / 32 * 8 := by
  rw [bitmapSize]
  omega

/-- `Mapping` gives every edge a slot of its own. -/
theorem mapping_spec {n : ℕ} {slot : ℕ → Fin 3 → ℕ} {g : Graph} {free : List ℕ}
    (hg : ∀ e < n, ∀ j, (g.edges e j).slot = slot e j)
    (hslot : ∀ e < n, ∀ j, slot e j < sectionFor n) (hlen : free.length = n) (hnd : free.Nodup)
    (hlt : ∀ e ∈ free, e < n) (hpeel : Peel n slot free.reverse) :
    ∃ bitmap, mapping g n free = .ok bitmap ∧ bitmap.length = bitmapSize (sectionFor n) ∧
      Owners n (sectionFor n) slot bitmap := by
  have hcell : ∀ p < 4 * (List.replicate (bitmapSize (sectionFor n)) (0xff : UInt8)).length,
      cell (List.replicate (bitmapSize (sectionFor n)) 0xff) p = 3 := fun p hp => by
    rw [List.length_replicate] at hp
    rw [cell, List.getD_eq_getElem?_getD, List.getElem?_replicate_of_lt (by omega),
      Option.getD_some]
    have : ∀ r : Fin 4, (0xff : UInt8).toNat / 4 ^ (r : ℕ) % 4 = 3 := by decide
    exact this ⟨p % 4, Nat.mod_lt _ (by decide)⟩
  obtain ⟨bitmap, book, hmap, hl, h⟩ := mappingLoop_spec hg hslot free.reverse []
    (List.replicate (bitmapSize (sectionFor n)) 0xff) (fun _ => false)
    (by rw [List.length_replicate, bitmapSize_eq]; omega) hpeel (by simpa using hlt)
    (by simpa using hnd) ⟨fun p hp _ => hcell p hp, by simp, by simp, by simp,
      fun p hp hc => absurd (hcell p hp) hc⟩
  rw [List.reverse_reverse, List.append_nil] at h
  have hmem : ∀ e, e ∈ free ↔ e < n := fun e => by
    have := (List.subperm_of_subset hnd (fun e he => List.mem_range.2 (hlt e he))).perm_of_length_le
      (by rw [List.length_range, hlen])
    rw [this.mem_iff, List.mem_range]
  refine ⟨bitmap, hmap, by rw [hl, List.length_replicate], fun e he => h.owns e ((hmem e).2 he),
    fun e he e' he' => h.inj e ((hmem e).2 he) e' ((hmem e').2 he'), fun p hp hc => ?_⟩
  obtain ⟨e, he, hpe⟩ := h.owned p hp hc
  exact ⟨e, (hmem e).1 he, hpe⟩

end ProtoCache

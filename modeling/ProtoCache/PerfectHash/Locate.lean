import ProtoCache.Lib.LittleEndian
import ProtoCache.Lib.Rank
import ProtoCache.Lib.Storage
import ProtoCache.PerfectHash.Bitmap

/-!
# Reading a perfect hash

`PerfectHash` (`src/perfect_hash.cc`) reads the index of a perfect hash where it
lies in memory: a header with the number of keys and the seed, the bitmap, and,
for more than 24 keys, a table with the number of cells set before each block of
32. A key is at the rank of its slot.

* `locate_spec`: on an index (`Index`), the position of any key is the rank of the
  slot its cells choose, whatever the width of the table.
-/

namespace ProtoCache

open LittleEndian

/-! ## The code -/

/-- The bits of a 64-bit word that are set. -/
def popcount (v : UInt64) : ℕ := Nat.count (fun i => v.toNat.testBit i = true) 64

/-- `CountValidSlot`, in the build with a population count. -/
def countValidSlot (v : UInt64) : ℕ :=
  32 - popcount ((v &&& 0x5555555555555555) &&& (v >>> (1 : UInt64)))

/-- `RealSize`: the high bits of the header are not part of the size. -/
def realSize (size : ℕ) : ℕ := size % 2 ^ 28

/-- Reading a number of `k` bytes at a position of the memory. -/
def readLE (mem : List UInt8) (pos k : ℕ) : Res ℕ := do
  let bs ← access (Storage.load (mem.drop pos) k)
  return le bs

/-- `PerfectHash`: the data are the memory from the pointer on, if it is not null. -/
structure PerfectHash where
  section_ : ℕ := 0
  dataSize : ℕ := 0
  data : Option (List UInt8) := none
  deriving DecidableEq

/-- The width of a table entry, as the constructor of `PerfectHash` and `Locate`
    choose it by the number of keys. -/
def tableWidth (size : ℕ) : ℕ :=
  if size > 65535 then 4 else if size > 255 then 2 else if size > 24 then 1 else 0

/-- `PerfectHash::PerfectHash`; a size of zero is unknown. -/
def PerfectHash.ofData (mem : List UInt8) (size : ℕ) : Res PerfectHash :=
  if size ≠ 0 ∧ size < 4 then .ok {}
  else do
    let n := realSize (← readLE mem 0 4)
    if n > 1 then
      let bytes := bitmapSize (sectionFor n)
      let bytes :=
        if n > 65535 then bytes + bytes / 2
        else if n > 255 then bytes + bytes / 4
        else if n > 24 then bytes + bytes / 8
        else bytes
      let bytes := bytes + 8
      if size ≠ 0 ∧ size < bytes then return {} else return ⟨sectionFor n, bytes, mem⟩
    else return ⟨0, 4, mem⟩

/-- The entry `a` of the table at the position `table`, in `PerfectHash::Locate`. -/
def tableEntry (bitmap : List UInt8) (table size a : ℕ) : Res ℕ :=
  if size > 65535 then readLE bitmap (table + 4 * a) 4
  else if size > 255 then readLE bitmap (table + 2 * a) 2
  else if size > 24 then readLE bitmap (table + a) 1
  else .ok 0

/-- `PerfectHash::Locate` of three slots. -/
def locateSlots (mem : List UInt8) (section_ : ℕ) (slots : Fin 3 → ℕ) : Res ℕ := do
  let size := realSize (← readLE mem 0 4)
  let bitmap := mem.drop 8
  let table := bitmapSize section_
  let m := (← bit2 bitmap (slots 0)) + (← bit2 bitmap (slots 1)) + (← bit2 bitmap (slots 2))
  let slot := slots ⟨m % 3, Nat.mod_lt _ (by decide)⟩
  let a := slot / 32
  let b := slot % 32
  let off ← tableEntry bitmap table size a
  let block := UInt64.ofNat (← readLE bitmap (8 * a) 8)
  let block := block ||| ((0xffffffffffffffff : UInt64) <<< UInt64.ofNat (2 * b))
  return (off + countValidSlot block) % 2 ^ 32

section

variable (hash : List UInt8 → UInt32 → V128)

/-- `PerfectHash::Locate`; without data, `UINT32_MAX`. -/
def PerfectHash.locate (h : PerfectHash) (key : List UInt8) : Res ℕ :=
  match h.data with
  | none => .ok 0xffffffff
  | some mem => do
    if realSize (← readLE mem 0 4) < 2 then return 0
    else do
      let seed := UInt32.ofNat (← readLE mem 4 4)
      let code := hash key seed
      locateSlots mem h.section_ fun j => (code.u32 j).toNat % h.section_ + h.section_ * j

end

/-! ## Counting -/

/-- A cell is 3 when both its bits are set. -/
theorem div_mod_four_eq_three (n k : ℕ) :
    n / 4 ^ k % 4 = 3 ↔ n.testBit (2 * k) = true ∧ n.testBit (2 * k + 1) = true := by
  rw [Nat.testBit_eq_decide_div_mod_eq, Nat.testBit_eq_decide_div_mod_eq, pow_succ, pow_mul,
    ← Nat.div_div_eq_div_mul, show 2 ^ 2 = 4 from rfl, decide_eq_true_eq, decide_eq_true_eq]
  omega

/-- The counter counts the pairs of bits that are not both set. -/
theorem countValidSlot_eq (v : UInt64) : countValidSlot v =
    Nat.count (fun k => ¬(v.toNat.testBit (2 * k) = true ∧ v.toNat.testBit (2 * k + 1) = true))
      32 := by
  have hbit : ∀ i, ((v &&& 0x5555555555555555) &&& (v >>> (1 : UInt64))).toNat.testBit i =
      ((v.toNat.testBit i && Nat.testBit 0x5555555555555555 i) && v.toNat.testBit (i + 1)) := by
    intro i
    rw [UInt64.toNat_and, UInt64.toNat_and, UInt64.toNat_shiftRight, Nat.testBit_and,
      Nat.testBit_and, Nat.testBit_shiftRight, show (1 : UInt64).toNat % 64 = 1 from rfl,
      Nat.add_comm 1 i]
    rfl
  have hmask : ∀ k < 32, Nat.testBit 0x5555555555555555 (2 * k) = true ∧
      Nat.testBit 0x5555555555555555 (2 * k + 1) = false := by decide
  have hpop : popcount ((v &&& 0x5555555555555555) &&& (v >>> (1 : UInt64))) =
      Nat.count (fun k => v.toNat.testBit (2 * k) = true ∧ v.toNat.testBit (2 * k + 1) = true)
        32 := by
    rw [popcount, show 64 = 2 * 32 from rfl, Rank.count_two_mul 32]
    · refine Rank.count_congr fun k hk => ?_
      rw [hbit, (hmask k hk).1]
      simp
    · intro k hk
      rw [hbit, (hmask k hk).2]
      simp
  have := Rank.count_add_count_not
    (p := fun k => v.toNat.testBit (2 * k) = true ∧ v.toNat.testBit (2 * k + 1) = true) 32
  rw [countValidSlot, hpop]
  omega

/-- A cell of the number spelled by a block. -/
theorem cell_ne_three_iff (bs : List UInt8) (k : ℕ) :
    cell bs k ≠ 3 ↔ ¬((le bs).testBit (2 * k) = true ∧ (le bs).testBit (2 * k + 1) = true) := by
  rw [testBit_le, testBit_le, show 2 * k / 8 = k / 4 by omega,
    show (2 * k + 1) / 8 = k / 4 by omega, show 2 * k % 8 = 2 * (k % 4) by omega,
    show (2 * k + 1) % 8 = 2 * (k % 4) + 1 by omega, ← div_mod_four_eq_three, cell,
    List.getD_eq_getElem?_getD]

/-- The cells of a block of 32. -/
theorem cell_block (bitmap : List UInt8) (a : ℕ) {k : ℕ} (hk : k < 32) :
    cell ((bitmap.drop (8 * a)).take 8) k = cell bitmap (32 * a + k) := by
  rw [cell, cell, List.getD_eq_getElem?_getD, List.getD_eq_getElem?_getD,
    List.getElem?_take_of_lt (by omega), List.getElem?_drop,
    show (32 * a + k) / 4 = 8 * a + k / 4 by omega, show (32 * a + k) % 4 = k % 4 by omega]

/-- The rank of a slot in a bitmap. -/
def rank (bitmap : List UInt8) (p : ℕ) : ℕ := Nat.count (fun p => cell bitmap p ≠ 3) p

/-- The cells set in a block of 32. -/
theorem countValidSlot_block {bitmap : List UInt8} {a : ℕ} (h : 8 * a + 8 ≤ bitmap.length) :
    countValidSlot (UInt64.ofNat (le ((bitmap.drop (8 * a)).take 8))) =
      Nat.count (fun k => cell bitmap (32 * a + k) ≠ 3) 32 := by
  have hlen : ((bitmap.drop (8 * a)).take 8).length = 8 := by simp; omega
  have hlt := le_lt ((bitmap.drop (8 * a)).take 8)
  rw [hlen] at hlt
  rw [countValidSlot_eq, UInt64.toNat_ofNat', Nat.mod_eq_of_lt (by omega)]
  exact Rank.count_congr fun k hk => by rw [← cell_ne_three_iff, cell_block bitmap a hk]

/-- The mask in `PerfectHash::Locate` fills the cells from `b` on. -/
theorem testBit_mask {b i : ℕ} (hb : b < 32) (hi : i < 64) :
    ((0xffffffffffffffff : UInt64) <<< UInt64.ofNat (2 * b)).toNat.testBit i =
      decide (2 * b ≤ i) := by
  have hsft : (UInt64.ofNat (2 * b)).toNat % 64 = 2 * b := by
    rw [UInt64.toNat_ofNat']
    omega
  rw [UInt64.toNat_shiftLeft, hsft, Nat.testBit_mod_two_pow, Nat.testBit_shiftLeft,
    show (0xffffffffffffffff : UInt64).toNat = 2 ^ 64 - 1 from rfl, Nat.testBit_two_pow_sub_one,
    decide_eq_true hi, decide_eq_true (show i - 2 * b < 64 by omega), Bool.true_and, Bool.and_true]

/-- The cells set in a block of 32, before one of its slots. -/
theorem countValidSlot_masked {bitmap : List UInt8} {a b : ℕ} (h : 8 * a + 8 ≤ bitmap.length)
    (hb : b < 32) :
    countValidSlot (UInt64.ofNat (le ((bitmap.drop (8 * a)).take 8)) |||
        ((0xffffffffffffffff : UInt64) <<< UInt64.ofNat (2 * b))) =
      Nat.count (fun k => cell bitmap (32 * a + k) ≠ 3) b := by
  have hlen : ((bitmap.drop (8 * a)).take 8).length = 8 := by simp; omega
  have hlt := le_lt ((bitmap.drop (8 * a)).take 8)
  rw [hlen] at hlt
  have hbit : ∀ i < 64, (UInt64.ofNat (le ((bitmap.drop (8 * a)).take 8)) |||
      ((0xffffffffffffffff : UInt64) <<< UInt64.ofNat (2 * b))).toNat.testBit i =
        ((le ((bitmap.drop (8 * a)).take 8)).testBit i || decide (2 * b ≤ i)) := fun i hi => by
    rw [UInt64.toNat_or, Nat.testBit_or, testBit_mask hb hi, UInt64.toNat_ofNat',
      Nat.mod_eq_of_lt (by omega)]
  rw [countValidSlot_eq, Rank.count_eq_of_le hb.le]
  · refine Rank.count_congr fun k hk => ?_
    rw [hbit _ (by omega), hbit _ (by omega), ← cell_block bitmap a (by omega), cell_ne_three_iff,
      decide_eq_false (by omega), decide_eq_false (by omega), Bool.or_false, Bool.or_false]
  · intro k hk hbk
    rw [hbit _ (by omega), hbit _ (by omega), decide_eq_true (by omega), decide_eq_true (by omega),
      Bool.or_true, Bool.or_true]
    simp

/-! ## Reading numbers -/

/-- Reading behind a part of the memory. -/
theorem readLE_append (h t : List UInt8) (p k : ℕ) :
    readLE (h ++ t) (h.length + p) k = readLE t p k := by
  rw [readLE, readLE, List.drop_append, List.drop_eq_nil_of_le (by omega), List.nil_append,
    Nat.add_sub_cancel_left]

/-- Reading a number that stands at the start. -/
theorem readLE_toLE {k c : ℕ} (h : c < 256 ^ k) (t : List UInt8) :
    readLE (toLE k c ++ t) 0 k = .ok c := by
  rw [readLE, List.drop_zero, Storage.load_of_le (by simp), access_some, Res.ok_bind,
    List.take_append_of_le_length (by simp), List.take_of_length_le (by simp), le_toLE h]
  rfl

/-- What can be read stays when there is more memory behind it. -/
theorem readLE_of_prefix {mem mem' : List UInt8} (h : mem <+: mem') {p k c : ℕ}
    (hr : readLE mem p k = .ok c) : readLE mem' p k = .ok c := by
  obtain ⟨t, rfl⟩ := h
  rw [readLE, Storage.load] at hr
  split at hr
  · rename_i hk
    by_cases hk0 : k = 0
    · subst hk0
      simpa [readLE, Storage.load] using hr
    · rw [List.length_drop] at hk
      rw [readLE, List.drop_append_of_le_length (by omega),
        Storage.load_of_le (by simp; omega), List.take_append_of_le_length (by simp; omega)]
      exact hr
  · cases hr

/-! ## Locating a key -/

/-- The memory holds the index of a perfect hash of `n` keys, from its start on:
    the size in the header, the bitmap, and the table of ranks. -/
structure Index (n : ℕ) (seed : UInt32) (bitmap mem : List UInt8) : Prop where
  two_le : 2 ≤ n
  lt : n < 2 ^ 28
  size : ∃ size, readLE mem 0 4 = .ok size ∧ realSize size = n
  seed : readLE mem 4 4 = .ok seed.toNat
  length : bitmap.length = bitmapSize (sectionFor n)
  cells : bitmap <+: mem.drop 8
  table : 24 < n → ∀ a < bitmap.length / 8,
    readLE (mem.drop 8) (bitmap.length + tableWidth n * a) (tableWidth n) =
      .ok (rank bitmap (32 * a))

/-- An index from its parts: the header, the seed, the bitmap and the table. -/
theorem index_of_parts {n : ℕ} {seed : UInt32} {header bitmap table : List UInt8} (h2 : 2 ≤ n)
    (hn : n < 2 ^ 28) (hh : header.length = 4) (hreal : realSize (le header) = n)
    (hl : bitmap.length = bitmapSize (sectionFor n))
    (htable : 24 < n → ∀ a < bitmap.length / 8,
      readLE table (tableWidth n * a) (tableWidth n) = .ok (rank bitmap (32 * a)))
    (rest : List UInt8) :
    Index n seed bitmap (header ++ (toLE 4 seed.toNat ++ (bitmap ++ table) ++ rest)) := by
  have hdrop : (header ++ (toLE 4 seed.toNat ++ (bitmap ++ table) ++ rest)).drop 8 =
      bitmap ++ (table ++ rest) := by
    rw [List.drop_append, hh, List.drop_eq_nil_of_le (by omega), List.append_assoc,
      List.drop_append, length_toLE, List.drop_eq_nil_of_le (by simp)]
    simp
  refine ⟨h2, hn, ⟨le header, ?_, hreal⟩, ?_, hl, ?_, ?_⟩
  · rw [readLE, List.drop_zero, Storage.load_of_le (by simp; omega), access_some, Res.ok_bind, ← hh,
      List.take_left]
    rfl
  · have := readLE_append header (toLE 4 seed.toNat ++ (bitmap ++ table) ++ rest) 0 4
    rw [hh] at this
    rw [this, List.append_assoc]
    exact readLE_toLE seed.toNat_lt _
  · rw [hdrop]
    exact List.prefix_append _ _
  · intro h24 a ha
    rw [hdrop, readLE_append]
    exact readLE_of_prefix (List.prefix_append _ _) (htable h24 a ha)

/-- What is in the bitmap is there in the memory. -/
theorem cell_of_prefix {bs mem : List UInt8} (h : bs <+: mem) {p : ℕ} (hp : p < 4 * bs.length) :
    cell mem p = cell bs p := by
  obtain ⟨rest, rfl⟩ := h
  rw [cell, cell, List.getD_append _ _ _ _ (by omega)]

/-- The rank before a block, and in it. -/
theorem rank_add (bitmap : List UInt8) (p : ℕ) :
    rank bitmap p = rank bitmap (32 * (p / 32)) +
      Nat.count (fun k => cell bitmap (32 * (p / 32) + k) ≠ 3) (p % 32) := by
  rw [rank, rank, ← Nat.count_add, Nat.div_add_mod]

/-- Reading the rank before a block, from a table of the width for `n` keys. -/
theorem Index.offset {n : ℕ} {seed : UInt32} {bitmap mem : List UInt8}
    (h : Index n seed bitmap mem) {a : ℕ} (ha : a < bitmap.length / 8) :
    tableEntry (mem.drop 8) bitmap.length n a = .ok (rank bitmap (32 * a)) := by
  have ht := fun h24 => h.table h24 a ha
  rw [tableWidth] at ht
  rw [tableEntry]
  split
  · simpa [*] using ht (by omega)
  · split
    · simpa [*] using ht (by omega)
    · split
      · simpa [*] using ht (by omega)
      · -- Up to 24 keys there is one block, and no table.
        have hl := h.length
        rw [bitmapSize_eq, sectionFor] at hl
        obtain rfl : a = 0 := by omega
        rfl

/-- On an index, a key is at the rank of the slot that the cells choose. -/
theorem locateSlots_spec {n : ℕ} {seed : UInt32} {bitmap mem : List UInt8}
    (h : Index n seed bitmap mem) {slots : Fin 3 → ℕ} (hs : ∀ j, slots j < 4 * bitmap.length) :
    locateSlots mem (sectionFor n) slots = .ok (rank bitmap (choose bitmap slots)) := by
  obtain ⟨size, hsize, hreal⟩ := h.size
  have hbit : ∀ j, bit2 (mem.drop 8) (slots j) = .ok (cell bitmap (slots j)) := fun j => by
    have := h.cells.length_le
    rw [bit2_eq (by have := hs j; omega), cell_of_prefix h.cells (hs j)]
  have hl := h.length
  rw [bitmapSize_eq] at hl
  -- The slot, its block, and what is read of the block.
  obtain ⟨p, hp⟩ : ∃ p, choose bitmap slots = p := ⟨_, rfl⟩
  have hplt : p < 4 * bitmap.length := hp ▸ hs _
  have ha : p / 32 < bitmap.length / 8 := by omega
  have hblock : readLE (mem.drop 8) (8 * (p / 32)) 8 =
      .ok (le ((bitmap.drop (8 * (p / 32))).take 8)) := by
    obtain ⟨rest, hrest⟩ := h.cells
    rw [readLE, ← hrest, List.drop_append_of_le_length (by omega),
      Storage.load_of_le (by simp; omega), List.take_append_of_le_length (by simp; omega)]
    rfl
  have hrank : rank bitmap p < 2 ^ 32 := by
    have : rank bitmap p ≤ p := Nat.count_le _
    have := h.lt
    rw [sectionFor] at hl
    omega
  simp only [locateSlots, hsize, hreal, hbit, Res.ok_bind, ← h.length]
  rw [choose] at hp
  simp only [hp, h.offset ha, hblock, Res.ok_bind, Res.pure_eq,
    countValidSlot_masked (show 8 * (p / 32) + 8 ≤ bitmap.length by omega)
      (Nat.mod_lt p (by decide : 0 < 32))]
  rw [← rank_add, Nat.mod_eq_of_lt hrank, choose, hp]

/-- The places of the slots of a key in a table of sections of `m` slots. -/
def keySlots (hash : List UInt8 → UInt32 → V128) (m : ℕ) (seed : UInt32) (key : List UInt8)
    (j : Fin 3) : ℕ :=
  ((hash key seed).u32 j).toNat % m + m * j

/-- The places of the slots of a key lie in the bitmap. -/
theorem keySlots_lt {hash : List UInt8 → UInt32 → V128} {n : ℕ} {seed : UInt32} {key : List UInt8}
    {bitmap : List UInt8} (hl : bitmap.length = bitmapSize (sectionFor n)) (j : Fin 3) :
    keySlots hash (sectionFor n) seed key j < 4 * bitmap.length := by
  rw [bitmapSize_eq] at hl
  have hpos : 0 < sectionFor n := by rw [sectionFor]; omega
  have hmod := Nat.mod_lt ((hash key seed).u32 j).toNat hpos
  have : sectionFor n * (j : ℕ) ≤ sectionFor n * 2 := Nat.mul_le_mul_left _ (by omega)
  rw [keySlots]
  omega

/-- The bytes of an index of `n` keys, as the constructor of `PerfectHash` computes
    them. -/
def indexBytes (n : ℕ) : ℕ :=
  if n > 1 then 8 + bitmapSize (sectionFor n) + bitmapSize (sectionFor n) / 8 * tableWidth n else 4

theorem four_le_indexBytes (n : ℕ) : 4 ≤ indexBytes n := by
  rw [indexBytes]
  split <;> omega

/-- The sum that the constructor of `PerfectHash` forms. -/
theorem bytes_eq_indexBytes {n : ℕ} (h : n > 1) :
    (if n > 65535 then bitmapSize (sectionFor n) + bitmapSize (sectionFor n) / 2
      else if n > 255 then bitmapSize (sectionFor n) + bitmapSize (sectionFor n) / 4
      else if n > 24 then bitmapSize (sectionFor n) + bitmapSize (sectionFor n) / 8
      else bitmapSize (sectionFor n)) + 8 = indexBytes n := by
  rw [indexBytes, if_pos h, tableWidth, bitmapSize_eq]
  split
  · omega
  · split
    · omega
    · split <;> omega

/-- What the constructor makes of the memory behind a header: if the bytes that the header
    asks for fit in the size it is told, all of it. -/
theorem ofData_eq {mem : List UInt8} {header : ℕ} (h : readLE mem 0 4 = .ok header) (size : ℕ) :
    PerfectHash.ofData mem size = .ok (if size = 0 ∨ indexBytes (realSize header) ≤ size then
      ⟨if realSize header > 1 then sectionFor (realSize header) else 0,
        indexBytes (realSize header), some mem⟩ else {}) := by
  have h4 := four_le_indexBytes (realSize header)
  rw [PerfectHash.ofData]
  split
  · rw [if_neg (by omega)]
  · rw [h, Res.ok_bind]
    dsimp only
    split
    · rename_i h1
      rw [bytes_eq_indexBytes h1]
      split
      · rw [if_neg (by omega)]
        rfl
      · rw [if_pos (by omega)]
        rfl
    · rename_i h1
      rw [indexBytes, if_neg h1, if_pos (by omega)]
      rfl

/-- The constructor accepts an index that fits in the size it is told. -/
theorem ofData_index {n : ℕ} {seed : UInt32} {bitmap mem : List UInt8}
    (h : Index n seed bitmap mem) {size : ℕ} (hs : size = 0 ∨ indexBytes n ≤ size) :
    PerfectHash.ofData mem size = .ok ⟨sectionFor n, indexBytes n, some mem⟩ := by
  obtain ⟨header, hsize, hreal⟩ := h.size
  have h2 : n > 1 := h.two_le
  rw [ofData_eq hsize, hreal, if_pos hs, if_pos h2]

/-- What the constructor accepts: the header says how many bytes the index takes, and
    so many fit in the size it is told. -/
theorem ofData_accepts {mem : List UInt8} {size : ℕ} {h : PerfectHash}
    (hof : PerfectHash.ofData mem size = .ok h) (hd : h.data ≠ none) :
    ∃ header, readLE mem 0 4 = .ok header ∧ (size = 0 ∨ indexBytes (realSize header) ≤ size) ∧
      h = ⟨if realSize header > 1 then sectionFor (realSize header) else 0,
        indexBytes (realSize header), some mem⟩ := by
  have hheader : ∃ header, readLE mem 0 4 = .ok header := by
    rw [PerfectHash.ofData] at hof
    split at hof
    · cases hof
      exact absurd rfl hd
    · obtain ⟨header, hheader, -⟩ := Res.bind_eq_ok.1 hof
      exact ⟨header, hheader⟩
  obtain ⟨header, hheader⟩ := hheader
  rw [ofData_eq hheader] at hof
  split at hof
  · rename_i hfit
    exact ⟨header, hheader, hfit, (Except.ok.inj hof).symm⟩
  · cases hof
    exact absurd rfl hd

/-- On an index, `PerfectHash::Locate` of any key is the rank of the slot that the
    cells choose. -/
theorem PerfectHash.locate_index {hash : List UInt8 → UInt32 → V128} {n : ℕ} {seed : UInt32}
    {bitmap mem : List UInt8} (h : Index n seed bitmap mem) (bytes : ℕ) (key : List UInt8) :
    PerfectHash.locate hash ⟨sectionFor n, bytes, some mem⟩ key =
      .ok (rank bitmap (choose bitmap (keySlots hash (sectionFor n) seed key))) := by
  obtain ⟨header, hsize, hreal⟩ := h.size
  have h2 := h.two_le
  simp only [PerfectHash.locate, hsize, Res.ok_bind, hreal, h.seed]
  rw [if_neg (by omega), UInt32.ofNat_toNat]
  exact locateSlots_spec h fun j => keySlots_lt h.length j

end ProtoCache

import ProtoCache.PerfectHash.Locate

/-!
# Reading a perfect hash of any content

The constructor of `PerfectHash` checks the size of the memory against the one that it
computes from the header. What else is in the memory is not checked: it may be the
index of a perfect hash or not (`src/perfect_hash.cc`).

* `PerfectHash.locate_within`: `PerfectHash::Locate` of any key reads only what the
  constructor has checked to be there.
-/

namespace ProtoCache

variable {hash : List UInt8 → UInt32 → V128}

/-! ## Reading inside the memory -/

theorem readLE_ok {mem : List UInt8} {p k : ℕ} (h : p + k ≤ mem.length) :
    ∃ v, readLE mem p k = .ok v := by
  rw [readLE, Storage.load_of_le (by rw [List.length_drop]; omega)]
  exact ⟨_, rfl⟩

theorem tableEntry_ok {mem : List UInt8} {table n a : ℕ} (ha : a < table / 8)
    (h : table + table / 8 * tableWidth n ≤ mem.length) :
    ∃ off, tableEntry mem table n a = .ok off := by
  have hentry : tableWidth n * a + tableWidth n ≤ table / 8 * tableWidth n := by
    rw [← Nat.mul_succ, Nat.mul_comm]
    exact Nat.mul_le_mul_right _ ha
  rw [tableWidth] at h hentry
  rw [tableEntry]
  split
  · exact readLE_ok (by simp only [*, if_true] at h hentry; omega)
  · split
    · exact readLE_ok (by simp only [*, if_true, if_false] at h hentry; omega)
    · split
      · exact readLE_ok (by simp only [*, if_true, if_false] at h hentry; omega)
      · exact ⟨0, rfl⟩

/-- The slots of a key lie in the bitmap, so that all that is read of the bitmap and
    of the table is there. -/
theorem locateSlots_ok {n header : ℕ} {mem : List UInt8} (h1 : n > 1)
    (hlen : indexBytes n ≤ mem.length) (hheader : readLE mem 0 4 = .ok header)
    (hn : realSize header = n) {slots : Fin 3 → ℕ}
    (hs : ∀ j, slots j < 4 * bitmapSize (sectionFor n)) :
    ∃ pos, locateSlots mem (sectionFor n) slots = .ok pos := by
  rw [indexBytes, if_pos h1] at hlen
  have hdrop : bitmapSize (sectionFor n) + bitmapSize (sectionFor n) / 8 * tableWidth n ≤
      (mem.drop 8).length := by
    rw [List.length_drop]
    omega
  have hbit : ∀ j, bit2 (mem.drop 8) (slots j) = .ok (cell (mem.drop 8) (slots j)) := fun j =>
    bit2_eq (Nat.lt_of_lt_of_le (hs j) (Nat.mul_le_mul_left 4 (Nat.le_of_add_right_le hdrop)))
  simp only [locateSlots, hheader, Res.ok_bind, hn, hbit]
  obtain ⟨slot, hslot⟩ : ∃ slot, slots ⟨(cell (mem.drop 8) (slots 0) + cell (mem.drop 8) (slots 1) +
      cell (mem.drop 8) (slots 2)) % 3, Nat.mod_lt _ (by decide)⟩ = slot := ⟨_, rfl⟩
  have hlt : slot < 4 * bitmapSize (sectionFor n) := hslot ▸ hs _
  rw [hslot]
  have hblock : slot / 32 < bitmapSize (sectionFor n) / 8 := by
    rw [bitmapSize_eq] at hlt ⊢
    omega
  obtain ⟨off, hoff⟩ := tableEntry_ok hblock hdrop
  obtain ⟨block, hload⟩ : ∃ block, readLE (mem.drop 8) (8 * (slot / 32)) 8 = .ok block := by
    refine readLE_ok ?_
    rw [bitmapSize_eq] at hdrop hblock
    omega
  rw [hoff, Res.ok_bind, hload]
  exact ⟨_, rfl⟩

/-! ## Reading with more behind the memory -/

theorem bit2_of_prefix {mem mem' : List UInt8} (h : mem <+: mem') {p c : ℕ}
    (hr : bit2 mem p = .ok c) : bit2 mem' p = .ok c := by
  rw [bit2] at hr ⊢
  obtain ⟨b, hb, hr⟩ := Res.bind_eq_ok.1 hr
  cases hget : mem[p >>> 2]? with
  | none => rw [hget] at hb; cases hb
  | some b' =>
    obtain ⟨hp, hb'⟩ := List.getElem?_eq_some_iff.1 hget
    obtain ⟨t, rfl⟩ := h
    rw [List.getElem?_append_left hp, hget]
    rw [hget] at hb
    cases hb
    exact hr

theorem tableEntry_of_prefix {mem mem' : List UInt8} (h : mem <+: mem') {table n a off : ℕ}
    (hr : tableEntry mem table n a = .ok off) : tableEntry mem' table n a = .ok off := by
  rw [tableEntry] at hr ⊢
  split_ifs at hr ⊢
  · exact readLE_of_prefix h hr
  · exact readLE_of_prefix h hr
  · exact readLE_of_prefix h hr
  · exact hr

theorem locateSlots_of_prefix {mem mem' : List UInt8} (h : mem <+: mem') {m pos : ℕ}
    {slots : Fin 3 → ℕ} (hr : locateSlots mem m slots = .ok pos) :
    locateSlots mem' m slots = .ok pos := by
  have hdrop : mem.drop 8 <+: mem'.drop 8 := h.drop 8
  rw [locateSlots] at hr ⊢
  obtain ⟨header, hheader, hr⟩ := Res.bind_eq_ok.1 hr
  dsimp only at hr
  obtain ⟨c₀, h₀, hr⟩ := Res.bind_eq_ok.1 hr
  obtain ⟨c₁, h₁, hr⟩ := Res.bind_eq_ok.1 hr
  obtain ⟨c₂, h₂, hr⟩ := Res.bind_eq_ok.1 hr
  obtain ⟨off, hoff, hr⟩ := Res.bind_eq_ok.1 hr
  obtain ⟨block, hblock, hr⟩ := Res.bind_eq_ok.1 hr
  simp only [ readLE_of_prefix h hheader, bit2_of_prefix hdrop h₀, bit2_of_prefix hdrop h₁,
    bit2_of_prefix hdrop h₂, tableEntry_of_prefix hdrop hoff, readLE_of_prefix hdrop hblock,
    Res.ok_bind]
  exact hr

/-- `PerfectHash::Locate` finds the same with more memory behind what it reads. -/
theorem PerfectHash.locate_of_prefix {mem mem' : List UInt8} (h : mem <+: mem') {m bytes pos : ℕ}
    {key : List UInt8} (hr : PerfectHash.locate hash ⟨m, bytes, some mem⟩ key = .ok pos) :
    PerfectHash.locate hash ⟨m, bytes, some mem'⟩ key = .ok pos := by
  rw [locate] at hr ⊢
  dsimp only at hr ⊢
  obtain ⟨header, hheader, hr⟩ := Res.bind_eq_ok.1 hr
  rw [ readLE_of_prefix h hheader, Res.ok_bind]
  split
  · rename_i hlt
    rwa [if_pos hlt] at hr
  · rename_i hlt
    rw [if_neg hlt] at hr
    obtain ⟨seed, hseed, hr⟩ := Res.bind_eq_ok.1 hr
    rw [ readLE_of_prefix h hseed, Res.ok_bind]
    exact locateSlots_of_prefix h hr

/-! ## `PerfectHash::Locate` -/

/-- On a memory of the size that its header asks for, `PerfectHash::Locate` ends. -/
theorem PerfectHash.locate_ok {mem : List UInt8} {header : ℕ}
    (hheader : readLE mem 0 4 = .ok header) (hlen : indexBytes (realSize header) ≤ mem.length)
    (bytes : ℕ) (key : List UInt8) :
    ∃ pos, PerfectHash.locate hash ⟨if realSize header > 1 then sectionFor (realSize header) else 0,
      bytes, some mem⟩ key = .ok pos := by
  simp only [locate, hheader, Res.ok_bind]
  by_cases h1 : realSize header > 1
  · rw [if_neg (Nat.not_lt.2 h1), if_pos h1]
    obtain ⟨seed, hseed⟩ : ∃ seed, readLE mem 4 4 = .ok seed := by
      refine readLE_ok (Nat.le_trans ?_ hlen)
      rw [indexBytes, if_pos h1]
      omega
    rw [hseed, Res.ok_bind]
    have hl : (List.replicate (bitmapSize (sectionFor (realSize header))) (0 : UInt8)).length =
        bitmapSize (sectionFor (realSize header)) := List.length_replicate
    exact locateSlots_ok h1 hlen hheader rfl fun j => hl ▸ keySlots_lt hl j
  · rw [if_pos (by omega)]
    exact ⟨0, rfl⟩

/-- `PerfectHash::Locate` on data that the constructor has accepted, whatever they are,
    reads bytes of `Data()` only: it ends with the same position on every memory
    that begins with these bytes. The bytes lie in the memory whose size was told. -/
theorem PerfectHash.locate_within (hash : List UInt8 → UInt32 → V128) {mem : List UInt8} {size : ℕ}
    {h : PerfectHash} (hof : ofData mem size = .ok h) (hd : h.data ≠ none) (key : List UInt8) :
    (size = 0 ∨ h.dataSize ≤ size) ∧ ∃ pos, ∀ mem' : List UInt8, h.dataSize ≤ mem'.length →
      mem'.take h.dataSize = mem.take h.dataSize →
      PerfectHash.locate hash { h with data := some mem' } key = .ok pos := by
  obtain ⟨header, hheader, hsize, rfl⟩ := ofData_accepts hof hd
  refine ⟨hsize, ?_⟩
  dsimp only
  by_cases hlen : indexBytes (realSize header) ≤ mem.length
  · have h4 := four_le_indexBytes (realSize header)
    have hheader' : readLE (mem.take (indexBytes (realSize header))) 0 4 = .ok header := by
      rw [readLE, List.drop_zero, Storage.load_of_le (Nat.le_trans h4 hlen)] at hheader
      rw [readLE, List.drop_zero, Storage.load_of_le (by rw [List.length_take]; omega),
        List.take_take, Nat.min_eq_left h4]
      exact hheader
    have hle : indexBytes (realSize header) ≤ (mem.take (indexBytes (realSize header))).length :=
      Nat.le_of_eq (List.length_take_of_le hlen).symm
    obtain ⟨pos, hpos⟩ : ∃ pos, PerfectHash.locate hash
        ⟨if realSize header > 1 then sectionFor (realSize header) else 0, indexBytes
          (realSize header), some (mem.take (indexBytes (realSize header)))⟩ key = .ok pos :=
      locate_ok hheader' hle _ key
    refine ⟨pos, fun mem' _ htake => locate_of_prefix ?_ hpos⟩
    rw [← htake]
    exact List.take_prefix _ _
  · refine ⟨0, fun mem' hlen' htake => absurd ?_ hlen⟩
    have := congrArg List.length htake
    rw [List.length_take, List.length_take] at this
    omega

end ProtoCache

import ProtoCache.MapSafe
import ProtoCache.PerfectHash.Layout

/-!
# The index of a map, as the decoder counts it

The decoder of the WASM module (`typescript/wasm/decode_tape.cc`) does not read the index of
a map, but has to know where it ends. It computes that from the number of pairs on its own,
in 32 and 64 bits.

* `indexByteLength_toNat`: nothing overflows below `2 ^ 28` pairs;
* `index_agrees`: the builder, the reader and the decoder have the same layout.
-/

namespace ProtoCache

namespace Wasm

/-- `SectionForSize`; the product and the sum are of 64 bits. -/
def sectionForSize (size : UInt32) : UInt32 := max 10 ((size.toUInt64 * 105 + 255) / 256).toUInt32

/-- `BitmapSizeForSection`. -/
def bitmapSizeForSection (section_ : UInt32) : UInt32 := ((section_ * 3 + 31) &&& ~~~31) / 4

/-- `IndexByteLength`. -/
def indexByteLength (count : UInt32) : UInt64 :=
  if count ≤ 1 then 4
  else
    let bitmap := bitmapSizeForSection (sectionForSize count)
    let bytes := bitmap.toUInt64
    let bytes :=
      if count > 0xffff then bytes + (bitmap / 2).toUInt64
      else if count > 0xff then bytes + (bitmap / 4).toUInt64
      else if count > 24 then bytes + (bitmap / 8).toUInt64
      else bytes
    bytes + 8

/-! ## The arithmetic of the decoder -/

/-- Clearing the low bits rounds down. -/
theorem and_not_31 (x : UInt32) : (x &&& ~~~31).toNat = x.toNat / 32 * 32 := by
  have hx := x.toNat_lt
  rw [UInt32.toNat_and, show (~~~(31 : UInt32)).toNat = (2 ^ 27 - 1) * 2 ^ 5 from rfl,
    show 32 = 2 ^ 5 from rfl]
  refine Nat.eq_of_testBit_eq fun i => ?_
  rw [Nat.testBit_and, Nat.testBit_mul_two_pow, Nat.testBit_mul_two_pow, Nat.testBit_div_two_pow,
    Nat.testBit_two_pow_sub_one]
  by_cases hi : 5 ≤ i
  · by_cases hi' : i < 32
    · simp [hi, show i - 5 < 27 by omega]
    · have : x.toNat.testBit i = false :=
        Nat.testBit_lt_two_pow (hx.trans_le (Nat.pow_le_pow_right (by decide) (by omega)))
      simp [hi, this]
  · simp [hi]

theorem sectionForSize_toNat {n : ℕ} (h : n < 2 ^ 28) :
    (sectionForSize (UInt32.ofNat n)).toNat = sectionFor n := by
  rw [sectionForSize, sectionFor, UInt32.toNat_max, UInt64.toNat_toUInt32, UInt64.toNat_div,
    UInt64.toNat_add, UInt64.toNat_mul, UInt32.toNat_toUInt64, UInt32.toNat_ofNat',
    show (105 : UInt64).toNat = 105 from rfl, show (255 : UInt64).toNat = 255 from rfl,
    show (256 : UInt64).toNat = 256 from rfl, show (10 : UInt32).toNat = 10 from rfl,
    Nat.mod_eq_of_lt (show n < 2 ^ 32 by omega), Nat.mod_eq_of_lt (show n * 105 < 2 ^ 64 by omega),
    Nat.mod_eq_of_lt (show n * 105 + 255 < 2 ^ 64 by omega),
    Nat.mod_eq_of_lt (show (n * 105 + 255) / 256 < 2 ^ 32 by omega)]

theorem bitmapSizeForSection_toNat {s : UInt32} (h : s.toNat < 2 ^ 30) :
    (bitmapSizeForSection s).toNat = bitmapSize s.toNat := by
  rw [bitmapSizeForSection, bitmapSize, UInt32.toNat_div, and_not_31, UInt32.toNat_add,
    UInt32.toNat_mul, show (3 : UInt32).toNat = 3 from rfl, show (31 : UInt32).toNat = 31 from rfl,
    show (4 : UInt32).toNat = 4 from rfl, Nat.mod_eq_of_lt (show s.toNat * 3 < 2 ^ 32 by omega),
    Nat.mod_eq_of_lt (show s.toNat * 3 + 31 < 2 ^ 32 by omega)]

/-- The decoder counts the bytes that `PerfectHash` does. -/
theorem indexByteLength_toNat {n : ℕ} (h : n < 2 ^ 28) :
    (indexByteLength (UInt32.ofNat n)).toNat = indexBytes n := by
  have hn : (UInt32.ofNat n).toNat = n := by
    rw [UInt32.toNat_ofNat', Nat.mod_eq_of_lt (by omega)]
  have hsection : (sectionForSize (UInt32.ofNat n)).toNat = sectionFor n := sectionForSize_toNat h
  have hlt : sectionFor n < 2 ^ 27 := by
    rw [sectionFor]
    omega
  have hbitmap : (bitmapSizeForSection (sectionForSize (UInt32.ofNat n))).toNat =
      bitmapSize (sectionFor n) := by
    rw [bitmapSizeForSection_toNat (by omega), hsection]
  have hmax : bitmapSize (sectionFor n) < 2 ^ 30 := by
    rw [bitmapSize_eq]
    omega
  rw [indexByteLength]
  simp only [UInt32.le_iff_toNat_le, gt_iff_lt, UInt32.lt_iff_toNat_lt, hn,
    show (1 : UInt32).toNat = 1 from rfl, show (0xffff : UInt32).toNat = 65535 from rfl,
    show (0xff : UInt32).toNat = 255 from rfl, show (24 : UInt32).toNat = 24 from rfl]
  rw [← hbitmap] at hmax
  by_cases h1 : n ≤ 1
  · rw [if_pos h1, indexBytes, if_neg (by omega)]
    rfl
  · rw [if_neg h1, ← bytes_eq_indexBytes (by omega), ← hbitmap]
    generalize bitmapSizeForSection (sectionForSize (UInt32.ofNat n)) = bitmap at hmax
    have hbytes : bitmap.toUInt64.toNat < 2 ^ 30 := by rwa [UInt32.toNat_toUInt64]
    have hsum : ∀ part : UInt32, part.toNat ≤ bitmap.toNat →
        (bitmap.toUInt64 + part.toUInt64 + 8).toNat = bitmap.toNat + part.toNat + 8 := by
      intro part hpart
      rw [UInt64.toNat_add, UInt64.toNat_add, UInt32.toNat_toUInt64,
        UInt32.toNat_toUInt64, show (8 : UInt64).toNat = 8 from rfl, Nat.mod_eq_of_lt
        (show bitmap.toNat + part.toNat < 2 ^ 64 by omega), Nat.mod_eq_of_lt (by omega)]
    have hpart : ∀ d : UInt32, (bitmap.toUInt64 + (bitmap / d).toUInt64 + 8).toNat =
        bitmap.toNat + bitmap.toNat / d.toNat + 8 := by
      intro d
      rw [hsum _ (by rw [UInt32.toNat_div]; exact Nat.div_le_self _ _), UInt32.toNat_div]
    split
    · exact hpart 2
    · split
      · exact hpart 4
      · split
        · exact hpart 8
        · have := hsum 0 (Nat.zero_le _)
          rwa [show (0 : UInt32).toUInt64 = 0 from rfl, UInt64.add_zero] at this

/-- `(index_bytes + 3U) / 4U` of `VisitMap`: the words of the index. -/
theorem indexWords_toNat {n : ℕ} (h : n < 2 ^ 28) :
    ((indexByteLength (UInt32.ofNat n) + 3) / 4).toNat = wordSize (indexBytes n) := by
  have hlt : indexBytes n < 2 ^ 32 := by
    rw [indexBytes, bitmapSize_eq, sectionFor, tableWidth]
    split
    · split
      · omega
      · split
        · omega
        · split <;> omega
    · omega
  rw [UInt64.toNat_div, UInt64.toNat_add, indexByteLength_toNat h, show (3 : UInt64).toNat = 3 from
    rfl, show (4 : UInt64).toNat = 4 from rfl, Nat.mod_eq_of_lt (by omega), wordSize]

end Wasm

/-! ## The layouts agree -/

/-- The body of a map of `n` pairs, where it has one. -/
theorem openMap_body {bounded : Bool} {w : UInt32} {rest : List UInt32} {m : MapView}
    (h : openMap bounded (.at (w :: rest)) = .ok m) (hm : m.body ≠ Ptr.null) :
    m.body = (Ptr.at (w :: rest)).add (wordSize (indexBytes (realSize w.toNat))) := by
  rw [openMap, Ptr.load, List.head?_cons, access_some, Res.ok_bind] at h
  dsimp only at h
  split at h
  · cases h
    exact absurd rfl hm
  · obtain ⟨ph, hph, h⟩ := Res.bind_eq_ok.1 h
    split at h
    · cases h
      exact absurd rfl hm
    · next hdata =>
      obtain ⟨header, hheader, -, hknown⟩ := ofData_accepts hph hdata
      obtain rfl : w.toNat = header := Except.ok.inj ((readLE_cons w rest).symm.trans hheader)
      have hsize : ph.dataSize = indexBytes (realSize w.toNat) := by rw [hknown]
      obtain ⟨k, -, h⟩ := Res.bind_eq_ok.1 h
      split at h
      · cases h
        exact absurd rfl hm
      · cases h
        rw [hsize]

/-- For `n` pairs, `Build` lays out as many bytes as the constructor of `PerfectHash` and the
    decoder count, so that `Map` and the decoder start the body at the same word; and the
    table that it lays out has the entries that `Locate` looks up, and as many as there
    are blocks of slots. -/
theorem index_agrees (n : ℕ) (hn : n < 2 ^ 28) :
    (∀ hash source seeds noCheck obj data, source.length = n →
      PerfectHashObject.build hash source seeds noCheck = .ok obj → obj.data = some data →
      obj.dataSize = layoutBytes n ∧ data.length = layoutBytes n ∧ (n > 1 → Parts n data)) ∧
    (∀ mem header size, readLE mem 0 4 = .ok header → realSize header = n →
      size = 0 ∨ layoutBytes n ≤ size →
      ∃ ph, PerfectHash.ofData mem size = .ok ph ∧ ph.data = some mem ∧
        ph.dataSize = layoutBytes n) ∧
    (Wasm.indexByteLength (UInt32.ofNat n)).toNat = layoutBytes n ∧
    (∀ bounded w rest m, openMap bounded (.at (w :: rest)) = .ok m → m.body ≠ Ptr.null →
      realSize w.toNat = n →
      m.body = (Ptr.at (w :: rest)).add ((Wasm.indexByteLength (UInt32.ofNat n) + 3) / 4).toNat) ∧
    (∀ bitmap table a, tableEntry bitmap table n a = if (builderTable n).1 = 0 then .ok 0
      else readLE bitmap (table + (builderTable n).1 * a) (builderTable n).1) ∧
    ((builderTable n).1 ≠ 0 → ∀ a, (∃ slot < 3 * sectionFor n, slot / 32 = a) ↔
      a < (builderTable n).2) := by
  refine ⟨?_, ?_, ?_, ?_, fun bitmap table a => tableEntry_eq bitmap table n a,
    fun h a => block_lt_iff h a⟩
  · rintro hash source seeds noCheck obj data rfl hbuild hd
    exact build_layout hbuild hd
  · rintro mem header size hheader rfl hsize
    rw [layoutBytes_eq] at hsize ⊢
    exact ⟨_, by rw [ofData_eq hheader, if_pos hsize], rfl, rfl⟩
  · rw [layoutBytes_eq, Wasm.indexByteLength_toNat hn]
  · rintro bounded w rest m hopen hm rfl
    rw [Wasm.indexWords_toNat hn, openMap_body hopen hm]

/-- The layout for twenty-five keys, the first that have a table. -/
theorem index_agrees_twentyFive :
    layoutBytes 25 = 26 ∧ (Wasm.indexByteLength 25).toNat = layoutBytes 25 := by
  have h := index_agrees 25 (by decide)
  exact ⟨by decide, h.2.2.1⟩

end ProtoCache

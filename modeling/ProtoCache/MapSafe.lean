import ProtoCache.Detect
import ProtoCache.MapEx
import ProtoCache.PerfectHash.Safe

/-!
# Maps of any content

The constructor of `Map` (`include/protocache/access.h`) looks at the widths of the cells,
at the index and at the pairs, in this order, and rejects a map of which one of these is
not there: a map without a body. All else in the buffer may have any content.

* `rejected_empty_iff`: a map that was rejected is empty, unless its index lies before the
  end and only its pairs do not;
* `find_safe_iff`: on a map that was accepted, `Map::Find` reads nothing but the buffer,
  and what it finds has the key, unless this is a string of which only a part is looked up.
-/

namespace ProtoCache

open LittleEndian

variable {hash : List UInt8 → UInt32 → V128}

/-! ## Opening a map -/

/-- The cells have a width, and the index lies before the end: what the constructor of `Map`
    asks for before it looks at the pairs. -/
def IndexFits : List UInt32 → Prop
  | [] => False
  | w :: rest =>
    (((w >>> 30) &&& 3).toNat ≠ 0 ∧ ((w >>> 28) &&& 3).toNat ≠ 0) ∧
      ((w :: rest).length * 4 % 2 ^ 32 = 0 ∨
        indexBytes (realSize w.toNat) ≤ (w :: rest).length * 4 % 2 ^ 32)

instance (v : List UInt32) : Decidable (IndexFits v) :=
  match v with
  | [] => inferInstanceAs (Decidable False)
  | _ :: _ => inferInstanceAs (Decidable ((_ ∧ _) ∧ (_ ∨ _)))

theorem readLE_cons (w : UInt32) (rest : List UInt32) :
    readLE (bytesOf (w :: rest)) 0 4 = .ok w.toNat :=
  readLE_toLE w.toNat_lt _

/-- An index that lies before the end stays, whether its pairs do or not. -/
theorem openMap_of_fits {w : UInt32} {rest : List UInt32} (h : IndexFits (w :: rest)) :
    openMap true (.at (w :: rest)) =
      .ok ⟨⟨if realSize w.toNat > 1 then sectionFor (realSize w.toNat)
        else 0, indexBytes (realSize w.toNat), some (bytesOf (w :: rest))⟩,
      if (w :: rest).length < wordSize (indexBytes (realSize w.toNat)) +
        (((w >>> 30) &&& 3).toNat + ((w >>> 28) &&& 3).toNat) * realSize w.toNat then Ptr.null
      else .at ((w :: rest).drop (wordSize (indexBytes (realSize w.toNat)))),
      ((w >>> 30) &&& 3).toNat, ((w >>> 28) &&& 3).toNat⟩ := by
  obtain ⟨hwidth, hfit⟩ := h
  rw [openMap, Ptr.load, List.head?_cons, access_some, Res.ok_bind]
  dsimp only
  rw [if_neg (not_or.2 hwidth), if_pos rfl, ofData_eq (readLE_cons w rest), if_pos hfit,
    Res.ok_bind, if_neg (Option.some_ne_none _), PerfectHash.size]
  dsimp only
  rw [readLE_cons, Res.ok_bind, Res.pure_eq, Res.ok_bind, Ptr.exceeds, Bool.true_and]
  simp only [decide_eq_true_eq]
  split <;> rfl

/-- Without its index, nothing is left of a map but the widths of its cells. -/
theorem openMap_of_not_fits {w : UInt32} {rest : List UInt32} (h : ¬IndexFits (w :: rest)) :
    openMap true (.at (w :: rest)) =
      .ok ⟨{}, Ptr.null, ((w >>> 30) &&& 3).toNat, ((w >>> 28) &&& 3).toNat⟩ := by
  rw [openMap, Ptr.load, List.head?_cons, access_some, Res.ok_bind]
  dsimp only
  split
  · rfl
  · rename_i hwidth
    rw [if_pos rfl, ofData_eq (readLE_cons w rest),
      if_neg fun hfit => h ⟨not_or.1 hwidth, hfit⟩, Res.ok_bind, if_pos rfl]
    rfl

/-! ## Maps that are rejected -/

/-- An empty map: it has no pairs, a loop over it meets none, and no key is found, without
    a look at the buffer, which the map has no part of. -/
structure MapView.IsEmpty (hash : List UInt8 → UInt32 → V128) (m : MapView) : Prop where
  size : m.index.size = .ok 0
  each : ∀ {α : Type} (f : Field × Field → Res α), m.forEach f = .ok []
  find : ∀ (b : Bool) (k : KeyKind) (key : k.kind.Val), k.find hash m b key = .ok none
  unread : m.index.data = none ∧ m.body = Ptr.null

/-- A map without an index is empty. -/
theorem MapView.isEmpty_of_data {m : MapView} (hd : m.index.data = none) (hb : m.body = Ptr.null) :
    m.IsEmpty hash := by
  have hsize : m.index.size = .ok 0 := by rw [PerfectHash.size, hd]
  refine ⟨hsize, fun f => ?_, fun b k key => ?_, hd, hb⟩
  · rw [forEach, hsize]
    rfl
  · rw [KeyKind.find_eq_findWith, findWith, PerfectHash.locate, hd, hsize]
    rfl

/-- `MapEX` over an empty map is empty. -/
theorem readMapEX_of_isEmpty {m : MapView} {ptr : Ptr} (hopen : openMap true ptr = .ok m)
    (h : m.IsEmpty hash) (k : KeyKind) (t : Kind) : readMapEX k t true ptr = .ok [] := by
  rw [readMapEX, hopen, Res.ok_bind, h.each, Res.ok_bind]
  rfl

/-- A map of which only the pairs do not lie before the end has pairs. -/
theorem size_of_rejected {w : UInt32} {rest : List UInt32} {m : MapView} (h : IndexFits (w :: rest))
    (hopen : openMap true (.at (w :: rest)) = .ok m) (hrejected : m.body = Ptr.null) :
    m.index.size = .ok (realSize w.toNat) ∧ realSize w.toNat ≠ 0 := by
  rw [openMap_of_fits h] at hopen
  cases hopen
  refine ⟨?_, fun h0 => ?_⟩
  · rw [PerfectHash.size]
    dsimp only
    rw [readLE_cons]
    rfl
  dsimp only at hrejected
  rw [h0] at hrejected
  split at hrejected
  · rename_i hlt
    rw [Nat.mul_zero, List.length_cons, indexBytes, if_neg (by decide), wordSize] at hlt
    omega
  · cases hrejected

/-- A map that was rejected, at any position of a buffer, is empty, and so is `MapEX` over
    it, if and only if its index does not lie before the end. -/
theorem rejected_empty_iff (hash : List UInt8 → UInt32 → V128) (v : List UInt32) (m : MapView)
    (hopen : openMap true (.at v) = .ok m) (hrejected : m.body = Ptr.null) :
    (m.IsEmpty hash ∧ ∀ k t, readMapEX k t true (.at v) = .ok []) ↔ ¬IndexFits v := by
  cases v with
  | nil => cases hopen
  | cons w rest =>
    constructor
    · rintro ⟨hempty, -⟩ hfit
      obtain ⟨hsize, hne⟩ := size_of_rejected hfit hopen hrejected
      exact hne (Except.ok.inj (hsize.symm.trans hempty.size))
    · intro hfit
      have hm : m = ⟨{}, Ptr.null, ((w >>> 30) &&& 3).toNat, ((w >>> 28) &&& 3).toNat⟩ :=
        Except.ok.inj (hopen.symm.trans (openMap_of_not_fits hfit))
      have hempty : m.IsEmpty hash := hm ▸ MapView.isEmpty_of_data rfl rfl
      exact ⟨hempty, fun k t => readMapEX_of_isEmpty hopen hempty k t⟩

/-- A header without its index. -/
theorem rejected_empty_iff_two :
    MapView.IsEmpty (fun _ _ => ⟨0, 0, 0, 0⟩) ⟨{}, Ptr.null, 1, 1⟩ ∧
      ∀ k t, readMapEX k t true (.at [0x50000002]) = .ok [] :=
  (rejected_empty_iff _ [0x50000002] _ (by rfl) rfl).2 (by decide)

/-- A header that says that there is a pair, at the end of the buffer: the map is rejected, but
    has a pair, which `MapEX` reads through a null pointer. -/
theorem rejected_not_empty : ∃ m, openMap true (.at [0x50000001]) = .ok m ∧ m.body = Ptr.null ∧
    m.index.size = .ok 1 ∧ readMapEX .w32 .w32 true (.at [0x50000001]) = .error .fault :=
  ⟨_, rfl, rfl, rfl, rfl⟩

/-! ## Maps that are accepted -/

/-- What is behind a map that was accepted: its index and its pairs lie in the buffer. -/
theorem openMap_accepted {v : List UInt32} {m : MapView} (hopen : openMap true (.at v) = .ok m)
    (haccepted : m.body ≠ Ptr.null) :
    ∃ n k, m.index.size = .ok n ∧ (∀ key, ∃ pos, m.index.locate hash key = .ok pos) ∧
      m.body = .at (v.drop k) ∧ 1 ≤ k ∧ 1 ≤ m.keyWidth ∧
      k + (m.keyWidth + m.valueWidth) * n ≤ v.length := by
  cases v with
  | nil => cases hopen
  | cons w rest =>
    by_cases hfit : IndexFits (w :: rest)
    swap
    · -- A map whose index does not fit is refused, and has no body.
      rw [openMap_of_not_fits hfit] at hopen
      cases hopen
      exact absurd rfl haccepted
    rw [openMap_of_fits hfit] at hopen
    obtain ⟨⟨hkey, -⟩, -⟩ := hfit
    cases hopen
    dsimp only at haccepted ⊢
    split at haccepted
    · exact absurd rfl haccepted
    · rename_i hle
      have h4 := four_le_indexBytes (realSize w.toNat)
      have hk : indexBytes (realSize w.toNat) ≤ (bytesOf (w :: rest)).length := by
        rw [length_bytesOf]
        rw [wordSize] at hle
        omega
      refine ⟨realSize w.toNat, wordSize (indexBytes (realSize w.toNat)), ?_,
        fun key => PerfectHash.locate_ok (readLE_cons w rest) hk _ key, if_neg hle, ?_,
        Nat.one_le_iff_ne_zero.2 hkey, Nat.le_of_not_lt hle⟩
      · rw [PerfectHash.size]
        dsimp only
        rw [readLE_cons]
        rfl
      · rw [wordSize]
        omega

/-- A string in the buffer can be read. -/
theorem getString_safe {f : Field} {u : List UInt32} (hptr : f.ptr = .at u)
    (hle : f.width ≤ u.length) :
    ∃ str, f.getString true = .ok str ∧ ∀ s, str = some s → ∃ bytes,
      ByteSlice.get (some s) = .ok bytes := by
  have hinside : f.Inside (0 :: u) :=
    .inr ⟨1, le_rfl, hptr, by rw [List.length_cons, Nat.add_comm]; exact Nat.succ_le_succ hle⟩
  obtain ⟨q, hq, hq'⟩ := hinside.getObject (List.cons_ne_nil _ _)
  rw [Field.getString, hq, Res.ok_bind]
  rcases hq' with rfl | ⟨v', rfl, -, -⟩
  · exact ⟨none, rfl, fun s hs => by cases hs⟩
  · obtain ⟨str, hstr, hs⟩ := readString_safe v'
    refine ⟨str, hstr, fun s hs' => ⟨s.mem.take s.size, ?_⟩⟩
    rw [ByteSlice.get, Storage.load_of_le (hs s hs').2]
    rfl

/-- Comparing a key with one in the buffer reads nothing else, and if they are found to be the
    same, the one in the buffer is the key. -/
theorem KeyKind.same_safe {k : KeyKind} {f : Field} {u : List UInt32} (hptr : f.ptr = .at u)
    (hle : f.width ≤ u.length) (key : k.kind.Val) :
    ∃ r, k.same true key f = .ok r ∧ (r = true → k.kind.Shown true f key) := by
  -- The cell is in the buffer, so that the check of its end passes.
  have hval : f.getValue true = (.at u, f.width) := by
    rw [Field.getValue, hptr, if_neg]
    rw [Ptr.exceeds, Bool.true_and, decide_eq_true_eq]
    exact Nat.not_lt.2 hle
  cases k with
  | w32 =>
    rw [same, hval, Kind.Shown, Field.get32, hval]
    dsimp only
    split
    · exact ⟨false, rfl, fun h => by cases h⟩
    · rename_i hwidth
      obtain ⟨x, rest, rfl⟩ := List.exists_cons_of_length_pos (l := u) (by omega)
      exact ⟨decide (x = key), rfl, fun hr => congrArg _ (of_decide_eq_true hr)⟩
  | w64 =>
    rw [same, hval, Kind.Shown, Field.get64, hval]
    dsimp only
    split
    · exact ⟨false, rfl, fun h => by cases h⟩
    · rename_i hwidth
      obtain ⟨x, rest, rfl⟩ := List.exists_cons_of_length_pos (l := u) (by omega)
      obtain ⟨y, rest, rfl⟩ := List.exists_cons_of_length_pos (l := rest)
        (by rw [List.length_cons] at hle; omega)
      exact ⟨decide (x.toUInt64 ||| y.toUInt64 <<< 32 = key), rfl,
        fun hr => congrArg _ (of_decide_eq_true hr)⟩
  | str =>
    obtain ⟨str, hstr, hget⟩ := getString_safe hptr hle
    rw [same, hstr, Res.ok_bind, Kind.Shown, hstr]
    cases str with
    | none => exact ⟨false, rfl, fun h => by cases h⟩
    | some view =>
      obtain ⟨bytes, hbytes⟩ := hget view rfl
      dsimp only
      split
      · exact ⟨false, rfl, fun h => by cases h⟩
      · rw [hbytes]
        refine ⟨decide (bytes = key), rfl, fun hr => ⟨view, rfl, ?_⟩⟩
        rw [hbytes, of_decide_eq_true hr]

/-- A key that stands in the buffer is found to be the same. -/
theorem KeyKind.same_str {f : Field} {s : List UInt8} (h : Kind.str.Shown true f s) :
    KeyKind.str.same true s f = .ok true := by
  obtain ⟨view, hview, hget⟩ := h
  have hsize : view.size = s.length := by
    rw [ByteSlice.get, Storage.load] at hget
    split at hget
    · rename_i hle
      rw [← Except.ok.inj hget, List.length_take, Nat.min_eq_left hle]
    · cases hget
  rw [same, hview, Res.ok_bind]
  dsimp only
  rw [if_neg (not_not.2 hsize), hget]
  exact congrArg Except.ok (decide_eq_true rfl)

/-- The pair at the position that the index gives for a key. -/
def MapView.PairAt (hash : List UInt8 → UInt32 → V128) (m : MapView) (bytes : List UInt8)
    (pair : Field × Field) : Prop :=
  ∃ pos n, m.index.locate hash bytes = .ok pos ∧ m.index.size = .ok n ∧ pos < n ∧
    pair = pairAt m (m.body.add ((m.keyWidth + m.valueWidth) * pos))

/-- `Map::Find` reads nothing but the buffer and the key, and if it finds a pair, this is one of
    the map, and has the key. -/
def MapView.FindsOnly (hash : List UInt8 → UInt32 → V128) (m : MapView) (k : KeyKind)
    (key : k.kind.Val) : Prop :=
  ∃ r, k.find hash m true key = .ok r ∧
    ∀ pair, r = some pair → (∃ bytes, m.PairAt hash bytes pair) ∧ k.kind.Shown true pair.1 key

/-- On a map that was accepted, what `Map::Find` looks up is found where it stands. -/
theorem find_accepted {v : List UInt32} {m : MapView} (hopen : openMap true (.at v) = .ok m)
    (haccepted : m.body ≠ Ptr.null) (k : KeyKind) (key : k.kind.Val) :
    k.find hash m true key = .ok none ∨ ∃ pair, k.find hash m true key = .ok (some pair) ∧
      m.PairAt hash (k.bytes (k.cut key)) pair ∧ k.kind.Shown true pair.1 (k.cut key) := by
  obtain ⟨n, p, hsize, hlocate, hbody, -, -, hle⟩ := openMap_accepted hopen haccepted
  obtain ⟨pos, hpos⟩ := hlocate (k.bytes (k.cut key))
  rw [KeyKind.find_eq_findWith, MapView.findWith, hpos, Res.ok_bind, hsize, Res.ok_bind]
  split
  · exact .inl rfl
  · rename_i hlt
    have hstride : (m.keyWidth + m.valueWidth) * pos + (m.keyWidth + m.valueWidth) ≤
        (m.keyWidth + m.valueWidth) * n := by
      rw [← Nat.mul_succ]
      exact Nat.mul_le_mul_left _ (Nat.lt_of_not_le hlt)
    have hptr : (pairAt m (m.body.add ((m.keyWidth + m.valueWidth) * pos))).1.ptr =
        .at ((v.drop p).drop ((m.keyWidth + m.valueWidth) * pos)) := by
      rw [hbody]
      rfl
    have hle : m.keyWidth ≤ ((v.drop p).drop ((m.keyWidth + m.valueWidth) * pos)).length := by
      rw [List.length_drop, List.length_drop]
      omega
    obtain ⟨r, hr, hshown⟩ := KeyKind.same_safe hptr hle (k.cut key)
    dsimp only
    rw [hr, Res.ok_bind]
    cases r with
    | false => exact .inl rfl
    | true => exact .inr ⟨_, rfl, ⟨pos, n, hpos, hsize, Nat.lt_of_not_le hlt, rfl⟩, hshown rfl⟩

/-- A string in the buffer that is found for a key. -/
theorem find_of_pairAt {m : MapView} {key : List UInt8} {pair : Field × Field}
    (hat : m.PairAt hash (KeyKind.bytes .str (KeyKind.cut .str key)) pair)
    (hshown : Kind.str.Shown true pair.1 (KeyKind.cut .str key)) :
    KeyKind.find hash m true .str key = .ok (some pair) := by
  obtain ⟨pos, n, hpos, hsize, hlt, rfl⟩ := hat
  rw [KeyKind.find_eq_findWith, MapView.findWith, hpos, Res.ok_bind, hsize, Res.ok_bind,
    if_neg (Nat.not_le.2 hlt)]
  dsimp only
  rw [KeyKind.same_str hshown]
  rfl

/-- What `Map::Find` finds has the key, unless only a part of the key is looked up, and stands
    where it is looked up. -/
theorem findsOnly_iff {v : List UInt32} {m : MapView} (hopen : openMap true (.at v) = .ok m)
    (haccepted : m.body ≠ Ptr.null) (k : KeyKind) (key : k.kind.Val) :
    m.FindsOnly hash k key ↔ k.cut key = key ∨
      ∀ pair, m.PairAt hash (k.bytes (k.cut key)) pair → ¬k.kind.Shown true pair.1 (k.cut key) := by
  constructor
  · rintro ⟨r, hr, hfound⟩
    by_contra hnot
    rw [not_or] at hnot
    push Not at hnot
    obtain ⟨hcut, pair, hat, hshown⟩ := hnot
    cases k with
    | w32 | w64 => exact hcut rfl
    | str =>
      obtain rfl : r = some pair := Except.ok.inj (hr.symm.trans (find_of_pairAt hat hshown))
      obtain ⟨-, s, hs, hget⟩ := hfound pair rfl
      obtain ⟨s', hs', hget'⟩ := hshown
      obtain rfl : s = s' := Option.some.inj (Except.ok.inj (hs.symm.trans hs'))
      exact hcut (Except.ok.inj (hget'.symm.trans hget))
  · intro h
    rcases find_accepted hopen haccepted k key with hnone | ⟨pair, hfind, hat, hshown⟩
    · exact ⟨none, hnone, fun pair hp => by cases hp⟩
    · refine ⟨some pair, hfind, fun pair' hp => ?_⟩
      obtain rfl := Option.some.inj hp
      refine ⟨⟨_, hat⟩, ?_⟩
      rcases h with hcut | hnot
      · rwa [hcut] at hshown
      · exact absurd hshown (hnot _ hat)

/-- `PerfectHash::Locate` reads only what `Data()` is, of which all lies in a memory of the
    size that was told. -/
def LocatesWithin (hash : List UInt8 → UInt32 → V128) : Prop :=
  ∀ (mem : List UInt8) (size : ℕ) (h : PerfectHash), PerfectHash.ofData mem size = .ok h →
    h.data ≠ none → ∀ key, (size = 0 ∨ h.dataSize ≤ size) ∧ ∃ pos, ∀ mem' : List UInt8,
      h.dataSize ≤ mem'.length → mem'.take h.dataSize = mem.take h.dataSize →
      PerfectHash.locate hash { h with data := some mem' } key = .ok pos

/-- On data of any content that was accepted, `PerfectHash::Locate` stays in the data. On a map
    of any content that was accepted, `Map::Find` stays in the buffer and finds a pair with the
    key, or nothing, if and only if the key is not a string of which only a part is looked
    up, and stands where the index leads. -/
theorem find_safe_iff (hash : List UInt8 → UInt32 → V128) (v : List UInt32) (m : MapView)
    (hopen : openMap true (.at v) = .ok m) (haccepted : m.body ≠ Ptr.null) (k : KeyKind)
    (key : k.kind.Val) :
    LocatesWithin hash ∧ m.FindsOnly hash k key ↔ k.cut key = key ∨
      ∀ pair, m.PairAt hash (k.bytes (k.cut key)) pair → ¬k.kind.Shown true pair.1 (k.cut key) := by
  rw [← findsOnly_iff hopen haccepted]
  exact and_iff_right fun mem size h hof hd key => PerfectHash.locate_within hash hof hd key

/-- A map of one pair. -/
theorem find_safe_iff_one : LocatesWithin (fun _ _ => ⟨0, 0, 0, 0⟩) ∧
    MapView.FindsOnly (fun _ _ => ⟨0, 0, 0, 0⟩)
      ⟨⟨0, 4, some (bytesOf [0x50000001, 5, 7])⟩, .at [5, 7], 1, 1⟩ .w32 5 :=
  (find_safe_iff _ [0x50000001, 5, 7] ⟨⟨0, 4, some (bytesOf [0x50000001, 5, 7])⟩, .at [5, 7], 1, 1⟩
    (by decide +kernel) (by decide) .w32 5).2 (.inl rfl)

/-- For a string of `2 ^ 32` bytes, the pair of the empty string is found. -/
theorem find_long : openMap true (.at [0x50000001, 0, 7]) =
      .ok ⟨⟨0, 4, some (bytesOf [0x50000001, 0, 7])⟩, .at [0, 7], 1, 1⟩ ∧
    ¬MapView.FindsOnly (fun _ _ => ⟨0, 0, 0, 0⟩)
      ⟨⟨0, 4, some (bytesOf [0x50000001, 0, 7])⟩, .at [0, 7], 1, 1⟩ .str
      (List.replicate (2 ^ 32) 0) := by
  have hopen : openMap true (.at [0x50000001, 0, 7]) =
      .ok ⟨⟨0, 4, some (bytesOf [0x50000001, 0, 7])⟩, .at [0, 7], 1, 1⟩ := by decide +kernel
  refine ⟨hopen, fun h => ?_⟩
  have hcut : KeyKind.cut .str (List.replicate (2 ^ 32) (0 : UInt8)) = [] := by
    rw [KeyKind.cut, List.length_replicate, Nat.mod_self, List.take_zero]
  rcases (findsOnly_iff hopen (by decide) .str _).1 h with hkey | hnot
  · rw [hcut] at hkey
    have hlen := congrArg List.length hkey
    rw [List.length_replicate] at hlen
    exact absurd hlen (by decide)
  · rw [hcut] at hnot
    exact hnot _ ⟨0, 1, rfl, rfl, Nat.zero_lt_one, rfl⟩ ⟨_, rfl, rfl⟩

end ProtoCache

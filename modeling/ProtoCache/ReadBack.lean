import ProtoCache.Access
import ProtoCache.Lib.TwoBit
import ProtoCache.Serialize.MapField
import ProtoCache.Serialize.Message

/-!
# Reading what was written

The views of a buffer, at an object that was written into it, whatever stands behind
the object.

* `getObject_eq`: at a cell that shows an object, its field is the object.
* `openArray_eq`, `openMap_eq`, `getField_eq`, `readString_eq`: the views of the
  arrays, maps, messages and strings that were written.
-/

namespace ProtoCache

open Row LittleEndian

/-- The words of an object: there are some, and if they fit in a cell, the first one is
    not taken for a link. -/
def IsObject (ws : List UInt32) : Prop :=
  ∃ w tail, ws = w :: tail ∧ (ws.length ≤ 3 → w &&& 3 ≠ 3)

/-- The distance of a link takes the upper 30 bits of its word, and the mark the others. -/
theorem linkWord_toNat {d : ℕ} (hd : d < 2 ^ 30) : (linkWord d).toNat = 4 * d + 3 := by
  have hd' : (UInt32.ofNat d).toNat = d := Nat.mod_eq_of_lt (by omega)
  rw [linkWord, offset, UInt32.toNat_or, UInt32.toNat_shiftLeft, hd']
  have h4 : d <<< 2 = 4 * d := by rw [Nat.shiftLeft_eq]; ring
  have h3 : 4 * d ||| 3 = 4 * d + 3 := by
    rw [show 4 * d = 2 ^ 2 * d by ring, Nat.two_pow_add_eq_or_of_lt (by decide)]
  change d <<< 2 % 2 ^ 32 ||| 3 = _
  rw [h4, Nat.mod_eq_of_lt (by omega), h3]

theorem linkWord_mark {d : ℕ} (hd : d < 2 ^ 30) :
    linkWord d &&& 3 = 3 ∧ (linkWord d).toNat >>> 2 = d := by
  have hlink := linkWord_toNat hd
  constructor
  · rw [← UInt32.toNat_inj, UInt32.toNat_and, hlink]
    change (4 * d + 3) &&& 3 = 3
    rw [Nat.and_two_pow_sub_one_eq_mod _ 2]
    omega
  · rw [hlink, Nat.shiftRight_eq_div_pow]
    omega

/-- An object that is in a cell, or less than `2 ^ 30` words before the end of the
    buffer, with `rest` behind it: the bytes from there on can be counted. -/
def Near (ws rest : List UInt32) : Prop := ws.length ≤ 3 ∨ ws.length + rest.length < 2 ^ 30

/-- The object of a field, at a cell that shows its words; what is in the cell is not taken
    for a link. -/
theorem getObject_shows {M w : ℕ} (w' : ℕ) {v : List UInt32} {p : Piece UInt32} (b : Bool)
    (h : Shows 0 linkWord (2 ^ 30) M w v p) (hf : p.Fits w) (hw : w ≤ 3) (hne : p.words ≠ [])
    (ho : ∀ x xs, p = .inl (x :: xs) → x &&& 3 ≠ 3) :
    ∃ tail, Field.getObject b ⟨.at v, w'⟩ = .ok (.at (p.words ++ tail)) ∧
      ((p.outer ≠ [] → M < 2 ^ 30) → Near p.words tail) := by
  obtain ⟨x, xs, hx⟩ := List.exists_cons_of_ne_nil hne
  cases p with
  | inl ws =>
    obtain ⟨tail, rfl⟩ := h
    obtain rfl : ws = x :: xs := hx
    refine ⟨List.replicate (w - (x :: xs).length) 0 ++ tail, ?_, fun _ => .inl (le_trans hf hw)⟩
    have hm : x &&& 3 ≠ 3 := ho x xs rfl
    simp [Field.getObject, Ptr.reaches, Ptr.load, Ptr.null, hm, Piece.words]
  | out ws =>
    obtain ⟨d, tail, tail', hd, rfl, hdrop, hle⟩ := h
    obtain rfl : ws = x :: xs := hx
    refine ⟨tail', ?_, fun hM => .inr (hle.trans_lt (hM (List.cons_ne_nil _ _)))⟩
    obtain ⟨h3, hd'⟩ := linkWord_mark hd
    simp [Field.getObject, Ptr.reaches, Ptr.load, Ptr.null, h3, hd', Ptr.add, hdrop, Piece.words]

/-- The object of a field, at a cell that shows it. -/
theorem getObject_eq {M w : ℕ} (w' : ℕ) {v : List UInt32} {p : Piece UInt32} (b : Bool)
    (h : Shows 0 linkWord (2 ^ 30) M w v p) (hf : p.Fits w) (hw : w ≤ 3) (ho : IsObject p.words) :
    ∃ tail, Field.getObject b ⟨.at v, w'⟩ = .ok (.at (p.words ++ tail)) ∧
      ((p.outer ≠ [] → M < 2 ^ 30) → Near p.words tail) := by
  obtain ⟨x, xs, hx, hmark⟩ := ho
  refine getObject_shows w' b h hf hw (by rw [hx]; exact List.cons_ne_nil _ _) ?_
  rintro y ys rfl
  obtain ⟨rfl, rfl⟩ : y = x ∧ ys = xs := List.cons.inj hx
  exact hmark (le_trans hf hw)

/-! ## Scalars -/

/-- A word of 64 bits is made of its halves. -/
theorem halves (x : UInt64) : x.toUInt32.toUInt64 ||| (x >>> 32).toUInt32.toUInt64 <<< 32 = x := by
  rw [← UInt64.toNat_inj, UInt64.toNat_or, UInt64.toNat_shiftLeft, UInt32.toNat_toUInt64,
    UInt32.toNat_toUInt64, UInt64.toNat_toUInt32, UInt64.toNat_toUInt32, UInt64.toNat_shiftRight]
  change x.toNat % 2 ^ 32 ||| (x.toNat >>> 32 % 2 ^ 32) <<< 32 % 2 ^ 64 = x.toNat
  have hx := x.toNat_lt
  rw [Nat.shiftRight_eq_div_pow, Nat.shiftLeft_eq, Nat.mod_eq_of_lt (show x.toNat / 2 ^ 32 <
      2 ^ 32 by omega), Nat.mod_eq_of_lt (show x.toNat / 2 ^ 32 * 2 ^ 32 < 2 ^ 64 by omega),
    Nat.or_comm, Nat.mul_comm, ← Nat.two_pow_add_eq_or_of_lt (Nat.mod_lt _ (by decide))]
  omega

section

variable {M : ℕ} {v : List UInt32} (b : Bool)

theorem getValue_eq (ws : List UInt32) (h : Shows 0 linkWord (2 ^ 30) M ws.length v (.inl ws)) :
    ∃ tail, v = ws ++ tail ∧
      Field.getValue b ⟨.at v, ws.length⟩ = (.at v, ws.length) := by
  have hlen := Nat.not_lt.2 h.length_le
  obtain ⟨tail, hv⟩ := h
  refine ⟨List.replicate (ws.length - ws.length) 0 ++ tail, hv, ?_⟩
  rw [Field.getValue, Ptr.exceeds, decide_eq_false hlen, Bool.and_false]
  rfl

theorem get32_eq {x : UInt32} (h : Shows 0 linkWord (2 ^ 30) M 1 v (.inl [x])) :
    Field.get32 b ⟨.at v, 1⟩ = .ok x := by
  obtain ⟨tail, rfl, hval⟩ := getValue_eq b [x] h
  rw [Field.get32, show (1 : ℕ) = [x].length from rfl, hval]
  rfl

theorem get64_eq {x : UInt64}
    (h : Shows 0 linkWord (2 ^ 30) M 2 v (.inl [x.toUInt32, (x >>> 32).toUInt32])) :
    Field.get64 b ⟨.at v, 2⟩ = .ok x := by
  obtain ⟨tail, rfl, hval⟩ := getValue_eq b [x.toUInt32, (x >>> 32).toUInt32] h
  rw [Field.get64, show (2 : ℕ) = [x.toUInt32, (x >>> 32).toUInt32].length from rfl, hval]
  exact congrArg Except.ok (halves x)

theorem getBool_eq {x : Bool} (h : Shows 0 linkWord (2 ^ 30) M 1 v (.inl [if x then 1 else 0])) :
    Field.getBool b ⟨.at v, 1⟩ = .ok x := by
  obtain ⟨tail, rfl, hval⟩ := getValue_eq b [if x then 1 else 0] h
  rw [Field.getBool, show (1 : ℕ) = [if x then (1 : UInt32) else 0].length from rfl, hval]
  cases x <;> rfl

end

/-! ## Arrays -/

theorem arrayHead_mark {n m : ℕ} (hn : n < 2 ^ 30) (hm : m ≤ 3) :
    (UInt32.ofNat (n <<< 2 ||| m)).toNat = 4 * n + m := by
  have h4 : n <<< 2 ||| m = 4 * n + m := by
    rw [Nat.shiftLeft_eq, Nat.mul_comm, ← Nat.two_pow_add_eq_or_of_lt (show m < 2 ^ 2 by omega)]
  rw [h4]
  exact Nat.mod_eq_of_lt (by omega)

/-- The size and the width in the head of an array. -/
theorem arrayHead_parts {n m : ℕ} (hn : n < 2 ^ 30) (hm : m ≤ 3) :
    (UInt32.ofNat (n <<< 2 ||| m) >>> 2).toNat = n ∧
      (UInt32.ofNat (n <<< 2 ||| m) &&& 3).toNat = m := by
  have hmark := arrayHead_mark hn hm
  constructor
  · rw [UInt32.toNat_shiftRight, hmark]
    change (4 * n + m) >>> 2 = n
    rw [Nat.shiftRight_eq_div_pow]
    omega
  · rw [UInt32.toNat_and, hmark]
    change (4 * n + m) &&& 3 = m
    rw [Nat.and_two_pow_sub_one_eq_mod _ 2]
    omega

/-- The cells of an array, and what stands behind them. -/
def arrayBody (m : ℕ) (ps : List (Piece UInt32)) (rest : List UInt32) : List UInt32 :=
  cells 0 linkWord 0 (column m ps) ++ (outers ps ++ rest)

theorem IsArray.length_lt {m : ℕ} {ps : List (Piece UInt32)} {w : List UInt32}
    (h : IsArray m ps w) :
    ps.length < 2 ^ 30 := by
  have := Nat.le_mul_of_pos_left ps.length h.pos
  have := h.size
  omega

/-- The view of an array. -/
theorem openArray_eq {m : ℕ} {ps : List (Piece UInt32)} {w : List UInt32} (h : IsArray m ps w)
    (b : Bool) (rest : List UInt32) :
    openArray b (.at (w ++ rest)) = .ok ⟨.at (arrayBody m ps rest), ps.length, m⟩ := by
  obtain ⟨rfl, h1, h3, hf, hl, h0, hsize⟩ := h
  obtain ⟨hn, hm⟩ := arrayHead_parts (IsArray.length_lt ⟨rfl, h1, h3, hf, hl, h0, hsize⟩) h3
  have hlen : ¬(arrayWords m ps ++ rest).length < 1 + m * ps.length := by
    rw [List.length_append, length_arrayWords hf]
    omega
  rw [openArray, if_neg (by simp [Ptr.null]), arrayWords, List.cons_append, Ptr.load,
    List.head?_cons, access_some, Res.ok_bind, hn, hm, if_neg]
  · rw [Ptr.add, List.drop_one, List.tail_cons, List.append_assoc]
    rfl
  · rw [← List.cons_append, ← arrayWords, Ptr.exceeds, decide_eq_false hlen]
    simp
    omega

/-- The cell of an element of an array, among the others; what a link leads over there is
    less than `2 ^ 30` words. -/
theorem IsArray.split {m : ℕ} {ps : List (Piece UInt32)} {w : List UInt32} (h : IsArray m ps w)
    {i : ℕ} (hi : i < ps.length) :
    ∃ r r', column m ps = r ++ (m, ps[i]) :: r' ∧ width r = m * i ∧
      m + width r' + (outs r).length < 2 ^ 30 := by
  obtain ⟨-, -, -, -, -, -, hsize⟩ := h
  refine ⟨column m (ps.take i), column m (ps.drop (i + 1)), ?_, ?_, ?_⟩
  · conv_lhs => rw [← List.take_append_drop i ps, List.drop_eq_getElem_cons hi, column,
      List.map_append]
    rfl
  · rw [width_column, List.length_take, Nat.min_eq_left hi.le]
  · have houts : (outers (ps.take i)).length ≤ (outers ps).length := by
      conv_rhs => rw [← List.take_append_drop i ps, outers_append, List.length_append]
      exact Nat.le_add_right _ _
    have hm : m * ps.length = m * i + (m + m * (ps.length - (i + 1))) := by
      obtain ⟨k, hk⟩ := Nat.exists_eq_add_of_lt hi
      rw [hk, show i + k + 1 - (i + 1) = k by omega]
      ring
    rw [width_column, outs_column, List.length_drop]
    omega

/-- The cells of an array show its elements. -/
theorem IsArray.shows {m : ℕ} {ps : List (Piece UInt32)} {w : List UInt32} (h : IsArray m ps w)
    (rest : List UInt32) {i : ℕ} (hi : i < ps.length) :
    Shows 0 linkWord (2 ^ 30) ((outers ps).length + rest.length) m
      ((arrayBody m ps rest).drop (m * i))
      ps[i] := by
  obtain ⟨r, r', hrow, hwidth, hlt⟩ := h.split hi
  have hfit := fit_column.2 h.fits
  rw [hrow] at hfit
  have hshow := shows_cells 0 linkWord (2 ^ 30) hfit hlt rest
  rwa [← hrow, outs_column, hwidth] at hshow

/-- The elements of an array that are out of line are near enough if the array is. -/
theorem IsArray.near {m : ℕ} {ps : List (Piece UInt32)} {w rest : List UInt32} (h : IsArray m ps w)
    (hn : Near w rest) {p : Piece UInt32} (hp : p ∈ ps) (ho : p.outer ≠ []) :
    (outers ps).length + rest.length < 2 ^ 30 := by
  obtain ⟨rfl, h1, -, hf, hl, -, -⟩ := h
  have hlen := length_arrayWords hf
  rcases hn with hn | hn
  · cases p with
    | inl ws => exact absurd rfl ho
    | out ws =>
      have hle : ws.length ≤ (outers ps).length := by
        rw [outers, List.length_flatMap]
        exact List.single_le_sum (fun _ _ => Nat.zero_le _) _ (List.mem_map.2 ⟨_, hp, rfl⟩)
      have hm := Nat.le_mul_of_pos_right m (List.length_pos_of_mem hp)
      have := hl ws hp
      omega
  · omega

/-- Going through cells, one result after the other. -/
theorem forCells_eq {α β : Type} {R : α → β → Prop} {f : Field → Res α} {W : ℕ} {bs : List β}
    {v : List UInt32}
    (h : ∀ i (hi : i < bs.length), ∃ a, f ⟨.at (v.drop (W * i)), W⟩ = .ok a ∧ R a bs[i]) :
    ∃ as, forCells f W bs.length (.at v) = .ok as ∧ List.Forall₂ R as bs := by
  induction bs generalizing v with
  | nil => exact ⟨[], rfl, .nil⟩
  | cons b bs ih =>
    obtain ⟨a, ha, hr⟩ := h 0 (Nat.zero_lt_succ _)
    rw [Nat.mul_zero, List.drop_zero] at ha
    obtain ⟨as, has, hrs⟩ := ih (v := v.drop W) fun i hi => by
      obtain ⟨a, ha, hr⟩ := h (i + 1) (Nat.succ_lt_succ hi)
      rw [List.drop_drop, Nat.add_comm, ← Nat.mul_succ]
      exact ⟨a, ha, hr⟩
    refine ⟨a :: as, ?_, .cons hr hrs⟩
    rw [List.length_cons, forCells, ha, Res.ok_bind, Ptr.add, has]
    rfl

/-! ## Messages -/

/-- `Count64` adds up the pairs of bits of a number. -/
theorem count64_eq (v : UInt64) : count64 v = TwoBit.digitSum v.toNat 32 := by
  rw [count64, popcount, popcount, UInt64.toNat_and]
  refine TwoBit.count_add_count _ _ 32 fun i hi => ?_
  revert i
  decide

/-- `Count32` adds up the pairs of bits of a number. -/
theorem count32_eq (v : UInt32) : count32 v = TwoBit.digitSum v.toNat 16 := by
  have hhigh : ∀ k < 64, 32 ≤ k → ¬v.toNat.testBit k = true := by
    intro k _ hk
    rw [Nat.testBit_lt_two_pow (v.toNat_lt.trans_le (Nat.pow_le_pow_right (by decide) hk))]
    decide
  rw [count32, popcount, popcount, UInt64.toNat_and, UInt32.toNat_toUInt64,
    Rank.count_eq_of_le (b := 32) (by decide) (fun k hk h => ?_),
    Rank.count_eq_of_le (b := 32) (by decide) hhigh]
  · refine TwoBit.count_add_count _ _ 16 fun i hi => ?_
    revert i
    decide
  · rw [Nat.testBit_and, Bool.and_eq_true]
    exact fun hb => hhigh k hk h hb.1

theorem packWidths_eq {ws : List ℕ} (h : ∀ w ∈ ws, w < 4) (s : ℕ) :
    packWidths s ws = 2 ^ s * TwoBit.pack ws := by
  induction ws generalizing s with
  | nil => rfl
  | cons w ws ih =>
    have hw : w <<< s < 2 ^ (s + 2) := by
      rw [Nat.shiftLeft_eq, pow_add, Nat.mul_comm]
      exact Nat.mul_lt_mul_of_pos_left (h w List.mem_cons_self) (Nat.two_pow_pos s)
    rw [packWidths, ih (fun w hw => h w (List.mem_cons_of_mem _ hw)), Nat.or_comm,
      ← Nat.two_pow_add_eq_or_of_lt hw, TwoBit.pack, Nat.shiftLeft_eq, pow_add]
    ring

/-- The mask of the low bits of a word. -/
theorem low32 (v : UInt32) {s : ℕ} (hs : s < 32) :
    (v &&& ~~~((0xffffffff : UInt32) <<< UInt32.ofNat s)).toNat = v.toNat % 2 ^ s := by
  have hs' : (UInt32.ofNat s).toNat % 32 = s := by
    rw [UInt32.toNat_ofNat', Nat.mod_eq_of_lt (a := s) (by omega), Nat.mod_eq_of_lt hs]
  have hpow : 2 ^ s < 2 ^ 32 := Nat.pow_lt_pow_right (by decide) hs
  have hpos := Nat.two_pow_pos s
  rw [UInt32.toNat_and, UInt32.toNat_not, UInt32.toNat_shiftLeft, hs', Nat.shiftLeft_eq,
    ← Nat.and_two_pow_sub_one_eq_mod v.toNat]
  congr 1
  change 2 ^ 32 - 1 - (2 ^ 32 - 1) * 2 ^ s % 2 ^ 32 = 2 ^ s - 1
  omega

/-- The mask of the low bits of a word of 64 bits. -/
theorem low64 (v : UInt64) {s : ℕ} (hs : s < 64) :
    (v &&& ~~~((0xffffffffffffffff : UInt64) <<< UInt64.ofNat s)).toNat = v.toNat % 2 ^ s := by
  have hs' : (UInt64.ofNat s).toNat % 64 = s := by
    rw [UInt64.toNat_ofNat', Nat.mod_eq_of_lt (a := s) (by omega), Nat.mod_eq_of_lt hs]
  have hpow : 2 ^ s < 2 ^ 64 := Nat.pow_lt_pow_right (by decide) hs
  have hpos := Nat.two_pow_pos s
  rw [UInt64.toNat_and, UInt64.toNat_not, UInt64.toNat_shiftLeft, hs', Nat.shiftLeft_eq,
    ← Nat.and_two_pow_sub_one_eq_mod v.toNat]
  congr 1
  change 2 ^ 64 - 1 - (2 ^ 64 - 1) * 2 ^ s % 2 ^ 64 = 2 ^ s - 1
  omega

/-- The width that a header word has for a field. -/
theorem digit32 (v : UInt32) {i : ℕ} (hi : i < 16) :
    ((v >>> UInt32.ofNat (i * 2)) &&& 3).toNat = v.toNat / 4 ^ i % 4 := by
  have hs' : (UInt32.ofNat (i * 2)).toNat % 32 = i * 2 := by
    rw [UInt32.toNat_ofNat', Nat.mod_eq_of_lt (by omega), Nat.mod_eq_of_lt (by omega)]
  rw [UInt32.toNat_and, UInt32.toNat_shiftRight, hs', Nat.shiftRight_eq_div_pow, Nat.mul_comm,
    pow_mul]
  exact Nat.and_two_pow_sub_one_eq_mod _ 2

/-- The width that a section has for a field. -/
theorem digit64 (v : UInt64) {i : ℕ} (hi : i < 32) :
    ((v >>> UInt64.ofNat (i * 2)) &&& 3).toNat = v.toNat / 4 ^ i % 4 := by
  have hs' : (UInt64.ofNat (i * 2)).toNat % 64 = i * 2 := by
    rw [UInt64.toNat_ofNat', Nat.mod_eq_of_lt (by omega), Nat.mod_eq_of_lt (by omega)]
  rw [UInt64.toNat_and, UInt64.toNat_shiftRight, hs', Nat.shiftRight_eq_div_pow, Nat.mul_comm,
    pow_mul]
  exact Nat.and_two_pow_sub_one_eq_mod _ 2

/-- The number of words that the fields in a message take before a field. -/
def before (ps : List (Piece UInt32)) (id : ℕ) : ℕ := ((ps.map pieceWidth).take id).sum

theorem IsMessage.width_lt {ps : List (Piece UInt32)} {w : List UInt32} (h : IsMessage ps w) :
    ∀ k ∈ ps.map pieceWidth, k < 4 := by
  intro k hk
  obtain ⟨p, hp, rfl⟩ := List.mem_map.1 hk
  exact Nat.lt_succ_of_le (h.widths p hp).1

theorem getD_width (ps : List (Piece UInt32)) (id : ℕ) :
    (ps.map pieceWidth)[id]?.getD 0 = pieceWidth (fieldPiece ps id) := by
  rw [fieldPiece, List.getElem?_map]
  cases ps[id]? <;> rfl

/-- The head of a message: the number of sections, and the widths of twelve fields. -/
theorem IsMessage.head {ps : List (Piece UInt32)} {w : List UInt32} (h : IsMessage ps w) :
    ∃ head tail, w = head :: tail ∧ (head &&& 0xff).toNat = sectionCount ps.length ∧
      (head >>> 8).toNat = TwoBit.pack ((ps.map pieceWidth).take 12) := by
  have hws : ∀ k ∈ (ps.map pieceWidth).take 12, k < 4 :=
    fun k hk => h.width_lt k (List.mem_of_mem_take hk)
  have hpack := TwoBit.pack_lt hws
  have hlen : ((ps.map pieceWidth).take 12).length ≤ 12 := by rw [List.length_take]; omega
  have hpow : 4 ^ ((ps.map pieceWidth).take 12).length ≤ 4 ^ 12 :=
    Nat.pow_le_pow_right (by decide) hlen
  have hsec := h.sections
  refine ⟨_, _, h.eq, ?_, ?_⟩
  all_goals
    rw [packWidths_eq hws, Nat.or_comm, ← Nat.two_pow_add_eq_or_of_lt (by omega)]
  · rw [UInt32.toNat_and, UInt32.toNat_ofNat', Nat.mod_eq_of_lt (by omega)]
    change _ &&& 2 ^ 8 - 1 = _
    rw [Nat.and_two_pow_sub_one_eq_mod]
    omega
  · rw [UInt32.toNat_shiftRight, UInt32.toNat_ofNat', Nat.mod_eq_of_lt (by omega)]
    change _ >>> 8 = _
    rw [Nat.shiftRight_eq_div_pow]
    omega

/-- The section `a` behind the head. -/
theorem sectionMarks_get {k a : ℕ} (ha : a < k) (cnt : ℕ) (ws : List ℕ) :
    ∃ mark, mark = UInt64.ofNat ((cnt + (ws.take (25 * a)).sum) <<< 50 |||
        packWidths 0 ((ws.drop (25 * a)).take 25)) ∧
      (sectionMarks k cnt ws)[2 * a]? = some mark.toUInt32 ∧
      (sectionMarks k cnt ws)[2 * a + 1]? = some (mark >>> 32).toUInt32 := by
  induction a generalizing k cnt ws with
  | zero =>
    obtain ⟨k, rfl⟩ := Nat.exists_eq_succ_of_ne_zero ha.ne'
    exact ⟨_, by simp, rfl, rfl⟩
  | succ a ih =>
    obtain ⟨k, rfl⟩ := Nat.exists_eq_succ_of_ne_zero (by omega : k ≠ 0)
    obtain ⟨mark, hmark, h₀, h₁⟩ := ih (show a < k by omega) (cnt + (ws.take 25).sum) (ws.drop 25)
    refine ⟨mark, ?_, ?_, ?_⟩
    · rw [hmark, List.drop_drop, Nat.mul_succ, Nat.add_comm (25 * a), List.take_add,
        List.sum_append, Nat.add_assoc]
    · rw [sectionMarks, show 2 * (a + 1) = 2 * a + 1 + 1 by ring]
      exact h₀
    · rw [sectionMarks, show 2 * (a + 1) + 1 = 2 * a + 1 + 1 + 1 by ring]
      exact h₁

/-- A section: the number of words of the fields before its own, and their widths. -/
theorem IsMessage.section {ps : List (Piece UInt32)} {w : List UInt32} (h : IsMessage ps w)
    (rest : List UInt32) {a : ℕ} (ha : a < sectionCount ps.length) :
    ∃ mark, sectionWord (w ++ rest) a = .ok mark ∧
      mark.toNat = before ps (12 + 25 * a) * 2 ^ 50 +
        TwoBit.pack (((ps.map pieceWidth).drop (12 + 25 * a)).take 25) := by
  have hws : ∀ k ∈ ((ps.map pieceWidth).drop (12 + 25 * a)).take 25, k < 4 := fun k hk =>
    h.width_lt k (List.mem_of_mem_drop (List.mem_of_mem_take hk))
  have hpack := TwoBit.pack_lt hws
  have hlen : (((ps.map pieceWidth).drop (12 + 25 * a)).take 25).length ≤ 25 := by
    rw [List.length_take]
    omega
  have hpow := Nat.pow_le_pow_right (show 4 > 0 by decide) hlen
  have hcnt : before ps (12 + 25 * a) < 2 ^ 14 := h.counts a ha
  obtain ⟨mark, hmark, h₀, h₁⟩ := sectionMarks_get ha ((ps.map pieceWidth).take 12).sum
    ((ps.map pieceWidth).drop 12)
  refine ⟨mark, ?_, ?_⟩
  · have hlt := length_sectionMarks (sectionCount ps.length) ((ps.map pieceWidth).take 12).sum
      ((ps.map pieceWidth).drop 12)
    rw [sectionWord, h.eq, messageWords, List.cons_append, List.append_assoc, show 1 + 2 * a =
      2 * a + 1 by ring, show 2 + 2 * a = 2 * a + 1 + 1 by ring, List.getElem?_cons_succ,
      List.getElem?_cons_succ, List.getElem?_append_left (by omega), List.getElem?_append_left (by
        omega), h₀, h₁, access_some, access_some, Res.ok_bind, Res.ok_bind, halves]
    rfl
  · rw [hmark, List.drop_drop, ← List.sum_append, ← List.take_add, packWidths_eq hws]
    change (UInt64.ofNat (before ps (12 + 25 * a) <<< 50 ||| _)).toNat = _
    rw [Nat.shiftLeft_eq, pow_zero, Nat.one_mul, Nat.mul_comm,
      ← Nat.two_pow_add_eq_or_of_lt (by omega), UInt64.toNat_ofNat', Nat.mod_eq_of_lt (by omega)]

theorem total_append (ps ps' : List (Piece UInt32)) : total (ps ++ ps') = total ps + total ps' := by
  rw [total, List.map_append, List.sum_append]
  rfl

theorem sum_width_le {ps : List (Piece UInt32)} (h : ∀ p ∈ ps, p ≠ .out []) :
    (ps.map pieceWidth).sum ≤ total ps := by
  refine List.sum_le_sum fun p hp => ?_
  cases p with
  | inl ws => exact le_rfl
  | out ws => exact List.length_pos_iff.2 fun hws => h _ hp (hws ▸ rfl)

/-- The cell of a field in a message. -/
theorem IsMessage.shows {ps : List (Piece UInt32)} {w : List UInt32} (h : IsMessage ps w)
    (rest : List UInt32) {id : ℕ} (hid : id < ps.length) :
    1 + 2 * sectionCount ps.length + before ps id + pieceWidth ps[id] ≤ w.length ∧
    Shows 0 linkWord (2 ^ 30) ((outers ps).length + rest.length) (pieceWidth ps[id])
      ((w ++ rest).drop (1 + 2 * sectionCount ps.length + before ps id)) ps[id] := by
  have hps : ps = ps.take id ++ ps[id] :: ps.drop (id + 1) := by
    conv_lhs => rw [← List.take_append_drop id ps, List.drop_eq_getElem_cons hid]
  have hrow : messageRow ps =
      messageRow (ps.take id) ++ (pieceWidth ps[id], ps[id]) :: messageRow (ps.drop (id + 1)) := by
    conv_lhs => rw [hps, messageRow, List.map_append]
    rfl
  have hbefore : before ps id = width (messageRow (ps.take id)) := by
    rw [width_messageRow, before, List.map_take]
  have hlen := length_messageWords ps
  have hsum : (ps.map pieceWidth).sum =
      before ps id + (pieceWidth ps[id] + width (messageRow (ps.drop (id + 1)))) := by
    rw [← width_messageRow, hrow, width_append, width_cons, hbefore]
  refine ⟨by rw [h.eq, hlen]; omega, ?_⟩
  have hdrop : (w ++ rest).drop (1 + 2 * sectionCount ps.length + before ps id) =
      (cells 0 linkWord 0 (messageRow ps) ++ (outs (messageRow ps) ++ rest)).drop
        (width (messageRow (ps.take id))) := by
    have hmarks := length_sectionMarks (sectionCount ps.length) ((ps.map pieceWidth).take 12).sum
      ((ps.map pieceWidth).drop 12)
    rw [h.eq, messageWords, outs_messageRow, Nat.add_assoc, Nat.add_comm 1, ← hbefore,
      List.cons_append, List.drop_succ_cons, List.append_assoc, ← List.drop_drop, ← hmarks,
      List.drop_left, List.append_assoc]
  rw [hdrop, ← outs_messageRow, hrow]
  refine shows_cells _ _ _ (by rw [← hrow]; exact fit_messageRow ps) ?_ rest
  -- A link leads over the cells behind it and what is out of line for those before it.
  have hsize := h.size
  have hne : ∀ p ∈ ps, p ≠ .out [] := fun p hp => (h.widths p hp).2
  have houts := outers_le_total (ps.take id)
  have hwidth := sum_width_le fun p hp => hne p (by rw [hps]; exact List.mem_append_right _ hp)
  rw [hps, total_append] at hsize
  rw [List.map_cons, List.sum_cons] at hwidth
  rw [outs_messageRow, width_messageRow]
  omega

/-- A field of some width is in the list, and its cell in the buffer. -/
theorem IsMessage.found {ps : List (Piece UInt32)} {w : List UInt32} (h : IsMessage ps w)
    (rest : List UInt32) {id : ℕ} (hne : pieceWidth (fieldPiece ps id) ≠ 0) :
    1 + sectionCount ps.length * 2 + before ps id + pieceWidth (fieldPiece ps id) ≤ w.length ∧
      Shows 0 linkWord (2 ^ 30) ((outers ps).length + rest.length) (pieceWidth (fieldPiece ps id))
        ((w ++ rest).drop (1 + sectionCount ps.length * 2 + before ps id)) (fieldPiece ps id) := by
  rcases Nat.lt_or_ge id ps.length with hid | hid
  · have hp : fieldPiece ps id = ps[id] := by rw [fieldPiece, List.getElem?_eq_getElem hid]; rfl
    rw [hp, Nat.mul_comm]
    exact h.shows rest hid
  · rw [fieldPiece, List.getElem?_eq_none hid] at hne
    exact absurd rfl hne

/-- `Message::GetField` on what was written: nothing for a field that is empty or not
    there, and else the cell of the field. -/
theorem getField_at {ps : List (Piece UInt32)} {w : List UInt32} (h : IsMessage ps w) (b : Bool)
    (rest : List UInt32) (id : ℕ) :
    getField b (w ++ rest) id = .ok (if pieceWidth (fieldPiece ps id) = 0 then Field.null
      else ⟨.at ((w ++ rest).drop (1 + sectionCount ps.length * 2 + before ps id)),
        pieceWidth (fieldPiece ps id)⟩) := by
  have hgetD := getD_width ps id
  obtain ⟨head, tail, hw, hsec, hwidths⟩ := h.head
  have hhead : (w ++ rest).head? = some head := by rw [hw]; rfl
  have hlt4 : ∀ k ∈ (ps.map pieceWidth).take 12, k < 4 :=
    fun k hk => h.width_lt k (List.mem_of_mem_take hk)
  -- A field that is there is in front of the end, so that the check of the end passes.
  have hfound : pieceWidth (fieldPiece ps id) ≠ 0 → ¬(b = true ∧ (w ++ rest).length <
      1 + sectionCount ps.length * 2 + before ps id + pieceWidth (fieldPiece ps id)) := by
    intro hne hlt
    have hle := (h.found rest hne).1
    rw [List.length_append] at hlt
    omega
  rw [getField, hhead, access_some, Res.ok_bind]
  dsimp only
  rw [hsec]
  by_cases hid : id < 12
  · -- The head tells the widths of the first fields.
    have hdig := digit32 (head >>> 8) (show id < 16 by omega)
    rw [hwidths, TwoBit.digit_pack hlt4, List.getElem?_take_of_lt hid, hgetD] at hdig
    have hoff : count32 ((head >>> 8) &&& ~~~((0xffffffff : UInt32) <<< UInt32.ofNat (id * 2))) =
        before ps id := by
      rw [count32_eq, low32 _ (by omega), hwidths, Nat.mul_comm, pow_mul]
      change TwoBit.digitSum (_ % 4 ^ id) 16 = _
      rw [TwoBit.digitSum_mod _ (by omega), TwoBit.digitSum_pack hlt4, List.take_take,
        Nat.min_eq_left hid.le, before]
    rw [if_pos hid, hdig, hoff]
    split
    · rfl
    · next hne =>
      rw [if_neg (by simpa [Ptr.exceeds] using hfound hne)]
      rfl
  · rw [if_neg hid]
    -- The field `c` of the section `a`.
    obtain ⟨a, c, ha, hc, hidac⟩ : ∃ a c, (id - 12) / 25 = a ∧ (id - 12) % 25 = c ∧
      id = 12 + 25 * a + c :=
      ⟨_, _, rfl, rfl, by omega⟩
    have hc25 : c < 25 := by omega
    rw [ha, hc]
    by_cases hsa : a ≥ sectionCount ps.length
    · rw [if_pos hsa, fieldPiece, List.getElem?_eq_none (by rw [sectionCount] at hsa; omega)]
      rfl
    · rw [if_neg hsa]
      obtain ⟨mark, hmark, hval⟩ := h.section rest (Nat.lt_of_not_le hsa)
      have hws : ∀ k ∈ ((ps.map pieceWidth).drop (12 + 25 * a)).take 25, k < 4 := fun k hk =>
        h.width_lt k (List.mem_of_mem_drop (List.mem_of_mem_take hk))
      have hpack : TwoBit.pack (((ps.map pieceWidth).drop (12 + 25 * a)).take 25) < 4 ^ 25 :=
        (TwoBit.pack_lt hws).trans_le
          (Nat.pow_le_pow_right (by decide) (by rw [List.length_take]; omega))
      -- Below its count, the mark of the section tells the widths of its fields.
      have hmod : ∀ k ≤ 25, mark.toNat % 4 ^ k =
          TwoBit.pack (((ps.map pieceWidth).drop (12 + 25 * a)).take 25) % 4 ^ k := by
        intro k hk
        rw [hval, show (2 : ℕ) ^ 50 = 4 ^ k * 4 ^ (25 - k) by
          rw [← pow_add, Nat.add_sub_cancel' hk]; rfl, Nat.mul_left_comm, Nat.mul_add_mod]
      have hdig := digit64 mark (show c < 32 by omega)
      have hpow : 4 ^ (c + 1) = 4 ^ c * 4 := pow_succ 4 c
      rw [← Nat.mod_mul_right_div_self, ← hpow, hmod (c + 1) (by omega), hpow,
        Nat.mod_mul_right_div_self, TwoBit.digit_pack hws, List.getElem?_take_of_lt hc25,
        List.getElem?_drop, ← hidac, hgetD] at hdig
      have hshift : (mark >>> 50).toNat = before ps (12 + 25 * a) := by
        rw [UInt64.toNat_shiftRight, hval]
        change (before ps (12 + 25 * a) * 2 ^ 50 + _) >>> 50 = _
        rw [Nat.shiftRight_eq_div_pow]
        omega
      -- The words in front of the field are those in front of the section and those before it in
      -- there.
      have htake : (ps.map pieceWidth).take id = (ps.map pieceWidth).take (12 + 25 * a) ++
          ((ps.map pieceWidth).drop (12 + 25 * a)).take c := by rw [hidac, List.take_add]
      have hoff : count64 (mark &&& ~~~((0xffffffffffffffff : UInt64) <<< UInt64.ofNat (c * 2))) +
          (mark >>> 50).toNat = before ps id := by
        rw [hshift, count64_eq, low64 _ (by omega), Nat.mul_comm c, pow_mul]
        change TwoBit.digitSum (_ % 4 ^ c) 32 + _ = _
        rw [hmod c hc25.le, TwoBit.digitSum_mod _ (by omega), TwoBit.digitSum_pack hws,
          List.take_take, Nat.min_eq_left hc25.le, before, before, htake, List.sum_append,
          Nat.add_comm]
      rw [hmark, Res.ok_bind, hdig, hoff]
      split
      · rfl
      · next hne =>
        rw [if_neg (by simpa [Ptr.exceeds] using hfound hne)]
        rfl

/-- The cell that `Message::GetField` finds shows the field. -/
theorem getField_eq {ps : List (Piece UInt32)} {w : List UInt32} (h : IsMessage ps w) (b : Bool)
    (rest : List UInt32) (id : ℕ) :
    (pieceWidth (fieldPiece ps id) = 0 ∧ getField b (w ++ rest) id = .ok Field.null) ∨
      ∃ v, getField b (w ++ rest) id = .ok ⟨.at v, pieceWidth (fieldPiece ps id)⟩ ∧
        Shows 0 linkWord (2 ^ 30) ((outers ps).length + rest.length)
          (pieceWidth (fieldPiece ps id)) v
          (fieldPiece ps id) := by
  by_cases hz : pieceWidth (fieldPiece ps id) = 0
  · exact .inl ⟨hz, by rw [getField_at h, if_pos hz]⟩
  · exact .inr ⟨_, by rw [getField_at h, if_neg hz], (h.found rest hz).2⟩

/-- A message that was written is a message. -/
theorem openMessage_eq {ps : List (Piece UInt32)} {w : List UInt32} (h : IsMessage ps w) (b : Bool)
    (rest : List UInt32) : openMessage b (.at (w ++ rest)) = .ok (some (w ++ rest)) := by
  obtain ⟨head, tail, hw, hsec, -⟩ := h.head
  have hlen := length_messageWords ps
  rw [← h.eq] at hlen
  have hin : ¬(w ++ rest).length < 1 + sectionCount ps.length * 2 := by
    rw [List.length_append]; omega
  rw [openMessage, Ptr.load, show (w ++ rest).head? = some head by rw [hw]; rfl, access_some,
    Res.ok_bind, hsec, Ptr.exceeds, decide_eq_false hin, Bool.and_false]
  rfl

/-! ## Strings -/

/-- The top bit of a byte. -/
theorem byte_top (b : UInt8) :
    (b &&& 0x80 = 0 ↔ b.toNat < 128) ∧ (b &&& 0x7f).toNat = b.toNat % 128 ∧
    (b &&& 3 = 0 ↔ b.toNat % 4 = 0) ∧ (b >>> 2).toNat = b.toNat / 4 := by
  revert b
  exact forall_byte (by decide +kernel)

/-- The loop over the mark of a string adds up its groups. -/
theorem stringMark_encode (b : Bool) {n : ℕ} (hn : 1 ≤ n) {sft mark : ℕ} (h : n * 2 ^ sft < 2 ^ 32)
    (hm : mark < 2 ^ sft) (p : List UInt8) (hp : (mark + n * 2 ^ sft) / 4 ≤ p.length) :
    stringMark b sft mark (Varint.encode n ++ p) = .ok (some ⟨p, (mark + n * 2 ^ sft) / 4⟩) := by
  have hsft : sft < 32 := by
    by_contra hge
    have := Nat.pow_le_pow_right (show 2 > 0 by decide) (Nat.le_of_not_lt hge)
    have := Nat.le_mul_of_pos_left (2 ^ sft) hn
    omega
  induction n using Nat.strong_induction_on generalizing sft mark with
  | _ n ih =>
    by_cases hlt : n < 128
    · have hbyte := Varint.toNat_ofNat_lt (show n < 256 by omega)
      obtain ⟨htop, -, -, -⟩ := byte_top (UInt8.ofNat n)
      rw [Varint.encode_of_lt hlt, List.singleton_append, stringMark, if_pos hsft,
        if_neg (not_not.2 (htop.2 (by omega))), hbyte, Varint.or_shiftLeft hm]
      dsimp only
      rw [Nat.shiftRight_eq_div_pow, if_neg (by omega)]
    · have hbyte := Varint.toNat_ofNat_lt (show n % 128 + 128 < 256 by omega)
      obtain ⟨htop, hlow, -, -⟩ := byte_top (UInt8.ofNat (n % 128 + 128))
      have hpow : 2 ^ (sft + 7) = 128 * 2 ^ sft := by rw [pow_add, Nat.mul_comm]; rfl
      have hsplit : n * 2 ^ sft = n % 128 * 2 ^ sft + n / 128 * 2 ^ (sft + 7) := by
        rw [hpow, ← Nat.mul_assoc, ← Nat.add_mul]
        congr 1
        omega
      have hgroup : n % 128 * 2 ^ sft ≤ 127 * 2 ^ sft := Nat.mul_le_mul_right _ (by omega)
      have hrest : 1 ≤ n / 128 := by omega
      have hsft' : sft + 7 < 32 := by
        by_contra hge
        have := Nat.pow_le_pow_right (show 2 > 0 by decide) (Nat.le_of_not_lt hge)
        have := Nat.le_mul_of_pos_left (2 ^ (sft + 7)) hrest
        omega
      rw [Varint.encode_of_le (by omega), List.cons_append, stringMark, if_pos hsft,
        if_pos (fun h0 => by rw [htop, hbyte] at h0; omega), hlow, hbyte,
        show (n % 128 + 128) % 128 = n % 128 by omega, Varint.or_shiftLeft hm]
      rw [hsplit] at hp h ⊢
      rw [ih (n / 128) (by omega) hrest (by omega) (by omega) (by rwa [Nat.add_assoc]) hsft',
        Nat.add_assoc]

/-- The bytes of a string: the code of its size, the string, and zeros up to the end of
    the last word. -/
theorem bytesOf_stringWords (str : List UInt8) : bytesOf (stringWords str) =
    Varint.encode (str.length <<< 2) ++ (str ++
      List.replicate (4 * wordSize (Varint.encode (str.length <<< 2) ++ str).length -
        (Varint.encode (str.length <<< 2) ++ str).length) 0) := by
  rw [stringWords, bytesOf_wordsOf, List.append_assoc]

/-- The view of a string: it stands behind the code of its size. -/
theorem readString_stringWords {str : List UInt8} (hs : str.length < 2 ^ 30) (b : Bool)
    (rest : List UInt32) :
    readString b (.at (stringWords str ++ rest)) =
      .ok (some
        ⟨str ++ (List.replicate (4 * wordSize (Varint.encode (str.length <<< 2) ++ str).length -
        (Varint.encode (str.length <<< 2) ++ str).length) 0 ++ bytesOf rest), str.length⟩) := by
  have hbytes : bytesOf (stringWords str ++ rest) = Varint.encode (str.length <<< 2) ++ (str ++
      (List.replicate (4 * wordSize (Varint.encode (str.length <<< 2) ++ str).length -
        (Varint.encode (str.length <<< 2) ++ str).length) 0 ++ bytesOf rest)) := by
    rw [bytesOf_append, bytesOf_stringWords]
    simp only [List.append_assoc]
  generalize List.replicate _ (0 : UInt8) ++ bytesOf rest = tail at hbytes
  have hne : stringWords str ++ rest ≠ [] := by
    intro h0
    rw [h0] at hbytes
    exact List.append_ne_nil_of_left_ne_nil (Varint.encode_ne_nil _) _ hbytes.symm
  rw [readString, if_neg]
  · dsimp only
    rw [hbytes, Nat.shiftLeft_eq]
    by_cases hlt : str.length * 2 ^ 2 < 128
    · have hbyte := Varint.toNat_ofNat_lt (show str.length * 2 ^ 2 < 256 by omega)
      obtain ⟨htop, -, hmark, hsize⟩ := byte_top (UInt8.ofNat (str.length * 2 ^ 2))
      rw [Varint.encode_of_lt hlt, List.singleton_append]
      dsimp only
      rw [if_neg (not_not.2 (hmark.2 (by omega))), if_pos (htop.2 (by omega)), hsize, hbyte,
        show str.length * 2 ^ 2 / 4 = str.length by omega, if_neg (by simp)]
    · have hbyte := Varint.toNat_ofNat_lt (show str.length * 2 ^ 2 % 128 + 128 < 256 by omega)
      obtain ⟨htop, hlow, hmark, -⟩ := byte_top (UInt8.ofNat (str.length * 2 ^ 2 % 128 + 128))
      rw [Varint.encode_of_le (by omega), List.cons_append]
      dsimp only
      rw [if_neg (not_not.2 (hmark.2 (by omega))),
        if_neg (fun h0 => by rw [htop, hbyte] at h0; omega), hlow, hbyte,
        stringMark_encode b (by omega) (by omega) (by omega) _ (by simp; omega)]
      congr 3
      omega
  · rintro (h | h)
    · cases h
    · rw [Ptr.reaches, List.isEmpty_eq_false_iff.2 hne, Bool.and_false] at h
      cases h

/-- `String::String` on what was written, whatever stands behind it. -/
theorem readString_eq {str : List UInt8} (hs : str.length < 2 ^ 30) (b : Bool)
    (rest : List UInt32) :
    ∃ s, readString b (.at (stringWords str ++ rest)) = .ok (some s) ∧ s.size = str.length ∧
      ByteSlice.get (some s) = .ok str := by
  refine ⟨_, readString_stringWords hs b rest, rfl, ?_⟩
  rw [ByteSlice.get, Storage.load_of_le (by simp), List.take_left]
  rfl

/-- `StringField::Get`, at a cell that shows a string. -/
theorem getString_eq {str : List UInt8} (hs : str.length < 2 ^ 30) {p : Piece UInt32}
    (hp : p.words = stringWords str) {M w : ℕ} (w' : ℕ) {v : List UInt32} (b : Bool)
    (h : Shows 0 linkWord (2 ^ 30) M w v p) (hf : p.Fits w) (hw : w ≤ 3)
    (ho : IsObject (stringWords str)) :
    ∃ s, Field.getString b ⟨.at v, w'⟩ = .ok (some s) ∧ s.size = str.length ∧
      ByteSlice.get (some s) = .ok str := by
  obtain ⟨tail, hobj, -⟩ := getObject_eq w' b h hf hw (hp ▸ ho)
  rw [Field.getString, hobj, Res.ok_bind, hp]
  exact readString_eq hs b tail

/-! ## Objects -/

theorem and_three (w : UInt32) : (w &&& 3).toNat = w.toNat % 4 := by
  rw [UInt32.toNat_and]
  exact Nat.and_two_pow_sub_one_eq_mod _ 2

theorem isObject_cons {w : UInt32} {tail : List UInt32}
    (h : (w :: tail).length ≤ 3 → w.toNat % 4 ≠ 3) :
    IsObject (w :: tail) :=
  ⟨w, tail, rfl, fun hl h3 => h hl (by rw [← and_three, h3]; rfl)⟩

theorem IsArray.isObject {m : ℕ} {ps : List (Piece UInt32)} {w : List UInt32} (h : IsArray m ps w) :
    IsObject w := by
  have hlen := length_arrayWords h.fits
  have hmark := arrayHead_mark h.length_lt h.le
  have h1 := h.pos
  have h3 := h.le
  have h0 := h.mark
  rw [h.eq]
  refine isObject_cons fun hl => ?_
  rw [hmark]
  intro hm
  obtain rfl : m = 3 := by omega
  rcases ps with _ | ⟨p, ps⟩
  · exact absurd (h0 rfl) (by decide)
  · change (arrayWords 3 (p :: ps)).length ≤ 3 at hl
    rw [List.length_cons] at hlen
    omega

theorem IsMessage.isObject {ps : List (Piece UInt32)} {w : List UInt32} (h : IsMessage ps w) :
    IsObject w := by
  obtain ⟨head, tail, hw, hsec, -⟩ := h.head
  have hlen := length_messageWords ps
  rw [← h.eq, hw] at hlen
  rw [hw]
  refine isObject_cons fun hl => ?_
  have hlow : head.toNat % 256 = sectionCount ps.length := by
    rw [← hsec, UInt32.toNat_and]
    exact (Nat.and_two_pow_sub_one_eq_mod _ 8).symm
  omega

/-- A string without bytes is a single word. -/
theorem stringWords_nil : stringWords [] = [0] := by
  rw [stringWords, Varint.encode_of_lt (by decide)]
  rfl

theorem isObject_stringWords (str : List UInt8) : IsObject (stringWords str) := by
  have hmod : ∀ bs : List UInt8, ∃ tail, Varint.encode (str.length <<< 2) ++ bs =
      UInt8.ofNat (str.length <<< 2 % 128 + if str.length <<< 2 < 128 then 0 else 128) :: tail := by
    intro bs
    by_cases hlt : str.length <<< 2 < 128
    · exact ⟨bs, by rw [Varint.encode_of_lt hlt, if_pos hlt, Nat.mod_eq_of_lt hlt]; rfl⟩
    · exact ⟨_, by rw [Varint.encode_of_le (by omega), if_neg hlt]; rfl⟩
  obtain ⟨tail, htail⟩ := hmod str
  have hfirst : ∀ (b : UInt8) (bs : List UInt8), ∃ k ws,
    wordsOf (b :: bs) = UInt32.ofNat (le (b :: k)) :: ws ∧
      k.length ≤ 3 := by
    rintro b (_ | ⟨b₁, _ | ⟨b₂, _ | ⟨b₃, bs⟩⟩⟩)
    · exact ⟨[], [], rfl, by simp⟩
    · exact ⟨[b₁], [], rfl, by simp⟩
    · exact ⟨[b₁, b₂], [], rfl, by simp⟩
    · exact ⟨[b₁, b₂, b₃], wordsOf bs, rfl, by simp⟩
  rw [stringWords, htail]
  obtain ⟨k, ws, hws, hk⟩ := hfirst (UInt8.ofNat
    (str.length <<< 2 % 128 + if str.length <<< 2 < 128 then 0 else 128)) tail
  rw [hws]
  refine isObject_cons fun _ => ?_
  have hlt := le_lt k
  have hpow : 256 ^ k.length ≤ 256 ^ 3 := Nat.pow_le_pow_right (by decide) hk
  have hb :=
    Varint.toNat_ofNat_lt (n := str.length <<< 2 % 128 + if str.length <<< 2 < 128 then 0 else 128)
    (by split <;> omega)
  rw [Nat.shiftLeft_eq] at hb ⊢
  rw [le, UInt32.toNat_ofNat', hb]
  split <;> omega

/-! ## Maps -/

/-- The first word of a map: the number of pairs, and the widths. -/
theorem mapMark {n m₁ m₂ : ℕ} (hn : n < 2 ^ 28) (h₁ : m₁ ≤ 3) (h₂ : m₂ ≤ 3) :
    ∃ w, w = UInt32.ofNat n ||| (UInt32.ofNat m₁ <<< 30 ||| UInt32.ofNat m₂ <<< 28) ∧
      w.toNat = n + 2 ^ 28 * (m₂ + 4 * m₁) ∧ ((w >>> 30) &&& 3).toNat = m₁ ∧
      ((w >>> 28) &&& 3).toNat = m₂ := by
  have hw : (UInt32.ofNat n ||| (UInt32.ofNat m₁ <<< 30 ||| UInt32.ofNat m₂ <<< 28)).toNat =
      n + 2 ^ 28 * (m₂ + 4 * m₁) := by
    have hn' : (UInt32.ofNat n).toNat = n := Nat.mod_eq_of_lt (by omega)
    have h₁' : (UInt32.ofNat m₁).toNat = m₁ := Nat.mod_eq_of_lt (by omega)
    have h₂' : (UInt32.ofNat m₂).toNat = m₂ := Nat.mod_eq_of_lt (by omega)
    rw [UInt32.toNat_or, UInt32.toNat_or, UInt32.toNat_shiftLeft, UInt32.toNat_shiftLeft, hn',
      h₁', h₂']
    change n ||| (m₁ <<< 30 % 2 ^ 32 ||| m₂ <<< 28 % 2 ^ 32) = _
    rw [Nat.shiftLeft_eq, Nat.shiftLeft_eq, Nat.mod_eq_of_lt (by omega),
      Nat.mod_eq_of_lt (by omega), Nat.mul_comm m₁, ← Nat.two_pow_add_eq_or_of_lt (by omega),
      show 2 ^ 30 * m₁ + m₂ * 2 ^ 28 = 2 ^ 28 * (m₂ + 4 * m₁) by
      ring, Nat.or_comm, ← Nat.two_pow_add_eq_or_of_lt hn, Nat.add_comm]
  refine ⟨_, rfl, hw, ?_, ?_⟩
  · rw [and_three, UInt32.toNat_shiftRight, hw]
    change (_ >>> 30) % 4 = m₁
    rw [Nat.shiftRight_eq_div_pow]
    omega
  · rw [and_three, UInt32.toNat_shiftRight, hw]
    change (_ >>> 28) % 4 = m₂
    rw [Nat.shiftRight_eq_div_pow]
    omega

theorem mapHead_eq {n : ℕ} (hn : n < 2 ^ 32) (m₁ m₂ : ℕ) (body : List UInt8) :
    mapHead m₁ m₂ (toLE 4 n ++ body) =
      (UInt32.ofNat n ||| (UInt32.ofNat m₁ <<< 30 ||| UInt32.ofNat m₂ <<< 28)) :: wordsOf body := by
  have hle := le_toLE (k := 4) hn
  obtain ⟨b₀, b₁, b₂, b₃, hb⟩ : ∃ b₀ b₁ b₂ b₃, toLE 4 n = [b₀, b₁, b₂, b₃] := ⟨_, _, _, _, rfl⟩
  rw [hb] at hle ⊢
  rw [mapHead, List.cons_append, List.cons_append, List.cons_append, List.cons_append,
    List.nil_append, wordsOf, hle]
  rfl

/-- The first word of a map has the number of the pairs and the widths of the cells. -/
theorem IsMap.head {hash : List UInt8 → UInt32 → V128} {keys : List (List UInt8)}
    {pos : List UInt8 → ℕ} {m₁ m₂ : ℕ} {index : List UInt8}
    {ps : List (Piece UInt32 × Piece UInt32)} {w : List UInt32} (h : IsMap m₁ m₂ index ps w)
    (hk : IsKeyed hash keys pos index) :
    ∃ head tail, w = head :: tail ∧ head.toNat = keys.length + 2 ^ 28 * (m₂ + 4 * m₁) ∧
      ((head >>> 30) &&& 3).toNat = m₁ ∧ ((head >>> 28) &&& 3).toNat = m₂ := by
  obtain ⟨⟨obj, body, hn⟩, hlt⟩ := hk
  obtain ⟨w₀, hw₀, hmark⟩ := mapMark hlt h.le₁ h.le₂
  exact
    ⟨w₀, _, by rw [h.eq, mapWords, hn.data_eq, mapHead_eq (by omega), hw₀, List.cons_append], hmark⟩

theorem IsMap.isObject {hash : List UInt8 → UInt32 → V128} {keys : List (List UInt8)}
    {pos : List UInt8 → ℕ} {m₁ m₂ : ℕ} {index : List UInt8}
    {ps : List (Piece UInt32 × Piece UInt32)} {w : List UInt32} (h : IsMap m₁ m₂ index ps w)
    (hk : IsKeyed hash keys pos index) (hl : keys.length = ps.length) : IsObject w := by
  obtain ⟨⟨obj, body, hn⟩, hlt⟩ := hk
  have hlen := length_mapWords m₁ m₂ index h.fits
  rw [← h.eq] at hlen
  have h₁ := h.pos₁
  have h₂ := h.pos₂
  obtain ⟨w₀, hw₀, hmark, -, -⟩ := mapMark hlt h.le₁ h.le₂
  have hw :
      w = w₀ :: (wordsOf body ++ (cells 0 linkWord 0 (pairRow m₁ m₂ ps) ++ outers (flat ps))) := by
    rw [h.eq, mapWords, hn.data_eq, mapHead_eq (by omega), hw₀, List.cons_append]
  have hindex : 1 ≤ wordSize index.length := by
    rw [hn.data_eq, List.length_append, length_toLE, wordSize]
    omega
  rw [hw] at hlen ⊢
  refine isObject_cons fun hle => ?_
  have hle1 : ps.length ≤ 1 := by
    by_contra hgt
    have : (1 + 1) * 2 ≤ (m₁ + m₂) * ps.length := Nat.mul_le_mul (by omega) (by omega)
    omega
  rw [hmark]
  omega

/-- The index of a map that was written, as the views of maps read it. -/
theorem IsMap.index {hash : List UInt8 → UInt32 → V128} {keys : List (List UInt8)}
    {pos : List UInt8 → ℕ} {m₁ m₂ : ℕ} {index : List UInt8}
    {ps : List (Piece UInt32 × Piece UInt32)} {w rest : List UInt32} (h : IsMap m₁ m₂ index ps w)
    (hk : IsKeyed hash keys pos index) (hl : keys.length = ps.length) (b : Bool)
    (hnear : b = true → Near w rest) :
    ∃ w₀ ph, (Ptr.at (w ++ rest)).load = .ok w₀ ∧ ((w₀ >>> 30) &&& 3).toNat = m₁ ∧
      ((w₀ >>> 28) &&& 3).toNat = m₂ ∧
      PerfectHash.ofData (bytesOf (w ++ rest)) (if b then (w ++ rest).length * 4 % 2 ^ 32 else 0) =
        .ok ph ∧
      ph.data ≠ none ∧ ph.dataSize = index.length ∧ ph.size = .ok ps.length ∧
      ∀ key, ph.locate hash key = .ok (pos key) := by
  obtain ⟨⟨obj, body, hn⟩, hlt⟩ := hk
  have hlen := length_mapWords m₁ m₂ index h.fits
  rw [← h.eq] at hlen
  have h₁ := h.pos₁
  have h₂ := h.pos₂
  obtain ⟨w₀, hw₀, hmark, hk₁, hk₂⟩ := mapMark hlt h.le₁ h.le₂
  have hw :
      w = w₀ :: (wordsOf body ++ (cells 0 linkWord 0 (pairRow m₁ m₂ ps) ++ outers (flat ps))) := by
    rw [h.eq, mapWords, hn.data_eq, mapHead_eq (by omega), hw₀, List.cons_append]
  have hindex : index.length = 4 + body.length := by
    rw [hn.data_eq, List.length_append, length_toLE]
  have hbytes : ∃ tail, bytesOf (w ++ rest) = wordBytes w₀ ++ (body ++ tail) := by
    rw [hw, List.cons_append, bytesOf_cons, bytesOf_append, bytesOf_append, bytesOf_wordsOf]
    exact ⟨_, by simp only [List.append_assoc]; rfl⟩
  obtain ⟨tail, hbytes⟩ := hbytes
  set sz := if b then (w ++ rest).length * 4 % 2 ^ 32 else 0 with hsz
  -- Without an end the reader is told no size; with one, the index is inside what is left.
  have hsize : sz = 0 ∨ index.length ≤ sz := by
    cases b with
    | false => exact .inl hsz
    | true =>
      rw [if_pos rfl, List.length_append] at hsz
      rw [wordSize] at hlen
      rcases hnear rfl with hle | hlt'
      · -- A map of three words has at most one pair, whose index is its size alone.
        have hle1 : ps.length ≤ 1 := by
          by_contra hgt
          have : (1 + 1) * 2 ≤ (m₁ + m₂) * ps.length := Nat.mul_le_mul (by omega) (by omega)
          omega
        have hbytes : index.length = 4 := by rw [hn.length, indexBytes, if_neg (by omega)]
        omega
      · omega
  have hreal : realSize (le (wordBytes w₀)) = keys.length := by
    rw [wordBytes, le_toLE w₀.toNat_lt, realSize, hmark, Nat.add_mul_mod_self_left,
      Nat.mod_eq_of_lt hlt]
  obtain ⟨ph, hph, hds, hdata, hloc⟩ :=
    hn.read (wordBytes w₀) tail sz (length_wordBytes w₀) hreal hsize
  refine ⟨w₀, ph, by rw [hw]; rfl, hk₁, hk₂, by rw [hbytes, hph], by rw [hdata]; simp, hds,
    ?_, hloc⟩
  have hload : readLE (wordBytes w₀ ++ (body ++ tail)) 0 4 = .ok (le (wordBytes w₀)) := by
    rw [readLE, List.drop_zero, Storage.load_of_le (by simp), List.take_left' (length_wordBytes w₀)]
    rfl
  rw [PerfectHash.size, hdata]
  dsimp only
  rw [hload, Res.ok_bind, hreal, hl]
  rfl

/-- The view of a map. -/
theorem openMap_eq {hash : List UInt8 → UInt32 → V128} {keys : List (List UInt8)}
    {pos : List UInt8 → ℕ} {m₁ m₂ : ℕ} {index : List UInt8}
    {ps : List (Piece UInt32 × Piece UInt32)} {w rest : List UInt32} (h : IsMap m₁ m₂ index ps w)
    (hk : IsKeyed hash keys pos index) (hl : keys.length = ps.length) (b : Bool)
    (hnear : b = true → Near w rest) :
    ∃ ph, openMap b (.at (w ++ rest)) =
        .ok ⟨ph, .at (cells 0 linkWord 0 (pairRow m₁ m₂ ps) ++ (outers (flat ps) ++ rest)),
          m₁, m₂⟩ ∧
      ph.size = .ok ps.length ∧ ∀ key, ph.locate hash key = .ok (pos key) := by
  obtain ⟨w₀, ph, hw₀, hk₁, hk₂, hph, hdata, hds, hsize, hloc⟩ := h.index hk hl b hnear
  have hlen := length_mapWords m₁ m₂ index h.fits
  rw [← h.eq] at hlen
  have h₁ := h.pos₁
  have h₂ := h.pos₂
  refine ⟨ph, ?_, hsize, hloc⟩
  have hbody : ((w ++ rest).drop (wordSize index.length)) =
      cells 0 linkWord 0 (pairRow m₁ m₂ ps) ++ (outers (flat ps) ++ rest) := by
    have hhead : (mapHead m₁ m₂ index).length = wordSize index.length := by
      rw [mapHead, List.length_modifyHead, length_wordsOf]
    rw [h.eq, mapWords, List.append_assoc, ← hhead, List.drop_left, List.append_assoc]
  have hin : ¬(w ++ rest).length < wordSize index.length + (m₁ + m₂) * ps.length := by
    rw [List.length_append]
    omega
  rw [openMap, hw₀, Res.ok_bind]
  dsimp only
  rw [hk₁, hk₂, if_neg (by omega), hph, Res.ok_bind, if_neg hdata, hsize,
    Res.ok_bind, hds, Ptr.exceeds, decide_eq_false hin, Bool.and_false, Ptr.add, hbody]
  rfl

/-! ## The words of the parts -/

theorem length_le_total {p : Piece UInt32} {ps : List (Piece UInt32)} (hp : p ∈ ps) :
    p.words.length ≤ total ps :=
  List.single_le_sum (fun _ _ => Nat.zero_le _) _ (List.mem_map.2 ⟨p, hp, rfl⟩)

theorem length_outer_le {p : Piece UInt32} {ps : List (Piece UInt32)} (hp : p ∈ ps) :
    p.outer.length ≤ (outers ps).length := by
  rw [outers, List.length_flatMap]
  exact List.single_le_sum (fun _ _ => Nat.zero_le _) _ (List.mem_map.2 ⟨p, hp, rfl⟩)

/-- A piece that fits in a cell has its words there, or out of line. -/
theorem Piece.Fits.length_le {w : ℕ} {p : Piece UInt32} (h : p.Fits w) :
    p.words.length ≤ max w p.outer.length := by
  cases p with
  | inl ws => exact le_max_of_le_left h
  | out ws => exact le_max_right _ _

theorem IsArray.words_lt {m : ℕ} {ps : List (Piece UInt32)} {w : List UInt32} (h : IsArray m ps w)
    {p : Piece UInt32} (hp : p ∈ ps) : p.words.length < w.length := by
  have hlen := length_arrayWords h.fits
  have hle := Piece.Fits.length_le (h.fits p hp)
  have houter := length_outer_le hp
  have hm := Nat.le_mul_of_pos_right m (List.length_pos_of_mem hp)
  rw [h.eq, hlen]
  omega

theorem IsMap.words_lt {m₁ m₂ : ℕ} {index : List UInt8} {ps : List (Piece UInt32 × Piece UInt32)}
    {w : List UInt32} (h : IsMap m₁ m₂ index ps w) {p : Piece UInt32} (hp : p ∈ flat ps) :
    p.words.length < w.length := by
  have hlen := length_mapWords m₁ m₂ index h.fits
  have houter := length_outer_le hp
  obtain ⟨q, hq, hpq⟩ := List.mem_flatMap.1 hp
  have hm := Nat.le_mul_of_pos_right (m₁ + m₂) (List.length_pos_of_mem hq)
  have h₁ := h.pos₁
  have h₂ := h.pos₂
  have hle : p.words.length ≤ max (max m₁ m₂) p.outer.length := by
    rcases List.mem_pair.1 hpq with rfl | rfl
    · exact (Piece.Fits.length_le (h.fits q hq).1).trans (max_le_max_right _ (le_max_left _ _))
    · exact (Piece.Fits.length_le (h.fits q hq).2).trans (max_le_max_right _ (le_max_right _ _))
  rw [h.eq, hlen]
  omega

theorem IsMessage.words_lt {ps : List (Piece UInt32)} {w : List UInt32} (h : IsMessage ps w)
    {p : Piece UInt32} (hp : p ∈ ps) : p.words.length < w.length := by
  have hlen := length_messageWords ps
  have hle := length_le_total hp
  have hwidths := total_le_widths ps
  rw [h.eq, hlen]
  omega

end ProtoCache

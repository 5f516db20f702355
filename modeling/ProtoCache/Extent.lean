import ProtoCache.Detect
import ProtoCache.MapFind

/-!
# The words of an object

An object takes its own cells, and behind them the objects that belong to it, in the order
of its fields, elements or pairs (`Takes`). So the last one that is not in a cell reaches to
the end of the object, and `Detect`, which looks for it from the back, finds how far the
object reaches.

* `scan_row`: the loop of `Detect` over the cells of a row;
* `Takes.detect_iff`: `Detect` finds the words of an object, but for the words that are not taken
  for one (`Unseen`), which the first of them tells (`Takes.exact_iff`).
-/

namespace ProtoCache

open Row LittleEndian

/-! ## The cells of a row -/

/-- What stands from the cells of a row on. -/
def rowView (row : List (ℕ × Piece UInt32)) (rest : List UInt32) : List UInt32 :=
  cells 0 linkWord 0 row ++ (outs row ++ rest)

theorem length_rowView {row : List (ℕ × Piece UInt32)} (h : Fit row) (rest : List UInt32) :
    (rowView row rest).length = width row + ((outs row).length + rest.length) := by
  rw [rowView, List.length_append, length_cells h, List.length_append]

/-- A row, around one of its cells. -/
theorem row_split {row : List (ℕ × Piece UInt32)} {j : ℕ} {c : ℕ × Piece UInt32}
    (h : row[j]? = some c) :
    row = row.take j ++ c :: row.drop (j + 1) := by
  obtain ⟨hj, rfl⟩ := List.getElem?_eq_some_iff.1 h
  conv_lhs => rw [← List.take_append_drop j row, List.drop_eq_getElem_cons hj]

/-- The links of a row, which lead over the cells behind them and over what is out of line
    for the cells before them, are short enough. -/
def Linked (row : List (ℕ × Piece UInt32)) : Prop :=
  ∀ j c, row[j]? = some c → c.1 + width (row.drop (j + 1)) + (outs (row.take j)).length < 2 ^ 30

theorem linked_of_lt {row : List (ℕ × Piece UInt32)} (h : width row + (outs row).length < 2 ^ 30) :
    Linked row := by
  intro j c hj
  rw [row_split hj, width_append, width_cons, outs_append, List.length_append] at h
  omega

/-- The object of a field, at a cell of a row: the cell itself, or what stands out of line,
    with what is out of line for the cells behind it. -/
theorem getObject_cell {row : List (ℕ × Piece UInt32)} (hfit : Fit row) (hlinked : Linked row)
    {j w : ℕ} {p : Piece UInt32} (hj : row[j]? = some (w, p)) (ho : IsObject p.words) (hw : w ≤ 3)
    (b : Bool) (w' : ℕ) (rest : List UInt32) :
    ∃ tail, Field.getObject b ⟨.at ((rowView row rest).drop (width (row.take j))), w'⟩ =
      .ok (.at (p.words ++ tail)) ∧
      (∀ ws, p = .inl ws → ws ++ tail = (rowView row rest).drop (width (row.take j))) ∧
      ∀ ws, p = .out ws → tail = outs (row.drop (j + 1)) ++ rest := by
  have hrow := row_split hj
  have hlink := hlinked j _ hj
  set r := row.take j
  set r' := row.drop (j + 1)
  rw [hrow] at hfit
  cases p with
  | inl ws =>
    have hcell := drop_cells 0 linkWord hfit rest
    rw [← hrow, cellWords, List.append_assoc] at hcell
    obtain ⟨tail, htail⟩ : ∃ tail, (rowView row rest).drop (width r) = ws ++ tail := ⟨_, hcell⟩
    obtain ⟨x, xs, hx, hmark⟩ := ho
    obtain rfl : ws = x :: xs := hx
    have hm : x &&& 3 ≠ 3 := hmark (le_trans (hfit (w, .inl (x :: xs)) (by simp)) hw)
    refine ⟨tail, ?_, fun ws h => ?_, fun ws h => (by cases h)⟩
    · rw [htail]
      simp [Field.getObject, Ptr.reaches, Ptr.load, Ptr.null, hm, Piece.words]
    · cases h
      exact htail.symm
  | out ws =>
    obtain ⟨tail, hv, hdrop⟩ := link_cells 0 linkWord hfit rest
    obtain ⟨x, xs, hx, -⟩ := ho
    obtain rfl : ws = x :: xs := hx
    obtain ⟨h3, hd⟩ := linkWord_mark (d := w + width r' + (outs r).length) hlink
    have hview : (rowView row rest).drop (width r) = linkWord (w + width r' + (outs r).length) ::
        tail := by
      rw [rowView, hrow, hv]
    refine ⟨outs r' ++ rest, ?_, fun ws h => (by cases h), fun ws h => rfl⟩
    rw [hview]
    simp [Field.getObject, Ptr.reaches, Ptr.load, Ptr.null, h3, hd, Ptr.add, hdrop, Piece.words]

/-- A row whose pieces behind a cell are all in their cells. -/
theorem outs_drop {row : List (ℕ × Piece UInt32)} {j : ℕ}
    (h : ∀ i c, j ≤ i → row[i]? = some c → c.2.outer = []) : outs (row.drop j) = [] := by
  rw [outs, List.flatMap_eq_nil_iff]
  intro c hc
  obtain ⟨i, hi⟩ := List.mem_iff_getElem?.1 hc
  rw [List.getElem?_drop] at hi
  exact h (j + i) c (Nat.le_add_right j i) hi

/-- The loop of `Detect` over the cells of a row, with the place of each in the row: it finds
    how far the last object reaches that is out of line. -/
theorem scan_row {row : List (ℕ × Piece UInt32)} (hfit : Fit row) (hnarrow : Narrow row)
    (hlinked : Linked row) {v : List UInt32} (rest : List UInt32) {k : ℕ}
    (hv : v.length = k + ((outs row).length + rest.length)) {α : Type} {child : α → Res WordSlice}
    {b : Bool} {l : List (ℕ × α)} (hsorted : l.Pairwise fun a a' => a'.1 < a.1)
    (hall : ∀ j c, row[j]? = some c → c.2.outer ≠ [] → j ∈ l.map Prod.fst)
    (hchild : ∀ a ∈ l, (child a.2 = .ok WordSlice.null ∧ ∀ c, row[a.1]? = some c → c.2.outer = []) ∨
      ∃ w p, row[a.1]? = some (w, p) ∧ IsObject p.words ∧ ∀ q w',
      Field.getObject b ⟨.at ((rowView row rest).drop (width (row.take a.1))), w'⟩ = .ok q →
      child a.2 = .ok ⟨q, p.words.length⟩) :
    scan child ⟨.at v, k⟩ (l.map Prod.snd) = .ok ⟨.at v, k + (outs row).length⟩ := by
  -- By induction on the fields, which are taken from the last one to the first, so that the first
  -- object that is found out of line is the last one of the row.
  induction l with
  | nil =>
    have hnil : outs row = [] := outs_drop (j := 0) fun i c _ hi => by
      by_contra ho
      exact absurd (hall i c hi ho) List.not_mem_nil
    rw [hnil]
    rfl
  | cons a l ih =>
    obtain ⟨hlt, hsorted⟩ := List.pairwise_cons.1 hsorted
    -- Where nothing is out of line, the loop goes on.
    have hgo : ∀ t, child a.2 = .ok t → t.passes ⟨.at v, k⟩ = false →
      (∀ c, row[a.1]? = some c → c.2.outer = []) →
        scan child ⟨.at v, k⟩ ((a :: l).map Prod.snd) = .ok ⟨.at v, k + (outs row).length⟩ := by
      intro t ht hpass hnone
      rw [List.map_cons, scan, ht, Res.ok_bind, hpass, if_neg Bool.false_ne_true]
      refine ih hsorted (fun j c hj ho => ?_) fun a' ha' => hchild a' (.tail _ ha')
      rcases List.mem_cons.1 (hall j c hj ho) with rfl | hmem
      · exact absurd (hnone c hj) ho
      · exact hmem
    rcases hchild a List.mem_cons_self with ⟨hnull, hnone⟩ | ⟨w, p, hj, ho, hdetect⟩
    · exact hgo _ hnull rfl hnone
    · have hw : w ≤ 3 := hnarrow _ (List.mem_of_getElem? hj)
      obtain ⟨tail, hobj, hinl, hout⟩ := getObject_cell hfit hlinked hj ho hw b w rest
      have ht := hdetect _ _ hobj
      have hrow := row_split hj
      have hp : p.Fits w := hfit _ (List.mem_of_getElem? hj)
      have hwidth : width row = width (row.take a.1) + (w + width (row.drop (a.1 + 1))) := by
        conv_lhs => rw [hrow]
        rw [width_append, width_cons]
      cases p with
      | inl ws =>
        refine hgo _ ht ?_ fun c hc => ?_
        · -- An object in its cell ends in front of what is out of line.
          have hlen := congrArg List.length (hinl ws rfl)
          have hle : ws.length ≤ w := hp
          rw [List.length_drop, length_rowView hfit] at hlen
          rw [WordSlice.passes, decide_eq_false_iff_not]
          change ¬(ws ++ tail).length + k < v.length + ws.length
          omega
        · rw [hj] at hc
          cases hc
          rfl
      | out ws =>
        -- Behind the last object that is out of line, nothing belongs to the row.
        have hlast : outs (row.drop (a.1 + 1)) = [] := outs_drop fun i c hi hc => by
          by_contra hne
          rcases List.mem_map.1 (hall i c hc hne) with ⟨a', ha', rfl⟩
          rcases List.mem_cons.1 ha' with rfl | ha'
          · omega
          · have := hlt a' ha'
            omega
        obtain rfl := hout ws rfl
        have houts : (outs row).length = (outs (row.take a.1)).length + ws.length := by
          conv_lhs => rw [hrow]
          rw [outs_append, outs_cons, hlast, List.append_nil, List.length_append]
          rfl
        have hpos : 0 < ws.length := by
          obtain ⟨x, xs, hx, -⟩ := ho
          obtain rfl : ws = x :: xs := hx
          exact Nat.succ_pos _
        rw [hlast, List.nil_append] at ht
        have ht : child a.2 = .ok ⟨.at (ws ++ rest), ws.length⟩ := ht
        rw [List.map_cons, scan, ht, Res.ok_bind, if_pos]
        · rw [WordSlice.upTo]
          dsimp only
          rw [List.length_append]
          congr 2
          omega
        · rw [WordSlice.passes]
          dsimp only
          rw [decide_eq_true_eq, List.length_append]
          omega

/-! ## The cells of an object -/

/-- `Array::Detect` of an array that was opened. -/
theorem detectArray_of_open {b : Bool} {v body : List UInt32} {n m : ℕ}
    (h : openArray b (.at v) = .ok ⟨.at body, n, m⟩) :
    detectArray b (.at v) = .ok ⟨.at v, 1 + m * n⟩ := by
  have hne : ¬Ptr.at v = Ptr.null := fun h => by cases h
  rw [openArray, if_neg hne] at h
  rw [detectArray, if_neg hne]
  obtain ⟨w, hw, h⟩ := Res.bind_eq_ok.1 h
  rw [hw, Res.ok_bind]
  dsimp only at h ⊢
  split at h
  · cases h
  · next hin =>
    obtain ⟨hwidth, hexceeds⟩ := not_or.1 hin
    cases h
    rw [if_neg hwidth, if_neg hexceeds]
    rfl

theorem detectArray_eq {m : ℕ} {ps : List (Piece UInt32)} {w : List UInt32} (h : IsArray m ps w)
    (b : Bool) (rest : List UInt32) :
    detectArray b (.at (w ++ rest)) = .ok ⟨.at (w ++ rest), 1 + m * ps.length⟩ :=
  detectArray_of_open (openArray_eq h b rest)

/-- `Array::Detect` of an array of scalars of a width. -/
theorem detectScalars_eq {m n : ℕ} {ws rest : List UInt32} {b : Bool} (hpos : 1 ≤ m) (hle : m ≤ 2)
    (hlen : ws.length = m * n) (hlt : m * n < 2 ^ 30) :
    detectArray b (.at (UInt32.ofNat (n <<< 2 ||| m) :: ws ++ rest)) =
      .ok ⟨.at (UInt32.ofNat (n <<< 2 ||| m) :: ws ++ rest), 1 + m * n⟩ := by
  have hn := Nat.le_mul_of_pos_left n hpos
  obtain ⟨hsize, hwidth⟩ := arrayHead_parts (show n < 2 ^ 30 by omega) (show m ≤ 3 by omega)
  rw [detectArray, if_neg (by simp [Ptr.null]), List.cons_append, Ptr.load, List.head?_cons,
    access_some, Res.ok_bind, hsize, hwidth, if_neg (by omega), if_neg]
  · rfl
  · rw [Ptr.exceeds, Bool.and_eq_true, decide_eq_true_eq, List.length_cons, List.length_append]
    omega

theorem detectMap_eq {hash : List UInt8 → UInt32 → V128} {keys : List (List UInt8)}
    {pos : List UInt8 → ℕ} {m₁ m₂ : ℕ} {index : List UInt8}
    {ps : List (Piece UInt32 × Piece UInt32)} {w rest : List UInt32} (h : IsMap m₁ m₂ index ps w)
    (hk : IsKeyed hash keys pos index) (hl : keys.length = ps.length) (b : Bool)
    (hnear : b = true → Near w rest) :
    detectMap b (.at (w ++ rest)) =
      .ok ⟨.at (w ++ rest), wordSize index.length + (m₁ + m₂) * ps.length⟩ := by
  obtain ⟨w₀, ph, hw₀, hk₁, hk₂, hph, hdata, hds, hsize, -⟩ := h.index hk hl b hnear
  have hlen := length_mapWords m₁ m₂ index h.fits
  rw [← h.eq] at hlen
  have h₁ := h.pos₁
  have h₂ := h.pos₂
  have hin : ¬(w ++ rest).length < wordSize index.length + (m₁ + m₂) * ps.length := by
    rw [List.length_append]
    omega
  rw [detectMap, hw₀, Res.ok_bind]
  dsimp only
  rw [hk₁, hk₂, if_neg (by omega), hph, Res.ok_bind, if_neg hdata, hsize, Res.ok_bind, hds,
    Ptr.exceeds, decide_eq_false hin, Bool.and_false]
  rfl

/-- Widths behind some bits that are zero. -/
theorem pack_zeros (n : ℕ) (ws : List ℕ) :
    TwoBit.pack (List.replicate n 0 ++ ws) = 4 ^ n * TwoBit.pack ws := by
  induction n with
  | zero => rw [List.replicate_zero, List.nil_append, pow_zero, Nat.one_mul]
  | succ n ih =>
    rw [List.replicate_succ, List.cons_append, TwoBit.pack, ih, pow_succ]
    ring

/-- The number of the words of the fields, as `Message::Detect` finds it. -/
theorem bodySize_eq {ps : List (Piece UInt32)} {w : List UInt32} (h : IsMessage ps w)
    (rest : List UInt32) :
    ∃ head, (w ++ rest).head? = some head ∧ (head &&& 0xff).toNat = sectionCount ps.length ∧
      bodySize (w ++ rest) head = .ok (ps.map pieceWidth).sum := by
  obtain ⟨head, tail, hw, hsec, hwidths⟩ := h.head
  refine ⟨head, by rw [hw]; rfl, hsec, ?_⟩
  have hsum : ∀ k, ps.length ≤ k → ((ps.map pieceWidth).take k).sum = (ps.map pieceWidth).sum := by
    intro k hk
    rw [List.take_of_length_le (by rwa [List.length_map])]
  rw [bodySize, hsec]
  split
  · next h0 =>
    -- The low bits of the head, which tell the number of the sections, are zero.
    rw [sectionCount] at h0
    have hws : ∀ k ∈ List.replicate 4 0 ++ (ps.map pieceWidth).take 12, k < 4 := by
      intro k hk
      rcases List.mem_append.1 hk with hk | hk
      · rw [List.eq_of_mem_replicate hk]
        decide
      · exact h.width_lt k (List.mem_of_mem_take hk)
    have hhead : head.toNat = TwoBit.pack (List.replicate 4 0 ++ (ps.map pieceWidth).take 12) := by
      rw [UInt32.toNat_shiftRight] at hwidths
      change head.toNat >>> 8 = _ at hwidths
      rw [Nat.shiftRight_eq_div_pow] at hwidths
      rw [UInt32.toNat_and] at hsec
      change head.toNat &&& 2 ^ 8 - 1 = _ at hsec
      rw [Nat.and_two_pow_sub_one_eq_mod, sectionCount, h0] at hsec
      rw [pack_zeros, ← hwidths]
      omega
    rw [count32_eq, hhead, TwoBit.digitSum_pack hws, List.take_of_length_le (by simp; omega),
      List.sum_append, List.sum_replicate, hsum 12 (by omega)]
    simp
  · next h0 =>
    rw [sectionCount] at h0
    -- The mark of the last section tells the number of words in front of it, and the widths in
    -- it.
    obtain ⟨a, ha⟩ := Nat.exists_eq_succ_of_ne_zero h0
    have hcount : sectionCount ps.length = a + 1 := ha
    obtain ⟨mark, hmark, hval⟩ := h.section rest (show a < sectionCount ps.length by omega)
    set ws := ((ps.map pieceWidth).drop (12 + 25 * a)).take 25 with hwsdef
    have hws4 : ∀ k ∈ ws, k < 4 :=
      fun k hk => h.width_lt k (List.mem_of_mem_drop (List.mem_of_mem_take hk))
    have hwslen : ws.length ≤ 25 := by rw [hwsdef, List.length_take]; omega
    have hpack : TwoBit.pack ws < 2 ^ 50 := by
      have := TwoBit.pack_lt hws4
      have hpow := Nat.pow_le_pow_right (show 4 > 0 by decide) hwslen
      omega
    have hws : ∀ k ∈ List.replicate 7 0 ++ ws, k < 4 := by
      intro k hk
      rcases List.mem_append.1 hk with hk | hk
      · rw [List.eq_of_mem_replicate hk]
        decide
      · exact hws4 k hk
    have hshift : (mark <<< 14).toNat = TwoBit.pack (List.replicate 7 0 ++ ws) := by
      rw [UInt64.toNat_shiftLeft, hval, pack_zeros]
      change (_ <<< 14) % 2 ^ 64 = _
      rw [Nat.shiftLeft_eq]
      omega
    have htop : (mark >>> 50).toNat = before ps (12 + 25 * a) := by
      rw [UInt64.toNat_shiftRight, hval]
      change (_ >>> 50) = _
      rw [Nat.shiftRight_eq_div_pow]
      omega
    rw [hcount, Nat.add_sub_cancel, hmark, Res.ok_bind, count64_eq,
      hshift, TwoBit.digitSum_pack hws, List.take_of_length_le (by simp; omega), List.sum_append,
      List.sum_replicate, htop, before]
    change Except.ok _ = _
    congr 1
    have hall := hsum (12 + 25 * a + 25) (by omega)
    rw [List.take_add, List.sum_append, ← hwsdef] at hall
    simp only [smul_eq_mul, Nat.mul_zero, Nat.zero_add]
    omega

theorem detectMessage_eq {ps : List (Piece UInt32)} {w : List UInt32} (h : IsMessage ps w)
    (early b : Bool) (rest : List UInt32) : detectMessage early b (.at (w ++ rest)) =
      .ok ⟨.at (w ++ rest), 1 + 2 * sectionCount ps.length + (ps.map pieceWidth).sum⟩ := by
  obtain ⟨head, hhead, hsec, hbody⟩ := bodySize_eq h rest
  have hlen := length_messageWords ps
  rw [← h.eq] at hlen
  have hin : ∀ k ≤ w.length, (Ptr.at (w ++ rest)).exceeds b k = false := by
    intro k hk
    rw [Ptr.exceeds, Bool.and_eq_false_iff, decide_eq_false_iff_not, List.length_append]
    exact .inr (by omega)
  rw [detectMessage, Ptr.load, hhead, access_some, Res.ok_bind]
  dsimp only
  rw [hsec, Nat.mul_comm _ 2, hin _ (by omega), Bool.and_false, if_neg Bool.false_ne_true, hbody,
    Res.ok_bind, hin _ (by omega)]
  rfl

theorem detectString_eq {str : List UInt8} (hs : str.length < 2 ^ 30) (b : Bool)
    (rest : List UInt32) :
    detectString b (.at (stringWords str ++ rest)) =
      .ok ⟨.at (stringWords str ++ rest), (stringWords str).length⟩ := by
  rw [detectString, readString_stringWords hs, Res.ok_bind]
  dsimp only
  have hlen :
      (stringWords str).length = wordSize (Varint.encode (str.length <<< 2) ++ str).length := by
    rw [stringWords, length_wordsOf]
  change Except.ok (WordSlice.mk _ _) = _
  congr 2
  simp only [List.length_append, List.length_replicate, length_bytesOf, hlen, wordSize]
  omega

/-! ## The words of an object of a type -/

/-- The types of containers that have a head with the widths of their cells. -/
def Ty.IsContainer : Ty → Prop
  | .scalars => True
  | .array _ => True
  | .map _ _ => True
  | _ => False

/-- The words that an object of a type takes, with all that belongs to it: the objects of its
    elements, pairs or fields are in its cells, or stand behind the cells in order. Instead
    of an array of Booleans there may be the mark 1, and instead of another container the
    head of a message that has no fields. -/
inductive Takes (hash : List UInt8 → UInt32 → V128) (schema : Schema) : Ty → List UInt32 → Prop
  | str {s : List UInt8} (h : s.length < 2 ^ 30) : Takes hash schema .str (stringWords s)
  | bools {s : List UInt8} (h : s.length < 2 ^ 30) : Takes hash schema .bools (stringWords s)
  | mark : Takes hash schema .bools [1]
  | zero {t : Ty} (h : t.IsContainer) : Takes hash schema t [0]
  | scalars {m n : ℕ} {ws : List UInt32} (hpos : 1 ≤ m) (hle : m ≤ 2) (hlen : ws.length = m * n)
      (hlt : m * n < 2 ^ 30) : Takes hash schema .scalars (UInt32.ofNat (n <<< 2 ||| m) :: ws)
  | array {t : Ty} {m : ℕ} {ps : List (Piece UInt32)} {ws : List UInt32} (h : IsArray m ps ws)
      (helements : ∀ p ∈ ps, Takes hash schema t p.words) : Takes hash schema (.array t) ws
  | map {k t : Ty} {keys : List (List UInt8)} {pos : List UInt8 → ℕ} {m₁ m₂ : ℕ}
      {index : List UInt8}
      {ps : List (Piece UInt32 × Piece UInt32)} {ws : List UInt32} (h : IsMap m₁ m₂ index ps ws)
      (hkeyed : IsKeyed hash keys pos index) (hlen : keys.length = ps.length)
      (hscalar : ∀ p ∈ ps, (k = .scalar → p.1.outer = []) ∧ (t = .scalar → p.2.outer = []))
      (hkeys : k ≠ .scalar → ∀ p ∈ ps, Takes hash schema k p.1.words)
      (hvalues : t ≠ .scalar → ∀ p ∈ ps, Takes hash schema t p.2.words) :
        Takes hash schema (.map k t) ws
  | message {name : ℕ} {ps : List (Piece UInt32)} {ws : List UInt32} (h : IsMessage ps ws)
      (hlong : ∀ p ∈ ps, ∀ x, p ≠ .out [x])
      (hfields : ∀ i t p, (i, t) ∈ schema name → t ≠ .scalar → ps[i]? = some p → p.words ≠ [] →
        Takes hash schema t p.words)
      (hknown : ∀ i p, ps[i]? = some p → p.outer ≠ [] → ∃ t, (i, t) ∈ schema name ∧ t ≠ .scalar) :
      Takes hash schema (.message name) ws

/-- Words that `Detect` of a type does not take for an object. -/
def Unseen : Ty → List UInt32 → Prop
  | .bools, ws => ws = [1]
  | .scalars, ws => ws = [0]
  | .array _, ws => ws = [0]
  | .map _ _, ws => ws = [0]
  | _, _ => False

section

variable {hash : List UInt8 → UInt32 → V128} {schema : Schema} {b : Bool}

theorem Unseen.length {t : Ty} {ws : List UInt32} (h : Unseen t ws) : ws.length = 1 := by
  cases t with
  | bools => exact congrArg List.length h
  | scalars => exact congrArg List.length h
  | array t => exact congrArg List.length h
  | map k t => exact congrArg List.length h
  | _ => exact absurd h id

/-- `Detect` finds nothing where it does not see an object. -/
theorem Unseen.detect {t : Ty} {ws : List UInt32} (h : Unseen t ws) (rest : List UInt32)
    (fuel : ℕ) :
    detect schema false b (fuel + 1) t (.at (ws ++ rest)) = .ok WordSlice.null := by
  have hhead : t.detectHead false b (.at (ws ++ rest)) = .ok WordSlice.null := by
    cases t with
    | bools =>
      obtain rfl : ws = [1] := h
      change detectString b (.at (1 :: rest)) = _
      rw [detectString, readString, if_neg]
      · rfl
      · rintro (h | h)
        · cases h
        · rw [Ptr.reaches, List.isEmpty_cons, Bool.and_false] at h
          cases h
    | scalars =>
      obtain rfl : ws = [0] := h
      rfl
    | array t =>
      obtain rfl : ws = [0] := h
      rfl
    | map k t =>
      obtain rfl : ws = [0] := h
      rfl
    | _ => exact absurd h id
  rw [ProtoCache.detect, hhead, Res.ok_bind, if_pos rfl]
  rfl

theorem Takes.isObject {t : Ty} {ws : List UInt32} (h : Takes hash schema t ws) : IsObject ws := by
  cases h with
  | str h => exact isObject_stringWords _
  | bools h => exact isObject_stringWords _
  | mark => exact ⟨1, [], rfl, fun _ => by decide⟩
  | zero h => exact ⟨0, [], rfl, fun _ => by decide⟩
  | @scalars m n ws hpos hle hlen hlt =>
    have hn := Nat.le_mul_of_pos_left n hpos
    refine isObject_cons fun _ => ?_
    rw [arrayHead_mark (by omega) (by omega)]
    omega
  | array h _ => exact h.isObject
  | map h hkeyed hlen _ _ _ => exact h.isObject hkeyed hlen
  | message h _ _ _ => exact h.isObject

theorem Takes.ne_scalar {t : Ty} {ws : List UInt32} (h : Takes hash schema t ws) : t ≠ .scalar := by
  rintro rfl
  cases h with
  | zero h => exact h

theorem ne_scalar_of_takes {t : Ty} {ps : List (Piece UInt32)}
    (h : ∀ p ∈ ps, Takes hash schema t p.words) :
    ps ≠ [] → t ≠ .scalar := by
  intro hne
  obtain ⟨p, hp⟩ := List.exists_mem_of_ne_nil ps hne
  exact (h p hp).ne_scalar

/-- The object at a cell of a row is near the end if the row is. -/
theorem near_cell {row : List (ℕ × Piece UInt32)} (hfit : Fit row) (hnarrow : Narrow row)
    (hlinked : Linked row) (rest : List UInt32) {j w : ℕ} {p : Piece UInt32}
    (hj : row[j]? = some (w, p)) (ho : IsObject p.words) (b : Bool) (w' : ℕ) :
    ∃ tail, Field.getObject b ⟨.at ((rowView row rest).drop (width (row.take j))), w'⟩ =
      .ok (.at (p.words ++ tail)) ∧
      ((p.outer ≠ [] → (outs row).length + rest.length < 2 ^ 30) → Near p.words tail) := by
  have hw : w ≤ 3 := hnarrow _ (List.mem_of_getElem? hj)
  obtain ⟨tail, hobj, -, hout⟩ := getObject_cell hfit hlinked hj ho hw b w' rest
  refine ⟨tail, hobj, fun hnear => ?_⟩
  have hp : p.Fits w := hfit _ (List.mem_of_getElem? hj)
  cases p with
  | inl ws => exact .inl (le_trans hp hw)
  | out ws =>
    have hrow := congrArg (fun r => (outs r).length) (row_split hj)
    simp only [outs_append, outs_cons, List.length_append] at hrow
    change (outs row).length = _ + (ws.length + _) at hrow
    have := hnear fun h0 => by
      obtain ⟨x, xs, hx, -⟩ := ho
      rw [show ws = [] from h0] at hx
      cases hx
    rw [hout ws rfl]
    refine .inr ?_
    change ws.length + _ < _
    rw [List.length_append]
    omega

end

/-! ## The rows of the objects -/

/-- An object that has its cells in a row. `Detect` finds them, and then looks at fields that
    are at cells of the row, from the last one on; all that is out of line is at one of them.
    The words at the cells have a property, by their type. -/
structure Rowed (schema : Schema) (b : Bool) (P : Ty → List UInt32 → Prop) (t : Ty)
    (ws rest : List UInt32) (row : List (ℕ × Piece UInt32)) (l : List (ℕ × (Ty × Res Field))) :
    Prop where
  fit : Fit row
  narrow : Narrow row
  linked : Linked row
  head : ∃ k, t.detectHead false b (.at (ws ++ rest)) = .ok ⟨.at (ws ++ rest), k⟩ ∧
    ws.length = k + (outs row).length
  children : t.children schema b (.at (ws ++ rest)) = .ok (l.map Prod.snd)
  sorted : l.Pairwise fun a a' => a'.1 < a.1
  known : ∀ j c, row[j]? = some c → c.2.outer ≠ [] → j ∈ l.map Prod.fst
  near : Near ws rest ∨ rest = [] → ∀ c ∈ row, c.2.outer ≠ [] →
    (outs row).length + rest.length < 2 ^ 30
  child : ∀ a ∈ l, a.2.1 ≠ .scalar ∧
    (a.2.2 = .ok Field.null ∧ (∀ c, row[a.1]? = some c → c.2.outer = []) ∨ ∃ w p w', row[a.1]? =
    some (w, p) ∧ a.2.2 = .ok ⟨.at ((rowView row rest).drop (width (row.take a.1))), w'⟩ ∧
    (∀ x, p ≠ .out [x]) ∧ p.words.length < ws.length ∧ P a.2.1 p.words)

section

variable {hash : List UInt8 → UInt32 → V128} {schema : Schema} {b : Bool}
  {P : Ty → List UInt32 → Prop}

theorem rowed_array {t : Ty} {m : ℕ} {ps : List (Piece UInt32)} {ws : List UInt32}
    (h : IsArray m ps ws) (rest : List UInt32) (ht : ps ≠ [] → t ≠ .scalar)
    (helements : ∀ p ∈ ps, P t p.words) :
    Rowed schema b P (.array t) ws rest (column m ps) ((List.range ps.length).reverse.map fun i =>
      (i, (t, .ok ⟨.at ((arrayBody m ps rest).drop (m * i)), m⟩))) := by
  have hlen := length_arrayWords h.fits
  rw [← h.eq] at hlen
  have hsize := h.size
  have hwidth := width_column m ps
  have hview : rowView (column m ps) rest = arrayBody m ps rest := by
    rw [rowView, outs_column, arrayBody]
  constructor
  case fit => exact fit_column.2 h.fits
  case narrow => exact narrow_column h.le ps
  case linked => exact linked_of_lt (by rwa [hwidth, outs_column])
  case head => exact ⟨_, detectArray_eq h b rest, by rw [outs_column, hlen, Nat.add_assoc]⟩
  case children =>
    rw [Ty.children, openArray_eq h, Res.ok_bind, List.map_map]
    rfl
  case sorted =>
    rw [List.pairwise_map, List.pairwise_reverse]
    exact List.pairwise_lt_range
  case known =>
    intro j c hj _
    obtain ⟨hj, -⟩ := List.getElem?_eq_some_iff.1 hj
    rw [column, List.length_map] at hj
    rw [List.map_map]
    exact List.mem_map.2 ⟨j, List.mem_reverse.2 (List.mem_range.2 hj), rfl⟩
  case near =>
    intro hn c hc ho
    obtain ⟨p, hp, rfl⟩ := List.mem_map.1 hc
    rw [outs_column]
    rcases hn with hn | rfl
    · exact h.near hn hp ho
    · rw [List.length_nil]
      omega
  case child =>
    intro a ha
    obtain ⟨i, hi, rfl⟩ := List.mem_map.1 ha
    rw [List.mem_reverse, List.mem_range] at hi
    have hmem := List.getElem_mem hi
    -- The cells are all of one width, so that the one of an index is at a multiple of it.
    have htake : width ((column m ps).take i) = m * i := by
      rw [column, ← List.map_take, ← column, width_column, List.length_take, Nat.min_eq_left hi.le]
    refine ⟨ht (List.ne_nil_of_mem hmem),
      .inr ⟨m, ps[i], m, ?_, ?_, fun x hx => ?_, h.words_lt hmem, helements _ hmem⟩⟩
    · rw [column, List.getElem?_map, List.getElem?_eq_getElem hi]
      rfl
    · rw [hview, htake]
    · have hlt := h.long [x] (hx ▸ hmem)
      have hpos := h.pos
      rw [List.length_singleton] at hlt
      omega

/-! ### Maps -/

theorem pairRow_even (m₁ m₂ : ℕ) (ps : List (Piece UInt32 × Piece UInt32)) (i : ℕ) :
    (pairRow m₁ m₂ ps)[2 * i]? = ps[i]?.map fun p => (m₁, p.1) := by
  induction ps generalizing i with
  | nil => rfl
  | cons p ps ih =>
    cases i with
    | zero => rfl
    | succ i => exact ih i

theorem pairRow_odd (m₁ m₂ : ℕ) (ps : List (Piece UInt32 × Piece UInt32)) (i : ℕ) :
    (pairRow m₁ m₂ ps)[2 * i + 1]? = ps[i]?.map fun p => (m₂, p.2) := by
  induction ps generalizing i with
  | nil => rfl
  | cons p ps ih =>
    cases i with
    | zero => rfl
    | succ i => exact ih i

theorem width_take_pairRow (m₁ m₂ : ℕ) {ps : List (Piece UInt32 × Piece UInt32)} {i : ℕ}
    (hi : i < ps.length) :
    width ((pairRow m₁ m₂ ps).take (2 * i)) = (m₁ + m₂) * i ∧
      width ((pairRow m₁ m₂ ps).take (2 * i + 1)) = (m₁ + m₂) * i + m₁ := by
  induction ps generalizing i with
  | nil => exact absurd hi (Nat.not_lt_zero i)
  | cons p ps ih =>
    cases i with
    | zero => exact ⟨rfl, by simp⟩
    | succ i =>
      obtain ⟨h₁, h₂⟩ := ih (Nat.lt_of_succ_lt_succ hi)
      rw [show 2 * (i + 1) = 2 * i + 1 + 1 by ring, pairRow_cons]
      simp only [List.take_succ_cons, width_cons, h₁, h₂]
      constructor <;> ring

/-- The children of a pair that `Detect` looks at, with the places of their cells. -/
def pairChildren (k t : Ty) (m₁ m₂ : ℕ) (body : List UInt32) (i : ℕ) :
    List (ℕ × (Ty × Res Field)) :=
  (if t = .scalar then []
    else [(2 * i + 1, (t, .ok ⟨.at ((body.drop ((m₁ + m₂) * i)).drop m₁), m₂⟩))]) ++
    if k = .scalar then [] else [(2 * i, (k, .ok ⟨.at (body.drop ((m₁ + m₂) * i)), m₁⟩))]

theorem mem_pairChildren {k t : Ty} {m₁ m₂ : ℕ} {body : List UInt32} {i : ℕ}
    {a : ℕ × (Ty × Res Field)} :
    a ∈ pairChildren k t m₁ m₂ body i ↔
      t ≠ .scalar ∧ a = (2 * i + 1, (t, .ok ⟨.at ((body.drop ((m₁ + m₂) * i)).drop m₁), m₂⟩)) ∨
        k ≠ .scalar ∧ a = (2 * i, (k, .ok ⟨.at (body.drop ((m₁ + m₂) * i)), m₁⟩)) := by
  rw [pairChildren, List.mem_append]
  refine or_congr ?_ ?_
  all_goals
    split
    · next hs => exact iff_of_false List.not_mem_nil fun h => h.1 hs
    · next hs => rw [List.mem_singleton, and_iff_right hs]

/-- The children of a map that was written. -/
theorem map_children {keys : List (List UInt8)} {pos : List UInt8 → ℕ} {k t : Ty} {m₁ m₂ : ℕ}
    {index : List UInt8} {ps : List (Piece UInt32 × Piece UInt32)} {ws : List UInt32}
    (h : IsMap m₁ m₂ index ps ws) (hkeyed : IsKeyed hash keys pos index)
    (hlen : keys.length = ps.length) (rest : List UInt32) :
    (Ty.map k t).children schema b (.at (ws ++ rest)) = .ok
      (((List.range ps.length).reverse.flatMap (pairChildren k t m₁ m₂ (mapBody m₁ m₂ ps rest))).map
        Prod.snd) := by
  rw [Ty.children]
  split
  · next hs =>
    have hnil : ∀ i, pairChildren k t m₁ m₂ (mapBody m₁ m₂ ps rest) i = [] := fun i => by
      rw [pairChildren, if_pos hs.2, if_pos hs.1]
      rfl
    rw [List.flatMap_eq_nil_iff.2 fun i _ => hnil i]
    rfl
  · have hfree : false = true → Near ws rest := fun h => Bool.noConfusion h
    obtain ⟨ph, hopen, hsize, -⟩ := openMap_eq h hkeyed hlen false hfree
    rw [hopen, Res.ok_bind, hsize, Res.ok_bind, List.map_flatMap]
    change Except.ok _ = Except.ok _
    congr 1
    refine List.flatMap_congr fun i _ => ?_
    rw [pairChildren, List.map_append]
    split <;> split <;> rfl

theorem rowed_map {keys : List (List UInt8)} {pos : List UInt8 → ℕ} {k t : Ty} {m₁ m₂ : ℕ}
    {index : List UInt8} {ps : List (Piece UInt32 × Piece UInt32)} {ws : List UInt32}
    (h : IsMap m₁ m₂ index ps ws) (hkeyed : IsKeyed hash keys pos index)
    (hlength : keys.length = ps.length)
    (hscalar : ∀ p ∈ ps, (k = .scalar → p.1.outer = []) ∧ (t = .scalar → p.2.outer = []))
    (hkeys : k ≠ .scalar → ∀ p ∈ ps, P k p.1.words)
    (hvalues : t ≠ .scalar → ∀ p ∈ ps, P t p.2.words) (rest : List UInt32)
    (hn : b = true → Near ws rest ∨ rest = []) :
    Rowed schema b P (.map k t) ws rest (pairRow m₁ m₂ ps)
      ((List.range ps.length).reverse.flatMap
        (pairChildren k t m₁ m₂ (mapBody m₁ m₂ ps rest))) := by
  have hlen := length_mapWords m₁ m₂ index h.fits
  rw [← h.eq] at hlen
  have hsize := h.size
  have hnear : Near ws rest ∨ rest = [] → Near ws rest := fun hn =>
    hn.elim id fun h0 => .inr (by rw [h0, List.length_nil]; omega)
  have hview : rowView (pairRow m₁ m₂ ps) rest = mapBody m₁ m₂ ps rest := by
    rw [rowView, outs_pairRow, mapBody]
  constructor
  case fit => exact fit_pairRow.2 h.fits
  case narrow => exact narrow_pairRow h.le₁ h.le₂ ps
  case linked =>
    refine linked_of_lt ?_
    rw [width_pairRow, outs_pairRow]
    omega
  case head =>
    exact ⟨_, detectMap_eq h hkeyed hlength b fun hb => hnear (hn hb), by
      rw [outs_pairRow, hlen, Nat.add_assoc]⟩
  case children => exact map_children h hkeyed hlength rest
  case sorted =>
    -- The pairs are taken from the last one to the first, and of each pair the value in front of
    -- the key.
    rw [List.pairwise_flatMap]
    refine ⟨fun i _ => ?_, (List.pairwise_reverse.2 List.pairwise_lt_range).imp
      fun hlt x hx y hy => ?_⟩
    · rw [pairChildren]
      split <;> split <;> simp
    · rcases mem_pairChildren.1 hx with ⟨-, rfl⟩ | ⟨-, rfl⟩ <;>
        rcases mem_pairChildren.1 hy with ⟨-, rfl⟩ | ⟨-, rfl⟩ <;> dsimp only <;> omega
  case known =>
    intro j c hj ho
    -- The cells of keys are at even places, those of values at odd ones.
    obtain ⟨i, rfl | rfl⟩ : ∃ i, j = 2 * i ∨ j = 2 * i + 1 := ⟨j / 2, by omega⟩
    · rw [pairRow_even] at hj
      obtain ⟨p, hp, rfl⟩ := Option.map_eq_some_iff.1 hj
      obtain ⟨hi, rfl⟩ := List.getElem?_eq_some_iff.1 hp
      refine List.mem_map.2 ⟨_, List.mem_flatMap.2 ⟨i, List.mem_reverse.2 (List.mem_range.2 hi),
          mem_pairChildren.2 (.inr ⟨fun hs => ho ((hscalar _ (List.getElem_mem hi)).1 hs), rfl⟩)⟩,
        rfl⟩
    · rw [pairRow_odd] at hj
      obtain ⟨p, hp, rfl⟩ := Option.map_eq_some_iff.1 hj
      obtain ⟨hi, rfl⟩ := List.getElem?_eq_some_iff.1 hp
      refine List.mem_map.2 ⟨_, List.mem_flatMap.2 ⟨i, List.mem_reverse.2 (List.mem_range.2 hi),
          mem_pairChildren.2 (.inl ⟨fun hs => ho ((hscalar _ (List.getElem_mem hi)).2 hs), rfl⟩)⟩,
        rfl⟩
  case near =>
    -- There are at least the four bytes of the number of keys, so that the index has a word.
    have hindex : index ≠ [] := by
      obtain ⟨⟨obj, body, hnum⟩, -⟩ := hkeyed
      rw [hnum.data_eq]
      exact fun h0 => absurd (congrArg List.length h0) (by simp)
    intro hn c hc ho
    rw [pairRow, List.mem_flatMap] at hc
    obtain ⟨p, hp, hcell⟩ := hc
    rw [outs_pairRow]
    rcases List.mem_pair.1 hcell with rfl | rfl
    · exact h.near (hnear hn) hindex (List.mem_flatMap.2 ⟨p, hp, by simp⟩) ho
    · exact h.near (hnear hn) hindex (List.mem_flatMap.2 ⟨p, hp, by simp⟩) ho
  case child =>
    intro a ha
    obtain ⟨i, hi, ha⟩ := List.mem_flatMap.1 ha
    rw [List.mem_reverse, List.mem_range] at hi
    have hmem := List.getElem_mem hi
    obtain ⟨htake₁, htake₂⟩ := width_take_pairRow m₁ m₂ hi
    obtain ⟨hlong₁, hlong₂⟩ := h.long _ hmem
    have hpos₁ := h.pos₁
    have hpos₂ := h.pos₂
    rcases mem_pairChildren.1 ha with ⟨ht, rfl⟩ | ⟨hk, rfl⟩
    · -- A value is behind the key of its pair.
      refine ⟨ht, .inr ⟨m₂, ps[i].2, m₂, ?_, ?_, fun x hx => ?_,
          h.words_lt (List.mem_flatMap.2 ⟨_, hmem, by simp⟩), hvalues ht _ hmem⟩⟩
      · rw [pairRow_odd, List.getElem?_eq_getElem hi]
        rfl
      · rw [hview, htake₂, ← List.drop_drop]
      · have hlt := hlong₂ _ hx
        rw [List.length_singleton] at hlt
        omega
    · refine ⟨hk, .inr ⟨m₁, ps[i].1, m₁, ?_, ?_, fun x hx => ?_,
          h.words_lt (List.mem_flatMap.2 ⟨_, hmem, by simp⟩), hkeys hk _ hmem⟩⟩
      · rw [pairRow_even, List.getElem?_eq_getElem hi]
        rfl
      · rw [hview, htake₁]
      · have hlt := hlong₁ _ hx
        rw [List.length_singleton] at hlt
        omega

/-! ### Messages -/

/-- The cells of a message, from the one of a field on. -/
theorem drop_messageWords (ps : List (Piece UInt32)) (rest : List UInt32) (id : ℕ) :
    (messageWords ps ++ rest).drop (1 + sectionCount ps.length * 2 + before ps id) =
      (rowView (messageRow ps) rest).drop (width ((messageRow ps).take id)) := by
  have hbefore : before ps id = width ((messageRow ps).take id) := by
    rw [messageRow, ← List.map_take, ← messageRow, width_messageRow, before, List.map_take]
  have hmarks := length_sectionMarks (sectionCount ps.length) ((ps.map pieceWidth).take 12).sum
    ((ps.map pieceWidth).drop 12)
  rw [messageWords, rowView, outs_messageRow, ← hbefore, Nat.add_assoc, Nat.add_comm 1,
    List.cons_append, List.drop_succ_cons, List.append_assoc, ← List.drop_drop, Nat.mul_comm,
    ← hmarks, List.drop_left, List.append_assoc]

theorem IsMessage.linked {ps : List (Piece UInt32)} {w : List UInt32} (h : IsMessage ps w) :
    Linked (messageRow ps) := by
  intro j c hj
  rw [messageRow, List.getElem?_map] at hj
  obtain ⟨p, hp, rfl⟩ := Option.map_eq_some_iff.1 hj
  obtain ⟨hlt, rfl⟩ := List.getElem?_eq_some_iff.1 hp
  have hps : ps = ps.take j ++ ps[j] :: ps.drop (j + 1) := by
    conv_lhs => rw [← List.take_append_drop j ps, List.drop_eq_getElem_cons hlt]
  have hsize := h.size
  have hne : ∀ p ∈ ps, p ≠ .out [] := fun p hp => (h.widths p hp).2
  have houts := outers_le_total (ps.take j)
  have hwidth := sum_width_le fun p hp => hne p (by rw [hps]; exact List.mem_append_right _ hp)
  rw [hps, total_append] at hsize
  rw [List.map_cons, List.sum_cons] at hwidth
  rw [messageRow, ← List.map_take, ← List.map_drop, ← messageRow, ← messageRow, outs_messageRow,
    width_messageRow]
  dsimp only
  omega

theorem IsMessage.near {ps : List (Piece UInt32)} {w rest : List UInt32} (h : IsMessage ps w)
    (hn : Near w rest) {p : Piece UInt32} (hlong : ∀ x, p ≠ .out [x]) (hp : p ∈ ps)
    (ho : p.outer ≠ []) :
    (outers ps).length + rest.length < 2 ^ 30 := by
  have hlen := length_messageWords ps
  rw [← h.eq] at hlen
  rcases hn with hn | hn
  · -- The head, a link and two words are too many.
    have houter := length_outer_le hp
    have hwidth : pieceWidth p ≤ (ps.map pieceWidth).sum :=
      List.single_le_sum (by simp) _ (List.mem_map_of_mem hp)
    cases p with
    | inl ws => exact absurd rfl ho
    | out ws =>
      have h2 : 2 ≤ ws.length := by
        rcases ws with _ | ⟨x, _ | ⟨y, ws⟩⟩
        · exact absurd rfl ho
        · exact absurd rfl (hlong x)
        · simp
      change ws.length ≤ _ at houter
      change 1 ≤ _ at hwidth
      omega
  · omega

theorem rowed_message {name : ℕ} {ps : List (Piece UInt32)} {ws : List UInt32} (h : IsMessage ps ws)
    (hsorted : (schema name).Pairwise fun f f' => f.1 < f'.1) (hlong : ∀ p ∈ ps, ∀ x, p ≠ .out [x])
    (hfields : ∀ i t p, (i, t) ∈ schema name → t ≠ .scalar → ps[i]? = some p → p.words ≠ [] →
      P t p.words)
    (hknown : ∀ i p, ps[i]? = some p → p.outer ≠ [] → ∃ t, (i, t) ∈ schema name ∧ t ≠ .scalar)
    (rest : List UInt32) :
    Rowed schema b P (.message name) ws rest (messageRow ps)
      (((schema name).reverse.filter fun field => field.2 ≠ .scalar).map fun field =>
        (field.1, (field.2, getField b (ws ++ rest) field.1))) := by
  have hlen := length_messageWords ps
  rw [← h.eq] at hlen
  constructor
  case fit => exact fit_messageRow ps
  case narrow =>
    intro c hc
    obtain ⟨p, hp, rfl⟩ := List.mem_map.1 hc
    exact (h.widths p hp).1
  case linked => exact h.linked
  case head => exact ⟨_, detectMessage_eq h false b rest, by rw [outs_messageRow, hlen]; omega⟩
  case children =>
    rw [Ty.children, openMessage_eq h, Res.ok_bind, List.map_map]
    rfl
  case sorted =>
    rw [List.pairwise_map]
    exact (List.pairwise_reverse.2 hsorted).filter _
  case known =>
    intro j c hj ho
    rw [messageRow, List.getElem?_map] at hj
    obtain ⟨p, hp, rfl⟩ := Option.map_eq_some_iff.1 hj
    obtain ⟨t, hmem, ht⟩ := hknown j p hp ho
    rw [List.map_map]
    exact List.mem_map.2
      ⟨(j, t), List.mem_filter.2 ⟨List.mem_reverse.2 hmem, by simpa using ht⟩, rfl⟩
  case near =>
    intro hn c hc ho
    obtain ⟨p, hp, rfl⟩ := List.mem_map.1 hc
    rw [outs_messageRow]
    rcases hn with hn | rfl
    · exact h.near hn (hlong _ hp) hp ho
    · have hsize := h.size
      have houts := outers_le_total ps
      rw [List.length_nil]
      omega
  case child =>
    intro a ha
    -- What is looked at is the field that `GetField` finds, which is in the cell of its number.
    obtain ⟨⟨i, t⟩, hmem, rfl⟩ := List.mem_map.1 ha
    obtain ⟨hmem, ht⟩ := List.mem_filter.1 hmem
    rw [List.mem_reverse] at hmem
    have ht : t ≠ .scalar := by simpa using ht
    refine ⟨ht, ?_⟩
    dsimp only
    rw [getField_at h]
    split
    · next h0 =>
      -- A field that is empty or not there.
      refine .inl ⟨rfl, fun c hc => ?_⟩
      rw [messageRow, List.getElem?_map] at hc
      obtain ⟨p, hp, rfl⟩ := Option.map_eq_some_iff.1 hc
      rw [fieldPiece, hp] at h0
      cases p with
      | inl ws => rfl
      | out ws => cases h0
    · next h0 =>
      have hi : i < ps.length := by
        by_contra hi
        rw [fieldPiece, List.getElem?_eq_none (Nat.le_of_not_lt hi)] at h0
        exact h0 rfl
      have hp : ps[i]? = some ps[i] := List.getElem?_eq_getElem hi
      have hpiece : fieldPiece ps i = ps[i] := by
        rw [fieldPiece, hp]
        rfl
      rw [hpiece] at h0 ⊢
      -- A cell of some width has words, in it or out of line.
      have hwords : ps[i].words ≠ [] := fun hnil => h0 (by
        have hne := (h.widths _ (List.getElem_mem hi)).2
        cases hcase : ps[i] with
        | inl ws => rw [hcase] at hnil; exact congrArg List.length hnil
        | out ws => rw [hcase] at hnil hne; exact absurd (congrArg Piece.out hnil) hne)
      refine .inr ⟨pieceWidth ps[i], ps[i], pieceWidth ps[i], ?_, ?_, hlong _ (List.getElem_mem hi),
        h.words_lt (List.getElem_mem hi), hfields i t _ hmem ht hp hwords⟩
      · rw [messageRow, List.getElem?_map, hp]
        rfl
      · rw [h.eq, drop_messageWords]

end

/-! ## How far an object reaches -/

/-- `Detect` finds these words wherever they stand, if it sees an object in them; where the
    end of the buffer is known, it must not be too far away. -/
def Detected (schema : Schema) (b : Bool) (t : Ty) (ws : List UInt32) : Prop :=
  ∀ rest fuel, (b = true → Near ws rest ∨ rest = []) → ws.length < fuel → ¬Unseen t ws →
    detect schema false b fuel t (.at (ws ++ rest)) = .ok ⟨.at (ws ++ rest), ws.length⟩

section

variable {hash : List UInt8 → UInt32 → V128} {schema : Schema} {b : Bool}

/-- `Detect` of a child: an object that is not seen is in its cell. -/
theorem Detected.child {t : Ty} {p : Piece UInt32} (h : Detected schema b t p.words)
    (hlong : ∀ x, p ≠ .out [x]) {fuel : ℕ} (hfuel : p.words.length < fuel) (tail : List UInt32)
    (hn : b = true → Near p.words tail) :
    detect schema false b fuel t (.at (p.words ++ tail)) =
      .ok ⟨.at (p.words ++ tail), p.words.length⟩ ∨
      detect schema false b fuel t (.at (p.words ++ tail)) = .ok WordSlice.null ∧ p.outer = [] := by
  by_cases hseen : Unseen t p.words
  · obtain ⟨fuel, rfl⟩ := Nat.exists_eq_succ_of_ne_zero (Nat.ne_zero_of_lt hfuel)
    refine .inr ⟨hseen.detect tail fuel, ?_⟩
    cases p with
    | inl ws => rfl
    | out ws =>
      obtain ⟨x, rfl⟩ := List.length_eq_one_iff.1 hseen.length
      exact absurd rfl (hlong x)
  · exact .inl (h tail fuel (fun hb => .inl (hn hb)) hfuel hseen)

theorem WordSlice.at_ne_null (v : List UInt32) (k : ℕ) :
    (⟨.at v, k⟩ : WordSlice) ≠ WordSlice.null := by
  intro h
  cases h

/-- The words of an object that has its cells in a row are found if those at the cells are. -/
theorem detected_of_rowed {t : Ty} {ws : List UInt32} (hobject : IsObject ws)
    (h : ∀ rest, (b = true → Near ws rest ∨ rest = []) → ∃ row l, Rowed schema b
      (fun t ws => Takes hash schema t ws ∧ Detected schema b t ws) t ws rest row l) :
    Detected schema b t ws := by
  intro rest fuel hn hfuel _
  obtain ⟨fuel, rfl⟩ := Nat.exists_eq_succ_of_ne_zero (Nat.ne_zero_of_lt hfuel)
  obtain ⟨row, l, hrow⟩ := h rest hn
  obtain ⟨k, hhead, hlen⟩ := hrow.head
  rw [detect, hhead, Res.ok_bind, if_neg (WordSlice.at_ne_null _ _), hrow.children, Res.ok_bind,
    scan_row (b := b) hrow.fit hrow.narrow hrow.linked rest (by rw [List.length_append]; omega)
    hrow.sorted hrow.known fun a ha => ?_, hlen]
  rcases a with ⟨i, c, f⟩
  obtain ⟨hc, hcell⟩ := hrow.child _ ha
  dsimp only at hc hcell ⊢
  rcases hcell with ⟨rfl, hnone⟩ | ⟨w, p, w', hj, rfl, hlong, hlt, htakes, hdetected⟩
  · obtain ⟨x, xs, rfl, -⟩ := hobject
    obtain ⟨fuel, rfl⟩ := Nat.exists_eq_succ_of_ne_zero (show fuel ≠ 0 by
      rw [List.length_cons] at hfuel
      omega)
    refine .inl ⟨?_, hnone⟩
    rw [detectChild, Res.ok_bind, Field.detect, if_neg hc]
    exact detect_null schema false b fuel c
  · have ho := htakes.isObject
    obtain ⟨tail, hobj, hnear⟩ := near_cell hrow.fit hrow.narrow hrow.linked rest hj ho b w'
    have hchild : detectChild (detect schema false b fuel) b
        (c, .ok ⟨.at ((rowView row rest).drop (width (row.take i))), w'⟩) =
          detect schema false b fuel c (.at (p.words ++ tail)) := by
      rw [detectChild, Res.ok_bind, Field.detect, if_neg hc, hobj, Res.ok_bind]
    rw [hchild]
    rcases hdetected.child hlong (hlt.trans_le (Nat.le_of_lt_succ hfuel)) tail
        (fun hb => hnear fun hout => hrow.near (hn hb) _ (List.mem_of_getElem? hj) hout) with
          hfound | ⟨hnull, hin⟩
    · refine .inr ⟨w, p, hj, ho, fun q w'' hq => ?_⟩
      obtain rfl := Except.ok.inj (hobj.symm.trans hq)
      exact hfound
    · refine .inl ⟨hnull, fun c hc => ?_⟩
      rw [hj] at hc
      cases hc
      exact hin

/-- `Detect` finds the words of an object. -/
theorem Takes.detected {t : Ty} {ws : List UInt32} (h : Takes hash schema t ws)
    (hsorted : ∀ name, (schema name).Pairwise fun f f' => f.1 < f'.1) : Detected schema b t ws := by
  induction h with
  | str h =>
    intro rest fuel _ hfuel _
    obtain ⟨fuel, rfl⟩ := Nat.exists_eq_succ_of_ne_zero (Nat.ne_zero_of_lt hfuel)
    rw [ProtoCache.detect, Ty.detectHead, detectString_eq h, Res.ok_bind,
      if_neg (WordSlice.at_ne_null _ _)]
    rfl
  | bools h =>
    intro rest fuel _ hfuel _
    obtain ⟨fuel, rfl⟩ := Nat.exists_eq_succ_of_ne_zero (Nat.ne_zero_of_lt hfuel)
    rw [ProtoCache.detect, Ty.detectHead, detectString_eq h, Res.ok_bind,
      if_neg (WordSlice.at_ne_null _ _)]
    rfl
  | mark => exact fun _ _ _ _ hseen => absurd rfl hseen
  | @zero t h =>
    intro _ _ _ _ hseen
    cases t with
    | scalars => exact absurd rfl hseen
    | array t => exact absurd rfl hseen
    | map k t => exact absurd rfl hseen
    | _ => exact absurd h id
  | @scalars m n ws hpos hle hlen hlt =>
    intro rest fuel _ hfuel _
    obtain ⟨fuel, rfl⟩ := Nat.exists_eq_succ_of_ne_zero (Nat.ne_zero_of_lt hfuel)
    rw [ProtoCache.detect, Ty.detectHead, detectScalars_eq hpos hle hlen hlt, Res.ok_bind,
      if_neg (WordSlice.at_ne_null _ _), List.length_cons, hlen, Nat.add_comm _ 1]
    rfl
  | array h helements ih =>
    exact detected_of_rowed h.isObject fun rest _ =>
      ⟨_, _, rowed_array h rest (ne_scalar_of_takes helements) fun p hp =>
      ⟨helements p hp, ih p hp⟩⟩
  | map h hkeyed hlen hscalar hkeys hvalues ihk ihv =>
    exact detected_of_rowed (h.isObject hkeyed hlen) fun rest hn =>
      ⟨_, _, rowed_map h hkeyed hlen hscalar (fun hk p hp => ⟨hkeys hk p hp, ihk hk p hp⟩)
      (fun ht p hp => ⟨hvalues ht p hp, ihv ht p hp⟩) rest hn⟩
  | @message name ps ws h hlong hfields hknown ih =>
    exact detected_of_rowed h.isObject fun rest _ =>
      ⟨_, _, rowed_message h (hsorted name) hlong (fun i t p hmem ht hp hwords =>
      ⟨hfields i t p hmem ht hp hwords, ih i t p hmem ht hp hwords⟩) hknown rest⟩

/-- `Detect` finds the words of an object, and only those, exactly if it sees one. -/
theorem Takes.detect_iff {t : Ty} {ws : List UInt32} (h : Takes hash schema t ws)
    (hsorted : ∀ name, (schema name).Pairwise fun f f' => f.1 < f'.1) {rest : List UInt32}
    (hn : b = true → Near ws rest ∨ rest = []) {fuel : ℕ} (hfuel : ws.length < fuel) :
    detect schema false b fuel t (.at (ws ++ rest)) = .ok ⟨.at (ws ++ rest), ws.length⟩ ↔
      ¬Unseen t ws := by
  refine ⟨fun hd hseen => ?_, h.detected hsorted rest fuel hn hfuel⟩
  obtain ⟨fuel, rfl⟩ := Nat.exists_eq_succ_of_ne_zero (Nat.ne_zero_of_lt hfuel)
  rw [hseen.detect] at hd
  cases hd

/-- The head of what `Detect` of a type does not take for an object. -/
def UnseenAt : Ty → List UInt32 → Prop
  | .bools, v => v.head? = some 1
  | .scalars, v => v.head? = some 0
  | .array _, v => v.head? = some 0
  | .map _ _, v => v.head? = some 0
  | _, _ => False

theorem Unseen.head {t : Ty} {ws : List UInt32} (h : Unseen t ws) (rest : List UInt32) :
    UnseenAt t (ws ++ rest) := by
  cases t with
  | bools | scalars | array t | map k t => exact congrArg (fun ws => (ws ++ rest).head?) h
  | _ => exact absurd h id

/-- Where there is such a head, nothing is found. -/
theorem UnseenAt.detect {t : Ty} {v : List UInt32} (h : UnseenAt t v) (fuel : ℕ) :
    detect schema false b (fuel + 1) t (.at v) = .ok WordSlice.null := by
  cases v with
  | nil => cases t <;> cases h
  | cons w rest =>
    have hunseen : Unseen t [w] := by
      cases t with
      | bools | scalars | array t | map k t => exact congrArg (fun w => [w]) (Option.some.inj h)
      | _ => exact absurd h id
    exact hunseen.detect rest fuel

/-- `Detect` finds the words of the object at a position, with all that belongs to it, and only
    those. -/
def Exact (hash : List UInt8 → UInt32 → V128) (schema : Schema) (b : Bool) (t : Ty)
    (v : List UInt32) : Prop :=
  ∃ ws rest, v = ws ++ rest ∧ Takes hash schema t ws ∧
    ∀ fuel, ws.length < fuel → detect schema false b fuel t (.at v) = .ok ⟨.at v, ws.length⟩

/-- Of an object that is seen, `Detect` finds the words. -/
theorem Takes.exact_iff {t : Ty} {ws : List UInt32} (h : Takes hash schema t ws)
    (hsorted : ∀ name, (schema name).Pairwise fun f f' => f.1 < f'.1) {rest : List UInt32}
    (hn : b = true → Near ws rest ∨ rest = []) :
    Exact hash schema b t (ws ++ rest) ↔ ¬UnseenAt t (ws ++ rest) := by
  constructor
  · rintro ⟨ws', -, -, -, hdetect⟩ hhead
    have hnull := hdetect (ws'.length + 1) (Nat.lt_succ_self _)
    rw [hhead.detect] at hnull
    cases hnull
  · intro hhead
    refine ⟨ws, rest, rfl, h, fun fuel hfuel => ?_⟩
    exact (h.detect_iff hsorted hn hfuel).2 fun hunseen => hhead (hunseen.head rest)

end

/-! ## The objects in a buffer -/

/-- The objects in a buffer: the one that it starts with, and those at the fields of the
    others that are no scalars. -/
inductive Reached (schema : Schema) (b : Bool) (t₀ : Ty) (v₀ : List UInt32) :
    Ty → List UInt32 → Prop
  | root : Reached schema b t₀ v₀ t₀ v₀
  | child {t c : Ty} {v q : List UInt32} {cs : List (Ty × Res Field)} {f : Field}
      (h : Reached schema b t₀ v₀ t v)
      (hcs : t.children schema b (.at v) = .ok cs) (hf : (c, .ok f) ∈ cs)
        (hq : f.getObject b = .ok (.at q)) :
      Reached schema b t₀ v₀ c q

section

variable {hash : List UInt8 → UInt32 → V128} {schema : Schema} {b : Bool}

/-- The fields of an object are at the cells of a row, unless it has none. -/
theorem Takes.children {t : Ty} {ws : List UInt32} (h : Takes hash schema t ws)
    (hsorted : ∀ name, (schema name).Pairwise fun f f' => f.1 < f'.1) (rest : List UInt32)
    (hn : Near ws rest ∨ rest = []) :
    t.children schema b (.at (ws ++ rest)) = .ok [] ∨ ∃ row l,
      Rowed schema b (Takes hash schema) t ws rest row l := by
  cases h with
  | str h => exact .inl rfl
  | bools h => exact .inl rfl
  | mark => exact .inl rfl
  | zero h =>
    refine .inl ?_
    cases t with
    | scalars => rfl
    | array t => rfl
    | map k t =>
      rw [Ty.children]
      split
      · rfl
      · rfl
    | _ => exact absurd h id
  | scalars => exact .inl rfl
  | array h helements =>
    exact .inr ⟨_, _, rowed_array h rest (ne_scalar_of_takes helements) helements⟩
  | map h hkeyed hlen hscalar hkeys hvalues =>
    exact .inr ⟨_, _, rowed_map h hkeyed hlen hscalar hkeys hvalues rest fun _ => hn⟩
  | @message name ps ws h hlong hfields hknown =>
    exact .inr ⟨_, _, rowed_message h (hsorted name) hlong hfields hknown rest⟩

/-- The objects in a buffer take their words. -/
theorem Takes.reached {t₀ t : Ty} {ws₀ rest₀ v : List UInt32} (h₀ : Takes hash schema t₀ ws₀)
    (hsorted : ∀ name, (schema name).Pairwise fun f f' => f.1 < f'.1)
    (hn₀ : Near ws₀ rest₀ ∨ rest₀ = []) (h : Reached schema b t₀ (ws₀ ++ rest₀) t v) :
    ∃ ws rest, v = ws ++ rest ∧ Takes hash schema t ws ∧ (Near ws rest ∨ rest = []) := by
  induction h with
  | root => exact ⟨ws₀, rest₀, rfl, h₀, hn₀⟩
  | @child t c v q cs f _ hcs hf hq ih =>
    obtain ⟨ws, rest, rfl, htakes, hn⟩ := ih
    rcases htakes.children (b := b) hsorted rest hn with hnil | ⟨row, l, hrow⟩
    · obtain rfl := Except.ok.inj (hnil.symm.trans hcs)
      exact absurd hf List.not_mem_nil
    · obtain rfl := Except.ok.inj (hrow.children.symm.trans hcs)
      obtain ⟨⟨i, c', f'⟩, ha, heq⟩ := List.mem_map.1 hf
      cases heq
      obtain ⟨hc, hcell⟩ := hrow.child _ ha
      dsimp only at hcell
      rcases hcell with ⟨hnull, -⟩ | ⟨w, p, w', hj, hcell, -, -, hp⟩
      · obtain rfl := Except.ok.inj hnull
        cases hq
      · obtain rfl := Except.ok.inj hcell
        obtain ⟨tail, hobj, hnear⟩ :=
          near_cell hrow.fit hrow.narrow hrow.linked rest hj hp.isObject b w'
        obtain rfl := Ptr.at.inj (Except.ok.inj (hobj.symm.trans hq))
        exact ⟨p.words, tail, rfl, hp, .inl (hnear (hrow.near hn _ (List.mem_of_getElem? hj)))⟩

end

end ProtoCache

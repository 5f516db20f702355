import ProtoCache.Serialize.Fields

/-!
# Finding in a map that was written

A map of keys of one type (strings, or numbers of 32 or of 64 bits) and values of one
type is written from its pairs, and then read.

* `reads_iff`: it has the pairs that it was written from, each once, and finds
  each of them by its key; another key is not found, unless it is a string of `2 ^ 32`
  bytes or more, of which `Map::Find` looks up a part only.
-/

namespace ProtoCache

open Row LittleEndian

/-! ## The cells of a map -/

/-- The cells of the pairs of a map, and what stands behind them. -/
def mapBody (m₁ m₂ : ℕ) (ps : List (Piece UInt32 × Piece UInt32)) (rest : List UInt32) :
    List UInt32 :=
  cells 0 linkWord 0 (pairRow m₁ m₂ ps) ++ (outers (flat ps) ++ rest)

theorem pairRow_append (m₁ m₂ : ℕ) (ps qs : List (Piece UInt32 × Piece UInt32)) :
    pairRow m₁ m₂ (ps ++ qs) = pairRow m₁ m₂ ps ++ pairRow m₁ m₂ qs := List.flatMap_append

/-- The cells of a pair of a map, among the others; what a link leads over there is less
    than `2 ^ 30` words. -/
theorem IsMap.split {m₁ m₂ : ℕ} {index : List UInt8} {ps : List (Piece UInt32 × Piece UInt32)}
    {w : List UInt32} (h : IsMap m₁ m₂ index ps w) {i : ℕ} (hi : i < ps.length) :
    ∃ r r', pairRow m₁ m₂ ps = r ++ (m₁, ps[i].1) :: (m₂, ps[i].2) :: r' ∧
      width r = (m₁ + m₂) * i ∧ m₁ + (m₂ + width r') + (outs r).length < 2 ^ 30 ∧
      m₂ + width r' + ((outs r).length + ps[i].1.outer.length) < 2 ^ 30 := by
  have hps : ps = ps.take i ++ ps[i] :: ps.drop (i + 1) := by
    conv_lhs => rw [← List.take_append_drop i ps, List.drop_eq_getElem_cons hi]
  have hrow : pairRow m₁ m₂ ps = pairRow m₁ m₂ (ps.take i) ++
      (m₁, ps[i].1) :: (m₂, ps[i].2) :: pairRow m₁ m₂ (ps.drop (i + 1)) := by
    conv_lhs => rw [hps, pairRow_append]
    rfl
  have hsize := h.size
  have hwidth : width (pairRow m₁ m₂ (ps.take i)) = (m₁ + m₂) * i := by
    rw [width_pairRow, List.length_take, Nat.min_eq_left hi.le]
  have htotal : (m₁ + m₂) * ps.length =
      (m₁ + m₂) * i + (m₁ + (m₂ + width (pairRow m₁ m₂ (ps.drop (i + 1))))) := by
    rw [← width_pairRow m₁ m₂ ps, hrow, width_append, width_cons, width_cons, hwidth]
  have houts : (outers (flat ps)).length = (outs (pairRow m₁ m₂ (ps.take i))).length +
      (ps[i].1.outer.length + (ps[i].2.outer.length +
        (outs (pairRow m₁ m₂ (ps.drop (i + 1)))).length)) := by
    rw [← outs_pairRow m₁ m₂ ps, hrow, outs_append, outs_cons, outs_cons]
    simp only [List.length_append]
  exact ⟨_, _, hrow, hwidth, by omega, by omega⟩

/-- The cells of a map show the keys and the values. -/
theorem IsMap.shows {m₁ m₂ : ℕ} {index : List UInt8} {ps : List (Piece UInt32 × Piece UInt32)}
    {w : List UInt32} (h : IsMap m₁ m₂ index ps w) (rest : List UInt32) {i : ℕ}
    (hi : i < ps.length) :
    Shows 0 linkWord (2 ^ 30) ((outers (flat ps)).length + rest.length) m₁
        ((mapBody m₁ m₂ ps rest).drop ((m₁ + m₂) * i)) ps[i].1 ∧
      Shows 0 linkWord (2 ^ 30) ((outers (flat ps)).length + rest.length) m₂
        (((mapBody m₁ m₂ ps rest).drop ((m₁ + m₂) * i)).drop m₁) ps[i].2 := by
  obtain ⟨r, r', hrow, hwidth, h₁, h₂⟩ := h.split hi
  have hrow' : pairRow m₁ m₂ ps = (r ++ [(m₁, ps[i].1)]) ++ (m₂, ps[i].2) :: r' := by
    rw [hrow, List.append_assoc]
    rfl
  have hfit := fit_pairRow.2 h.fits
  constructor
  · have hshow := shows_cells 0 linkWord (2 ^ 30) (by rwa [hrow] at hfit) (by rwa [width_cons]) rest
    rwa [← hrow, outs_pairRow, hwidth] at hshow
  · have hshow := shows_cells 0 linkWord (2 ^ 30) (by rwa [hrow'] at hfit) ?_ rest
    · rw [← hrow', outs_pairRow, width_append, hwidth, width_cons, width_nil, Nat.add_zero] at hshow
      rwa [List.drop_drop]
    · rw [outs_append, outs_cons, outs_nil, List.append_nil, List.length_append]
      exact h₂

/-- The keys and values of a map that are out of line are near enough if the map is. -/
theorem IsMap.near {m₁ m₂ : ℕ} {index : List UInt8} {ps : List (Piece UInt32 × Piece UInt32)}
    {w rest : List UInt32} (h : IsMap m₁ m₂ index ps w) (hn : Near w rest) (hindex : index ≠ [])
    {p : Piece UInt32} (hp : p ∈ flat ps) (ho : p.outer ≠ []) :
    (outers (flat ps)).length + rest.length < 2 ^ 30 := by
  have hlen := length_mapWords m₁ m₂ index h.fits
  rw [← h.eq] at hlen
  rcases hn with hn | hn
  · obtain ⟨q, hq, hpq⟩ := List.mem_flatMap.1 hp
    have hle : p.outer.length ≤ (outers (flat ps)).length := by
      rw [outers, List.length_flatMap]
      exact List.single_le_sum (fun _ _ => Nat.zero_le _) _ (List.mem_map.2 ⟨_, hp, rfl⟩)
    have hm := Nat.le_mul_of_pos_right (m₁ + m₂) (List.length_pos_of_mem hq)
    have h₁ := h.pos₁
    have h₂ := h.pos₂
    have hl : 1 < p.outer.length := by
      cases p with
      | inl ws => exact absurd rfl ho
      | out ws =>
        rcases List.mem_pair.1 hpq with hpq | hpq
        · exact h₁.trans_lt ((h.long q hq).1 ws hpq.symm)
        · exact h₂.trans_lt ((h.long q hq).2 ws hpq.symm)
    have : 1 ≤ wordSize index.length := by
      have := List.length_pos_iff.2 hindex
      rw [wordSize]
      omega
    omega
  · omega

/-! ## The map that is read -/

/-- A field whose cell shows words that are as `K` says; of a buffer with an end, not
    too far from it. -/
def Cell (b : Bool) (c : Option ℕ) (f : Field) (K : List UInt32 → Prop) : Prop :=
  ∃ (v : List UInt32) (M : ℕ) (p : Piece UInt32), f.ptr = .at v ∧
    Shows 0 linkWord (2 ^ 30) M f.width v p ∧ (b = true → p.outer ≠ [] → M < 2 ^ 30) ∧
    p.Fits f.width ∧ f.width ≤ 3 ∧ InColumn c f.width p ∧ K p.words

/-- A map with these pairs in its slots, in this order. -/
structure MapView.Holds (hash : List UInt8 → UInt32 → V128) {κ β : Type} (keyBytes : κ → List UInt8)
    (b : Bool) (c₁ c₂ : Option ℕ) (K : κ → List UInt32 → Prop) (V : β → List UInt32 → Prop)
    (m : MapView) (slots : List (κ × β)) (pos : List UInt8 → ℕ) : Prop where
  size : m.index.size = .ok slots.length
  locate : ∀ key, m.index.locate hash key = .ok (pos key)
  pos : ∀ i (hi : i < slots.length), pos (keyBytes slots[i].1) = i
  cells : ∃ body, m.body = .at body ∧ ∀ i (hi : i < slots.length),
    let fields := pairAt m (.at (body.drop ((m.keyWidth + m.valueWidth) * i)))
    Cell b c₁ fields.1 (K slots[i].1) ∧ Cell b c₂ fields.2 (V slots[i].2)

variable {κ β : Type} {hash : List UInt8 → UInt32 → V128} {keyBytes : κ → List UInt8} {b : Bool}
  {c₁ c₂ : Option ℕ} {K : κ → List UInt32 → Prop} {V : β → List UInt32 → Prop}

/-- A map that was written holds its pairs, in some order. -/
theorem IsMapOf.holds {pairs : List (κ × β)} {w rest : List UInt32}
    (h : IsMapOf hash keyBytes c₁ c₂ K V pairs w) (hnear : b = true → Near w rest) :
    ∃ m slots pos, openMap b (.at (w ++ rest)) = .ok m ∧ slots.Perm pairs ∧
      m.Holds hash keyBytes b c₁ c₂ K V slots pos := by
  obtain ⟨index, pos, slots, qs, m₁, m₂, hperm, hkeyed, hpos, hmap, hall⟩ := h
  have hlen := hall.length_eq
  have hkeys : (pairs.map fun p => keyBytes p.1).length = qs.length := by
    rw [List.length_map, ← hperm.length_eq, hlen]
  have hindex : index ≠ [] := by
    obtain ⟨obj, body, hnum⟩ := hkeyed.numbers
    rw [hnum.data_eq]
    exact List.append_ne_nil_of_left_ne_nil (List.cons_ne_nil _ _) _
  obtain ⟨ph, hopen, hsize, hlocate⟩ := openMap_eq hmap hkeyed hkeys b hnear
  refine ⟨_, slots, pos, hopen, hperm, hlen ▸ hsize, hlocate, hpos, _, rfl, fun i hi => ?_⟩
  have hi' : i < qs.length := hlen ▸ hi
  obtain ⟨hshow₁, hshow₂⟩ := hmap.shows rest hi'
  obtain ⟨⟨hK, hin₁⟩, hV, hin₂⟩ := hall.get hi hi'
  have hmem : ∀ p ∈ [qs[i].1, qs[i].2], p ∈ flat qs := fun p hp =>
    List.mem_flatMap.2 ⟨qs[i], List.getElem_mem hi', hp⟩
  obtain ⟨hfit₁, hfit₂⟩ := hmap.fits qs[i] (List.getElem_mem hi')
  exact ⟨⟨_, _, _, rfl, hshow₁, fun hb => hmap.near (hnear hb) hindex (hmem _ List.mem_cons_self),
      hfit₁, hmap.le₁, hin₁, hK⟩, ⟨_, _, _, rfl, hshow₂, fun hb =>
      hmap.near (hnear hb) hindex (hmem _ (.tail _ List.mem_cons_self)), hfit₂, hmap.le₂, hin₂, hV⟩⟩

/-- The words of a map are near the end of a buffer which they make up. -/
theorem IsMapOf.near {pairs : List (κ × β)} {w rest : List UInt32}
    (h : IsMapOf hash keyBytes c₁ c₂ K V pairs w) (hend : rest = [] ∨ (w ++ rest).length < 2 ^ 30) :
    Near w rest := by
  obtain ⟨index, pos, slots, qs, m₁, m₂, -, -, -, hmap, -⟩ := h
  refine .inr ?_
  rw [← List.length_append]
  rcases hend with rfl | hlt
  · rw [List.append_nil, hmap.eq, length_mapWords _ _ _ hmap.fits]
    exact hmap.size
  · exact hlt

namespace MapView.Holds

variable {m : MapView} {slots : List (κ × β)} {pos : List UInt8 → ℕ}

/-- The loop over a map meets its pairs in order. -/
theorem forEach_eq {α : Type} {R : α → κ × β → Prop} {f : Field × Field → Res α}
    (h : m.Holds hash keyBytes b c₁ c₂ K V slots pos)
    (hf : ∀ slot ∈ slots, ∀ fields : Field × Field, Cell b c₁ fields.1 (K slot.1) →
      Cell b c₂ fields.2 (V slot.2) → ∃ a, f fields = .ok a ∧ R a slot) :
    ∃ as, m.forEach f = .ok as ∧ List.Forall₂ R as slots := by
  obtain ⟨body, hbody, hcells⟩ := h.cells
  obtain ⟨as, has, hr⟩ := forCells_eq (R := R) (f := fun c => f (pairAt m c.ptr))
    (W := m.keyWidth + m.valueWidth) (v := body) fun i (hi : i < slots.length) =>
      hf _ (List.getElem_mem hi) _ (hcells i hi).1 (hcells i hi).2
  exact ⟨as, by rw [MapView.forEach, h.size, Res.ok_bind, hbody, has], hr⟩

/-- The pairs of a map have distinct keys. -/
theorem eq_of_key (h : m.Holds hash keyBytes b c₁ c₂ K V slots pos) {slot slot' : κ × β}
    (hs : slot ∈ slots) (hs' : slot' ∈ slots) (hk : slot.1 = slot'.1) : slot = slot' := by
  obtain ⟨i, hi, rfl⟩ := List.getElem_of_mem hs
  obtain ⟨j, hj, rfl⟩ := List.getElem_of_mem hs'
  obtain rfl : i = j := by rw [← h.pos i hi, ← h.pos j hj, hk]
  rfl

theorem nodup (h : m.Holds hash keyBytes b c₁ c₂ K V slots pos) : (slots.map Prod.fst).Nodup := by
  refine List.nodup_iff_injective_getElem.2 fun i j hij => ?_
  have hi : i.1 < slots.length := by simpa using i.2
  have hj : j.1 < slots.length := by simpa using j.2
  have hk : slots[i.1].1 = slots[j.1].1 := by simpa using hij
  exact Fin.ext (by rw [← h.pos i.1 hi, ← h.pos j.1 hj, hk])

/-- The key of a pair is in its cell. -/
theorem key_words (h : m.Holds hash keyBytes b c₁ c₂ K V slots pos) {slot : κ × β}
    (hs : slot ∈ slots) : ∃ ws, K slot.1 ws := by
  obtain ⟨i, hi, rfl⟩ := List.getElem_of_mem hs
  obtain ⟨body, -, hcells⟩ := h.cells
  obtain ⟨-, -, p, -, -, -, -, -, -, hK⟩ := (hcells i hi).1
  exact ⟨_, hK⟩

/-- Finding a key that `same` tells from the keys of the map. -/
theorem findWith_eq {key : κ} {same : Field → Res Bool}
    (h : m.Holds hash keyBytes b c₁ c₂ K V slots pos)
    (hsame : ∀ slot ∈ slots, ∀ f, Cell b c₁ f (K slot.1) → ∃ r,
      same f = .ok r ∧ (r = true ↔ slot.1 = key)) :
    (∃ slot ∈ slots, slot.1 = key ∧ ∃ fields,
      m.findWith hash (keyBytes key) same = .ok (some fields) ∧
        Cell b c₁ fields.1 (K slot.1) ∧ Cell b c₂ fields.2 (V slot.2)) ∨
      (∀ slot ∈ slots, slot.1 ≠ key) ∧ m.findWith hash (keyBytes key) same = .ok none := by
  obtain ⟨body, hbody, hcells⟩ := h.cells
  rw [MapView.findWith, h.locate, Res.ok_bind, h.size, Res.ok_bind]
  -- A key of the map is the key of the slot that it is at.
  have hown : ∀ slot ∈ slots, slot.1 = key → ∃ hi : pos (keyBytes key) < slots.length,
      slots[pos (keyBytes key)] = slot := by
    rintro slot hslot rfl
    obtain ⟨i, hi, rfl⟩ := List.getElem_of_mem hslot
    have hp := h.pos i hi
    simp only [hp]
    exact ⟨hi, trivial⟩
  by_cases hge : pos (keyBytes key) ≥ slots.length
  · rw [if_pos hge]
    refine .inr ⟨fun slot hslot hk => ?_, rfl⟩
    obtain ⟨hi, -⟩ := hown slot hslot hk
    omega
  · rw [if_neg hge]
    have hi : pos (keyBytes key) < slots.length := Nat.lt_of_not_le hge
    have hmem := List.getElem_mem hi
    obtain ⟨hc₁, hc₂⟩ := hcells _ hi
    obtain ⟨r, hr, hiff⟩ := hsame _ hmem _ hc₁
    dsimp only
    rw [hbody, Ptr.add, hr, Res.ok_bind]
    cases r with
    | true => exact .inl ⟨_, hmem, hiff.1 rfl, _, rfl, hc₁, hc₂⟩
    | false =>
      refine .inr ⟨fun slot hslot hk => ?_, rfl⟩
      obtain ⟨hi', heq⟩ := hown slot hslot hk
      exact Bool.false_ne_true (hiff.2 (heq ▸ hk))

end MapView.Holds

/-! ## Keys and values -/

/-- An object that a writer has made: an alias message without elements is one word that
    is not in the buffer. -/
structure Object where
  words : List UInt32
  isObject : IsObject words
  lt : words.length < 2 ^ 31
  folded : Bool
  single : folded = true → words.length = 1

/-- The types of the values of a map. -/
inductive Kind
  | w32 | w64 | bool | str | object
  deriving DecidableEq

/-- The types of the keys of a map: strings, and numbers of 32 and of 64 bits. There are no
    others. -/
inductive KeyKind
  | w32 | w64 | str
  deriving DecidableEq

namespace Kind

/-- The values of a type. -/
abbrev Val : Kind → Type
  | w32 => UInt32
  | w64 => UInt64
  | bool => Bool
  | str => List UInt8
  | object => Object

/-- Writing a value. -/
def put : (k : Kind) → k.Val → Buffer → Res (Unit × Buffer)
  | w32, x, buf => .ok (serialize32 x, buf)
  | w64, x, buf => .ok (serialize64 x, buf)
  | bool, x, buf => .ok (serializeBool x, buf)
  | str, s, buf => serializeString s buf
  | object, o, buf =>
    if o.folded then .ok ({ len := 1, d₀ := o.words.headD 0 }, buf)
    else .ok (segment buf.length (o.words.length + buf.length), o.words ++ buf)

/-- What is read at a field is a value: the object of an `Object` is what stands from its
    words on. -/
def Shown (b : Bool) (f : Field) : (k : Kind) → k.Val → Prop
  | w32, x => f.get32 b = .ok x
  | w64, x => f.get64 b = .ok x
  | bool, x => f.getBool b = .ok x
  | str, s => ∃ slice, f.getString b = .ok (some slice) ∧ ByteSlice.get (some slice) = .ok s
  | object, o => ∃ tail, f.getObject b = .ok (.at (o.words ++ tail))

/-- The pieces of the values of a type. -/
def shape : Kind → Option ℕ
  | w32 => some 1
  | w64 => some 2
  | bool => some 1
  | str => none
  | object => none

/-- The words of a value. -/
def Spelled : (k : Kind) → k.Val → List UInt32 → Prop
  | w32, x, ws => ws = [x]
  | w64, x, ws => ws = [x.toUInt32, (x >>> 32).toUInt32]
  | bool, x, ws => ws = [if x then 1 else 0]
  | str, s, ws => s.length < 2 ^ 30 ∧ ws = stringWords s
  | object, o, ws => ws = o.words

theorem put_wrote {k : Kind} {x : k.Val} {B : Buffer} {r : Unit × Buffer} (h : k.put x B = .ok r) :
    Wrote k.shape B r fun p => k.Spelled x p.words := by
  cases k with
  | w32 => cases h; exact (serialize32_wrote x B).imp fun p _ hp => by rw [hp]; rfl
  | w64 => cases h; exact (serialize64_wrote x B).imp fun p _ hp => by rw [hp]; rfl
  | bool => cases h; exact (serializeBool_wrote x B).imp fun p _ hp => by rw [hp]; rfl
  | str =>
    obtain ⟨hlt, hw⟩ := serializeString_wrote h
    exact hw.imp fun p _ hp => ⟨hlt, hp⟩
  | object =>
    obtain ⟨ws, ho, hlt, folded, hsingle⟩ := x
    obtain ⟨w, tail, rfl, hmark⟩ := ho
    cases folded with
    | true =>
      cases h
      obtain rfl : tail = [] := List.length_eq_zero_iff.1 (by simpa using hsingle rfl)
      have hw : Wrote (some [w].length) B ({ len := 1, d₀ := w }, B) fun p => p.words = [w] :=
        wrote_inl [w] rfl rfl (List.cons_ne_nil _ _) rfl
      exact hw.weaken
    | false =>
      cases h
      exact wrote_out _ (List.cons_ne_nil _ _) hlt fun _ => rfl

/-- A cell of a value shows the value. -/
theorem shown {k : Kind} {x : k.Val} {f : Field} (h : Cell b k.shape f (k.Spelled x)) :
    k.Shown b f x := by
  obtain ⟨v, M, p, hf, hshow, -, hfit, hm, hin, hx⟩ := h
  obtain ⟨ptr, m⟩ := f
  obtain rfl : ptr = .at v := hf
  cases k with
  | w32 =>
    obtain ⟨rfl, ws, rfl, -⟩ := hin 1 rfl
    obtain rfl : ws = [x] := hx
    exact get32_eq b hshow
  | w64 =>
    obtain ⟨rfl, ws, rfl, -⟩ := hin 2 rfl
    obtain rfl : ws = [x.toUInt32, (x >>> 32).toUInt32] := hx
    exact get64_eq b hshow
  | bool =>
    obtain ⟨rfl, ws, rfl, -⟩ := hin 1 rfl
    obtain rfl : ws = [if x then 1 else 0] := hx
    exact getBool_eq b hshow
  | str =>
    obtain ⟨s, hs, -, hget⟩ := getString_eq hx.1 hx.2 m b hshow hfit hm (isObject_stringWords x)
    exact ⟨s, hs, hget⟩
  | object =>
    have hw : p.words = x.words := hx
    obtain ⟨tail, hobj, -⟩ := getObject_eq m b hshow hfit hm (hw ▸ x.isObject)
    exact ⟨tail, hw ▸ hobj⟩

end Kind

namespace KeyKind

/-- The type of the keys, among those of the values. -/
abbrev kind : KeyKind → Kind
  | w32 => .w32
  | w64 => .w64
  | str => .str

/-- The bytes of a key that are hashed. -/
def bytes : (k : KeyKind) → k.kind.Val → List UInt8
  | w32, x => wordBytes x
  | w64, x => toLE 8 x.toNat
  | str, s => s

/-- What `Map::Find` looks up for a key: of a string it passes the length on in 32 bits. -/
def cut : (k : KeyKind) → k.kind.Val → k.kind.Val
  | w32, x => x
  | w64, x => x
  | str, s => s.take (s.length % 2 ^ 32)

/-- A key that can be written is looked up as it is. -/
theorem cut_eq {k : KeyKind} {key : k.kind.Val} {ws : List UInt32} (h : k.kind.Spelled key ws) :
    k.cut key = key := by
  cases k with
  | w32 => rfl
  | w64 => rfl
  | str =>
    have hlt : List.length key < 2 ^ 30 := h.1
    change List.take (List.length key % 2 ^ 32) key = key
    rw [Nat.mod_eq_of_lt (by omega), List.take_length]

/-- `Map::Find`. -/
def find (hash : List UInt8 → UInt32 → V128) (m : MapView) (b : Bool) :
    (k : KeyKind) → k.kind.Val → Res (Option (Field × Field))
  | w32, x => m.find32 hash b x
  | w64, x => m.find64 hash b x
  | str, s => m.findString hash b s

/-- The comparison in `Map::Find` of a key with that of the pair at its position. -/
def same (b : Bool) : (k : KeyKind) → k.kind.Val → Field → Res Bool
  | w32, x, f => do
    let view := f.getValue b
    if view.2 ≠ 1 then return false else return (← view.1.load) = x
  | w64, x, f => do
    let view := f.getValue b
    if view.2 ≠ 2 then return false else return (← f.get64 b) = x
  | str, s, f => do
    match ← f.getString b with
    | none => return false
    | some view =>
      if view.size ≠ s.length then return false
      else return (← ByteSlice.get (some view)) = s

theorem find_eq_findWith (hash : List UInt8 → UInt32 → V128) (m : MapView) (b : Bool) (k : KeyKind)
    (key : k.kind.Val) :
    k.find hash m b key = m.findWith hash (k.bytes (k.cut key)) (k.same b (k.cut key)) := by
  cases k <;> rfl

/-- The comparison with the key of a pair. -/
theorem same_eq {k : KeyKind} {b : Bool} {f : Field} {x : k.kind.Val} (key : k.kind.Val)
    (h : Cell b k.kind.shape f (k.kind.Spelled x)) :
    ∃ r, k.same b key f = .ok r ∧ (r = true ↔ x = key) := by
  obtain ⟨v, M, p, hf, hshow, -, hfit, hm, hin, hx⟩ := h
  obtain ⟨ptr, m⟩ := f
  obtain rfl : ptr = .at v := hf
  cases k with
  | w32 =>
    obtain ⟨rfl, ws, rfl, -⟩ := hin 1 rfl
    obtain rfl : ws = [x] := hx
    obtain ⟨tail, rfl, hval⟩ := getValue_eq b [x] hshow
    refine ⟨decide (x = key), ?_, decide_eq_true_iff⟩
    rw [same, show (1 : ℕ) = [x].length from rfl, hval]
    rfl
  | w64 =>
    obtain ⟨rfl, ws, rfl, -⟩ := hin 2 rfl
    obtain rfl : ws = [x.toUInt32, (x >>> 32).toUInt32] := hx
    obtain ⟨tail, hv, hval⟩ := getValue_eq b [x.toUInt32, (x >>> 32).toUInt32] hshow
    refine ⟨decide (x = key), ?_, decide_eq_true_iff⟩
    rw [same, get64_eq b hshow, show (2 : ℕ) = [x.toUInt32, (x >>> 32).toUInt32].length from
      rfl, hval]
    rfl
  | str =>
    obtain ⟨s, hs, hsize, hget⟩ :=
      getString_eq hx.1 hx.2 m b hshow hfit hm (isObject_stringWords _)
    rw [same, hs, Res.ok_bind]
    dsimp only
    rw [hsize]
    by_cases hlen : List.length x ≠ List.length key
    · rw [if_pos hlen]
      exact ⟨false, rfl, fun h => absurd h Bool.false_ne_true, fun h => absurd (h ▸ rfl) hlen⟩
    · rw [if_neg hlen, hget]
      exact ⟨decide (x = key), rfl, decide_eq_true_iff⟩

/-- Finding a key of a map: what is found is the pair of the key that is looked up. -/
theorem find_eq {k : KeyKind} {β : Type} {hash : List UInt8 → UInt32 → V128} {b : Bool}
    {c : Option ℕ} {V : β → List UInt32 → Prop} {m : MapView} {slots : List (k.kind.Val × β)}
    {pos : List UInt8 → ℕ} (h : m.Holds hash k.bytes b k.kind.shape c k.kind.Spelled V slots pos)
    (key : k.kind.Val) :
    (∃ slot ∈ slots, slot.1 = k.cut key ∧ ∃ fields, k.find hash m b key = .ok (some fields) ∧
        Cell b k.kind.shape fields.1 (k.kind.Spelled slot.1) ∧ Cell b c fields.2 (V slot.2)) ∨
      (∀ slot ∈ slots, slot.1 ≠ k.cut key) ∧ k.find hash m b key = .ok none := by
  rw [find_eq_findWith]
  exact h.findWith_eq fun slot _ f hc => same_eq _ hc

end KeyKind

/-! ## Writing and reading back -/

theorem Unit.On.words_eq {u : Unit} {p : Piece UInt32} {B : Buffer} (h : u.On B.length p)
    (hne : p.words ≠ []) (hlt : (p.outer ++ B).length < 2 ^ 32) :
    u.words (p.outer ++ B) = p.words := by
  obtain ⟨hsized, hpos⟩ := h
  rw [Unit.words]
  cases p with
  | inl ws =>
    obtain ⟨hlen, hdata, -⟩ := hsized
    rw [if_neg (by rw [hlen]; exact fun h => hne (List.length_eq_zero_iff.1 h)), hdata]
    rfl
  | out ws =>
    obtain ⟨hlen, hseg, hne'⟩ := hsized
    rw [if_pos hlen, hseg, hpos hne', UInt32.toNat_ofNat',
      Nat.mod_eq_of_lt (by simpa [Nat.add_comm] using hlt), List.length_append, Nat.add_comm,
      Nat.sub_self, List.drop_zero]
    exact List.take_left

/-- What is expected of a map of these pairs: it has as many, the loop over it meets
    each of them once, they are found by their keys, and `key`, if it is not one of
    these, is not found. -/
structure MapView.Reads (hash : List UInt8 → UInt32 → V128) (k : KeyKind) (t : Kind)
    (pairs : List (k.kind.Val × t.Val)) (b : Bool) (key : k.kind.Val) (m : MapView) : Prop where
  size : m.index.size = .ok pairs.length
  each : ∃ fields slots, m.forEach .ok = .ok fields ∧ slots.Perm pairs ∧
    List.Forall₂ (fun f slot => k.kind.Shown b f.1 slot.1 ∧ t.Shown b f.2 slot.2) fields slots
  found : ∀ pair ∈ pairs, ∃ f, k.find hash m b pair.1 = .ok (some f) ∧ k.kind.Shown b f.1 pair.1 ∧
    t.Shown b f.2 pair.2
  other : (∀ pair ∈ pairs, pair.1 ≠ key) → k.find hash m b key = .ok none

section

variable {k : KeyKind} {t : Kind} {pairs : List (k.kind.Val × t.Val)} {seeds : ℕ → UInt32}
  {buf out : Buffer} {u : Unit} {rest : List UInt32}

/-- The words of a map that was written. -/
theorem written_words
    (h : serializeMapFieldByKey hash seeds k.bytes k.kind.put (fun _ => t.put) pairs buf =
      .ok (u, out)) (hbuf : buf.length < 2 ^ 31) :
    IsMapOf hash k.bytes k.kind.shape t.shape k.kind.Spelled t.Spelled pairs (u.words out) := by
  obtain ⟨p, rfl, hon, hne, hlt, -, hmap⟩ := serializeMapFieldByKey_spec
    (fun _ _ _ _ h => Kind.put_wrote h) (fun _ _ _ _ _ h => Kind.put_wrote h) h
  have hle : p.outer.length ≤ p.words.length := by cases p <;> simp [Piece.outer, Piece.words]
  rw [hon.words_eq hne (by rw [List.length_append]; omega)]
  exact hmap (by omega)

/-- The map is read with its pairs, and a key is found if what is looked up for it is the
    key of a pair. -/
theorem written_reads
    (h : serializeMapFieldByKey hash seeds k.bytes k.kind.put (fun _ => t.put) pairs buf =
      .ok (u, out)) (hbuf : buf.length < 2 ^ 31)
    (hend : b = true → rest = [] ∨ (u.words out ++ rest).length < 2 ^ 30) (key : k.kind.Val) :
    ∃ m, openMap b (.at (u.words out ++ rest)) = .ok m ∧
      ((∀ pair ∈ pairs, pair.1 ≠ k.cut key) → m.Reads hash k t pairs b key) ∧
      ((∃ pair ∈ pairs, pair.1 = key) → m.Reads hash k t pairs b key) ∧
      ((∃ pair ∈ pairs, pair.1 = k.cut key) → ∃ f, k.find hash m b key = .ok (some f)) := by
  have hmap := written_words h hbuf
  obtain ⟨m, slots, pos, hopen, hperm, hholds⟩ := hmap.holds fun hb => hmap.near (hend hb)
  -- What is left to show is that a key which is not in the map is not found.
  have hreads : ((∀ pair ∈ pairs, pair.1 ≠ key) → k.find hash m b key = .ok none) →
      m.Reads hash k t pairs b key := fun hother => by
    refine ⟨hperm.length_eq ▸ hholds.size, ?_, fun pair hpair => ?_, hother⟩
    · obtain ⟨fields, hfields, hr⟩ := hholds.forEach_eq (f := .ok)
        (R := fun f slot => k.kind.Shown b f.1 slot.1 ∧ t.Shown b f.2 slot.2)
        fun slot _ f h₁ h₂ => ⟨f, rfl, Kind.shown h₁, Kind.shown h₂⟩
      exact ⟨fields, slots, hfields, hperm, hr⟩
    · have hslot := hperm.mem_iff.2 hpair
      obtain ⟨ws, hws⟩ := hholds.key_words hslot
      rcases KeyKind.find_eq hholds pair.1 with ⟨slot, hs, hk, f, hf, h₁, h₂⟩ | ⟨hnot, -⟩
      · rw [KeyKind.cut_eq hws] at hk
        cases hholds.eq_of_key hs hslot hk
        exact ⟨f, hf, Kind.shown h₁, Kind.shown h₂⟩
      · exact absurd (KeyKind.cut_eq hws).symm (hnot pair hslot)
  refine ⟨m, hopen, fun hnot => hreads fun _ => ?_,
    fun ⟨pair, hpair, hk⟩ => hreads fun hnot => ?_, ?_⟩
  · rcases KeyKind.find_eq hholds key with ⟨slot, hslot, hk, -⟩ | ⟨-, hnone⟩
    · exact absurd hk (hnot slot (hperm.mem_iff.1 hslot))
    · exact hnone
  · exact absurd hk (hnot pair hpair)
  · rintro ⟨pair, hpair, hk⟩
    rcases KeyKind.find_eq hholds key with ⟨-, -, -, f, hf, -⟩ | ⟨hnot, -⟩
    · exact ⟨f, hf⟩
    · exact absurd hk (hnot pair (hperm.mem_iff.2 hpair))

/-- A map that was written reads back, on any buffer and under any hash, and does so for
    the key of a pair, and for another key unless `Map::Find` looks up the key of a pair
    for it. -/
theorem reads_iff (hash : List UInt8 → UInt32 → V128) (seeds : ℕ → UInt32) (k : KeyKind) (t : Kind)
    (pairs : List (k.kind.Val × t.Val)) (buf out : Buffer) (u : Unit) (b : Bool)
    (rest : List UInt32) (key : k.kind.Val)
    (h : serializeMapFieldByKey hash seeds k.bytes k.kind.put (fun _ => t.put) pairs buf =
      .ok (u, out)) (hbuf : buf.length < 2 ^ 31)
    (hend : b = true → rest = [] ∨ (u.words out ++ rest).length < 2 ^ 30) :
    (∃ m, openMap b (.at (u.words out ++ rest)) = .ok m ∧ m.Reads hash k t pairs b key) ↔
      (∃ pair ∈ pairs, pair.1 = key) ∨ ∀ pair ∈ pairs, pair.1 ≠ k.cut key := by
  obtain ⟨m, hopen, hother, hkey, hcut⟩ := written_reads h hbuf hend key
  constructor
  · rintro ⟨m', hopen', hreads⟩
    obtain rfl : m = m' := Except.ok.inj (hopen.symm.trans hopen')
    by_contra hnot
    rw [not_or] at hnot
    push Not at hnot
    obtain ⟨f, hf⟩ := hcut hnot.2
    rw [hreads.other fun pair hpair hk => hnot.1 pair hpair hk] at hf
    cases hf
  · rintro (hpair | hnot)
    · exact ⟨m, hopen, hkey hpair⟩
    · exact ⟨m, hopen, hother hnot⟩

end

/-- Two pairs, under a hash that reads the first byte; a third key is not found. -/
theorem reads_iff_two :
    (∃ m, openMap true
      (.at ([0x60000002, 0, 0xffffffc3, 0xffffffff, 0x0104, 10, 0, 0x0204, 20, 0] ++ [])) = .ok m ∧
      m.Reads
        (fun key _ => ⟨(key.headD 0).toUInt32, (key.headD 0).toUInt32, (key.headD 0).toUInt32, 0⟩)
        .str .w64 [([1], 10), ([2], 20)] true [3]) ↔
      (∃ pair ∈ ([([1], 10), ([2], 20)] : List (List UInt8 × UInt64)), pair.1 = [3]) ∨
        ∀ pair ∈ ([([1], 10), ([2], 20)] : List (List UInt8 × UInt64)),
          pair.1 ≠ KeyKind.cut .str [3] :=
  reads_iff
    (fun key _ => ⟨(key.headD 0).toUInt32, (key.headD 0).toUInt32, (key.headD 0).toUInt32, 0⟩)
    (fun _ => 0) .str .w64 [([1], 10), ([2], 20)] []
    [0x60000002, 0, 0xffffffc3, 0xffffffff, 0x0104, 10, 0, 0x0204, 20, 0]
      { d₀ := 10, d₁ := 10 } true []
    [3] (by decide +kernel) (by decide) (fun _ => .inl rfl)

/-- The empty string and a number: what is looked up for a string of `2 ^ 32` bytes is
    the empty string. -/
theorem not_reads_long :
    ∃ u out, serializeMapFieldByKey (fun _ _ => ⟨0, 0, 0, 0⟩) (fun _ => 0) (KeyKind.bytes .str)
      (Kind.put .str)
        (fun _ => Kind.put .w32) [([], 7)] [] = .ok (u, out) ∧
      ¬∃ m, openMap true (.at (u.words out)) = .ok m ∧
        m.Reads (fun _ _ => ⟨0, 0, 0, 0⟩) .str .w32 [([], 7)] true (List.replicate (2 ^ 32) 0) := by
  have hwrite : serializeMapFieldByKey (fun _ _ => ⟨0, 0, 0, 0⟩) (fun _ => 0) (KeyKind.bytes .str)
      (KeyKind.str.kind.put) (fun _ => Kind.w32.put) [([], 7)] [] =
        .ok ({ d₀ := 3, d₁ := 3 }, [0x50000001, 0, 7]) := by decide +kernel
  refine ⟨_, _, hwrite, ?_⟩
  rintro ⟨m', hopen', hreads⟩
  obtain ⟨m, hopen, -, -, hcut⟩ := written_reads hwrite (by decide) (fun _ => .inl rfl)
    (List.replicate (2 ^ 32) 0)
  rw [List.append_nil] at hopen
  obtain rfl : m = m' := Except.ok.inj (hopen.symm.trans hopen')
  obtain ⟨f, hf⟩ := hcut ⟨_, List.mem_singleton_self _, by
    rw [KeyKind.cut, List.length_replicate, Nat.mod_self, List.take_zero]⟩
  rw [hreads.other fun pair hpair hk => ?_] at hf
  · cases hf
  · rw [List.mem_singleton.1 hpair] at hk
    exact absurd (congrArg List.length hk) (by rw [List.length_replicate]; decide)

end ProtoCache

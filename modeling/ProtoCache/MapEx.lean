import ProtoCache.MapFind
import ProtoCache.Serialize.Nil

/-!
# Maps that were kept in memory

`MapEX` of `include/protocache/access-ex.h`: the pairs of a map, read from a buffer or
emplaced one by one, and written to a buffer. A Boolean is kept as a byte, and written as
a scalar of less than a word: for such a value nothing is written, and what is read in its
place is a byte of a link.

* `mapEX_reads_iff`: what is written reads back, with the same value for each key, unless
  it is a map of Booleans with a pair.
-/

namespace ProtoCache

open Row LittleEndian

/-! ## Values and keys -/

/-- `ScalarField::Get` of a Boolean, without asking whether the byte is one of a Boolean. -/
def Field.getByte (b : Bool) (f : Field) : Res UInt8 :=
  let view := f.getValue b
  if view.2 ≠ 1 then .ok 0
  else do
    let w ← view.1.load
    return w.toUInt8

/-- The template `Serialize` for a scalar of `size` bytes, of which the unit has as many words
    as fit in them. -/
def serializeScalar (size : ℕ) (v : UInt64) : Unit :=
  { len := size / 4, d₀ := v.toUInt32, d₁ := (v >>> 32).toUInt32 }

namespace Kind

/-- `Adapter<T>::TypeEX`, as which a value is kept; a message is kept by a pointer. -/
abbrev ValEX : Kind → Type
  | w32 => UInt32
  | w64 => UInt64
  | bool => UInt8
  | str => List UInt8
  | object => Option Object

/-- `Serialize` of a value. -/
def putEX : (t : Kind) → t.ValEX → Buffer → Res (Unit × Buffer)
  | w32, x, buf => .ok (serializeScalar 4 x.toUInt64, buf)
  | w64, x, buf => .ok (serializeScalar 8 x, buf)
  | bool, x, buf => .ok (serializeScalar 1 x.toUInt64, buf)
  | str, s, buf => serializeString s buf
  | object, none, _ => .error .reject
  | object, some o, buf => put object o buf

/-- What `MapEX::Extract` gives; of a container or a message, where it is. -/
abbrev ReadEX : Kind → Type
  | w32 => UInt32
  | w64 => UInt64
  | bool => UInt8
  | str => List UInt8
  | object => Ptr

/-- `MapEX::Extract` of a value; of a Boolean, the byte that is there. -/
def extract (b : Bool) : (t : Kind) → Field → Res t.ReadEX
  | w32, f => f.get32 b
  | w64, f => f.get64 b
  | bool, f => f.getByte b
  | str, f => do ByteSlice.get (← f.getString b)
  | object, f => f.getObject b

/-- What was extracted is the value that was kept; of a Boolean, it is one of the bytes that
    Booleans have. -/
def SameEX : (t : Kind) → t.ReadEX → t.ValEX → Prop
  | w32, y, x => y = x
  | w64, y, x => y = x
  | bool, y, x => y = x ∧ y ≤ 1
  | str, y, x => y = x
  | object, p, v => ∃ o tail, v = some o ∧ p = .at (o.words ++ tail)

/-- `MapT` reads the value that was kept. -/
def ShownEX (b : Bool) (f : Field) : (t : Kind) → t.ValEX → Prop
  | w32, x => w32.Shown b f x
  | w64, x => w64.Shown b f x
  | bool, x => bool.Shown b f (decide (x ≠ 0))
  | str, s => str.Shown b f s
  | object, v => ∃ o, v = some o ∧ object.Shown b f o

/-- The words in the cell of a value: of a Boolean, those of a link. -/
def SpelledEX : (t : Kind) → t.ValEX → List UInt32 → Prop
  | w32, x, ws => w32.Spelled x ws
  | w64, x, ws => w64.Spelled x ws
  | bool, _, ws => ∃ w : UInt32, w &&& 3 = 3 ∧ ws = [w]
  | str, s, ws => str.Spelled s ws
  | object, v, ws => ∃ o, v = some o ∧ object.Spelled o ws

end Kind

/-- `MapEX::Extract` of a key. -/
def KeyKind.extract (b : Bool) : (k : KeyKind) → Field → Res k.kind.Val
  | w32, f => f.get32 b
  | w64, f => f.get64 b
  | str, f => do ByteSlice.get (← f.getString b)

instance (k : KeyKind) : DecidableEq k.kind.Val :=
  match k with
  | .w32 => inferInstanceAs (DecidableEq UInt32)
  | .w64 => inferInstanceAs (DecidableEq UInt64)
  | .str => inferInstanceAs (DecidableEq (List UInt8))

/-! ## `MapEX` -/

/-- `emplace` keeps the pair that has the key already. -/
def emplace {κ β : Type} [DecidableEq κ] (core : List (κ × β)) (pair : κ × β) : List (κ × β) :=
  if core.any fun p => p.1 = pair.1 then core else core ++ [pair]

/-- `MapEX::MapEX`. -/
def readMapEX (k : KeyKind) (t : Kind) (b : Bool) (ptr : Ptr) :
    Res (List (k.kind.Val × t.ReadEX)) := do
  let view ← openMap b ptr
  let pairs ← view.forEach fun pair => do return (← k.extract b pair.1, ← t.extract b pair.2)
  return pairs.foldl emplace []

/-- `MapEX::Serialize`. -/
def serializeMapEX (hash : List UInt8 → UInt32 → V128) (seeds : ℕ → UInt32) (k : KeyKind) (t : Kind)
    (core : List (k.kind.Val × t.ValEX)) (buf : Buffer) : Res (Unit × Buffer) :=
  serializeMapFieldByKey hash seeds k.bytes k.kind.put (fun _ => t.putEX) core buf

/-- What `MapT` is expected to read of a map of these pairs: it has as many, the loop over it
    meets each of them once, and they are found by their keys. -/
structure MapView.ReadsEX (hash : List UInt8 → UInt32 → V128) (k : KeyKind) (t : Kind)
    (core : List (k.kind.Val × t.ValEX)) (b : Bool) (m : MapView) : Prop where
  size : m.index.size = .ok core.length
  each : ∃ fields slots, m.forEach .ok = .ok fields ∧ slots.Perm core ∧
    List.Forall₂ (fun f slot => k.kind.Shown b f.1 slot.1 ∧ t.ShownEX b f.2 slot.2) fields slots
  found : ∀ pair ∈ core, ∃ f, k.find hash m b pair.1 = .ok (some f) ∧ k.kind.Shown b f.1 pair.1 ∧
    t.ShownEX b f.2 pair.2

/-- `MapT` and `MapEX` over a map read the pairs. -/
def ReadsBack (hash : List UInt8 → UInt32 → V128) (k : KeyKind) (t : Kind)
    (core : List (k.kind.Val × t.ValEX)) (b : Bool) (ptr : Ptr) : Prop :=
  (∃ m, openMap b ptr = .ok m ∧ m.ReadsEX hash k t core b) ∧
    ∃ pairs slots, readMapEX k t b ptr = .ok pairs ∧ slots.Perm core ∧
      List.Forall₂ (fun pair slot => pair.1 = slot.1 ∧ t.SameEX pair.2 slot.2) pairs slots

/-! ## What is written -/

@[simp] theorem serializeScalar_four (x : UInt32) :
    serializeScalar 4 x.toUInt64 = serialize32 x := by
  have h₀ : x.toUInt64.toUInt32 = x := by
    rw [← UInt32.toNat_inj, UInt64.toNat_toUInt32, UInt32.toNat_toUInt64]
    exact Nat.mod_eq_of_lt x.toNat_lt
  have h₁ : (x.toUInt64 >>> 32).toUInt32 = 0 := by
    have hx := x.toNat_lt
    rw [← UInt32.toNat_inj, UInt64.toNat_toUInt32, UInt64.toNat_shiftRight, UInt32.toNat_toUInt64]
    change x.toNat >>> 32 % 2 ^ 32 = 0
    rw [Nat.shiftRight_eq_div_pow]
    omega
  rw [serializeScalar, serialize32, h₀, h₁]

@[simp] theorem serializeScalar_eight (x : UInt64) : serializeScalar 8 x = serialize64 x := rfl

/-- Nothing is written for a scalar of a byte. -/
theorem serializeScalar_one (x : UInt8) : (serializeScalar 1 x.toUInt64).IsNil := by
  refine ⟨rfl, ?_⟩
  have hx := x.toNat_lt
  rw [← UInt32.toNat_inj]
  change (x.toUInt64 >>> 32).toUInt32.toNat = 0
  rw [UInt64.toNat_toUInt32, UInt64.toNat_shiftRight, UInt8.toNat_toUInt64]
  change x.toNat >>> 32 % 2 ^ 32 = 0
  rw [Nat.shiftRight_eq_div_pow]
  omega

theorem Wrote.not_nil {c : Option ℕ} {B : Buffer} {r : Unit × Buffer} {Q : Piece UInt32 → Prop}
    (h : Wrote c B r Q) :
    ¬r.1.IsNil := by
  obtain ⟨p, -, ⟨hsized, -⟩, hne, -⟩ := h
  rw [← Unit.size_eq_zero, hsized.size_eq]
  exact fun h0 => hne (List.length_eq_zero_iff.1 h0)

theorem putEX_wrote {t : Kind} (ht : t ≠ .bool) {x : t.ValEX} {B : Buffer} {r : Unit × Buffer}
    (h : t.putEX x B = .ok r) : Wrote t.shape B r fun p => t.SpelledEX x p.words := by
  cases t with
  | w32 =>
    rw [Kind.putEX, serializeScalar_four] at h
    exact Kind.put_wrote (k := .w32) h
  | w64 => exact Kind.put_wrote (k := .w64) h
  | bool => exact absurd rfl ht
  | str => exact Kind.put_wrote (k := .str) h
  | object =>
    cases x with
    | none => cases h
    | some o => exact (Kind.put_wrote (k := .object) h).imp fun p _ hp => ⟨o, rfl, hp⟩

theorem Wrote.words {c : Option ℕ} {B out : Buffer} {u : Unit} {Q : Piece UInt32 → Prop}
    (h : Wrote c B (u, out) Q) (hB : B.length < 2 ^ 31) : ∃ p, Q p ∧ u.words out = p.words := by
  obtain ⟨p, rfl, hon, hne, hlt, -, hQ⟩ := h
  have hle : p.outer.length ≤ p.words.length := by cases p <;> simp [Piece.outer, Piece.words]
  exact ⟨p, hQ (by omega), hon.words_eq hne (by rw [List.length_append]; omega)⟩

section

variable {hash : List UInt8 → UInt32 → V128} {seeds : ℕ → UInt32} {k : KeyKind} {t : Kind}
  {core : List (k.kind.Val × t.ValEX)} {buf out : Buffer} {u : Unit} {b : Bool} {rest : List UInt32}

/-- The words of a map that was written. -/
theorem writtenEX_words (h : serializeMapEX hash seeds k t core buf = .ok (u, out))
    (hbuf : buf.length < 2 ^ 31) :
    IsMapOf hash k.bytes k.kind.shape t.shape k.kind.Spelled t.SpelledEX core (u.words out) := by
  have hkey : ∀ p ∈ core, ∀ B r, k.kind.put p.1 B = .ok r →
    Wrote k.kind.shape B r fun q => k.kind.Spelled p.1 q.words :=
    fun _ _ _ _ h => Kind.put_wrote h
  by_cases ht : t = .bool
  · subst ht
    -- Nothing is written for the values, and their cells have links.
    obtain ⟨links, hmark, h⟩ :=
      serializeMapFieldByKey_fill (fun _ _ _ h => (Kind.put_wrote h).not_nil)
      (fun p _ _ _ _ h => by cases h; exact ⟨serializeScalar_one p.2, rfl⟩) h
    have hput : ∀ p ∈ core, ∀ i B r, (fun i _ B => .ok ({ len := 1, d₀ := links i }, B) :
        ℕ → UInt8 → Buffer → Res (Unit × Buffer)) i p.2 B = .ok r →
          Wrote (some 1) B r fun q => Kind.SpelledEX .bool p.2 q.words := by
      rintro p - i B r h
      cases h
      exact wrote_inl [links i] rfl rfl (List.cons_ne_nil _ _) ⟨_, hmark i, rfl⟩
    obtain ⟨p, hmap, hp⟩ := (serializeMapFieldByKey_spec hkey hput h).words hbuf
    exact hp ▸ hmap
  · obtain ⟨p, hmap, hp⟩ :=
      (serializeMapFieldByKey_spec hkey (fun _ _ _ _ _ h => putEX_wrote ht h) h).words hbuf
    exact hp ▸ hmap

/-! ## What is read -/

/-- In the place of a Boolean, the byte of a link is read, which no Boolean has. -/
theorem getByte_link {M : ℕ} {v : List UInt32} {w : UInt32} (hw : w &&& 3 = 3)
    (h : Shows 0 linkWord (2 ^ 30) M 1 v (.inl [w])) :
    ∃ y, Field.getByte b ⟨.at v, 1⟩ = .ok y ∧ ¬y ≤ 1 := by
  obtain ⟨tail, rfl, hval⟩ := getValue_eq b [w] h
  refine ⟨w.toUInt8, ?_, fun hle => ?_⟩
  · rw [Field.getByte, show (1 : ℕ) = [w].length from rfl, hval]
    rfl
  -- The two bits that make a link are those of the byte as well.
  have hmod : w.toNat % 4 = 3 := by
    rw [← and_three, hw]
    rfl
  have hbyte : w.toUInt8.toNat ≤ 1 := hle
  rw [UInt32.toNat_toUInt8] at hbyte
  omega

/-- What is read in the cell of a value is the value, unless it is a Boolean. -/
theorem cell_extract {x : t.ValEX} {f : Field} (h : Cell b t.shape f (t.SpelledEX x)) :
    ∃ y, t.extract b f = .ok y ∧ (t.SameEX y x ↔ t ≠ .bool) ∧ (t ≠ .bool → t.ShownEX b f x) := by
  cases t with
  | w32 =>
    have hshow := Kind.shown (k := .w32) h
    exact ⟨x, hshow, iff_of_true rfl Kind.noConfusion, fun _ => hshow⟩
  | w64 =>
    have hshow := Kind.shown (k := .w64) h
    exact ⟨x, hshow, iff_of_true rfl Kind.noConfusion, fun _ => hshow⟩
  | bool =>
    obtain ⟨v, M, p, hf, hshow, -, hfit, hm, hin, w, hw, hp⟩ := h
    obtain ⟨ptr, m⟩ := f
    obtain rfl : ptr = .at v := hf
    obtain ⟨rfl, ws, rfl, -⟩ := hin 1 rfl
    obtain rfl : ws = [w] := hp
    obtain ⟨y, hy, hnot⟩ := getByte_link hw hshow
    exact ⟨y, hy, iff_of_false (fun hsame => hnot hsame.2) fun hne => hne rfl,
      fun hne => absurd rfl hne⟩
  | str =>
    have hshow := Kind.shown (k := .str) h
    obtain ⟨slice, hslice, hget⟩ := hshow
    refine ⟨x, ?_, iff_of_true rfl Kind.noConfusion, fun _ => ⟨slice, hslice, hget⟩⟩
    rw [Kind.extract, hslice]
    exact hget
  | object =>
    obtain ⟨v, M, p, hf, hshow, hM, hfit, hm, hin, o, rfl, hp⟩ := h
    have hshown := Kind.shown (k := .object) (x := o) ⟨v, M, p, hf, hshow, hM, hfit, hm, hin, hp⟩
    obtain ⟨tail, hget⟩ := hshown
    exact ⟨_, hget, iff_of_true ⟨o, tail, rfl, rfl⟩ Kind.noConfusion, fun _ => ⟨o, rfl, tail, hget⟩⟩

theorem key_extract {x : k.kind.Val} {f : Field} (h : Cell b k.kind.shape f (k.kind.Spelled x)) :
    k.extract b f = .ok x := by
  have hshow := Kind.shown h
  cases k with
  | w32 => exact hshow
  | w64 => exact hshow
  | str =>
    obtain ⟨slice, hslice, hget⟩ := hshow
    rw [KeyKind.extract, hslice]
    exact hget

/-- Pairs with distinct keys are all emplaced. -/
theorem foldl_emplace {κ β : Type} [DecidableEq κ] {pairs core : List (κ × β)}
    (h : ((core ++ pairs).map Prod.fst).Nodup) : pairs.foldl emplace core = core ++ pairs := by
  induction pairs generalizing core with
  | nil => rw [List.append_nil]; rfl
  | cons pair pairs ih =>
    have hnew : (core.any fun p => p.1 = pair.1) = false := by
      rw [List.any_eq_false]
      intro p hp hk
      rw [List.map_append, List.map_cons] at h
      exact (List.nodup_append.1 h).2.2 _ (List.mem_map_of_mem hp) _ List.mem_cons_self
        (of_decide_eq_true hk)
    rw [List.foldl_cons, emplace, if_neg (by rw [hnew]; exact Bool.false_ne_true),
      ih (by rwa [List.append_assoc]), List.append_assoc]
    rfl

/-- The map that `MapEX` reads: the keys are those that were written, each with a value that is
    the same unless it is a Boolean. -/
theorem readMapEX_eq {m : MapView} {slots : List (k.kind.Val × t.ValEX)} {pos : List UInt8 → ℕ}
    {ptr : Ptr} (hopen : openMap b ptr = .ok m)
    (h : m.Holds hash k.bytes b k.kind.shape t.shape k.kind.Spelled t.SpelledEX slots pos) :
    ∃ pairs, readMapEX k t b ptr = .ok pairs ∧
      List.Forall₂ (fun pair slot => pair.1 = slot.1 ∧ (t.SameEX pair.2 slot.2 ↔ t ≠ .bool)) pairs
        slots := by
  obtain ⟨pairs, hpairs, hall⟩ := h.forEach_eq
    (f := fun pair => do return (← k.extract b pair.1, ← t.extract b pair.2))
    (R := fun pair slot => pair.1 = slot.1 ∧ (t.SameEX pair.2 slot.2 ↔ t ≠ .bool))
      fun slot _ f h₁ h₂ => by
      obtain ⟨y, hy, hsame, -⟩ := cell_extract h₂
      refine ⟨(slot.1, y), ?_, rfl, hsame⟩
      rw [key_extract h₁, hy]
      rfl
  refine ⟨pairs, ?_, hall⟩
  have hkeys : pairs.map Prod.fst = slots.map Prod.fst := by
    rw [← List.forall₂_eq_eq_eq, List.forall₂_map_left_iff, List.forall₂_map_right_iff]
    exact hall.imp fun _ _ h => h.1
  rw [readMapEX, hopen, Res.ok_bind, hpairs, Res.ok_bind, foldl_emplace, List.nil_append]
  · rfl
  · rw [List.nil_append, hkeys]
    exact h.nodup

/-- What is written reads back where the values are no Booleans. -/
theorem readsBack_of_ne_bool
    (h : IsMapOf hash k.bytes k.kind.shape t.shape k.kind.Spelled t.SpelledEX core (u.words out))
    (hend : b = true → rest = [] ∨ (u.words out ++ rest).length < 2 ^ 30) (ht : t ≠ .bool) :
    ReadsBack hash k t core b (.at (u.words out ++ rest)) := by
  obtain ⟨m, slots, pos, hopen, hperm, hholds⟩ := h.holds fun hb => h.near (hend hb)
  refine ⟨⟨m, hopen, hperm.length_eq ▸ hholds.size, ?_, fun pair hpair => ?_⟩, ?_⟩
  · obtain ⟨fields, hfields, hr⟩ := hholds.forEach_eq (f := .ok)
      (R := fun f slot => k.kind.Shown b f.1 slot.1 ∧ t.ShownEX b f.2 slot.2)
        fun slot hs f h₁ h₂ => by
        obtain ⟨y, -, -, hshow⟩ := cell_extract h₂
        exact ⟨f, rfl, Kind.shown h₁, hshow ht⟩
    exact ⟨fields, slots, hfields, hperm, hr⟩
  · have hslot := hperm.mem_iff.2 hpair
    obtain ⟨ws, hws⟩ := hholds.key_words hslot
    rcases KeyKind.find_eq hholds pair.1 with ⟨slot, hs, hk, f, hf, h₁, h₂⟩ | ⟨hnot, -⟩
    · rw [KeyKind.cut_eq hws] at hk
      cases hholds.eq_of_key hs hslot hk
      obtain ⟨y, -, -, hshow⟩ := cell_extract h₂
      exact ⟨f, hf, Kind.shown h₁, hshow ht⟩
    · exact absurd (KeyKind.cut_eq hws).symm (hnot pair hslot)
  · obtain ⟨pairs, hread, hpairs⟩ := readMapEX_eq hopen hholds
    exact ⟨pairs, slots, hread, hperm, hpairs.imp fun _ _ h => ⟨h.1, h.2.2 ht⟩⟩

/-- Without pairs, there is nothing but the map to be read back. -/
theorem readsBack_nil
    (h : IsMapOf hash k.bytes k.kind.shape t.shape k.kind.Spelled t.SpelledEX [] (u.words out))
    (hend : b = true → rest = [] ∨ (u.words out ++ rest).length < 2 ^ 30) :
    ReadsBack hash k t [] b (.at (u.words out ++ rest)) := by
  obtain ⟨m, slots, pos, hopen, hperm, hholds⟩ := h.holds fun hb => h.near (hend hb)
  obtain rfl := List.perm_nil.1 hperm
  obtain ⟨fields, hfields, hr⟩ := hholds.forEach_eq (f := .ok)
    (R := fun f slot => k.kind.Shown b f.1 slot.1 ∧ t.ShownEX b f.2 slot.2) fun slot hs =>
      absurd hs List.not_mem_nil
  obtain ⟨pairs, hread, hpairs⟩ := readMapEX_eq hopen hholds
  obtain rfl := List.forall₂_nil_right_iff.1 hpairs
  exact ⟨⟨m, hopen, hholds.size, ⟨fields, [], hfields, .nil, hr⟩,
      fun pair hp => absurd hp List.not_mem_nil⟩, [], [], hread, .nil, .nil⟩

/-- If `MapEX` reads the values that were written, they are no Booleans, or there are none. -/
theorem eq_nil_of_readsBack
    (h : IsMapOf hash k.bytes k.kind.shape t.shape k.kind.Spelled t.SpelledEX core (u.words out))
    (hend : b = true → rest = [] ∨ (u.words out ++ rest).length < 2 ^ 30)
    (hback : ReadsBack hash k t core b (.at (u.words out ++ rest))) (ht : t = .bool) :
    core = [] := by
  obtain ⟨m, slots, pos, hopen, hperm, hholds⟩ := h.holds fun hb => h.near (hend hb)
  obtain ⟨pairs, hread, hpairs⟩ := readMapEX_eq hopen hholds
  obtain ⟨-, pairs', slots', hread', hperm', hpairs'⟩ := hback
  obtain rfl : pairs' = pairs := Except.ok.inj (hread'.symm.trans hread)
  cases pairs' with
  | nil =>
    obtain rfl := List.forall₂_nil_left_iff.1 hpairs'
    exact List.nil_perm.1 hperm'
  | cons pair pairs =>
    -- The byte of the first pair would be one of a Boolean and one of a link.
    obtain ⟨slot, slots, hfirst, -, rfl⟩ := List.forall₂_cons_left_iff.1 hpairs
    obtain ⟨slot', slots', hfirst', -, rfl⟩ := List.forall₂_cons_left_iff.1 hpairs'
    subst ht
    have hkind : ∀ x, Kind.SameEX .bool pair.2 x → x = pair.2 := fun _ h => h.1.symm
    have hsame := hfirst'.2
    have hkey : slot' = slot :=
      hholds.eq_of_key (hperm.mem_iff.2 (hperm'.mem_iff.1 List.mem_cons_self)) List.mem_cons_self
        (hfirst'.1.symm.trans hfirst.1)
    exact absurd rfl (hfirst.2.1 (hkey ▸ hsame))

end

end ProtoCache

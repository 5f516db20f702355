import Mathlib.Data.List.Basic
import Mathlib.Data.Nat.Notation
import Mathlib.Tactic.Common

/-!
# Forms of Unicode text

Text is a list of characters, which are scalar values. It has two forms: in UTF-16 it is a
list of units (`units`), and a character from beyond the first plane takes two of them, a
lead and a trail; in UTF-8 it is a list of bytes (`encode`).

Not every list of units is text. `scalars` reads any list, with U+FFFD in the place of a
unit that is half of a pair only, and loses nothing exactly if there is no such unit
(`isolated_iff`).
-/

namespace Unicode

/-! ## UTF-16 -/

/-- The first unit of a pair. -/
def isLead (u : UInt16) : Bool := decide (0xd800 ≤ u.toNat ∧ u.toNat ≤ 0xdbff)

/-- The second unit of a pair. -/
def isTrail (u : UInt16) : Bool := decide (0xdc00 ≤ u.toNat ∧ u.toNat ≤ 0xdfff)

/-- The character of a pair. -/
def pair (u v : UInt16) : Char :=
  Char.ofNat (0x10000 + (u.toNat - 0xd800) * 0x400 + (v.toNat - 0xdc00))

/-- The units of a character. -/
def charUnits (c : Char) : List UInt16 :=
  if c.toNat < 0x10000 then
    [UInt16.ofNat c.toNat]
  else
    [UInt16.ofNat (0xd7c0 + c.toNat / 0x400), UInt16.ofNat (0xdc00 + c.toNat % 0x400)]

/-- The units of a text. -/
def units (cs : List Char) : List UInt16 := cs.flatMap charUnits

/-- U+FFFD, which stands for what is not text. -/
def replacement : Char := Char.ofNat 0xfffd

/-- The text that a list of units is taken for. -/
def scalars : List UInt16 → List Char
  | [] => []
  | [u] => if isLead u || isTrail u then [replacement] else [Char.ofNat u.toNat]
  | u :: v :: rest =>
    if isLead u then
      if isTrail v then pair u v :: scalars rest else replacement :: scalars (v :: rest)
    else if isTrail u then
      replacement :: scalars (v :: rest)
    else
      Char.ofNat u.toNat :: scalars (v :: rest)

/-- There is a lead without a trail after it, or a trail without a lead before it. -/
def Isolated (s : List UInt16) : Prop :=
  ∃ p u q, s = p ++ u :: q ∧
    (isLead u ∧ (∀ v ∈ q.head?, ¬isTrail v) ∨ isTrail u ∧ ∀ v ∈ p.getLast?, ¬isLead v)

@[simp] theorem units_nil : units [] = [] := rfl

@[simp] theorem units_cons (c : Char) (cs : List Char) :
    units (c :: cs) = charUnits c ++ units cs :=
  rfl

/-- The number of a character. -/
theorem toNat_cases (c : Char) : c.toNat < 0xd800 ∨ (0xdfff < c.toNat ∧ c.toNat < 0x110000) := by
  have h := c.valid
  rw [UInt32.isValidChar, Nat.isValidChar] at h
  exact h

theorem toNat_ofNat {n : ℕ} (h : n < 0xd800 ∨ (0xdfff < n ∧ n < 0x110000)) :
    (Char.ofNat n).toNat = n := by
  have hn : n.isValidChar := h
  rw [Char.ofNat, dif_pos hn]
  rfl

theorem isLead_iff {u : UInt16} : isLead u ↔ 0xd800 ≤ u.toNat ∧ u.toNat ≤ 0xdbff := by
  simp only [isLead, decide_eq_true_eq]

theorem isTrail_iff {u : UInt16} : isTrail u ↔ 0xdc00 ≤ u.toNat ∧ u.toNat ≤ 0xdfff := by
  simp only [isTrail, decide_eq_true_eq]

theorem not_isTrail_of_isLead {u : UInt16} (h : isLead u) : ¬isTrail u := by
  rw [isLead_iff] at h
  rw [isTrail_iff]
  omega

/-- A character of the first plane is one unit, and not half of a pair. -/
theorem charUnits_plain {c : Char} (h : c.toNat < 0x10000) :
    ∃ u, charUnits c = [u] ∧ ¬isLead u ∧ ¬isTrail u ∧ Char.ofNat u.toNat = c := by
  have hu : (UInt16.ofNat c.toNat).toNat = c.toNat := UInt16.toNat_ofNat_of_lt' h
  refine ⟨UInt16.ofNat c.toNat, by rw [charUnits, if_pos h], ?_, ?_, ?_⟩
  · rw [isLead_iff, hu]
    have hc := toNat_cases c
    omega
  · rw [isTrail_iff, hu]
    have hc := toNat_cases c
    omega
  · rw [hu, Char.ofNat_toNat]

/-- A character from beyond the first plane is a pair. -/
theorem charUnits_pair {c : Char} (h : ¬c.toNat < 0x10000) :
    ∃ u v, charUnits c = [u, v] ∧ isLead u ∧ isTrail v ∧ pair u v = c := by
  have hc := toNat_cases c
  have hu : (UInt16.ofNat (0xd7c0 + c.toNat / 0x400)).toNat = 0xd7c0 + c.toNat / 0x400 :=
    UInt16.toNat_ofNat_of_lt' (by rw [UInt16.size]; omega)
  have hv : (UInt16.ofNat (0xdc00 + c.toNat % 0x400)).toNat = 0xdc00 + c.toNat % 0x400 :=
    UInt16.toNat_ofNat_of_lt' (by rw [UInt16.size]; omega)
  refine ⟨_, _, by rw [charUnits, if_neg h], ?_, ?_, ?_⟩
  · rw [isLead_iff, hu]
    omega
  · rw [isTrail_iff, hv]
    omega
  · rw [pair, hu, hv]
    have hn : 0x10000 + (0xd7c0 + c.toNat / 0x400 - 0xd800) * 0x400 +
      (0xdc00 + c.toNat % 0x400 - 0xdc00) =
        c.toNat := by omega
    rw [hn, Char.ofNat_toNat]

/-- The units of a unit that is a character of its own. -/
theorem charUnits_ofNat {u : UInt16} (hl : ¬isLead u) (ht : ¬isTrail u) :
    charUnits (Char.ofNat u.toNat) = [u] := by
  rw [isLead_iff] at hl
  rw [isTrail_iff] at ht
  have hlt : u.toNat < 0x10000 := u.toNat_lt
  have hn : (Char.ofNat u.toNat).toNat = u.toNat := toNat_ofNat (by omega)
  rw [charUnits, hn, if_pos hlt, UInt16.ofNat_toNat]

theorem charUnits_pair_eq {u v : UInt16} (hu : isLead u) (hv : isTrail v) :
    charUnits (pair u v) = [u, v] := by
  rw [isLead_iff] at hu
  rw [isTrail_iff] at hv
  have hn : (pair u v).toNat = 0x10000 + (u.toNat - 0xd800) * 0x400 + (v.toNat - 0xdc00) :=
    toNat_ofNat (by omega)
  rw [charUnits, hn, if_neg (by omega)]
  have hl : 0xd7c0 + (0x10000 + (u.toNat - 0xd800) * 0x400 + (v.toNat - 0xdc00)) / 0x400 =
      u.toNat := by
    omega
  have hr : 0xdc00 + (0x10000 + (u.toNat - 0xd800) * 0x400 + (v.toNat - 0xdc00)) % 0x400 =
      v.toNat := by
    omega
  rw [hl, hr, UInt16.ofNat_toNat, UInt16.ofNat_toNat]

/-! ## Text in UTF-16 -/

theorem scalars_plain {u : UInt16} (hl : ¬isLead u) (ht : ¬isTrail u) (rest : List UInt16) :
    scalars (u :: rest) = Char.ofNat u.toNat :: scalars rest := by
  cases rest with
  | nil => simp only [scalars, hl, ht, Bool.or_self, Bool.false_eq_true, if_false]
  | cons v rest => simp only [scalars, hl, ht, Bool.false_eq_true, if_false]

theorem scalars_pair {u v : UInt16} (hu : isLead u) (hv : isTrail v) (rest : List UInt16) :
    scalars (u :: v :: rest) = pair u v :: scalars rest := by
  simp only [scalars, hu, hv, if_true]

theorem isolated_nil : ¬Isolated [] := by
  rintro ⟨p, u, q, h, -⟩
  simp at h

theorem isolated_of_trail {u : UInt16} (h : isTrail u) (rest : List UInt16) :
    Isolated (u :: rest) :=
  ⟨[], u, rest, rfl, .inr ⟨h, by simp⟩⟩

theorem isolated_of_lead {u : UInt16} {rest : List UInt16} (h : isLead u)
    (hr : ∀ v ∈ rest.head?, ¬isTrail v) :
    Isolated (u :: rest) := ⟨[], u, rest, rfl, .inl ⟨h, hr⟩⟩

theorem isolated_plain {u : UInt16} (hl : ¬isLead u) (ht : ¬isTrail u) (rest : List UInt16) :
    Isolated (u :: rest) ↔ Isolated rest := by
  constructor
  · rintro ⟨p, w, q, h, hw⟩
    cases p with
    | nil =>
      obtain ⟨rfl, rfl⟩ := List.cons.inj h
      exact absurd hw (by simp [hl, ht])
    | cons x p =>
      obtain ⟨rfl, rfl⟩ := List.cons.inj h
      refine ⟨p, w, q, rfl, hw.imp_right fun hw => ⟨hw.1, fun v hv => hw.2 v ?_⟩⟩
      rw [List.getLast?_cons, Option.mem_def.1 hv]
      rfl
  · rintro ⟨p, w, q, rfl, hw⟩
    refine ⟨u :: p, w, q, rfl, hw.imp_right fun hw => ⟨hw.1, fun v hv => ?_⟩⟩
    rw [List.getLast?_cons] at hv
    cases hp : p.getLast? with
    | none =>
      rw [hp] at hv
      cases hv
      exact hl
    | some x =>
      rw [hp] at hv
      cases hv
      exact hw.2 _ hp

theorem isolated_pair {u v : UInt16} (hu : isLead u) (hv : isTrail v) (rest : List UInt16) :
    Isolated (u :: v :: rest) ↔ Isolated rest := by
  have hvl : ¬isLead v := fun h => not_isTrail_of_isLead h hv
  constructor
  · rintro ⟨p, w, q, h, hw⟩
    rcases p with _ | ⟨x, _ | ⟨y, p⟩⟩
    · -- Neither unit of the pair is isolated, so an isolated one is behind them.
      obtain ⟨rfl, rfl⟩ := List.cons.inj h
      rcases hw with ⟨-, hw⟩ | ⟨hw, -⟩
      · exact absurd hv (hw v rfl)
      · exact absurd hw (not_isTrail_of_isLead hu)
    · obtain ⟨rfl, h'⟩ := List.cons.inj h
      obtain ⟨rfl, rfl⟩ := List.cons.inj h'
      rcases hw with ⟨hw, -⟩ | ⟨-, hw⟩
      · exact absurd hw hvl
      · exact absurd hu (hw u rfl)
    · obtain ⟨rfl, h'⟩ := List.cons.inj h
      obtain ⟨rfl, rfl⟩ := List.cons.inj h'
      refine ⟨p, w, q, rfl, hw.imp_right fun hw => ⟨hw.1, fun x hx => hw.2 x ?_⟩⟩
      rw [List.getLast?_cons, List.getLast?_cons, Option.mem_def.1 hx]
      rfl
  · rintro ⟨p, w, q, rfl, hw⟩
    refine ⟨u :: v :: p, w, q, rfl, hw.imp_right fun hw => ⟨hw.1, fun x hx => ?_⟩⟩
    rw [List.getLast?_cons, List.getLast?_cons] at hx
    cases hp : p.getLast? with
    | none =>
      rw [hp] at hx
      cases hx
      exact hvl
    | some y =>
      rw [hp] at hx
      cases hx
      exact hw.2 _ hp

/-- How a list of units begins. -/
theorem units_cases (u : UInt16) (rest : List UInt16) :
    (¬isLead u ∧ ¬isTrail u) ∨ (∃ v rest', isLead u ∧ isTrail v ∧ rest = v :: rest') ∨
      (isLead u ∧ ∀ v ∈ rest.head?, ¬isTrail v) ∨ isTrail u := by
  by_cases ht : isTrail u
  · exact .inr (.inr (.inr ht))
  by_cases hl : isLead u
  · cases rest with
    | nil => exact .inr (.inr (.inl ⟨hl, by simp⟩))
    | cons v rest =>
      by_cases hv : isTrail v
      · exact .inr (.inl ⟨v, rest, hl, hv, rfl⟩)
      · exact .inr (.inr (.inl ⟨hl, by simpa using hv⟩))
  · exact .inl ⟨hl, ht⟩

/-- Units are either those of a text, or one of them is isolated. -/
theorem units_scalars {s : List UInt16} (h : ¬Isolated s) : units (scalars s) = s := by
  induction hn : s.length using Nat.strongRecOn generalizing s with
  | _ n ih =>
    cases s with
    | nil => rfl
    | cons u rest =>
      rcases units_cases u rest with ⟨hl, ht⟩ | ⟨v, rest, hl, ht, rfl⟩ | ⟨hl, ht⟩ | ht
      · rw [isolated_plain hl ht] at h
        rw [scalars_plain hl ht, units_cons, charUnits_ofNat hl ht,
          ih rest.length (by simp [← hn]) h rfl]
        rfl
      · rw [isolated_pair hl ht] at h
        rw [scalars_pair hl ht, units_cons, charUnits_pair_eq hl ht,
          ih rest.length (by rw [← hn, List.length_cons, List.length_cons]; omega) h rfl]
        rfl
      · exact absurd (isolated_of_lead hl ht) h
      · exact absurd (isolated_of_trail ht rest) h

theorem not_isolated_units (cs : List Char) : ¬Isolated (units cs) := by
  induction cs with
  | nil => exact isolated_nil
  | cons c cs ih =>
    rw [units_cons]
    by_cases h : c.toNat < 0x10000
    · obtain ⟨u, hcu, hl, ht, -⟩ := charUnits_plain h
      rwa [hcu, List.singleton_append, isolated_plain hl ht]
    · obtain ⟨u, v, hcu, hl, ht, -⟩ := charUnits_pair h
      rwa [hcu, List.cons_append, List.singleton_append, isolated_pair hl ht]

/-- A list of units is no text exactly if a unit of it is isolated. -/
theorem isolated_iff {s : List UInt16} : Isolated s ↔ ¬∃ cs, units cs = s := by
  constructor
  · rintro h ⟨cs, rfl⟩
    exact not_isolated_units cs h
  · intro h
    by_contra hs
    exact h ⟨scalars s, units_scalars hs⟩

/-! ## UTF-8 -/

/-- The bytes of a text. -/
def encode (cs : List Char) : List UInt8 := cs.flatMap String.utf8EncodeChar

/-- The text of bytes. -/
def decode (bs : List UInt8) : Option (List Char) := bs.toByteArray.utf8Decode?.map Array.toList

@[simp] theorem encode_nil : encode [] = [] := rfl

@[simp] theorem encode_cons (c : Char) (cs : List Char) :
    encode (c :: cs) = String.utf8EncodeChar c ++ encode cs :=
  rfl

/-- What has been encoded is decoded. -/
theorem decode_encode (cs : List Char) : decode (encode cs) = some cs := by
  have h : (encode cs).toByteArray = cs.utf8Encode := rfl
  rw [decode, h, List.utf8Decode?_utf8Encode, Option.map_some]

/-- Bytes are decoded exactly if they are those of a text. -/
theorem isSome_decode_iff {bs : List UInt8} : (decode bs).isSome = true ↔ ∃ cs, bs = encode cs := by
  rw [decode, Option.isSome_map, ByteArray.isSome_utf8Decode?_iff]
  constructor
  · rintro ⟨cs, h⟩
    exact ⟨cs, List.toByteArray_inj.1 h⟩
  · rintro ⟨cs, rfl⟩
    exact ⟨cs, rfl⟩

/-- A character of ASCII is one unit, and one byte. -/
theorem ascii_forms {c : Char} (h : c.toNat < 0x80) :
    charUnits c = [UInt16.ofNat c.toNat] ∧ String.utf8EncodeChar c = [UInt8.ofNat c.toNat] := by
  constructor
  · rw [charUnits, if_pos (by omega)]
  · rw [String.utf8EncodeChar_eq_singleton]
    · rfl
    · rw [Char.utf8Size_eq_one_iff]
      exact UInt32.le_iff_toNat_le.2 (by change c.toNat ≤ 0x7f; omega)

/-- The bytes of a character are as many as its number asks for. -/
theorem length_utf8EncodeChar (c : Char) : (String.utf8EncodeChar c).length =
    if c.toNat < 0x80 then 1 else if c.toNat < 0x800 then 2 else if c.toNat < 0x10000 then 3
      else 4 := by
  have hv : c.val.toNat = c.toNat := rfl
  unfold String.utf8EncodeChar
  simp only [hv]
  split_ifs <;> first | rfl | omega

/-- Only a character of ASCII has bytes of ASCII only. -/
theorem exists_not_ascii {c : Char} (h : ¬c.toNat < 0x80) :
    ∃ b ∈ String.utf8EncodeChar c, 0x80 ≤ b.toNat := by
  have hv : c.val.toNat = c.toNat := rfl
  have hlast : 0x80 ≤ (UInt8.ofNat (c.toNat % 0x40 + 0x80)).toNat := by
    rw [UInt8.toNat_ofNat_of_lt' (by rw [UInt8.size]; omega)]
    omega
  refine ⟨UInt8.ofNat (c.toNat % 0x40 + 0x80), ?_, hlast⟩
  unfold String.utf8EncodeChar
  simp only [hv]
  split_ifs
  · omega
  all_goals simp

theorem ascii_of_encode {cs : List Char} (h : ∀ b ∈ encode cs, b.toNat < 0x80) :
    ∀ c ∈ cs, c.toNat < 0x80 := by
  intro c hc
  by_contra hn
  obtain ⟨b, hb, hle⟩ := exists_not_ascii hn
  have hlt := h b (List.mem_flatMap.2 ⟨c, hc, hb⟩)
  omega

/-- Bytes of ASCII are those of a text. -/
theorem exists_encode_of_ascii {bs : List UInt8} (h : ∀ b ∈ bs, b.toNat < 0x80) :
    ∃ cs, bs = encode cs := by
  induction bs with
  | nil => exact ⟨[], rfl⟩
  | cons b bs ih =>
    obtain ⟨cs, rfl⟩ := ih fun b' hb' => h b' (List.mem_cons_of_mem b hb')
    have hb := h b List.mem_cons_self
    have hn : (Char.ofNat b.toNat).toNat = b.toNat := toNat_ofNat (by omega)
    refine ⟨Char.ofNat b.toNat :: cs, ?_⟩
    rw [encode_cons, (ascii_forms (by rw [hn]; exact hb)).2, hn, UInt8.ofNat_toNat]
    rfl

/-- In ASCII the two forms are the same. -/
theorem encode_ascii {cs : List Char} (h : ∀ c ∈ cs, c.toNat < 0x80) :
    (encode cs).map UInt8.toUInt16 = units cs := by
  induction cs with
  | nil => rfl
  | cons c cs ih =>
    have hc := h c List.mem_cons_self
    obtain ⟨hu, hb⟩ := ascii_forms hc
    rw [encode_cons, units_cons, List.map_append,
      ih fun c' hc' => h c' (List.mem_cons_of_mem c hc'), hu, hb]
    have hto : (UInt8.ofNat c.toNat).toUInt16 = UInt16.ofNat c.toNat := by
      rw [← UInt16.toNat_inj, UInt8.toNat_toUInt16, UInt8.toNat_ofNat_of_lt'
        (by rw [UInt8.size]; omega), UInt16.toNat_ofNat_of_lt' (by rw [UInt16.size]; omega)]
    rw [List.map_singleton, hto]

/-- A list of units of ASCII is text. -/
theorem ascii_units {s : List UInt16} (h : ∀ u ∈ s, u.toNat < 0x80) :
    ¬Isolated s ∧ encode (scalars s) = s.map UInt16.toUInt8 := by
  induction s with
  | nil => exact ⟨isolated_nil, rfl⟩
  | cons u s ih =>
    have hu := h u List.mem_cons_self
    have hl : ¬isLead u := by rw [isLead_iff]; omega
    have ht : ¬isTrail u := by rw [isTrail_iff]; omega
    obtain ⟨hs, henc⟩ := ih fun u' hu' => h u' (List.mem_cons_of_mem u hu')
    refine ⟨by rwa [isolated_plain hl ht], ?_⟩
    have hn : (Char.ofNat u.toNat).toNat = u.toNat := toNat_ofNat (by omega)
    have hto : UInt8.ofNat u.toNat = u.toUInt8 := by
      rw [← UInt8.toNat_inj, UInt8.toNat_ofNat_of_lt' (by rw [UInt8.size]; omega),
        UInt16.toNat_toUInt8, Nat.mod_eq_of_lt (by omega)]
    rw [scalars_plain hl ht, encode_cons, (ascii_forms (by rw [hn]; exact hu)).2, henc, hn, hto]
    rfl

/-- The bytes of a text take at least as many places as its units. -/
theorem length_units_le (cs : List Char) : (units cs).length ≤ (encode cs).length := by
  induction cs with
  | nil => exact Nat.le_refl 0
  | cons c cs ih =>
    have hc : (charUnits c).length ≤ (String.utf8EncodeChar c).length := by
      rw [String.length_utf8EncodeChar]
      have hpos := c.utf8Size_pos
      by_cases h : c.toNat < 0x10000
      · obtain ⟨u, hcu, -⟩ := charUnits_plain h
        rw [hcu]
        exact hpos
      · obtain ⟨u, v, hcu, -⟩ := charUnits_pair h
        rw [hcu]
        have hne : c.utf8Size ≠ 1 := by
          rw [Ne, Char.utf8Size_eq_one_iff, UInt32.le_iff_toNat_le]
          change ¬c.toNat ≤ 0x7f
          omega
        change 2 ≤ c.utf8Size
        omega
    rw [units_cons, encode_cons, List.length_append, List.length_append]
    omega

/-! ## The coders -/

/-- `encodeInto`: how many units are read, and what is written, where there is room for
    some bytes only. -/
def encodeInto : List Char → ℕ → ℕ × List UInt8
  | [], _ => (0, [])
  | c :: cs, room =>
    if (String.utf8EncodeChar c).length ≤ room then
      let (read, written) := encodeInto cs (room - (String.utf8EncodeChar c).length)
      ((charUnits c).length + read, String.utf8EncodeChar c ++ written)
    else
      (0, [])

/-- U+FEFF, which marks the order of bytes. -/
def mark : Char := Char.ofNat 0xfeff

/-- The text without a mark at its beginning. -/
def dropMark : List Char → List Char
  | [] => []
  | c :: cs => if c = mark then cs else c :: cs

/-- A text without its mark, in UTF-16. -/
theorem units_dropMark {s : List UInt16} (h : ¬Isolated s) :
    units (dropMark (scalars s)) = if s.head? = some 0xfeff then s.tail else s := by
  have hs := units_scalars h
  cases hcs : scalars s with
  | nil =>
    rw [hcs] at hs
    rw [← hs]
    rfl
  | cons c cs =>
    rw [hcs, units_cons] at hs
    by_cases hc : c = mark
    · have hunits : charUnits mark = [0xfeff] := by decide
      rw [hc, hunits] at hs
      rw [dropMark, if_pos hc, ← hs]
      rfl
    · -- No other character has the unit of the mark as its first.
      have hne : s.head? ≠ some 0xfeff := by
        rw [← hs]
        intro hhead
        by_cases hlt : c.toNat < 0x10000
        · obtain ⟨u, hcu, -, -, hu⟩ := charUnits_plain hlt
          rw [hcu] at hhead
          cases hhead
          exact hc hu.symm
        · obtain ⟨u, v, hcu, hl, -⟩ := charUnits_pair hlt
          rw [hcu] at hhead
          cases hhead
          exact absurd hl (by decide)
      rw [dropMark, if_neg hc, if_neg hne, units_cons, hs]

theorem encodeInto_eq {cs : List Char} {room : ℕ} (h : (encode cs).length ≤ room) :
    encodeInto cs room = ((units cs).length, encode cs) := by
  induction cs generalizing room with
  | nil => rfl
  | cons c cs ih =>
    rw [encode_cons, List.length_append] at h
    rw [encodeInto, if_pos (by omega), ih (by omega), units_cons, encode_cons, List.length_append]

end Unicode

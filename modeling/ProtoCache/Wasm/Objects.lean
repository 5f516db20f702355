import ProtoCache.Detect
import ProtoCache.Wasm.Tape

/-!
# The decoder and the accessors find the same

The decoder of the WASM module goes over the bytes of the input with offsets and limits of its
own, which are stricter than those of the views of `include/protocache/access.h`. Whatever
it accepts, these find as well, and at the same place.

* `objectLocation_gives`: where `ObjectLocation` finds an object, `Field::GetObject` does;
* `parseBytes_gives`: what `ParseBytes` finds is the slice of `String`.
-/

namespace ProtoCache.Wasm

open LittleEndian Outcome

/-- The result of a call, if there is one, has `P`. -/
abbrev Gives {α : Type} (P : α → Prop) (x : Run α) : Prop := Ensures (fun _ => True) P x

theorem require_gives (b : Bool) : Gives (fun _ => b = true) (require b) :=
  require_ensures trivial b

theorem within_gives {α : Type} (o : Option α) : Gives (fun a => o = some a) (within o) :=
  within_ensures trivial o

theorem gives_true {α : Type} (x : Run α) : Gives (fun _ => True) x := by
  cases x <;> trivial

theorem drop_bytesOf (W : List UInt32) (k : ℕ) : (bytesOf W).drop (4 * k) = bytesOf (W.drop k) := by
  induction k generalizing W with
  | zero => rfl
  | succ k ih =>
    cases W with
    | nil => rfl
    | cons w W =>
      rw [List.drop_succ_cons, ← ih, bytesOf_cons, List.drop_append, length_wordBytes,
        List.drop_eq_nil_of_le (by rw [length_wordBytes]; omega), List.nil_append]
      congr 1

theorem ofNat_le_wordBytes (w : UInt32) : UInt32.ofNat (le (wordBytes w)) = w := by
  rw [wordBytes, le_toLE w.toNat_lt, UInt32.ofNat_toNat]

/-- The bytes of the word at an index. -/
theorem load_bytesOf {W : List UInt32} {k : ℕ} {bs : List UInt8}
    (h : Storage.load ((bytesOf W).drop (4 * k)) 4 = some bs) :
    ∃ w, W[k]? = some w ∧ bs = wordBytes w := by
  rw [drop_bytesOf] at h
  cases hw : W.drop k with
  | nil =>
    rw [hw] at h
    cases h
  | cons w rest =>
    rw [hw, bytesOf_cons, Storage.load_of_le (by simp), List.take_append_of_le_length (by simp),
      List.take_of_length_le (by simp)] at h
    cases h
    exact ⟨w, by rw [← List.head?_drop, hw]; rfl, rfl⟩

theorem requireWords_iff {offset limit : UInt32} {width : UInt64} :
    requireWords offset width limit = true ↔ offset.toNat + width.toNat ≤ limit.toNat := by
  rw [requireWords, decide_eq_true_eq, UInt32.le_iff_toNat_le, UInt64.le_iff_toNat_le,
    UInt32.toNat_toUInt64]
  constructor
  · rintro ⟨hle, hwidth⟩
    rw [UInt32.toNat_sub_of_le _ _ (UInt32.le_iff_toNat_le.2 hle)] at hwidth
    omega
  · intro h
    have hle : offset.toNat ≤ limit.toNat := by omega
    rw [UInt32.toNat_sub_of_le _ _ (UInt32.le_iff_toNat_le.2 hle)]
    exact ⟨hle, by omega⟩

/-- Where an object is: behind where its limit is, which is in the input. -/
structure Location.In (W : List UInt32) (location : Location) : Prop where
  lt : location.wordOffset.toNat < W.length
  le : location.limitWordOffset.toNat ≤ W.length

/-- What stands from an object on. -/
def Location.view (W : List UInt32) (location : Location) : List UInt32 :=
  W.drop location.wordOffset.toNat

section

variable {W : List UInt32}

theorem readWord_gives (offset : UInt32) :
    Gives (fun w => W[offset.toNat]? = some w) (readWord (bytesOf W) offset) := by
  refine (require_gives _).bind fun _ _ => ?_
  rw [load32, Nat.mul_comm]
  refine (within_gives _).bind fun bs hbs => ?_
  obtain ⟨w, hw, rfl⟩ := load_bytesOf hbs
  exact ensures_pure.2 (by rw [ofNat_le_wordBytes]; exact hw)

/-- What `GetObject` finds of a field whose first word is there. -/
theorem getObject_drop {o width : ℕ} {w : UInt32} (hw : W[o]? = some w)
    (hin : w &&& 3 = 3 → o + (w >>> 2).toNat < W.length) :
    Field.getObject true ⟨.at (W.drop o), width⟩ =
      .ok (.at (W.drop (if w &&& 3 = 3 then o + (w >>> 2).toNat else o))) := by
  obtain ⟨hlt, -⟩ := List.getElem?_eq_some_iff.1 hw
  have hreach : ∀ k, k < W.length → Ptr.reaches true (.at (W.drop k)) = false := by
    intro k hk
    rw [Ptr.reaches, Bool.true_and, List.isEmpty_eq_false_iff]
    exact fun h => absurd (List.drop_eq_nil_iff.1 h) (by omega)
  have hload : Ptr.load (.at (W.drop o)) = .ok w := by
    rw [Ptr.load, List.head?_drop, hw]
    rfl
  rw [Field.getObject, hreach o hlt, if_neg (by decide), if_neg (by intro h; cases h), hload,
    Res.ok_bind]
  split
  · next hmark =>
    dsimp only
    rw [Ptr.add, List.drop_drop, hreach _ (hin hmark), if_neg (by decide)]
    rfl
  · dsimp only
    rw [hreach o hlt, if_neg (by decide)]
    rfl

variable (hW : W.length < 2 ^ 30)

include hW

theorem inputLength_bytesOf : (inputLength (bytesOf W)).toNat = 4 * W.length := by
  rw [inputLength, UInt32.toNat_ofNat', length_bytesOf, Nat.mod_eq_of_lt (by omega)]

theorem inputWords_bytesOf : (inputLength (bytesOf W) / 4).toNat = W.length := by
  rw [UInt32.toNat_div, inputLength_bytesOf hW, show (4 : UInt32).toNat = 4 from rfl]
  omega

/-- `ObjectLocation` finds what `Field::GetObject` finds. -/
theorem objectLocation_gives (wordOffset width : UInt32) :
    Gives (fun location => location.In W ∧
        Field.getObject true ⟨.at (W.drop wordOffset.toNat), width.toNat⟩ =
          .ok (.at (location.view W)))
      (objectLocation (bytesOf W) wordOffset width) := by
  have hwords := inputWords_bytesOf hW
  refine (require_gives _).bind fun _ _ => (readWord_gives _).bind fun first hfirst => ?_
  obtain ⟨hlt, -⟩ := List.getElem?_eq_some_iff.1 hfirst
  split
  · next hmark =>
    refine (require_gives _).bind fun _ hdelta => (require_gives _).bind fun _ htarget => ?_
    rw [Bool.not_eq_true', Bool.or_eq_false_iff, decide_eq_false_iff_not] at hdelta
    have hle := UInt32.le_iff_toNat_le.1 (UInt32.not_lt.1 hdelta.2)
    have hsub : (inputLength (bytesOf W) / 4 - wordOffset).toNat = W.length - wordOffset.toNat := by
      rw [UInt32.toNat_sub_of_le _ _ (UInt32.le_iff_toNat_le.2 (by omega)), hwords]
    have hsum : (wordOffset + first >>> 2).toNat = wordOffset.toNat + (first >>> 2).toNat := by
      rw [UInt32.toNat_add, Nat.mod_eq_of_lt (by omega)]
    rw [requireInputWords, requireWords_iff, hwords, hsum,
      show (1 : UInt64).toNat = 1 from rfl] at htarget
    refine ensures_pure.2 ⟨⟨?_, hwords.le⟩, ?_⟩
    · change (wordOffset + first >>> 2).toNat < W.length
      omega
    · rw [getObject_drop hfirst fun _ => by omega, if_pos hmark, Location.view, hsum]
  · next hmark =>
    refine (require_gives _).bind fun _ hwidth => ?_
    rw [requireInputWords, requireWords_iff, hwords, UInt32.toNat_toUInt64] at hwidth
    refine ensures_pure.2 ⟨⟨hlt, ?_⟩, ?_⟩
    · change (wordOffset + width).toNat ≤ W.length
      rw [UInt32.toNat_add]
      exact (Nat.mod_le _ _).trans hwidth
    · rw [getObject_drop hfirst fun h => absurd h hmark, if_neg hmark]
      rfl

/-! ## Bytes -/

/-- The end of `ParseBytes`, with the mark and what is behind it. -/
theorem parseEnd_gives (byteLimit byteOffset mark : UInt64) :
    Gives (fun bytes => mark.toNat % 4 = 0 ∧ bytes.offset.toNat = byteOffset.toNat ∧
        bytes.length.toNat = mark.toNat / 4 ∧ byteOffset.toNat + mark.toNat / 4 ≤ 4 * W.length) (do
      require (mark &&& 3 == 0)
      let length := mark / 4
      require (!(decide (length > 0xffffffff) || decide (byteOffset > byteLimit) ||
        decide (length > byteLimit - byteOffset) ||
          decide (byteOffset > (inputLength (bytesOf W)).toUInt64) ||
        decide (length > (inputLength (bytesOf W)).toUInt64 - byteOffset)))
      return (⟨byteOffset.toUInt32, length.toUInt32⟩ : ByteSpan)) := by
  refine (require_gives _).bind fun _ hmark => (require_gives _).bind fun _ h => ?_
  have hlength : (inputLength (bytesOf W)).toUInt64.toNat = 4 * W.length := by
    rw [UInt32.toNat_toUInt64, inputLength_bytesOf hW]
  have hmark : mark.toNat % 4 = 0 := by
    have := congrArg UInt64.toNat (beq_iff_eq.1 hmark)
    rwa [UInt64.toNat_and, show (3 : UInt64).toNat = 2 ^ 2 - 1 from rfl,
      Nat.and_two_pow_sub_one_eq_mod] at this
  have hdiv : (mark / 4).toNat = mark.toNat / 4 := by
    rw [UInt64.toNat_div]
    rfl
  simp only [Bool.not_eq_true', Bool.or_eq_false_iff, decide_eq_false_iff_not, gt_iff_lt,
    UInt64.not_lt] at h
  obtain ⟨⟨-, hoffset⟩, hrest⟩ := h
  rw [UInt64.le_iff_toNat_le, UInt64.toNat_sub_of_le _ _ hoffset, hlength, hdiv] at hrest
  rw [UInt64.le_iff_toNat_le, hlength] at hoffset
  refine ensures_pure.2 ⟨hmark, ?_, ?_, by omega⟩
  · change byteOffset.toUInt32.toNat = _
    rw [UInt64.toNat_toUInt32, Nat.mod_eq_of_lt (by omega)]
  · change (mark / 4).toUInt32.toNat = _
    rw [UInt64.toNat_toUInt32, hdiv, Nat.mod_eq_of_lt (by omega)]

omit hW in
theorem and_0x7f : ∀ byte : UInt8, byte &&& 0x80 = 0 → byte &&& 0x7f = byte :=
  forall_byte (by decide +kernel)

omit hW in
theorem and_3 : ∀ byte : UInt8, (byte &&& 0x7f).toNat % 4 = 0 → byte &&& 3 = 0 :=
  forall_byte (by decide +kernel)

omit hW in
/-- A mark with the next seven bits. -/
theorem mark_add (mark : UInt64) (byte : UInt8) {shift : ℕ} (hshift : shift ≤ 28)
    (hmark : mark.toNat < 2 ^ shift) :
    (mark + (byte &&& 0x7f).toUInt64 <<< UInt64.ofNat shift).toNat =
      mark.toNat ||| (byte &&& 0x7f).toNat <<< shift ∧
      mark.toNat ||| (byte &&& 0x7f).toNat <<< shift < 2 ^ (shift + 7) := by
  have hbyte : (byte &&& 0x7f).toNat < 2 ^ 7 := by
    rw [UInt8.toNat_and]
    exact Nat.and_lt_two_pow _ (by decide)
  have hpart : (byte &&& 0x7f).toNat * 2 ^ shift < 2 ^ (shift + 7) := by
    rw [pow_add, Nat.mul_comm]
    exact Nat.mul_lt_mul_of_pos_left hbyte (Nat.two_pow_pos shift)
  have hlt : mark.toNat ||| (byte &&& 0x7f).toNat <<< shift < 2 ^ (shift + 7) := by
    refine Nat.or_lt_two_pow (hmark.trans_le (Nat.pow_le_pow_right (by decide) (by omega))) ?_
    rwa [Nat.shiftLeft_eq]
  have hpow : 2 ^ (shift + 7) ≤ 2 ^ 35 := Nat.pow_le_pow_right (by decide) (by omega)
  refine ⟨?_, hlt⟩
  have hor := Nat.two_pow_add_eq_or_of_lt hmark (byte &&& 0x7f).toNat
  rw [Nat.mul_comm, ← Nat.shiftLeft_eq, Nat.or_comm] at hor
  have hshift' : (UInt64.ofNat shift).toNat % 64 = shift := by
    rw [UInt64.toNat_ofNat', Nat.mod_eq_of_lt (by omega), Nat.mod_eq_of_lt (by omega)]
  rw [UInt64.toNat_add, UInt64.toNat_shiftLeft, UInt8.toNat_toUInt64, hshift', Nat.shiftLeft_eq,
    Nat.mod_eq_of_lt (a := _ * _) (by omega), ← Nat.shiftLeft_eq, ← hor, Nat.add_comm,
    Nat.mod_eq_of_lt]
  rw [hor]
  omega

/-- The loop of `ParseBytes`, behind the first byte, does what the one of `String` does. -/
theorem parseMark_gives (byteLimit : UInt64) {k : ℕ} (hk : k ≤ 4) {byteOffset mark : UInt64}
    (hoffset : byteOffset.toNat < 2 ^ 33) (hmark : mark.toNat < 2 ^ (35 - 7 * k)) :
    Gives (fun bytes => mark.toNat % 4 = 0 ∧ byteOffset.toNat < bytes.offset.toNat ∧
        bytes.offset.toNat + bytes.length.toNat ≤ 4 * W.length ∧
        stringMark true (35 - 7 * k) mark.toNat ((bytesOf W).drop byteOffset.toNat) =
          .ok (some ⟨(bytesOf W).drop bytes.offset.toNat, bytes.length.toNat⟩))
      (parseMark (bytesOf W) byteLimit k (35 - 7 * k) byteOffset mark) := by
  induction k generalizing byteOffset mark with
  | zero => trivial
  | succ k ih =>
    have hshift : 35 - 7 * (k + 1) + 7 = 35 - 7 * k := by omega
    rw [parseMark]
    refine (require_gives _).bind fun _ _ => (within_gives _).bind fun byte hbyte => ?_
    obtain ⟨hlt, hbyte⟩ := List.getElem?_eq_some_iff.1 hbyte
    have hnext : (byteOffset + 1).toNat = byteOffset.toNat + 1 := by
      rw [UInt64.toNat_add, show (1 : UInt64).toNat = 1 from rfl, Nat.mod_eq_of_lt (by omega)]
    obtain ⟨hadd, haddlt⟩ := mark_add mark byte (by omega : 35 - 7 * (k + 1) ≤ 28) hmark
    have hmod : (mark.toNat ||| (byte &&& 0x7f).toNat <<< (35 - 7 * (k + 1))) % 4 =
        mark.toNat % 4 := by
      rw [show 4 = 2 ^ 2 from rfl, Nat.or_mod_two_pow, Nat.shiftLeft_eq,
        show 35 - 7 * (k + 1) = 2 + (33 - 7 * (k + 1)) by omega, pow_add, ← Nat.mul_assoc,
        Nat.mul_right_comm, Nat.mul_mod_left, Nat.or_zero]
    rw [List.drop_eq_getElem_cons hlt, hbyte, stringMark, if_pos (by omega)]
    by_cases hlast : byte &&& 0x80 = 0
    · rw [if_pos hlast, if_neg (not_not.2 hlast)]
      refine (parseEnd_gives hW _ _ _).mono fun bytes h => ?_
      obtain ⟨h4, hat, hlen, hle⟩ := h
      rw [hadd] at h4 hlen hle
      -- The last byte has no high bit to be cut.
      rw [and_0x7f byte hlast] at h4 hlen hle hmod
      refine ⟨hmod ▸ h4, by omega, by omega, ?_⟩
      rw [if_neg, hat, hnext, hlen, Nat.shiftRight_eq_div_pow]
      rw [List.length_drop, length_bytesOf, Nat.shiftRight_eq_div_pow]
      omega
    · rw [if_neg hlast, if_pos hlast]
      rw [hshift] at haddlt ⊢
      rw [← hadd] at haddlt hmod ⊢
      have hlen := length_bytesOf W
      refine (ih (by omega) (by omega) haddlt).mono fun bytes h => ?_
      rw [hnext] at h
      exact ⟨hmod ▸ h.1, by omega, h.2.2⟩

/-- `ParseBytes` finds what `String` finds. -/
theorem parseBytes_gives {location : Location} (hin : location.In W) :
    Gives (fun bytes => 0 < bytes.offset.toNat ∧ bytes.offset.toNat + bytes.length.toNat ≤
      4 * W.length ∧
        readString true (.at (location.view W)) =
          .ok (some ⟨(bytesOf W).drop bytes.offset.toNat, bytes.length.toNat⟩))
      (parseBytes (bytesOf W) location) := by
  refine (require_gives _).bind fun _ _ => ?_
  -- The position of the first byte is counted in 64 bits, and does not wrap around.
  have hstart : (location.wordOffset.toUInt64 * 4).toNat = 4 * location.wordOffset.toNat := by
    have := hin.lt
    rw [UInt64.toNat_mul, UInt32.toNat_toUInt64, show (4 : UInt64).toNat = 4 from rfl,
      Nat.mod_eq_of_lt (by omega), Nat.mul_comm]
  generalize location.limitWordOffset.toUInt64 * 4 = byteLimit
  generalize location.wordOffset.toUInt64 * 4 = byteOffset at hstart
  have hview : bytesOf (location.view W) = (bytesOf W).drop byteOffset.toNat := by
    rw [hstart, drop_bytesOf, Location.view]
  have hlt := hin.lt
  have hreach : Ptr.reaches true (.at (location.view W)) = false := by
    rw [Ptr.reaches, Bool.true_and, List.isEmpty_eq_false_iff]
    exact fun h => absurd (List.drop_eq_nil_iff.1 h) (by omega)
  rw [parseMark]
  refine (require_gives _).bind fun _ _ => (within_gives _).bind fun byte hbyte => ?_
  obtain ⟨hlt', hbyte⟩ := List.getElem?_eq_some_iff.1 hbyte
  have hnext : (byteOffset + 1).toNat = byteOffset.toNat + 1 := by
    rw [UInt64.toNat_add, show (1 : UInt64).toNat = 1 from rfl, Nat.mod_eq_of_lt (by omega)]
  have hmark : (0 + (byte &&& 0x7f).toUInt64 <<< UInt64.ofNat 0).toNat = (byte &&& 0x7f).toNat := by
    have := (mark_add 0 byte (Nat.zero_le 28) Nat.one_pos).1
    rwa [show (0 : UInt64).toNat = 0 from rfl, Nat.zero_or, Nat.shiftLeft_zero] at this
  -- The accessor reads the same first byte, and asks for the low bits there, not at the end.
  have hread : readString true (.at (location.view W)) =
      if byte &&& 3 ≠ 0 then .ok none
      else if byte &&& 0x80 = 0 then
        if true = true ∧ ((bytesOf W).drop (byteOffset.toNat + 1)).length < (byte >>> 2).toNat then
          .ok none
        else .ok (some ⟨(bytesOf W).drop (byteOffset.toNat + 1), (byte >>> 2).toNat⟩)
      else stringMark true 7 (byte &&& 0x7f).toNat ((bytesOf W).drop (byteOffset.toNat + 1)) := by
    rw [readString, if_neg (by rw [hreach]; simp [Ptr.null])]
    dsimp only
    rw [hview, List.drop_eq_getElem_cons hlt', hbyte]
  by_cases hlast : byte &&& 0x80 = 0
  · rw [if_pos hlast]
    -- The length is in one byte.
    refine (parseEnd_gives hW _ _ _).mono fun bytes h => ?_
    obtain ⟨h4, hat, hlen, hle⟩ := h
    rw [hmark] at h4 hlen hle
    have hlow := and_3 byte h4
    have hsize : (byte >>> 2).toNat = (byte &&& 0x7f).toNat / 4 := by
      rw [and_0x7f byte hlast, UInt8.toNat_shiftRight]
      exact Nat.shiftRight_eq_div_pow _ 2
    refine ⟨by omega, by omega, ?_⟩
    rw [hread, if_neg (not_not.2 hlow), if_pos hlast, if_neg, hat, hnext, hlen, hsize]
    rw [List.length_drop, length_bytesOf, hsize]
    omega
  · rw [if_neg hlast]
    -- The rest of the length is in the bytes that follow.
    have hlt7 : (byte &&& 0x7f).toNat < 2 ^ 7 := by
      rw [UInt8.toNat_and]
      exact Nat.and_lt_two_pow _ (by decide)
    have hlen := length_bytesOf W
    refine (parseMark_gives hW byteLimit le_rfl (by omega) (by rw [hmark]; exact hlt7)).mono
      fun bytes h => ?_
    rw [hmark, hnext] at h
    obtain ⟨h4, hat, hle, hstring⟩ := h
    have hlow := and_3 byte h4
    refine ⟨by omega, hle, ?_⟩
    rw [hread, if_neg (not_not.2 hlow), if_neg hlast]
    exact hstring

end

end ProtoCache.Wasm

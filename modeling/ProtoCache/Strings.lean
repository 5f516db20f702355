import ProtoCache.Detect
import ProtoCache.ReadBack

/-!
# Strings

A string is written (`src/serialize.cc`) as the varint code of its size and its bytes, into words
of which the last is cleared before. It is read, and its extent is detected, by `String`
(`include/protocache/access.h`).

* `storeString_eq`: what is stored, whatever the words held before;
* `string_roundTrip`: what is written is read and detected, and nothing is read if the end
  cuts something off.
-/

namespace ProtoCache

open LittleEndian

/-! ## Storing a string -/

/-- `WriteVarInt`. -/
def writeVarInt (n : UInt32) : List UInt8 :=
  if n &&& ~~~0x7f ≠ 0 then (0x80 ||| (n &&& 0x7f)).toUInt8 :: writeVarInt (n >>> 7)
    else [n.toUInt8]
termination_by n.toNat
decreasing_by
  rename_i h
  have hne : n.toNat ≠ 0 := fun h0 => h (by
    obtain rfl : n = 0 := UInt32.toNat_inj.1 h0
    rfl)
  rw [UInt32.toNat_shiftRight, Nat.shiftRight_eq_div_pow]
  exact Nat.div_lt_self (Nat.pos_of_ne_zero hne) (by decide)

/-- What `Serialize` of a string stores in the words `dest`, as bytes: zeros in the last word,
    then the header and the string from the start on. -/
def storeString (dest : List UInt32) (str : List UInt8) : Res (List UInt8) := do
  let header := writeVarInt (UInt32.ofNat str.length <<< 2)
  let mem ← access (Storage.write (bytesOf dest) (4 * (dest.length - 1)) (wordBytes 0))
  let mem ← access (Storage.write mem 0 header)
  access (Storage.write mem header.length str)

theorem writeVarInt_eq (n : UInt32) : writeVarInt n = Varint.encode n.toNat := by
  induction hn : n.toNat using Nat.strongRecOn generalizing n with
  | ind k ih =>
  subst hn
  have hmask : n &&& ~~~0x7f = 0 ↔ n.toNat < 128 := by
    rw [← UInt32.toNat_inj, UInt32.toNat_and]
    exact Varint.and_mask_eq_zero_iff n.toNat_lt
  have hbyte : (0x80 ||| (n &&& 0x7f)).toUInt8 = UInt8.ofNat (n.toNat % 128 + 128) := by
    rw [← UInt8.toNat_inj, UInt32.toNat_toUInt8, UInt32.toNat_or, UInt32.toNat_and,
      UInt8.toNat_ofNat']
    change (128 ||| n.toNat &&& 127) % 256 = _
    rw [Varint.and_127, Varint.or_128 (Nat.mod_lt _ (by decide)), Nat.add_comm]
  have hshift : (n >>> 7).toNat = n.toNat / 128 := by
    rw [UInt32.toNat_shiftRight]
    exact Nat.shiftRight_eq_div_pow _ _
  rw [writeVarInt]
  split
  · rename_i h
    have hle : 128 ≤ n.toNat := Nat.le_of_not_lt fun hlt => h (hmask.2 hlt)
    rw [Varint.encode_of_le hle, hbyte, ih (n >>> 7).toNat (by rw [hshift]; omega) _ rfl, hshift]
  · rename_i h
    rw [Varint.encode_of_lt (hmask.1 (not_not.1 h))]
    rfl

/-- The size of a string and the two bits behind it, in the header. -/
theorem toNat_mark {n : ℕ} (h : n < 2 ^ 30) : (UInt32.ofNat n <<< 2).toNat = n <<< 2 := by
  rw [UInt32.toNat_shiftLeft, UInt32.toNat_ofNat', Nat.mod_eq_of_lt (by omega : n < 2 ^ 32)]
  change n <<< 2 % 2 ^ 32 = n <<< 2
  rw [Nat.shiftLeft_eq]
  exact Nat.mod_eq_of_lt (by omega)

/-- The words of a string are what is stored of it, whatever the words held before. -/
theorem storeString_eq {str : List UInt8} (hs : str.length < 2 ^ 30) {dest : List UInt32}
    (hdest : dest.length = (stringWords str).length) :
    storeString dest str = .ok (bytesOf (stringWords str)) := by
  rw [storeString, writeVarInt_eq, toNat_mark hs, bytesOf_stringWords]
  have hpos := Varint.length_encode_pos (str.length <<< 2)
  have hmem := length_bytesOf dest
  rw [stringWords, length_wordsOf, List.length_append] at hdest
  rw [List.length_append]
  generalize Varint.encode (str.length <<< 2) = header at hdest hpos ⊢
  generalize hn : dest.length = n at hdest hmem
  have hsize : 4 * (n - 1) < header.length + str.length ∧ header.length + str.length ≤ 4 * n := by
    rw [wordSize] at hdest
    omega
  rw [← hdest]
  have hlast : 4 * (n - 1) + (wordBytes 0).length = (bytesOf dest).length := by
    rw [length_wordBytes, hmem]
    omega
  rw [Storage.write_of_le (Nat.le_of_eq hlast), access_some, Res.ok_bind, hlast, List.drop_length,
    List.append_nil]
  have hcleared : ((bytesOf dest).take (4 * (n - 1)) ++ wordBytes 0).length = 4 * n := by
    rw [List.length_append, List.length_take, length_wordBytes, hmem]
    omega
  rw [Storage.write_of_le (by rw [hcleared]; omega), access_some, Res.ok_bind, List.take_zero,
    List.nil_append, Nat.zero_add, Storage.write_of_le (by
      rw [List.length_append, List.length_drop, hcleared]
      omega), access_some, List.take_left, List.drop_append, List.drop_eq_nil_of_le (by omega),
    List.nil_append, Nat.add_sub_cancel_left, List.drop_drop, List.drop_append,
    List.drop_eq_nil_of_le (by rw [List.length_take]; omega), List.nil_append]
  have hzeros : wordBytes 0 = List.replicate 4 0 := by decide
  rw [hzeros, List.drop_replicate, List.length_take, hmem, Nat.min_eq_left (by omega)]
  congr 4
  omega

/-! ## Reading a string up to an end -/

theorem stringMark_append {sft mark : ℕ} {p : List UInt8} {s : ByteSlice}
    (h : stringMark true sft mark p = .ok (some s)) (t : List UInt8) :
    stringMark true sft mark (p ++ t) = .ok (some ⟨s.mem ++ t, s.size⟩) := by
  induction p generalizing sft mark with
  | nil =>
    rw [stringMark, if_neg fun h => Bool.noConfusion h.2] at h
    cases h
  | cons b p ih =>
    rw [List.cons_append, stringMark]
    rw [stringMark] at h
    split
    · rename_i hsft
      rw [if_pos hsft] at h
      split
      · rename_i hb
        rw [if_pos hb] at h
        exact ih h
      · rename_i hb
        rw [if_neg hb] at h
        dsimp only at h ⊢
        split at h
        · cases h
        · rename_i hle
          cases h
          rw [if_neg fun hlt => hle ⟨rfl, Nat.lt_of_le_of_lt (by simp) hlt.2⟩]
    · rename_i hsft
      rw [if_neg hsft] at h
      cases h

/-- A string that is read before an end is read before a later one as well. -/
theorem readString_append {v : List UInt32} {s : ByteSlice}
    (h : readString true (.at v) = .ok (some s)) (rest : List UInt32) :
    readString true (.at (v ++ rest)) = .ok (some ⟨s.mem ++ bytesOf rest, s.size⟩) := by
  rw [readString] at h
  split at h
  · cases h
  · dsimp only at h
    split at h
    · cases h
    · rename_i b p hb
      have hne : v ++ rest ≠ [] := by
        intro h0
        rw [(List.append_eq_nil_iff.1 h0).1] at hb
        cases hb
      rw [readString, if_neg]
      · dsimp only
        rw [bytesOf_append, hb, List.cons_append]
        dsimp only
        split at h
        · cases h
        · rename_i hlow
          rw [if_neg hlow]
          split at h
          · rename_i htop
            rw [if_pos htop]
            split at h
            · cases h
            · rename_i hle
              cases h
              rw [if_neg fun hlt => hle ⟨rfl, Nat.lt_of_le_of_lt (by simp) hlt.2⟩]
          · rename_i htop
            rw [if_neg htop]
            exact stringMark_append h _
      · rintro (h | h)
        · cases h
        · rw [Ptr.reaches, List.isEmpty_eq_false_iff.2 hne, Bool.and_false] at h
          cases h

/-- No string is read before an end that cuts off a word of it. -/
theorem readString_cut {str : List UInt8} (hs : str.length < 2 ^ 30) {k : ℕ}
    (hk : k < (stringWords str).length) :
    readString true (.at ((stringWords str).take k)) = .ok none := by
  obtain ⟨r, hr, hin⟩ := readString_safe ((stringWords str).take k)
  cases r with
  | none => exact hr
  | some s =>
    have hall := readString_append hr ((stringWords str).drop k)
    have hread := readString_stringWords hs true []
    rw [List.take_append_drop] at hall
    rw [List.append_nil, bytesOf_nil, List.append_nil] at hread
    have heq := Option.some.inj (Except.ok.inj (hall.symm.trans hread))
    obtain ⟨hmem, hsize⟩ := ByteSlice.mk.inj heq
    have hlen := congrArg List.length hmem
    have hsmall := (hin s rfl).2
    rw [stringWords, length_wordsOf] at hk
    simp only [List.length_append, length_bytesOf, List.length_drop, stringWords, length_wordsOf,
      List.length_replicate, wordSize] at hk hlen
    omega

/-! ## The round trip -/

/-- `String::Detect` of what was written. -/
theorem detectString_stringWords {str : List UInt8} (hs : str.length < 2 ^ 30) (b : Bool)
    (rest : List UInt32) : detectString b (.at (stringWords str ++ rest)) =
      .ok ⟨.at (stringWords str ++ rest), (stringWords str).length⟩ := by
  rw [detectString, readString_stringWords hs, Res.ok_bind]
  dsimp only
  rw [Res.pure_eq]
  congr 2
  rw [List.length_append, List.length_append, List.length_append, List.length_replicate,
    length_bytesOf, stringWords, length_wordsOf, List.length_append, wordSize]
  omega

/-- The words `ws` are those of the string `str`: it is what is stored in as many words, whatever
    they held before, and up to three zeros are behind it. With any words behind, and with an
    end behind its words or none, it is read as the string and detected as its words. With an
    end that cuts off a part, it is not read. -/
structure Spells (ws : List UInt32) (str : List UInt8) : Prop where
  stored : ∀ dest : List UInt32, dest.length = ws.length → storeString dest str = .ok (bytesOf ws)
  padded : ∃ header k, k < 4 ∧ bytesOf ws = header ++ (str ++ List.replicate k 0)
  read : ∀ b rest, ∃ s, readString b (.at (ws ++ rest)) = .ok (some s) ∧
    ByteSlice.get (some s) = .ok str
  detected : ∀ b rest, detectString b (.at (ws ++ rest)) = .ok ⟨.at (ws ++ rest), ws.length⟩
  cut : ∀ k < ws.length, readString true (.at (ws.take k)) = .ok none

theorem stringWords_spells {str : List UInt8} (hs : str.length < 2 ^ 30) :
    Spells (stringWords str) str where
  stored _ hdest := storeString_eq hs hdest
  padded := by
    refine ⟨_, _, ?_, bytesOf_stringWords str⟩
    rw [wordSize]
    omega
  read b rest := by
    obtain ⟨s, hread, -, hget⟩ := readString_eq hs b rest
    exact ⟨s, hread, hget⟩
  detected b rest := detectString_stringWords hs b rest
  cut _ hk := readString_cut hs hk

/-- `Serialize` of a string of less than `2 ^ 30` bytes writes the words of the string, in the
    unit or in front of the buffer. -/
theorem string_roundTrip (str : List UInt8) (hs : str.length < 2 ^ 30) (buf : Buffer) :
    ∃ u out ws, serializeString str buf = .ok (u, out) ∧ Spells ws str ∧
      ((u = { len := 1, d₀ := ws.headD 0 } ∧ ws.length = 1 ∧ out = buf) ∨
        (u = segment buf.length out.length ∧ out = ws ++ buf)) := by
  rw [serializeString, if_neg (Nat.not_le.2 hs)]
  split
  · rename_i w hw
    exact ⟨_, _, _, rfl, stringWords_spells hs, .inl ⟨by rw [hw]; rfl, by rw [hw]; rfl, rfl⟩⟩
  · refine ⟨_, _, _, rfl, stringWords_spells hs, .inr ⟨?_, rfl⟩⟩
    rw [List.length_append]

/-- A string of three bytes. -/
theorem string_roundTrip_three : ∃ u out ws, serializeString [97, 98, 99] [5] = .ok (u, out) ∧
    Spells ws [97, 98, 99] ∧
    ((u = { len := 1, d₀ := ws.headD 0 } ∧ ws.length = 1 ∧ out = [5]) ∨
      (u = segment 1 out.length ∧ out = ws ++ [5])) :=
  string_roundTrip [97, 98, 99] (by decide) [5]

end ProtoCache

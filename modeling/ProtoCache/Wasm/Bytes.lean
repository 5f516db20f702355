import ProtoCache.Decompress

/-!
# Compression behind the WASM module

`pc_compress` and `pc_decompress` (`typescript/wasm/protocache_wasm.cc`) check the ranges of
memory that they are given, and `pc_decompress` the size header as well, before they call
`Compress` and `Decompress`. The linear memory is the list of its bytes.

* `decompress_header`: the header is accepted if the size is at most `2 ^ 32 - 8`, and then
  `Decompress` reads the same size, and `pc_decompress` does not leave its memory.
-/

namespace ProtoCache.Wasm

/-! ## The code -/

/-- `PcWasmStatus`. -/
inductive Status
  | ok
  | invalidArgument
  | outOfBounds
  | unaligned
  | buildFailed
  | outOfMemory
  | internalError
  | invalidData
  deriving DecidableEq, Repr

/-- `ValidateRange`; the heap has the size of the linear memory. -/
def validateRange (heap : List UInt8) (address : UInt32) (length : UInt64) (alignment : UInt32) :
    Status :=
  if address = 0 then .invalidArgument
  else if address % alignment ≠ 0 then .unaligned
  else
    let tail := address.toUInt64 + length
    if tail < address.toUInt64 then .outOfBounds
    else if tail.toNat ≤ heap.length then .ok else .outOfBounds

/-- The loop of `ValidDecompressedSizeHeader`. -/
def validSize (shift : ℕ) (size : UInt64) : List UInt8 → Bool
  | [] => false
  | byte :: input =>
    if shift < 32 then
      let size := size ||| (byte &&& 0x7f).toUInt64 <<< UInt64.ofNat shift
      if byte &&& 0x80 = 0 then size ≤ 0xffffffff - 7 else validSize (shift + 7) size input
    else false

/-- `ValidDecompressedSizeHeader`. -/
def validDecompressedSizeHeader (input : List UInt8) : Bool :=
  if input.isEmpty then true else validSize 0 0 input

/-- Storing zeros, as `*result = {}` does with the twelve bytes of a `PcBytesResult`. -/
def clearResult (heap : List UInt8) (address : UInt32) : Res (List UInt8) :=
  access (Storage.write heap address.toNat (List.replicate 12 0))

/-- `TransformBytes`: the status, and the bytes of the result. Whether there is memory for
    these is `granted`. -/
def transformBytes (heap : List UInt8) (inputPtr inputLen resultPtr : UInt32)
    (decompress granted : Bool) :
    Res (Status × List UInt8) :=
  let resultValidation := validateRange heap resultPtr 12 4
  if resultValidation ≠ .ok then .ok (resultValidation, [])
  else do
    let heap ← clearResult heap resultPtr
    let inputValidation :=
      if inputLen ≠ 0 then validateRange heap inputPtr inputLen.toUInt64 1 else .ok
    if inputValidation ≠ .ok then return (inputValidation, [])
    else do
      let input ← access (Storage.load (heap.drop inputPtr.toNat) inputLen.toNat)
      if decompress && !validDecompressedSizeHeader input then return (.invalidData, [])
      else if !granted then return (.outOfMemory, [])
      else
        match if decompress then ProtoCache.decompress input else compress input with
        | .error .reject => return (.invalidData, [])
        | .error e => .error e
        | .ok data =>
          if data.length > 0xffffffff then return (.outOfMemory, []) else return (.ok, data)

/-- `pc_decompress`. -/
def pcDecompress (heap : List UInt8) (inputPtr inputLen resultPtr : UInt32) (granted : Bool) :
    Res (Status × List UInt8) :=
  transformBytes heap inputPtr inputLen resultPtr true granted

/-- `pc_compress`. -/
def pcCompress (heap : List UInt8) (inputPtr inputLen resultPtr : UInt32) (granted : Bool) :
    Res (Status × List UInt8) :=
  transformBytes heap inputPtr inputLen resultPtr false granted

/-! ## The size header -/

/-- Adding a group of seven bits to a size of 64 bits. -/
theorem toNat_or_group64 {size : UInt64} {shift x : ℕ} (hs : size.toNat < 2 ^ shift)
    (hshift : shift < 32) {w : UInt64} (hw : w.toNat = x) (hx : x < 128) :
    (size ||| w <<< UInt64.ofNat shift).toNat = size.toNat + x * 2 ^ shift := by
  have hlt : x * 2 ^ shift < 2 ^ 64 :=
    calc x * 2 ^ shift < 128 * 2 ^ shift := Nat.mul_lt_mul_of_pos_right hx (Nat.two_pow_pos shift)
      _ ≤ 128 * 2 ^ 31 :=
        Nat.mul_le_mul_left _ (Nat.pow_le_pow_right (by decide) (Nat.le_of_lt_succ hshift))
      _ < 2 ^ 64 := by decide
  rw [UInt64.toNat_or, UInt64.toNat_shiftLeft, hw, UInt64.toNat_ofNat',
    Nat.mod_eq_of_lt (show shift < 2 ^ 64 by omega), Nat.mod_eq_of_lt (show shift < 64 by omega),
    Nat.mod_eq_of_lt (by rwa [Nat.shiftLeft_eq]), Varint.or_shiftLeft hs]

/-- The loop compares the number that a code of at most five bytes stands for. -/
theorem validSize_eq (k : ℕ) {shift : ℕ} (hk : shift + 7 * k = 35) (input : List UInt8)
    {size : UInt64} (hs : size.toNat < 2 ^ shift) :
    validSize shift size input = true ↔
      ∃ n rest, Varint.decode k input = some (n, rest) ∧ size.toNat + n * 2 ^ shift ≤
        2 ^ 32 - 8 := by
  -- By induction on the bytes that may come: each holds the next seven bits of the number.
  induction k generalizing shift input size with
  | zero =>
    refine iff_of_false ?_ fun ⟨_, _, h, _⟩ => by cases h
    cases input with
    | nil => exact Bool.false_ne_true
    | cons byte input =>
      rw [validSize, if_neg (by omega)]
      exact Bool.false_ne_true
  | succ k ih =>
    cases input with
    | nil => exact iff_of_false Bool.false_ne_true fun ⟨_, _, h, _⟩ => by cases h
    | cons byte input =>
      have hlast : byte &&& 0x80 = 0 ↔ byte.toNat < 128 :=
        forall_byte (P := fun b => b &&& 0x80 = 0 ↔ b.toNat < 128) (by decide +kernel) byte
      have h7 : (byte &&& 0x7f).toUInt64.toNat = byte.toNat % 128 := by
        rw [UInt8.toNat_toUInt64, UInt8.toNat_and]
        exact Varint.and_127 _
      have hgroup := toNat_or_group64 hs (by omega) h7 (Nat.mod_lt _ (by decide))
      have hpow : 2 ^ (shift + 7) = 2 ^ shift * 128 := by rw [Nat.pow_add]
      have hlow : byte.toNat % 128 * 2 ^ shift ≤ 127 * 2 ^ shift :=
        Nat.mul_le_mul_right _ (by omega)
      rw [validSize, if_pos (by omega), Varint.decode]
      dsimp only
      by_cases hb : byte.toNat < 128
      · rw [if_pos (hlast.2 hb), if_pos hb, decide_eq_true_eq, UInt64.le_iff_toNat_le, hgroup,
          Nat.mod_eq_of_lt hb]
        constructor
        · exact fun h => ⟨_, _, rfl, h⟩
        · rintro ⟨n, rest, hn, h⟩
          cases hn
          exact h
      · rw [if_neg (fun h => hb (hlast.1 h)), if_neg hb,
          ih (by omega) input (by rw [hgroup, hpow]; omega), hgroup]
        have hsum : ∀ v, (byte.toNat % 128 + 128 * v) * 2 ^ shift =
            byte.toNat % 128 * 2 ^ shift + v * 2 ^ (shift + 7) := fun v => by rw [hpow]; ring
        constructor
        · rintro ⟨v, rest, hv, h⟩
          exact ⟨_, rest, by rw [hv]; rfl, by rw [hsum, ← Nat.add_assoc]; exact h⟩
        · rintro ⟨n, rest, hn, h⟩
          obtain ⟨⟨v, rest'⟩, hv, he⟩ := Option.map_eq_some_iff.1 hn
          cases he
          rw [hsum, ← Nat.add_assoc] at h
          exact ⟨v, rest', hv, h⟩

/-- The header is accepted if there is none, or the size is not too large for the slack. -/
theorem validHeader_iff (input : List UInt8) : validDecompressedSizeHeader input = true ↔
    input = [] ∨ ∃ n rest, Varint.decode 5 input = some (n, rest) ∧ n ≤ 2 ^ 32 - 8 := by
  cases input with
  | nil => exact iff_of_true rfl (.inl rfl)
  | cons byte input =>
    have h : validSize 0 0 (byte :: input) = true ↔ _ :=
      validSize_eq 5 rfl (byte :: input) (by decide)
    rw [validDecompressedSizeHeader, if_neg (by simp), h]
    simp

/-- `Decompress` reads the size of a header that is accepted, and its slack does not wrap
    around. -/
theorem parseSize_of_valid {input rest : List UInt8} {n : ℕ}
    (hdec : Varint.decode 5 input = some (n, rest)) (hn : n ≤ 2 ^ 32 - 8) :
    parseSize 0 0 input = .ok (UInt32.ofNat n, rest) ∧ (UInt32.ofNat n).toNat = n ∧
      (UInt32.ofNat n + 7).toNat = n + 7 := by
  have hsize : (UInt32.ofNat n).toNat = n := by
    rw [UInt32.toNat_ofNat', Nat.mod_eq_of_lt (by omega)]
  refine ⟨?_, hsize, ?_⟩
  · have hparse : parseSize 0 0 input = _ :=
      parseSize_of_decode hdec (by decide) (by decide) (by simp; omega)
    simpa using hparse
  · rw [toNat_add_seven, hsize, Nat.mod_eq_of_lt (by omega)]

/-- Behind a header that is accepted, `Decompress` stays in the input and in its output. -/
theorem decompress_of_valid {input : List UInt8} (h : validDecompressedSizeHeader input = true) :
    decompress input ≠ .error .fault := by
  rw [ne_eq, decompress_eq_fault_iff]
  rintro ⟨n, rest, hp, hn, -⟩
  rcases (validHeader_iff input).1 h with rfl | ⟨n', rest', hdec, hle⟩
  · cases hp
  · obtain ⟨hp', hsize, -⟩ := parseSize_of_valid hdec hle
    cases hp.symm.trans hp'
    omega

/-! ## The module -/

/-- A range that is valid lies in the heap. -/
theorem validateRange_ok {heap : List UInt8} {address alignment : UInt32} {length : UInt64}
    (h : validateRange heap address length alignment = .ok) (hl : length.toNat < 2 ^ 32) :
    address.toNat + length.toNat ≤ heap.length := by
  have hsum : (address.toUInt64 + length).toNat = address.toNat + length.toNat := by
    have := address.toNat_lt
    rw [UInt64.toNat_add, UInt32.toNat_toUInt64, Nat.mod_eq_of_lt (by omega)]
  rw [validateRange] at h
  split at h
  · cases h
  · split at h
    · cases h
    · dsimp only at h
      split at h
      · cases h
      · split at h
        · rename_i hle
          rwa [hsum] at hle
        · cases h

/-- `pc_decompress` never leaves the memory, wherever the ranges are and whatever the input
    is. -/
theorem pcDecompress_safe (heap : List UInt8) (inputPtr inputLen resultPtr : UInt32)
    (granted : Bool) :
    pcDecompress heap inputPtr inputLen resultPtr granted ≠ .error .fault := by
  rw [pcDecompress, transformBytes]
  split
  · exact fun h => by cases h
  · rename_i hresult
    have hrange := validateRange_ok (not_not.1 hresult) (by decide)
    -- The range of the result is checked before it is cleared.
    obtain ⟨heap', hheap, hlen, -⟩ :=
      Storage.exists_write heap resultPtr.toNat 12 (List.replicate 12 0)
      hrange le_rfl
    rw [clearResult, hheap, access_some, Res.ok_bind]
    dsimp only
    generalize hstatus : (if inputLen ≠ 0 then validateRange heap' inputPtr inputLen.toUInt64 1
      else .ok) = status
    split
    · exact fun h => by cases h
    · rename_i hvalid
      rw [not_not] at hvalid
      subst hvalid
      -- So is the range of the input; an empty one is loaded from nowhere.
      obtain ⟨input, hload⟩ : ∃ input,
          Storage.load (heap'.drop inputPtr.toNat) inputLen.toNat = some input := by
        refine ⟨_, Storage.load_of_le ?_⟩
        by_cases h0 : inputLen = 0
        · subst h0
          exact Nat.zero_le _
        · rw [if_pos h0] at hstatus
          have := validateRange_ok hstatus inputLen.toNat_lt
          rw [UInt32.toNat_toUInt64] at this
          rw [List.length_drop]
          omega
      rw [hload, access_some, Res.ok_bind]
      split
      · exact fun h => by cases h
      · rename_i hheader
        rw [Bool.true_and, Bool.not_eq_true, Bool.not_eq_false'] at hheader
        split
        · exact fun h => by cases h
        · rw [if_pos rfl]
          -- The header was checked, and with it what `Decompress` may store.
          have hsafe := decompress_of_valid hheader
          split
          · exact fun h => by cases h
          · rename_i e hne he
            intro h
            cases h
            exact hsafe he
          · split
            · exact fun h => by cases h
            · exact fun h => by cases h

/-- `ValidDecompressedSizeHeader` accepts a byte string if and only if it is empty or the size
    that its header stands for is at most `2 ^ 32 - 8`. Then `Decompress` reads this size
    from it, and what follows the header, and the sum of the size and seven does not wrap
    around. So `pc_decompress` stays in its memory for any input. -/
theorem decompress_header :
    (∀ input, validDecompressedSizeHeader input = true ↔
      input = [] ∨ ∃ n rest, Varint.decode 5 input = some (n, rest) ∧ n ≤ 2 ^ 32 - 8) ∧
    (∀ input n rest, validDecompressedSizeHeader input = true →
      Varint.decode 5 input = some (n, rest) → parseSize 0 0 input = .ok (UInt32.ofNat n, rest) ∧
        (UInt32.ofNat n).toNat = n ∧ (UInt32.ofNat n + 7).toNat = n + 7) ∧
    ∀ heap inputPtr inputLen resultPtr granted,
      pcDecompress heap inputPtr inputLen resultPtr granted ≠ .error .fault := by
  refine ⟨validHeader_iff, fun input n rest hvalid hdec => ?_, pcDecompress_safe⟩
  rcases (validHeader_iff input).1 hvalid with rfl | ⟨n', rest', hdec', hle⟩
  · cases hdec
  · cases hdec.symm.trans hdec'
    exact parseSize_of_valid hdec hle

/-- The largest size that is accepted. -/
theorem decompress_header_largest :
    parseSize 0 0 [0xf8, 0xff, 0xff, 0xff, 0x0f] = .ok (0xfffffff8, []) :=
  (decompress_header.2.1 [0xf8, 0xff, 0xff, 0xff, 0x0f] 0xfffffff8 [] (by decide) (by decide)).1

end ProtoCache.Wasm

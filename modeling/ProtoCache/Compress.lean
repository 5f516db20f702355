import Mathlib.Tactic.IntervalCases
import ProtoCache.Basic
import ProtoCache.Lib.Storage
import ProtoCache.Lib.Varint

/-!
# Compression

`Compress` and `Decompress` (`src/utils.cc`): a size header, then tokens in
pairs. A token is a run of up to four bytes `0x00` or `0xff`, or a literal of up
to seven other bytes; its nibble tells which, and the nibbles of two tokens
share a mark byte, behind which the bytes of the literals stand. The last token
may be alone in its mark.

Both functions store blocks that are wider than the token: the model keeps the
storage and the position in it, and an access outside of the input or the
storage is a fault.

* `compressLoop_spec`: from enough room (`Room`), the loop of `Compress` stores
  a pairing (`stream`) of tokens that spell the input, without a fault. The room
  is amortised: a pair of tokens costs a mark byte, which a run pays, and so do
  two literals of seven bytes; only a short literal behind a full one leaves a
  debt, and the run behind it pays it.
* `decompressLoop_stream`: the loop of `Decompress` spells the tokens again.
-/

namespace ProtoCache

open Storage

/-! ## The code -/

/-- `out->resize(n)`: cut off, or filled with zeros. -/
def resize (out : List UInt8) (n : ℕ) : List UInt8 :=
  out.take n ++ List.replicate (n - out.length) 0

/-- The size header of `Compress`; the mask `~0x7fU` has 32 bits. -/
def sizeHeader (n : ℕ) : List UInt8 :=
  if _h : n &&& 0xffffff80 ≠ 0 then UInt8.ofNat (0x80 ||| (n &&& 0x7f)) :: sizeHeader (n >>> 7)
  else [UInt8.ofNat n]
termination_by n
decreasing_by
  have : n ≠ 0 := by rintro rfl; exact _h (by simp)
  rw [Nat.shiftRight_eq_div_pow]
  omega

/-- The test of `pick`: as a signed byte, `x` equals `x >> 1`. -/
def isFill (ch : UInt8) : Bool := ch.toInt8 == ch.toInt8 >>> 1

/-- The loop of `pick` on a run of `ch`. -/
def pickRun (ch cnt : UInt8) : List UInt8 → UInt8 × List UInt8
  | [] => (cnt, [])
  | b :: src => if cnt < 4 && b == ch then pickRun ch (cnt + 1) src else (cnt, b :: src)

/-- The loop of `pick` on a literal. -/
def pickLiteral (cnt : UInt8) : List UInt8 → UInt8 × List UInt8
  | [] => (cnt, [])
  | b :: src =>
    if cnt < 7 && b != 0 && b != 0xff then pickLiteral (cnt + 1) src else (cnt, b :: src)

/-- `pick`, after its first load `ch`: the nibble of the token and what is left. -/
def pickToken (ch : UInt8) (src : List UInt8) : UInt8 × List UInt8 :=
  if isFill ch then
    let r := pickRun ch 1 src
    (0x8 ||| (ch &&& 0x4) ||| (r.1 - 1), r.2)
  else pickLiteral 1 src

/-- `copy`: eight bytes at once where the source has them. -/
def copy (mem : List UInt8) (dest : ℕ) (s : List UInt8) (l : ℕ) : Res (List UInt8 × ℕ) := do
  let block ← access (load s (if 8 ≤ s.length then 8 else l))
  let mem ← access (write mem dest block)
  return (mem, dest + l)

/-- Storing the bytes of a token behind its mark. -/
def copyToken (mem : List UInt8) (dest : ℕ) (s : List UInt8) (a : UInt8) :
    Res (List UInt8 × ℕ) :=
  if a &&& 0x8 == 0 then copy mem dest s a.toNat else .ok (mem, dest)

theorem length_pickRun_le (ch cnt : UInt8) (src : List UInt8) :
    (pickRun ch cnt src).2.length ≤ src.length := by
  induction src generalizing cnt with
  | nil => simp [pickRun]
  | cons b src ih =>
    rw [pickRun]
    split
    · exact (ih _).trans (Nat.le_succ _)
    · exact le_rfl

theorem length_pickLiteral_le (cnt : UInt8) (src : List UInt8) :
    (pickLiteral cnt src).2.length ≤ src.length := by
  induction src generalizing cnt with
  | nil => simp [pickLiteral]
  | cons b src ih =>
    rw [pickLiteral]
    split
    · exact (ih _).trans (Nat.le_succ _)
    · exact le_rfl

/-- A token takes at least its first byte. -/
theorem length_pick_le (ch : UInt8) (src : List UInt8) :
    (pickToken ch src).2.length ≤ src.length := by
  rw [pickToken]
  split
  · exact length_pickRun_le ch 1 src
  · exact length_pickLiteral_le 1 src

/-- The loop of `Compress`, on the storage `mem` written up to `dest`. -/
def compressLoop (mem : List UInt8) (dest : ℕ) : List UInt8 → Res (List UInt8 × ℕ)
  | [] => .ok (mem, dest)
  | ch :: src =>
    match pickToken ch src, length_pick_le ch src with
    | (a, []), _ => do
      let mem ← access (write mem dest [a])
      copyToken mem (dest + 1) (ch :: src) a
    | (a, ch' :: src'), _h => do
      let b := pickToken ch' src'
      let mem ← access (write mem dest [a ||| b.1 <<< 4])
      let (mem, dest) ← copyToken mem (dest + 1) (ch :: src) a
      let (mem, dest) ← copyToken mem dest (ch' :: src') b.1
      compressLoop mem dest b.2
termination_by src => src.length
decreasing_by
  have h' := length_pick_le ch' src'
  simp only [List.length_cons] at _h ⊢
  omega

/-- `Compress`. -/
def compress (src : List UInt8) : Res (List UInt8) :=
  if src.isEmpty then .ok []
  else do
    let header := sizeHeader src.length
    let mem := resize header (header.length + src.length + (src.length + 13) / 14)
    let (mem, dest) ← compressLoop mem header.length src
    return resize mem dest

/-- `parse_size` of `Decompress`. -/
def parseSize (sft : ℕ) (size : UInt32) : List UInt8 → Res (UInt32 × List UInt8)
  | [] => .error .reject
  | b :: src =>
    if sft < 32 then
      if b &&& 0x80 != 0 then
        parseSize (sft + 7) (size ||| (b &&& 0x7f).toUInt32 <<< UInt32.ofNat sft) src
      else .ok (size ||| b.toUInt32 <<< UInt32.ofNat sft, src)
    else .error .reject

/-- The state of the loop of `Decompress`: the input left, the storage and the
    position in it. -/
structure Unpacking where
  src : List UInt8
  mem : List UInt8
  dest : ℕ

/-- The branch of `unpack` for a run of `cnt` bytes `b`, stored four at once. -/
def unpackRun (tail cnt : ℕ) (b : UInt8) (s : Unpacking) : Res Unpacking :=
  if tail < s.dest + cnt then .error .reject
  else do
    let mem ← access (write s.mem s.dest (List.replicate 4 b))
    return { s with mem, dest := s.dest + cnt }

/-- The branch of `unpack` for a literal of `l` bytes, stored eight at once where
    the input has them. -/
def unpackLiteral (tail l : ℕ) (s : Unpacking) : Res Unpacking :=
  if s.src.length < l ∨ tail < s.dest + l then .error .reject
  else do
    let block ← access (load s.src (if 8 ≤ s.src.length then 8 else l))
    let mem ← access (write s.mem s.dest block)
    return ⟨s.src.drop l, mem, s.dest + l⟩

/-- `unpack` of `Decompress`. -/
def unpack (tail : ℕ) (mark : UInt8) (s : Unpacking) : Res Unpacking :=
  if mark &&& 8 != 0 then
    unpackRun tail ((mark &&& 3).toNat + 1) ((0 : UInt8) - ((mark >>> 2) &&& 1)) s
  else if mark != 0 then unpackLiteral tail mark.toNat s
  else .ok s

/-- `unpack` only moves forward in the input. -/
theorem length_unpack_le {tail : ℕ} {mark : UInt8} {s s' : Unpacking}
    (h : unpack tail mark s = .ok s') : s'.src.length ≤ s.src.length := by
  rw [unpack, unpackRun, unpackLiteral] at h
  split at h
  · split at h
    · cases h
    · obtain ⟨_, _, h⟩ := Res.bind_eq_ok.1 h
      cases h
      exact le_rfl
  · split at h
    · split at h
      · cases h
      · obtain ⟨_, _, h⟩ := Res.bind_eq_ok.1 h
        obtain ⟨_, _, h⟩ := Res.bind_eq_ok.1 h
        cases h
        simp
    · cases h
      exact le_rfl

/-- The loop of `Decompress`. -/
def decompressLoop (tail : ℕ) (s : Unpacking) : Res Unpacking :=
  match _hs : s.src with
  | [] => .ok s
  | mark :: src =>
    match _h₁ : unpack tail (mark &&& 0xf) { s with src } with
    | .error e => .error e
    | .ok s₁ =>
      match _h₂ : unpack tail (mark >>> 4) s₁ with
      | .error e => .error e
      | .ok s₂ => decompressLoop tail s₂
termination_by s.src.length
decreasing_by
  have h₁ := length_unpack_le _h₁
  have h₂ := length_unpack_le _h₂
  rw [_hs]
  simp only [List.length_cons] at h₁ ⊢
  omega

/-- `Decompress`; the size of the storage is computed in 32 bits. -/
def decompress (src : List UInt8) : Res (List UInt8) :=
  if src.isEmpty then .ok []
  else do
    let (size, src) ← parseSize 0 0 src
    let s ← decompressLoop size.toNat ⟨src, List.replicate (size + 7).toNat 0, 0⟩
    if s.dest = size.toNat then return resize s.mem size.toNat else throw .reject

/-! ## Tokens -/

theorem isFill_iff (ch : UInt8) : isFill ch = true ↔ ch = 0 ∨ ch = 0xff := by
  revert ch
  exact forall_byte (by decide +kernel)

/-- A token of the stream. -/
inductive Token
  /-- `n` times the byte `ch`. -/
  | run (ch : UInt8) (n : ℕ)
  /-- The bytes themselves. -/
  | literal (bs : List UInt8)

namespace Token

/-- The bytes a token stands for. -/
def bytes : Token → List UInt8
  | run ch n => List.replicate n ch
  | literal bs => bs

/-- The nibble of a token. -/
def nibble : Token → UInt8
  | run ch n => 0x8 ||| (ch &&& 0x4) ||| UInt8.ofNat (n - 1)
  | literal bs => UInt8.ofNat bs.length

/-- The bytes behind the mark. -/
def payload : Token → List UInt8
  | run _ _ => []
  | literal bs => bs

/-- The tokens of the format: runs of one to four bytes, literals of one to seven. -/
def Valid : Token → Prop
  | run ch n => (ch = 0 ∨ ch = 0xff) ∧ 1 ≤ n ∧ n ≤ 4
  | literal bs => 1 ≤ bs.length ∧ bs.length ≤ 7

end Token

/-- The tokens in pairs: a mark, then the bytes behind it. -/
def stream : List Token → List UInt8
  | [] => []
  | [a] => a.nibble :: a.payload
  | a :: b :: ts => (a.nibble ||| b.nibble <<< 4) :: (a.payload ++ (b.payload ++ stream ts))

/-- Either nothing is left, or the next byte starts a run. -/
def AtFill : List UInt8 → Prop
  | [] => True
  | ch :: _ => isFill ch = true

theorem pickRun_spec (ch cnt : UInt8) (src : List UInt8) (h : cnt.toNat ≤ 4) :
    ∃ k rest, pickRun ch cnt src = (UInt8.ofNat (cnt.toNat + k), rest) ∧
      List.replicate k ch ++ rest = src ∧ cnt.toNat + k ≤ 4 := by
  induction src generalizing cnt with
  | nil => exact ⟨0, [], by simp [pickRun], rfl, h⟩
  | cons b src ih =>
    rw [pickRun]
    split
    · rename_i hb
      simp only [Bool.and_eq_true, decide_eq_true_eq, beq_iff_eq, UInt8.lt_iff_toNat_lt] at hb
      obtain ⟨hlt, rfl⟩ := hb
      have hcnt : (cnt + 1).toNat = cnt.toNat + 1 := by
        rw [UInt8.toNat_add]; change (cnt.toNat + 1) % 256 = _; omega
      obtain ⟨k, rest, he, hs, hk⟩ := ih (cnt + 1) (by rw [hcnt]; exact hlt)
      rw [hcnt] at he hk
      exact ⟨k + 1, rest, by rw [he]; congr 2; omega, by
        rw [List.replicate_succ, List.cons_append, hs], by omega⟩
    · exact ⟨0, b :: src, by simp, rfl, h⟩

theorem pickLiteral_spec (cnt : UInt8) (src : List UInt8) (h : cnt.toNat ≤ 7) :
    ∃ bs rest, pickLiteral cnt src = (UInt8.ofNat (cnt.toNat + bs.length), rest) ∧
      bs ++ rest = src ∧ cnt.toNat + bs.length ≤ 7 ∧ (cnt.toNat + bs.length < 7 → AtFill rest) := by
  induction src generalizing cnt with
  | nil => exact ⟨[], [], by simp [pickLiteral], rfl, h, fun _ => trivial⟩
  | cons b src ih =>
    rw [pickLiteral]
    split
    · rename_i hb
      simp only [Bool.and_eq_true, decide_eq_true_eq, UInt8.lt_iff_toNat_lt] at hb
      have hlt : cnt.toNat < 7 := hb.1.1
      have hcnt : (cnt + 1).toNat = cnt.toNat + 1 := by
        rw [UInt8.toNat_add]; change (cnt.toNat + 1) % 256 = _; omega
      obtain ⟨bs, rest, he, hs, hk, hf⟩ := ih (cnt + 1) (by rw [hcnt]; exact hlt)
      rw [hcnt] at he hk hf
      refine ⟨b :: bs, rest, ?_, by rw [List.cons_append, hs], ?_, ?_⟩
      · rw [he, List.length_cons]; congr 2; omega
      · rw [List.length_cons]; omega
      · rw [List.length_cons]; exact fun h => hf (by omega)
    · rename_i hb
      refine ⟨[], b :: src, by simp, rfl, h, fun hlt => (isFill_iff b).2 ?_⟩
      simp only [List.length_nil, Nat.add_zero] at hlt
      simp only [Bool.and_eq_true, decide_eq_true_eq, UInt8.lt_iff_toNat_lt, bne_iff_ne, ne_eq,
        not_and, not_not] at hb
      by_cases h0 : b = 0
      · exact .inl h0
      · exact .inr (hb ⟨hlt, h0⟩)

/-- A call of `pick` takes a token off the input: a run where the input has one, and
    otherwise a literal, which is full or stops before a run. -/
theorem pick_spec (ch : UInt8) (src : List UInt8) :
    ∃ t : Token, t.Valid ∧ (pickToken ch src).1 = t.nibble ∧ t.bytes ++ (pickToken ch src).2 =
      ch :: src ∧
      (isFill ch = true → t.payload = []) ∧
      (t.payload = [] ∨
        (t.payload = t.bytes ∧ (t.bytes.length < 7 → AtFill (pickToken ch src).2))) := by
  rw [pickToken]
  split
  · rename_i hch
    obtain ⟨k, rest, he, hs, hk⟩ := pickRun_spec ch 1 src (by decide)
    change 1 + k ≤ 4 at hk
    change _ = (UInt8.ofNat (1 + k), _) at he
    refine ⟨.run ch (k + 1), ⟨(isFill_iff ch).1 hch, by omega, by omega⟩, ?_, ?_, fun _ => rfl,
      .inl rfl⟩
    · have h1 : UInt8.ofNat (1 + k) - 1 = UInt8.ofNat k := by
        rw [Nat.add_comm, UInt8.ofNat_add]
        exact UInt8.add_sub_cancel _ _
      simp only [he, h1, Token.nibble, Nat.add_sub_cancel]
    · simp only [he, Token.bytes, List.replicate_succ, List.cons_append, hs]
  · rename_i hch
    obtain ⟨bs, rest, he, hs, hk, hf⟩ := pickLiteral_spec 1 src (by decide)
    change 1 + bs.length ≤ 7 at hk
    change 1 + bs.length < 7 → _ at hf
    change _ = (UInt8.ofNat (1 + bs.length), _) at he
    refine ⟨.literal (ch :: bs), ⟨by simp, by simp; omega⟩, ?_, ?_, fun h => absurd h hch,
      .inr ⟨rfl, ?_⟩⟩
    · rw [he, Token.nibble, List.length_cons, Nat.add_comm]
    · rw [he, Token.bytes, List.cons_append, hs]
    · rw [he, Token.bytes, List.length_cons, Nat.add_comm]; exact hf

/-! ## Writing -/

/-- The nibble of a run gives its byte and its length. -/
theorem Token.nibble_run {ch : UInt8} {n : ℕ} (h : (Token.run ch n).Valid) :
    (run ch n).nibble.toNat < 16 ∧ (run ch n).nibble &&& 8 = 8 ∧
      ((run ch n).nibble &&& 3).toNat + 1 = n ∧
      (0 : UInt8) - (((run ch n).nibble >>> 2) &&& 1) = ch := by
  obtain ⟨hch, h1, h4⟩ := h
  rcases hch with rfl | rfl <;> interval_cases n <;> decide

/-- The nibble of a literal is its length. -/
theorem Token.nibble_literal {bs : List UInt8} (h : (Token.literal bs).Valid) :
    (literal bs).nibble.toNat < 16 ∧ (literal bs).nibble &&& 8 = 0 ∧ (literal bs).nibble ≠ 0 ∧
      (literal bs).nibble.toNat = bs.length := by
  obtain ⟨h1, h7⟩ := h
  simp only [nibble]
  generalize bs.length = n at h1 h7 ⊢
  interval_cases n <;> decide

theorem Token.Valid.nibble_lt {t : Token} (h : t.Valid) : t.nibble.toNat < 16 := by
  cases t with
  | run ch n => exact (nibble_run h).1
  | literal bs => exact (nibble_literal h).1

theorem Token.Valid.length_pos {t : Token} (h : t.Valid) : 1 ≤ t.bytes.length := by
  cases t with
  | run ch n => simpa [bytes] using h.2.1
  | literal bs => exact h.1

/-- Room for the code of `src` from `dest` on, in a storage of `size` bytes: a mark
    for every fourteen bytes, or one less in front of a run. -/
def Room (size dest : ℕ) (src : List UInt8) : Prop :=
  dest + src.length + (src.length + 13) / 14 ≤ size ∨
    (AtFill src ∧ dest + src.length + (src.length + 21) / 14 ≤ size + 1)

/-- Storing the bytes of a token: there is room for its block, unless it has none. -/
theorem copyToken_spec {t : Token} (ht : t.Valid) (mem : List UInt8) (dest : ℕ)
    (rest : List UInt8) (hp : t.payload = [] ∨ t.payload = t.bytes)
    (h : t.payload = [] ∨ dest + min 8 (t.bytes ++ rest).length ≤ mem.length) :
    ∃ mem', copyToken mem dest (t.bytes ++ rest) t.nibble = .ok (mem', dest + t.payload.length) ∧
      mem'.length = mem.length ∧
      mem'.take (dest + t.payload.length) = mem.take dest ++ t.payload := by
  cases t with
  | run ch n =>
    refine ⟨mem, ?_, rfl, by simp [Token.payload]⟩
    rw [copyToken, (Token.nibble_run ht).2.1]
    rfl
  | literal bs =>
    obtain ⟨_, hn, _, hlen⟩ := Token.nibble_literal ht
    have hpos : 0 < bs.length := ht.1
    simp only [Token.payload, Token.bytes] at h ⊢
    replace h : dest + min 8 (bs ++ rest).length ≤ mem.length := by
      rcases h with h | h
      · simp [h] at hpos
      · exact h
    -- The block is eight bytes long, or the literal itself at the end of the input.
    obtain ⟨n, hn8, hle, hbs, hd⟩ : ∃ n, (if 8 ≤ (bs ++ rest).length then 8 else bs.length) = n ∧
        n ≤ (bs ++ rest).length ∧ bs.length ≤ n ∧ dest + n ≤ mem.length := by
      have := ht.2
      rw [List.length_append] at *
      split
      · exact ⟨8, rfl, by omega, by omega, by omega⟩
      · exact ⟨bs.length, rfl, by omega, le_rfl, by omega⟩
    have hblock : ((bs ++ rest).take n).length = n := by simp only [List.length_take]; omega
    obtain ⟨mem', hw, hl, htake⟩ := exists_write mem dest bs.length
      ((bs ++ rest).take n) (by omega) (by omega)
    refine ⟨mem', ?_, hl, ?_⟩
    · rw [copyToken, hn, hlen, copy, hn8, load_of_le hle, access_some, Res.ok_bind, hw]
      rfl
    · rw [htake, List.take_take, Nat.min_eq_left hbs, List.take_left]

/-- The bytes of a token behind its mark: all of them or none. -/
theorem length_payload {t : Token} (h : t.payload = [] ∨ t.payload = t.bytes) :
    t.payload.length = 0 ∨ t.payload.length = t.bytes.length :=
  h.imp (fun h => by rw [h]; rfl) (fun h => by rw [h])

/-- What a pair of tokens leaves of the room. Two literals cost a mark byte: they
    are full, or the second stops before a run, which has a byte to spare. -/
theorem Room.step {size dest : ℕ} {a b : Token} {rest : List UInt8} (ha : a.Valid) (hb : b.Valid)
    (h : Room size dest (a.bytes ++ (b.bytes ++ rest)))
    (hrun : AtFill (a.bytes ++ (b.bytes ++ rest)) → a.payload = [])
    (hrun' : AtFill (b.bytes ++ rest) → b.payload = [])
    (hpa : a.payload = [] ∨
      (a.payload = a.bytes ∧ (a.bytes.length < 7 → AtFill (b.bytes ++ rest))))
    (hpb : b.payload = [] ∨ (b.payload = b.bytes ∧ (b.bytes.length < 7 → AtFill rest))) :
    Room size (dest + 1 + a.payload.length + b.payload.length) rest := by
  have hla := ha.length_pos
  have hlb := hb.length_pos
  rw [Room] at h ⊢
  simp only [List.length_append] at h
  rcases hpb with hpb | ⟨hpb, hfull⟩
  · -- The second token is a run: it pays the mark byte.
    have := length_payload (hpa.imp_right And.left)
    left
    rw [hpb, List.length_nil]
    rcases h with h | ⟨hf, h⟩
    · omega
    · rw [hrun hf, List.length_nil]; omega
  · rcases hpa with hpa | ⟨hpa, hfull'⟩
    · rw [hpa, hpb, List.length_nil]
      by_cases hlb7 : b.bytes.length < 7
      · rcases h with h | ⟨_, h⟩
        · left; omega
        · right; exact ⟨hfull hlb7, by omega⟩
      · left; rcases h with h | ⟨_, h⟩ <;> omega
    · -- Two literals: the first is full.
      have hla7 : 7 ≤ a.bytes.length := by
        by_contra hlt
        have := hrun' (hfull' (by omega))
        rw [hpb] at this
        rw [this, List.length_nil] at hlb
        omega
      rcases h with h | ⟨hf, _⟩
      · rw [hpa, hpb]
        by_cases hlb7 : b.bytes.length < 7
        · right; exact ⟨hfull hlb7, by omega⟩
        · left; omega
      · have := hrun hf
        rw [hpa] at this
        rw [this, List.length_nil] at hla
        omega

/-- The loop of `Compress` stores a pairing of tokens that spell the input. -/
theorem compressLoop_spec (src mem : List UInt8) (dest : ℕ) (h : Room mem.length dest src) :
    ∃ mem' ts, compressLoop mem dest src = .ok (mem', dest + (stream ts).length) ∧
      mem'.length = mem.length ∧ (∀ t ∈ ts, t.Valid) ∧ ts.flatMap Token.bytes = src ∧
      mem'.take (dest + (stream ts).length) = mem.take dest ++ stream ts := by
  -- By induction on what is left of the input, a pair of tokens at a time; the invariant is that
  -- there is room for it.
  induction hn : src.length using Nat.strongRecOn generalizing src mem dest with
  | ind n ih =>
  cases src with
  | nil => exact ⟨mem, [], by rw [compressLoop]; rfl, rfl, by simp, rfl, by simp [stream]⟩
  | cons ch src =>
    obtain ⟨a, ha, hna, hsa, hrun, hpa⟩ := pick_spec ch src
    have hla := ha.length_pos
    -- The copy of a literal may store all of the input that is left behind its mark.
    have hroom : dest + 1 ≤ mem.length ∧
        (a.payload = [] ∨ dest + 1 + (ch :: src).length ≤ mem.length) := by
      rcases h with h | ⟨hf, h⟩ <;> rw [List.length_cons] at h ⊢
      · exact ⟨by omega, .inr (by omega)⟩
      · exact ⟨by omega, .inl (hrun hf)⟩
    rw [compressLoop]
    split
    · -- The last token, alone in its mark.
      rename_i na _ heq _
      simp only [heq] at hna hsa
      obtain ⟨mem₁, hw₁, hl₁, ht₁⟩ := exists_write mem dest 1 [na] hroom.1 le_rfl
      obtain ⟨mem₂, hc₂, hl₂, ht₂⟩ := copyToken_spec ha mem₁ (dest + 1) []
        (hpa.imp_right And.left) (hroom.2.imp_right fun h => by rw [hsa, hl₁]; omega)
      rw [hsa, ← hna] at hc₂
      have hlen : dest + (stream [a]).length = dest + 1 + a.payload.length := by
        rw [stream, List.length_cons]; omega
      refine ⟨mem₂, [a], ?_, hl₂.trans hl₁, by simpa using ha, by simpa using hsa, ?_⟩
      · rw [hw₁, access_some, Res.ok_bind, hc₂, hlen]
      · rw [hlen, ht₂, ht₁, List.append_assoc, hna]
        rfl
    · rename_i na ch' src' _ heq hle
      simp only [heq] at hna hsa hpa
      obtain ⟨b, hb, hnb, hsb, hrun', hpb⟩ := pick_spec ch' src'
      have hlb := hb.length_pos
      have hsab : a.bytes ++ (b.bytes ++ (pickToken ch' src').2) = ch :: src := by rw [hsb, hsa]
      have hlen := congrArg List.length hsab
      simp only [List.length_append, List.length_cons] at hlen
      -- A pair of tokens, with the four bits of the second behind those of the first.
      have hstep := Room.step ha hb (hsab ▸ h) (hsab ▸ hrun) (hsb ▸ hrun') (hsb ▸ hpa) hpb
      have hlpa := length_payload (hpa.imp_right And.left)
      obtain ⟨mem₁, hw₁, hl₁, ht₁⟩ := exists_write mem dest 1
        [na ||| (pickToken ch' src').1 <<< 4] hroom.1 le_rfl
      obtain ⟨mem₂, hc₂, hl₂, ht₂⟩ := copyToken_spec ha mem₁ (dest + 1) (ch' :: src')
        (hpa.imp_right And.left) (hroom.2.imp_right fun h => by rw [hsa, hl₁]; omega)
      have hroom' : dest + 1 + a.payload.length + (ch' :: src').length ≤ mem.length := by
        have hy := congrArg List.length hsb
        simp only [List.length_append] at hy
        rcases h with h | ⟨hf, h⟩ <;> rw [List.length_cons] at h
        · omega
        · rw [hrun hf, List.length_nil]; omega
      obtain ⟨mem₃, hc₃, hl₃, ht₃⟩ := copyToken_spec hb mem₂
        (dest + 1 + a.payload.length) (pickToken ch' src').2 (hpb.imp_right And.left)
        (.inr (by rw [hsb, hl₂, hl₁]; omega))
      rw [hsa, ← hna] at hc₂
      rw [hsb, ← hnb] at hc₃
      rw [← hl₁, ← hl₂, ← hl₃] at hstep
      obtain ⟨mem₄, ts, hc₄, hl₄, hts, hbs, ht₄⟩ := ih _ (by rw [← hn, List.length_cons]; omega)
        (pickToken ch' src').2 mem₃ _ hstep rfl
      have hlen' : dest + (stream (a :: b :: ts)).length =
          dest + 1 + a.payload.length + b.payload.length + (stream ts).length := by
        rw [stream]; simp only [List.length_cons, List.length_append]; omega
      refine ⟨mem₄, a :: b :: ts, ?_, by rw [hl₄, hl₃, hl₂, hl₁], ?_, ?_, ?_⟩
      · simp only [hw₁, access_some, Res.ok_bind, hc₂, hc₃, hc₄, hlen']
      · simpa [ha, hb] using hts
      · rw [List.flatMap_cons, List.flatMap_cons, hbs, hsab]
      · rw [hlen', ht₄, ht₃, ht₂, ht₁, hna, hnb, stream]
        simp

/-! ## Reading -/

/-- The two nibbles of a mark. -/
theorem mark_nibbles {a b : UInt8} (ha : a.toNat < 16) (hb : b.toNat < 16) :
    (a ||| b <<< 4) &&& 0xf = a ∧ (a ||| b <<< 4) >>> 4 = b := by
  have h : ∀ i j : Fin 16, (UInt8.ofNat i ||| UInt8.ofNat j <<< 4) &&& 0xf = UInt8.ofNat i ∧
      (UInt8.ofNat i ||| UInt8.ofNat j <<< 4) >>> 4 = UInt8.ofNat j := by decide +kernel
  have := h ⟨a.toNat, ha⟩ ⟨b.toNat, hb⟩
  rwa [show UInt8.ofNat a.toNat = a from UInt8.ofNat_toNat,
    show UInt8.ofNat b.toNat = b from UInt8.ofNat_toNat] at this

/-- `unpack` spells a token, where the announced size leaves place for it. -/
theorem unpack_spec {t : Token} (ht : t.Valid) (mem : List UInt8) (dest tail : ℕ)
    (rest : List UInt8) (hd : dest + t.bytes.length ≤ tail) (hmem : tail + 7 ≤ mem.length) :
    ∃ mem', unpack tail t.nibble ⟨t.payload ++ rest, mem, dest⟩ =
        .ok ⟨rest, mem', dest + t.bytes.length⟩ ∧
      mem'.length = mem.length ∧
      mem'.take (dest + t.bytes.length) = mem.take dest ++ t.bytes := by
  cases t with
  | run ch n =>
    obtain ⟨_, h8, hcnt, hch⟩ := Token.nibble_run ht
    obtain ⟨_, h1, h4⟩ := ht
    simp only [Token.bytes, List.length_replicate, Token.payload, List.nil_append] at hd ⊢
    obtain ⟨mem', hw, hl, htake⟩ := exists_write mem dest n (List.replicate 4 ch)
      (by rw [List.length_replicate]; omega)
      (by rw [List.length_replicate]; exact h4)
    refine ⟨mem', ?_, hl, by rw [htake, List.take_replicate, Nat.min_eq_left h4]⟩
    rw [unpack, h8, hcnt, hch, if_pos (by decide), unpackRun, if_neg (by simpa using hd), hw]
    rfl
  | literal bs =>
    obtain ⟨_, h8, h0, hlen⟩ := Token.nibble_literal ht
    simp only [Token.bytes, Token.payload] at hd ⊢
    obtain ⟨n, hn8, hle, hbs, hdn⟩ : ∃ n, (if 8 ≤ (bs ++ rest).length then 8 else bs.length) = n ∧
        n ≤ (bs ++ rest).length ∧ bs.length ≤ n ∧ dest + n ≤ mem.length := by
      obtain ⟨h1, h7⟩ := ht
      rw [List.length_append]
      split
      · exact ⟨8, rfl, by omega, by omega, by omega⟩
      · exact ⟨bs.length, rfl, by omega, le_rfl, by omega⟩
    have hblock : ((bs ++ rest).take n).length = n := by simp only [List.length_take]; omega
    obtain ⟨mem', hw, hl, htake⟩ := exists_write mem dest bs.length
      ((bs ++ rest).take n) (by omega) (by omega)
    refine ⟨mem', ?_, hl, by rw [htake, List.take_take, Nat.min_eq_left hbs, List.take_left]⟩
    have hguard : ¬((bs ++ rest).length < bs.length ∨ tail < dest + bs.length) := by
      rw [List.length_append]; omega
    rw [unpack, h8, if_neg (by decide), if_pos (by simpa using h0), hlen, unpackLiteral,
      if_neg hguard]
    simp only [hn8, load_of_le hle, access_some, Res.ok_bind, hw, List.drop_left, Res.pure_eq]

/-- A mark of which the second nibble is empty. -/
theorem unpack_zero (tail : ℕ) (s : Unpacking) : unpack tail 0 s = .ok s := rfl

/-- One turn of the loop of `Decompress`. -/
theorem decompressLoop_cons {tail : ℕ} {mark : UInt8} {src mem : List UInt8} {dest : ℕ}
    {s₁ s₂ : Unpacking} (h₁ : unpack tail (mark &&& 0xf) ⟨src, mem, dest⟩ = .ok s₁)
    (h₂ : unpack tail (mark >>> 4) s₁ = .ok s₂) :
    decompressLoop tail ⟨mark :: src, mem, dest⟩ = decompressLoop tail s₂ := by
  rw [decompressLoop]
  split
  · rename_i h
    cases h
  · rename_i h
    cases h
    split
    · rename_i h
      rw [h₁] at h
      cases h
    · rename_i h
      rw [h₁] at h
      cases h
      split
      · rename_i h
        rw [h₂] at h
        cases h
      · rename_i h
        rw [h₂] at h
        cases h
        rfl

/-- The loop of `Decompress` spells the tokens of a stream. -/
theorem decompressLoop_stream (tail : ℕ) (ts : List Token) (hts : ∀ t ∈ ts, t.Valid)
    (mem : List UInt8) (dest : ℕ) (hd : dest + (ts.flatMap Token.bytes).length ≤ tail)
    (hmem : tail + 7 ≤ mem.length) :
    ∃ mem', decompressLoop tail ⟨stream ts, mem, dest⟩ =
        .ok ⟨[], mem', dest + (ts.flatMap Token.bytes).length⟩ ∧ mem'.length = mem.length ∧
      mem'.take (dest + (ts.flatMap Token.bytes).length) =
        mem.take dest ++ ts.flatMap Token.bytes := by
  induction ts using stream.induct generalizing mem dest with
  | case1 =>
    refine ⟨mem, ?_, rfl, by simp⟩
    rw [stream, decompressLoop]
    rfl
  | case2 a =>
    have ha := hts a (List.mem_singleton_self a)
    simp only [List.flatMap_cons, List.flatMap_nil, List.append_nil] at hd ⊢
    obtain ⟨mem₁, hu, hl, ht⟩ := unpack_spec ha mem dest tail [] hd hmem
    refine ⟨mem₁, ?_, hl, ht⟩
    obtain ⟨h₁, h₂⟩ := mark_nibbles ha.nibble_lt (b := 0) (by decide)
    rw [show a.nibble ||| (0 : UInt8) <<< 4 = a.nibble by simp] at h₁ h₂
    rw [List.append_nil] at hu
    rw [stream, decompressLoop_cons (by rw [h₁]; exact hu) (by rw [h₂]; exact unpack_zero _ _),
      decompressLoop]
  | case3 a b ts ih =>
    have ha := hts a (by simp)
    have hb := hts b (by simp)
    simp only [List.flatMap_cons, List.length_append] at hd ⊢
    obtain ⟨mem₁, hu₁, hl₁, ht₁⟩ := unpack_spec ha mem dest tail (b.payload ++ stream ts)
      (by omega) hmem
    obtain ⟨mem₂, hu₂, hl₂, ht₂⟩ := unpack_spec hb mem₁ (dest + a.bytes.length) tail
      (stream ts) (by omega) (by omega)
    obtain ⟨mem₃, hu₃, hl₃, ht₃⟩ := ih (fun t ht => hts t (by simp [ht])) mem₂
      (dest + a.bytes.length + b.bytes.length) (by omega) (by omega)
    obtain ⟨h₁, h₂⟩ := mark_nibbles ha.nibble_lt hb.nibble_lt
    refine ⟨mem₃, ?_, by omega, ?_⟩
    · rw [stream, decompressLoop_cons (by rw [h₁]; exact hu₁) (by rw [h₂]; exact hu₂), hu₃,
        Nat.add_assoc dest, Nat.add_assoc dest, Nat.add_assoc a.bytes.length]
    · rw [← Nat.add_assoc, ← Nat.add_assoc, ht₃, ht₂, ht₁, List.append_assoc, List.append_assoc]

/-! ## The size header -/

/-- On 32 bits, the header is the shortest base-128 code of the size. -/
theorem sizeHeader_eq {n : ℕ} (h : n < 2 ^ 32) : sizeHeader n = Varint.encode n := by
  induction n using Nat.strongRecOn with
  | ind n ih =>
  have hmask := Varint.and_mask_eq_zero_iff h
  rw [sizeHeader]
  split
  · rename_i h0
    have h1 : 128 ≤ n := by by_contra h1; exact h0 (hmask.2 (by omega))
    rw [Varint.encode_of_le h1, Nat.shiftRight_eq_div_pow, ih (n / 2 ^ 7) (by omega) (by omega),
      Varint.and_127]
    congr 2
    rw [Varint.or_128 (Nat.mod_lt _ (by decide)), Nat.add_comm]
  · rename_i h0
    rw [Varint.encode_of_lt (hmask.1 (not_not.1 h0))]

/-- Adding a group of seven bits to the size, where it fits. -/
theorem toNat_or_group {size : UInt32} {sft x : ℕ} (hs : size.toNat < 2 ^ sft) (hsft : sft < 32)
    {w : UInt32} (hw : w.toNat = x) (h : x * 2 ^ sft < 2 ^ 32) :
    (size ||| w <<< UInt32.ofNat sft).toNat = size.toNat + x * 2 ^ sft := by
  rw [UInt32.toNat_or, UInt32.toNat_shiftLeft, hw, UInt32.toNat_ofNat',
    Nat.mod_eq_of_lt (show sft < 2 ^ 32 by omega), Nat.mod_eq_of_lt hsft,
    Nat.mod_eq_of_lt (by rwa [Nat.shiftLeft_eq]), Varint.or_shiftLeft hs]

/-- `parse_size` reads a base-128 code, where the size fits. -/
theorem parseSize_of_decode {k : ℕ} {src rest : List UInt8} {n : ℕ}
    (hdec : Varint.decode k src = some (n, rest)) {sft : ℕ} {size : UInt32}
    (hsft : sft + 7 * k ≤ 38) (hs : size.toNat < 2 ^ sft) (hn : size.toNat + n * 2 ^ sft < 2 ^ 32) :
    parseSize sft size src = .ok (UInt32.ofNat (size.toNat + n * 2 ^ sft), rest) := by
  induction k generalizing src n sft size with
  | zero => simp [Varint.decode] at hdec
  | succ k ih =>
    cases src with
    | nil => simp [Varint.decode] at hdec
    | cons b src =>
      have hcont : (b &&& 0x80 != 0) = true ↔ ¬b.toNat < 128 := by
        revert b
        exact fun b _ => forall_byte (P := fun b => (b &&& 0x80 != 0) = true ↔ ¬b.toNat < 128)
          (by decide +kernel) b
      have h7 : (b &&& 0x7f).toUInt32.toNat = b.toNat % 128 := by
        rw [UInt8.toNat_toUInt32, UInt8.toNat_and]
        exact Varint.and_127 _
      rw [Varint.decode] at hdec
      rw [parseSize, if_pos (by omega)]
      split at hdec
      · rename_i hb
        cases hdec
        rw [if_neg (by rw [hcont]; omega), ← toNat_or_group hs (by omega)
          (UInt8.toNat_toUInt32 b) (by omega), UInt32.ofNat_toNat]
      · rename_i hb
        obtain ⟨⟨v, rest'⟩, hv, he⟩ := Option.map_eq_some_iff.1 hdec
        cases he
        dsimp only at hn ⊢
        have hpow : 2 ^ (sft + 7) = 2 ^ sft * 128 := by rw [Nat.pow_add]
        have hsum : (b.toNat % 128 + 128 * v) * 2 ^ sft =
            b.toNat % 128 * 2 ^ sft + v * 2 ^ (sft + 7) := by rw [hpow]; ring
        have hlow : b.toNat % 128 * 2 ^ sft ≤ 127 * 2 ^ sft :=
          Nat.mul_le_mul_right _ (by omega)
        rw [hsum] at hn ⊢
        have hgroup := toNat_or_group hs (by omega) h7 (by omega)
        rw [if_pos (hcont.2 hb), ih hv (by omega) (by rw [hgroup, hpow]; omega)
          (by rw [hgroup]; omega), hgroup, Nat.add_assoc]

/-! ## The round trip -/

theorem resize_eq_take {out : List UInt8} {n : ℕ} (h : n ≤ out.length) :
    resize out n = out.take n := by
  rw [resize, Nat.sub_eq_zero_of_le h, List.replicate_zero, List.append_nil]

theorem resize_eq_append {out : List UInt8} {n : ℕ} (h : out.length ≤ n) :
    resize out n = out ++ List.replicate (n - out.length) 0 := by
  rw [resize, List.take_of_length_le h]

/-- `Compress` stores the size and a pairing of tokens that spell the input. -/
theorem compress_spec {src : List UInt8} (h : src ≠ []) : ∃ ts,
    compress src = .ok (sizeHeader src.length ++ stream ts) ∧ (∀ t ∈ ts, t.Valid) ∧
      ts.flatMap Token.bytes = src ∧ (sizeHeader src.length ++ stream ts).length ≤
        (sizeHeader src.length).length + src.length + (src.length + 13) / 14 := by
  obtain ⟨mem, ts, hc, hl, hts, hbs, ht⟩ := compressLoop_spec src
    (resize (sizeHeader src.length)
      ((sizeHeader src.length).length + src.length + (src.length + 13) / 14))
    (sizeHeader src.length).length
    (.inl (by rw [resize_eq_append (by omega), List.length_append, List.length_replicate]; omega))
  generalize hmem : resize (sizeHeader src.length) _ = mem₀ at hc hl ht
  have hhead : mem₀.take (sizeHeader src.length).length = sizeHeader src.length := by
    rw [← hmem, resize_eq_append (by omega), List.take_left]
  have hsize : mem₀.length =
      (sizeHeader src.length).length + src.length + (src.length + 13) / 14 := by
    rw [← hmem, resize_eq_append (by omega), List.length_append, List.length_replicate]
    omega
  generalize hd : (sizeHeader src.length).length = d at *
  have hlen : d + (stream ts).length ≤ mem.length := by
    have := congrArg List.length ht
    rw [hhead, List.length_take, List.length_append, hd] at this
    omega
  refine ⟨ts, ?_, hts, hbs, ?_⟩
  · rw [compress, if_neg (by simpa using h)]
    simp only [hmem, hd, hc, Res.ok_bind, resize_eq_take hlen, ht, hhead, Res.pure_eq]
  · rw [List.length_append, hd, ← hsize, ← hl]
    exact hlen

/-- `Compress` of any input loads and stores nothing outside of the input and of a storage of
    the size of the header, the input and a byte for every fourteen bytes of it. What it
    returns is the header and the code of tokens that spell the input, and nothing that a
    block left behind its token. -/
theorem compress_inside (src : List UInt8) : ∃ ts out header,
    compress src = .ok out ∧ out = header ++ stream ts ∧
      header = (if src = [] then [] else sizeHeader src.length) ∧ (∀ t ∈ ts, t.Valid) ∧
      ts.flatMap Token.bytes = src ∧
      out.length ≤ header.length + src.length + (src.length + 13) / 14 := by
  by_cases h0 : src = []
  · subst h0
    exact ⟨[], [], [], rfl, rfl, rfl, fun t ht => absurd ht List.not_mem_nil, rfl, Nat.zero_le _⟩
  · obtain ⟨ts, hc, hts, hbs, hle⟩ := compress_spec h0
    exact ⟨ts, _, _, hc, rfl, (if_neg h0).symm, hts, hbs, hle⟩

/-- The round trip: what `Compress` makes of a byte string, `Decompress` makes the
    byte string of again. -/
theorem decompress_compress (src : List UInt8) (h : src.length < 2 ^ 32 - 7) :
    ∃ out, compress src = .ok out ∧ decompress out = .ok src := by
  by_cases h0 : src = []
  · subst h0
    exact ⟨[], rfl, rfl⟩
  obtain ⟨ts, hc, hts, hbs, -⟩ := compress_spec h0
  refine ⟨_, hc, ?_⟩
  have hne : sizeHeader src.length ++ stream ts ≠ [] := by
    rw [sizeHeader_eq (by omega)]
    exact List.append_ne_nil_of_left_ne_nil (Varint.encode_ne_nil _) _
  have hp : parseSize 0 0 (sizeHeader src.length ++ stream ts) =
      .ok (UInt32.ofNat src.length, stream ts) := by
    rw [sizeHeader_eq (by omega), parseSize_of_decode (k := 5)
      (Varint.decode_encode_append (by decide) (by omega) _) (by decide) (by decide)
      (by simp; omega)]
    simp
  have hsize : (UInt32.ofNat src.length).toNat = src.length := by
    rw [UInt32.toNat_ofNat']; omega
  have hroom : (UInt32.ofNat src.length + 7).toNat = src.length + 7 := by
    rw [UInt32.toNat_add, hsize]; change (src.length + 7) % 2 ^ 32 = _; omega
  obtain ⟨mem, hd, hl, ht⟩ := decompressLoop_stream src.length ts hts
    (List.replicate (src.length + 7) 0) 0 (by rw [hbs]; omega) (by simp)
  rw [hbs] at hd ht
  rw [List.length_replicate] at hl
  rw [Nat.zero_add] at hd ht
  rw [decompress, if_neg (by simpa using hne), hp]
  simp only [Res.ok_bind, hsize, hroom, hd, if_pos, resize_eq_take
    (show src.length ≤ mem.length by omega), ht, List.take_zero, List.nil_append, Res.pure_eq]

/-- A run of four zeros, a literal, and a run in the last mark. -/
theorem decompress_compress_mixed : ∃ out,
    compress [0, 0, 0, 0, 7, 8, 255] = .ok out ∧ decompress out = .ok [0, 0, 0, 0, 7, 8, 255] :=
  decompress_compress [0, 0, 0, 0, 7, 8, 255] (by decide)

end ProtoCache

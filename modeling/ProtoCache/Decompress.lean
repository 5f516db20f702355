import ProtoCache.Compress

/-!
# `Decompress` on any input

Whatever the input is, it is a sequence of tokens, possibly cut short: each is
stored as a block of bytes, wider than what it stands for (`blocks`). What the
loop of `Decompress` does depends on these alone: the position moves over what the
tokens stand for (`fill`).

* `decompressLoop_blocks`: the loop fills the storage with the blocks, and takes the
  whole input if it is not cut short.
* `decompress_safe_iff`: nothing outside the input is read and nothing outside the
  storage is written, unless the size that the header announces is so large that
  adding the seven bytes of slack to it wraps around.
-/

namespace ProtoCache

open Storage

/-! ## Tokens of any input -/

/-- A token as it is stored: a block of `stored` bytes, of which `size` are meant. -/
structure Block where
  stored : ℕ
  size : ℕ
  deriving DecidableEq

/-- A block has no less than what it is meant to have, and no more than seven bytes of
    slack. -/
def Block.Sound (b : Block) : Prop := b.size ≤ b.stored ∧ b.stored ≤ b.size + 7 ∧ b.size ≤ 7

/-- The token of a nibble, if it is one, and what is left; nothing if the input is cut
    short. -/
def takeBlock (nibble : UInt8) (src : List UInt8) : Option (List Block × List UInt8) :=
  if nibble &&& 8 != 0 then some ([⟨4, (nibble &&& 3).toNat + 1⟩], src)
  else if nibble != 0 then
    if src.length < nibble.toNat then none
    else some ([⟨if 8 ≤ src.length then 8 else nibble.toNat, nibble.toNat⟩], src.drop nibble.toNat)
  else some ([], src)

theorem length_takeBlock_le {nibble : UInt8} {src src' : List UInt8} {bs : List Block}
    (h : takeBlock nibble src = some (bs, src')) : src'.length ≤ src.length := by
  rw [takeBlock] at h
  split at h
  · cases h; exact le_rfl
  · split at h
    · split at h
      · cases h
      · cases h; rw [List.length_drop]; exact Nat.sub_le _ _
    · cases h; exact le_rfl

/-- The tokens of a nibble are sound. -/
theorem takeBlock_sound {nibble : UInt8} {src src' : List UInt8} {bs : List Block}
    (hn : nibble.toNat < 16) (h : takeBlock nibble src = some (bs, src')) : ∀ b ∈ bs, b.Sound := by
  have hrun : (nibble &&& 3).toNat < 4 := by
    rw [UInt8.toNat_and]
    exact Nat.and_lt_two_pow _ (by decide : (3 : UInt8).toNat < 2 ^ 2)
  have hlit : ¬nibble &&& 8 != 0 → nibble.toNat ≤ 7 := by
    revert hn
    exact forall_byte (P := fun n => n.toNat < 16 → ¬n &&& 8 != 0 → n.toNat ≤ 7)
      (by decide +kernel) nibble
  rw [takeBlock] at h
  split at h
  · cases h
    refine List.forall_mem_singleton.2 ⟨?_, ?_, ?_⟩ <;> dsimp only <;> omega
  · next h8 =>
    split at h
    · next h0 =>
      have hpos : nibble.toNat ≠ 0 := fun h => (bne_iff_ne.1 h0) (UInt8.toNat_inj.1 h)
      split at h
      · cases h
      · cases h
        refine List.forall_mem_singleton.2 ⟨?_, ?_, hlit h8⟩ <;> have :=
          hlit h8 <;> dsimp only <;> split <;> omega
    · cases h
      exact fun b hb => absurd hb List.not_mem_nil

/-- The tokens of an input, two for each mark, and whether it ends with them. -/
def blocks (input : List UInt8) : List Block × Bool :=
  match input with
  | [] => ([], true)
  | mark :: src =>
    match _h₁ : takeBlock (mark &&& 0xf) src with
    | none => ([], false)
    | some (bs₁, src₁) =>
      match _h₂ : takeBlock (mark >>> 4) src₁ with
      | none => (bs₁, false)
      | some (bs₂, src₂) =>
        let r := blocks src₂
        (bs₁ ++ (bs₂ ++ r.1), r.2)
termination_by input.length
decreasing_by
  have h₁ := length_takeBlock_le _h₁
  have h₂ := length_takeBlock_le _h₂
  simp only [List.length_cons]
  omega

theorem blocks_mark (mark : UInt8) (src : List UInt8) :
    blocks (mark :: src) =
      match takeBlock (mark &&& 0xf) src with
      | none => ([], false)
      | some r₁ =>
        match takeBlock (mark >>> 4) r₁.2 with
        | none => (r₁.1, false)
        | some r₂ => (r₁.1 ++ (r₂.1 ++ (blocks r₂.2).1), (blocks r₂.2).2) := by
  rw [blocks]
  split
  · next h => rw [h]
  · next h =>
    rw [h]
    dsimp only
    split
    · next h => rw [h]
    · next h => rw [h]

theorem nibbles_lt (mark : UInt8) : (mark &&& 0xf).toNat < 16 ∧ (mark >>> 4).toNat < 16 :=
  forall_byte (P := fun m => (m &&& 0xf).toNat < 16 ∧ (m >>> 4).toNat < 16) (by decide +kernel) mark

/-- All tokens of an input are sound. -/
theorem blocks_sound (input : List UInt8) : ∀ b ∈ (blocks input).1, b.Sound := by
  fun_induction blocks input with
  | case1 => exact fun b hb => absurd hb List.not_mem_nil
  | case2 => exact fun b hb => absurd hb List.not_mem_nil
  | case3 mark src bs₁ src₁ h₁ h₂ => exact takeBlock_sound (nibbles_lt mark).1 h₁
  | case4 mark src bs₁ src₁ h₁ bs₂ src₂ h₂ r ih =>
    intro b hb
    rcases List.mem_append.1 hb with hb | hb
    · exact takeBlock_sound (nibbles_lt mark).1 h₁ b hb
    · rcases List.mem_append.1 hb with hb | hb
      · exact takeBlock_sound (nibbles_lt mark).2 h₂ b hb
      · exact ih b hb

/-! ## Filling the storage -/

/-- Storing blocks in `room` bytes from position `dest` on, up to the position `tail`:
    where it ends. -/
def fill (room tail : ℕ) : ℕ → List Block → Res ℕ
  | dest, [] => .ok dest
  | dest, b :: bs =>
    if tail < dest + b.size then .error .reject
    else if room < dest + b.stored then .error .fault
    else fill room tail (dest + b.size) bs

theorem fill_append (room tail dest : ℕ) (bs bs' : List Block) :
    fill room tail dest (bs ++ bs') = fill room tail dest bs >>= (fill room tail · bs') := by
  induction bs generalizing dest with
  | nil => rfl
  | cons b bs ih =>
    rw [List.cons_append, fill, fill]
    split
    · rfl
    · split
      · rfl
      · exact ih _

/-- The position moves over what the blocks stand for. -/
theorem fill_eq_ok {room tail dest d : ℕ} {bs : List Block} (h : fill room tail dest bs = .ok d) :
    d = dest + (bs.map Block.size).sum := by
  induction bs generalizing dest with
  | nil => cases h; rfl
  | cons b bs ih =>
    rw [fill] at h
    split at h
    · cases h
    · split at h
      · cases h
      · rw [ih h, List.map_cons, List.sum_cons, Nat.add_assoc]

/-- With seven bytes of slack behind the tail, all blocks are inside. -/
theorem fill_ne_fault {room tail dest : ℕ} {bs : List Block} (hs : ∀ b ∈ bs, b.Sound)
    (h : tail + 7 ≤ room) : fill room tail dest bs ≠ .error .fault := by
  induction bs generalizing dest with
  | nil => exact fun h => by cases h
  | cons b bs ih =>
    obtain ⟨-, hslack, -⟩ := hs b List.mem_cons_self
    rw [fill]
    split
    · exact fun h => by cases h
    · rw [if_neg (by omega)]
      exact ih fun b hb => hs b (.tail _ hb)

/-- The first position behind all blocks that are stored from position `dest` on. -/
def reach : ℕ → List Block → ℕ
  | _, [] => 0
  | dest, b :: bs => max (dest + b.stored) (reach (dest + b.size) bs)

/-- With a tail far behind the room, a block outside the room is stored before the tail
    is met. -/
theorem fill_eq_fault_iff {room tail dest : ℕ} {bs : List Block} (hs : ∀ b ∈ bs, b.Sound)
    (hd : dest ≤ room) (h : room + 7 ≤ tail) :
    fill room tail dest bs = .error .fault ↔ room < reach dest bs := by
  induction bs generalizing dest with
  | nil => exact ⟨fun h => (by cases h), fun h => absurd h (Nat.not_lt_zero _)⟩
  | cons b bs ih =>
    obtain ⟨hle, -, h7⟩ := hs b List.mem_cons_self
    rw [fill, if_neg (by omega), reach, lt_max_iff]
    by_cases hroom : room < dest + b.stored
    · rw [if_pos hroom]
      exact ⟨fun _ => .inl hroom, fun _ => rfl⟩
    · rw [if_neg hroom, ih (fun b hb => hs b (.tail _ hb)) (by omega)]
      exact ⟨.inr, fun h => h.resolve_left hroom⟩

/-! ## The loop of `Decompress` -/

/-- What a call does that moves the position in the storage to where `x` says, and leaves
    `src` of the input. -/
def Moves (mem src : List UInt8) (x : Res ℕ) (r : Res Unpacking) : Prop :=
  match x with
  | .error e => r = .error e
  | .ok d => ∃ mem', mem'.length = mem.length ∧ r = .ok ⟨src, mem', d⟩

theorem unpackRun_moves (tail cnt : ℕ) (b : UInt8) (s : Unpacking) :
    Moves s.mem s.src (fill s.mem.length tail s.dest [⟨4, cnt⟩]) (unpackRun tail cnt b s) := by
  rw [fill, unpackRun]
  dsimp only
  by_cases htail : tail < s.dest + cnt
  · rw [if_pos htail, if_pos htail]
    exact rfl
  · rw [if_neg htail, if_neg htail]
    by_cases hroom : s.mem.length < s.dest + 4
    · rw [if_pos hroom, write, if_neg (by rw [List.length_replicate]; omega)]
      exact rfl
    · obtain ⟨mem', hw, hl, -⟩ := exists_write s.mem s.dest 0 (List.replicate 4 b)
        (by rw [List.length_replicate]; omega) (Nat.zero_le _)
      rw [if_neg hroom, hw]
      exact ⟨mem', hl, rfl⟩

theorem unpackLiteral_moves (tail l : ℕ) (s : Unpacking) (hl : l ≤ s.src.length) :
    Moves s.mem (s.src.drop l)
      (fill s.mem.length tail s.dest [⟨if 8 ≤ s.src.length then 8 else l, l⟩])
        (unpackLiteral tail l s) := by
  rw [fill, unpackLiteral]
  dsimp only
  by_cases htail : tail < s.dest + l
  · rw [if_pos htail, if_pos (.inr htail)]
    exact rfl
  · rw [if_neg htail, if_neg (show ¬(s.src.length < l ∨ tail < s.dest + l) by omega),
      load_of_le (by split <;> omega), access_some, Res.ok_bind]
    set n := if 8 ≤ s.src.length then 8 else l with hn
    have hlen : (s.src.take n).length = n := by
      rw [List.length_take, hn]
      split <;> omega
    by_cases hroom : s.mem.length < s.dest + n
    · rw [if_pos hroom, write, if_neg (by rw [hlen]; omega)]
      exact rfl
    · obtain ⟨mem', hw, hl, -⟩ := exists_write s.mem s.dest 0 (s.src.take n) (by rw [hlen]; omega)
        (Nat.zero_le _)
      rw [if_neg hroom, hw]
      exact ⟨mem', hl, rfl⟩

/-- `unpack` takes the token of a nibble. -/
theorem unpack_moves (tail : ℕ) (nibble : UInt8) (s : Unpacking) :
    (takeBlock nibble s.src = none ∧ unpack tail nibble s = .error .reject) ∨
      ∃ bs src', takeBlock nibble s.src = some (bs, src') ∧
        Moves s.mem src' (fill s.mem.length tail s.dest bs) (unpack tail nibble s) := by
  rw [takeBlock, unpack]
  split
  · exact .inr ⟨_, _, rfl, unpackRun_moves ..⟩
  · split
    · by_cases hl : s.src.length < nibble.toNat
      · rw [if_pos hl, unpackLiteral, if_pos (.inl hl)]
        exact .inl ⟨rfl, rfl⟩
      · rw [if_neg hl]
        exact .inr ⟨_, _, rfl, unpackLiteral_moves _ _ _ (Nat.not_lt.1 hl)⟩
    · exact .inr ⟨_, _, rfl, s.mem, rfl, rfl⟩

/-- A call that moves the position, and then one that moves it on. -/
theorem Moves.trans {mem src src' : List UInt8} {x : Res ℕ} {f : ℕ → Res ℕ} {r r' : Res Unpacking}
    (h : Moves mem src x r) (herr : ∀ e, r = .error e → r' = .error e)
    (hok : ∀ mem' d, mem'.length = mem.length → r = .ok ⟨src, mem', d⟩ → Moves mem' src' (f d) r') :
    Moves mem src' (x >>= f) r' := by
  cases x with
  | error e => exact herr e h
  | ok d =>
    obtain ⟨mem', hl, hr⟩ := h
    have hm := hok mem' d hl hr
    rw [Res.ok_bind]
    cases hf : f d with
    | error e => rwa [hf] at hm
    | ok d' =>
      rw [hf] at hm
      obtain ⟨mem₂, hl₂, hr₂⟩ := hm
      exact ⟨mem₂, hl₂.trans hl, hr₂⟩

theorem decompressLoop_mark (tail : ℕ) (mark : UInt8) (src mem : List UInt8) (dest : ℕ) :
    decompressLoop tail ⟨mark :: src, mem, dest⟩ =
      unpack tail (mark &&& 0xf) ⟨src, mem, dest⟩ >>= fun s =>
        unpack tail (mark >>> 4) s >>= decompressLoop tail := by
  rw [decompressLoop]
  dsimp only
  split
  · next h => rw [h]; rfl
  · next s₁ h =>
    rw [h, Res.ok_bind]
    split
    · next h => rw [h]; rfl
    · next s₂ h => rw [h]; rfl

/-- The loop fills the storage with the blocks of the input, and takes all of it if it is
    not cut short. -/
theorem decompressLoop_blocks (tail : ℕ) (src mem : List UInt8) (dest : ℕ) :
    Moves mem [] (fill mem.length tail dest (blocks src).1 >>= fun d =>
      cond (blocks src).2 (.ok d) (.error .reject)) (decompressLoop tail ⟨src, mem, dest⟩) := by
  -- By induction on what is left of the input: a mark byte and the two blocks that it tells.
  induction hn : src.length using Nat.strong_induction_on generalizing src mem dest with
  | _ n ih =>
    cases src with
    | nil =>
      rw [blocks, decompressLoop]
      exact ⟨mem, rfl, rfl⟩
    | cons mark src =>
      rw [decompressLoop_mark, blocks_mark]
      rcases unpack_moves tail (mark &&& 0xf) ⟨src, mem, dest⟩ with ⟨h₁, hr₁⟩ | ⟨bs₁, src₁, h₁, hm₁⟩
      · rw [hr₁, show takeBlock (mark &&& 0xf) src = none from h₁]
        exact rfl
      · rw [show takeBlock (mark &&& 0xf) src = some (bs₁, src₁) from h₁]
        dsimp only at h₁ hm₁ ⊢
        cases h₂ : takeBlock (mark >>> 4) src₁ with
        | none =>
          refine hm₁.trans (fun e he => by rw [he]; rfl) fun mem' d hl hr => ?_
          rcases unpack_moves tail (mark >>> 4) ⟨src₁, mem', d⟩ with ⟨-, hr₂⟩ | ⟨_, _, h, -⟩
          · rw [hr, Res.ok_bind, hr₂]
            exact rfl
          · exact absurd (h₂.symm.trans h) (by simp)
        | some r₂ =>
          obtain ⟨bs₂, src₂⟩ := r₂
          dsimp only
          rw [fill_append, bind_assoc]
          refine hm₁.trans (fun e he => by rw [he]; rfl) fun mem' d hl hr => ?_
          rw [hr, Res.ok_bind, fill_append, bind_assoc, ← hl]
          rcases unpack_moves tail (mark >>> 4) ⟨src₁, mem', d⟩ with ⟨h, -⟩ | ⟨_, _, h, hm₂⟩
          · exact absurd (h₂.symm.trans h) (by simp)
          · cases h₂.symm.trans h
            refine hm₂.trans (fun e he => by rw [he]; rfl) fun mem₂ d₂ hl₂ hr₂ => ?_
            rw [hr₂, Res.ok_bind, ← hl₂]
            have h₁' := length_takeBlock_le h₁
            have h₂' := length_takeBlock_le h₂
            rw [List.length_cons] at hn
            exact ih _ (by omega) _ _ _ rfl

/-! ## `Decompress` -/

/-- The output is of the size that the header announces, and the tokens behind it, which
    take the whole input, stand for as many bytes. -/
def Announced (src out : List UInt8) : Prop :=
  (src = [] ∧ out = []) ∨ ∃ n rest, parseSize 0 0 src = .ok (n, rest) ∧ out.length = n.toNat ∧
    (blocks rest).2 = true ∧ ((blocks rest).1.map Block.size).sum = n.toNat

/-- The size in the header is at least `2 ^ 32 - 7`, so that the storage has seven bytes
    less than nothing, or up to six, and a block behind the header leaves them. -/
def Overruns (src : List UInt8) : Prop :=
  ∃ n rest, parseSize 0 0 src = .ok (n, rest) ∧ 2 ^ 32 ≤ n.toNat + 7 ∧
    n.toNat + 7 - 2 ^ 32 < reach 0 (blocks rest).1

/-- What `Decompress` returns after its header. -/
theorem decompress_eq {src rest : List UInt8} {n : UInt32} (h : parseSize 0 0 src = .ok (n, rest)) :
    decompress src = decompressLoop n.toNat ⟨rest, List.replicate (n + 7).toNat 0, 0⟩ >>= fun s =>
      if s.dest = n.toNat then .ok (resize s.mem n.toNat) else .error .reject := by
  have hne : ¬src.isEmpty = true := by
    rintro he
    rw [List.isEmpty_iff.1 he] at h
    cases h
  rw [decompress, if_neg hne, h]
  rfl

theorem length_resize (out : List UInt8) (n : ℕ) : (resize out n).length = n := by
  rw [resize, List.length_append, List.length_take, List.length_replicate]
  omega

theorem toNat_add_seven (n : UInt32) : (n + 7).toNat = (n.toNat + 7) % 2 ^ 32 :=
  UInt32.toNat_add n 7

/-- What is output is what was announced. -/
theorem decompress_announced {src out : List UInt8} (h : decompress src = .ok out) :
    Announced src out := by
  by_cases h0 : src = []
  · subst h0
    cases h
    exact .inl ⟨rfl, rfl⟩
  · right
    cases hp : parseSize 0 0 src with
    | error e =>
      rw [decompress, if_neg (by simpa using h0), hp] at h
      cases h
    | ok r =>
      obtain ⟨n, rest⟩ := r
      rw [decompress_eq hp] at h
      obtain ⟨s, hs, h⟩ := Res.bind_eq_ok.1 h
      have hm := decompressLoop_blocks n.toNat rest (List.replicate (n + 7).toNat 0) 0
      rw [hs] at hm
      split at h
      · next hd =>
        cases h
        refine ⟨n, rest, rfl, length_resize .., ?_⟩
        cases hf : fill (List.replicate (n + 7).toNat (0 : UInt8)).length n.toNat 0
          (blocks rest).1 with
        | error e =>
          rw [hf] at hm
          cases hm
        | ok d =>
          rw [hf, Res.ok_bind] at hm
          cases hb : (blocks rest).2 with
          | false =>
            rw [hb] at hm
            cases hm
          | true =>
            rw [hb] at hm
            obtain ⟨mem', -, hr⟩ := hm
            cases hr
            -- The blocks that were stored sum up to the end, which is compared with the size.
            have hsum := fill_eq_ok hf
            exact ⟨rfl, by rw [← hd, hsum, Nat.zero_add]⟩
      · cases h

/-- The header is read inside the input. -/
theorem parseSize_eq_error {sft : ℕ} {size : UInt32} {src : List UInt8} {e : Stop}
    (h : parseSize sft size src = .error e) : e = .reject := by
  induction src generalizing sft size with
  | nil => cases h; rfl
  | cons b src ih =>
    rw [parseSize] at h
    split at h
    · split at h
      · exact ih h
      · cases h
    · cases h; rfl

/-- The loop of `Decompress` faults where filling the storage does. -/
theorem decompressLoop_eq_fault_iff (tail : ℕ) (src mem : List UInt8) (dest : ℕ) :
    decompressLoop tail ⟨src, mem, dest⟩ = .error .fault ↔
      fill mem.length tail dest (blocks src).1 = .error .fault := by
  have hm := decompressLoop_blocks tail src mem dest
  cases hf : fill mem.length tail dest (blocks src).1 with
  | error e =>
    rw [hf] at hm
    rw [show decompressLoop tail ⟨src, mem, dest⟩ = .error e from hm]
    simp only [Except.error.injEq]
  | ok d =>
    rw [hf, Res.ok_bind] at hm
    refine ⟨fun h => ?_, fun h => (by cases h)⟩
    cases hb : (blocks src).2 with
    | false =>
      rw [hb] at hm
      cases (show decompressLoop tail ⟨src, mem, dest⟩ = .error .reject from hm).symm.trans h
    | true =>
      rw [hb] at hm
      obtain ⟨mem', -, hr⟩ := hm
      cases hr.symm.trans h

/-- A fault is an overrun of the storage. -/
theorem decompress_eq_fault_iff (src : List UInt8) :
    decompress src = .error .fault ↔ Overruns src := by
  cases hp : parseSize 0 0 src with
  | error e =>
    obtain rfl := parseSize_eq_error hp
    refine ⟨fun h => ?_, fun ⟨n, rest, hn, _⟩ => by rw [hp] at hn; cases hn⟩
    rw [decompress] at h
    split at h
    · cases h
    · rw [hp] at h
      cases h
  | ok r =>
    obtain ⟨n, rest⟩ := r
    have hs := blocks_sound rest
    have hlt := n.toNat_lt
    -- The loop stores what the blocks of the input tell; the checks behind it load nothing.
    have hiff : decompress src = .error .fault ↔
        fill (n + 7).toNat n.toNat 0 (blocks rest).1 = .error .fault := by
      have hloop := decompressLoop_eq_fault_iff n.toNat rest (List.replicate (n + 7).toNat 0) 0
      rw [List.length_replicate] at hloop
      rw [← hloop, decompress_eq hp]
      cases decompressLoop n.toNat ⟨rest, List.replicate (n + 7).toNat 0, 0⟩ with
      | error e => rw [Res.error_bind, Except.error.injEq, Except.error.injEq]
      | ok s =>
        rw [Res.ok_bind]
        split
        · exact ⟨fun h => (by cases h), fun h => (by cases h)⟩
        · exact ⟨fun h => (by cases h), fun h => (by cases h)⟩
    have hover : Overruns src ↔
        2 ^ 32 ≤ n.toNat + 7 ∧ n.toNat + 7 - 2 ^ 32 < reach 0 (blocks rest).1 := by
      constructor
      · rintro ⟨n', rest', hp', hn⟩
        cases hp.symm.trans hp'
        exact hn
      · exact fun hn => ⟨n, rest, hp, hn⟩
    rw [hiff, hover, toNat_add_seven]
    by_cases hn : 2 ^ 32 ≤ n.toNat + 7
    · rw [show (n.toNat + 7) % 2 ^ 32 = n.toNat + 7 - 2 ^ 32 by omega,
        fill_eq_fault_iff hs (Nat.zero_le _) (by omega)]
      exact (and_iff_right hn).symm
    · rw [Nat.mod_eq_of_lt (by omega)]
      exact ⟨fun h => absurd h (fill_ne_fault hs le_rfl), fun h => absurd h.1 hn⟩

/-- On any input, `Decompress` stays inside the input and the storage, and outputs no more
    and no less than is announced, unless the storage is too small by the wrapped sum
    and a block of the tokens runs over it. -/
theorem decompress_safe_iff (src : List UInt8) :
    (decompress src ≠ .error .fault ∧ ∀ out, decompress src = .ok out → Announced src out) ↔
      ¬Overruns src := by
  rw [← decompress_eq_fault_iff]
  exact ⟨fun h => h.1, fun h => ⟨h, fun _ => decompress_announced⟩⟩

/-- The size `2 ^ 32 - 7`, for which there is no storage, and a run of one byte. -/
theorem decompress_unsafe :
    ¬(decompress [0xf9, 0xff, 0xff, 0xff, 0x0f, 0x08] ≠ .error .fault ∧
      ∀ out, decompress [0xf9, 0xff, 0xff, 0xff, 0x0f, 0x08] = .ok out →
        Announced [0xf9, 0xff, 0xff, 0xff, 0x0f, 0x08] out) := by
  have hrun : (blocks [0x08]).1 = [⟨4, 1⟩] := by
    rw [blocks_mark, show takeBlock (0x08 &&& 0xf) [] = some ([⟨4, 1⟩], []) by decide]
    dsimp only
    rw [show takeBlock ((0x08 : UInt8) >>> 4) [] = some ([], []) by decide]
    dsimp only
    rw [blocks.eq_def]
    rfl
  have hover : Overruns [0xf9, 0xff, 0xff, 0xff, 0x0f, 0x08] :=
    ⟨0xfffffff9, [0x08], by decide +kernel, by decide, by rw [hrun]; decide⟩
  exact fun h => h.1 ((decompress_eq_fault_iff _).2 hover)

end ProtoCache

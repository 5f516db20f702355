import ProtoCache.Basic
import ProtoCache.Lib.Ensures
import ProtoCache.Lib.Storage

/-!
# The storage of a buffer

`Buffer` of `include/protocache/utils.h`, `DoExpand` and `DoReserve` of
`src/utils.cc`. The words in use are the last ones of an array that is replaced
by a larger one when there is no room in front of them. Its numbers are those of
`size_t`, which has `w` bits; a new array holds words of no particular value.

* `Holds`: the buffer keeps these words, behind `off_`;
* `step_holds`: what one operation does to the words (`Op.words`), and which array it asks for
  if it asks for one (`Op.asks`);
* `run_suffix`: words that are not dropped stay where they are, from the tail;
* `buffer_refines`: a run of operations from an empty buffer, which only ends early where the
  array that it asks for is refused, or where more is dropped than there is.

The writers of the encoding see a buffer as its words only, see
`ProtoCache.Serialize.Units`.
-/

namespace ProtoCache.Allocated

open Outcome

/-- Why an operation does not complete. -/
inductive Failure
  /-- There is no memory for an array. -/
  | badAlloc
  /-- An `assert` fails. -/
  | assertion
  /-- A load or a store outside the array. -/
  | fault
  deriving DecidableEq, Repr

/-- An allocation of `n` words is refused, or gives words of any value. -/
abbrev Allocator := ℕ → Option (ℕ → UInt32)

/-- `Buffer`. -/
structure Buffer where
  data_ : Option (List UInt32) := none
  size_ : ℕ := 0
  off_ : ℕ := 0
  deriving DecidableEq

/-- Words in memory: their bytes are counted by a `size_t`. -/
structure Words (w : ℕ) where
  words : List UInt32
  fits : 4 * words.length < 2 ^ w

variable (w : ℕ)

/-- The difference of two numbers of `w` bits. -/
def sub (a b : ℕ) : ℕ := (a + 2 ^ w - b) % 2 ^ w

/-- `new uint32_t[n]`, which is refused when the bytes cannot be counted. -/
def newArray (alloc : Allocator) (n : ℕ) : Except Failure (List UInt32) :=
  if 4 * n < 2 ^ w then
    match alloc n with
    | some word => .ok ((List.range n).map word)
    | none => .error .badAlloc
  else .error .badAlloc

/-- Loading `n` words from position `pos` of an array. -/
def loadAt (data : List UInt32) (pos n : ℕ) : Except Failure (List UInt32) :=
  match Storage.load (data.drop pos) n with
  | some ws => .ok ws
  | none => .error .fault

/-- Storing words at position `pos` of an array. -/
def storeAt (data : List UInt32) (pos : ℕ) (ws : List UInt32) : Except Failure (List UInt32) :=
  match Storage.write data pos ws with
  | some data => .ok data
  | none => .error .fault

namespace Buffer

/-- The array; there is none before the first allocation. -/
def data (b : Buffer) : List UInt32 := b.data_.getD []

/-- `Size`. -/
def size (b : Buffer) : ℕ := sub w b.size_ b.off_

/-- `At`, as a position in the array. -/
def at' (b : Buffer) (size : ℕ) : ℕ := sub w b.size_ size

/-- The words of `View`. -/
def view (b : Buffer) : Except Failure (List UInt32) := loadAt b.data b.off_ (b.size w)

/-- `Clear`. -/
def clear (b : Buffer) : Buffer := { b with off_ := b.size_ }

/-- The words in use at the end of a new array, which takes the place of the old one. -/
def move (alloc : Allocator) (b : Buffer) (size : ℕ) : Except Failure Buffer := do
  let data ← newArray w alloc size
  let off := sub w size (b.size w)
  let data ← storeAt data off (← loadAt b.data b.off_ (b.size w))
  return { data_ := some data, size_ := size, off_ := off }

/-- `DoExpand`. -/
def doExpand (alloc : Allocator) (b : Buffer) (delta : ℕ) : Except Failure Buffer :=
  if b.data_ = none then do
    let size := max delta 8
    let data ← newArray w alloc size
    return { data_ := some data, size_ := size, off_ := sub w size delta }
  else do
    let size := b.size_ * 2 % 2 ^ w
    let size := if 256 * 1024 ≤ b.size_ then b.size_ * 3 % 2 ^ w / 2 else size
    let b ← b.move w alloc (max size ((b.size_ + delta) % 2 ^ w))
    return { b with off_ := sub w b.off_ delta }

/-- `DoReserve`. -/
def doReserve (alloc : Allocator) (b : Buffer) (size : ℕ) : Except Failure Buffer :=
  b.move w alloc size

/-- `Expand`. -/
def expand (alloc : Allocator) (b : Buffer) (delta : ℕ) : Except Failure Buffer :=
  if delta ≤ b.off_ then .ok { b with off_ := b.off_ - delta } else b.doExpand w alloc delta

/-- Storing words from `Head()` on. -/
def fill (b : Buffer) (ws : List UInt32) : Except Failure Buffer := do
  let data ← storeAt b.data b.off_ ws
  return { b with data_ := b.data_.map fun _ => data }

/-- `Put` of a slice, whose words lie outside the array. -/
def put (alloc : Allocator) (b : Buffer) (ws : List UInt32) : Except Failure Buffer := do
  (← b.expand w alloc ws.length).fill ws

/-- `Shrink`. -/
def shrink (b : Buffer) (delta : ℕ) : Except Failure Buffer :=
  if delta ≤ b.size w then .ok { b with off_ := (b.off_ + delta) % 2 ^ w } else .error .assertion

/-- `Reserve`. -/
def reserve (alloc : Allocator) (b : Buffer) (size : ℕ) : Except Failure Buffer :=
  if b.size_ < size then b.doReserve w alloc size else .ok b

end Buffer

/-- An operation of a caller. What is expanded is filled at once. -/
inductive Op (w : ℕ)
  | put (v : UInt32)
  | puts (data : Words w)
  | expand (data : Words w)
  | shrink (delta : ℕ)
  | reserve (size : ℕ)
  | clear

/-- One operation on the buffer. -/
def step (b : Buffer) : Allocator × Op w → Except Failure Buffer
  | (alloc, .put v) => b.put w alloc [v]
  | (alloc, .puts data) => b.put w alloc data.words
  | (alloc, .expand data) => do (← b.expand w alloc data.words.length).fill data.words
  | (_, .shrink delta) => b.shrink w delta
  | (alloc, .reserve size) => b.reserve w alloc size
  | (_, .clear) => .ok b.clear

/-- The operations in turn. -/
def run (steps : List (Allocator × Op w)) (b : Buffer) : Except Failure Buffer :=
  steps.foldlM (step w) b

variable {w}

/-- What an operation is meant to do to the words; more cannot be dropped than there are. -/
def Op.words (l : List UInt32) : Op w → Option (List UInt32)
  | .put v => some (v :: l)
  | .puts data => some (data.words ++ l)
  | .expand data => some (data.words ++ l)
  | .shrink delta => if delta ≤ l.length then some (l.drop delta) else none
  | .reserve _ => some l
  | .clear => some []

/-- The array that is asked for when there is to be room for `delta` words more: none if there is
    room, at first one of eight words or more, and then one of twice the size, or of one and a half
    where that is large, or of more if that is not enough. -/
def Buffer.asks (b : Buffer) (delta : ℕ) : Option ℕ :=
  if delta ≤ b.off_ then none
  else if b.data_ = none then some (max delta 8)
  else some (max (if 256 * 1024 ≤ b.size_ then b.size_ * 3 / 2 else b.size_ * 2) (b.size_ + delta))

/-- The array that an operation asks for. -/
def Op.asks (b : Buffer) : Op w → Option ℕ
  | .put _ => b.asks 1
  | .puts data => b.asks data.words.length
  | .expand data => b.asks data.words.length
  | .reserve size => if b.size_ < size then some size else none
  | .shrink _ | .clear => none

/-- What the operations are meant to do to the words. -/
def words (steps : List (Allocator × Op w)) (l : List UInt32) : Option (List UInt32) :=
  steps.foldlM (fun l s => s.2.words l) l

/-! ## What a buffer holds -/

variable (w) in
/-- The buffer keeps the words `l` behind `off_`, to the end of its array. -/
structure Holds (b : Buffer) (l : List UInt32) : Prop where
  length : b.data.length = b.size_
  words : b.data.drop b.off_ = l
  off_le : b.off_ ≤ b.size_
  size_pos : b.data_ ≠ none → 0 < b.size_
  fits : 4 * b.size_ < 2 ^ w

/-- A difference that is no less than zero. -/
theorem sub_of_le {a b : ℕ} (h : b ≤ a) (ha : a < 2 ^ w) : sub w a b = a - b := by
  rw [sub, show a + 2 ^ w - b = a - b + 2 ^ w by omega, Nat.add_mod_right,
    Nat.mod_eq_of_lt (by omega)]

variable (w) in
/-- An array of `n` words is refused: there is no memory for it, or its bytes cannot be counted. -/
def Refused (alloc : Allocator) (n : ℕ) (e : Failure) : Prop :=
  e = .badAlloc ∧ (alloc n = none ∨ 2 ^ w ≤ 4 * n)

theorem newArray_spec (alloc : Allocator) (n : ℕ) :
    Ensures (Refused w alloc n) (fun data => data.length = n ∧ 4 * n < 2 ^ w)
      (newArray w alloc n) := by
  unfold newArray
  split
  · rename_i hn
    cases ha : alloc n with
    | none => exact ⟨rfl, .inl ha⟩
    | some word => exact ⟨by simp, hn⟩
  · rename_i hn
    exact ⟨rfl, .inr (Nat.le_of_not_lt hn)⟩

theorem loadAt_of_le {data : List UInt32} {pos n : ℕ} (h : pos + n ≤ data.length) :
    loadAt data pos n = .ok ((data.drop pos).take n) := by
  rw [loadAt, Storage.load_of_le (by rw [List.length_drop]; omega)]

theorem storeAt_of_le {data ws : List UInt32} {pos : ℕ} (h : pos + ws.length ≤ data.length) :
    storeAt data pos ws = .ok (data.take pos ++ (ws ++ data.drop (pos + ws.length))) := by
  rw [storeAt, Storage.write_of_le h]

namespace Holds

variable {b : Buffer} {l : List UInt32}

theorem empty (w : ℕ) : Holds w {} [] where
  length := rfl
  words := rfl
  off_le := Nat.le_refl 0
  size_pos h := absurd rfl h
  fits := Nat.pos_of_ne_zero (by positivity)

theorem length_add (h : Holds w b l) : b.off_ + l.length = b.size_ := by
  rw [← h.words, List.length_drop, h.length]
  exact Nat.add_sub_cancel' h.off_le

theorem size_eq (h : Holds w b l) : b.size w = l.length := by
  have hf := h.fits
  have hl := h.length_add
  rw [Buffer.size, sub_of_le h.off_le (by omega)]
  omega

/-- The words are those of `View`. -/
theorem view_eq (h : Holds w b l) : b.view w = .ok l := by
  rw [Buffer.view, h.size_eq, loadAt_of_le (by rw [h.length, h.length_add]), h.words,
    List.take_length]

/-- `At` leads to the last words. -/
theorem at_eq (h : Holds w b l) {k : ℕ} (hk : k ≤ l.length) :
    loadAt b.data (b.at' w k) k = .ok (l.drop (l.length - k)) := by
  have hf := h.fits
  have hl := h.length_add
  rw [Buffer.at', sub_of_le (by omega) (by omega), loadAt_of_le (by rw [h.length]; omega),
    ← h.words, List.drop_drop, h.words, show b.off_ + (l.length - k) = b.size_ - k by omega,
    List.take_of_length_le]
  rw [List.length_drop, h.length]
  omega

/-- Words in front of those in use. -/
theorem lower (h : Holds w b l) {n : ℕ} (hn : n ≤ b.off_) :
    ∃ ws, ws.length = n ∧ Holds w { b with off_ := b.off_ - n } (ws ++ l) := by
  refine ⟨(b.data.drop (b.off_ - n)).take n, ?_, ⟨h.length, ?_, ?_, h.size_pos, h.fits⟩⟩
  · rw [List.length_take, List.length_drop, h.length]
    have := h.off_le
    omega
  · conv_lhs => rw [← List.take_append_drop n (List.drop _ _)]
    rw [List.drop_drop, ← h.words, Nat.sub_add_cancel hn]
    rfl
  · exact (Nat.sub_le _ _).trans h.off_le

/-- The words are behind the new array as they were. -/
theorem move (h : Holds w b l) (alloc : Allocator) {size : ℕ} (hs : b.size_ < size) :
    Ensures (Refused w alloc size) (fun b' => Holds w b' l ∧ b'.size_ = size)
      (b.move w alloc size) := by
  have hl := h.length_add
  refine (newArray_spec alloc size).bind fun data hd => ?_
  dsimp only
  rw [h.size_eq, sub_of_le (by omega) (by omega)]
  refine .bind_eq (loadAt_of_le (by rw [h.length, hl])) ?_
  rw [h.words, List.take_length]
  refine .bind_eq (storeAt_of_le (by omega)) ?_
  have ht : (data.take (size - l.length)).length = size - l.length := by
    rw [List.length_take]
    omega
  have hr : data.drop (size - l.length + l.length) = [] := List.drop_eq_nil_of_le (by omega)
  rw [hr, List.append_nil]
  refine ⟨⟨?_, ?_, Nat.sub_le _ _, fun _ => Nat.zero_lt_of_lt hs, hd.2⟩, rfl⟩
  · rw [Buffer.data, Option.getD_some, List.length_append, ht]
    exact Nat.sub_add_cancel (by omega)
  · exact List.drop_left' ht

/-- The buffer is ready for `n` words in front of those in use. -/
theorem expand (h : Holds w b l) (alloc : Allocator) {n : ℕ} (hn : 4 * n < 2 ^ w ∨ n = 1) :
    Ensures (fun e => ∃ size, b.asks n = some size ∧ Refused w alloc size e)
      (fun b' => ∃ ws, ws.length = n ∧ Holds w b' (ws ++ l)) (b.expand w alloc n) := by
  have hl := h.length_add
  have hf := h.fits
  unfold Buffer.expand Buffer.asks
  split
  · exact h.lower ‹_›
  · unfold Buffer.doExpand
    split
    · -- The first allocation: there are no words yet.
      rename_i hd
      have hz : b.size_ = 0 := by rw [← h.length, Buffer.data, hd]; rfl
      have hnil : l = [] := List.length_eq_zero_iff.1 (by omega)
      refine Ensures.bind ((newArray_spec alloc _).conseq (fun e he => ⟨_, rfl, he⟩)
        fun _ hdata => hdata)
        fun data hdata => ?_
      have hb : Holds w { data_ := some data, size_ := max n 8, off_ := max n 8 } l :=
        ⟨hdata.1, by rw [hnil]; exact List.drop_eq_nil_of_le hdata.1.le, Nat.le_refl _,
          fun _ => lt_max_of_lt_right (by decide), hdata.2⟩
      have hsub : sub w (max n 8) n = max n 8 - n :=
        sub_of_le (Nat.le_max_left n 8) (by have := hdata.2; omega)
      rw [hsub]
      exact hb.lower (Nat.le_max_left n 8)
    · -- A larger array, with room for the words whichever way it grows.
      rename_i hoff hd
      have hpos := h.size_pos hd
      have hsum : (b.size_ + n) % 2 ^ w = b.size_ + n := Nat.mod_eq_of_lt (by omega)
      have hdouble : b.size_ * 2 % 2 ^ w = b.size_ * 2 := Nat.mod_eq_of_lt (by omega)
      have htriple : b.size_ * 3 % 2 ^ w = b.size_ * 3 := Nat.mod_eq_of_lt (by omega)
      dsimp only
      rw [hsum, hdouble, htriple]
      refine Ensures.bind ((h.move alloc (by omega)).conseq (fun e he => ⟨_, rfl, he⟩)
        fun _ hb => hb)
        fun b' hb => ?_
      have hl' := hb.1.length_add
      have hf' := hb.1.fits
      have hsub : sub w b'.off_ n = b'.off_ - n := sub_of_le (by omega) (by omega)
      rw [hsub]
      exact hb.1.lower (by omega)

/-- What is expanded and filled is in front of the other words. -/
theorem fill {E : Failure → Prop} {old ws : List UInt32} (h : Holds w b (old ++ l))
    (hws : ws.length = old.length) : Ensures E (fun b' => Holds w b' (ws ++ l)) (b.fill ws) := by
  have hl := h.length_add
  rw [List.length_append] at hl
  unfold Buffer.fill
  refine .bind_eq (storeAt_of_le (by rw [h.length]; omega)) ?_
  have ht : (b.data.take b.off_).length = b.off_ := by
    rw [List.length_take, h.length]
    exact Nat.min_eq_left h.off_le
  have hrest : b.data.drop (b.off_ + ws.length) = l := by
    rw [← List.drop_drop, h.words, hws, List.drop_left]
  rw [hrest]
  cases hd : b.data_ with
  | none =>
    -- There is no array, and nothing to store.
    have hz : b.size_ = 0 := by rw [← h.length, Buffer.data, hd]; rfl
    have hws : ws = [] := List.length_eq_zero_iff.1 (by omega)
    have hnil : l = [] := List.length_eq_zero_iff.1 (by omega)
    rw [hws, hnil]
    exact ⟨hz.symm, List.drop_nil, h.off_le, fun hn => absurd rfl hn, h.fits⟩
  | some data =>
    refine ⟨?_, List.drop_left' ht, h.off_le,
      fun _ => h.size_pos (by rw [hd]; exact Option.some_ne_none _), h.fits⟩
    change (b.data.take b.off_ ++ (ws ++ l)).length = b.size_
    rw [List.length_append, List.length_append, ht, ← hl, hws]

theorem put (h : Holds w b l) (alloc : Allocator) {ws : List UInt32}
    (hws : 4 * ws.length < 2 ^ w ∨ ws.length = 1) :
    Ensures (fun e => ∃ size, b.asks ws.length = some size ∧ Refused w alloc size e)
      (fun b' => Holds w b' (ws ++ l)) (b.put w alloc ws) := by
  refine (h.expand alloc hws).bind fun b' => ?_
  rintro ⟨old, hold, hb⟩
  exact hb.fill hold.symm

theorem shrink (h : Holds w b l) (delta : ℕ) :
    Ensures (fun e => e = .assertion ∧ l.length < delta)
      (fun b' => Holds w b' (l.drop delta) ∧ delta ≤ l.length) (b.shrink w delta) := by
  have hl := h.length_add
  have hf := h.fits
  unfold Buffer.shrink
  rw [h.size_eq]
  split
  · rename_i hd
    rw [Nat.mod_eq_of_lt (by omega)]
    refine ⟨⟨h.length, ?_, ?_, h.size_pos, h.fits⟩, hd⟩
    · rw [← h.words, List.drop_drop]
      rfl
    · show b.off_ + delta ≤ b.size_
      omega
  · rename_i hd
    exact ⟨rfl, Nat.lt_of_not_le hd⟩

theorem reserve (h : Holds w b l) (alloc : Allocator) (size : ℕ) :
    Ensures (fun e => b.size_ < size ∧ Refused w alloc size e) (fun b' => Holds w b' l)
      (b.reserve w alloc size) := by
  unfold Buffer.reserve
  split
  · exact (h.move alloc ‹_›).conseq (fun _ he => ⟨‹_›, he⟩) fun _ hb => hb.1
  · exact h

theorem clear (h : Holds w b l) : Holds w b.clear [] where
  length := h.length
  words := List.drop_eq_nil_of_le h.length.le
  off_le := Nat.le_refl b.size_
  size_pos := h.size_pos
  fits := h.fits

end Holds

/-! ## Runs of operations -/

/-- Why an operation stops: the array that it asks for is refused, or it drops more than there
    is. -/
def Op.Stops (b : Buffer) (s : Allocator × Op w) (e : Failure) : Prop :=
  (∃ size, s.2.asks b = some size ∧ Refused w s.1 size e) ∨
    e = .assertion ∧ ∃ delta, s.2 = .shrink delta ∧ b.size w < delta

/-- One operation does to the words what it is meant to do. It does not complete when the array
    that it asks for is refused, or when more is dropped than there is. -/
theorem step_holds {b : Buffer} {l : List UInt32} (h : Holds w b l) (s : Allocator × Op w) :
    Ensures (Op.Stops b s) (fun b' => ∃ l', s.2.words l = some l' ∧ Holds w b' l')
      (step w b s) := by
  obtain ⟨alloc, op⟩ := s
  cases op with
  | put v => exact (h.put alloc (.inr rfl)).conseq (fun _ he => .inl he) fun _ hb => ⟨_, rfl, hb⟩
  | puts data =>
    exact (h.put alloc (.inl data.fits)).conseq (fun _ he => .inl he) fun _ hb => ⟨_, rfl, hb⟩
  | expand data =>
    exact (h.put alloc (.inl data.fits)).conseq (fun _ he => .inl he) fun _ hb => ⟨_, rfl, hb⟩
  | shrink delta =>
    refine (h.shrink delta).conseq (fun e he => .inr ⟨he.1, delta, rfl, h.size_eq.trans_lt he.2⟩)
      fun b' hb => ?_
    exact ⟨_, if_pos hb.2, hb.1⟩
  | reserve size =>
    exact (h.reserve alloc size).conseq (fun _ he => .inl ⟨size, if_pos he.1, he.2⟩) fun _ hb =>
      ⟨_, rfl, hb⟩
  | clear => exact ⟨_, rfl, h.clear⟩

/-- Why a run stops: one of its operations does, after those before it. -/
def Stops (steps : List (Allocator × Op w)) (b : Buffer) (e : Failure) : Prop :=
  ∃ pre s post c, steps = pre ++ s :: post ∧ run w pre b = .ok c ∧ Op.Stops c s e

/-- A run of operations does to the words what they are meant to do. -/
theorem run_holds {b : Buffer} {l : List UInt32} (h : Holds w b l)
    (steps : List (Allocator × Op w)) :
    Ensures (Stops steps b) (fun b' => ∃ l', words steps l = some l' ∧ Holds w b' l')
      (run w steps b) := by
  induction steps generalizing b l with
  | nil => exact ⟨l, rfl, h⟩
  | cons s steps ih =>
    have hstep := step_holds h s
    cases hs : step w b s with
    | error e =>
      -- The first operation stops, and the run with it.
      rw [hs] at hstep
      have hrun : run w (s :: steps) b = .error e := by
        rw [run, List.foldlM_cons, hs]
        rfl
      rw [hrun]
      exact ⟨[], s, steps, b, rfl, rfl, hstep⟩
    | ok c =>
      obtain ⟨m, hm, hc⟩ := hstep.of_ok hs
      have hfirst (pre : List (Allocator × Op w)) : run w (s :: pre) b = run w pre c := by
        rw [run, List.foldlM_cons, hs]
        rfl
      have hwords : words (s :: steps) l = words steps m := by
        rw [words, List.foldlM_cons, hm]
        rfl
      rw [hfirst, hwords]
      refine (ih hc).conseq ?_ fun _ hb => hb
      rintro e ⟨pre, s', post, d, rfl, hd, hstops⟩
      exact ⟨s :: pre, s', post, d, rfl, (hfirst pre).trans hd, hstops⟩

/-- One operation keeps the last `k` words, if it leaves that many. -/
theorem Op.words_suffix {op : Op w} {l l' : List UInt32} (h : op.words l = some l') {k : ℕ}
    (hk : k ≤ l.length) (hk' : k ≤ l'.length) :
    l'.drop (l'.length - k) = l.drop (l.length - k) := by
  have front (ws : List UInt32) : (ws ++ l).drop ((ws ++ l).length - k) =
      l.drop (l.length - k) := by
    rw [List.length_append, Nat.add_sub_assoc hk, List.drop_length_add_append]
  cases op with
  | put v => cases h; exact front [v]
  | puts data => cases h; exact front data.words
  | expand data => cases h; exact front data.words
  | shrink delta =>
    rw [Op.words] at h
    split at h
    · cases h
      rw [List.length_drop] at hk' ⊢
      rw [List.drop_drop]
      congr 1
      omega
    · cases h
  | reserve size => cases h; rfl
  | clear =>
    cases h
    rw [List.length_nil, Nat.le_zero] at hk'
    subst hk'
    simp

/-- The last `k` words stay where they are as long as no operation leaves fewer. -/
theorem run_suffix {b b' : Buffer} {l l' : List UInt32} (h : Holds w b l) (h' : Holds w b' l')
    (steps : List (Allocator × Op w)) (hrun : run w steps b = .ok b') {k : ℕ}
    (hk : ∀ pre, pre <+: steps → ∀ c, run w pre b = .ok c → k ≤ c.size w) :
    l'.drop (l'.length - k) = l.drop (l.length - k) := by
  induction steps generalizing b l with
  | nil =>
    obtain rfl : b = b' := by injection hrun
    rw [← h.words, ← h'.words]
  | cons s steps ih =>
    have hrun' := hrun
    rw [run, List.foldlM_cons] at hrun'
    cases hs : step w b s with
    | error e =>
      rw [hs] at hrun'
      cases hrun'
    | ok c =>
      rw [hs] at hrun'
      obtain ⟨m, hm, hc⟩ := (step_holds h s).of_ok hs
      have hsome (pre : List (Allocator × Op w)) : run w (s :: pre) b = run w pre c := by
        rw [run, List.foldlM_cons, hs]
        rfl
      have hkl := hk [] List.nil_prefix b rfl
      have hkm := hk [s] (List.prefix_cons_inj s |>.2 List.nil_prefix) c (hsome [])
      rw [h.size_eq] at hkl
      rw [hc.size_eq] at hkm
      rw [ih hc hrun' fun pre hpre d hd => ?_]
      · exact Op.words_suffix hm hkl hkm
      · exact hk (s :: pre) ((List.prefix_cons_inj s).2 hpre) d ((hsome pre).trans hd)

/-- Any run of operations from an empty buffer shows in `View` the words they are meant to
    leave, with `off_` in the array; and whatever follows, the last `k` words are found at
    `At(k)` and are the same, as long as no fewer are left in between. A run only ends
    early at an operation for which the array that it asks for is refused, or that drops more than
    there is. -/
theorem buffer_refines (steps : List (Allocator × Op w)) :
    (∀ b, run w steps {} = .ok b →
      b.off_ ≤ b.size_ ∧
      (∃ l, words steps [] = some l ∧ b.view w = .ok l ∧ b.size w = l.length) ∧
      ∀ more b', run w more b = .ok b' →
        ∀ k, (∀ pre, pre <+: more → ∀ c, run w pre b = .ok c → k ≤ c.size w) →
          ∃ ws, ws.length = k ∧ loadAt b.data (b.at' w k) k = .ok ws ∧
            loadAt b'.data (b'.at' w k) k = .ok ws) ∧
    ∀ e, run w steps {} = .error e → Stops steps {} e := by
  have hsteps := run_holds (Holds.empty w) steps
  refine ⟨fun b hb => ?_, fun e he => by rw [he] at hsteps; exact hsteps⟩
  obtain ⟨l, hl, h⟩ := hsteps.of_ok hb
  refine ⟨h.off_le, ⟨l, hl, h.view_eq, h.size_eq⟩, fun more b' hb' k hk => ?_⟩
  obtain ⟨l', hl', h'⟩ := (run_holds h more).of_ok hb'
  have hkl := hk [] List.nil_prefix b rfl
  have hkl' := hk more List.prefix_rfl b' hb'
  rw [h.size_eq] at hkl
  rw [h'.size_eq] at hkl'
  refine ⟨l.drop (l.length - k), ?_, h.at_eq hkl, ?_⟩
  · rw [List.length_drop, Nat.sub_sub_self hkl]
  · rw [h'.at_eq hkl', run_suffix h h' more hb' hk]

/-- The second allocation keeps the words at their distance from the tail. -/
theorem buffer_refines_regrown :
    ∃ b b' ws, run 64 [(fun _ => some fun _ => 0, .puts ⟨[1, 2, 3, 4, 5, 6, 7, 8], by decide⟩)]
      {} = .ok b ∧
      run 64 [(fun _ => some fun _ => 0, .put 0)] b = .ok b' ∧ b'.size_ = 16 ∧ ws.length = 8 ∧
      loadAt b.data (b.at' 64 8) 8 = .ok ws ∧ loadAt b'.data (b'.at' 64 8) 8 = .ok ws := by
  have h := buffer_refines (w := 64)
    [(fun _ => some fun _ => 0, .puts ⟨[1, 2, 3, 4, 5, 6, 7, 8], by decide⟩)]
  obtain ⟨-, -, hmore⟩ := h.1 _ rfl
  obtain ⟨ws, hws, hb, hb'⟩ :=
    hmore [(fun _ => some fun _ => 0, .put 0)] _ rfl 8 fun pre hpre c hc => by
    rcases List.prefix_cons_iff.1 hpre with rfl | ⟨t, rfl, ht⟩
    · cases hc
      decide
    · rw [List.prefix_nil.1 ht] at hc
      cases hc
      decide
  exact ⟨_, _, ws, rfl, rfl, rfl, hws, hb, hb'⟩

end ProtoCache.Allocated

import ProtoCache.Lib.Exceptional
import ProtoCache.Typescript.Schema
import Mathlib.Algebra.Order.Group.Nat

/-!
# The memory of the arena

The arena that records are written to (`PackedArena` of `typescript/src/serialize-arena.ts`,
`acquireSerializationArena` of `wasm-runtime.ts` and `pc_arena_reserve` of
`typescript/wasm/serialize_arena.cc`). It is part of the memory of the WebAssembly module
and grows there, by doubling, when a record asks for more.

What it can be made to have (`Fits`) stays the same while it grows. The rules for its
operations are about an arena that holds some bytes up to its offset (`Holding`).
-/

namespace ProtoCache.Typescript

open Exceptional

/-! ## The arena -/

/-- What is thrown while a record is written. -/
inductive ArenaError
  | typeError (text : String)
  | rangeError (text : String)
  | wasmError (text : String) (code : ℕ)

/-- `PackedArena`; what `bytes` and `view` show is the memory of the arena. -/
structure PackedArena where
  /-- The memory of the arena, all its capacity. -/
  bytes : List UInt8
  bytes_ne_nil : bytes ≠ []
  offset : ℕ
  /-- The largest capacity that the memory of the module has room for. -/
  room : ℕ

namespace PackedArena

/-- `MAX_BYTES`. -/
def maxBytes : ℕ := 2 ^ 30

/-- The capacity that `pc_arena_reserve` comes to, from a smaller one. -/
def grown (minimum capacity : ℕ) (h : 0 < capacity) : ℕ :=
  if capacity < minimum then
    if 2 ^ 29 ≤ capacity then minimum else grown minimum (capacity * 2) (by omega)
  else
    capacity
termination_by minimum - capacity

theorem length_pos (arena : PackedArena) : 0 < arena.bytes.length :=
  List.length_pos_iff.2 arena.bytes_ne_nil

/-- `pc_arena_reserve`, where 0 is no pointer. -/
def pcArenaReserve (minimum : ℕ) (arena : PackedArena) : Option PackedArena :=
  if minimum = 0 ∨ 2 ^ 30 ≤ minimum then
    none
  else if minimum ≤ arena.bytes.length then
    some arena
  else
    let capacity := grown minimum arena.bytes.length arena.length_pos
    if capacity ≤ arena.room then
      some { arena with
        bytes := arena.bytes ++ List.replicate (capacity - arena.bytes.length) 0
        bytes_ne_nil := List.append_ne_nil_of_left_ne_nil arena.bytes_ne_nil _ }
    else
      none

/-- `acquireSerializationArena`, whose result the arena is bound to. -/
def acquireSerializationArena (minimum : ℕ) : Run PackedArena ArenaError PUnit := fun arena =>
  if 0xffffffff < minimum then
    Run.throw (.rangeError "ProtoCache serialization arena exceeds the WASM32 limit") arena
  else if minimum = 0 then
    Run.throw (.rangeError "ProtoCache serialization arena must not be empty") arena
  else
    match pcArenaReserve minimum arena with
    | none => Run.throw (.wasmError "ProtoCache serialization arena allocation failed" 5) arena
    | some arena' => some (.ok ⟨⟩, arena')

/-- `require(byteLength)`. -/
def require (byteLength : ℕ) : Run PackedArena ArenaError PUnit := fun arena =>
  let required := arena.offset + byteLength
  if maxBytes ≤ required then
    Run.throw (.rangeError "ProtoCache serialization arena is too large") arena
  else if required ≤ arena.bytes.length then
    some (.ok ⟨⟩, arena)
  else
    acquireSerializationArena required arena

/-- `arena.offset`. -/
def getOffset : Run PackedArena ArenaError ℕ := fun arena => some (.ok arena.offset, arena)

/-- `arena.capacity`. -/
def getCapacity : Run PackedArena ArenaError ℕ := fun arena => some (.ok arena.bytes.length, arena)

/-- `arena.offset = offset`. -/
def setOffset (offset : ℕ) : Run PackedArena ArenaError PUnit := fun arena =>
  some (.ok ⟨⟩, { arena with offset })

/-- Bytes in the place of others. -/
def overwrite (bytes : List UInt8) (position : ℕ) (written : List UInt8) : List UInt8 :=
  bytes.take position ++ written ++ bytes.drop (position + written.length)

theorem overwrite_ne_nil {bytes written : List UInt8} {position : ℕ} (h : bytes ≠ [])
    (hp : position + written.length ≤ bytes.length) : overwrite bytes position written ≠ [] := by
  intro hnil
  have hlength := congrArg List.length hnil
  simp only [overwrite, List.length_append, List.length_take, List.length_drop,
    List.length_nil] at hlength
  have hpos := List.length_pos_iff.2 h
  omega

/-- `bytes.set(written, position)`. -/
def store (position : ℕ) (written : List UInt8) : Run PackedArena ArenaError PUnit := fun arena =>
  if h : position + written.length ≤ arena.bytes.length then
    some (.ok ⟨⟩, { arena with
      bytes := overwrite arena.bytes position written
      bytes_ne_nil := overwrite_ne_nil arena.bytes_ne_nil h })
  else
    Run.throw (.rangeError "offset is out of bounds") arena

/-- `bytes[position] = byte`, which does nothing where there is no such place. -/
def storeByte (position : ℕ) (byte : UInt8) : Run PackedArena ArenaError PUnit := fun arena =>
  some (.ok ⟨⟩, { arena with
    bytes := arena.bytes.set position byte
    bytes_ne_nil := by rw [Ne, List.set_eq_nil_iff]; exact arena.bytes_ne_nil })

/-- The bytes of a word, the lowest first. -/
def littleEndian (n : ℕ) : List UInt8 :=
  [UInt8.ofNat n, UInt8.ofNat (n / 0x100), UInt8.ofNat (n / 0x10000), UInt8.ofNat (n / 0x1000000)]

/-- `view.setUint32(position, value, true)`. -/
def setUint32 (position value : ℕ) : Run PackedArena ArenaError PUnit :=
  store position (littleEndian value)

/-- `begin(kind, auxiliary, count)`. -/
def beginRecord (kind : Kind) (auxiliary count : ℕ) : Run PackedArena ArenaError ℕ := do
  require 16
  let start ← getOffset
  setUint32 start kind.code
  setUint32 (start + 4) auxiliary
  setUint32 (start + 8) count
  setUint32 (start + 12) 16
  setOffset (start + 16)
  return start

/-- `finish(start)`. -/
def finish (start : ℕ) : Run PackedArena ArenaError PUnit := do
  let offset ← getOffset
  let aligned := (offset + 3) / 4 * 4
  require (aligned - offset)
  setOffset aligned
  setUint32 (start + 12) (aligned - start)

end PackedArena

/-! ## What the arena has room for -/

namespace PackedArena

theorem le_grown (minimum : ℕ) {capacity : ℕ} (h : 0 < capacity) :
    capacity ≤ grown minimum capacity h := by
  fun_induction grown minimum capacity h with
  | case1 capacity h hlt hle => exact hlt.le
  | case2 capacity h hlt hle ih => omega
  | case3 capacity h hlt => exact le_rfl

theorem minimum_le_grown (minimum : ℕ) {capacity : ℕ} (h : 0 < capacity) :
    minimum ≤ grown minimum capacity h := by
  fun_induction grown minimum capacity h with
  | case1 capacity h hlt hle => exact le_rfl
  | case2 capacity h hlt hle ih => exact ih
  | case3 capacity h hlt => exact not_lt.1 hlt

theorem grown_eq {minimum capacity : ℕ} (h : 0 < capacity) (hle : minimum ≤ capacity) :
    grown minimum capacity h = capacity := by
  rw [grown, if_neg (by omega)]

/-- Less is found on the way to more. -/
theorem grown_le {minimum capacity m : ℕ} (h : 0 < capacity) (hm : m ≤ grown minimum capacity h) :
    grown m capacity h ≤ grown minimum capacity h := by
  fun_induction grown minimum capacity h with
  | case1 capacity h hlt hle =>
    rw [grown]
    split_ifs
    · exact hm
    · exact hlt.le
  | case2 capacity h hlt hle ih =>
    by_cases hc : capacity < m
    · rw [grown, if_pos hc, if_neg hle]
      exact ih hm
    · rw [grown_eq h (by omega)]
      have hge := le_grown minimum (show 0 < capacity * 2 by omega)
      omega
  | case3 capacity h hlt => rw [grown_eq h hm]

/-- The way to more goes through what was found before. -/
theorem grown_grown {minimum capacity m : ℕ} (h : 0 < capacity)
    (hpos : 0 < grown minimum capacity h) (hm : grown minimum capacity h ≤ m) :
    grown m (grown minimum capacity h) hpos = grown m capacity h := by
  fun_induction grown minimum capacity h with
  | case1 capacity h hlt hle =>
    have hright : grown m capacity h = m := by rw [grown, if_pos (by omega), if_pos hle]
    rw [hright, grown]
    split_ifs <;> omega
  | case2 capacity h hlt hle ih =>
    have hge := minimum_le_grown minimum (show 0 < capacity * 2 by omega)
    have hright : grown m capacity h = grown m (capacity * 2) (by omega) := by
      rw [grown, if_pos (by omega), if_neg hle]
    rw [hright]
    exact ih hpos hm
  | case3 capacity h hlt => rfl

/-- The arena can be made to have a capacity. -/
def Fits (arena : PackedArena) (required : ℕ) : Prop :=
  required < maxBytes ∧
    (required ≤ arena.bytes.length ∨ grown required arena.bytes.length arena.length_pos ≤
      arena.room)

theorem Fits.mono {arena : PackedArena} {r r' : ℕ} (h : arena.Fits r) (hr : r' ≤ r) :
    arena.Fits r' := by
  refine ⟨lt_of_le_of_lt hr h.1, ?_⟩
  rcases h.2 with hle | hle
  · exact .inl (hr.trans hle)
  · exact .inr
      ((grown_le arena.length_pos (hr.trans (minimum_le_grown r arena.length_pos))).trans hle)

/-- The arena has grown; it can be made to have what it could be made to have before. -/
theorem fits_grown {a b : PackedArena} {r : ℕ} (hroom : b.room = a.room)
    (hlength : b.bytes.length = grown r a.bytes.length a.length_pos) (hr : a.Fits r) (m : ℕ) :
    b.Fits m ↔ a.Fits m := by
  refine and_congr_right fun _ => ?_
  by_cases hm : m ≤ a.bytes.length
  · have hle : m ≤ b.bytes.length := by
      rw [hlength]
      exact hm.trans (le_grown r a.length_pos)
    exact ⟨fun _ => .inl hm, fun _ => .inl hle⟩
  by_cases hmb : m ≤ b.bytes.length
  · refine ⟨fun _ => .inr ?_, fun _ => .inl hmb⟩
    rcases hr.2 with hle | hle
    · rw [hlength, grown_eq a.length_pos hle] at hmb
      exact absurd hmb hm
    · rw [hlength] at hmb
      exact (grown_le a.length_pos hmb).trans hle
  · have hgrown : grown m b.bytes.length b.length_pos = grown m a.bytes.length a.length_pos := by
      have hpos : 0 < grown r a.bytes.length a.length_pos := hlength ▸ b.length_pos
      rw [← grown_grown a.length_pos hpos (by omega)]
      congr 1
    rw [hroom, hgrown]
    constructor
    · exact fun h => .inr (h.resolve_left hmb)
    · exact fun h => .inr (h.resolve_left hm)

/-- The arena holds bytes up to its offset, then others, and then there is room that is
    reserved; `F` is what it can be made to have. -/
def Holding (F : ℕ → Prop) (p w : List UInt8) (n : ℕ) (arena : PackedArena) : Prop :=
  ∃ q, arena.bytes = p ++ w ++ q ∧ arena.offset = p.length ∧ n ≤ q.length ∧ ∀ r, arena.Fits r ↔ F r

variable {F : ℕ → Prop} {p w : List UInt8} {n k : ℕ} {arena : PackedArena}

theorem Holding.mono (h : Holding F p w n arena) (hk : k ≤ n) : Holding F p w k arena := by
  obtain ⟨q, hb, ho, hn, hF⟩ := h
  exact ⟨q, hb, ho, hk.trans hn, hF⟩

/-- What is reserved is there. -/
theorem pcArenaReserve_eq {r : ℕ} (hr : arena.Fits r) (h : ¬r ≤ arena.bytes.length) :
    ∃ b z, pcArenaReserve r arena = some b ∧ b.bytes = arena.bytes ++ z ∧ b.offset = arena.offset ∧
      r ≤ b.bytes.length ∧ ∀ m, b.Fits m ↔ arena.Fits m := by
  have hgrown := hr.2.resolve_left h
  have hmax : ¬(r = 0 ∨ 2 ^ 30 ≤ r) := by
    have hlt : r < 2 ^ 30 := hr.1
    omega
  have hge := le_grown r arena.length_pos
  refine ⟨{ arena with
      bytes := arena.bytes ++ List.replicate
        (grown r arena.bytes.length arena.length_pos - arena.bytes.length) 0
      bytes_ne_nil :=
        List.append_ne_nil_of_left_ne_nil arena.bytes_ne_nil _ }, _, ?_, rfl, rfl, ?_, ?_⟩
  · rw [pcArenaReserve, if_neg hmax, if_neg h]
    exact if_pos hgrown
  · simp only [List.length_append, List.length_replicate]
    have hmin := minimum_le_grown r arena.length_pos
    omega
  · refine fits_grown rfl ?_ hr
    simp only [List.length_append, List.length_replicate]
    omega

theorem pcArenaReserve_none {r : ℕ} (hr : ¬arena.Fits r) (hlt : r < maxBytes)
    (h : ¬r ≤ arena.bytes.length) :
    pcArenaReserve r arena = none := by
  have hroom : ¬grown r arena.bytes.length arena.length_pos ≤ arena.room :=
    fun hle => hr ⟨hlt, .inr hle⟩
  rw [pcArenaReserve]
  split_ifs
  · rfl
  · exact if_neg hroom

/-- `require` makes room, or it throws. -/
theorem require_spec (arena : PackedArena) (n : ℕ) :
    (arena.Fits (arena.offset + n) ∧ ∃ b z,
      require n arena = some (.ok ⟨⟩, b) ∧ b.bytes = arena.bytes ++ z ∧
      b.offset = arena.offset ∧ arena.offset + n ≤ b.bytes.length ∧ ∀ m, b.Fits m ↔ arena.Fits m) ∨
    (¬arena.Fits (arena.offset + n) ∧ ∃ e, require n arena = some (.error e, arena)) := by
  by_cases hmax : maxBytes ≤ arena.offset + n
  · refine .inr ⟨fun h => absurd h.1 (by omega),
      .rangeError "ProtoCache serialization arena is too large", ?_⟩
    rw [require]
    exact if_pos hmax
  -- The storage is large enough already, or the decoder is asked for more.
  by_cases hle : arena.offset + n ≤ arena.bytes.length
  · refine .inl ⟨⟨by omega, .inl hle⟩, arena, [], ?_, (List.append_nil _).symm, rfl, hle,
      fun _ => Iff.rfl⟩
    rw [require]
    exact (if_neg hmax).trans (if_pos hle)
  have hacquire : require n arena = acquireSerializationArena (arena.offset + n) arena := by
    rw [require]
    exact (if_neg hmax).trans (if_neg hle)
  have hmax' : maxBytes = 2 ^ 30 := rfl
  have hreserve : acquireSerializationArena (arena.offset + n) arena =
      match pcArenaReserve (arena.offset + n) arena with
      | none => Run.throw (.wasmError "ProtoCache serialization arena allocation failed" 5) arena
      | some arena' => some (.ok ⟨⟩, arena') := by
    rw [acquireSerializationArena, if_neg (by omega), if_neg (by omega)]
  by_cases hfits : arena.Fits (arena.offset + n)
  · obtain ⟨b, z, hb, hrest⟩ := pcArenaReserve_eq hfits hle
    refine .inl ⟨hfits, b, z, ?_, hrest⟩
    rw [hacquire, hreserve, hb]
  · refine .inr ⟨hfits, .wasmError "ProtoCache serialization arena allocation failed" 5, ?_⟩
    rw [hacquire, hreserve, pcArenaReserve_none hfits (by omega) hle]
    rfl

/-- The first thing that is reserved for a record. -/
theorem require_first (arena : PackedArena) (n : ℕ) : Settles (fun a => a = arena) (require n)
    (fun _ b => ∃ p, p.length = arena.offset ∧ Holding arena.Fits p [] n b)
    (fun _ _ => ¬arena.Fits (arena.offset + n)) := by
  rintro a rfl
  rcases require_spec a n with ⟨-, b, z, hb, hbytes, hoffset, hlength, hF⟩ | ⟨hfits, e, he⟩
  · refine ⟨_, b, hb, b.bytes.take a.offset, ?_, b.bytes.drop a.offset, ?_, ?_, ?_, hF⟩
    · rw [List.length_take]
      omega
    · rw [List.append_nil, List.take_append_drop]
    · rw [List.length_take, hoffset]
      omega
    · rw [List.length_drop]
      omega
  · exact ⟨_, a, he, hfits⟩

/-- What `R` says of it when there is no room. -/
theorem require_settles {R : Prop} (hR : ¬F (p.length + n) → R) :
    Settles (Holding F p [] k) (require n)
    (fun _ b => F (p.length + n) ∧ Holding F p [] (max k n) b) (fun _ _ => R) := by
  rintro a ⟨q, hbytes, hoffset, hk, hF⟩
  rcases require_spec a n with ⟨hfits, b, z, hb, hbytes', hoffset', hlength, hF'⟩ | ⟨hfits, e, he⟩
  · rw [hF, hoffset] at hfits
    refine ⟨_, b, hb, hfits, q ++ z, ?_, ?_, ?_, fun r => (hF' r).trans (hF r)⟩
    · rw [hbytes', hbytes]
      simp only [List.append_nil, List.append_assoc]
    · rw [hoffset', hoffset]
    · rw [hbytes', hbytes] at hlength
      simp only [List.append_nil, List.length_append] at hlength ⊢
      omega
  · rw [hF, hoffset] at hfits
    exact ⟨_, a, he, hR hfits⟩

/-! ## What is stored -/

theorem fits_congr {a b : PackedArena} (hlength : b.bytes.length = a.bytes.length)
    (hroom : b.room = a.room) (r : ℕ) : b.Fits r ↔ a.Fits r := by
  have hgrown : grown r b.bytes.length b.length_pos = grown r a.bytes.length a.length_pos := by
    congr 1
  rw [Fits, Fits, hroom, hgrown, hlength]

theorem overwrite_append {x y z ws : List UInt8} (h : y.length = ws.length) :
    overwrite (x ++ (y ++ z)) x.length ws = x ++ (ws ++ z) := by
  rw [overwrite, List.take_left', List.drop_append, ← h, List.append_assoc]
  · simp
  · rfl

theorem length_overwrite {bytes ws : List UInt8} {position : ℕ}
    (h : position + ws.length ≤ bytes.length) :
    (overwrite bytes position ws).length = bytes.length := by
  simp only [overwrite, List.length_append, List.length_take, List.length_drop]
  omega

/-- What `store` leaves. -/
theorem store_eq (ws : List UInt8) {x y z : List UInt8} (hbytes : arena.bytes = x ++ (y ++ z))
    (h : y.length = ws.length) :
    ∃ b, store x.length ws arena = some (.ok ⟨⟩, b) ∧ b.bytes = x ++ (ws ++ z) ∧
      b.offset = arena.offset ∧
      ∀ r, b.Fits r ↔ arena.Fits r := by
  have hle : x.length + ws.length ≤ arena.bytes.length := by
    rw [hbytes]
    simp only [List.length_append]
    omega
  refine ⟨{ arena with
      bytes := overwrite arena.bytes x.length ws
      bytes_ne_nil := overwrite_ne_nil arena.bytes_ne_nil hle }, dif_pos hle, ?_, rfl, ?_⟩
  · change overwrite arena.bytes x.length ws = _
    rw [hbytes, overwrite_append h]
  · exact fits_congr (length_overwrite hle) rfl

variable {R : Prop} {E : ArenaError → PackedArena → Prop}

/-- Bytes behind the offset. -/
theorem store_settles {ws : List UInt8} {position : ℕ} (hp : position = p.length + w.length)
    (h : ws.length ≤ n) :
    Settles (Holding F p w n) (store position ws)
      (fun _ => Holding F p (w ++ ws) (n - ws.length)) E := by
  rintro a ⟨q, hbytes, hoffset, hn, hF⟩
  have hsplit : a.bytes = (p ++ w) ++ (q.take ws.length ++ q.drop ws.length) := by
    rw [List.take_append_drop, hbytes]
  obtain ⟨b, hb, hbytes', hoffset', hF'⟩ := store_eq ws hsplit (by rw [List.length_take]; omega)
  rw [List.length_append, ← hp] at hb
  refine ⟨_, b, hb, q.drop ws.length, ?_, by rw [hoffset', hoffset], ?_,
    fun r => (hF' r).trans (hF r)⟩
  · rw [hbytes']
    simp only [List.append_assoc]
  · rw [List.length_drop]
    omega

/-- Bytes in the place of others, before the offset. -/
theorem patch_settles {x old ws z : List UInt8} (h : old.length = ws.length) :
    Settles (Holding F (x ++ (old ++ z)) w n) (store x.length ws)
      (fun _ => Holding F (x ++ (ws ++ z)) w n) E := by
  rintro a ⟨q, hbytes, hoffset, hn, hF⟩
  have hsplit : a.bytes = x ++ (old ++ (z ++ (w ++ q))) := by
    rw [hbytes]
    simp only [List.append_assoc]
  obtain ⟨b, hb, hbytes', hoffset', hF'⟩ := store_eq ws hsplit h
  refine ⟨_, b, hb, q, ?_, ?_, hn, fun r => (hF' r).trans (hF r)⟩
  · rw [hbytes']
    simp only [List.append_assoc]
  · rw [hoffset', hoffset]
    simp only [List.length_append, h]

theorem storeByte_settles {byte : UInt8} (h : 0 < n) :
    Settles (Holding F p [] n) (storeByte p.length byte)
      (fun _ => Holding F p [byte] (n - 1)) E := by
  rintro a ⟨q, hbytes, hoffset, hn, hF⟩
  cases q with
  | nil => exact absurd hn (by simp only [List.length_nil]; omega)
  | cons x q =>
    have hlength : (a.bytes.set p.length byte).length = a.bytes.length := List.length_set
    refine ⟨_, _, rfl, q, ?_, hoffset, by rw [List.length_cons] at hn; omega, fun r => (fits_congr
        (b := ⟨a.bytes.set p.length byte, _, a.offset, a.room⟩) hlength rfl r).trans (hF r)⟩
    change a.bytes.set p.length byte = _
    rw [hbytes, List.append_nil, List.set_append_right _ _ le_rfl, Nat.sub_self, List.set_cons_zero,
      List.append_assoc]
    rfl

theorem setOffset_settles {p' w' : List UInt8} {offset : ℕ} (h : p ++ w = p' ++ w')
    (ho : offset = p'.length) :
    Settles (Holding F p w n) (setOffset offset) (fun _ => Holding F p' w' n) E := by
  rintro a ⟨q, hbytes, hoffset, hn, hF⟩
  refine ⟨_, _, rfl, q, ?_, ho, hn, fun r => (fits_congr rfl rfl r).trans (hF r)⟩
  change a.bytes = _
  rw [hbytes, h]

/-- What is written behind the offset is forgotten. -/
theorem Holding.forget (h : Holding F p w n arena) : Holding F p [] n arena := by
  obtain ⟨q, hbytes, hoffset, hn, hF⟩ := h
  refine ⟨w ++ q, ?_, hoffset, ?_, hF⟩
  · rw [hbytes, List.append_nil, List.append_assoc]
  · rw [List.length_append]
    omega

/-- What is reserved is there, whatever it is. -/
theorem Holding.take (h : Holding F p [] n arena) (hk : k ≤ n) :
    ∃ z, z.length = k ∧ Holding F p z (n - k) arena := by
  obtain ⟨q, hbytes, hoffset, hn, hF⟩ := h
  refine ⟨q.take k, by rw [List.length_take]; omega, q.drop k, ?_, hoffset, by
    rw [List.length_drop]; omega, hF⟩
  rw [hbytes, List.append_nil, List.append_assoc, List.take_append_drop]

theorem getOffset_bind {β : Type} {f : ℕ → Run PackedArena ArenaError β}
    {Q : β → PackedArena → Prop} (h : Settles (Holding F p w n) (f p.length) Q E) :
    Settles (Holding F p w n) (getOffset >>= f) Q E := by
  intro a ha
  obtain ⟨r, b, hb, hr⟩ := h a ha
  refine ⟨r, b, ?_, hr⟩
  obtain ⟨q, -, hoffset, -⟩ := ha
  change f a.offset a = _
  rw [hoffset, hb]

theorem getCapacity_bind {β : Type} {f : ℕ → Run PackedArena ArenaError β}
    {Q : β → PackedArena → Prop}
    (h : ∀ capacity, p.length + w.length + n ≤ capacity →
      Settles (Holding F p w n) (f capacity) Q E) :
    Settles (Holding F p w n) (getCapacity >>= f) Q E := by
  intro a ha
  have hle : p.length + w.length + n ≤ a.bytes.length := by
    obtain ⟨q, hbytes, -, hn, -⟩ := ha
    rw [hbytes]
    simp only [List.length_append]
    omega
  exact h a.bytes.length hle a ha

/-! ## Records -/

/-- The words before a record. -/
def header (kind : Kind) (auxiliary count size : ℕ) : List UInt8 :=
  littleEndian kind.code ++ (littleEndian auxiliary ++ (littleEndian count ++ littleEndian size))

@[simp] theorem length_littleEndian (n : ℕ) : (littleEndian n).length = 4 := rfl

@[simp] theorem length_header (kind : Kind) (auxiliary count size : ℕ) :
    (header kind auxiliary count size).length = 16 := rfl

theorem beginRecord_settles {kind : Kind} {auxiliary count : ℕ} (hR : ¬F (p.length + 16) → R) :
    Settles (Holding F p [] k) (beginRecord kind auxiliary count)
      (fun start b => start = p.length ∧ Holding F (p ++ header kind auxiliary count 16) []
        (k - 16) b)
      (fun _ _ => R) := by
  refine Settles.bind (require_settles hR) fun _ => Settles.of_fact fun _ => getOffset_bind ?_
  refine Settles.bind (store_settles rfl (by simp)) fun _ => ?_
  refine Settles.bind (store_settles (by simp) (by simp; omega)) fun _ => ?_
  refine Settles.bind (store_settles (by simp) (by simp; omega)) fun _ => ?_
  refine Settles.bind (store_settles (by simp) (by simp; omega)) fun _ => ?_
  have hsplit : p ++ ([] ++ littleEndian kind.code ++ littleEndian auxiliary ++
    littleEndian count ++ littleEndian 16) =
      (p ++ header kind auxiliary count 16) ++ [] := by
    simp only [header, List.nil_append, List.append_nil, List.append_assoc]
  refine Settles.bind (setOffset_settles hsplit (by simp)) fun _ => Settles.pure fun b hb =>
    ⟨rfl, hb.mono ?_⟩
  simp only [length_littleEndian]
  omega

/-- The end of a record, whose bytes are followed by others up to the next word. -/
theorem finish_settles {kind : Kind} {auxiliary count size : ℕ} {body : List UInt8}
    (hR : ¬F ((p.length + 16 + body.length + 3) / 4 * 4) → R) :
    Settles (Holding F (p ++ (header kind auxiliary count size ++ body)) [] k) (finish p.length)
      (fun _ b => F ((p.length + 16 + body.length + 3) / 4 * 4) ∧ ∃ size' pad,
        Holding F (p ++ (header kind auxiliary count size' ++ (body ++ pad))) [] 0 b)
          (fun _ _ => R) := by
  have hlength : (p ++ (header kind auxiliary count size ++ body)).length =
      p.length + 16 + body.length := by
    simp only [List.length_append, length_header]
    omega
  refine getOffset_bind ?_
  rw [hlength]
  have hsum : (p ++ (header kind auxiliary count size ++ body)).length +
      ((p.length + 16 + body.length + 3) / 4 * 4 - (p.length + 16 + body.length)) =
      (p.length + 16 + body.length + 3) / 4 * 4 := by omega
  have hrequire := require_settles (F := F) (k := k)
    (n := (p.length + 16 + body.length + 3) / 4 * 4 - (p.length + 16 + body.length)) (by rwa [hsum])
  rw [hsum] at hrequire
  refine Settles.bind hrequire fun _ => Settles.of_fact fun hF => ?_
  -- What is passed over keeps the bytes that were there.
  refine Settles.bind
    (M := fun _ b => ∃ pad, Holding F (p ++ (header kind auxiliary count size ++ (body ++ pad))) []
      0 b) ?_ fun _ => Settles.of_exists fun pad => ?_
  · intro a ha
    obtain ⟨pad, hpad, hpads⟩ := ha.take (le_max_right _ _)
    have hsplit : (p ++ (header kind auxiliary count size ++ body)) ++ pad =
        (p ++ (header kind auxiliary count size ++ (body ++ pad))) ++ [] := by
      simp only [List.append_assoc, List.append_nil]
    have ho : (p.length + 16 + body.length + 3) / 4 * 4 =
        (p ++ (header kind auxiliary count size ++ (body ++ pad))).length := by
      simp only [List.length_append, length_header, hpad]
      omega
    obtain ⟨r, b, hb, hr⟩ := setOffset_settles (E := fun _ _ => R) hsplit ho a hpads
    refine ⟨r, b, hb, ?_⟩
    cases r with
    | error e => exact hr
    | ok _ => exact ⟨pad, Holding.mono hr (Nat.zero_le _)⟩
  · have hold : p ++ (header kind auxiliary count size ++ (body ++ pad)) =
        (p ++ (littleEndian kind.code ++ (littleEndian auxiliary ++ littleEndian count))) ++
          (littleEndian size ++ (body ++ pad)) := by
      simp only [header, List.append_assoc]
    have hx : p.length + 12 =
        (p ++
          (littleEndian kind.code ++ (littleEndian auxiliary ++ littleEndian count))).length := by
      simp only [List.length_append, length_littleEndian]
    rw [hold, setUint32, hx]
    refine (patch_settles (by simp)).conseq (fun _ h => h)
      (fun _ b hb => ⟨hF, (p.length + 16 + body.length + 3) / 4 * 4 - p.length, pad, ?_⟩)
        fun _ _ h => h
    simpa only [header, List.append_assoc] using hb

/-- The count of a record. -/
theorem setCount_settles {kind : Kind} {auxiliary count size value : ℕ} {body : List UInt8} :
    Settles (Holding F (p ++ (header kind auxiliary count size ++ body)) w n)
      (setUint32 (p.length + 8) value)
      (fun _ => Holding F (p ++ (header kind auxiliary value size ++ body)) w n) E := by
  have hx : p.length + 8 = (p ++ (littleEndian kind.code ++ littleEndian auxiliary)).length := by
    simp only [List.length_append, length_littleEndian]
  have hsplit (count : ℕ) : p ++ (header kind auxiliary count size ++ body) =
      (p ++ (littleEndian kind.code ++ littleEndian auxiliary)) ++
        (littleEndian count ++ (littleEndian size ++ body)) := by
    simp only [header, List.append_assoc]
  rw [hsplit, hsplit, hx]
  exact patch_settles (by simp)

end PackedArena

end ProtoCache.Typescript

import ProtoCache.Typescript.Encoding

/-!
# The reader gets what is in the buffer

* `visitMap_told`: what is appended for a map tells of it, strings by their descriptors before
  the objects;
* `visit_told`: so does what is appended for an object of any type, however the types refer to
  each other;
* `deserialize_eq`: whatever buffer the decoder accepts, the reader ends at the end of the tape,
  and gets the values of what the accessors read of the buffer. It throws only if a string
  in the buffer is not UTF-8;
* `materialize_eq`: and then it does, so that its walk over the tape is known of every buffer.
-/

namespace ProtoCache.Typescript

open LittleEndian Outcome
open Wasm

variable {α : Type} {W : List UInt32} {plans : List TypePlan} {types : List (TapeType α)}
  {R : ℕ → UInt32 → Prop} {n : ℕ}

/-! ## Descriptors of pairs -/

/-- The descriptor that a key or a value has if it is a string. -/
def slot (isBytes : Bool) (p : ℕ × ℕ) : List (ℕ × ℕ) := if isBytes then [p] else []

theorem length_slot (isBytes : Bool) (p : ℕ × ℕ) :
    (slot isBytes p).length = if isBytes then 1 else 0 := by
  cases isBytes <;> rfl

/-- Of rows of the same length, one after the other. -/
theorem getElem?_rows {β γ : Type} {f : β → List γ} {s : ℕ} (bs : List β)
    (hlen : ∀ b ∈ bs, (f b).length = s) {j t : ℕ} {b : β} {c : γ} (hb : bs[j]? = some b)
    (hc : (f b)[t]? = some c) : (bs.flatMap f)[j * s + t]? = some c := by
  induction bs generalizing j with
  | nil => cases hb
  | cons b' bs ih =>
    have hlen' := hlen b' List.mem_cons_self
    rw [List.flatMap_cons]
    cases j with
    | zero =>
      cases hb
      rw [Nat.zero_mul, Nat.zero_add,
        List.getElem?_append_left (List.getElem?_eq_some_iff.1 hc).1, hc]
    | succ j =>
      rw [List.getElem?_append_right (by rw [hlen', Nat.succ_mul]; omega), hlen', Nat.succ_mul,
        Nat.add_right_comm, Nat.add_sub_cancel]
      exact ih (fun b hb => hlen b (List.mem_cons_of_mem _ hb)) hb

variable (plans types R n) in
/-- The descriptor of a key or a value is set if it is a string. -/
theorem slot_told (hW : W.length < 2 ^ 30) {isBytes : Bool}
    {kind wordOffset width descriptor : UInt32} (child : UInt32)
    (hbytes : isBytes = true → kind = kString ∨ kind = kBytes) {base : List UInt32}
    {done rest : List (ℕ × ℕ)} (hd : descriptor.toNat = base.length + done.length * 2)
    (hlen : (base ++ pairWords (done ++ (slot isBytes (0, 0) ++ rest))).length < 2 ^ 32) :
    Wasm.Gives (fun tape => ∃ p : ℕ × ℕ, p.1 < 2 ^ 32 ∧ p.2 < 2 ^ 32 ∧
        (isBytes = true → ∃ raw, ToldValue W plans types R n kind child
          ⟨.at (W.drop wordOffset.toNat), width.toNat⟩ p [] raw) ∧
        tape = base ++ pairWords (done ++ (slot isBytes p ++ rest)))
      (if isBytes then validateScalar (bytesOf W) kind wordOffset width descriptor
          (base ++ pairWords (done ++ (slot isBytes (0, 0) ++ rest)))
        else pure (base ++ pairWords (done ++ (slot isBytes (0, 0) ++ rest)))) := by
  cases isBytes with
  | false =>
    exact ensures_pure.2 ⟨(0, 0), Nat.two_pow_pos 32, Nat.two_pow_pos 32,
      fun h => (by cases h), rfl⟩
  | true =>
    have hset := @validateScalar_bytes α W plans types R n hW kind wordOffset width descriptor child
      (hbytes rfl) base []
      (done ++ (slot true (0, 0) ++ rest)) done.length hd (by simp [slot])
        (by rwa [List.append_nil])
    rw [List.append_nil] at hset
    refine hset.mono fun tape h => ?_
    obtain ⟨p, raw, -, hp₁, hp₂, htold, rfl⟩ := h
    refine ⟨p, hp₁, hp₂, fun _ => ⟨raw, htold⟩, ?_⟩
    rw [List.append_nil, List.set_append_right _ _ le_rfl, Nat.sub_self]
    rfl

/-- The kinds of strings. -/
def isBytesKind (kind : UInt32) : Bool := kind == kString || kind == kBytes

theorem isBytesKind_iff {kind : UInt32} :
    isBytesKind kind = true ↔ kind = kString ∨ kind = kBytes := by
  rw [isBytesKind, Bool.or_eq_true, beq_iff_eq, beq_iff_eq]

/-- The descriptors of a pair. -/
def slots (plan : TypePlan) (key value : ℕ × ℕ) : List (ℕ × ℕ) :=
  slot (plan.keyKind == kString) key ++ slot (isBytesKind plan.valueKind) value

/-- How many descriptors a pair has. -/
def slotCount (plan : TypePlan) : ℕ :=
  (if plan.keyKind == kString then 1 else 0) + (if isBytesKind plan.valueKind then 1 else 0)

theorem length_slots (plan : TypePlan) (key value : ℕ × ℕ) :
    (slots plan key value).length = slotCount plan := by
  rw [slots, List.length_append, length_slot, length_slot, slotCount]

variable (plans types R n) in
/-- The step of the first loop of `VisitMap`. -/
theorem visitPair_told (hW : W.length < 2 ^ 30) {plan : TypePlan}
    {key keyWidth valueWidth descriptor : UInt32} {base : List UInt32} {done rest : List (ℕ × ℕ)}
    (hd : descriptor.toNat = base.length + done.length * 2)
    (hlen : (base ++ pairWords (done ++ (slots plan (0, 0) (0, 0) ++ rest))).length < 2 ^ 32) :
    Wasm.Gives (fun tape => ∃ k v : ℕ × ℕ,
      (k.1 < 2 ^ 32 ∧ k.2 < 2 ^ 32) ∧ (v.1 < 2 ^ 32 ∧ v.2 < 2 ^ 32) ∧
        (plan.keyKind = kString → ∃ raw, ToldValue W plans types R n kString kNoType
          ⟨.at (W.drop key.toNat), keyWidth.toNat⟩ k [] raw) ∧
        (isBytesKind plan.valueKind = true → ∃ raw,
          ToldValue W plans types R n plan.valueKind plan.child
          ⟨.at (W.drop (key + keyWidth).toNat), valueWidth.toNat⟩ v [] raw) ∧
        tape = base ++ pairWords (done ++ (slots plan k v ++ rest)))
      (visitPair (bytesOf W) plan key keyWidth valueWidth descriptor
        (base ++ pairWords (done ++ (slots plan (0, 0) (0, 0) ++ rest)))) := by
  rw [slots, List.append_assoc] at hlen ⊢
  rw [visitPair]
  refine (slot_told plans types R n hW kNoType (fun _ => .inl rfl) hd hlen).bind fun tape h => ?_
  obtain ⟨k, hk₁, hk₂, hkey, rfl⟩ := h
  -- The descriptor of the value is behind the one of the key, if there is one.
  have hcount : (done ++ slot (plan.keyKind == kString) k).length =
      done.length + if plan.keyKind == kString then 1 else 0 := by
        rw [List.length_append, length_slot]
  have hbase : base.length + done.length * 2 + 2 ≤ base.length +
      (pairWords (done ++ (slot (plan.keyKind == kString) (0, 0) ++
          (slot (isBytesKind plan.valueKind) (0, 0) ++ rest)))).length ∨
      (plan.keyKind == kString) = false := by
    cases plan.keyKind == kString with
    | false => exact .inr rfl
    | true =>
      refine .inl ?_
      simp only [length_pairWords, List.length_append, length_slot, if_true]
      omega
  rw [List.length_append] at hlen
  have hd' : (if plan.keyKind == kString then descriptor + 2 else descriptor).toNat =
      base.length + (done ++ slot (plan.keyKind == kString) k).length * 2 := by
    rw [hcount]
    split
    · next hstring =>
      have hle := hbase.resolve_right (by rw [hstring]; decide)
      rw [UInt32.toNat_add, hd, show (2 : UInt32).toNat = 2 from rfl, Nat.mod_eq_of_lt (by omega)]
      omega
    · exact hd
  have hrest : done ++
    (slot (plan.keyKind == kString) k ++ (slot (isBytesKind plan.valueKind) (0, 0) ++ rest)) =
      (done ++ slot (plan.keyKind == kString) k) ++
        (slot (isBytesKind plan.valueKind) (0, 0) ++ rest) := by
    rw [List.append_assoc]
  rw [hrest]
  refine (slot_told plans types R n hW plan.child isBytesKind_iff.1 hd' ?_).mono fun tape h => ?_
  · simp only [List.length_append, length_pairWords, length_slot] at hlen ⊢
    rwa [Nat.add_assoc]
  · obtain ⟨v, hv₁, hv₂, hvalue, rfl⟩ := h
    refine ⟨k, v, ⟨hk₁, hk₂⟩, ⟨hv₁, hv₂⟩, fun h => hkey (beq_iff_eq.2 h), hvalue, ?_⟩
    rw [List.append_assoc, slots, List.append_assoc]

/-! ## Opening maps -/

theorem and_count_toNat (header : UInt32) :
    (header &&& 0x0fffffff).toNat = realSize header.toNat := by
  rw [UInt32.toNat_and]
  exact Nat.and_two_pow_sub_one_eq_mod _ 28

theorem openMap_view (hW : W.length < 2 ^ 30) {location : Location} {header : UInt32}
    (hheader : (location.view W).head? = some header) (hkey : ((header >>> 30) &&& 3).toNat ≠ 0)
    (hvalue : ((header >>> 28) &&& 3).toNat ≠ 0)
    (hin : location.wordOffset.toNat + wordSize (indexBytes (realSize header.toNat)) +
      (((header >>> 30) &&& 3).toNat + ((header >>> 28) &&& 3).toNat) * realSize header.toNat ≤
      W.length) :
    ∃ index : PerfectHash, index.size = .ok (realSize header.toNat) ∧
      openMap true (.at (location.view W)) =
      .ok ⟨index,
        .at (W.drop (location.wordOffset.toNat + wordSize (indexBytes (realSize header.toNat)))),
        ((header >>> 30) &&& 3).toNat, ((header >>> 28) &&& 3).toNat⟩ := by
  have hview : (location.view W).length = W.length - location.wordOffset.toNat := List.length_drop
  obtain ⟨rest, hrest⟩ : ∃ rest, location.view W = header :: rest := by
    cases h : location.view W with
    | nil =>
      rw [h] at hheader
      cases hheader
    | cons w rest =>
      rw [h] at hheader
      cases hheader
      exact ⟨rest, rfl⟩
  have hpos : 0 < (location.view W).length := by
    rw [hrest]
    exact Nat.zero_lt_succ _
  have hindex : indexBytes (realSize header.toNat) ≤ (location.view W).length * 4 := by
    rw [wordSize] at hin
    omega
  have hfits : IndexFits (header :: rest) := by
    refine ⟨⟨hkey, hvalue⟩, .inr ?_⟩
    rw [← hrest, Nat.mod_eq_of_lt (by omega)]
    exact hindex
  have hroom : ¬(location.view W).length < wordSize (indexBytes (realSize header.toNat)) +
      (((header >>> 30) &&& 3).toNat + ((header >>> 28) &&& 3).toNat) * realSize header.toNat := by
        omega
  rw [hrest, openMap_of_fits hfits, ← hrest, if_neg hroom, Location.view, List.drop_drop]
  refine ⟨_, ?_, rfl⟩
  rw [PerfectHash.size]
  dsimp only
  rw [← Location.view, hrest, readLE_cons]
  rfl

/-! ## Maps -/

/-- What there is of a pair in the end. -/
structure Pair where
  key : ℕ × ℕ
  keyRaw : Raw
  value : ℕ × ℕ
  ext : List UInt32
  raw : Raw

variable (W plans types R n) in
/-- A pair is told, whose key starts at a word of the buffer. -/
structure Pair.Told (plan : TypePlan) (at_ keyWidth valueWidth : ℕ) (pair : Pair) : Prop where
  small : (pair.key.1 < 2 ^ 32 ∧ pair.key.2 < 2 ^ 32) ∧
    (pair.value.1 < 2 ^ 32 ∧ pair.value.2 < 2 ^ 32)
  key : ToldValue W plans types R n plan.keyKind kNoType ⟨.at (W.drop at_), keyWidth⟩ pair.key []
    pair.keyRaw
  value : ToldValue W plans types R n plan.valueKind plan.child
    ⟨.at (W.drop (at_ + keyWidth)), valueWidth⟩ pair.value
    pair.ext pair.raw
  keyAt : plan.keyKind ≠ kString → pair.key = (at_, keyWidth)
  valueAt : isBytesKind plan.valueKind = false → pair.value = (at_ + keyWidth, valueWidth)
  plain : isComplex plan.valueKind = false → pair.ext = []

theorem Pair.Told.small_of_mem {plan : TypePlan} {at_ keyWidth valueWidth : ℕ} {pair : Pair}
    (h : pair.Told W plans types R n plan at_ keyWidth valueWidth) {p : ℕ × ℕ}
    (hp : p ∈ slots plan pair.key pair.value) :
    p.1 < 2 ^ 32 ∧ p.2 < 2 ^ 32 := by
  have hslot : ∀ (b : Bool) q, p ∈ slot b q → p = q := by
    intro b q hq
    cases b with
    | false => cases hq
    | true => exact List.mem_singleton.1 hq
  rcases List.mem_append.1 hp with hp | hp
  · rw [hslot _ _ hp]
    exact h.small.1
  · rw [hslot _ _ hp]
    exact h.small.2

/-- A key is told by two numbers. -/
theorem ToldValue.key {kind child : UInt32} {f : ProtoCache.Field} {p : ℕ × ℕ} {raw : Raw}
    (h : ToldValue W plans types R n kind child f p [] raw) {tkind : Kind} (htkind : tkind.Is kind)
    (hcomplex : tkind.isComplexKind = false) :
    scalarAt (bytesOf W) tkind p.1 p.2 = decodeScalar tkind raw := by
  have hscalar := h.scalar htkind hcomplex 0 0
  have hdecode : decode types tkind 0 raw = decodeScalar tkind raw >>=
      fun s => pure (.scalar s) := by
    rcases readValue_plain (htkind.complex.symm.trans hcomplex) (h.2.1 n le_rfl) with
      ⟨ws, rfl⟩ | ⟨bs, rfl⟩
    · rw [decode]
    · rw [decode, hcomplex]
      rfl
  rw [hdecode] at hscalar
  cases hleft : scalarAt (bytesOf W) tkind p.1 p.2 <;> cases hright : decodeScalar tkind raw <;>
    rw [hleft, hright] at hscalar <;> cases hscalar <;> rfl

theorem decodePairs_nil (types : List (TapeType α)) (keyKind kind : Kind) (child : ℕ) :
    decodePairs types keyKind kind child [] [] = pure [] := by
      rw [decodePairs]; intros; contradiction

theorem decodePairs_cons (types : List (TapeType α)) (keyKind kind : Kind) (child : ℕ)
    (pair : Raw × Raw) (pairs : List (Raw × Raw)) :
    decodePairs types keyKind kind child ((pair :: pairs).map Prod.fst)
      ((pair :: pairs).map Prod.snd) =
      (decodeScalar keyKind pair.1 >>= fun key => decode types kind child pair.2 >>=
        fun value => pure (key, value)) >>=
        fun r => decodePairs types keyKind kind child (pairs.map Prod.fst) (pairs.map Prod.snd) >>=
          fun rs =>
          pure (r :: rs) := by
  rw [List.map_cons, List.map_cons, decodePairs]
  simp only [bind_assoc, pure_bind]

theorem Kind.Is.isBytes {kind : Kind} {code : UInt32} (h : kind.Is code) :
    (kind = .string ∨ kind = .bytes) ↔ isBytesKind code = true := by
  rw [isBytesKind_iff, h.string, h.bytes]

section

variable {plan : TypePlan} {keyKind valueKind : Kind} {child k : ℕ} (hkey : keyKind.Is plan.keyKind)
  (hvalue : valueKind.Is plan.valueKind) (hcomplex : keyKind.isComplexKind = false)
  (hchild : valueKind.isComplexKind = true → R child plan.child) (hk : n ≤ k)
  {keyWidth valueWidth : ℕ}

include hkey hvalue hcomplex hchild hk

/-- A pair is read where it is, or by its descriptors. -/
theorem materializePair_eq {pair : Pair} {data0 index descriptors : ℕ}
    (htold : pair.Told W plans types R n plan (data0 + index * (keyWidth + valueWidth)) keyWidth
      valueWidth) {tape before after : List UInt32}
    (hslots : ∀ (t : ℕ) p, (slots plan pair.key pair.value)[t]? = some p →
      tapeAt tape (descriptors + index * (slotCount plan * 2) + t * 2) = p.1 ∧
      tapeAt tape (descriptors + index * (slotCount plan * 2) + t * 2 + 1) = p.2)
    (htape : tape = before ++ (pair.ext ++ after)) :
    materializePair ⟨bytesOf W, tape, types⟩ (materialize ⟨bytesOf W, tape, types⟩ k) keyKind
      valueKind child data0 keyWidth
        valueWidth descriptors (slotCount plan * 2) index before.length =
      (decodeScalar keyKind pair.keyRaw >>= fun key => decode types valueKind child pair.raw >>=
        fun value =>
        pure (key, value)) >>= fun r => pure (r, before.length + pair.ext.length) := by
  have hfirst : (if keyKind = .string then scalarAt (bytesOf W) keyKind
        (tapeAt tape (descriptors + index * (slotCount plan * 2)))
        (tapeAt tape (descriptors + index * (slotCount plan * 2) + 1))
      else scalarAt (bytesOf W) keyKind (data0 + index * (keyWidth + valueWidth)) keyWidth) =
      decodeScalar keyKind pair.keyRaw := by
    rw [← htold.key.key hkey hcomplex]
    split
    · next hstring =>
      obtain ⟨h₁, h₂⟩ :=
        hslots 0 pair.key (by rw [slots, slot, beq_iff_eq.2 (hkey.string.1 hstring)]; rfl)
      rw [Nat.zero_mul, Nat.add_zero] at h₁ h₂
      rw [h₁, h₂]
    · next hstring => rw [htold.keyAt fun h => hstring (hkey.string.2 h)]
  have hsecond : (if valueKind = .string ∨ valueKind = .bytes then do
        let value ← scalarAt (bytesOf W) valueKind
          (tapeAt tape (if keyKind = .string then descriptors + index * (slotCount plan * 2) + 2
            else descriptors + index * (slotCount plan * 2)))
          (tapeAt tape ((if keyKind = .string then descriptors + index * (slotCount plan * 2) + 2
            else descriptors + index * (slotCount plan * 2)) + 1))
        pure (Decoded.scalar value, before.length)
      else Typescript.valueAt ⟨bytesOf W, tape, types⟩ (materialize ⟨bytesOf W, tape, types⟩ k)
        valueKind child
        (data0 + index * (keyWidth + valueWidth) + keyWidth) valueWidth before.length) =
      decode types valueKind child pair.raw >>= fun value =>
        pure (value, before.length + pair.ext.length) := by
    split
    · next hbytes =>
      -- The descriptor of the value stands behind the one of the key, if there is one.
      have hisBytes := hvalue.isBytes.1 hbytes
      have hplain : isComplex plan.valueKind = false := by
        rcases isBytesKind_iff.1 hisBytes with h | h <;> rw [h] <;> rfl
      have hslot : ∃ t, (slots plan pair.key pair.value)[t]? = some pair.value ∧
          (if keyKind = .string then descriptors + index * (slotCount plan * 2) + 2
            else descriptors + index * (slotCount plan * 2)) =
              descriptors + index * (slotCount plan * 2) + t * 2 := by
        rw [slots, slot, slot, hisBytes]
        by_cases hstring : keyKind = .string
        · rw [if_pos hstring, beq_iff_eq.2 (hkey.string.1 hstring)]
          exact ⟨1, rfl, rfl⟩
        · rw [if_neg hstring, beq_false_of_ne fun h => hstring (hkey.string.2 h)]
          exact ⟨0, rfl, rfl⟩
      obtain ⟨t, ht, hat⟩ := hslot
      obtain ⟨h₁, h₂⟩ := hslots t _ ht
      have hvalue' := htold.value
      rw [htold.plain hplain] at hvalue' ⊢
      rw [hat, h₁, h₂]
      exact hvalue'.scalar hvalue (hvalue.complex.trans hplain) child _
    · next hbytes =>
      have hmake := htold.value.2.2 valueKind child hvalue hchild k hk before after
      rw [← htape,
        htold.valueAt (by rw [← Bool.not_eq_true, ← hvalue.isBytes]; exact hbytes)] at hmake
      exact hmake
  rw [materializePair]
  dsimp only
  rw [hfirst]
  cases decodeScalar keyKind pair.keyRaw with
  | error failure => rfl
  | ok key =>
    refine (congrArg (· >>= fun r => pure ((key, r.1), r.2)) hsecond).trans ?_
    cases decode types valueKind child pair.raw <;> rfl

/-- The descriptors of pairs, and what was appended for them. -/
theorem materializeMap_eq {typeId c d e : UInt32} (hkeyWidth : e.toNat % 2 ^ 16 = keyWidth)
    (hvalueWidth : e.toNat / 2 ^ 16 = valueWidth) {pairs : List Pair}
    (hcount : c.toNat = pairs.length)
    (htold : ∀ (j : ℕ) pair, pairs[j]? = some pair →
      pair.Told W plans types R n plan (d.toNat + j * (keyWidth + valueWidth)) keyWidth valueWidth)
    {pre post tape rest : List UInt32}
    (hrest : rest = pairWords (pairs.flatMap fun pair => slots plan pair.key pair.value) ++
      pairs.flatMap Pair.ext) (htape : tape = pre ++ ([kMap, typeId, c, d, e] ++ rest ++ post)) :
    materializeMap ⟨bytesOf W, tape, types⟩ (materialize ⟨bytesOf W, tape, types⟩ k) keyKind
      valueKind child pre.length =
      decodePairs types keyKind valueKind child (pairs.map Pair.keyRaw) (pairs.map Pair.raw) >>=
        fun rs =>
        pure (Decoded.map (rs.foldl (fun out pair => assign pair.1 pair.2 out) []),
          pre.length + (5 + rest.length)) := by
  have hlength : ∀ l : List Pair, (l.flatMap fun pair => slots plan pair.key pair.value).length =
      l.length * slotCount plan := by
    intro l
    rw [List.length_flatMap, List.map_congr_left fun pair _ =>
      length_slots plan pair.key pair.value, List.map_const', List.sum_replicate, smul_eq_mul]
  obtain ⟨hc, hd, he⟩ := tapeAt_header pre (rest ++ post) kMap typeId c d e
  rw [← List.append_assoc [kMap, typeId, c, d, e] rest, ← htape] at hc hd he
  -- Both sides go by the same number of descriptors for a pair.
  have hstride : ((if keyKind = .string then 2 else 0) + if valueKind = .string ∨
    valueKind = .bytes then 2 else 0) =
      slotCount plan * 2 := by
    have hfirst : (keyKind = .string) ↔ (plan.keyKind == kString) = true := by
      rw [hkey.string, beq_iff_eq]
    simp only [slotCount, hfirst, hvalue.isBytes]
    split <;> split <;> rfl
  have hsplit : tape = (pre ++ [kMap, typeId, c, d, e]) ++
      (pairWords (pairs.flatMap fun pair => slots plan pair.key pair.value) ++
        (pairs.flatMap Pair.ext ++ post)) := by
    rw [htape, hrest]
    simp only [List.append_assoc]
  have hbase : (pre ++ [kMap, typeId, c, d, e]).length = pre.length + 5 := List.length_append
  have hwords : (pairWords (pairs.flatMap fun pair => slots plan pair.key pair.value)).length =
      slotCount plan * 2 * pairs.length := by
    rw [length_pairWords, hlength]
    ring
  have hraws : (pairs.map fun pair => Part.mk pair.ext (pair.keyRaw, pair.raw)).map Part.raw =
      pairs.map fun pair => (pair.keyRaw, pair.raw) := List.map_map
  have hext : ∀ l : List Pair,
    (l.map fun pair => Part.mk pair.ext (pair.keyRaw, pair.raw)).flatMap Part.ext =
      l.flatMap Pair.ext := fun l => List.flatMap_map ..
  -- Each pair is made of its descriptors and of what was appended for its value, behind that for
  -- the pairs before it.
  have hcollect := @collect_eq (Scalar × Decoded α) (Raw × Raw)
    (materializePair ⟨bytesOf W, tape, types⟩ (materialize ⟨bytesOf W, tape, types⟩ k) keyKind
      valueKind child d.toNat keyWidth valueWidth (pre.length + 5) (slotCount plan * 2)) _
    (fun rs => decodePairs types keyKind valueKind child (rs.map Prod.fst) (rs.map Prod.snd))
    (decodePairs_nil types keyKind valueKind child) (decodePairs_cons types keyKind valueKind child)
    (pairs.map fun pair => Part.mk pair.ext (pair.keyRaw, pair.raw)) 0
      (pre.length + 5 + slotCount plan * 2 * pairs.length)
    fun j part hpart => by
      rw [List.getElem?_map] at hpart
      obtain ⟨pair, hpair, rfl⟩ := Option.map_eq_some_iff.1 hpart
      obtain ⟨hj, rfl⟩ := List.getElem?_eq_some_iff.1 hpair
      have hexts : pairs.flatMap Pair.ext =
          (pairs.take j).flatMap Pair.ext ++
            (pairs[j].ext ++ (pairs.drop (j + 1)).flatMap Pair.ext) := by
        rw [← List.flatMap_cons, ← List.drop_eq_getElem_cons hj, ← List.flatMap_append,
          List.take_append_drop]
      have hpre : tape = (pre ++ [kMap, typeId, c, d, e] ++ pairWords (pairs.flatMap fun pair =>
          slots plan pair.key pair.value) ++ (pairs.take j).flatMap Pair.ext) ++
          (pairs[j].ext ++ ((pairs.drop (j + 1)).flatMap Pair.ext ++ post)) := by
        rw [hsplit, hexts]
        simp only [List.append_assoc]
      have hcursor : (pre ++ [kMap, typeId, c, d, e] ++ pairWords (pairs.flatMap fun pair =>
          slots plan pair.key pair.value) ++ (pairs.take j).flatMap Pair.ext).length =
          pre.length + 5 + slotCount plan * 2 * pairs.length +
            ((pairs.take j).flatMap Pair.ext).length := by
        rw [List.length_append, List.length_append, hbase, hwords]
      have hslots : ∀ (t : ℕ) p, (slots plan pairs[j].key pairs[j].value)[t]? = some p →
          tapeAt tape (pre.length + 5 + j * (slotCount plan * 2) + t * 2) = p.1 ∧
            tapeAt tape (pre.length + 5 + j * (slotCount plan * 2) + t * 2 + 1) = p.2 := by
        intro t p hp
        obtain ⟨h₁, h₂⟩ := (htold j _ hpair).small_of_mem (List.mem_of_getElem? hp)
        have hget := tapeAt_pair (pre ++ [kMap, typeId, c, d, e]) (pairs.flatMap Pair.ext ++ post)
          (getElem?_rows pairs (fun pair _ => length_slots plan pair.key pair.value) hpair hp) h₁ h₂
        rw [← hsplit, hbase, Nat.add_mul, Nat.mul_assoc, ← Nat.add_assoc] at hget
        exact hget
      have hpair' := materializePair_eq hkey hvalue hcomplex hchild hk (htold j _ hpair) hslots hpre
      rw [hcursor] at hpair'
      rw [Nat.zero_add, ← List.map_take, hext]
      exact hpair'
  have hall : rest.length = slotCount plan * 2 * pairs.length +
      (pairs.flatMap Pair.ext).length := by
    rw [hrest, List.length_append, hwords]
  rw [List.length_map, hraws, hext, List.map_map, List.map_map] at hcollect
  rw [materializeMap, hc, hd, he, hkeyWidth, hvalueWidth, hstride, hcount]
  refine (congrArg (· >>= fun r => pure (Decoded.map
        (r.1.foldl (fun out pair => assign pair.1 pair.2 out) []), r.2)) hcollect).trans ?_
  rw [hall, ← Nat.add_assoc 5, ← Nat.add_assoc, ← Nat.add_assoc]
  change _ = decodePairs types keyKind valueKind child
    (pairs.map (Prod.fst ∘ fun pair => (pair.keyRaw, pair.raw)))
    (pairs.map (Prod.snd ∘ fun pair => (pair.keyRaw, pair.raw))) >>= _
  cases decodePairs types keyKind valueKind child
    (pairs.map (Prod.fst ∘ fun pair => (pair.keyRaw, pair.raw)))
    (pairs.map (Prod.snd ∘ fun pair => (pair.keyRaw, pair.raw))) <;> rfl

end

/-- A map is told by its header, the descriptors of its pairs, and what follows. -/
theorem told_map (hcorresponds : Corresponds types plans R) {plan : TypePlan} {typeId : UInt32}
    (hplan : Wasm.planOf plans typeId = some plan) (hkind : plan.kind = kMap) {view : List UInt32}
    {index : PerfectHash} {start keyWidth valueWidth : ℕ} {pairs : List Pair}
    (hsize : index.size = .ok pairs.length)
    (hopen : openMap true (.at view) = .ok ⟨index, .at (W.drop start), keyWidth, valueWidth⟩)
    {c d e : UInt32} (hcount : c.toNat = pairs.length) (hstart : d.toNat = start)
    (hkeyWidth : e.toNat % 2 ^ 16 = keyWidth) (hvalueWidth : e.toNat / 2 ^ 16 = valueWidth)
    (htold : ∀ (j : ℕ) pair, pairs[j]? = some pair →
      pair.Told W plans types R n plan (start + j * (keyWidth + valueWidth)) keyWidth valueWidth) :
    Told W plans types R (n + 1) typeId view ([kMap, typeId, c, d, e] ++
        (pairWords (pairs.flatMap fun pair => slots plan pair.key pair.value) ++
          pairs.flatMap Pair.ext))
      (.map (pairs.map Pair.keyRaw) (pairs.map Pair.raw)) := by
  subst hstart
  refine ⟨fun h => (by cases h), fun k hk => ?_, fun i kind hi _ k hk pre post => ?_⟩
  · obtain ⟨k, rfl⟩ : ∃ j, k = j + 1 := ⟨k - 1, by omega⟩
    -- The accessors read the key and the value of each pair.
    have hloop := @forCells_parts W (Raw × Raw) (fun c => do
        let key ← readValue (readType plans k) plan.keyKind kNoType
          (pairAt ⟨index, .at (W.drop d.toNat), keyWidth, valueWidth⟩ c.ptr).1
        let value ← readValue (readType plans k) plan.valueKind plan.child
          (pairAt ⟨index, .at (W.drop d.toNat), keyWidth, valueWidth⟩ c.ptr).2
        return (key, value)) d.toNat (keyWidth + valueWidth)
      (pairs.map fun pair => Part.mk pair.ext (pair.keyRaw, pair.raw)) fun j part hpart => by
        rw [List.getElem?_map] at hpart
        obtain ⟨pair, hpair, rfl⟩ := Option.map_eq_some_iff.1 hpart
        have hkey := (htold j pair hpair).key.2.1 k (by omega)
        have hvalue := (htold j pair hpair).value.2.1 k (by omega)
        rw [Nat.mul_comm j] at hkey hvalue
        rw [pairAt, Ptr.add, List.drop_drop]
        dsimp only
        rw [hkey, Res.ok_bind, hvalue]
        rfl
    rw [List.length_map, List.map_map] at hloop
    rw [readType, hplan]
    dsimp only
    rw [readObject, hkind, if_neg (by decide), if_neg (by decide), if_pos rfl, hopen, Res.ok_bind]
    dsimp only
    rw [if_neg (fun h => by cases h), MapView.forEach]
    dsimp only
    rw [hsize, Res.ok_bind]
    refine (congrArg (· >>= fun pairs => pure (Raw.map (pairs.map Prod.fst) (pairs.map Prod.snd)))
      hloop).trans ?_
    rw [Res.ok_bind, List.map_map, List.map_map]
    rfl
  · obtain ⟨k, rfl⟩ : ∃ j, k = j + 1 := ⟨k - 1, by omega⟩
    obtain ⟨type, plan', htype, hplan', hsame⟩ := hcorresponds i typeId hi
    rw [hplan] at hplan'
    cases hplan'
    cases type with
    | message prototype fields presenceWordCount =>
      exact absurd (hkind.symm.trans hsame.1) (by decide)
    | array valueKind child => exact absurd (hkind.symm.trans hsame.1) (by decide)
    | map keyKind valueKind child =>
      -- The reader makes them of the descriptors, and of what follows.
      obtain ⟨-, hkey, hvalue, hcomplex, hchild⟩ := hsame
      have hlength : ([kMap, typeId, c, d, e] ++ (pairWords (pairs.flatMap fun pair =>
            slots plan pair.key pair.value) ++ pairs.flatMap Pair.ext)).length =
          5 + (pairWords (pairs.flatMap fun pair => slots plan pair.key pair.value) ++
            pairs.flatMap Pair.ext).length :=
        List.length_append
      rw [materialize, htype, decode, htype, hlength]
      refine (materializeMap_eq hkey hvalue hcomplex hchild (by omega) hkeyWidth hvalueWidth hcount
        htold rfl rfl).trans ?_
      dsimp only
      cases decodePairs types keyKind valueKind child (pairs.map Pair.keyRaw)
        (pairs.map Pair.raw) <;> rfl

/-! ## Visiting maps -/

theorem slots_zero (plan : TypePlan) :
    slots plan (0, 0) (0, 0) = List.replicate (slotCount plan) (0, 0) := by
  rw [slots, slotCount, slot, slot]
  split <;> split <;> rfl

/-- What is known of the descriptors of a pair. -/
structure SlotsTold (W : List UInt32) (plans : List TypePlan) (types : List (TapeType α))
    (R : ℕ → UInt32 → Prop) (n : ℕ) (plan : TypePlan) (at_ keyWidth valueWidth : UInt32)
    (d : (ℕ × ℕ) × (ℕ × ℕ)) : Prop where
  small : (d.1.1 < 2 ^ 32 ∧ d.1.2 < 2 ^ 32) ∧ (d.2.1 < 2 ^ 32 ∧ d.2.2 < 2 ^ 32)
  key : plan.keyKind = kString →
    ∃ raw, ToldValue W plans types R n kString kNoType ⟨.at (W.drop at_.toNat), keyWidth.toNat⟩
      d.1 [] raw
  value : isBytesKind plan.valueKind = true → ∃ raw,
    ToldValue W plans types R n plan.valueKind plan.child
    ⟨.at (W.drop (at_ + keyWidth).toNat), valueWidth.toNat⟩ d.2 [] raw

variable (plans types R n) in
/-- The first loop of `VisitMap`. -/
theorem visitPairs_told (hW : W.length < 2 ^ 30) (plan : TypePlan) (at_ : ℕ → UInt32)
    (keyWidth valueWidth : UInt32) (count : ℕ) {base : List UInt32}
    (hlen : base.length + count * slotCount plan * 2 < 2 ^ 32) :
    Wasm.Gives (fun tape' => ∃ ds : List ((ℕ × ℕ) × (ℕ × ℕ)), ds.length = count ∧
        tape' = base ++ pairWords (ds.flatMap fun d => slots plan d.1 d.2) ∧ ∀ (j : ℕ) d,
          ds[j]? = some d →
          SlotsTold W plans types R n plan (at_ j) keyWidth valueWidth d)
      ((List.range count).foldlM
        (fun tape index => visitPair (bytesOf W) plan (at_ index) keyWidth valueWidth
        (UInt32.ofNat base.length + UInt32.ofNat index * UInt32.ofNat (slotCount plan * 2)) tape)
        (base ++ List.replicate (slotCount plan * 2 * count) 0)) := by
  have hlength : ∀ ds : List ((ℕ × ℕ) × (ℕ × ℕ)),
      (ds.flatMap fun d => slots plan d.1 d.2).length = ds.length * slotCount plan := by
    intro ds
    rw [List.length_flatMap, List.map_congr_left fun d _ => length_slots plan d.1 d.2,
      List.map_const', List.sum_replicate, smul_eq_mul]
  -- After `k` pairs, these have their descriptors and the words of the others are zero.
  refine (Ensures.foldlM_range (I := fun k tape' => ∃ ds : List ((ℕ × ℕ) × (ℕ × ℕ)),
      ds.length = k ∧ tape' = base ++ pairWords ((ds.flatMap fun d => slots plan d.1 d.2) ++
        List.replicate ((count - k) * slotCount plan) (0, 0)) ∧ ∀ (j : ℕ) d,
      ds[j]? = some d → SlotsTold W plans types R n plan (at_ j) keyWidth valueWidth d) ?_
    fun k hk tape₁ htape₁ => ?_).mono fun tape' h => ?_
  · refine ⟨[], rfl, ?_, fun j d h => by cases h⟩
    rw [List.flatMap_nil, List.nil_append, Nat.sub_zero, pairWords_zeros, Nat.mul_comm,
      Nat.mul_assoc]
  · obtain ⟨ds, rfl, rfl, hall⟩ := htape₁
    have hstep : (ds.length + 1) * slotCount plan ≤ count * slotCount plan :=
      Nat.mul_le_mul_right _ hk
    rw [Nat.succ_mul] at hstep
    have hrest : List.replicate ((count - ds.length) * slotCount plan) ((0, 0) : ℕ × ℕ) =
        slots plan (0, 0) (0, 0) ++ List.replicate ((count - (ds.length + 1)) * slotCount plan)
          (0, 0) := by
      rw [slots_zero, List.replicate_append_replicate, Nat.add_comm, ← Nat.succ_mul]
      congr 2
      omega
    have hd : (UInt32.ofNat base.length + UInt32.ofNat ds.length *
      UInt32.ofNat (slotCount plan * 2)).toNat =
        base.length + (ds.flatMap fun d => slots plan d.1 d.2).length * 2 := by
      rw [hlength, UInt32.toNat_add, UInt32.toNat_mul, UInt32.toNat_ofNat',
        UInt32.toNat_ofNat', UInt32.toNat_ofNat', ← Nat.mul_mod, ← Nat.mul_assoc, ← Nat.add_mod,
        Nat.mod_eq_of_lt (by omega)]
    rw [hrest]
    refine (visitPair_told plans types R n hW hd ?_).mono fun tape₂ h => ?_
    · rw [← hrest]
      simp only [List.length_append, length_pairWords, hlength, List.length_replicate, Nat.sub_mul]
      omega
    · obtain ⟨k, v, hk', hv, hkey, hvalue, rfl⟩ := h
      refine ⟨ds ++ [(k, v)], List.length_append, ?_, fun j d hd => ?_⟩
      · rw [List.flatMap_append, List.flatMap_singleton, List.append_assoc]
      · rcases lt_trichotomy j ds.length with hj | rfl | hj
        · rw [List.getElem?_append_left hj] at hd
          exact hall j d hd
        · rw [List.getElem?_append_right le_rfl, Nat.sub_self] at hd
          cases hd
          exact ⟨⟨hk', hv⟩, hkey, hvalue⟩
        · rw [List.getElem?_eq_none
            (by rw [List.length_append, List.length_singleton]; omega)] at hd
          cases hd
  · obtain ⟨ds, hcount, htape, hall⟩ := h
    rw [Nat.sub_self, Nat.zero_mul, List.replicate_zero, List.append_nil] at htape
    exact ⟨ds, hcount, htape, hall⟩

/-- A kind whose values have a width. -/
theorem plain_of_width {kind : UInt32} (h : (scalarWidthWords kind).toNat ≠ 0) :
    isComplex kind = false ∧ ¬(kind = kString ∨ kind = kBytes) := by
  refine ⟨Bool.eq_false_iff.2 fun hcomplex => ?_, ?_⟩
  · rw [isComplex, Bool.or_eq_true, Bool.or_eq_true, beq_iff_eq, beq_iff_eq, beq_iff_eq] at hcomplex
    rcases hcomplex with (rfl | rfl) | rfl <;> exact h rfl
  · rintro (rfl | rfl) <;> exact h rfl

section

variable {plan : TypePlan} {key keyWidth valueWidth : UInt32} {d : (ℕ × ℕ) × (ℕ × ℕ)}

/-- A key is told by its descriptor, or by where it is. -/
theorem SlotsTold.exists_key (h : SlotsTold W plans types R n plan key keyWidth valueWidth d)
    (hin : key.toNat + keyWidth.toNat ≤ W.length) (hwidth : keyWidth.toNat ≠ 0)
    (hplain : plan.keyKind ≠ kString → keyWidth.toNat = (scalarWidthWords plan.keyKind).toNat) :
    ∃ (k : ℕ × ℕ) (raw : Raw), (k.1 < 2 ^ 32 ∧ k.2 < 2 ^ 32) ∧
      ToldValue W plans types R n plan.keyKind kNoType ⟨.at (W.drop key.toNat), keyWidth.toNat⟩ k
        [] raw ∧
      (plan.keyKind ≠ kString → k = (key.toNat, keyWidth.toNat)) ∧
      slot (plan.keyKind == kString) k = slot (plan.keyKind == kString) d.1 := by
  by_cases hstring : plan.keyKind = kString
  · obtain ⟨raw, htold⟩ := h.key hstring
    exact ⟨d.1, raw, h.small.1, by rw [hstring]; exact htold, fun h => absurd hstring h, rfl⟩
  · have hfits := hplain hstring
    obtain ⟨hcomplex, hbytes⟩ := plain_of_width (hfits ▸ hwidth)
    refine ⟨(key.toNat, keyWidth.toNat), _, ⟨key.toNat_lt, keyWidth.toNat_lt⟩,
      told_words hcomplex hbytes hfits hin _, fun _ => rfl, ?_⟩
    rw [beq_false_of_ne hstring, slot, slot]
    rfl

/-- A value without parts is told by its descriptor, or by where it is. -/
theorem SlotsTold.exists_value (h : SlotsTold W plans types R n plan key keyWidth valueWidth d)
    (hin : (key + keyWidth).toNat + valueWidth.toNat ≤ W.length)
    (hcomplex : isComplex plan.valueKind = false)
    (hplain : isBytesKind plan.valueKind = false →
      valueWidth.toNat = (scalarWidthWords plan.valueKind).toNat) :
    ∃ (v : ℕ × ℕ) (raw : Raw), (v.1 < 2 ^ 32 ∧ v.2 < 2 ^ 32) ∧
      ToldValue W plans types R n plan.valueKind plan.child
        ⟨.at (W.drop (key + keyWidth).toNat), valueWidth.toNat⟩ v [] raw ∧
      (isBytesKind plan.valueKind = false → v = ((key + keyWidth).toNat, valueWidth.toNat)) ∧
      slot (isBytesKind plan.valueKind) v = slot (isBytesKind plan.valueKind) d.2 := by
  cases hbytes : isBytesKind plan.valueKind with
  | true =>
    obtain ⟨raw, htold⟩ := h.value hbytes
    exact ⟨d.2, raw, h.small.2, htold, fun h => (by cases h), rfl⟩
  | false =>
    refine ⟨((key + keyWidth).toNat, valueWidth.toNat),
      _, ⟨(key + keyWidth).toNat_lt, valueWidth.toNat_lt⟩,
      told_words hcomplex (fun h => ?_) (hplain hbytes) hin _, fun _ => rfl, rfl⟩
    rw [isBytesKind_iff.2 h] at hbytes
    cases hbytes

/-- A key and a value make a pair. -/
theorem SlotsTold.exists_pair (h : SlotsTold W plans types R n plan key keyWidth valueWidth d)
    {at_ : ℕ} (hat : key.toNat = at_) (hin : at_ + keyWidth.toNat ≤ W.length)
    (hwidth : keyWidth.toNat ≠ 0)
    (hplain : plan.keyKind ≠ kString → keyWidth.toNat = (scalarWidthWords plan.keyKind).toNat)
    {v : ℕ × ℕ} {ext : List UInt32} {raw : Raw} (hv : v.1 < 2 ^ 32 ∧ v.2 < 2 ^ 32)
    (htold : ToldValue W plans types R n plan.valueKind plan.child
      ⟨.at (W.drop (at_ + keyWidth.toNat)), valueWidth.toNat⟩ v ext raw)
    (hvalue : isBytesKind plan.valueKind = false → v = (at_ + keyWidth.toNat, valueWidth.toNat))
    (hslot : slot (isBytesKind plan.valueKind) v = slot (isBytesKind plan.valueKind) d.2)
    (hext : isComplex plan.valueKind = false → ext = []) :
    ∃ pair : Pair, pair.Told W plans types R n plan at_ keyWidth.toNat valueWidth.toNat ∧
      slots plan pair.key pair.value = slots plan d.1 d.2 ∧ pair.ext = ext := by
  subst hat
  obtain ⟨k, keyRaw, hk, hkey, hkeyAt, hkeySlot⟩ := h.exists_key hin hwidth hplain
  exact ⟨⟨k, keyRaw, v, ext, raw⟩, ⟨⟨hk, hv⟩, hkey, htold, hkeyAt, hvalue, hext⟩, by
    rw [slots, slots, hkeySlot, hslot], rfl⟩

end

/-- The two widths in the header of a map. -/
theorem widths_toNat {keyWidth valueWidth : UInt32} (hkey : keyWidth.toNat < 4)
    (hvalue : valueWidth.toNat < 4) :
    (keyWidth ||| valueWidth <<< 16).toNat % 2 ^ 16 = keyWidth.toNat ∧
      (keyWidth ||| valueWidth <<< 16).toNat / 2 ^ 16 = valueWidth.toNat := by
  have hor :=
    Nat.two_pow_add_eq_or_of_lt (i := 16) (b := keyWidth.toNat) (by omega) valueWidth.toNat
  rw [UInt32.toNat_or, UInt32.toNat_shiftLeft, show (16 : UInt32).toNat % 32 = 16 from rfl,
    Nat.shiftLeft_eq, Nat.mod_eq_of_lt (a := _ * _) (by omega), Nat.or_comm, Nat.mul_comm, ← hor]
  omega

theorem stride_toNat {keyWidth valueWidth : UInt32} (hkey : keyWidth.toNat < 4)
    (hvalue : valueWidth.toNat < 4) :
    (keyWidth + valueWidth).toNat = keyWidth.toNat + valueWidth.toNat := by
  rw [UInt32.toNat_add, Nat.mod_eq_of_lt (by omega)]

/-- The words of the pairs of a map. -/
theorem area_toNat {keyWidth valueWidth count : UInt32} (hkey : keyWidth.toNat < 4)
    (hvalue : valueWidth.toNat < 4) (hcount : count.toNat < 2 ^ 28) :
    ((keyWidth + valueWidth).toUInt64 * count.toUInt64).toNat =
      (keyWidth + valueWidth).toNat * count.toNat := by
  have hstride := stride_toNat hkey hvalue
  have hwide : (keyWidth + valueWidth).toNat * count.toNat ≤ 6 * 2 ^ 28 :=
    Nat.mul_le_mul (by omega) hcount.le
  rw [UInt64.toNat_mul, UInt32.toNat_toUInt64, UInt32.toNat_toUInt64, Nat.mod_eq_of_lt (by omega)]

theorem and_three_lt (x : UInt32) : (x &&& 3).toNat < 4 := by
  rw [and_three]
  exact Nat.mod_lt _ (by decide)

/-- Where the pairs of a map start. -/
theorem body_toNat {location : Location} (hin : location.wordOffset.toNat < 2 ^ 30)
    {header : UInt32}
    (hbody : ¬location.wordOffset.toUInt64 + (indexByteLength (header &&& 0x0fffffff) + 3) / 4 >
      0xffffffff) :
    (location.wordOffset.toUInt64 + (indexByteLength (header &&& 0x0fffffff) + 3) /
      4).toUInt32.toNat =
      location.wordOffset.toNat + wordSize (indexBytes (realSize header.toNat)) := by
  have hcount : header &&& 0x0fffffff = UInt32.ofNat (realSize header.toNat) := by
    rw [← and_count_toNat, UInt32.ofNat_toNat]
  have hwords := indexWords_toNat (n := realSize header.toNat) (Nat.mod_lt _ (Nat.two_pow_pos 28))
  have hlt : ((indexByteLength (header &&& 0x0fffffff) + 3) / 4).toNat < 2 ^ 62 := by
    rw [UInt64.toNat_div]
    exact Nat.div_lt_of_lt_mul (UInt64.toNat_lt _)
  rw [← hcount] at hwords
  rw [gt_iff_lt, UInt64.lt_iff_toNat_lt, not_lt, UInt64.toNat_add, UInt32.toNat_toUInt64,
    Nat.mod_eq_of_lt (by omega), show (0xffffffff : UInt64).toNat = 2 ^ 32 - 1 from rfl] at hbody
  rw [UInt64.toNat_toUInt32, UInt64.toNat_add, UInt32.toNat_toUInt64,
    Nat.mod_eq_of_lt (a := _ + _) (b := 2 ^ 64) (by omega), hwords, Nat.mod_eq_of_lt (by omega)]

/-- The tape keeps its length in the first loop of `VisitMap`. -/
theorem visitPair_length (plan : TypePlan) (key keyWidth valueWidth descriptor : UInt32)
    (tape : List UInt32) :
    Wasm.Gives (fun tape' => tape'.length = tape.length)
      (visitPair (bytesOf W) plan key keyWidth valueWidth descriptor tape) := by
  have hslot : ∀ (b : Bool) kind wordOffset width descriptor (tape : List UInt32),
    Wasm.Gives (fun tape' => tape'.length = tape.length)
      (if b then validateScalar (bytesOf W) kind wordOffset width descriptor tape
        else pure tape) := by
    intro b kind wordOffset width descriptor tape
    cases b with
    | false => exact ensures_pure.2 rfl
    | true => exact validateScalar_length _ _ _ _ _
  rw [visitPair]
  exact (hslot _ _ _ _ _ _).bind fun tape₁ h₁ => (hslot _ _ _ _ _ _).mono fun _ h => h.trans h₁

section

variable {rec : Visitor} {room : ℕ → Bool} {plan : TypePlan}
  {typeId keyWidth valueWidth body : UInt32} {count : ℕ}

/-- Where the pairs of a map are. -/
theorem pair_toNat (hW : W.length < 2 ^ 30) (hkeyWidth : keyWidth.toNat ≠ 0)
    (hkey : keyWidth.toNat < 4) (hvalue : valueWidth.toNat < 4)
    (hbody : body.toNat + (keyWidth + valueWidth).toNat * count ≤ W.length) {j : ℕ}
    (hj : j < count) :
    (body + UInt32.ofNat j * (keyWidth + valueWidth)).toNat =
        body.toNat + j * (keyWidth.toNat + valueWidth.toNat) ∧
      (body + UInt32.ofNat j * (keyWidth + valueWidth) + keyWidth).toNat =
        body.toNat + j * (keyWidth.toNat + valueWidth.toNat) + keyWidth.toNat ∧
      body.toNat + j * (keyWidth.toNat + valueWidth.toNat) + keyWidth.toNat + valueWidth.toNat ≤
        W.length := by
  have hstride := stride_toNat hkey hvalue
  obtain ⟨hat, hend⟩ := element_toNat hW (by omega) hbody hj
  rw [hstride, Nat.mul_comm] at hat hend
  have hnext : (body + UInt32.ofNat j * (keyWidth + valueWidth) + keyWidth).toNat =
      body.toNat + j * (keyWidth.toNat + valueWidth.toNat) + keyWidth.toNat := by
    rw [UInt32.toNat_add, hat, Nat.mod_eq_of_lt (by omega)]
  exact ⟨hat, hnext, by omega⟩

/-- The pairs of a map, of their descriptors and what was appended for their values. -/
theorem exists_pairs {ds : List ((ℕ × ℕ) × (ℕ × ℕ))} (exts : List (List UInt32))
    (hds : ds.length = count) (hexts : exts.length = count) {P : ℕ → Pair → Prop}
    (h : ∀ (j : ℕ) d ext, ds[j]? = some d → exts[j]? = some ext → ∃ pair,
      P j pair ∧ slots plan pair.key pair.value = slots plan d.1 d.2 ∧ pair.ext = ext) :
    ∃ pairs : List Pair, pairs.length = count ∧ (∀ (j : ℕ) pair, pairs[j]? = some pair → P j pair) ∧
      (pairs.flatMap fun pair => slots plan pair.key pair.value) =
        (ds.flatMap fun d => slots plan d.1 d.2) ∧
      pairs.flatMap Pair.ext = exts.flatten := by
  have hget : ∀ j < count, ∃ d ext, ds[j]? = some d ∧ exts[j]? = some ext := fun j hj =>
    ⟨ds[j], exts[j], List.getElem?_eq_getElem (hds ▸ hj), List.getElem?_eq_getElem (hexts ▸ hj)⟩
  obtain ⟨pairs, hcount, hall⟩ := Pointwise.exists_list (n := count)
    (P := fun j pair => P j pair ∧ ∃ d ext, ds[j]? = some d ∧ exts[j]? = some ext ∧
    slots plan pair.key pair.value = slots plan d.1 d.2 ∧ pair.ext = ext) fun j hj => by
    obtain ⟨d, ext, hd, hext⟩ := hget j hj
    obtain ⟨pair, hP, hslots, hpair⟩ := h j d ext hd hext
    exact ⟨pair, hP, d, ext, hd, hext, hslots, hpair⟩
  refine ⟨pairs, hcount, fun j pair hpair => (hall j pair hpair).1, ?_, ?_⟩
  · refine congrArg List.flatten (List.ext_getElem ?_ fun j hj hj' => ?_)
    · rw [List.length_map, List.length_map, hcount, hds]
    · rw [List.length_map] at hj hj'
      obtain ⟨_, d, ext, hd, _, hslots, _⟩ := hall j _ (List.getElem?_eq_getElem hj)
      obtain ⟨_, hd⟩ := List.getElem?_eq_some_iff.1 hd
      rw [List.getElem_map, List.getElem_map, hslots, hd]
  · refine congrArg List.flatten (List.ext_getElem ?_ fun j hj hj' => ?_)
    · rw [List.length_map, hcount, hexts]
    · rw [List.length_map] at hj
      obtain ⟨_, d, ext, _, hext, _, hpair⟩ := hall j _ (List.getElem?_eq_getElem hj)
      obtain ⟨_, hext⟩ := List.getElem?_eq_some_iff.1 hext
      rw [List.getElem_map, hpair, hext]

/-- The first loop of `VisitMap` does not change how long the tape is. -/
theorem visitPairs_length (plan : TypePlan) (at_ : ℕ → UInt32) (keyWidth valueWidth : UInt32)
    (descriptor : ℕ → UInt32) (count : ℕ) (tape : List UInt32) :
    Wasm.Gives (fun tape' => tape'.length = tape.length)
      ((List.range count).foldlM (fun tape index => visitPair (bytesOf W) plan (at_ index) keyWidth
        valueWidth (descriptor index) tape) tape) :=
  Ensures.foldlM_range (I := fun _ tape' => tape'.length = tape.length) rfl fun _ _ _ h =>
    (visitPair_length _ _ _ _ _ _).mono fun _ h' => h'.trans h

section

variable (hW : W.length < 2 ^ 30) (hkeyWidth : keyWidth.toNat ≠ 0 ∧ keyWidth.toNat < 4)
  (hvalueWidth : valueWidth.toNat ≠ 0 ∧ valueWidth.toNat < 4)
  (hbody : body.toNat + (keyWidth + valueWidth).toNat * count ≤ W.length)
  (hkeyPlain : plan.keyKind ≠ kString → keyWidth.toNat = (scalarWidthWords plan.keyKind).toNat)
  {ds : List ((ℕ × ℕ) × (ℕ × ℕ))} (hds : ds.length = count)
  (hall : ∀ (j : ℕ) d, ds[j]? = some d → SlotsTold W plans types R n plan
    (body + UInt32.ofNat j * (keyWidth + valueWidth)) keyWidth valueWidth d)

include hW hkeyWidth hvalueWidth hbody hkeyPlain hds hall

/-- Pairs of scalars and strings are told by their descriptors. -/
theorem exists_plain_pairs (hcomplex : isComplex plan.valueKind = false)
    (hvaluePlain : isBytesKind plan.valueKind = false →
      valueWidth.toNat = (scalarWidthWords plan.valueKind).toNat) :
    ∃ pairs : List Pair, pairs.length = count ∧
      (∀ (j : ℕ) pair, pairs[j]? = some pair → pair.Told W plans types R n plan
        (body.toNat + j * (keyWidth.toNat + valueWidth.toNat)) keyWidth.toNat valueWidth.toNat) ∧
      (pairs.flatMap fun pair => slots plan pair.key pair.value) =
        (ds.flatMap fun d => slots plan d.1 d.2) ∧
      pairs.flatMap Pair.ext = [] := by
  obtain ⟨pairs, hcount, htold, hslots, hexts⟩ :=
    exists_pairs (List.replicate count []) hds List.length_replicate
      (P := fun j pair => pair.Told W plans types R n plan
        (body.toNat + j * (keyWidth.toNat + valueWidth.toNat)) keyWidth.toNat valueWidth.toNat)
      fun j d ext hd hext => by
        obtain ⟨hj, -⟩ := List.getElem?_eq_some_iff.1 hd
        obtain ⟨hkeyAt, hvalueAt, hend⟩ :=
          pair_toNat hW hkeyWidth.1 hkeyWidth.2 hvalueWidth.2 hbody (hds ▸ hj)
        obtain ⟨v, raw, hv, htold, hat, hslot⟩ :=
          (hall j d hd).exists_value (by rw [hvalueAt]; exact hend) hcomplex hvaluePlain
        obtain rfl : ext = [] := List.eq_of_mem_replicate (List.mem_of_getElem? hext)
        rw [hvalueAt] at htold hat
        exact (hall j d hd).exists_pair hkeyAt (by omega) hkeyWidth.1 hkeyPlain hv htold hat hslot
          fun _ => rfl
  refine ⟨pairs, hcount, htold, hslots, ?_⟩
  rw [hexts, List.flatten_replicate_nil]

/-- Pairs with objects are told by the descriptors of their keys and by what is appended for the
    objects. -/
theorem exists_object_pairs (hcomplex : isComplex plan.valueKind = true) {parts : List (Part Raw)}
    (hparts : parts.length = count)
    (hchildren : ∀ (j : ℕ) part, parts[j]? = some part →
      ToldValue W plans types R n plan.valueKind plan.child
        ⟨.at (W.drop (body + UInt32.ofNat j * (keyWidth + valueWidth) + keyWidth).toNat),
          valueWidth.toNat⟩
        (body.toNat + j * (keyWidth.toNat + valueWidth.toNat) + keyWidth.toNat, valueWidth.toNat)
        part.ext part.raw) :
    ∃ pairs : List Pair, pairs.length = count ∧
      (∀ (j : ℕ) pair, pairs[j]? = some pair → pair.Told W plans types R n plan
        (body.toNat + j * (keyWidth.toNat + valueWidth.toNat)) keyWidth.toNat valueWidth.toNat) ∧
      (pairs.flatMap fun pair => slots plan pair.key pair.value) =
        (ds.flatMap fun d => slots plan d.1 d.2) ∧
      pairs.flatMap Pair.ext = parts.flatMap Part.ext := by
  have hplain : isBytesKind plan.valueKind = false := by
    rw [← Bool.not_eq_true, isBytesKind_iff]
    rintro (h | h) <;> rw [h] at hcomplex <;> cases hcomplex
  exact exists_pairs (parts.map Part.ext) hds (by rw [List.length_map, hparts])
    fun j d ext hd hext => by
      obtain ⟨hj, -⟩ := List.getElem?_eq_some_iff.1 hd
      obtain ⟨hkeyAt, hvalueAt, hend⟩ :=
        pair_toNat hW hkeyWidth.1 hkeyWidth.2 hvalueWidth.2 hbody (hds ▸ hj)
      rw [List.getElem?_map] at hext
      obtain ⟨part, hpart, rfl⟩ := Option.map_eq_some_iff.1 hext
      have htold := hchildren j part hpart
      rw [hvalueAt] at htold
      exact (hall j d hd).exists_pair hkeyAt (by omega) hkeyWidth.1 hkeyPlain
        ⟨by omega, valueWidth.toNat_lt⟩ htold (fun _ => rfl) (by rw [hplain]; rfl)
        fun h => absurd (hcomplex.symm.trans h) (by decide)

end

/-- The loops of `VisitMap` tell of the pairs. -/
theorem visitLoops_told (hW : W.length < 2 ^ 30)
    (hrec : ∀ child location tape, location.In W →
      Wasm.Gives (Tells W plans types R n child (location.view W) tape) (rec child location tape))
    (hkeyWidth : keyWidth.toNat ≠ 0 ∧ keyWidth.toNat < 4)
    (hvalueWidth : valueWidth.toNat ≠ 0 ∧ valueWidth.toNat < 4)
    (hbody : body.toNat + (keyWidth + valueWidth).toNat * count ≤ W.length) (depth : UInt32)
    (base : List UInt32) :
    Wasm.Gives (fun tape' => base.length ≤ tape'.length ∧
      (tape'.length < 2 ^ 32 → ∃ pairs : List Pair, pairs.length = count ∧
        (∀ (j : ℕ) pair, pairs[j]? = some pair → pair.Told W plans types R n plan
          (body.toNat + j * (keyWidth.toNat + valueWidth.toNat)) keyWidth.toNat valueWidth.toNat) ∧
        tape' = base ++ (pairWords (pairs.flatMap fun pair => slots plan pair.key pair.value) ++
          pairs.flatMap Pair.ext)))
      (do
        let tape ← (if slotCount plan * 2 ≠ 0 then extend room (slotCount plan * 2 * count) base
          else return base)
        Wasm.require (!(!(plan.keyKind == kString) && keyWidth != scalarWidthWords plan.keyKind))
        Wasm.require (!(!isComplex plan.valueKind && !isBytesKind plan.valueKind &&
          valueWidth != scalarWidthWords plan.valueKind))
        let tape ← (List.range count).foldlM (fun tape index =>
          visitPair (bytesOf W) plan (body + UInt32.ofNat index * (keyWidth + valueWidth)) keyWidth
            valueWidth
            (UInt32.ofNat base.length + UInt32.ofNat index * UInt32.ofNat (slotCount plan * 2))
              tape) tape
        if !isComplex plan.valueKind then return tape
        else
          Wasm.require (!(decide (depth ≥ kMaximumDepth) || plan.child == kNoType))
          (List.range count).foldlM (fun tape index =>
            visitChild (bytesOf W) rec
              (body + UInt32.ofNat index * (keyWidth + valueWidth) + keyWidth) valueWidth
              plan.child tape) tape) := by
  -- The block of the slots is appended first, with zeros.
  refine Ensures.bind (P := fun tape => tape = base ++ List.replicate (slotCount plan * 2 * count)
    0) ?_ fun tape htape => ?_
  · split
    · exact extend_gives _ _ _
    · next hzero =>
      rw [not_not] at hzero
      refine ensures_pure.2 ?_
      rw [hzero, Nat.zero_mul, List.replicate_zero, List.append_nil]
  subst htape
  refine (require_gives _).bind fun _ hkeyFits => (require_gives _).bind fun _ hvalueFits => ?_
  -- What the two checks leave: a value of a fixed width has its width.
  have hkeyPlain : plan.keyKind ≠ kString → keyWidth.toNat =
      (scalarWidthWords plan.keyKind).toNat := by
    intro h
    simp only [beq_false_of_ne h, Bool.not_false, Bool.true_and, bne, Bool.not_not,
      beq_iff_eq] at hkeyFits
    rw [hkeyFits]
  have hvaluePlain : isComplex plan.valueKind = false → isBytesKind plan.valueKind = false →
      valueWidth.toNat = (scalarWidthWords plan.valueKind).toNat := by
    intro h h'
    simp only [h, h', Bool.not_false, Bool.true_and, bne, Bool.not_not, beq_iff_eq] at hvalueFits
    rw [hvalueFits]
  have hchildren := fun tape (hcomplex : isComplex plan.valueKind = true) =>
    @visitChildren_told α W plans types R n hW rec hrec plan.valueKind hcomplex count
      (fun index => body + UInt32.ofNat index * (keyWidth + valueWidth) + keyWidth) valueWidth
      plan.child (fun j => (body.toNat + j * (keyWidth.toNat + valueWidth.toNat) + keyWidth.toNat,
        valueWidth.toNat)) tape
  -- The indices in the tape have 32 bits, so that the slots are known only while it is short.
  by_cases hlen : base.length + count * slotCount plan * 2 < 2 ^ 32
  · refine (visitPairs_told plans types R n hW plan _ keyWidth valueWidth count hlen).bind
      fun tape h => ?_
    obtain ⟨ds, hds, rfl, hall⟩ := h
    cases hcomplex : isComplex plan.valueKind with
    | false =>
      refine ensures_pure.2 ⟨by simp, fun _ => ?_⟩
      obtain ⟨pairs, hcount, htold, hslots, hexts⟩ := exists_plain_pairs hW hkeyWidth hvalueWidth
        hbody hkeyPlain hds hall hcomplex (hvaluePlain hcomplex)
      exact ⟨pairs, hcount, htold, by rw [hslots, hexts, List.append_nil]⟩
    | true =>
      refine (require_gives _).bind fun _ _ => (hchildren _ hcomplex).mono fun tape' h =>
        ⟨?_, fun hlt => ?_⟩
      · have hle := h.1
        rw [List.length_append] at hle
        omega
      · obtain ⟨parts, hparts, rfl, hall'⟩ := h.2 hlt
        obtain ⟨pairs, hcount, htold, hslots, hexts⟩ := exists_object_pairs hW hkeyWidth
          hvalueWidth hbody hkeyPlain hds hall hcomplex hparts hall'
        exact ⟨pairs, hcount, htold, by rw [hslots, hexts, List.append_assoc]⟩
  · -- The tape is too long, and stays so.
    refine (visitPairs_length _ _ _ _ _ _ _).bind fun tape' h => ?_
    have h : tape'.length = base.length + count * slotCount plan * 2 := by
      rw [h, List.length_append, List.length_replicate, Nat.mul_right_comm, Nat.mul_comm count]
    cases hcomplex : isComplex plan.valueKind with
    | false => exact ensures_pure.2 ⟨by omega, fun hlt => absurd (h ▸ hlt) hlen⟩
    | true =>
      refine (require_gives _).bind fun _ _ => (hchildren _ hcomplex).mono fun tape'' h' =>
        ⟨by omega, fun hlt => ?_⟩
      exact absurd (h ▸ h'.1.trans_lt hlt) hlen

/-- A visitor of maps tells of the map. -/
theorem visitMap_told (hW : W.length < 2 ^ 30)
    (hrec : ∀ child location tape, location.In W →
      Wasm.Gives (Tells W plans types R n child (location.view W) tape) (rec child location tape))
    {location : Location} (hin : location.In W) (hcorresponds : Corresponds types plans R)
    (hplan : Wasm.planOf plans typeId = some plan) (hkind : plan.kind = kMap) (depth : UInt32)
    (tape : List UInt32) :
    Wasm.Gives (Tells W plans types R (n + 1) typeId (location.view W) tape)
      (visitMap (bytesOf W) room plan location rec typeId depth tape) := by
  have hle := hin.le
  have hlt := hin.lt
  rw [visitMap]
  refine (require_gives _).bind fun _ _ => (readWord_gives _).bind fun header hheader => ?_
  rw [← List.head?_drop] at hheader
  refine (require_gives _).bind fun _ hwidths => (require_gives _).bind fun _ hroom => ?_
  refine (appendHeader_gives _ _ _ _ _ _ _).bind fun tape₁ htape₁ => ?_
  rw [Bool.not_eq_true', Bool.or_eq_false_iff, Bool.or_eq_false_iff, beq_eq_false_iff_ne,
    beq_eq_false_iff_ne, decide_eq_false_iff_not] at hwidths
  obtain ⟨⟨hkeyWidth, hvalueWidth⟩, hfar⟩ := hwidths
  have hkey : (header >>> 30 &&& 3 : UInt32).toNat ≠ 0 ∧ (header >>> 30 &&& 3 : UInt32).toNat < 4 :=
    ⟨fun h => hkeyWidth (UInt32.toNat_inj.1 h), and_three_lt _⟩
  have hvalue : (header >>> 28 &&& 3 : UInt32).toNat ≠ 0 ∧
    (header >>> 28 &&& 3 : UInt32).toNat < 4 :=
    ⟨fun h => hvalueWidth (UInt32.toNat_inj.1 h), and_three_lt _⟩
  have hbody := body_toNat (by omega) hfar
  have hstride := stride_toNat hkey.2 hvalue.2
  have hcount : (header &&& 0x0fffffff).toNat < 2 ^ 28 := by
    rw [and_count_toNat]
    exact Nat.mod_lt _ (Nat.two_pow_pos 28)
  rw [requireWords_iff, area_toNat hkey.2 hvalue.2 hcount] at hroom
  -- A pair has a descriptor for each string in it.
  have hslots : ((if plan.keyKind == kString then 2 else 0) + if plan.valueKind == kString ||
    plan.valueKind == kBytes then 2 else 0) =
      slotCount plan * 2 := by
    rw [slotCount, isBytesKind]
    split <;> split <;> rfl
  dsimp only
  rw [hslots]
  refine (visitLoops_told hW hrec hkey hvalue (hroom.trans hle) depth tape₁).mono fun tape' h =>
    ⟨?_, fun hlen => ?_⟩
  · have := h.1
    rw [htape₁, List.length_append] at this
    omega
  · obtain ⟨pairs, hpairs, htold, rfl⟩ := h.2 hlen
    rw [hbody, hstride, and_count_toNat] at hroom
    obtain ⟨index, hsize, hopen⟩ := openMap_view hW hheader hkey.1 hvalue.1 (by omega)
    rw [← and_count_toNat, ← hpairs] at hsize
    obtain ⟨hlow, hhigh⟩ := widths_toNat hkey.2 hvalue.2
    exact ⟨_, _, by rw [htape₁, List.append_assoc],
      told_map hcorresponds hplan hkind hsize hopen hpairs.symm hbody hlow hhigh (hbody ▸ htold)⟩

end

/-! ## Visiting -/

/-- What is appended for an object tells of it, whatever its type refers to. -/
theorem visit_told (hW : W.length < 2 ^ 30) (hcorresponds : Corresponds types plans R)
    (hexact : ∀ plan ∈ plans, plan.Exact) (room : ℕ → Bool) (nested : ℕ) (depth typeId : UInt32)
    {location : Location} (hin : location.In W) (tape : List UInt32) :
    Wasm.Gives (Tells W plans types R nested typeId (location.view W) tape)
      (visit (bytesOf W) room plans nested depth typeId location tape) := by
  induction nested generalizing depth typeId location tape with
  | zero => trivial
  | succ nested ih =>
    have hrec : ∀ child location tape, location.In W →
      Wasm.Gives (Tells W plans types R nested child (location.view W) tape)
        (visit (bytesOf W) room plans nested (depth + 1) child location tape) :=
      fun child location tape hin => ih (depth + 1) child hin tape
    rw [visit]
    refine (require_gives _).bind fun _ _ => (within_gives _).bind fun plan hplan =>
      (require_gives _).bind fun _ _ => ?_
    have hmem : plan ∈ plans := by
      rw [Wasm.planOf] at hplan
      split at hplan
      · cases hplan
      · exact List.mem_of_getElem? hplan
    dsimp only
    split
    · next hkind =>
      exact visitMessage_told hW hrec hin hcorresponds (hexact plan hmem) hplan hkind depth tape
    · split
      · next hkind => exact visitArray_told hW hrec hin hcorresponds hplan hkind depth tape
      · split
        · next hkind => exact visitMap_told hW hrec hin hcorresponds hplan hkind depth tape
        · trivial

/-! ## The call -/

/-- The words of bytes that are a whole number of words. -/
theorem bytesOf_wordsOf_of_dvd {bs : List UInt8} (h : bs.length % 4 = 0) :
    bytesOf (wordsOf bs) = bs := by
  rw [bytesOf_wordsOf, wordSize, show 4 * ((bs.length + 3) / 4) - bs.length = 0 by omega,
    List.replicate_zero, List.append_nil]

/-- A tape that the decoder accepts. -/
theorem pcDecodeTape_ok {nested : ℕ} {room : ℕ → Bool} {buffer : List UInt8}
    {handle length bytes : UInt32} {before tape : List UInt32} {error : Status}
    (h : pcDecodeTape nested plans room buffer handle length before error =
      .ok (bytes, tape, .ok)) :
    (length ≠ 0 ∧ length.toNat % 4 = 0 ∧ length.toNat ≤ buffer.length) ∧ tape.length < 2 ^ 32 ∧
      visit (buffer.take length.toNat) room plans nested 0 handle ⟨0, length / 4⟩ [] =
        .ok tape := by
  rw [pcDecodeTape] at h
  split at h
  · cases h
  · next haccepts =>
    rw [Bool.not_eq_true', Bool.not_eq_false, accepts, Bool.and_eq_true,
      decide_eq_true_eq] at haccepts
    obtain ⟨⟨hne, hwhole, hle⟩, -⟩ := haccepts
    have hdvd : length.toNat % 4 = 0 := by
      rw [← and_three, hwhole]
      rfl
    refine ⟨⟨hne, hdvd, hle⟩, ?_⟩
    split at h
    · cases h
    · dsimp only at h
      cases hvisit :
        visit (buffer.take length.toNat) room plans nested 0 handle ⟨0, length / 4⟩ [] with
      | error halt =>
        rw [hvisit] at h
        cases halt with
        | refused =>
          -- An input that is refused leaves an error.
          dsimp only at h
          split at h
          · cases h
          · next hrefused =>
            cases h
            exact absurd rfl hrefused
        | memory | fault | depth => cases h
      | ok tape' =>
        rw [hvisit] at h
        dsimp only at h
        split at h
        · cases h
        · next hshort =>
          cases h
          refine ⟨?_, rfl⟩
          omega

/-- What the decoder leaves tells what the accessors read of the buffer, and the reader, by a
    plan of the same types, walks to its end and gets the values of that. -/
theorem materialize_told (hplans : Reachable plans) {types : List (TapeType α)}
    (hcorresponds : Corresponds types plans R) {handle : UInt32} {nested : ℕ} {room : ℕ → Bool}
    {buffer : List UInt8} {length bytes : UInt32} {before tape : List UInt32} {error : Status}
    (hdecode : pcDecodeTape nested plans room buffer handle length before error =
      .ok (bytes, tape, .ok)) :
    ∃ raw,
      (∀ k ≥ nested, readType plans k handle (.at (wordsOf (buffer.take length.toNat))) = .ok raw) ∧
      ∀ root, R root handle → ∀ kind : Kind, kind.isComplexKind = true → ∀ k ≥ nested,
        materialize ⟨buffer.take length.toNat, tape, types⟩ k root 0 =
          decode types kind root raw >>= fun value => pure (value, tape.length) := by
  obtain ⟨⟨hne, hwhole, hle⟩, hlen, hvisit⟩ := pcDecodeTape_ok hdecode
  have htake : (buffer.take length.toNat).length = length.toNat := List.length_take_of_le hle
  have hinput := bytesOf_wordsOf_of_dvd (htake.symm ▸ hwhole)
  generalize hW : wordsOf (buffer.take length.toNat) = W at hinput ⊢
  rw [← hinput] at hvisit htake ⊢
  rw [length_bytesOf] at htake
  have hlt := length.toNat_lt
  have hin : Location.In W ⟨0, length / 4⟩ := by
    have hpos : length.toNat ≠ 0 := fun h => hne (UInt32.toNat_inj.1 h)
    refine ⟨?_, ?_⟩
    · rw [show (0 : UInt32).toNat = 0 from rfl]
      omega
    · rw [UInt32.toNat_div, show (4 : UInt32).toNat = 4 from rfl]
      omega
  have htells :=
    (visit_told (by omega) hcorresponds hplans.exact room nested 0 handle hin []).of_ok hvisit
  obtain ⟨ext, raw, rfl, hpresent, hread, hmake⟩ := htells.2 hlen
  refine ⟨raw, hread, fun root hroot kind hkind k hk => ?_⟩
  have hvalue := hmake root kind hroot hkind k hk [] []
  rw [List.append_nil, List.length_nil, Nat.zero_add] at hvalue
  exact hvalue

/-- So the reader gets the values of what the accessors read, and finds nothing behind them. -/
theorem deserialize_told (hplans : Reachable plans) {types : List (TapeType α)}
    (hcorresponds : Corresponds types plans R) {handle : UInt32} {nested : ℕ} {room : ℕ → Bool}
    {buffer : List UInt8} {length bytes : UInt32} {before tape : List UInt32} {error : Status}
    (hdecode : pcDecodeTape nested plans room buffer handle length before error =
      .ok (bytes, tape, .ok)) :
    ∃ raw,
      (∀ k ≥ nested, readType plans k handle (.at (wordsOf (buffer.take length.toNat))) = .ok raw) ∧
      ∀ root, R root handle → ∀ kind : Kind, kind.isComplexKind = true → ∀ k ≥ nested,
        deserializeWithTape k ⟨root, types⟩ (buffer.take length.toNat) tape =
          decode types kind root raw := by
  obtain ⟨raw, hread, hmake⟩ := materialize_told hplans hcorresponds hdecode
  refine ⟨raw, hread, fun root hroot kind hkind k hk => ?_⟩
  rw [deserializeWithTape]
  refine (congrArg (· >>= _) (hmake root hroot kind hkind k hk)).trans ?_
  cases decode types kind root raw with
  | error failure => rfl
  | ok value => exact (if_neg (not_not.2 rfl)).trans rfl

/-- A message with a name and a number, as the decoder plans it. -/
def namedPlan : TypePlan :=
  { kind := kMessage, committed := true, fields := [⟨0, kString, kNoType⟩, ⟨1, kU32, kNoType⟩],
    fieldIndexById := [0, 1] }

/-- The same message, as the reader plans it. -/
def namedType : DecodePlan ℕ :=
  ⟨0, [.message 0 [⟨"name", .string, 0xffffffff, .scalar (.string [])⟩,
        ⟨"id", .u32, 0xffffffff, .scalar (.number 0)⟩] 1]⟩

theorem namedPlan_reachable : Reachable [namedPlan] :=
  @Reachable.commit [{ kind := kMessage }] _
    (bytesOf [kMessage, 2, 10, kNoType, 0, kString, kNoType, 1, kU32, kNoType]) 1 40
      (@Reachable.reserve [] _ kMessage .empty rfl) (by decide +kernel)

theorem namedType_corresponds :
    Corresponds namedType.types [namedPlan] fun i handle => i = 0 ∧ handle = 1 := by
  rintro i handle ⟨rfl, rfl⟩
  exact ⟨_, _, rfl, rfl, rfl, rfl,
    .cons ⟨rfl, fun h => (by cases h)⟩ (.cons ⟨rfl, fun h => (by cases h)⟩ .nil)⟩

theorem named_decoded : pcDecodeTape 1 [namedPlan] (fun _ => true)
    (bytesOf [0x500, 0x006b6f08, 7]) 1 12 [] .ok = .ok (36, [1, 1, 2, 0, 0, 5, 2, 2, 1], .ok) := by
  decide +kernel

/-- A map of numbers, as the decoder plans it. -/
def numbersPlan : TypePlan :=
  { kind := kMap, committed := true, keyKind := kU32, valueKind := kU32 }

end ProtoCache.Typescript

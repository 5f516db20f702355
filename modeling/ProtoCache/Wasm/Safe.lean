import ProtoCache.Wasm.Tape

/-!
# The tape decoder is safe

Every load of the visitors is behind a check of its own, so that no arithmetic on what the
input says can lead outside of it. What is stored to the tape goes to words that were
appended before: a visitor keeps their positions, the tape only grows, and a position that
is cut to 32 bits is not above what it was. A visitor of a message relies on its plan, whose
index leads to its own fields (`TypePlan.Indexed`).

* `visitMessage_proper`, `visitArray_proper`, `visitMap_proper`: a visitor, given the one for
  the objects inside;
* `visit_proper`: with a nesting of 257 from the root on, the bound is never used up;
* `pcDecodeTape_safe`: a call of `pc_decode_tape`.
-/

namespace ProtoCache.Wasm

open LittleEndian Outcome

/-- The call stops by itself: it returns `false`, or there is no memory. -/
def Halt.Proper (halt : Halt) : Prop := halt = .refused ∨ halt = .memory

/-- The call does not leave its memory or its nesting bound, and its result has `P`. -/
abbrev Proper {α : Type} (P : α → Prop) (x : Run α) : Prop := Ensures Halt.Proper P x

theorem require_proper (b : Bool) : Proper (fun _ => b = true) (require b) :=
  require_ensures (.inl rfl) b

theorem refused_proper {α : Type} (P : α → Prop) : Proper P (.error .refused : Run α) := .inl rfl

/-- The depth and the type that a visitor checks before it visits a child. -/
theorem depth_lt {depth : UInt32} {p : Bool} (h : (!(decide (depth ≥ kMaximumDepth) || p)) = true) :
    depth < kMaximumDepth := by
  rw [Bool.not_eq_true', Bool.or_eq_false_iff, decide_eq_false_iff_not] at h
  exact UInt32.not_le.1 h.1

/-! ## The input -/

section

variable {input : List UInt8} (hinput : input.length < 2 ^ 32)

include hinput

theorem inputLength_toNat : (inputLength input).toNat = input.length := by
  rw [inputLength, UInt32.toNat_ofNat', Nat.mod_eq_of_lt hinput]

theorem readWord_proper (offset : UInt32) : Proper (fun _ => True) (readWord input offset) := by
  refine (require_proper _).bind fun _ h => ?_
  rw [requireInputWords, requireWords, decide_eq_true_eq] at h
  have hlimit : (inputLength input / 4).toNat = input.length / 4 := by
    rw [UInt32.toNat_div, inputLength_toNat hinput]
    rfl
  have hroom : 1 ≤ (inputLength input / 4 - offset).toNat := by
    have := UInt64.le_iff_toNat_le.1 h.2
    rwa [UInt32.toNat_toUInt64] at this
  have hoffset := UInt32.le_iff_toNat_le.1 h.1
  rw [UInt32.toNat_sub_of_le _ _ h.1, hlimit] at hroom
  rw [load32, Storage.load_of_le (by rw [List.length_drop]; omega)]
  trivial

theorem objectLocation_proper (wordOffset width : UInt32) :
    Proper (fun _ => True) (objectLocation input wordOffset width) := by
  refine (require_proper _).bind fun _ _ => (readWord_proper hinput _).bind fun first _ => ?_
  split
  · exact (require_proper _).bind fun _ _ => (require_proper _).bind fun _ _ => trivial
  · exact (require_proper _).bind fun _ _ => trivial

theorem parseBytes_proper (location : Location) :
    Proper (fun _ => True) (parseBytes input location) := by
  have hmark : ∀ byteLimit k shift byteOffset mark,
      Proper (fun _ => True) (parseMark input byteLimit k shift byteOffset mark) := by
    intro byteLimit k
    induction k with
    | zero => exact fun _ _ _ => refused_proper _
    | succ k ih =>
      intro shift byteOffset mark
      rw [parseMark]
      refine (require_proper _).bind fun _ h => ?_
      have hlt : byteOffset.toNat < input.length := by
        simp only [Bool.not_eq_true', Bool.or_eq_false_iff, decide_eq_false_iff_not] at h
        have := UInt64.lt_iff_toNat_lt.1 (UInt64.not_le.1 h.2)
        rwa [UInt32.toNat_toUInt64, inputLength_toNat hinput] at this
      rw [List.getElem?_eq_getElem hlt]
      refine Ensures.bind (P := fun _ => True) trivial fun byte _ => ?_
      split
      · exact (require_proper _).bind fun _ _ => (require_proper _).bind fun _ _ => trivial
      · exact ih _ _ _
  exact (require_proper _).bind fun _ _ => hmark _ _ _ _ _

end

/-! ## The tape -/

section

variable {room : ℕ → Bool} {tape : List UInt32}

theorem append_proper (value : UInt32) :
    Proper (fun tape' => tape'.length = tape.length + 1) (append room value tape) := by
  rw [append]
  split
  · exact List.length_append
  · exact .inr rfl

theorem appendHeader_proper (kind typeId count data0 data1 : UInt32) :
    Proper (fun tape' => tape'.length = tape.length + 5)
      (appendHeader room kind typeId count data0 data1 tape) := by
  refine (append_proper _).bind fun _ h₁ => (append_proper _).bind fun _ h₂ => ?_
  refine (append_proper _).bind fun _ h₃ => (append_proper _).bind fun _ h₄ => ?_
  exact (append_proper _).mono fun _ h₅ => by omega

theorem extend_proper (count : ℕ) :
    Proper (fun tape' => tape'.length = tape.length + count) (extend room count tape) := by
  rw [extend]
  split
  · refine ensures_ok.2 ?_
    rw [List.length_append, List.length_replicate]
  · exact .inr rfl

theorem store_proper {i : ℕ} (h : i < tape.length) (value : UInt32) :
    Proper (fun tape' => tape'.length = tape.length) (store i value tape) := by
  rw [store, if_pos h]
  exact List.length_set

end

/-- A position on the tape that is cut to 32 bits is not above what it was. -/
theorem toNat_position_le (descriptors index stride : ℕ) :
    (UInt32.ofNat descriptors + UInt32.ofNat index * UInt32.ofNat stride).toNat ≤
      descriptors + index * stride := by
  rw [UInt32.toNat_add, UInt32.toNat_mul, UInt32.toNat_ofNat', UInt32.toNat_ofNat',
    UInt32.toNat_ofNat']
  refine (Nat.mod_le _ _).trans (Nat.add_le_add (Nat.mod_le _ _) ((Nat.mod_le _ _).trans ?_))
  exact Nat.mul_le_mul (Nat.mod_le _ _) (Nat.mod_le _ _)

/-! ## The visitors -/

section

variable {input : List UInt8} {room : ℕ → Bool} (hinput : input.length < 2 ^ 32)

include hinput in
/-- The two words of a descriptor are on the tape. -/
theorem validateScalar_proper {tape : List UInt32} {kind wordOffset width descriptor : UInt32}
    (h : kind = kString ∨ kind = kBytes → descriptor.toNat + 1 < tape.length) :
    Proper (fun tape' => tape'.length = tape.length)
      (validateScalar input kind wordOffset width descriptor tape) := by
  rw [validateScalar]
  split
  · next hkind =>
    have hdescriptor := h hkind
    have hnext : (descriptor + 1).toNat ≤ descriptor.toNat + 1 := by
      rw [UInt32.toNat_add]
      exact Nat.mod_le _ _
    refine (objectLocation_proper hinput _ _).bind fun object _ => ?_
    refine (parseBytes_proper hinput _).bind fun bytes _ => ?_
    refine (store_proper (by omega) _).bind fun tape' htape' => ?_
    exact (store_proper (by omega) _).mono fun _ h => h.trans htape'
  · exact (require_proper _).bind fun _ _ => rfl

variable {plan : TypePlan} {location : Location}

/-- What is recorded of a field goes to the descriptor of a field of the plan. -/
theorem record_proper (hplan : plan.Indexed) {descriptors : ℕ} {tape : List UInt32}
    (h : descriptors + plan.fields.length * 2 ≤ tape.length) (id wordOffset width : UInt32) :
    Proper (fun tape' => tape'.length = tape.length)
      (record plan descriptors id wordOffset width tape) := by
  rw [record]
  split
  · rfl
  · next index hindex =>
    split
    · rfl
    · next hpos =>
      have hlt : index.toNat < plan.fields.length :=
        (Int.toNat_lt (not_lt.1 hpos)).2 (hplan index (List.mem_of_getElem? hindex))
      have hle : (UInt32.ofNat index.toNat * 2).toNat ≤ index.toNat * 2 := by
        rw [UInt32.toNat_mul, UInt32.toNat_ofNat']
        exact (Nat.mod_le _ _).trans (Nat.mul_le_mul_right _ (Nat.mod_le _ _))
      refine (store_proper (by omega) _).bind fun tape' htape' => ?_
      exact (store_proper (by omega) _).mono fun _ h => h.trans htape'

theorem recordField_proper (hplan : plan.Indexed) {descriptors n : ℕ} (body id width : UInt32)
    {s : UInt32 × List UInt32} (hs : s.2.length = n)
    (h : descriptors + plan.fields.length * 2 ≤ n) :
    Proper (fun s' => s'.2.length = n) (recordField plan location body descriptors id width s) := by
  rw [recordField]
  split
  · refine (require_proper _).bind fun _ _ => ?_
    exact (record_proper hplan (hs ▸ h) _ _ _).bind fun tape htape => htape.trans hs
  · exact hs

include hinput in
theorem recordSection_proper (hplan : plan.Indexed) {descriptors : ℕ} {tape : List UInt32}
    (h : descriptors + plan.fields.length * 2 ≤ tape.length) (body : UInt32) (section_ : ℕ) :
    Proper (fun tape' => tape'.length = tape.length)
      (recordSection input plan location body descriptors section_ tape) := by
  rw [recordSection]
  refine (readWord_proper hinput _).bind fun low _ => (readWord_proper hinput _).bind
    fun high _ => ?_
  refine Ensures.bind (P := fun s => s.2.length = tape.length) ?_ fun s hs => ensures_pure.2 hs
  exact Ensures.foldlM rfl fun index _ s hs => recordField_proper hplan _ _ _ hs h

include hinput in
theorem bodyWords_proper (first : UInt32) :
    Proper (fun _ => True) (bodyWords input location first) := by
  rw [bodyWords]
  split
  · trivial
  · exact (readWord_proper hinput _).bind fun _ _ => (readWord_proper hinput _).bind
      fun _ _ => trivial

variable {rec : Visitor} {depth : UInt32}
  (hrec : depth < kMaximumDepth → ∀ typeId location tape,
    Proper (fun tape' => tape.length ≤ tape'.length) (rec typeId location tape))

include hinput hrec

theorem visitChild_proper (hdepth : depth < kMaximumDepth) (wordOffset width child : UInt32)
    (tape : List UInt32) :
    Proper (fun tape' => tape.length ≤ tape'.length)
      (visitChild input rec wordOffset width child tape) :=
  (objectLocation_proper hinput _ _).bind fun location _ => hrec hdepth child location tape

theorem visitField_proper {descriptors index : ℕ} {tape : List UInt32}
    (hindex : index < plan.fields.length) (h : descriptors + plan.fields.length * 2 ≤ tape.length) :
    Proper (fun tape' => tape.length ≤ tape'.length)
      (visitField input plan rec depth descriptors index tape) := by
  rw [visitField, List.getElem?_eq_getElem (by omega), List.getElem?_eq_getElem (by omega),
    List.getElem?_eq_getElem hindex]
  refine Ensures.bind (P := fun _ => True) trivial fun wordOffset _ => ?_
  refine Ensures.bind (P := fun _ => True) trivial fun width _ => ?_
  split
  · exact le_rfl
  · refine Ensures.bind (P := fun _ => True) trivial fun field _ => ?_
    split
    · have hdescriptor : (UInt32.ofNat (descriptors + index * 2)).toNat ≤
        descriptors + index * 2 := by
        rw [UInt32.toNat_ofNat']
        exact Nat.mod_le _ _
      exact (validateScalar_proper hinput fun _ => by omega).mono fun _ h => h.ge
    · exact (require_proper _).bind fun _ hdepth =>
        visitChild_proper hinput hrec (depth_lt hdepth) _ _ _ _

/-- A visitor of messages. -/
theorem visitMessage_proper (hplan : plan.Indexed) (typeId : UInt32) (tape : List UInt32) :
    Proper (fun tape' => tape.length ≤ tape'.length)
      (visitMessage input room plan location rec typeId depth tape) := by
  rw [visitMessage]
  refine (require_proper _).bind fun _ _ => (readWord_proper hinput _).bind fun first _ => ?_
  refine (require_proper _).bind fun _ _ => (bodyWords_proper hinput _).bind fun words _ => ?_
  refine (require_proper _).bind fun _ _ => (appendHeader_proper _ _ _ _ _).bind
    fun header hheader => ?_
  refine (extend_proper _).bind fun tape' htape' => ?_
  -- The three loops keep the descriptors on the tape.
  refine Ensures.bind (P := fun s => s.2.length = tape'.length) ?_ fun s hs => ?_
  · exact Ensures.foldlM rfl fun id _ s hs => recordField_proper hplan _ _ _ hs htape'.ge
  refine Ensures.bind (P := fun t => t.length = tape'.length) ?_ fun recorded hrecorded => ?_
  · refine Ensures.foldlM hs fun section_ _ t ht => ?_
    exact (recordSection_proper hinput hplan (by omega) _ _).mono fun _ h => h.trans ht
  refine (Ensures.foldlM (I := fun t => tape'.length ≤ t.length) hrecorded.ge
    fun index hindex t ht => ?_).mono
    fun t ht => by omega
  exact (visitField_proper hinput hrec (List.mem_range.1 hindex) (by omega)).mono fun _ h =>
    ht.trans h

/-- A loop over the complex values of an array or a map. -/
theorem visitChildren_proper (hdepth : depth < kMaximumDepth) (count : ℕ) (at_ : ℕ → UInt32)
    (width child : UInt32) (tape : List UInt32) : Proper (fun tape' => tape.length ≤ tape'.length)
      ((List.range count).foldlM
        (fun tape index => visitChild input rec (at_ index) width child tape) tape) :=
  Ensures.foldlM le_rfl fun index _ t ht =>
    (visitChild_proper hinput hrec hdepth (at_ index) width child t).mono fun _ h => ht.trans h

/-- A visitor of arrays. -/
theorem visitArray_proper (typeId : UInt32) (tape : List UInt32) :
    Proper (fun tape' => tape.length ≤ tape'.length)
      (visitArray input room plan location rec typeId depth tape) := by
  rw [visitArray]
  split
  · refine (parseBytes_proper hinput _).bind fun bytes _ => ?_
    exact (appendHeader_proper _ _ _ _ _).mono fun _ h => by omega
  · refine (require_proper _).bind fun _ _ => (readWord_proper hinput _).bind fun header _ => ?_
    refine (require_proper _).bind fun _ _ => (appendHeader_proper _ _ _ _ _).bind
      fun tape₁ htape₁ => ?_
    split
    · refine (extend_proper _).bind fun tape₂ htape₂ => ?_
      refine (Ensures.foldlM (I := fun t => t.length = tape₂.length) rfl fun index hindex t ht =>
        ?_).mono
        fun t ht => by omega
      refine (validateScalar_proper hinput fun _ => ?_).mono fun _ h => h.trans ht
      have hdescriptor := toNat_position_le tape₁.length index 2
      have hcount := List.mem_range.1 hindex
      rw [show UInt32.ofNat 2 = 2 from rfl] at hdescriptor
      omega
    · split
      · exact (require_proper _).bind fun _ _ => ensures_pure.2 (by omega)
      · refine (require_proper _).bind fun _ hdepth => ?_
        exact (visitChildren_proper hinput hrec (depth_lt hdepth) _ _ _ _ _).mono fun _ h =>
          by omega

omit hrec in
/-- The descriptors of a pair are on the tape. -/
theorem visitPair_proper {key keyWidth valueWidth descriptor : UInt32} {tape : List UInt32}
    (h : descriptor.toNat + ((if plan.keyKind == kString then 2 else 0) +
      (if plan.valueKind == kString || plan.valueKind == kBytes then 2 else 0)) ≤ tape.length) :
    Proper (fun tape' => tape'.length = tape.length)
      (visitPair input plan key keyWidth valueWidth descriptor tape) := by
  rw [visitPair]
  refine Ensures.bind (P := fun t => t.length = tape.length) ?_ fun tape' htape' => ?_
  · split
    · next hkey =>
      rw [if_pos hkey] at h
      exact validateScalar_proper hinput fun _ => by omega
    · rfl
  · dsimp only
    by_cases hvalue : (plan.valueKind == kString || plan.valueKind == kBytes) = true
    · rw [if_pos hvalue] at h ⊢
      refine (validateScalar_proper hinput fun _ => ?_).mono fun _ h => h.trans htape'
      split
      · next hkey =>
        rw [if_pos hkey] at h
        have hnext : (descriptor + 2).toNat ≤ descriptor.toNat + 2 := by
          rw [UInt32.toNat_add]
          exact Nat.mod_le _ _
        omega
      · omega
    · rw [if_neg hvalue]
      exact htape'

/-- A visitor of maps. -/
theorem visitMap_proper (typeId : UInt32) (tape : List UInt32) :
    Proper (fun tape' => tape.length ≤ tape'.length)
      (visitMap input room plan location rec typeId depth tape) := by
  rw [visitMap]
  refine (require_proper _).bind fun _ _ => (readWord_proper hinput _).bind fun header _ => ?_
  refine (require_proper _).bind fun _ _ => (require_proper _).bind fun _ _ => ?_
  refine (appendHeader_proper _ _ _ _ _).bind fun tape₁ htape₁ => ?_
  dsimp only
  generalize hstride : ((if plan.keyKind == kString then 2 else 0) +
    (if plan.valueKind == kString || plan.valueKind == kBytes then 2 else 0) : ℕ) = stride
  refine Ensures.bind (P :=
    fun t => t.length = tape₁.length + stride * (header &&& 0x0fffffff).toNat) ?_
    fun tape₂ htape₂ => ?_
  · split
    · exact extend_proper _
    · next hzero =>
      rw [not_not] at hzero
      rw [ensures_pure, hzero, Nat.zero_mul, Nat.add_zero]
  refine (require_proper _).bind fun _ _ => (require_proper _).bind fun _ _ => ?_
  refine Ensures.bind (P := fun t => t.length = tape₂.length) ?_ fun tape₃ htape₃ => ?_
  · refine Ensures.foldlM rfl fun index hindex t ht => ?_
    refine (visitPair_proper hinput ?_).mono fun _ h => h.trans ht
    have hdescriptor := toNat_position_le tape₁.length index stride
    have hlast : stride * (index + 1) ≤ stride * (header &&& 0x0fffffff).toNat :=
      Nat.mul_le_mul_left _ (List.mem_range.1 hindex)
    rw [hstride, ht, htape₂]
    rw [Nat.mul_succ] at hlast
    rw [Nat.mul_comm index] at hdescriptor
    omega
  · split
    · exact ensures_pure.2 (by omega)
    · refine (require_proper _).bind fun _ hdepth => ?_
      exact (visitChildren_proper hinput hrec (depth_lt hdepth) _ _ _ _ _).mono fun _ h => by omega

end

/-- Objects nest no deeper than the bound leaves room for. -/
theorem visit_proper {input : List UInt8} {room : ℕ → Bool} (hinput : input.length < 2 ^ 32)
    {types : List TypePlan} (htypes : ∀ plan ∈ types, plan.Indexed) {nested : ℕ} {depth : UInt32}
    (hle : depth ≤ kMaximumDepth) (hnested : 257 ≤ depth.toNat + nested) (typeId : UInt32)
    (location : Location) (tape : List UInt32) : Proper (fun tape' => tape.length ≤ tape'.length)
      (visit input room types nested depth typeId location tape) := by
  have hmax : kMaximumDepth.toNat = 256 := rfl
  -- By induction on the nesting: `depth` grows as it falls, and stops at the maximum first.
  induction nested generalizing depth typeId location tape with
  | zero =>
    have := UInt32.le_iff_toNat_le.1 hle
    omega
  | succ nested ih =>
    rw [visit]
    refine (require_proper _).bind fun _ htype => ?_
    rw [decide_eq_true_eq] at htype
    obtain ⟨plan, hplan⟩ : ∃ plan, planOf types typeId = some plan := by
      have hpos : 0 < typeId.toNat := Nat.pos_of_ne_zero fun h => htype.1 (UInt32.toNat_inj.1 h)
      rw [planOf, if_neg htype.1, List.getElem?_eq_getElem (by omega)]
      exact ⟨_, rfl⟩
    -- The type is one of those that were checked when the plans were committed.
    have hindexed : plan.Indexed := by
      rw [planOf, if_neg htype.1] at hplan
      exact htypes plan (List.mem_of_getElem? hplan)
    have hrec : depth < kMaximumDepth → ∀ typeId location tape,
        Proper (fun tape' => tape.length ≤ tape'.length)
          (visit input room types nested (depth + 1) typeId location tape) := by
      intro hlt typeId location tape
      have hlt' := UInt32.lt_iff_toNat_lt.1 hlt
      have hnext : (depth + 1).toNat = depth.toNat + 1 := by
        rw [UInt32.toNat_add, show (1 : UInt32).toNat = 1 from rfl, Nat.mod_eq_of_lt (by omega)]
      exact ih (UInt32.le_iff_toNat_le.2 (by omega)) (by omega) typeId location tape
    rw [hplan]
    refine Ensures.bind (P := TypePlan.Indexed) (ensures_ok.2 hindexed) fun plan hplan => ?_
    refine (require_proper _).bind fun _ _ => ?_
    dsimp only
    split
    · exact visitMessage_proper hinput hrec hplan typeId tape
    · split
      · exact visitArray_proper hinput hrec typeId tape
      · split
        · exact visitMap_proper hinput hrec typeId tape
        · exact refused_proper _

/-- Whatever plans were committed, and whatever the input is, a call of `pc_decode_tape` comes
    to an end: it visits at most 257 nested objects, it loads bytes of the input only, and it
    stores to words of the tape that it appended. On success it returns the bytes of the
    tape, and on failure zero, and leaves no tape if it accepted its arguments. -/
theorem pcDecodeTape_safe (types : List TypePlan) (htypes : Reachable types) (room : ℕ → Bool)
    (buffer : List UInt8) (schemaHandle length : UInt32) (tape : List UInt32)
    (decodeError : Status) :
    ∃ ret tape' decodeError',
      pcDecodeTape 257 types room buffer schemaHandle length tape decodeError =
        .ok (ret, tape', decodeError') ∧
        (decodeError' = .ok → ret.toNat = 4 * tape'.length) ∧
        (decodeError' ≠ .ok →
          ret = 0 ∧ (accepts types buffer schemaHandle length = true → tape' = [])) := by
  rw [pcDecodeTape]
  split
  · next hrefused =>
    refine ⟨_, _, _, rfl, fun h => absurd h (by decide), fun _ => ⟨rfl, fun h => ?_⟩⟩
    rw [h] at hrefused
    exact absurd hrefused (by decide)
  · split
    · exact ⟨_, _, _, rfl, fun h => absurd h (by decide), fun _ => ⟨rfl, fun _ => rfl⟩⟩
    · have hinput : (buffer.take length.toNat).length < 2 ^ 32 :=
        (List.length_take_le _ _).trans_lt length.toNat_lt
      have hvisit : Proper (fun tape' => 0 ≤ tape'.length)
          (visit (buffer.take length.toNat) room types 257 0 schemaHandle ⟨0, length / 4⟩ []) :=
        visit_proper hinput htypes.indexed UInt32.zero_le (by decide) _ _ _
      dsimp only
      split
      · refine ⟨_, _, _, rfl, ?_, fun _ => ⟨rfl, fun _ => rfl⟩⟩
        split
        · exact fun h => absurd h (by decide)
        · next herror => exact fun h => absurd h herror
      · exact ⟨_, _, _, rfl, fun h => absurd h (by decide), fun _ => ⟨rfl, fun _ => rfl⟩⟩
      · next halt hrefused hmemory hrun =>
        rw [hrun] at hvisit
        exact absurd hvisit (not_or.2 ⟨hrefused, hmemory⟩)
      · next tape' hrun =>
        split
        · exact ⟨_, _, _, rfl, fun h => absurd h (by decide), fun _ => ⟨rfl, fun _ => rfl⟩⟩
        · next hlarge =>
          refine ⟨_, _, _, rfl, fun _ => ?_, fun h => absurd rfl h⟩
          rw [UInt32.toNat_ofNat', Nat.mod_eq_of_lt (by omega), Nat.mul_comm]

/-- A message with one field, of its own type. -/
def cyclicPlan : TypePlan :=
  { kind := kMessage, committed := true, fields := [⟨0, kMessage, 1⟩], fieldIndexById := [0] }

/-- Two messages of a type that refers to itself, one in the other. -/
theorem pcDecodeTape_safe_cyclic : Reachable [cyclicPlan] ∧ ∃ ret tape' decodeError',
    pcDecodeTape 257 [cyclicPlan] (fun _ => true) (bytesOf [0x100, 7, 0]) 1 12 [] .ok =
      .ok (ret, tape', decodeError') ∧ (decodeError' = .ok → ret.toNat = 4 * tape'.length) ∧
      (decodeError' ≠ .ok → ret = 0 ∧
        (accepts [cyclicPlan] (bytesOf [0x100, 7, 0]) 1 12 = true → tape' = [])) := by
  have hreserve : Reachable [{ kind := kMessage }] := @Reachable.reserve [] _ kMessage .empty rfl
  have hcommit : Reachable [cyclicPlan] := @Reachable.commit _ _
    (bytesOf [kMessage, 1, 7, kNoType, 0, kMessage, 1]) 1 28 hreserve (by decide +kernel)
  exact ⟨hcommit, pcDecodeTape_safe [cyclicPlan] hcommit _ _ _ _ _ _⟩

end ProtoCache.Wasm

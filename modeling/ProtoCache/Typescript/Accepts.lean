import ProtoCache.Typescript.Atomic
import ProtoCache.Typescript.Commit
import ProtoCache.Typescript.Constructors

/-!
# Plans that the decoder accepts

The schema constructors and the decoder check the same things on their own: the numbers and the
kinds of fields, the kinds of keys, and that what is complex has a type. `Acceptable` is what the
decoder has to find in a plan, in the terms of the constructors.

* `commitPlan_accepts`: a plan that is acceptable is committed, if its handle is reserved for it.
-/

namespace ProtoCache.Typescript

open Outcome
open Wasm (TypePlan FieldPlan)

/-! ## Plans that the decoder accepts -/

/-- A kind is that of a value, and the child is a handle of a plan of this kind if it is complex. -/
def Fits (wasm : List TypePlan) (kind : Kind) (child : Option ℕ) : Prop :=
  isValueKind kind = true ∧
    match child with
    | none => kind.isComplexKind = false
    | some h => kind.isComplexKind = true ∧ h < noType ∧
      ∃ type, Wasm.planOf wasm (UInt32.ofNat h) = some type ∧ type.kind = UInt32.ofNat kind.code

/-- What the decoder has to find in a plan. -/
def Acceptable (wasm : List TypePlan) : Plan → Prop
  | .message fields =>
    (∀ field ∈ fields, field.id < 6387 ∧ Fits wasm field.kind field.child) ∧
      (fields.map PlanField.id).Nodup
  | .array valueKind child => Fits wasm valueKind child
  | .map keyKind valueKind child => isKeyKind keyKind = true ∧ Fits wasm valueKind child

theorem validValueKind_iff (kind : Kind) :
    Wasm.validValueKind (UInt32.ofNat kind.code) = isValueKind kind := by
  cases kind <;> rfl

theorem validKeyKind_iff (kind : Kind) :
    Wasm.validKeyKind (UInt32.ofNat kind.code) = isKeyKind kind := by
  cases kind <;> rfl

/-- The decoder's checks of a kind and of a child. -/
theorem Fits.checks {wasm : List TypePlan} {kind : Kind} {child : Option ℕ}
    (h : Fits wasm kind child) :
    Wasm.validValueKind (UInt32.ofNat kind.code) = true ∧
      (Wasm.isComplex (UInt32.ofNat kind.code) ==
        (UInt32.ofNat (child.getD noType) != Wasm.kNoType)) = true ∧
        Wasm.validateChild wasm (UInt32.ofNat kind.code) (UInt32.ofNat (child.getD noType)) =
          true := by
  obtain ⟨hkind, hchild⟩ := h
  rw [validValueKind_iff, ← kind.is_ofNat.complex, Wasm.validateChild, ← kind.is_ofNat.complex]
  cases child with
  | none =>
    rw [hchild]
    exact ⟨hkind, rfl, rfl⟩
  | some h =>
    obtain ⟨hcomplex, hlt, type, htype, htypeKind⟩ := hchild
    rw [hcomplex, Option.getD_some, htype]
    refine ⟨hkind, ?_, ?_⟩
    · -- A handle is not the number that stands for none.
      have hne : UInt32.ofNat h ≠ Wasm.kNoType := by
        intro heq
        have hnat := congrArg UInt32.toNat heq
        rw [UInt32.toNat_ofNat', Nat.mod_eq_of_lt (hlt.trans (by decide))] at hnat
        exact absurd hnat hlt.ne
      rw [bne_iff_ne.2 hne]
      rfl
    · rw [Bool.not_true, Bool.false_or, beq_iff_eq, htypeKind]

/-- The loop over the fields accepts them, once those in `done` are there. -/
theorem planFields_accepts {wasm : List TypePlan} {head : List UInt32} (hhead : head.length = 4)
    {rest : List UInt8} (done : List PlanField) {fields : List PlanField}
    (hfields : ∀ field ∈ fields, field.id < 6387 ∧ Fits wasm field.kind field.child) :
    Wasm.planFields (bytesOf (head ++ (done ++ fields).flatMap fieldWords) ++ rest) fields.length
      done.length =
      .ok (fields.map plannedField) := by
  induction fields generalizing done with
  | nil => rfl
  | cons field fields ih =>
    have hget := fieldWords_get hhead done field fields
    have hnext := ih (done ++ [field]) fun f hf => hfields f (List.mem_cons_of_mem _ hf)
    rw [List.append_assoc, List.length_append, List.length_singleton] at hnext
    obtain ⟨hid, hfits⟩ := hfields field List.mem_cons_self
    obtain ⟨hkind, hcomplex, -⟩ := hfits.checks
    have hidLt : UInt32.ofNat field.id < 6387 := by
      rw [UInt32.lt_iff_toNat_lt, UInt32.toNat_ofNat', Nat.mod_eq_of_lt (hid.trans (by decide))]
      exact hid
    have hchecks : Wasm.require (decide (UInt32.ofNat field.id < 6387) && Wasm.validValueKind
        (UInt32.ofNat field.kind.code) && Wasm.isComplex (UInt32.ofNat field.kind.code) ==
        (UInt32.ofNat (field.child.getD noType) != Wasm.kNoType)) = .ok ⟨⟩ := by
      rw [decide_eq_true hidLt, hkind, hcomplex]
      rfl
    rw [List.length_cons, Wasm.planFields, planWord_eq (hget 0 _ rfl), planWord_eq (hget 1 _ rfl),
      planWord_eq (hget 2 _ rfl)]
    refine (bind_of_ok rfl).trans ((bind_of_ok rfl).trans ((bind_of_ok rfl).trans ?_))
    exact (bind_of_ok hchecks).trans (bind_of_ok hnext)

/-- The loop over the index accepts fields of numbers of their own. -/
theorem indexFields_accepts {fields : List FieldPlan} {index : ℕ} {byId : List ℤ}
    (hfree : ∀ field ∈ fields, byId[field.id.toNat]? = some (-1))
    (hnodup : (fields.map fun field => field.id.toNat).Nodup) :
    ∃ byId', Wasm.indexFields fields index byId = .ok byId' := by
  induction fields generalizing index byId with
  | nil => exact ⟨byId, rfl⟩
  | cons field fields ih =>
    rw [List.map_cons, List.nodup_cons] at hnodup
    rw [Wasm.indexFields, hfree field List.mem_cons_self]
    refine ih (fun f hf => ?_) hnodup.2
    -- The other fields have other places.
    have hne : field.id.toNat ≠ f.id.toNat := fun heq => hnodup.1 (heq ▸ List.mem_map_of_mem hf)
    rw [List.getElem?_set_ne hne]
    exact hfree f (List.mem_cons_of_mem _ hf)

/-- A message that is accepted has no more fields than there are numbers. -/
theorem Acceptable.length_le {wasm : List TypePlan} {fields : List PlanField}
    (h : Acceptable wasm (.message fields)) :
    fields.length ≤ 6387 := by
  have hlt : ∀ n ∈ fields.map PlanField.id, n < 6387 :=
    List.forall_mem_map.2 fun field hfield => (h.1 field hfield).1
  have hlen := (h.2.subperm fun n hn => List.mem_range.2 (hlt n hn)).length_le
  rwa [List.length_map, List.length_range] at hlen

/-- The plan of a message is accepted. -/
theorem messagePlan_accepts {wasm : List TypePlan} {fields : List PlanField} {rest : List UInt8}
    {child : UInt32} (h : Acceptable wasm (.message fields)) :
    ∃ type, Wasm.messagePlan wasm (wordsToBytes (Plan.message fields).words ++ rest)
      (UInt32.ofNat fields.length)
      (UInt32.ofNat (4 + fields.length * 3)) child = .ok type := by
  have hlen := h.length_le
  obtain ⟨hfields, hnodup⟩ := h
  have hid : ∀ field ∈ fields, (UInt32.ofNat field.id).toNat = field.id := fun field hfield => by
    rw [UInt32.toNat_ofNat', Nat.mod_eq_of_lt ((hfields field hfield).1.trans (by decide))]
  have hlength : (UInt32.ofNat fields.length).toNat = fields.length := by
    rw [UInt32.toNat_ofNat', Nat.mod_eq_of_lt (by omega)]
  have hchecks : Wasm.require (UInt32.ofNat (4 + fields.length * 3) == 4 +
      UInt32.ofNat fields.length * 3 && decide (UInt32.ofNat fields.length ≤ 6387)) = .ok ⟨⟩ := by
    have hwords : UInt32.ofNat (4 + fields.length * 3) = 4 + UInt32.ofNat fields.length * 3 := by
      rw [UInt32.ofNat_add, UInt32.ofNat_mul]
      rfl
    rw [beq_iff_eq.2 hwords, decide_eq_true (UInt32.le_iff_toNat_le.2 (hlength.symm ▸ hlen))]
    rfl
  -- The words behind the head are those of the fields.
  have hplanned :=
    @planFields_accepts wasm [UInt32.ofNat Kind.message.code, UInt32.ofNat fields.length,
      UInt32.ofNat (4 + fields.length * 3), UInt32.ofNat noType] rfl rest [] fields hfields
  rw [List.nil_append, ← words_message] at hplanned
  -- The numbers of the fields are kept by the words, so that they are still different.
  have hids : (fields.map plannedField).map (fun field => field.id.toNat) =
      fields.map PlanField.id := by
    rw [List.map_map]
    exact List.map_congr_left hid
  obtain ⟨byId, hindex⟩ : ∃ byId,
    (if (fields.map plannedField).isEmpty then (return [] : Wasm.Run (List ℤ))
      else Wasm.indexFields (fields.map plannedField) 0
        (List.replicate (((fields.map plannedField).map fun field => field.id.toNat).foldl max 0 +
            1) (-1))) = .ok byId := by
    split
    · exact ⟨[], rfl⟩
    · refine indexFields_accepts (fun field hfield => ?_) (hids ▸ hnodup)
      rw [List.getElem?_replicate_of_lt]
      exact Nat.lt_succ_of_le (le_foldl_max 0 (List.mem_map_of_mem hfield))
  have hchildren : Wasm.require
    ((fields.map plannedField).all fun field => Wasm.validateChild wasm field.kind field.child) =
      .ok ⟨⟩ := by
    rw [List.all_eq_true.2
      (List.forall_mem_map.2 fun field hfield => (hfields field hfield).2.checks.2.2)]
    rfl
  rw [Wasm.messagePlan, hlength, wordsToBytes]
  refine ⟨{ kind := Wasm.kMessage, child, committed := true, fields :=
      fields.map plannedField, fieldIndexById := byId }, ?_⟩
  refine (bind_of_ok hchecks).trans ((bind_of_ok hplanned).trans ?_)
  exact (bind_of_ok hindex).trans (bind_of_ok hchildren)

/-- The plan of an array is accepted. -/
theorem arrayPlan_accepts {wasm : List TypePlan} {valueKind : Kind} {child : Option ℕ}
    (h : Acceptable wasm (.array valueKind child)) :
    ∃ type, Wasm.arrayPlan wasm (UInt32.ofNat valueKind.code) 4 (UInt32.ofNat (child.getD noType)) =
      .ok type := by
  obtain ⟨hkind, hcomplex, hchild⟩ := Fits.checks h
  rw [Wasm.arrayPlan, hkind, hcomplex, hchild]
  exact ⟨_, rfl⟩

/-- The plan of a map is accepted. -/
theorem mapPlan_accepts {wasm : List TypePlan} {keyKind valueKind : Kind} {child : Option ℕ}
    (h : Acceptable wasm (.map keyKind valueKind child)) :
    ∃ type, Wasm.mapPlan wasm (UInt32.ofNat (keyKind.code ||| valueKind.code <<< 8)) 4
      (UInt32.ofNat (child.getD noType)) = .ok type := by
  obtain ⟨hkey, hvalue⟩ := h
  obtain ⟨hkind, hcomplex, hchild⟩ := hvalue.checks
  obtain ⟨hkeyWord, hvalueWord⟩ := Kind.is_pair keyKind valueKind
  rw [Wasm.mapPlan, hkeyWord.eq, hvalueWord.eq, validKeyKind_iff, hkey, hkind, hcomplex, hchild]
  exact ⟨_, rfl⟩

/-- The length of a plan in bytes is that of its words. -/
theorem planLength {n : ℕ} (hn : 4 ≤ n) (hlt : 4 * n < 2 ^ 32) :
    16 ≤ UInt32.ofNat (4 * n) ∧ UInt32.ofNat (4 * n) &&& 3 = 0 ∧
      UInt32.ofNat (4 * n) / 4 = UInt32.ofNat n := by
  have htoNat : (UInt32.ofNat (4 * n)).toNat = 4 * n := by
    rw [UInt32.toNat_ofNat', Nat.mod_eq_of_lt hlt]
  refine ⟨?_, ?_, ?_⟩
  · rw [UInt32.le_iff_toNat_le, htoNat]
    exact Nat.mul_le_mul_left 4 hn
  · rw [← UInt32.toNat_inj, UInt32.toNat_and, htoNat]
    exact (Nat.and_two_pow_sub_one_eq_mod (4 * n) 2).trans (Nat.mul_mod_right 4 n)
  · rw [← UInt32.toNat_inj, UInt32.toNat_div, htoNat, UInt32.toNat_ofNat',
      Nat.mod_eq_of_lt (by omega)]
    exact Nat.mul_div_cancel_left n (by decide)

theorem length_words_message (fields : List PlanField) :
    (Plan.message fields).words.length = 4 + fields.length * 3 := by
  rw [← List.length_map UInt32.ofNat, words_message, List.length_append, length_fieldWords]
  rfl

/-- The head of a plan: its kind, a word that depends on this, its length and its child. -/
theorem words_head (plan : Plan) : 4 ≤ plan.words.length ∧ plan.words[0]? = some plan.kind.code ∧
    plan.words[2]? = some plan.words.length := by
  cases plan with
  | message fields =>
    rw [length_words_message]
    exact ⟨Nat.le_add_right _ _, rfl, rfl⟩
  | array valueKind child => exact ⟨le_rfl, rfl, rfl⟩
  | map keyKind valueKind child => exact ⟨le_rfl, rfl, rfl⟩

/-- What the decoder has to find in a plan is enough for it. -/
theorem commitPlan_accepts {wasm : List TypePlan} {plan : Plan} (h : Acceptable wasm plan)
    {handle : UInt32} {reserved : TypePlan} (hreserved : Wasm.planOf wasm handle = some reserved)
    (huncommitted : reserved.committed = false)
    (hkind : reserved.kind = UInt32.ofNat plan.kind.code) (rest : List UInt8) :
    4 * plan.words.length < 2 ^ 32 ∧
      ∃ wasm', Wasm.commitPlan wasm (wordsToBytes plan.words ++ rest) handle
        (UInt32.ofNat (4 * plan.words.length)) = .ok wasm' := by
  have hword : ∀ {i : ℕ} {w : ℕ}, plan.words[i]? = some w →
      Wasm.planWord (wordsToBytes plan.words ++ rest) i = .ok (UInt32.ofNat w) :=
        fun h => planWord_eq (by rw [List.getElem?_map, h]; rfl)
  obtain ⟨hne, hlt, -⟩ := planOf_lt hreserved
  -- The head: its first word is the kind, its third the number of words.
  obtain ⟨hfour, hkindWord, hlengthWord⟩ := words_head plan
  have hlen : 4 * plan.words.length < 2 ^ 32 := by
    cases plan with
    | message fields =>
      have := Acceptable.length_le h
      rw [length_words_message]
      omega
    | array valueKind child => exact (by decide : 4 * 4 < 2 ^ 32)
    | map keyKind valueKind child => exact (by decide : 4 * 4 < 2 ^ 32)
  obtain ⟨hle, hand, hdiv⟩ := planLength hfour hlen
  have hroom : (UInt32.ofNat (4 * plan.words.length)).toNat ≤
      (wordsToBytes plan.words ++ rest).length := by
    rw [UInt32.toNat_ofNat', Nat.mod_eq_of_lt hlen, List.length_append, wordsToBytes,
      length_bytesOf, List.length_map]
    exact Nat.le_add_right _ _
  have hlength : Wasm.require (decide (UInt32.ofNat (4 * plan.words.length) ≥ 16) && UInt32.ofNat
      (4 * plan.words.length) &&& 3 == 0 && decide ((UInt32.ofNat (4 * plan.words.length)).toNat ≤
        (wordsToBytes plan.words ++ rest).length)) = .ok ⟨⟩ := by
    rw [decide_eq_true hle, beq_iff_eq.2 hand, decide_eq_true hroom]
    rfl
  have hhandle : Wasm.require (decide (handle ≠ 0 ∧ handle.toNat ≤ wasm.length)) = .ok ⟨⟩ := by
    rw [decide_eq_true ⟨hne, by omega⟩]
    rfl
  have hrecord : Wasm.require (UInt32.ofNat plan.words.length == UInt32.ofNat
      (4 * plan.words.length) / 4 && decide (UInt32.ofNat plan.words.length ≥ 4)) = .ok ⟨⟩ := by
    have hge : UInt32.ofNat plan.words.length ≥ 4 := by
      rw [ge_iff_le, UInt32.le_iff_toNat_le, UInt32.toNat_ofNat', Nat.mod_eq_of_lt (by omega)]
      exact hfour
    rw [hdiv, beq_self_eq_true, decide_eq_true hge]
    rfl
  have hstate : Wasm.require (!reserved.committed && reserved.kind == UInt32.ofNat plan.kind.code) =
      .ok ⟨⟩ := by
    rw [huncommitted, beq_iff_eq.2 hkind]
    rfl
  have hwithin : Wasm.within (Wasm.planOf wasm handle) = .ok reserved := by
    rw [hreserved]
    rfl
  refine ⟨hlen, ?_⟩
  -- What is left is the plan of its kind.
  have hmade : ∀ auxiliary child, plan.words[1]? = some auxiliary → plan.words[3]? = some child →
      (∃ type, (if UInt32.ofNat plan.kind.code = Wasm.kMessage then
          Wasm.messagePlan wasm (wordsToBytes plan.words ++ rest) (UInt32.ofNat auxiliary)
            (UInt32.ofNat plan.words.length) (UInt32.ofNat child)
        else if UInt32.ofNat plan.kind.code = Wasm.kArray then
          Wasm.arrayPlan wasm (UInt32.ofNat auxiliary) (UInt32.ofNat plan.words.length)
            (UInt32.ofNat child)
        else if UInt32.ofNat plan.kind.code = Wasm.kMap then
          Wasm.mapPlan wasm (UInt32.ofNat auxiliary) (UInt32.ofNat plan.words.length)
            (UInt32.ofNat child)
        else .error .refused) = .ok type) →
      ∃ wasm', Wasm.commitPlan wasm (wordsToBytes plan.words ++ rest) handle
        (UInt32.ofNat (4 * plan.words.length)) = .ok wasm' := by
    rintro auxiliary child hauxiliary hchild ⟨type, htype⟩
    refine ⟨wasm.set (handle.toNat - 1) type, ?_⟩
    rw [Wasm.commitPlan]
    refine (bind_of_ok hlength).trans ((bind_of_ok hhandle).trans ?_)
    refine (bind_of_ok (hword hkindWord)).trans ((bind_of_ok (hword hauxiliary)).trans ?_)
    refine (bind_of_ok (hword hlengthWord)).trans
      ((bind_of_ok (hword hchild)).trans ((bind_of_ok hrecord).trans ?_))
    exact (bind_of_ok hwithin).trans ((bind_of_ok hstate).trans (bind_of_ok htype))
  cases plan with
  | message fields =>
    refine hmade _ _ rfl rfl ?_
    rw [length_words_message]
    exact messagePlan_accepts h
  | array valueKind child =>
    refine hmade _ _ rfl rfl ?_
    exact arrayPlan_accepts h
  | map keyKind valueKind child =>
    refine hmade _ _ rfl rfl ?_
    exact mapPlan_accepts h

end ProtoCache.Typescript

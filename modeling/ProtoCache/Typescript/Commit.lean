import ProtoCache.Typescript.Register
import ProtoCache.Typescript.Told

/-!
# Plans that are committed

`compiledSchemaHandle` hands a plan over as words, and the decoder makes a plan of its own of them,
if it accepts them (`commitPlan_gives`). What is there of the other plans stays: they keep their
kinds, and those that are committed stay as they are (`Drives.keeps`).
-/

namespace ProtoCache.Typescript

open Outcome Exceptional
open Wasm (TypePlan FieldPlan)

/-! ## Words of a plan -/

/-- `wordsToBytes`. -/
def wordsToBytes (words : List ℕ) : List UInt8 := bytesOf (words.map UInt32.ofNat)

theorem planWord_eq {ws : List UInt32} {rest : List UInt8} {i : ℕ} {w : UInt32}
    (h : ws[i]? = some w) :
    Wasm.planWord (bytesOf ws ++ rest) i = .ok w := by
  obtain ⟨hlt, rfl⟩ := List.getElem?_eq_some_iff.1 h
  have hlen : (bytesOf ws).length = 4 * ws.length := length_bytesOf ws
  rw [Wasm.planWord, Wasm.load32, List.drop_append_of_le_length (by omega), Nat.mul_comm,
    Wasm.drop_bytesOf, List.drop_eq_getElem_cons hlt, bytesOf_cons, Storage.load_of_le (by simp),
    List.append_assoc, List.take_append_of_le_length (by simp), List.take_of_length_le (by simp)]
  exact congrArg Except.ok (Wasm.ofNat_le_wordBytes _)

theorem Kind.is_ofNat (kind : Kind) : kind.Is (UInt32.ofNat kind.code) := by
  cases kind <;> rfl

/-- The two kinds of a map, in one word. -/
theorem Kind.is_pair (keyKind valueKind : Kind) :
    keyKind.Is (UInt32.ofNat (keyKind.code ||| valueKind.code <<< 8) &&& 0xff) ∧
      valueKind.Is ((UInt32.ofNat (keyKind.code ||| valueKind.code <<< 8) >>> 8) &&& 0xff) := by
  cases keyKind <;> cases valueKind <;> exact ⟨rfl, rfl⟩

/-- What is committed of a field. -/
def plannedField (field : PlanField) : FieldPlan :=
  ⟨UInt32.ofNat field.id, UInt32.ofNat field.kind.code, UInt32.ofNat (field.child.getD noType)⟩

/-- What is committed of a plan, where the kinds of its children are as they should be. -/
def Committed (wasm : List TypePlan) (plan : Plan) (type : TypePlan) : Prop :=
  match plan with
  | .message fields => type.kind = Wasm.kMessage ∧ type.fields = fields.map plannedField ∧
      ∀ field ∈ fields,
        Wasm.validateChild wasm (plannedField field).kind (plannedField field).child = true
  | .array valueKind child => type.kind = Wasm.kArray ∧ valueKind.Is type.valueKind ∧
      type.child = UInt32.ofNat (child.getD noType) ∧
      Wasm.validateChild wasm type.valueKind type.child = true
  | .map keyKind valueKind child =>
    type.kind = Wasm.kMap ∧ (keyKind.Is type.keyKind ∧ Wasm.validKeyKind type.keyKind = true) ∧
      valueKind.Is type.valueKind ∧ type.child = UInt32.ofNat (child.getD noType) ∧
      Wasm.validateChild wasm type.valueKind type.child = true

/-- The words of a field. -/
def fieldWords (field : PlanField) : List UInt32 :=
  [UInt32.ofNat field.id, UInt32.ofNat field.kind.code, UInt32.ofNat (field.child.getD noType)]

theorem length_fieldWords (fields : List PlanField) :
    (fields.flatMap fieldWords).length = fields.length * 3 := by
  induction fields with
  | nil => rfl
  | cons field fields ih =>
    rw [List.flatMap_cons, List.length_append, ih, List.length_cons, Nat.succ_mul, Nat.add_comm]
    rfl

/-- The words of a field are behind those of the fields before it. -/
theorem fieldWords_get {head : List UInt32} (hhead : head.length = 4) (done : List PlanField)
    (field : PlanField) (fields : List PlanField) (k : ℕ) (w : UInt32)
    (hw : (fieldWords field)[k]? = some w) :
    (head ++ (done ++ field :: fields).flatMap fieldWords)[4 + k + done.length * 3]? = some w := by
  obtain ⟨hlt, -⟩ := List.getElem?_eq_some_iff.1 hw
  rw [List.getElem?_append_right (by omega), hhead, List.flatMap_append, List.flatMap_cons,
    List.getElem?_append_right (by rw [length_fieldWords]; omega), length_fieldWords,
    List.getElem?_append_left (by omega), ← hw]
  congr 1
  omega

/-- The loop over the fields, once those in `done` are there. -/
theorem planFields_gives {head : List UInt32} (hhead : head.length = 4) {rest : List UInt8}
    (done fields : List PlanField) :
    Wasm.Gives (fun planned => planned = fields.map plannedField)
      (Wasm.planFields (bytesOf (head ++ (done ++ fields).flatMap fieldWords) ++ rest) fields.length
        done.length) := by
  induction fields generalizing done with
  | nil => exact ensures_pure.2 rfl
  | cons field fields ih =>
    have hget := fieldWords_get hhead done field fields
    have hnext := ih (done ++ [field])
    rw [List.append_assoc, List.length_append, List.length_singleton] at hnext
    rw [List.length_cons, Wasm.planFields, planWord_eq (hget 0 _ rfl), planWord_eq (hget 1 _ rfl),
      planWord_eq (hget 2 _ rfl)]
    refine Ensures.bind_eq rfl (Ensures.bind_eq rfl (Ensures.bind_eq rfl ?_))
    refine (Wasm.require_gives _).bind fun _ _ => hnext.bind fun planned hplanned =>
      ensures_pure.2 ?_
    rw [hplanned]
    rfl

/-- What is in place of a plan that was reserved, once it is committed. -/
structure Gets (wasm : List TypePlan) (plan : Plan) (handle : UInt32) (type : TypePlan) : Prop where
  reserved : ∃ reserved, Wasm.planOf wasm handle = some reserved ∧ reserved.committed = false ∧
    type.kind = reserved.kind
  committed : type.committed = true
  plan : Committed wasm plan type

theorem words_message (fields : List PlanField) :
    (Plan.message fields).words.map UInt32.ofNat =
      [UInt32.ofNat Kind.message.code, UInt32.ofNat fields.length,
        UInt32.ofNat (4 + fields.length * 3), UInt32.ofNat noType] ++
        fields.flatMap fieldWords := by
  rw [Plan.words, List.map_append, List.map_flatMap]
  rfl

/-- The plan of a message, from its words. -/
theorem messagePlan_gives {wasm : List TypePlan} {fields : List PlanField} {rest : List UInt8}
    {recordWords child : UInt32} (hlen : fields.length < 2 ^ 32) :
    Wasm.Gives (fun type => type.kind = Wasm.kMessage ∧ type.committed = true ∧
      Committed wasm (.message fields) type)
      (Wasm.messagePlan wasm (wordsToBytes (Plan.message fields).words ++ rest)
        (UInt32.ofNat fields.length) recordWords child) := by
  have hfields := @planFields_gives [UInt32.ofNat Kind.message.code, UInt32.ofNat fields.length,
    UInt32.ofNat (4 + fields.length * 3), UInt32.ofNat noType] rfl rest [] fields
  rw [List.nil_append, ← words_message] at hfields
  rw [Wasm.messagePlan, UInt32.toNat_ofNat', Nat.mod_eq_of_lt hlen, wordsToBytes]
  refine (Wasm.require_gives _).bind fun _ _ => hfields.bind fun planned hplanned => ?_
  subst hplanned
  refine (Wasm.gives_true _).bind fun byId _ => (Wasm.require_gives _).bind fun _ hchildren =>
    ensures_pure.2 ?_
  refine ⟨rfl, rfl, rfl, rfl, fun field hfield => ?_⟩
  exact List.all_eq_true.1 hchildren _ (List.mem_map_of_mem hfield)

/-- The plan of an array, from its words. -/
theorem arrayPlan_gives {wasm : List TypePlan} {valueKind : Kind} {child : Option ℕ}
    {recordWords : UInt32} :
    Wasm.Gives (fun type => type.kind = Wasm.kArray ∧ type.committed = true ∧
      Committed wasm (.array valueKind child) type)
      (Wasm.arrayPlan wasm (UInt32.ofNat valueKind.code) recordWords
        (UInt32.ofNat (child.getD noType))) := by
  rw [Wasm.arrayPlan]
  refine (Wasm.require_gives _).bind fun _ _ => (Wasm.require_gives _).bind fun _ _ => ?_
  refine (Wasm.require_gives _).bind fun _ hchild => ensures_pure.2 ?_
  exact ⟨rfl, rfl, rfl, valueKind.is_ofNat, rfl, hchild⟩

/-- The plan of a map, from its words. -/
theorem mapPlan_gives {wasm : List TypePlan} {keyKind valueKind : Kind} {child : Option ℕ}
    {recordWords : UInt32} :
    Wasm.Gives (fun type => type.kind = Wasm.kMap ∧ type.committed = true ∧
      Committed wasm (.map keyKind valueKind child) type)
      (Wasm.mapPlan wasm (UInt32.ofNat (keyKind.code ||| valueKind.code <<< 8)) recordWords
        (UInt32.ofNat (child.getD noType))) := by
  rw [Wasm.mapPlan]
  refine (Wasm.require_gives _).bind fun _ hkinds => (Wasm.require_gives _).bind fun _ _ => ?_
  refine (Wasm.require_gives _).bind fun _ hchild => ensures_pure.2 ?_
  rw [Bool.and_eq_true, Bool.and_eq_true] at hkinds
  obtain ⟨hkey, hvalue⟩ := Kind.is_pair keyKind valueKind
  exact ⟨rfl, rfl, rfl, ⟨hkey, hkinds.1.2⟩, hvalue, rfl, hchild⟩

/-- What the decoder makes of the words of a plan. -/
theorem commitPlan_gives {wasm : List TypePlan} {plan : Plan} {rest : List UInt8} {handle : UInt32}
    (hlen : 4 * plan.words.length < 2 ^ 32) :
    Wasm.Gives (fun wasm' => ∃ type, Gets wasm plan handle type ∧
      wasm' = wasm.set (handle.toNat - 1) type)
      (Wasm.commitPlan wasm (wordsToBytes plan.words ++ rest) handle
        (UInt32.ofNat (4 * plan.words.length))) := by
  have hword : ∀ (i : ℕ) w, (plan.words.map UInt32.ofNat)[i]? = some w →
      Wasm.planWord (wordsToBytes plan.words ++ rest) i = .ok w := fun i w h => planWord_eq h
  rw [Wasm.commitPlan]
  refine (Wasm.require_gives _).bind fun _ _ => (Wasm.require_gives _).bind fun _ _ => ?_
  -- Whatever the plan is made of its words, the reserved one is of its kind and becomes it.
  have hgets : ∀ (kind : UInt32) (made : Wasm.Run TypePlan),
      Wasm.Gives (fun type => type.kind = kind ∧ type.committed = true ∧ Committed wasm plan type)
        made →
      Wasm.Gives (fun wasm' => ∃ type, Gets wasm plan handle type ∧
        wasm' = wasm.set (handle.toNat - 1) type) (do
        let reserved ← Wasm.within (Wasm.planOf wasm handle)
        Wasm.require (!reserved.committed && reserved.kind == kind)
        let type ← made
        return wasm.set (handle.toNat - 1) type) := by
    intro kind made hmade
    refine (Wasm.within_gives _).bind fun reserved hreserved =>
      (Wasm.require_gives _).bind fun _ hkind => ?_
    rw [Bool.and_eq_true, Bool.not_eq_true', beq_iff_eq] at hkind
    refine hmade.bind fun type htype =>
      ensures_pure.2 ⟨type, ⟨⟨reserved, hreserved, hkind.1, ?_⟩, htype.2.1, htype.2.2⟩, rfl⟩
    rw [htype.1, hkind.2]
  cases plan with
  | message fields =>
    refine Ensures.bind_eq (hword 0 _ rfl) (Ensures.bind_eq (hword 1 _ rfl) ?_)
    refine Ensures.bind_eq (hword 2 _ rfl) (Ensures.bind_eq (hword 3 _ rfl) ?_)
    have hfields : fields.length < 2 ^ 32 := by
      rw [← List.length_map UInt32.ofNat, words_message, List.length_append,
        length_fieldWords] at hlen
      omega
    refine (Wasm.require_gives _).bind fun _ _ => hgets Wasm.kMessage _ ?_
    rw [if_pos (show UInt32.ofNat Kind.message.code = Wasm.kMessage from rfl)]
    exact messagePlan_gives hfields
  | array valueKind child =>
    refine Ensures.bind_eq (hword 0 _ rfl) (Ensures.bind_eq (hword 1 _ rfl) ?_)
    refine Ensures.bind_eq (hword 2 _ rfl) (Ensures.bind_eq (hword 3 _ rfl) ?_)
    refine (Wasm.require_gives _).bind fun _ _ => hgets Wasm.kArray _ ?_
    rw [if_neg (show UInt32.ofNat Kind.array.code ≠ Wasm.kMessage by decide),
      if_pos (show UInt32.ofNat Kind.array.code = Wasm.kArray from rfl)]
    exact arrayPlan_gives
  | map keyKind valueKind child =>
    refine Ensures.bind_eq (hword 0 _ rfl) (Ensures.bind_eq (hword 1 _ rfl) ?_)
    refine Ensures.bind_eq (hword 2 _ rfl) (Ensures.bind_eq (hword 3 _ rfl) ?_)
    refine (Wasm.require_gives _).bind fun _ _ => hgets Wasm.kMap _ ?_
    rw [if_neg (show UInt32.ofNat Kind.map.code ≠ Wasm.kMessage by decide),
      if_neg (show UInt32.ofNat Kind.map.code ≠ Wasm.kArray by decide),
      if_pos (show UInt32.ofNat Kind.map.code = Wasm.kMap from rfl)]
    exact mapPlan_gives

/-! ## Plans that stay -/

/-- Plans keep their kinds, and those that are committed stay as they are. -/
def Keeps (wasm wasm' : List TypePlan) : Prop :=
  ∀ handle type, Wasm.planOf wasm handle = some type →
  ∃ type', Wasm.planOf wasm' handle = some type' ∧ type'.kind = type.kind ∧
    (type.committed = true → type' = type)

theorem Keeps.refl (wasm : List TypePlan) : Keeps wasm wasm :=
  fun _ type h => ⟨type, h, rfl, fun _ => rfl⟩

theorem Keeps.trans {wasm wasm' wasm'' : List TypePlan} (h : Keeps wasm wasm')
    (h' : Keeps wasm' wasm'') :
    Keeps wasm wasm'' := by
  intro handle type htype
  obtain ⟨type', htype', hkind, hsame⟩ := h handle type htype
  obtain ⟨type'', htype'', hkind', hsame'⟩ := h' handle type' htype'
  refine ⟨type'', htype'', hkind'.trans hkind, fun hcommitted => ?_⟩
  rw [hsame hcommitted] at hsame'
  exact hsame' hcommitted

/-- A child of a kind is of that kind from then on. -/
theorem Keeps.validateChild {wasm wasm' : List TypePlan} (h : Keeps wasm wasm')
    {kind child : UInt32} (hchild : Wasm.validateChild wasm kind child = true) :
    Wasm.validateChild wasm' kind child = true := by
  rw [Wasm.validateChild, Bool.or_eq_true] at hchild ⊢
  refine hchild.imp_right fun hchild => ?_
  rcases htype : Wasm.planOf wasm child with _ | type
  · rw [htype] at hchild
    cases hchild
  · obtain ⟨type', htype', hkind, -⟩ := h child type htype
    rw [htype] at hchild
    rw [htype']
    simpa [hkind] using hchild

/-- What is committed stays. -/
theorem Keeps.plan {wasm wasm' : List TypePlan} (h : Keeps wasm wasm') {plan : Plan}
    {type : TypePlan} (hplan : Committed wasm plan type) : Committed wasm' plan type := by
  cases plan with
  | message fields =>
    exact ⟨hplan.1, hplan.2.1, fun field hfield => h.validateChild (hplan.2.2 field hfield)⟩
  | array valueKind child => exact ⟨hplan.1, hplan.2.1, hplan.2.2.1, h.validateChild hplan.2.2.2⟩
  | map keyKind valueKind child =>
    exact ⟨hplan.1, hplan.2.1, hplan.2.2.1, hplan.2.2.2.1, h.validateChild hplan.2.2.2.2⟩

/-- A plan with a place of its own. -/
theorem planOf_lt {wasm : List TypePlan} {handle : UInt32} {type : TypePlan}
    (h : Wasm.planOf wasm handle = some type) :
    handle ≠ 0 ∧ handle.toNat - 1 < wasm.length ∧ wasm[handle.toNat - 1]? = some type := by
  rw [Wasm.planOf] at h
  split at h
  · cases h
  · next hne => exact ⟨hne, (List.getElem?_eq_some_iff.1 h).1, h⟩

/-- The plan that a handle above all others gets. -/
theorem planOf_append (wasm : List TypePlan) (type : TypePlan) (hlt : wasm.length + 1 < 2 ^ 32) :
    Wasm.planOf (wasm ++ [type]) (UInt32.ofNat (wasm.length + 1)) = some type := by
  have htoNat : (UInt32.ofNat (wasm.length + 1)).toNat = wasm.length + 1 := by
    rw [UInt32.toNat_ofNat', Nat.mod_eq_of_lt hlt]
  have hne : UInt32.ofNat (wasm.length + 1) ≠ 0 := by
    intro hzero
    rw [hzero] at htoNat
    cases htoNat
  rw [Wasm.planOf, if_neg hne, htoNat, Nat.add_sub_cancel, List.getElem?_concat_length]

theorem planOf_prefix {wasm wasm' : List TypePlan} (h : wasm <+: wasm') {handle : UInt32}
    {type : TypePlan} (htype : Wasm.planOf wasm handle = some type) :
    Wasm.planOf wasm' handle = some type := by
  obtain ⟨hne, hlt, hget⟩ := planOf_lt htype
  obtain ⟨rest, rfl⟩ := h
  rw [Wasm.planOf, if_neg hne, List.getElem?_append_left hlt, hget]

theorem keeps_reserve {wasm wasm' : List TypePlan} {kind : UInt32}
    (h : Wasm.schemaReserve wasm kind = .ok wasm') :
    Keeps wasm wasm' := by
  have hgives : Wasm.Gives (Keeps wasm) (Wasm.schemaReserve wasm kind) := by
    refine (Wasm.require_gives _).bind fun _ _ => ensures_pure.2 fun handle type htype => ?_
    exact ⟨type, planOf_prefix (List.prefix_append _ _) htype, rfl, fun _ => rfl⟩
  exact hgives.of_ok h

theorem Gets.keeps {wasm : List TypePlan} {plan : Plan} {handle : UInt32} {type : TypePlan}
    (h : Gets wasm plan handle type) :
    Keeps wasm (wasm.set (handle.toNat - 1) type) ∧
      Wasm.planOf (wasm.set (handle.toNat - 1) type) handle = some type := by
  obtain ⟨reserved, hreserved, huncommitted, hkind⟩ := h.reserved
  obtain ⟨hne, hlt, hget⟩ := planOf_lt hreserved
  have hself : Wasm.planOf (wasm.set (handle.toNat - 1) type) handle = some type := by
    rw [Wasm.planOf, if_neg hne, List.getElem?_set_self hlt]
  refine ⟨fun handle' type' htype' => ?_, hself⟩
  rcases eq_or_ne handle' handle with rfl | hother
  · rw [hreserved] at htype'
    cases htype'
    refine ⟨type, hself, hkind, fun hcommitted => ?_⟩
    rw [huncommitted] at hcommitted
    cases hcommitted
  · obtain ⟨hne', hlt', hget'⟩ := planOf_lt htype'
    refine ⟨type', ?_, rfl, fun _ => rfl⟩
    -- Handles count from 1, so that other handles have other places.
    have hplace : handle.toNat - 1 ≠ handle'.toNat - 1 := by
      intro heq
      have hpos : ∀ h : UInt32, h ≠ 0 → 0 < h.toNat := fun h hne =>
        Nat.pos_of_ne_zero fun hzero => hne (UInt32.toNat_inj.1 hzero)
      have := hpos handle hne
      have := hpos handle' hne'
      exact hother (UInt32.toNat_inj.1 (by omega))
    rw [Wasm.planOf, if_neg hne', List.getElem?_set_ne hplace, hget']

/-! ## Calls of the decoder -/

/-- What a call has the decoder do: it reserves handles, and commits plans in this order. The plan
    buffer may be larger than the words of a plan, and the length of these fits in 32 bits. The
    decoder has memory for fewer than 2^32 plans. -/
inductive Drives : List (ℕ × Plan) → List TypePlan → List TypePlan → Prop
  | nil {wasm : List TypePlan} : Drives [] wasm wasm
  | reserve {commits : List (ℕ × Plan)} {wasm wasm' wasm'' : List TypePlan} {kind : Kind}
      (h : Wasm.schemaReserve wasm (UInt32.ofNat kind.code) = .ok wasm')
        (hmemory : wasm'.length < 2 ^ 32)
      (hrest : Drives commits wasm' wasm'') : Drives commits wasm wasm''
  | commit {handle : ℕ} {plan : Plan} {commits : List (ℕ × Plan)}
      {wasm wasm' wasm'' : List TypePlan} {rest : List UInt8}
      (hlen : 4 * plan.words.length < 2 ^ 32)
      (h : Wasm.commitPlan wasm (wordsToBytes plan.words ++ rest) (UInt32.ofNat handle)
        (UInt32.ofNat (4 * plan.words.length)) = .ok wasm')
      (hrest : Drives commits wasm' wasm'') : Drives ((handle, plan) :: commits) wasm wasm''

theorem Drives.trans {commits commits' : List (ℕ × Plan)} {wasm wasm' wasm'' : List TypePlan}
    (h : Drives commits wasm wasm') (h' : Drives commits' wasm' wasm'') :
    Drives (commits ++ commits') wasm wasm'' := by
  induction h with
  | nil => exact h'
  | reserve hreserve hmemory _ ih => exact .reserve hreserve hmemory (ih h')
  | commit hlen hcommit _ ih => exact .commit hlen hcommit (ih h')

theorem Drives.reachable {commits : List (ℕ × Plan)} {wasm wasm' : List TypePlan}
    (h : Drives commits wasm wasm') (hwasm : Wasm.Reachable wasm) : Wasm.Reachable wasm' := by
  induction h with
  | nil => exact hwasm
  | reserve h _ _ ih => exact ih (hwasm.reserve h)
  | commit _ h _ ih => exact ih (hwasm.commit h)

theorem Drives.length_lt {commits : List (ℕ × Plan)} {wasm wasm' : List TypePlan}
    (h : Drives commits wasm wasm') (hwasm : wasm.length < 2 ^ 32) : wasm'.length < 2 ^ 32 := by
  induction h with
  | nil => exact hwasm
  | reserve _ hmemory _ ih => exact ih hmemory
  | commit hlen h _ ih =>
    obtain ⟨type, -, rfl⟩ := (commitPlan_gives hlen).of_ok h
    exact ih (by rwa [List.length_set])

/-- Plans that are there stay. -/
theorem Drives.keeps {commits : List (ℕ × Plan)} {wasm wasm' : List TypePlan}
    (h : Drives commits wasm wasm') :
    Keeps wasm wasm' := by
  induction h with
  | nil => exact .refl _
  | reserve h _ _ ih => exact (keeps_reserve h).trans ih
  | commit hlen h _ ih =>
    obtain ⟨type, hgets, rfl⟩ := (commitPlan_gives hlen).of_ok h
    exact hgets.keeps.1.trans ih

/-- The plans that were committed are there. -/
theorem Drives.committed {commits : List (ℕ × Plan)} {wasm wasm' : List TypePlan}
    (h : Drives commits wasm wasm') {handle : ℕ} {plan : Plan} (hmem : (handle, plan) ∈ commits) :
    ∃ type, Wasm.planOf wasm' (UInt32.ofNat handle) = some type ∧ type.committed = true ∧
      Committed wasm' plan type := by
  induction h with
  | nil => cases hmem
  | reserve _ _ _ ih => exact ih hmem
  | commit hlen h hrest ih =>
    obtain ⟨type, hgets, rfl⟩ := (commitPlan_gives hlen).of_ok h
    rcases List.mem_cons.1 hmem with heq | hmem
    · cases heq
      obtain ⟨hkeeps, hself⟩ := hgets.keeps
      obtain ⟨type', htype', -, hsame⟩ := hrest.keeps _ type hself
      cases hsame hgets.committed
      exact ⟨type, htype', hgets.committed, hrest.keeps.plan (hkeeps.plan hgets.plan)⟩
    · exact ih hmem

end ProtoCache.Typescript

import ProtoCache.ReadBack
import ProtoCache.Wasm.Objects

/-!
# The fields that the decoder records

`VisitMessage` goes once over the widths of all fields of a message, adds them up, and records
where it finds the fields of its plan. `Message::GetField` looks for one field, and counts
the widths before it.

* `Reachable.exact`: the index of a plan leads from the number of a field to the field, and
  nowhere else, however it was committed;
* `recordAll_gives`: what is recorded of each field of the plan is what `GetField` finds.
-/

namespace ProtoCache.Wasm

open LittleEndian Outcome

/-! ## Plans -/

/-- The index of a plan leads to its fields, and each to where it is. -/
structure TypePlan.Exact (plan : TypePlan) : Prop where
  short : plan.fields.length ≤ 6387
  index : ∀ (i : ℕ) field, plan.fields[i]? = some field →
    plan.fieldIndexById[field.id.toNat]? = some (i : ℤ)
  field : ∀ (id : ℕ) index, plan.fieldIndexById[id]? = some index → 0 ≤ index →
    ∃ field, plan.fields[index.toNat]? = some field ∧ field.id.toNat = id

/-- The second loop of `CommitPlan`. -/
theorem indexFields_gives (fields : List FieldPlan) (index : ℕ) (byId : List ℤ) :
    Gives (fun byId' =>
        (∀ (i : ℕ) field, fields[i]? = some field →
          byId'[field.id.toNat]? = some ((index + i : ℕ) : ℤ)) ∧
        (∀ (id : ℕ) value, byId'[id]? = some value → byId[id]? = some value ∨
          ∃ i field, fields[i]? = some field ∧ field.id.toNat = id ∧
            value = ((index + i : ℕ) : ℤ)) ∧
        (∀ (id : ℕ) value, byId[id]? = some value → value ≠ -1 → byId'[id]? = some value))
      (indexFields fields index byId) := by
  induction fields generalizing index byId with
  | nil =>
    exact ensures_pure.2 ⟨fun i field h => (by cases h), fun id value h => .inl h,
      fun id value h _ => h⟩
  | cons field fields ih =>
    rw [indexFields]
    refine (within_gives _).bind fun old hold => (require_gives _).bind fun _ hfree => ?_
    rw [beq_iff_eq] at hfree
    subst hfree
    obtain ⟨hlt, -⟩ := List.getElem?_eq_some_iff.1 hold
    refine (ih _ _).mono fun byId' h => ?_
    obtain ⟨hindex, hback, hkept⟩ := h
    -- A place that was free gets the index, and no later field takes it.
    have hset : (byId.set field.id.toNat (index : ℤ))[field.id.toNat]? = some (index : ℤ) := by
      rw [List.getElem?_set_self hlt]
    refine ⟨fun i f hf => ?_, fun id value hv => ?_, fun id value hv hne => ?_⟩
    · cases i with
      | zero =>
        cases hf
        exact hkept _ _ hset (by omega)
      | succ i =>
        rw [hindex i f hf, Nat.add_right_comm]
        rfl
    · rcases hback id value hv with h | ⟨i, f, hf, hid, rfl⟩
      · by_cases hid : field.id.toNat = id
        · rw [← hid, hset] at h
          cases h
          exact .inr ⟨0, field, rfl, hid, rfl⟩
        · rw [List.getElem?_set_ne hid] at h
          exact .inl h
      · exact .inr ⟨i + 1, f, hf, hid, by rw [Nat.add_right_comm]; rfl⟩
    · refine hkept id value ?_ hne
      by_cases hid : field.id.toNat = id
      · rw [← hid, hold] at hv
        cases hv
        exact absurd rfl hne
      · rwa [List.getElem?_set_ne hid]

theorem planFields_gives (plan : List UInt8) (count index : ℕ) :
    Gives (fun fields => fields.length = count) (planFields plan count index) := by
  induction count generalizing index with
  | zero => exact ensures_pure.2 rfl
  | succ count ih =>
    rw [planFields]
    refine (gives_true _).bind fun id _ => (gives_true _).bind fun kind _ =>
      (gives_true _).bind fun child _ => ?_
    refine (gives_true _).bind fun _ _ => (ih _).bind fun fields hfields => ensures_pure.2 ?_
    rw [List.length_cons, hfields]

theorem exact_of_nil {plan : TypePlan} (hfields : plan.fields = [])
    (hindex : plan.fieldIndexById = []) : plan.Exact where
  short := by
    rw [hfields]
    exact Nat.zero_le _
  index i field h := by
    rw [hfields] at h
    cases h
  field id index h := by
    rw [hindex] at h
    cases h

theorem messagePlan_exact (types : List TypePlan) (plan : List UInt8)
    (auxiliary recordWords child : UInt32) :
    Gives TypePlan.Exact (messagePlan types plan auxiliary recordWords child) := by
  rw [messagePlan]
  refine (require_gives _).bind fun _ hshort => (planFields_gives _ _ _).bind
    fun fields hlength => ?_
  rw [Bool.and_eq_true, decide_eq_true_eq] at hshort
  have hle : fields.length ≤ 6387 := hlength ▸ UInt32.le_iff_toNat_le.1 hshort.2
  refine Ensures.bind (P := fun byId => TypePlan.Exact { fields, fieldIndexById := byId }) ?_
    fun byId hbyId => ?_
  · split
    · next hempty => exact ensures_pure.2 (exact_of_nil (List.isEmpty_iff.1 hempty) rfl)
    · refine (indexFields_gives _ _ _).mono fun byId h =>
        ⟨hle, fun i field hf => ?_, fun id index hi hpos => ?_⟩
      · rw [← Nat.zero_add i]
        exact h.1 i field hf
      · rcases h.2.1 id index hi with hold | ⟨i, field, hf, hid, rfl⟩
        · rw [List.eq_of_mem_replicate (List.mem_of_getElem? hold)] at hpos
          exact absurd hpos (by decide)
        · exact ⟨field, by rw [Nat.zero_add]; exact hf, hid⟩
  · exact (gives_true _).bind fun _ _ => ensures_pure.2 ⟨hbyId.short, hbyId.index, hbyId.field⟩

theorem commitPlan_exact {types : List TypePlan} (h : ∀ plan ∈ types, plan.Exact)
    (plan : List UInt8) (handle length : UInt32) :
    Gives (fun types' => ∀ plan ∈ types', plan.Exact) (commitPlan types plan handle length) := by
  rw [commitPlan]
  refine (gives_true _).bind fun _ _ => (gives_true _).bind fun _ _ =>
    (gives_true _).bind fun kind _ => ?_
  refine (gives_true _).bind fun auxiliary _ => (gives_true _).bind fun recordWords _ => ?_
  refine (gives_true _).bind fun child _ => (gives_true _).bind fun _ _ =>
    (gives_true _).bind fun reserved _ => ?_
  refine (gives_true _).bind fun _ _ => Ensures.bind (P := TypePlan.Exact) ?_
    fun type htype plan' hplan' => ?_
  · split
    · exact messagePlan_exact _ _ _ _ _
    · split
      · exact (gives_true _).bind fun _ _ => (gives_true _).bind fun _ _ =>
          (gives_true _).bind fun _ _ => exact_of_nil rfl rfl
      · split
        · exact (gives_true _).bind fun _ _ => (gives_true _).bind fun _ _ =>
            (gives_true _).bind fun _ _ =>
            exact_of_nil rfl rfl
        · trivial
  · rcases List.mem_or_eq_of_mem_set hplan' with hmem | rfl
    · exact h plan' hmem
    · exact htype

/-- The plans that there can be have an exact index. -/
theorem Reachable.exact {types : List TypePlan} (h : Reachable types) :
    ∀ plan ∈ types, plan.Exact := by
  induction h with
  | empty => exact fun plan hplan => absurd hplan List.not_mem_nil
  | @reserve types types' kind _ hreserve ih =>
    have hgives : Gives (fun types' => ∀ plan ∈ types', plan.Exact) (schemaReserve types kind) := by
      refine (gives_true _).bind fun _ _ plan hplan => ?_
      rcases List.mem_append.1 hplan with hplan | hplan
      · exact ih plan hplan
      · rw [List.mem_singleton.1 hplan]
        exact exact_of_nil rfl rfl
    exact hgives.of_ok hreserve
  | @commit types types' plan handle length _ hcommit ih =>
    exact (commitPlan_exact ih plan handle length).of_ok hcommit

/-! ## Descriptors -/

/-- The words of descriptors. -/
def pairWords (ps : List (ℕ × ℕ)) : List UInt32 :=
  ps.flatMap fun p => [UInt32.ofNat p.1, UInt32.ofNat p.2]

@[simp] theorem length_pairWords (ps : List (ℕ × ℕ)) : (pairWords ps).length = ps.length * 2 := by
  induction ps with
  | nil => rfl
  | cons p ps ih =>
    rw [List.length_cons, Nat.succ_mul, ← ih]
    rfl

theorem pairWords_get {ps : List (ℕ × ℕ)} {i : ℕ} {p : ℕ × ℕ} (h : ps[i]? = some p) :
    (pairWords ps)[i * 2]? = some (UInt32.ofNat p.1) ∧ (pairWords ps)[i * 2 + 1]? =
      some (UInt32.ofNat p.2) := by
  induction ps generalizing i with
  | nil => cases h
  | cons q ps ih =>
    cases i with
    | zero =>
      cases h
      exact ⟨rfl, rfl⟩
    | succ i =>
      rw [Nat.succ_mul]
      exact ih h

theorem pairWords_set (ps : List (ℕ × ℕ)) (i : ℕ) (p : ℕ × ℕ) :
    ((pairWords ps).set (i * 2) (UInt32.ofNat p.1)).set (i * 2 + 1) (UInt32.ofNat p.2) =
      pairWords (ps.set i p) := by
  induction ps generalizing i with
  | nil => rfl
  | cons q ps ih =>
    cases i with
    | zero => rfl
    | succ i =>
      rw [Nat.succ_mul, List.set_cons_succ]
      exact congrArg (fun ws => UInt32.ofNat q.1 :: UInt32.ofNat q.2 :: ws) (ih i)

theorem pairWords_zeros (n : ℕ) :
    pairWords (List.replicate n (0, 0)) = List.replicate (n * 2) 0 := by
  induction n with
  | zero => rfl
  | succ n ih =>
    rw [Nat.succ_mul, List.replicate_succ, List.replicate_succ, List.replicate_succ, ← ih]
    rfl

/-- What is stored to the two words of a descriptor. -/
theorem storePair_gives {base kids : List UInt32} {ps : List (ℕ × ℕ)} {i d : ℕ}
    (hd : d = base.length + i * 2) (hi : i < ps.length) (a b : UInt32) :
    Gives (fun tape => tape = base ++ (pairWords (ps.set i (a.toNat, b.toNat)) ++ kids)) (do
      let tape ← store d a (base ++ (pairWords ps ++ kids))
      store (d + 1) b tape) := by
  subst hd
  have hlen := length_pairWords ps
  rw [store, if_pos (by simp only [List.length_append]; omega)]
  refine Ensures.bind_eq rfl ?_
  rw [store, if_pos (by simp only [List.length_append, List.length_set]; omega),
    List.set_append_right _ _ (by omega), List.set_append_right _ _ (by omega), Nat.add_assoc,
    Nat.add_sub_cancel_left, Nat.add_sub_cancel_left, List.set_append_left _ _ (by omega),
    List.set_append_left _ _ (by rw [List.length_set]; omega)]
  rw [← pairWords_set, UInt32.ofNat_toNat, UInt32.ofNat_toNat]
  rfl

/-- The descriptors of the fields of a plan, by their numbers. -/
def TypePlan.descriptors (plan : TypePlan) (found : ℕ → ℕ × ℕ) : List (ℕ × ℕ) :=
  plan.fields.map fun field => found field.id.toNat

@[simp] theorem TypePlan.length_descriptors (plan : TypePlan) (found : ℕ → ℕ × ℕ) :
    (plan.descriptors found).length = plan.fields.length := List.length_map _

/-- The descriptor of a field is set. -/
theorem TypePlan.Exact.set {plan : TypePlan} (hplan : plan.Exact) (found : ℕ → ℕ × ℕ) {i : ℕ}
    {field : FieldPlan} (hi : plan.fields[i]? = some field) (p : ℕ × ℕ) :
    (plan.descriptors found).set i p = plan.descriptors
      (Function.update found field.id.toNat p) := by
  refine List.ext_getElem? fun j => ?_
  rw [descriptors, descriptors, List.getElem?_map]
  by_cases hj : j = i
  · subst hj
    obtain ⟨hlt, -⟩ := List.getElem?_eq_some_iff.1 hi
    rw [List.getElem?_set_self (by rwa [List.length_map]), hi, Option.map_some,
      Function.update_self]
  · rw [List.getElem?_set_ne (Ne.symm hj), List.getElem?_map]
    cases hf : plan.fields[j]? with
    | none => rfl
    | some field' =>
      have hne : field'.id.toNat ≠ field.id.toNat := by
        intro heq
        have h := hplan.index j field' hf
        rw [heq, hplan.index i field hi] at h
        exact hj (Int.ofNat_inj.1 (Option.some.inj h)).symm
      rw [Option.map_some, Option.map_some, Function.update_of_ne hne]

/-- A number that no field has may have any descriptor. -/
theorem TypePlan.descriptors_update {plan : TypePlan} (found : ℕ → ℕ × ℕ) {id : ℕ}
    (hid : ∀ field : FieldPlan, field ∈ plan.fields → field.id.toNat ≠ id) (p : ℕ × ℕ) :
    plan.descriptors (Function.update found id p) = plan.descriptors found :=
  List.map_congr_left fun field hfield => Function.update_of_ne (hid field hfield) _ _

section

variable {plan : TypePlan} (hplan : plan.Exact) {base : List UInt32} {found : ℕ → ℕ × ℕ}

include hplan

/-- `record` sets the descriptor of the field with a number. -/
theorem record_gives (id wordOffset width : UInt32) :
    Gives (fun tape => tape = base ++
        pairWords
          (plan.descriptors (Function.update found id.toNat (wordOffset.toNat, width.toNat))))
      (record plan base.length id wordOffset width
        (base ++ pairWords (plan.descriptors found))) := by
  have hnone : (∀ (i : ℕ) field, plan.fields[i]? = some field → field.id.toNat ≠ id.toNat) →
      base ++ pairWords (plan.descriptors found) = base ++
        pairWords
          (plan.descriptors (Function.update found id.toNat (wordOffset.toNat, width.toNat))) := by
    intro h
    rw [TypePlan.descriptors_update found fun field hfield => ?_]
    obtain ⟨i, hi⟩ := List.mem_iff_getElem?.1 hfield
    exact h i field hi
  rw [record]
  split
  · next hindex =>
    refine ensures_pure.2 (hnone fun i field hi heq => ?_)
    rw [← heq, hplan.index i field hi] at hindex
    cases hindex
  · next index hindex =>
    split
    · next hneg =>
      refine ensures_pure.2 (hnone fun i field hi heq => ?_)
      rw [← heq, hplan.index i field hi] at hindex
      cases hindex
      omega
    · next hpos =>
      obtain ⟨field, hfield, hid⟩ := hplan.field _ _ hindex (not_lt.1 hpos)
      obtain ⟨hlt, -⟩ := List.getElem?_eq_some_iff.1 hfield
      have hshort := hplan.short
      have htwice : (UInt32.ofNat index.toNat * 2).toNat = index.toNat * 2 := by
        rw [UInt32.toNat_mul, UInt32.toNat_ofNat', show (2 : UInt32).toNat = 2 from rfl,
          Nat.mod_eq_of_lt (a := index.toNat) (by omega), Nat.mod_eq_of_lt (by omega)]
      have hstore := @storePair_gives base [] (plan.descriptors found) index.toNat
        (base.length + (UInt32.ofNat index.toNat * 2).toNat) (by rw [htwice]) (by simpa using hlt)
          wordOffset width
      rw [hplan.set found hfield, hid, List.append_nil, List.append_nil] at hstore
      exact hstore

end

/-! ## Fields of messages -/

/-- The field at a place among the widths that a word packs, behind as many words. -/
def fieldAt (view : List UInt32) (start widths i : ℕ) : Field :=
  if widths / 4 ^ i % 4 = 0 then Field.null
  else if view.length < start + TwoBit.digitSum widths i + widths / 4 ^ i % 4 then Field.null
  else ⟨.at (view.drop (start + TwoBit.digitSum widths i)), widths / 4 ^ i % 4⟩

section

variable {view : List UInt32} {first : UInt32} (hfirst : view.head? = some first)

include hfirst

/-- `GetField`, of the fields that the first word is for. -/
theorem getField_head {id : ℕ} (hid : id < 12) :
    getField true view id =
      .ok (fieldAt view (1 + (first &&& 0xff).toNat * 2) (first >>> 8).toNat id) := by
  have hoff : count32 ((first >>> 8) &&& ~~~((0xffffffff : UInt32) <<< UInt32.ofNat (id * 2))) =
      TwoBit.digitSum (first >>> 8).toNat id := by
    rw [count32_eq, low32 _ (by omega), Nat.mul_comm, pow_mul]
    exact TwoBit.digitSum_mod _ (by omega)
  rw [getField, hfirst, access_some, Res.ok_bind]
  dsimp only
  rw [if_pos hid, digit32 _ (by omega), hoff, fieldAt]
  split
  · rfl
  · rw [Ptr.exceeds, Bool.true_and]
    simp only [decide_eq_true_eq]
    split
    · rfl
    · rfl

/-- `GetField`, of the fields that a section is for. -/
theorem getField_section {a b : ℕ} (ha : a < (first &&& 0xff).toNat) (hb : b < 25)
    {low high : UInt32} (hlow : view[1 + 2 * a]? = some low)
    (hhigh : view[2 + 2 * a]? = some high) :
    getField true view (12 + 25 * a + b) =
      .ok (fieldAt view (1 + (first &&& 0xff).toNat * 2 + (high >>> 18).toNat)
      (low.toNat + 2 ^ 32 * high.toNat) b) := by
  have hlt := low.toNat_lt
  have hlt' := high.toNat_lt
  obtain ⟨vec, hvec⟩ : ∃ vec : UInt64, low.toUInt64 ||| high.toUInt64 <<< 32 = vec := ⟨_, rfl⟩
  have hnat : vec.toNat = low.toNat + 2 ^ 32 * high.toNat := by
    have hor := Nat.two_pow_add_eq_or_of_lt low.toNat_lt high.toNat
    rw [← hvec, UInt64.toNat_or, UInt64.toNat_shiftLeft, UInt32.toNat_toUInt64,
      UInt32.toNat_toUInt64, show (32 : UInt64).toNat % 64 = 32 from rfl, Nat.shiftLeft_eq,
      Nat.mod_eq_of_lt (by omega), Nat.or_comm, Nat.mul_comm, ← hor, Nat.add_comm]
  have hshift : (vec >>> 50).toNat = (high >>> 18).toNat := by
    rw [UInt64.toNat_shiftRight, UInt32.toNat_shiftRight, hnat,
      show (50 : UInt64).toNat % 64 = 50 from rfl, show (18 : UInt32).toNat % 32 = 18 from rfl,
      Nat.shiftRight_eq_div_pow, Nat.shiftRight_eq_div_pow]
    omega
  have hoff : count64 (vec &&& ~~~((0xffffffffffffffff : UInt64) <<< UInt64.ofNat (b * 2))) =
      TwoBit.digitSum vec.toNat b := by
    rw [count64_eq, low64 _ (by omega), Nat.mul_comm, pow_mul]
    exact TwoBit.digitSum_mod _ (by omega)
  rw [getField, hfirst, access_some, Res.ok_bind]
  dsimp only
  rw [if_neg (by omega), show (12 + 25 * a + b - 12) / 25 = a by omega,
    show (12 + 25 * a + b - 12) % 25 = b by omega, if_neg (by omega), sectionWord, hlow, hhigh,
    access_some, access_some, Res.ok_bind, Res.ok_bind, hvec, Res.pure_eq, Res.ok_bind, digit64 _
    (by omega), hoff, hshift, hnat, fieldAt, Nat.add_comm (TwoBit.digitSum _ _), ← Nat.add_assoc]
  split
  · rfl
  · rw [Ptr.exceeds, Bool.true_and]
    simp only [decide_eq_true_eq]
    split
    · rfl
    · rfl

/-- `GetField`, of the fields that there is no section for. -/
theorem getField_beyond {id : ℕ} (hid : 12 + 25 * (first &&& 0xff).toNat ≤ id) :
    getField true view id = .ok Field.null := by
  rw [getField, hfirst, access_some, Res.ok_bind]
  dsimp only
  rw [if_neg (by omega), if_pos (by omega)]
  rfl

end

/-- What is recorded of a field: nothing, or where `GetField` finds it. -/
def Recorded (W view : List UInt32) (id : ℕ) (p : ℕ × ℕ) : Prop :=
  p = (0, 0) ∧ getField true view id = .ok Field.null ∨
    p.1 ≠ 0 ∧ p.2 ≠ 0 ∧ p.1 + p.2 ≤ W.length ∧ getField true view id = .ok ⟨.at (W.drop p.1), p.2⟩

/-- The descriptors have what was recorded of the fields with some numbers, and nothing else. -/
def Found (plan : TypePlan) (base W view : List UInt32) (done : ℕ → Prop) (tape : List UInt32) :
    Prop :=
  ∃ found : ℕ → ℕ × ℕ, tape = base ++ pairWords (plan.descriptors found) ∧
    (∀ id, done id → Recorded W view id (found id)) ∧ ∀ id, ¬done id → found id = (0, 0)

theorem Found.congr {plan : TypePlan} {base W view tape : List UInt32} {done done' : ℕ → Prop}
    (h : Found plan base W view done tape) (hdone : ∀ id, done id ↔ done' id) :
    Found plan base W view done' tape := by
  rwa [← funext fun id => propext (hdone id)]

section

variable {plan : TypePlan} (hplan : plan.Exact) {base W : List UInt32} (hW : W.length < 2 ^ 30)
  {location : Location} (hin : location.In W)

include hplan hin

/-- A step over a field. -/
theorem recordField_gives (start widths i : ℕ) {body id width : UInt32} {s : UInt32 × List UInt32}
    {done : ℕ → Prop} (hs : Found plan base W (location.view W) done s.2) (hnew : ¬done id.toNat)
    (hstart : 1 ≤ start)
    (hoff : body.toNat + s.1.toNat = location.wordOffset.toNat + start + TwoBit.digitSum widths i)
    (hsmall : body.toNat + s.1.toNat + 3 < 2 ^ 32) (hwidth : width.toNat = widths / 4 ^ i % 4)
    (hget : getField true (location.view W) id.toNat =
      .ok (fieldAt (location.view W) start widths i)) :
    Gives (fun s' => s'.1.toNat = s.1.toNat + width.toNat ∧
        Found plan base W (location.view W) (fun id' => done id' ∨ id' = id.toNat) s'.2)
      (recordField plan location body base.length id width s) := by
  obtain ⟨found, htape, hdone, hother⟩ := hs
  have hlt := hin.lt
  have hle := hin.le
  rw [recordField]
  split
  · next hne =>
    have hne : width.toNat ≠ 0 := fun h => hne (UInt32.toNat_inj.1 h)
    refine (require_gives _).bind fun _ hroom => ?_
    -- The field is behind those in front of it, and its descriptor is the first one that is set
    -- for its number.
    have hsum : (body + s.1).toNat = body.toNat + s.1.toNat := by
      rw [UInt32.toNat_add, Nat.mod_eq_of_lt (by omega)]
    rw [requireWords_iff, hsum, UInt32.toNat_toUInt64] at hroom
    rw [htape]
    refine (record_gives hplan id (body + s.1) width).bind fun tape' htape' =>
      ensures_pure.2 ⟨?_, ?_⟩
    · change (s.1 + width).toNat = _
      rw [UInt32.toNat_add, Nat.mod_eq_of_lt (by omega)]
    · refine ⟨_, htape', fun id' hid' => ?_, fun id' hid' => ?_⟩
      · by_cases heq : id' = id.toNat
        · subst heq
          rw [Function.update_self]
          refine .inr ⟨by rw [hsum]; omega, hne, by rw [hsum]; omega, ?_⟩
          have hview : (location.view W).length = W.length - location.wordOffset.toNat :=
            List.length_drop
          rw [hget, fieldAt, if_neg (by omega), if_neg (by omega), hsum, hoff, hwidth,
            Location.view, List.drop_drop, Nat.add_assoc]
        · rw [Function.update_of_ne heq]
          exact hdone id' (hid'.resolve_right heq)
      · rw [not_or] at hid'
        rw [Function.update_of_ne hid'.2]
        exact hother id' hid'.1
  · next hzero =>
    -- A field of no width is not recorded, and is not found.
    rw [not_not] at hzero
    subst hzero
    refine ensures_pure.2 ⟨rfl, found, htape, fun id' hid' => ?_,
      fun id' hid' => hother id' fun h => hid' (.inl h)⟩
    rcases hid' with hid' | rfl
    · exact hdone id' hid'
    · rw [hother _ hnew]
      have hwidth : widths / 4 ^ i % 4 = 0 := hwidth.symm
      exact .inl ⟨rfl, by rw [hget, fieldAt, if_pos hwidth]⟩

/-- A loop over the fields that a word packs the widths of. -/
theorem recordFields_gives (start widths id₀ : ℕ) {body offset : UInt32} {tape : List UInt32}
    {done : ℕ → Prop} {n : ℕ} {idOf widthOf : ℕ → UInt32}
    (hs : Found plan base W (location.view W) done tape) (hnew : ∀ j < n, ¬done (id₀ + j))
    (hstart : 1 ≤ start) (hoff : body.toNat + offset.toNat = location.wordOffset.toNat + start)
    (hsmall : body.toNat + offset.toNat + 3 * n < 2 ^ 32) (hid : ∀ j < n, (idOf j).toNat = id₀ + j)
    (hwidth : ∀ j < n, (widthOf j).toNat = widths / 4 ^ j % 4)
    (hget : ∀ j < n, getField true (location.view W) (id₀ + j) =
      .ok (fieldAt (location.view W) start widths j)) :
    Gives (fun s => Found plan base W (location.view W)
      (fun id => done id ∨ id₀ ≤ id ∧ id < id₀ + n) s.2)
      ((List.range n).foldlM
        (fun s j => recordField plan location body base.length (idOf j) (widthOf j) s)
        (offset, tape)) := by
  refine (Ensures.foldlM_range (I := fun k s => s.1.toNat = offset.toNat + TwoBit.digitSum widths
      k ∧ Found plan base W (location.view W) (fun id => done id ∨ id₀ ≤ id ∧ id < id₀ + k) s.2) ?_
    fun k hk s hs => ?_).mono
      fun s hs => hs.2
  · exact ⟨rfl, hs.congr fun id => (or_iff_left (by omega)).symm⟩
  · obtain ⟨hsum, hfound⟩ := hs
    have hdigits := TwoBit.digitSum_le widths k
    refine (recordField_gives hplan hin start widths k hfound ?_ hstart (by omega) (by omega)
      (hwidth k hk) (by rw [hid k hk]; exact hget k hk)).mono fun s' hs' => ?_
    · rw [hid k hk]
      exact fun h => h.elim (hnew k hk) (by omega)
    · obtain ⟨hsum', hfound'⟩ := hs'
      refine ⟨?_, hfound'.congr fun id => ?_⟩
      · rw [hsum', hsum, TwoBit.digitSum, hwidth k hk, Nat.add_assoc]
      · rw [hid k hk, or_assoc]
        exact or_congr_right (by omega)

omit hplan hin in
/-- The width of a field in a section, of which the decoder has the halves. -/
theorem section_digit (low high : UInt32) {index : ℕ} (h : index < 25) :
    (if UInt32.ofNat index * 2 < 32 then low >>> (UInt32.ofNat index * 2) &&& 3
      else high >>> (UInt32.ofNat index * 2 - 32) &&& 3).toNat =
        (low.toNat + 2 ^ 32 * high.toNat) / 4 ^ index % 4 := by
  have hlt := low.toNat_lt
  have hshift : UInt32.ofNat index * 2 = UInt32.ofNat (index * 2) := (UInt32.ofNat_mul _ _).symm
  have hnat : (UInt32.ofNat (index * 2)).toNat = index * 2 := by
    rw [UInt32.toNat_ofNat', Nat.mod_eq_of_lt (by omega)]
  rw [hshift]
  have hcase : UInt32.ofNat (index * 2) < 32 ↔ index < 16 := by
    rw [UInt32.lt_iff_toNat_lt, hnat, show (32 : UInt32).toNat = 32 from rfl]
    omega
  by_cases hi : index < 16
  · rw [if_pos (hcase.2 hi), digit32 _ hi,
      show 2 ^ 32 * high.toNat = 4 ^ (index + 1) * (4 ^ (15 - index) * high.toNat) by
      rw [← Nat.mul_assoc, ← pow_add, show index + 1 + (15 - index) = 16 by omega]; rfl]
    rw [← Nat.mod_mul_right_div_self, ← Nat.mod_mul_right_div_self, ← pow_succ,
      Nat.add_mul_mod_self_left]
  · have hsub : UInt32.ofNat (index * 2) - 32 = UInt32.ofNat ((index - 16) * 2) := by
      refine UInt32.toNat_inj.1 ?_
      have h32 : (32 : UInt32) ≤ UInt32.ofNat (index * 2) := UInt32.le_iff_toNat_le.2 (by
        rw [hnat, show (32 : UInt32).toNat = 32 from rfl]
        omega)
      rw [UInt32.toNat_sub_of_le _ _ h32, hnat, UInt32.toNat_ofNat',
        show (32 : UInt32).toNat = 32 from rfl, Nat.mod_eq_of_lt (by omega)]
      omega
    rw [if_neg fun h => hi (hcase.1 h), hsub, digit32 _ (by omega), show 4 ^ index = 2 ^ 32 * 4 ^
      (index - 16) by rw [show 2 ^ 32 = 4 ^ 16 from rfl, ← pow_add, Nat.add_sub_cancel' (by omega)],
      ← Nat.div_div_eq_div_mul, Nat.add_mul_div_left _ _ (by decide), Nat.div_eq_of_lt hlt,
      Nat.zero_add]

include hW

variable {first : UInt32} (hfirst : (location.view W).head? = some first) {body : UInt32}
  (hbody : body.toNat = location.wordOffset.toNat + (1 + (first &&& 0xff).toNat * 2))

omit hplan hin hW in
/-- There are no more than 255 sections. -/
theorem sections_lt (first : UInt32) : (first &&& 0xff).toNat < 256 := by
  rw [UInt32.toNat_and]
  exact Nat.and_lt_two_pow _ (by decide : (0xff : UInt32).toNat < 2 ^ 8)

include hfirst hbody

/-- The fields of a section. -/
theorem recordSection_gives {tape : List UInt32} {done : ℕ → Prop} {section_ : ℕ}
    (hsection : section_ < (first &&& 0xff).toNat)
    (hs : Found plan base W (location.view W) done tape)
    (hnew : ∀ j < 25, ¬done (12 + 25 * section_ + j)) :
    Gives (Found plan base W (location.view W) fun id =>
        done id ∨ 12 + 25 * section_ ≤ id ∧ id < 12 + 25 * section_ + 25)
      (recordSection (bytesOf W) plan location body base.length section_ tape) := by
  have hlt := hin.lt
  have hsections := sections_lt first
  have hone : (1 : UInt32).toNat = 1 := rfl
  have hoffset : (location.wordOffset + 1 + UInt32.ofNat section_ * 2).toNat =
      location.wordOffset.toNat + (1 + 2 * section_) := by
    rw [UInt32.toNat_add, UInt32.toNat_add, UInt32.toNat_mul, UInt32.toNat_ofNat', hone,
      show (2 : UInt32).toNat = 2 from rfl, Nat.mod_eq_of_lt (a := section_) (by omega),
      Nat.mod_eq_of_lt (a := section_ * 2) (by omega), Nat.mod_eq_of_lt (a := _ + 1) (by omega),
      Nat.mod_eq_of_lt (by omega)]
    omega
  have hnext : (location.wordOffset + 1 + UInt32.ofNat section_ * 2 + 1).toNat =
      location.wordOffset.toNat + (2 + 2 * section_) := by
    rw [UInt32.toNat_add, hoffset, hone, Nat.mod_eq_of_lt (by omega)]
    omega
  rw [recordSection]
  refine (readWord_gives _).bind fun low hlow => (readWord_gives _).bind fun high hhigh => ?_
  rw [hoffset, ← List.getElem?_drop] at hlow
  rw [hnext, ← List.getElem?_drop] at hhigh
  have hcount : (high >>> 18).toNat < 2 ^ 14 := by
    have := high.toNat_lt
    rw [UInt32.toNat_shiftRight, show (18 : UInt32).toNat % 32 = 18 from rfl,
      Nat.shiftRight_eq_div_pow]
    omega
  refine (recordFields_gives hplan hin (1 + (first &&& 0xff).toNat * 2 + (high >>> 18).toNat)
    (low.toNat + 2 ^ 32 * high.toNat) (12 + 25 * section_) hs hnew (by omega) (by omega) (by omega)
    (fun j hj => ?_) (fun j hj => section_digit low high hj)
    fun j hj => getField_section hfirst hsection hj hlow hhigh).bind fun s hs => ensures_pure.2 hs
  · have htwelve : (12 : UInt32).toNat = 12 := rfl
    have hwide : (25 : UInt32).toNat = 25 := rfl
    rw [UInt32.toNat_add, UInt32.toNat_add, UInt32.toNat_mul, UInt32.toNat_ofNat',
      UInt32.toNat_ofNat', htwelve, hwide, Nat.mod_eq_of_lt (a := section_) (by omega),
      Nat.mod_eq_of_lt (a := j) (by omega), Nat.mod_eq_of_lt (a := section_ * 25) (by omega),
      Nat.mod_eq_of_lt (a := 12 + _) (by omega), Nat.mod_eq_of_lt (by omega)]
    omega

/-- What the loops of `VisitMessage` record of the fields is what `GetField` finds. -/
theorem recordAll_gives :
    Gives (fun tape => ∃ found, tape = base ++ pairWords (plan.descriptors found) ∧
        ∀ id, Recorded W (location.view W) id (found id)) (do
      let s ← (List.range 12).foldlM
        (fun s id => recordField plan location body base.length (UInt32.ofNat id)
        (first >>> 8 >>> (UInt32.ofNat id * 2) &&& 3) s)
          (0, base ++ List.replicate (plan.fields.length * 2) 0)
      (List.range (first &&& 0xff).toNat).foldlM (fun tape section_ =>
        recordSection (bytesOf W) plan location body base.length section_ tape) s.2) := by
  have hlt := hin.lt
  have hsections := sections_lt first
  have hzero : base ++ List.replicate (plan.fields.length * 2) 0 =
      base ++ pairWords (plan.descriptors fun _ => (0, 0)) := by
    rw [TypePlan.descriptors, List.map_const', pairWords_zeros]
  have hnone : Found plan base W (location.view W) (fun _ => False)
    (base ++ List.replicate (plan.fields.length * 2) 0) :=
    ⟨_, hzero, fun id h => h.elim, fun id _ => rfl⟩
  refine (recordFields_gives hplan hin (1 + (first &&& 0xff).toNat * 2) (first >>> 8).toNat
    0 hnone (fun _ _ h => h) (by omega) (by rw [show (0 : UInt32).toNat = 0 from rfl]; omega)
    (by rw [show (0 : UInt32).toNat = 0 from rfl]; omega) (fun j hj => ?_) (fun j hj => ?_)
    fun j hj => ?_).bind fun s hs => ?_
  · rw [UInt32.toNat_ofNat', Nat.mod_eq_of_lt (by omega), Nat.zero_add]
  · rw [show UInt32.ofNat j * 2 = UInt32.ofNat (j * 2) from (UInt32.ofNat_mul _ _).symm]
    exact digit32 _ (by omega)
  · rw [Nat.zero_add]
    exact getField_head hfirst hj
  · refine (Ensures.foldlM_range
      (I := fun k tape => Found plan base W (location.view W) (fun id => id < 12 + 25 * k) tape)
      (hs.congr fun id => by rw [false_or]; omega) fun k hk tape htape => ?_).mono fun tape h => ?_
    · exact (recordSection_gives hplan hW hin hfirst hbody hk htape fun j _ => by omega).mono
        fun tape' h =>
        h.congr fun id => by omega
    · obtain ⟨found, htape, hdone, hother⟩ := h
      refine ⟨found, htape, fun id => ?_⟩
      by_cases hid : id < 12 + 25 * (first &&& 0xff).toNat
      · exact hdone id hid
      · rw [hother id hid]
        exact .inl ⟨rfl, getField_beyond hfirst (not_lt.1 hid)⟩

end

end ProtoCache.Wasm

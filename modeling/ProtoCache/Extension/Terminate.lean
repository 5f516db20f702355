import ProtoCache.Extension.Deserialize
import ProtoCache.Lib.Ensures

/-!
# Deserializing comes to an end

`Deserialize` of a message calls itself, for the messages of its fields, on a null
pointer or on one that is greater than its own, whatever the offsets in the buffer are: a
field, the cells of an array and the values of a map are behind the first word of the
object they are of (`Ptr.From`), and an offset only moves on from there
(`Field.getObject_ends`).

* `deserializeMessage_ends`: what comes of a message, given what comes of the messages
  behind it;
* `deserialize_terminates`: so the distance to the end of the buffer bounds the depth of
  the recursion, also where the types refer to each other in a cycle.
-/

namespace ProtoCache

open Outcome

/-- The call comes to an end, with a result that has `P` or without a result. -/
abbrev Ends {α : Type} (P : α → Prop) (x : Res α) : Prop := Ensures (· ≠ Stop.fuel) P x

namespace Ptr

/-- `ptr > caller`, into the buffer of `caller`. -/
def Beyond (caller ptr : Ptr) : Prop :=
  ∃ view k, caller = .at view ∧ ptr = .at (view.drop k) ∧ 0 < k ∧ k < view.length

/-- A null pointer, moved or not, or a pointer `k` words or more behind `caller`. -/
def From (caller : Ptr) (k : ℕ) (ptr : Ptr) : Prop :=
  (∃ off, ptr = .nul off) ∨ ∃ view j, caller = .at view ∧ k ≤ j ∧ ptr = .at (view.drop j)

variable {caller ptr : Ptr}

theorem From.refl : caller.From 0 caller := by
  rcases caller with view | off
  · exact .inr ⟨view, 0, rfl, le_rfl, rfl⟩
  · exact .inl ⟨off, rfl⟩

theorem From.null {k : ℕ} : caller.From k Ptr.null := .inl ⟨0, rfl⟩

theorem From.add {k n : ℕ} (h : caller.From k ptr) : caller.From (k + n) (ptr.add n) := by
  rcases h with ⟨off, rfl⟩ | ⟨view, j, hview, hj, rfl⟩
  · exact .inl ⟨off + n, rfl⟩
  · exact .inr ⟨view, j + n, hview, Nat.add_le_add_right hj n, by rw [Ptr.add, List.drop_drop]⟩

theorem From.mono {k k' : ℕ} (h : caller.From k ptr) (hk : k' ≤ k) : caller.From k' ptr := by
  rcases h with hnul | ⟨view, j, hview, hj, hptr⟩
  · exact .inl hnul
  · exact .inr ⟨view, j, hview, hk.trans hj, hptr⟩

/-- What is behind a pointer that is behind the caller. -/
theorem Beyond.from {q : Ptr} {k : ℕ} (h : caller.Beyond ptr) (hq : ptr.From k q) :
    caller.From k q := by
  obtain ⟨view, i, hview, rfl, -, -⟩ := h
  rcases hq with hnul | ⟨view', j, hview', hj, rfl⟩
  · exact .inl hnul
  · obtain rfl := Ptr.at.inj hview'
    exact .inr ⟨view, i + j, hview, hj.trans (Nat.le_add_left j i), by rw [List.drop_drop]⟩

end Ptr

/-! ## The views -/

theorem access_ends {α : Type} (o : Option α) : Ends (fun _ => True) (access o) := by
  cases o with
  | none => exact Stop.noConfusion
  | some a => trivial

theorem Ptr.load_ends (ptr : Ptr) : Ends (fun _ => True) ptr.load := by
  rcases ptr with view | off
  · exact access_ends _
  · exact Stop.noConfusion

theorem stringMark_ends (bounded : Bool) (sft mark : ℕ) (p : List UInt8) :
    Ends (fun _ => True) (stringMark bounded sft mark p) := by
  induction p generalizing sft mark with
  | nil =>
    rw [stringMark]
    split
    · exact Stop.noConfusion
    · trivial
  | cons b p ih =>
    rw [stringMark]
    split
    · split
      · exact ih _ _
      · dsimp only
        split <;> trivial
    · trivial

theorem readString_ends (bounded : Bool) (ptr : Ptr) :
    Ends (fun _ => True) (readString bounded ptr) := by
  rw [readString.eq_def]
  split
  · trivial
  · rcases ptr with view | off
    · dsimp only
      split
      · exact Stop.noConfusion
      · split
        · trivial
        · split
          · split <;> trivial
          · exact stringMark_ends _ _ _ _
    · exact Stop.noConfusion

theorem ByteSlice.get_ends (s : Option ByteSlice) : Ends (fun _ => True) (ByteSlice.get s) := by
  cases s with
  | none => trivial
  | some s => exact access_ends _

namespace Field

variable (bounded : Bool) (f : Field)

theorem get32_ends : Ends (fun _ => True) (f.get32 bounded) := by
  rw [get32]
  split
  · trivial
  · exact Ptr.load_ends _

theorem get64_ends : Ends (fun _ => True) (f.get64 bounded) := by
  rw [get64]
  split
  · trivial
  · exact (Ptr.load_ends _).bind fun _ _ => (Ptr.load_ends _).bind fun _ _ => trivial

theorem getBool_ends : Ends (fun _ => True) (f.getBool bounded) := by
  rw [getBool]
  split
  · trivial
  · exact (Ptr.load_ends _).bind fun _ _ => trivial

end Field

variable {caller : Ptr} {bounded : Bool}

/-- The object of a field behind the caller is missing, or behind the caller as well. -/
theorem Field.getObject_ends (hb : bounded = true ∨ caller = Ptr.null) {f : Field}
    (h : caller.From 1 f.ptr) :
    Ends (fun q => q = Ptr.null ∨ caller.Beyond q) (f.getObject bounded) := by
  obtain ⟨ptr, width⟩ := f
  rw [Field.getObject]
  dsimp only
  rcases h with ⟨off, hptr⟩ | ⟨view, j, rfl, hj, hptr⟩
  · -- A null pointer that was moved is not checked, and loaded.
    obtain rfl : ptr = .nul off := hptr
    rw [Ptr.reaches, if_neg Bool.false_ne_true]
    split
    · exact .inl rfl
    · exact Stop.noConfusion
  · obtain rfl : ptr = .at (view.drop j) := hptr
    -- The caller is a view, so that the end is checked.
    obtain rfl := hb.resolve_right Ptr.noConfusion
    have hbeyond : ∀ k, 1 ≤ k →
        (if (Ptr.at (view.drop k)).reaches true then Ptr.null else .at (view.drop k)) = Ptr.null ∨
          (Ptr.at view).Beyond (if (Ptr.at (view.drop k)).reaches true then Ptr.null
            else .at (view.drop k)) := by
      intro k hk
      split
      · exact .inl rfl
      · next hin =>
        refine .inr ⟨view, k, rfl, rfl, hk, Nat.lt_of_not_le fun hle => hin ?_⟩
        rw [List.drop_eq_nil_of_le hle]
        rfl
    split
    · exact .inl rfl
    · rw [if_neg Ptr.noConfusion]
      refine (Ptr.load_ends _).bind fun w _ => ?_
      rw [ensures_pure]
      by_cases htag : w &&& 3 = 3
      · -- The offset moves on from the cell.
        rw [if_pos htag, Ptr.add, List.drop_drop]
        exact hbeyond _ (hj.trans (Nat.le_add_right _ _))
      · rw [if_neg htag]
        exact hbeyond _ hj

theorem Field.getString_ends (bounded : Bool) (f : Field) :
    Ends (fun _ => True) (f.getString bounded) := by
  have hobject : Ends (fun _ => True) (f.getObject bounded) := by
    rw [Field.getObject]
    split
    · trivial
    · split
      · trivial
      · exact (Ptr.load_ends _).bind fun _ _ => trivial
  exact hobject.bind fun _ _ => readString_ends _ _

theorem openMessage_ends (bounded : Bool) (ptr : Ptr) :
    Ends (fun o => ∀ view, o = some view → ptr = .at view) (openMessage bounded ptr) := by
  rcases ptr with view | _ | off
  · rw [openMessage]
    refine (Ptr.load_ends _).bind fun w _ => ?_
    split
    · rintro view' ⟨⟩
    · rintro view' ⟨⟩
      rfl
  · rintro view ⟨⟩
  · exact Stop.noConfusion

theorem sectionWord_ends (view : List UInt32) (a : ℕ) : Ends (fun _ => True) (sectionWord view a) :=
  (access_ends _).bind fun _ _ => (access_ends _).bind fun _ _ => trivial

/-- A field of a message is behind the first word of the message. -/
theorem getField_ends (bounded : Bool) (view : List UInt32) (id : ℕ) :
    Ends (fun f => (Ptr.at view).From 1 f.ptr) (getField bounded view id) := by
  have hfield : ∀ sections off width, Ends (fun f => (Ptr.at view).From 1 f.ptr)
      (if (Ptr.at view).exceeds bounded (1 + sections * 2 + off + width) = true then
        (pure Field.null : Res Field)
      else pure ⟨(Ptr.at view).add (1 + sections * 2 + off), width⟩) := by
    intro sections off width
    split
    · exact Ptr.From.null
    · exact Ptr.From.mono (k := 0 + (1 + sections * 2 + off)) Ptr.From.refl.add (by omega)
  rw [getField]
  refine (access_ends _).bind fun head _ => ?_
  dsimp only
  split
  · split
    · exact Ptr.From.null
    · exact hfield _ _ _
  · split
    · exact Ptr.From.null
    · refine (sectionWord_ends _ _).bind fun vec _ => ?_
      split
      · exact Ptr.From.null
      · exact hfield _ _ _

/-- The body of an array is behind the array. -/
theorem openArray_ends (bounded : Bool) (ptr : Ptr) :
    Ends (fun a => ptr.From 1 a.body) (openArray bounded ptr) := by
  rw [openArray]
  split
  · exact Ptr.From.null
  · refine (Ptr.load_ends _).bind fun w _ => ?_
    dsimp only
    split
    · exact Ptr.From.null
    · exact Ptr.From.refl.add

theorem readLE_ends (mem : List UInt8) (pos k : ℕ) : Ends (fun _ => True) (readLE mem pos k) :=
  (access_ends _).bind fun _ _ => trivial

/-- An index takes at least its header. -/
theorem ofData_ends (mem : List UInt8) (size : ℕ) :
    Ends (fun ph => ph.data ≠ none → 4 ≤ ph.dataSize) (PerfectHash.ofData mem size) := by
  rw [PerfectHash.ofData]
  split
  · exact fun h => absurd rfl h
  · refine (readLE_ends _ _ _).bind fun n _ => ?_
    dsimp only
    split
    · generalize (if realSize n > 65535 then _ else _ : ℕ) = bytes
      split
      · exact fun h => absurd rfl h
      · exact fun _ => (by decide : 4 ≤ 8).trans (Nat.le_add_left 8 bytes)
    · exact fun _ => le_rfl

theorem size_ends (ph : PerfectHash) : Ends (fun _ => True) ph.size := by
  rw [PerfectHash.size]
  split
  · trivial
  · exact (readLE_ends _ _ _).bind fun _ _ => trivial

/-- The body of a map is behind the map. -/
theorem openMap_ends (bounded : Bool) (ptr : Ptr) :
    Ends (fun m => ptr.From 1 m.body) (openMap bounded ptr) := by
  rcases ptr with view | _ | off
  · rw [openMap]
    refine (Ptr.load_ends _).bind fun w _ => ?_
    dsimp only
    split
    · exact Ptr.From.null
    · refine (ofData_ends _ _).bind fun ph hph => ?_
      split
      · exact Ptr.From.null
      · next hdata =>
        refine (size_ends _).bind fun n _ => ?_
        split
        · exact Ptr.From.null
        · have hsize : 1 ≤ wordSize ph.dataSize := by
            have := hph hdata
            rw [wordSize]
            omega
          rw [ensures_pure]
          exact Ptr.From.refl.add.mono (hsize.trans (Nat.le_add_left _ 0))
  · exact Ptr.From.null
  · exact Stop.noConfusion

/-- The cells from a pointer on that is behind the caller. -/
theorem forCells_ends {α : Type} {f : Field → Res α} {width : ℕ}
    (hf : ∀ ptr, caller.From 1 ptr → Ends (fun _ => True) (f ⟨ptr, width⟩)) (n : ℕ) {ptr : Ptr}
    (h : caller.From 1 ptr) : Ends (fun _ => True) (forCells f width n ptr) := by
  induction n generalizing ptr with
  | zero => trivial
  | succ n ih =>
    rw [forCells]
    refine (hf ptr h).bind fun a _ => ?_
    exact (ih (h.add.mono (Nat.le_add_right 1 width))).bind fun _ _ => trivial

namespace Extension

/-! ## The calls -/

section

variable {rec : Reader} (hb : bounded = true ∨ caller = Ptr.null)
  (hrec : ∀ name ptr, ptr = Ptr.null ∨ caller.Beyond ptr → Ends (fun _ => True) (rec name ptr))

include hb hrec

theorem deserializeSingle_ends (t : FieldType) {src : Field} (h : caller.From 1 src.ptr) :
    Ends (fun _ => True) (deserializeSingle rec bounded t src) := by
  rw [deserializeSingle]
  split
  · exact (Field.getObject_ends hb h).bind fun q hq => hrec _ q hq
  · exact (Field.getString_ends _ _).bind fun _ _ => (ByteSlice.get_ends _).bind fun _ _ => trivial
  · exact (Field.get64_ends _ _).bind fun _ _ => trivial
  · exact (Field.get32_ends _ _).bind fun _ _ => trivial
  · exact (Field.getBool_ends _ _).bind fun _ _ => trivial
  · exact Stop.noConfusion

/-- The elements of an array: of an object behind the caller, or, for an alias, of the caller. -/
theorem deserializeArray_ends (t : FieldType) {ptr : Ptr}
    (h : ∀ q, ptr.From 1 q → caller.From 1 q) :
    Ends (fun _ => True) (deserializeArray rec bounded t ptr) := by
  have hcells : ∀ {α : Type} {f : Field → Res α} {width n : ℕ} {body : Ptr}, ptr.From 1 body →
      (∀ one : Field, caller.From 1 one.ptr → Ends (fun _ => True) (f one)) →
      Ends (fun _ => True) (forCells f width n body) := by
    intro α f width n body hbody hf
    exact forCells_ends (fun q hq => hf ⟨q, width⟩ hq) n (h body hbody)
  rw [deserializeArray]
  split
  · refine (openArray_ends _ _).bind fun a ha => ?_
    rw [ArrayView.forEach]
    split
    · trivial
    · exact hcells ha fun one hone => (Field.getObject_ends hb hone).bind fun q hq => hrec _ q hq
  · refine (openArray_ends _ _).bind fun a ha => ?_
    rw [ArrayView.forEach]
    split
    · trivial
    · exact hcells ha fun one _ =>
        (Field.getString_ends _ _).bind fun _ _ => (ByteSlice.get_ends _).bind fun _ _ => trivial
  · refine (openArray_ends _ _).bind fun a ha => ?_
    rw [ArrayView.numbers]
    split
    · trivial
    · exact hcells ha fun one _ => (Field.get64_ends _ _).bind fun _ _ => trivial
  · refine (openArray_ends _ _).bind fun a ha => ?_
    rw [ArrayView.numbers]
    split
    · trivial
    · exact hcells ha fun one _ => (Field.get32_ends _ _).bind fun _ _ => trivial
  · exact (readString_ends _ _).bind fun _ _ => (ByteSlice.get_ends _).bind fun _ _ => trivial
  · exact Stop.noConfusion

omit hb hrec in
theorem deserializeKey_ends (t : FieldType) (src : Field) :
    Ends (fun _ => True) (deserializeKey bounded t src) := by
  rw [deserializeKey]
  split
  · exact (Field.getString_ends _ _).bind fun _ _ => (ByteSlice.get_ends _).bind fun _ _ => trivial
  · exact (Field.get64_ends _ _).bind fun _ _ => trivial
  · exact (Field.get32_ends _ _).bind fun _ _ => trivial
  · exact Stop.noConfusion

theorem deserializeMap_ends (key value : FieldType) {ptr : Ptr}
    (h : ∀ q, ptr.From 1 q → caller.From 1 q) :
    Ends (fun _ => True) (deserializeMap rec bounded key value ptr) := by
  rw [deserializeMap]
  refine (openMap_ends _ _).bind fun m hm => ?_
  split
  · exact Stop.noConfusion
  · rw [MapView.forEach]
    refine (size_ends _).bind fun n _ => forCells_ends (fun q hq => ?_) n (h _ hm)
    refine (deserializeKey_ends _ _).bind fun _ _ => ?_
    refine (deserializeSingle_ends hb hrec value ?_).bind fun _ _ => trivial
    exact hq.add.mono (Nat.le_add_right 1 m.keyWidth)

theorem deserializeField_ends {view : List UInt32} (hview : caller = .at view)
    (f : FieldDescriptor) :
    Ends (fun _ => True) (deserializeField rec bounded view f) := by
  have hobject : ∀ {q : Ptr}, q = Ptr.null ∨ caller.Beyond q → ∀ p,
      q.From 1 p → caller.From 1 p := by
    rintro q (rfl | hq) p hp
    · rcases hp with ⟨off, rfl⟩ | ⟨_, _, hnull, -⟩
      · exact .inl ⟨off, rfl⟩
      · exact Ptr.noConfusion hnull
    · exact hq.from hp
  rw [deserializeField]
  split
  · trivial
  · refine (getField_ends _ _ _).bind fun src hsrc => ?_
    rw [← hview] at hsrc
    split
    · trivial
    · split
      · exact (deserializeSingle_ends hb hrec _ hsrc).bind fun _ _ => trivial
      · refine (Field.getObject_ends hb hsrc).bind fun q hq => ?_
        exact (deserializeArray_ends hb hrec _ (hobject hq)).bind fun _ _ => trivial
      · refine (Field.getObject_ends hb hsrc).bind fun q hq => ?_
        exact (deserializeMap_ends hb hrec _ _ (hobject hq)).bind fun _ _ => trivial

/-- What comes of a message, given what comes of the messages behind it. -/
theorem deserializeMessage_ends (fields : List FieldDescriptor) :
    Ends (fun _ => True) (deserializeMessage rec bounded fields caller) := by
  rw [deserializeMessage]
  split
  · split
    · exact Stop.noConfusion
    · exact (deserializeArray_ends hb hrec _ fun _ hq => hq).bind fun _ _ => trivial
    · exact (deserializeMap_ends hb hrec _ _ fun _ hq => hq).bind fun _ _ => trivial
  · refine (openMessage_ends _ _).bind fun o ho => ?_
    split
    · exact Stop.noConfusion
    · next view =>
      have hfields : ∀ fields,
          Ends (fun _ => True) (deserializeFields rec bounded view fields) := by
        intro fields
        induction fields with
        | nil => trivial
        | cons f fields ih =>
          rw [deserializeFields]
          refine (deserializeField_ends hb hrec (ho view rfl) f).bind fun _ _ => ?_
          exact ih.bind fun _ _ => trivial
      exact (hfields fields).bind fun _ _ => trivial

end

/-- Where there is no word, no call is made. -/
theorem deserializeMessage_wordless (rec : Reader) (bounded : Bool) (fields : List FieldDescriptor)
    {ptr : Ptr} (h : ptr = Ptr.null ∨ ptr = .at []) :
    Ends (fun _ => True) (deserializeMessage rec bounded fields ptr) := by
  rw [deserializeMessage]
  split
  · split
    · exact Stop.noConfusion
    · next t _ =>
      have harray : Ends (fun _ => True) (deserializeArray rec bounded t ptr) := by
        rw [deserializeArray]
        split
        case h_5 => exact (readString_ends _ _).bind fun _ _ =>
          (ByteSlice.get_ends _).bind fun _ _ => trivial
        case h_6 => exact Stop.noConfusion
        all_goals
          rcases h with rfl | rfl
          · trivial
          · exact Stop.noConfusion
      exact harray.bind fun _ _ => trivial
    · rcases h with rfl | rfl <;> exact Stop.noConfusion
  · rcases h with rfl | rfl <;> exact Stop.noConfusion

/-- The words from the object on bound the depth of the recursion. -/
theorem deserialize_ends (schema : Descriptors) {fuel : ℕ} {view : List UInt32}
    (h : view.length < fuel) (name : ℕ) :
    Ends (fun _ => True) (deserialize schema true fuel name (.at view)) := by
  induction fuel generalizing name view with
  | zero => exact absurd h (Nat.not_lt_zero _)
  | succ fuel ih =>
    rw [deserialize]
    by_cases hview : view = []
    · exact deserializeMessage_wordless _ _ _ (.inr (congrArg Ptr.at hview))
    · have hpos := List.length_pos_iff.2 hview
      refine deserializeMessage_ends (.inl rfl) (fun name ptr hptr => ?_) (schema name)
      rcases hptr with rfl | ⟨view', k, hview', rfl, hk, hlt⟩
      · obtain ⟨fuel, rfl⟩ := Nat.exists_eq_succ_of_ne_zero (by omega : fuel ≠ 0)
        exact deserializeMessage_wordless _ _ _ (.inl rfl)
      · obtain rfl := Ptr.at.inj hview'
        refine ih ?_ name
        rw [List.length_drop]
        omega

/-- `Deserialize` of a message at `caller` calls itself on `ptr`: that the call for `ptr` gets
    nowhere is enough for it to get nowhere. -/
def Calls (bounded : Bool) (fields : List FieldDescriptor) (caller : Ptr) (name : ℕ) (ptr : Ptr) :
    Prop :=
  ∃ rec : Reader, (∀ name' ptr', rec name' ptr' = .error .fuel → name' = name ∧ ptr' = ptr) ∧
    deserializeMessage rec bounded fields caller = .error .fuel

/-- Whatever is in the buffer and whatever its type is, a message calls for messages at null
    pointers and at greater pointers only, and so the calls come to an end. -/
theorem deserialize_terminates (schema : Descriptors) :
    (∀ bounded fields caller name ptr, (bounded = true ∨ caller = Ptr.null) →
      Calls bounded fields caller name ptr → ptr = Ptr.null ∨ caller.Beyond ptr) ∧
    ∀ name mem raw, deserializeRoot schema name mem raw ≠ .error .fuel := by
  constructor
  · rintro bounded fields caller name ptr hb ⟨rec, honly, hfuel⟩
    by_contra hptr
    refine (deserializeMessage_ends hb (fun name' ptr' hptr' => ?_) fields).stops
      (fun h => h rfl) hfuel
    cases hcall : rec name' ptr' with
    | ok v => trivial
    | error e =>
      rintro rfl
      obtain ⟨-, rfl⟩ := honly name' ptr' hcall
      exact hptr hptr'
  · intro name mem raw
    have hends : Ends (fun _ => True) (deserializeRoot schema name mem raw) := by
      rw [deserializeRoot]
      split
      · exact deserializeMessage_wordless _ _ _ (.inl rfl)
      · exact deserialize_ends schema (Nat.lt_succ_self _) name
    exact hends.stops fun h => h rfl

/-- A message with a field, in which there is another message. -/
theorem deserialize_terminates_nested :
    Calls true [{ name := "next", number := 1, kind := .single (.message 0) }] (.at [0x100, 7, 0]) 0
      (.at [0]) ∧
      (Ptr.at [0] = Ptr.null ∨ (Ptr.at [0x100, 7, 0]).Beyond (.at [0])) := by
  have hcalls : Calls true [{ name := "next", number := 1, kind := .single (.message 0) }]
    (.at [0x100, 7, 0]) 0
      (.at [0]) := by
    refine ⟨fun name ptr => if name = 0 ∧ ptr = .at [0] then .error .fuel
      else .error .reject, fun name ptr h => ?_, rfl⟩
    by_contra hne
    dsimp only at h
    rw [if_neg hne] at h
    cases h
  exact ⟨hcalls, (deserialize_terminates fun _ => []).1 _ _ _ _ _ (.inl rfl) hcalls⟩
end Extension

end ProtoCache

import ProtoCache.Extension.ReadBack
import ProtoCache.Extent

/-!
# The generated classes

The types that `src/tools/protoc-gen-pccx.cc` gives to the fields of a message, and the fields
that `Detect` of its class looks at. An alias message has no class: it is the type of an
array or a map.

* `Layout.takes`: what is written for a message of Protobuf is an object of its class.
-/

namespace ProtoCache.Extension

open Row LittleEndian

/-- `IsAlias`: the only field of the message is named `_`. -/
def isAlias : List FieldDescriptor → Option FieldDescriptor
  | [f] => if f.name = "_" then some f else none
  | _ => none

/-- `FieldsInOrder`: the fields that are not deprecated, by their numbers. -/
def fieldsInOrder (fields : List FieldDescriptor) : List FieldDescriptor :=
  (fields.filter fun f => !f.deprecated).mergeSort fun f g => decide (f.number ≤ g.number)

/-- `TypeName` of a type that can be a key (`CanBeKey`). -/
def keyName (t : FieldType) : Option Ty :=
  if t = .string then some .str
  else if t.keyForm = .w32 ∨ t.keyForm = .w64 then some .scalar
  else none

/-- The type of a repeated field or a map, in a message or as an alias. -/
def containerName (typeName : FieldType → Option Ty) : FieldKind → Option Ty
  | .single _ => none
  | .repeated t =>
    match t.form with
    | .bool => some .bools
    | .w32 | .w64 => some .scalars
    | _ => (typeName t).map .array
  | .map key value => do
    let key ← keyName key
    let value ← typeName value
    return .map key value

/-- `TypeName`. An alias is the type of its only field. -/
def typeName (schema : Descriptors) : ℕ → FieldType → Option Ty
  | 0, _ => none
  | fuel + 1, t =>
    match t.form with
    | .message name =>
      match isAlias (schema name) with
      | some f => containerName (typeName schema fuel) f.kind
      | none => some (.message name)
    | .str => some .str
    | .other => none
    | _ => some .scalar

/-- The type of a field. -/
def fieldName (schema : Descriptors) (fuel : ℕ) : FieldKind → Option Ty
  | .single t => typeName schema fuel t
  | kind => containerName (typeName schema fuel) kind

/-- The classes that are generated for a schema: `Detect` looks at the fields in order, with
    their types. -/
def Generated (schema : Descriptors) (classes : Schema) : Prop :=
  ∀ name, if (isAlias (schema name)).isSome then classes name = []
    else List.Forall₂ (fun f field => field.1 = f.number - 1 ∧ ∃ fuel,
      fieldName schema fuel f.kind = some field.2)
      (fieldsInOrder (schema name)) (classes name)

/-- A schema that the format allows: the fields of a message have different numbers from 1 on,
    and the field of an alias has the number 1. -/
structure Valid (schema : Descriptors) : Prop where
  distinct : ∀ name, Distinct (schema name)
  numbered : ∀ name, ∀ f ∈ schema name, f.number ≠ 0
  aliased : ∀ name f, isAlias (schema name) = some f → f.number = 1

section

variable {schema : Descriptors} {classes : Schema}

theorem isAlias_eq {fields : List FieldDescriptor} {f : FieldDescriptor}
    (h : isAlias fields = some f) :
    fields = [f] ∧ f.name = "_" := by
  unfold isAlias at h
  split at h
  · split at h
    · next hname =>
      cases h
      exact ⟨rfl, hname⟩
    · cases h
  · cases h

theorem mem_fieldsInOrder {fields : List FieldDescriptor} {f : FieldDescriptor} :
    f ∈ fieldsInOrder fields ↔ f ∈ fields ∧ f.deprecated = false := by
  rw [fieldsInOrder, List.mem_mergeSort, List.mem_filter, Bool.not_eq_true']

/-- `Detect` of a class looks at its fields in the order of their places. -/
theorem Generated.sorted (h : Generated schema classes) (hvalid : Valid schema) (name : ℕ) :
    (classes name).Pairwise fun field field' => field.1 < field'.1 := by
  have h := h name
  split at h
  · rw [h]
    exact .nil
  · have hperm : (fieldsInOrder (schema name)).Perm ((schema name).filter fun f => !f.deprecated) :=
      List.mergeSort_perm _ _
    have hle : (fieldsInOrder (schema name)).Pairwise fun f g => f.number ≤ g.number := by
      refine (List.pairwise_mergeSort (fun f g k hfg hgk => ?_) (fun f g => ?_) _).imp fun hfg =>
        of_decide_eq_true hfg
      · simp only [decide_eq_true_eq] at hfg hgk ⊢
        omega
      · simp only [Bool.or_eq_true, decide_eq_true_eq]
        omega
    have hne : (fieldsInOrder (schema name)).Pairwise fun f g => f.number ≠ g.number := by
      have hnodup := (hvalid.distinct name).sublist
        ((List.filter_sublist (p := fun f => !f.deprecated)).map FieldDescriptor.number)
      exact List.pairwise_map.1 ((hperm.map FieldDescriptor.number).nodup_iff.2 hnodup)
    have hpos : ∀ f ∈ fieldsInOrder (schema name), f.number ≠ 0 := fun f hf =>
      hvalid.numbered name f (mem_fieldsInOrder.1 hf).1
    clear hperm
    generalize fieldsInOrder (schema name) = fields, classes name = rest at h hle hne hpos ⊢
    induction h with
    | nil => exact .nil
    | @cons f field fields rest hfield hrest ih =>
      obtain ⟨hle, hles⟩ := List.pairwise_cons.1 hle
      obtain ⟨hne, hnes⟩ := List.pairwise_cons.1 hne
      refine List.pairwise_cons.2 ⟨fun field' hmem => ?_,
        ih hles hnes fun g hg => hpos g (.tail _ hg)⟩
      obtain ⟨g, hg, hnumber, -⟩ := Pointwise.exists_left hrest hmem
      have h₁ := hle g hg
      have h₂ := hne g hg
      have h₃ := hpos f List.mem_cons_self
      have h₄ := hfield.1
      omega

/-- The class has a field for each one of the message that is not deprecated, and no others. -/
theorem Generated.field (h : Generated schema classes) {name : ℕ}
    (halias : isAlias (schema name) = none) {f : FieldDescriptor} (hf : f ∈ schema name)
    (hdep : f.deprecated = false) :
    ∃ t fuel, (f.number - 1, t) ∈ classes name ∧ fieldName schema fuel f.kind = some t := by
  have h := h name
  rw [halias, if_neg (by simp)] at h
  obtain ⟨⟨i, t⟩, hmem, rfl, fuel, hname⟩ :=
    Pointwise.exists_right h (mem_fieldsInOrder.2 ⟨hf, hdep⟩)
  exact ⟨t, fuel, hmem, hname⟩

theorem Generated.of_field (h : Generated schema classes) {name : ℕ}
    (halias : isAlias (schema name) = none) {i : ℕ} {t : Ty} (hmem : (i, t) ∈ classes name) :
    ∃ f fuel, f ∈ schema name ∧ f.deprecated = false ∧ i = f.number - 1 ∧
      fieldName schema fuel f.kind = some t := by
  have h := h name
  rw [halias, if_neg (by simp)] at h
  obtain ⟨f, hf, rfl, fuel, hname⟩ := Pointwise.exists_left h hmem
  obtain ⟨hf, hdep⟩ := mem_fieldsInOrder.1 hf
  exact ⟨f, fuel, hf, hdep, rfl, hname⟩

end

/-! ## The words of the fields -/

section

variable {hash : List UInt8 → UInt32 → V128} {schema : Descriptors} {classes : Schema}
  {lay : ℕ → Value → List UInt32 → Prop} {fuel : ℕ} {ty : Ty}

theorem containerName_ne_scalar {name : FieldType → Option Ty} {kind : FieldKind}
    (h : containerName name kind = some ty) :
    ty ≠ .scalar := by
  rintro rfl
  rcases kind with t | t | ⟨k, v⟩
  · cases h
  · rw [containerName] at h
    split at h
    · cases h
    · cases h
    · cases h
    · obtain ⟨t', -, ht⟩ := Option.map_eq_some_iff.1 h
      cases ht
  · rw [containerName] at h
    obtain ⟨k', -, h⟩ := Option.bind_eq_some_iff.1 h
    obtain ⟨v', -, h⟩ := Option.bind_eq_some_iff.1 h
    cases h

/-- A number or a Boolean is a scalar, and nothing else is. -/
theorem typeName_scalar {t : FieldType} (h : typeName schema fuel t = some ty) :
    ty = .scalar ↔ ∃ k, t.form.shape = some k := by
  cases fuel with
  | zero => cases h
  | succ fuel =>
    rw [typeName] at h
    cases hform : t.form with
    | message name =>
      rw [hform] at h
      dsimp only at h
      refine iff_of_false ?_ (by rintro ⟨k, hk⟩; cases hk)
      split at h
      · exact containerName_ne_scalar h
      · rintro rfl
        cases h
    | str =>
      rw [hform] at h
      cases h
      exact iff_of_false (by rintro ⟨⟩) (by rintro ⟨k, hk⟩; cases hk)
    | other =>
      rw [hform] at h
      cases h
    | _ =>
      rw [hform] at h
      cases h
      exact iff_of_true rfl ⟨_, rfl⟩

/-- The words of a value of a type that is not a scalar. -/
theorem Spelled.takes
    (hlay : ∀ name v ws fuel ty, lay name v ws → typeName schema fuel (.message name) = some ty →
      Takes hash classes ty ws) {t : FieldType} {v : Value} {ws : List UInt32}
    (h : Spelled lay t v ws) (hname : typeName schema fuel t = some ty) (hty : ty ≠ .scalar) :
    Takes hash classes ty ws := by
  have hshape := (typeName_scalar hname).not.1 hty
  unfold Spelled at h
  cases hform : t.form with
  | message name =>
    obtain rfl : t = .message name := by cases t <;> cases hform; rfl
    exact hlay _ _ _ _ _ h hname
  | str =>
    cases fuel with
    | zero => cases hname
    | succ fuel =>
      rw [typeName, hform] at hname
      cases hname
      rw [hform] at h
      rcases v with x | x | x | s | slots <;> try exact absurd h id
      obtain ⟨hs, rfl⟩ := h
      exact .str hs
  | other =>
    rw [hform] at h
    exact absurd h id
  | _ => exact absurd ⟨_, by rw [hform]; rfl⟩ hshape

/-- The array of numbers whose words fill the cells. -/
theorem takes_numbers {m k : ℕ} {ps : List (Piece UInt32)} {ws : List UInt32} (h : IsArray m ps ws)
    (hk : k ≤ 2) (hne : ps ≠ []) (hcells : ∀ p ∈ ps, InColumn (some k) m p) :
    Takes hash classes .scalars ws := by
  have houters : outers ps = [] := by
    rw [outers, List.flatMap_eq_nil_iff]
    intro p hp
    obtain ⟨-, ws, rfl, -⟩ := hcells p hp k rfl
    rfl
  obtain ⟨p, hp⟩ := List.exists_mem_of_ne_nil ps hne
  obtain ⟨rfl, -⟩ := hcells p hp k rfl
  have hlen := length_arrayWords h.fits
  have hsize := h.size
  rw [houters, List.length_nil, Nat.add_zero] at hlen
  rw [arrayWords, List.length_cons] at hlen
  rw [h.eq, arrayWords]
  exact .scalars h.pos hk (by omega) (by omega)

theorem ArrayLayout.takes
    (hlay : ∀ name v ws fuel ty, lay name v ws → typeName schema fuel (.message name) = some ty →
      Takes hash classes ty ws) {t : FieldType} {vs : List Value} {ws : List UInt32}
    (h : ArrayLayout lay t vs ws) (hne : vs ≠ [])
    (hname : containerName (typeName schema fuel) (.repeated t) = some ty) :
    Takes hash classes ty ws := by
  rw [containerName] at hname
  rw [ArrayLayout] at h
  split at h
  · next hbool =>
    rw [hbool] at hname
    cases hname
    obtain ⟨bs, -, hlen, rfl⟩ := h
    exact .bools (by rwa [List.length_map])
  · next hbool =>
    obtain ⟨m, ps, harray, hcells⟩ := h
    have hps : ps ≠ [] :=
      fun h0 => hne (List.length_eq_zero_iff.1 (hcells.length_eq.trans (by rw [h0]; rfl)))
    have hcolumn : ∀ p ∈ ps, InColumn t.form.shape m p :=
      fun p hp => (Pointwise.exists_left hcells hp).choose_spec.2.2
    cases hform : t.form with
    | bool => exact absurd hform hbool
    | w32 =>
      rw [hform] at hname hcolumn
      cases hname
      exact takes_numbers harray (by decide) hps hcolumn
    | w64 =>
      rw [hform] at hname hcolumn
      cases hname
      exact takes_numbers harray (by decide) hps hcolumn
    | _ =>
      rw [hform] at hname
      obtain ⟨ty, hty, rfl⟩ := Option.map_eq_some_iff.1 hname
      refine .array harray fun p hp => ?_
      obtain ⟨v, -, hv, -⟩ := Pointwise.exists_left hcells hp
      refine hv.takes hlay hty fun h0 => ?_
      obtain ⟨k, hk⟩ := (typeName_scalar hty).1 h0
      rw [hform] at hk
      cases hk

theorem keyName_scalar {k : FieldType} (h : keyName k = some .scalar) :
    ∃ n, k.keyForm.shape = some n := by
  rw [keyName] at h
  split at h
  · cases h
  · split at h
    · next hform =>
      rcases hform with hform | hform
      · exact ⟨1, by rw [hform]; rfl⟩
      · exact ⟨2, by rw [hform]; rfl⟩
    · cases h

theorem keyName_str {k : FieldType} (h : keyName k = some ty) (hty : ty ≠ .scalar) :
    ty = .str ∧ k.keyForm = .str := by
  rw [keyName] at h
  split at h
  · next hk =>
    cases h
    exact ⟨rfl, by rw [hk]; rfl⟩
  · split at h
    · cases h
      exact absurd rfl hty
    · cases h

theorem outer_of_inColumn {c : Option ℕ} {m : ℕ} {p : Piece UInt32} (h : InColumn c m p)
    (hc : ∃ k, c = some k) :
    p.outer = [] := by
  obtain ⟨k, rfl⟩ := hc
  obtain ⟨-, ws, rfl, -⟩ := h k rfl
  rfl

/-- The words of a map, by the words of its keys and values. -/
theorem takes_isMapOf {β : Type} {V : β → List UInt32 → Prop} {c₁ c₂ : Option ℕ} {k t : Ty}
    {pairs : List (Key × β)} {ws : List UInt32}
    (hk : k = .scalar ∧ (pairs ≠ [] → ∃ n, c₁ = some n) ∨ k = .str ∧ ∀ p ∈ pairs, p.1.form = .str)
    (hc : t = .scalar → pairs ≠ [] → ∃ n, c₂ = some n)
    (hV : t ≠ .scalar → ∀ p ∈ pairs, ∀ ws, V p.2 ws → Takes hash classes t ws)
    (h : IsMapOf hash Key.bytes c₁ c₂ Key.Spelled V pairs ws) :
    Takes hash classes (.map k t) ws := by
  obtain ⟨index, pos, slots, qs, m₁, m₂, hperm, hkeyed, -, hmap, hslots⟩ := h
  have hlen : (pairs.map fun p => p.1.bytes).length = qs.length := by
    rw [List.length_map, ← hperm.length_eq, hslots.length_eq]
  have hpair : ∀ q ∈ qs, ∃ slot ∈ pairs, (slot.1.Spelled q.1.words ∧ InColumn c₁ m₁ q.1) ∧
      V slot.2 q.2.words ∧ InColumn c₂ m₂ q.2 := fun q hq => by
    obtain ⟨slot, hslot, h⟩ := Pointwise.exists_left hslots hq
    exact ⟨slot, hperm.mem_iff.1 hslot, h⟩
  refine .map hmap hkeyed hlen (fun q hq => ?_) (fun hty q hq => ?_) fun hty q hq => ?_
  · obtain ⟨slot, hslot, ⟨-, hkcol⟩, -, hvcol⟩ := hpair q hq
    have hne := List.ne_nil_of_mem hslot
    refine ⟨fun h0 => outer_of_inColumn hkcol ?_, fun h0 => outer_of_inColumn hvcol (hc h0 hne)⟩
    rcases hk with ⟨-, hshape⟩ | ⟨rfl, -⟩
    · exact hshape hne
    · cases h0
  · obtain ⟨⟨key, v⟩, hslot, ⟨hkey, -⟩, -⟩ := hpair q hq
    rcases hk with ⟨rfl, -⟩ | ⟨rfl, hform⟩
    · exact absurd rfl hty
    · have hkform := hform _ hslot
      rcases key with x | x | s
      · cases hkform
      · cases hkform
      · obtain ⟨hs, hwords⟩ := hkey
        rw [hwords]
        exact .str hs
  · obtain ⟨slot, hslot, -, hvalue, -⟩ := hpair q hq
    exact hV hty slot hslot _ hvalue

theorem takes_map
    (hlay : ∀ name v ws fuel ty, lay name v ws → typeName schema fuel (.message name) = some ty →
      Takes hash classes ty ws) {k t : FieldType} {pairs : List (Key × Value)} {ws : List UInt32}
    (hform : ∀ p ∈ pairs, p.1.form = k.keyForm)
    (h : IsMapOf hash Key.bytes k.keyForm.shape t.form.shape Key.Spelled (Spelled lay t) pairs ws)
    (hname : containerName (typeName schema fuel) (.map k t) = some ty) :
    Takes hash classes ty ws := by
  rw [containerName] at hname
  obtain ⟨kty, hk, hname⟩ := Option.bind_eq_some_iff.1 hname
  obtain ⟨vty, hv, hname⟩ := Option.bind_eq_some_iff.1 hname
  cases hname
  refine takes_isMapOf ?_ (fun h0 _ => (typeName_scalar hv).1 h0)
    (fun hty _ _ _ hvalue => hvalue.takes hlay hv hty) h
  by_cases hscalar : kty = .scalar
  · exact .inl ⟨hscalar, fun _ => keyName_scalar (hscalar ▸ hk)⟩
  · obtain ⟨hstr, hkey⟩ := keyName_str hk hscalar
    exact .inr ⟨hstr, fun p hp => (hform p hp).trans hkey⟩

/-- The words of a field of a type that is not a scalar, if anything is set. -/
theorem SlotLayout.takes
    (hlay : ∀ name v ws fuel ty, lay name v ws → typeName schema fuel (.message name) = some ty →
      Takes hash classes ty ws) {kind : FieldKind} {slot : Slot} {ws : List UInt32}
    (h : SlotLayout hash lay kind slot ws) (hne : ws ≠ [])
    (hname : fieldName schema fuel kind = some ty) (hty : ty ≠ .scalar) :
    Takes hash classes ty ws := by
  unfold SlotLayout at h
  rcases kind with t | t | ⟨k, t⟩
  · rcases slot with _ | v | vs | pairs
    · exact absurd h hne
    · obtain ⟨ws', hv, rfl⟩ := h
      split at hne
      · exact absurd rfl hne
      · next hlen =>
        rw [if_neg hlen]
        exact hv.takes hlay hname hty
    · exact absurd h id
    · exact absurd h id
  · rcases slot with _ | v | vs | pairs
    · exact absurd h id
    · exact absurd h id
    · dsimp only at h
      split at h
      · exact absurd h hne
      · next hvs => exact h.takes hlay hvs hname
    · exact absurd h id
  · rcases slot with _ | v | vs | pairs
    · exact absurd h id
    · exact absurd h id
    · exact absurd h id
    · dsimp only at h
      split at h
      · exact absurd h hne
      · exact takes_map hlay h.1 h.2 hname

/-- A scalar is in its cell. -/
theorem SlotLayout.length_scalar {kind : FieldKind} {slot : Slot} {ws : List UInt32}
    (h : SlotLayout hash lay kind slot ws) (hname : fieldName schema fuel kind = some .scalar) :
    ws.length ≤ 2 := by
  rcases kind with t | t | ⟨k, t⟩
  · obtain ⟨k, hshape⟩ := (typeName_scalar hname).1 rfl
    unfold SlotLayout at h
    rcases slot with _ | v | vs | pairs
    · obtain rfl : ws = [] := h
      exact Nat.zero_le _
    · obtain ⟨ws', hv, rfl⟩ := h
      split
      · exact Nat.zero_le _
      · unfold Spelled at hv
        cases hform : t.form with
        | message name => rw [hform] at hshape; cases hshape
        | str => rw [hform] at hshape; cases hshape
        | other => rw [hform] at hshape; cases hshape
        | _ =>
          rw [hform] at hv
          rcases v with x | x | x | s | slots <;> try exact absurd hv id
          rw [show ws' = _ from hv]
          simp
    · exact absurd h id
    · exact absurd h id
  · exact absurd rfl (@containerName_ne_scalar _ (typeName schema fuel) (.repeated t) hname)
  · exact absurd rfl (@containerName_ne_scalar _ (typeName schema fuel) (.map k t) hname)

/-! ## The words of a message -/

/-- The words of an alias message. -/
theorem AliasLayout.takes
    (hlay : ∀ name v ws fuel ty, lay name v ws → typeName schema fuel (.message name) = some ty →
      Takes hash classes ty ws) {kind : FieldKind} {slot : Slot} {ws : List UInt32}
    (h : AliasLayout hash lay kind slot ws)
    (hname : containerName (typeName schema fuel) kind = some ty) :
    Takes hash classes ty ws := by
  obtain ⟨hkind, ws', hslot, rfl⟩ := h
  rcases kind with t | t | ⟨k, t⟩
  · cases hname
  · split
    · -- The mark is the head of an array that is empty, unless the elements are Booleans.
      rw [containerName] at hname
      change Takes hash classes ty [1]
      have hhead : (1 : UInt32) = UInt32.ofNat (0 <<< 2 ||| 1) := rfl
      split at hname
      · cases hname
        exact .mark
      · cases hname
        rw [hhead]
        exact .scalars le_rfl (by decide) rfl (by decide)
      · cases hname
        rw [hhead]
        exact .scalars le_rfl (by decide) rfl (by decide)
      · obtain ⟨ty, -, rfl⟩ := Option.map_eq_some_iff.1 hname
        have harray :
          IsArray 1 (([] : List (List UInt32)).map Piece.inl) [UInt32.ofNat (0 <<< 2 ||| 1)] :=
          isArray_cells le_rfl (by decide) (fun _ h => absurd h List.not_mem_nil) (by decide)
        exact .array harray fun p hp => absurd hp List.not_mem_nil
    · next hlen =>
      exact hslot.takes hlay (fun h0 => hlen (by rw [h0]; exact Nat.zero_le _)) hname
        (containerName_ne_scalar hname)
  · split
    · have hnone (p : Key × Value) (hp : p ∈ []) : p.1.form = k.keyForm :=
        absurd hp List.not_mem_nil
      exact takes_map hlay hnone (isMapOf_nil hash _ _ _ _) hname
    · next hlen =>
      exact hslot.takes hlay (fun h0 => hlen (by rw [h0]; exact Nat.zero_le _)) hname
        (containerName_ne_scalar hname)

theorem Folded.outer {p : Piece UInt32} (h : Folded p) (ho : p.outer ≠ []) :
    3 < p.words.length := by
  cases p with
  | inl ws => exact absurd rfl ho
  | out ws => exact h

/-- What is in the table of the fields is at the number of the field. -/
theorem fillTable_index {entries : List (FieldDescriptor × Slot)}
    {table table' : List (Option (FieldDescriptor × Slot))}
    (h : fillTable entries table = .ok table') {i : ℕ} {x : FieldDescriptor × Slot}
    (hx : table'[i]? = some (some x)) :
    table[i]? = some (some x) ∨ i = x.1.number - 1 := by
  induction entries generalizing table with
  | nil =>
    cases h
    exact .inl hx
  | cons e entries ih =>
    rcases e with ⟨f, slot⟩
    rw [fillTable] at h
    split at h
    · exact ih h
    · split at h
      · next hfree =>
        rcases ih h with hi | hi
        · by_cases hf : f.number - 1 = i
          · subst hf
            rw [List.getElem?_set_self (List.getElem?_eq_some_iff.1 hfree).1] at hi
            cases hi
            exact .inr rfl
          · rw [List.getElem?_set_ne hf] at hi
            exact .inl hi
        · exact .inr hi
      · cases h

theorem exists_slot {fields : List FieldDescriptor} {slots : List Slot}
    (hfits : fits slots fields = true) {f : FieldDescriptor} (hf : f ∈ fields) :
    ∃ slot, (f, slot) ∈ fields.zip slots := by
  obtain ⟨i, hi, rfl⟩ := List.mem_iff_getElem.1 hf
  have hlt : i < slots.length := by rwa [(fits_iff.1 hfits).length_eq]
  have hzip : i < (fields.zip slots).length := by rw [List.length_zip]; omega
  exact ⟨slots[i], List.mem_iff_getElem.2 ⟨i, hzip, List.getElem_zip⟩⟩

/-- The words of a message that has a class. -/
theorem TableLayout.takes
    (hlay : ∀ name v ws fuel ty, lay name v ws → typeName schema fuel (.message name) = some ty →
      Takes hash classes ty ws) (hclasses : Generated schema classes) {name : ℕ}
    (halias : isAlias (schema name) = none) {slots : List Slot}
    {table : List (Option (FieldDescriptor × Slot))} (hfits : fits slots (schema name) = true)
    (htable : fillTable ((schema name).zip slots) (List.replicate (maxId (schema name)) none) =
      .ok table) {ws : List UInt32} (h : TableLayout hash lay table ws) :
    Takes hash classes (.message name) ws := by
  obtain ⟨ps, hmsg, hpieces⟩ := h
  -- A field that is written has its entry in the table.
  have hentry : ∀ (i : ℕ) p, (trim ps)[i]? = some p → ∃ entry, table[i]? = some entry ∧
      EntryLayout hash lay entry p.words ∧ Folded p := by
    intro i p hi
    obtain ⟨es, hps, -⟩ := trim_append ps
    have hlt := (List.getElem?_eq_some_iff.1 hi).1
    have hi' : ps[i]? = some p := by rw [hps, List.getElem?_append_left hlt, hi]
    obtain ⟨hlt', rfl⟩ := List.getElem?_eq_some_iff.1 hi'
    have hlt₂ : i < table.length := by rwa [hpieces.length_eq]
    exact ⟨table[i], List.getElem?_eq_getElem hlt₂, hpieces.get hlt₂ hlt'⟩
  refine .message hmsg (fun p hp x hx => ?_) (fun i t p hmem hty hi hne => ?_) fun i p hi ho => ?_
  · obtain ⟨i, hi⟩ := List.mem_iff_getElem?.1 hp
    obtain ⟨-, -, -, hfolded⟩ := hentry i p hi
    rw [hx] at hfolded
    exact absurd hfolded (by simp [Folded])
  · -- A field of the class is one of the descriptor, and has its place in the table.
    obtain ⟨f, fuel, hf, hdep, rfl, hname⟩ := hclasses.of_field halias hmem
    obtain ⟨entry, hi', hlayout, -⟩ := hentry _ _ hi
    obtain ⟨slot, hslot⟩ := exists_slot hfits hf
    rw [table_of_mem htable hslot hdep] at hi'
    cases hi'
    exact SlotLayout.takes hlay hlayout hne hname hty
  · obtain ⟨entry, hi', hlayout, hfolded⟩ := hentry _ _ hi
    have hlong := hfolded.outer ho
    cases entry with
    | none =>
      -- A number without a field has no words, so no link either.
      rw [show p.words = [] from hlayout] at hlong
      exact absurd hlong (by simp)
    | some entry =>
      rcases entry with ⟨f, slot⟩
      obtain ⟨hmem, hdep⟩ := mem_of_table htable (List.mem_of_getElem? hi')
      obtain ⟨t, fuel, hfield, hname⟩ := hclasses.field halias (List.of_mem_zip hmem).1 hdep
      obtain rfl : i = f.number - 1 := by
        rcases fillTable_index htable hi' with h0 | h0
        · rw [List.getElem?_replicate] at h0
          split at h0 <;> cases h0
        · exact h0
      refine ⟨t, hfield, ?_⟩
      rintro rfl
      have := SlotLayout.length_scalar hlayout hname
      omega

/-- A message without fields is a single word. -/
theorem TableLayout.zero {ws : List UInt32} (h : TableLayout hash lay [none] ws) : ws = [0] := by
  obtain ⟨ps, hmsg, hpieces⟩ := h
  obtain ⟨p, rest, hp, hrest, rfl⟩ := List.forall₂_cons_left_iff.1 hpieces
  obtain rfl := List.forall₂_nil_left_iff.1 hrest
  have htrim : trim [p] = [] := by
    have hnil : p.words = [] := hp.1
    simp [trim, List.rdropWhile, hnil]
  rw [hmsg.eq, htrim]
  rfl

/-- A message without fields, instead of a container. -/
theorem takes_zero {name : FieldType → Option Ty} {kind : FieldKind}
    (h : containerName name kind = some ty) :
    Takes hash classes ty [0] := by
  rcases kind with t | t | ⟨k, v⟩
  · cases h
  · rw [containerName] at h
    split at h
    · cases h
      rw [← stringWords_nil]
      exact .bools (by decide)
    · cases h
      exact .zero trivial
    · cases h
      exact .zero trivial
    · obtain ⟨t', -, rfl⟩ := Option.map_eq_some_iff.1 h
      exact .zero trivial
  · rw [containerName] at h
    obtain ⟨k', -, h⟩ := Option.bind_eq_some_iff.1 h
    obtain ⟨v', -, h⟩ := Option.bind_eq_some_iff.1 h
    cases h
    exact .zero trivial

/-- The words of a message of Protobuf are an object of its type. -/
theorem MessageLayout.takes
    (hlay : ∀ name v ws fuel ty, lay name v ws → typeName schema fuel (.message name) = some ty →
      Takes hash classes ty ws) (hclasses : Generated schema classes) (hvalid : Valid schema)
    {name : ℕ} {slots : List Slot} {ws : List UInt32}
    (h : MessageLayout hash lay (schema name) slots ws)
    (hname : typeName schema fuel (.message name) = some ty) : Takes hash classes ty ws := by
  obtain ⟨hfits, table, htable, hnumbers, hwords⟩ := h
  cases fuel with
  | zero => cases hname
  | succ fuel =>
    rw [typeName, FieldType.form] at hname
    dsimp only at hname
    cases halias : isAlias (schema name) with
    | none =>
      rw [halias] at hname
      cases hname
      rcases hwords with ⟨f, slot, rfl, hf, -⟩ | ⟨-, hwords⟩
      · obtain ⟨hfields, -⟩ := alias_of_table htable hfits hnumbers (hvalid.distinct name) rfl
        rw [hfields, isAlias, if_pos hf] at halias
        cases halias
      · exact hwords.takes hlay hclasses halias hfits htable
    | some f =>
      rw [halias] at hname
      dsimp only at hname
      obtain ⟨hfields, hf⟩ := isAlias_eq halias
      have hfield : aliasField (schema name) = some f := by
        rw [hfields, aliasField, if_pos ⟨hf, hvalid.aliased name f halias⟩]
      obtain ⟨slot, -, rfl⟩ := table_of_alias htable hfits hfield
      rcases hwords with ⟨g, slot', htable', -, hwords⟩ | ⟨hother, hwords⟩
      · split at htable'
        · cases htable'
        · cases htable'
          exact hwords.takes hlay hname
      · by_cases hdep : f.deprecated = true
        · -- Nothing is written for a field that is deprecated.
          rw [if_pos hdep] at hwords
          rw [hwords.zero]
          exact takes_zero hname
        · rw [if_neg hdep] at hother
          exact absurd hf (hother f slot rfl)

/-- What is written for a message of Protobuf is an object of its type. -/
theorem Layout.takes (hclasses : Generated schema classes) (hvalid : Valid schema) {n name : ℕ}
    {v : Value} {ws : List UInt32} (h : Layout hash schema n name v ws)
    (hname : typeName schema fuel (.message name) = some ty) : Takes hash classes ty ws := by
  induction n generalizing name v ws fuel ty with
  | zero => exact absurd h id
  | succ n ih =>
    obtain ⟨slots, -, h⟩ := h
    exact h.takes (fun _ _ _ _ _ h hname => ih h hname) hclasses hvalid hname

end

end ProtoCache.Extension

import ProtoCache.Extension.Reflection
import ProtoCache.Lib.Pointwise

/-!
# Finding and registering over time

Calls of `Find` and `Register` of a `DescriptorPool` (`src/extension/reflection.cc`),
in any order. `Find` keeps in the descriptor whether its types were found, and binds
fields on the way; a descriptor for which it failed is only tried again by a
`Register` that succeeds.

* `fixUnknownType_spec`: whether all types of a descriptor are found depends on what is
  registered only, not on the fields that are bound already;
* `Similar`: two pools of the same registrations, with fields bound at different
  times; `find_similar`, `register_similar`;
* `find_pure_iff`: what `Find` returns does not depend on earlier calls of `Find`, if
  and only if no `Register` that fails leaves what was missing to a descriptor.
-/

namespace ProtoCache.Reflection

variable {p p' : DescriptorPool}

/-- All types of the descriptor are known or declared. -/
def Descriptor.Resolvable (p : DescriptorPool) (full : Name) (d : Descriptor) : Prop :=
  ∀ field ∈ d.visited, Reflection.Resolvable p full field

/-- The types of two fields are the same, or they can both be found. -/
def Alike (p : DescriptorPool) (full : Name) (f f' : Field) : Prop :=
  f.value = f'.value ∧ f.valueType = f'.valueType ∨ Resolvable p full f ∧ Resolvable p full f'

/-- Descriptors with alike fields. -/
def Descriptor.Alike (p : DescriptorPool) (full : Name) (d d' : Descriptor) : Prop :=
  List.Forall₂ (Reflection.Alike p full) d.visited d'.visited

/-- More is registered. -/
def Grows (p p' : DescriptorPool) : Prop := ∀ name, Declared p name → Declared p' name

theorem Resolvable.grows {full : Name} {f : Field} (h : Resolvable p full f) (hp : Grows p p') :
    Resolvable p' full f := fun hv => by
  obtain ⟨hn, c, hc, hdecl⟩ := h hv
  exact ⟨hn, c, hc, hp c hdecl⟩

theorem Alike.grows {full : Name} {f f' : Field} (h : Alike p full f f') (hp : Grows p p') :
    Alike p' full f f' := h.imp_right fun h => ⟨h.1.grows hp, h.2.grows hp⟩

theorem Alike.resolvable_iff {full : Name} {f f' : Field} (h : Alike p full f f') :
    Resolvable p full f ↔ Resolvable p full f' := by
  rcases h with h | h
  · rw [Resolvable, Resolvable, h.1, h.2]
  · exact iff_of_true h.1 h.2

theorem Alike.symm {full : Name} {f f' : Field} (h : Alike p full f f') : Alike p full f' f :=
  h.imp (fun h => ⟨h.1.symm, h.2.symm⟩) And.symm

theorem Alike.trans {full : Name} {f f' f'' : Field} (h : Alike p full f f')
    (h' : Alike p full f' f'') :
    Alike p full f f'' := by
  rcases h with h | h
  · rcases h' with h' | h'
    · exact .inl ⟨h.1.trans h'.1, h.2.trans h'.2⟩
    · exact .inr ⟨(Alike.resolvable_iff (.inl h)).2 h'.1, h'.2⟩
  · exact .inr ⟨h.1, h'.resolvable_iff.1 h.2⟩

namespace Descriptor

theorem alike_refl (p : DescriptorPool) (full : Name) (d : Descriptor) : d.Alike p full d :=
  List.forall₂_same.2 fun _ _ => .inl ⟨rfl, rfl⟩

theorem Alike.grows {full : Name} {d d' : Descriptor} (h : d.Alike p full d') (hp : Grows p p') :
    d.Alike p' full d' := h.imp fun _ _ h => h.grows hp

theorem Alike.trans {full : Name} {d d' d'' : Descriptor} (h : d.Alike p full d')
    (h' : d'.Alike p full d'') :
    d.Alike p full d'' := Pointwise.comp h h' fun _ _ _ => Reflection.Alike.trans

theorem Alike.symm {full : Name} {d d' : Descriptor} (h : d.Alike p full d') : d'.Alike p full d :=
  (h.imp fun _ _ h => h.symm).flip

theorem Alike.resolvable_iff {full : Name} {d d' : Descriptor} (h : d.Alike p full d') :
    d.Resolvable p full ↔ d'.Resolvable p full :=
  Pointwise.forall_iff h fun _ _ => Reflection.Alike.resolvable_iff

end Descriptor

/-! ## Another try -/

/-- A field that is found is alike, as it could be found. -/
theorem checkType_alike {full : Name} {f f' : Field} (h : checkType p full f = some f') :
    Alike p full f' f := by
  by_cases hv : f.value = .unknown
  · have hres : Resolvable p full f := by
      by_contra hres
      rw [checkType_eq_none_iff.2 hres] at h
      cases h
    obtain ⟨c, -, -, rfl⟩ := checkType_some hv h
    exact .inr ⟨fun hb => absurd hb (bound_value c f), hres⟩
  · rw [checkType, if_pos hv] at h
    cases h
    exact .inl ⟨rfl, rfl⟩

/-- The loop binds fields, and says if all are known now. -/
theorem fixFields_spec (p : DescriptorPool) (full : Name) (fields : List (Name × Field)) :
    List.Forall₂ (Alike p full) ((fixFields p full fields).2.map Prod.snd) (fields.map Prod.snd) ∧
      ((fixFields p full fields).1 = true ↔ ∀ f ∈ fields.map Prod.snd, Resolvable p full f) := by
  induction fields with
  | nil => simp [fixFields]
  | cons f fields ih =>
    rw [fixFields]
    cases hc : checkType p full f.2 with
    | none =>
      refine ⟨List.forall₂_same.2 fun _ _ => .inl ⟨rfl, rfl⟩, iff_of_false (by simp) fun h => ?_⟩
      exact checkType_eq_none_iff.1 hc (h _ List.mem_cons_self)
    | some f' =>
      refine ⟨.cons (checkType_alike hc) ih.1, ?_⟩
      rw [List.map_cons, List.forall_mem_cons, ← ih.2]
      refine (and_iff_right ?_).symm
      by_contra hres
      rw [checkType_eq_none_iff.2 hres] at hc
      cases hc

/-- `FixUnknownType` binds fields, and says if all types are known now. -/
theorem fixUnknownType_spec (p : DescriptorPool) (full : Name) (d : Descriptor) :
    (fixUnknownType p full d).2.Alike p full d ∧
      ((fixUnknownType p full d).1 = true ↔ d.Resolvable p full) := by
  unfold Descriptor.Resolvable Descriptor.Alike
  by_cases ha : d.isAlias = true
  · rw [fixUnknownType_alias ha, Descriptor.visited, if_pos ha, List.forall_mem_singleton]
    constructor
    · refine .cons ?_ .nil
      cases hc : checkType p full d.alias_ with
      | none => exact .inl ⟨rfl, rfl⟩
      | some f' => exact checkType_alike hc
    · rw [fixUnknownType, if_pos ha]
      cases hc : checkType p full d.alias_ with
      | none => exact iff_of_false (by simp) (checkType_eq_none_iff.1 hc)
      | some f' =>
        refine iff_of_true rfl ?_
        by_contra hres
        rw [checkType_eq_none_iff.2 hres] at hc
        cases hc
  · have hspec := fixFields_spec p full d.fields
    rw [fixUnknownType_fields ha, Descriptor.visited, if_neg ha]
    refine ⟨hspec.1, ?_⟩
    rw [← hspec.2, fixUnknownType, if_neg ha]

/-- `FixUnknownType` leaves the state of the descriptor alone. -/
theorem fixUnknownType_id (p : DescriptorPool) (full : Name) (d : Descriptor) :
    (fixUnknownType p full d).2.alias_.id = d.alias_.id := by
  unfold fixUnknownType
  split
  · cases hc : checkType p full d.alias_ with
    | none => rfl
    | some f' =>
      by_cases hv : d.alias_.value = .unknown
      · obtain ⟨c, -, -, rfl⟩ := checkType_some hv hc
        simp only [bound]
        split <;> rfl
      · rw [checkType, if_pos hv] at hc
        cases hc
        rfl
  · rfl

/-- The state of a descriptor is not among the types of its fields. -/
theorem alike_setId (p : DescriptorPool) (full : Name) (d : Descriptor) (id : UInt32) :
    Descriptor.Alike p full { d with alias_ := { d.alias_ with id } } d := by
  by_cases ha : d.isAlias = true
  · rw [Descriptor.Alike, Descriptor.visited, Descriptor.visited, if_pos ha, if_pos (by exact ha)]
    exact .cons (.inl ⟨rfl, rfl⟩) .nil
  · rw [Descriptor.Alike, Descriptor.visited, Descriptor.visited, if_neg ha, if_neg (by exact ha)]
    exact List.forall₂_same.2 fun _ _ => .inl ⟨rfl, rfl⟩

/-! ## What a file adds -/

/-- The same is added to two pools: enumerations, and descriptors that were not tried yet. -/
def Adds (s t : DescriptorPool) (r r' : Bool × DescriptorPool) : Prop :=
  r.1 = r'.1 ∧ ∃ enums new,
    r.2 = ⟨s.enum_ ++ enums, s.pool_ ++ new⟩ ∧ r'.2 = ⟨t.enum_ ++ enums, t.pool_ ++ new⟩ ∧
      (∀ e ∈ new, e.2.alias_.id = 0xffffffff) ∧
      ((s.pool_.map Prod.fst).Nodup → ((s.pool_ ++ new).map Prod.fst).Nodup)

/-- The names in two pools. -/
abbrev SameNames (s t : DescriptorPool) : Prop := s.pool_.map Prod.fst = t.pool_.map Prod.fst

variable {s t : DescriptorPool}

theorem Adds.same_names {r r' : Bool × DescriptorPool} (h : Adds s t r r') (hst : SameNames s t) :
    SameNames r.2 r'.2 := by
  obtain ⟨-, enums, new, hr, hr', -⟩ := h
  rw [SameNames, hr, hr', List.map_append, List.map_append, hst]

theorem adds_nothing (ok : Bool) (s t : DescriptorPool) : Adds s t (ok, s) (ok, t) :=
  ⟨rfl, [], [], by simp, by simp, fun _ he => absurd he List.not_mem_nil, by simp⟩

theorem adds_enums (ns : Name) (enums : List EnumProto) (s t : DescriptorPool) (ok : Bool) :
    Adds s t (ok, addEnums s ns enums) (ok, addEnums t ns enums) :=
  ⟨rfl, (enums.filter fun e => !e.deprecated).map fun e => fullname ns e.name, [], by
    simp [addEnums], by simp [addEnums], fun _ he => absurd he List.not_mem_nil, by simp⟩

/-- One addition after another. -/
theorem Adds.trans {r r' q q' : Bool × DescriptorPool} (h : Adds s t r r')
    (h' : Adds r.2 r'.2 q q') :
    Adds s t q q' := by
  obtain ⟨-, enums, new, hr, hr', hid, hnd⟩ := h
  obtain ⟨hok, enums', new', hq, hq', hid', hnd'⟩ := h'
  refine ⟨hok, enums ++ enums', new ++ new', ?_, ?_, fun e he => ?_, fun hs => ?_⟩
  · rw [hq, hr, List.append_assoc, List.append_assoc]
  · rw [hq', hr', List.append_assoc, List.append_assoc]
  · exact (List.mem_append.1 he).elim (hid e) (hid' e)
  · rw [hr] at hnd'
    rw [← List.append_assoc]
    exact hnd' (hnd hs)

/-- One addition after another, unless the first fails. -/
theorem Adds.next {r r' : Bool × DescriptorPool} {f : DescriptorPool → Bool × DescriptorPool}
    (h : Adds s t r r') (hf : Adds r.2 r'.2 (f r.2) (f r'.2)) :
    Adds s t (if r.1 = true then f r.2 else (false, r.2)) (if r'.1 = true then f r'.2
      else (false, r'.2)) := by
  rw [← h.1]
  split
  · exact h.trans hf
  · exact h.trans (adds_nothing false _ _)

theorem convertField_id {nested : List MessageProto} {src : FieldProto} {out field : Field}
    (h : convertField nested src out = some field) : field.id = out.id := by
  rw [convertField] at h
  split at h
  · cases h
  · split at h
    · split at h
      · dsimp only at h
        split at h
        · cases h
        · cases h
          rfl
      · cases h
        rfl
    · cases h
      rfl

/-- A new descriptor has not been tried. -/
theorem makeDescriptor_id {nested : List MessageProto} {fields : List FieldProto} {d : Descriptor}
    (h : makeDescriptor nested fields = some d) : d.alias_.id = 0xffffffff := by
  have hfields {l : Option (List (Name × Field))}
    (hl : (l.map fun fields => ({ fields } : Descriptor)) = some d) :
      d.alias_.id = 0xffffffff := by
    obtain ⟨fs, -, rfl⟩ := Option.map_eq_some_iff.1 hl
    rfl
  unfold makeDescriptor at h
  split at h
  · split at h
    · obtain ⟨field, hfield, rfl⟩ := Option.map_eq_some_iff.1 h
      exact convertField_id hfield
    · exact hfields h
  · exact hfields h

theorem registerFields_adds (hst : SameNames s t) (name : Name) (nested : List MessageProto)
    (fields : List FieldProto) :
    Adds s t (registerFields s name nested fields) (registerFields t name nested fields) := by
  unfold registerFields
  cases hd : makeDescriptor nested fields with
  | none => exact adds_nothing false s t
  | some d =>
    dsimp only
    unfold emplace
    rw [← hst]
    split
    · exact adds_nothing false s t
    · rename_i hnew
      refine ⟨rfl, [], [(name, d)], by simp, by simp, fun e he => ?_, fun hs => ?_⟩
      · rw [List.mem_singleton.1 he]
        exact makeDescriptor_id hd
      · rw [List.map_append]
        refine List.nodup_append.2 ⟨hs, List.nodup_singleton name, fun a ha b hb hab => hnew ?_⟩
        have hb : b = name := List.mem_singleton.1 hb
        rwa [← hb, ← hab]

mutual

/-- A message adds the same to two pools with the same names. -/
theorem registerMessage_adds {s t : DescriptorPool} (hst : SameNames s t) (ns : Name)
    (m : MessageProto) :
    Adds s t (registerMessage s ns m) (registerMessage t ns m) := by
  cases m with
  | message name deprecated enums nested fields =>
    rw [registerMessage, registerMessage]
    have henums := adds_enums (fullname ns name) enums s t true
    have hnested := registerNested_adds (henums.same_names hst) (fullname ns name) nested
    have hfields := registerFields_adds (hnested.same_names (henums.same_names hst))
      (fullname ns name) nested fields
    exact (henums.trans hnested).next (f :=
      fun p => registerFields p (fullname ns name) nested fields) hfields
  | mapEntry name deprecated key value =>
    rw [registerMessage, registerMessage]
    exact registerFields_adds hst _ _ _

/-- The messages in a message add the same to two pools with the same names. -/
theorem registerNested_adds {s t : DescriptorPool} (hst : SameNames s t) (ns : Name)
    (ms : List MessageProto) :
    Adds s t (registerNested s ns ms) (registerNested t ns ms) := by
  cases ms with
  | nil =>
    rw [registerNested, registerNested]
    exact adds_nothing true s t
  | cons m ms =>
    rw [registerNested, registerNested]
    split
    · exact registerNested_adds hst ns ms
    · have hm := registerMessage_adds hst ns m
      exact hm.next (f := fun p => registerNested p ns ms)
        (registerNested_adds (hm.same_names hst) ns ms)

end

theorem registerMessages_adds (hst : SameNames s t) (ns : Name) (ms : List MessageProto) :
    Adds s t (registerMessages s ns ms) (registerMessages t ns ms) := by
  induction ms generalizing s t with
  | nil => exact adds_nothing true s t
  | cons m ms ih =>
    rw [registerMessages, registerMessages]
    split
    · exact ih hst
    · have hm := registerMessage_adds hst ns m
      exact hm.next (f := fun p => registerMessages p ns ms) (ih (hm.same_names hst))

/-- What the messages of a file add, before the last loop of `Register`. -/
def registerFile (p : DescriptorPool) (proto : FileProto) : Bool × DescriptorPool :=
  registerMessages (addEnums p proto.package proto.enums) proto.package proto.messages

theorem registerFile_adds (hst : SameNames s t) (proto : FileProto) :
    Adds s t (registerFile s proto) (registerFile t proto) := by
  have henums := adds_enums proto.package proto.enums s t true
  exact henums.trans (registerMessages_adds (henums.same_names hst) proto.package proto.messages)

/-- Another try for every descriptor. -/
def resolveAll (p : DescriptorPool) : DescriptorPool :=
  { p with pool_ := p.pool_.map fun e => (e.1, resolve p e.1 e.2) }

theorem register_eq (p : DescriptorPool) (proto : FileProto) : register p proto =
    if (registerFile p proto).1 = true then (true, resolveAll (registerFile p proto).2)
    else (false, (registerFile p proto).2) := rfl

/-! ## Pools of the same registrations -/

/-- The names of two pools are the same, and their descriptors alike. -/
structure Similar (s t : DescriptorPool) : Prop where
  enums : s.enum_ = t.enum_
  pool : List.Forall₂ (fun e e' => e.1 = e'.1 ∧ e.2.Alike s e.1 e'.2) s.pool_ t.pool_

/-- What is kept true of a pool: names are unique, a descriptor is resolved only when its types can
    be found, and its state is one of three. -/
structure Coherent (s : DescriptorPool) : Prop where
  nodup : (s.pool_.map Prod.fst).Nodup
  resolved : ∀ e ∈ s.pool_, e.2.alias_.id = 0 → e.2.Resolvable s e.1
  state : ∀ e ∈ s.pool_, e.2.alias_.id = 0 ∨ e.2.alias_.id = 0xffffffff ∨ e.2.alias_.id = 0xfffffffe

theorem similar_refl (s : DescriptorPool) : Similar s s :=
  ⟨rfl, List.forall₂_same.2 fun e _ => ⟨rfl, e.2.alike_refl _ _⟩⟩

theorem Similar.same_names (h : Similar s t) : SameNames s t :=
  Pointwise.map_eq h.pool fun _ _ _ he => he.1

theorem declared_congr (hst : SameNames s t) (henum : s.enum_ = t.enum_) (name : Name) :
    Declared s name ↔ Declared t name := by
  rw [Declared, Declared, henum, hst]

theorem Similar.grows (h : Similar s t) : Grows s t ∧ Grows t s :=
  ⟨fun name => (declared_congr h.same_names h.enums name).1,
    fun name => (declared_congr h.same_names h.enums name).2⟩

theorem Similar.symm (h : Similar s t) : Similar t s := by
  refine ⟨h.enums.symm, (h.pool.imp fun e e' (he : e.1 = e'.1 ∧ e.2.Alike s e.1 e'.2) => ?_).flip⟩
  exact ⟨he.1.symm, he.1 ▸ (he.2.grows h.grows.1).symm⟩

theorem Similar.trans {u : DescriptorPool} (h : Similar s t) (h' : Similar t u) : Similar s u := by
  refine ⟨h.enums.trans h'.enums, Pointwise.comp h.pool h'.pool fun e e' e'' he he' => ?_⟩
  exact ⟨he.1.trans he'.1, he.2.trans (he.1 ▸ he'.2.grows h.grows.2)⟩

/-- Additions leave what is declared. -/
theorem grows_append (s : DescriptorPool) (enums : List Name) (new : List (Name × Descriptor)) :
    Grows s ⟨s.enum_ ++ enums, s.pool_ ++ new⟩ := by
  rintro name (h | h)
  · exact .inl (List.mem_append_left _ h)
  · exact .inr (by rw [List.map_append]; exact List.mem_append_left _ h)

theorem Adds.similar {r r' : Bool × DescriptorPool} (h : Adds s t r r') (hst : Similar s t) :
    Similar r.2 r'.2 := by
  obtain ⟨-, enums, new, hr, hr', -⟩ := h
  rw [hr, hr']
  have hold :=
    hst.pool.imp fun (e e' : Name × Descriptor) (he : e.1 = e'.1 ∧ e.2.Alike s e.1 e'.2) =>
    And.intro he.1 (he.2.grows (grows_append s enums new))
  have hnew : List.Forall₂ (fun e e' : Name × Descriptor => e.1 = e'.1 ∧
      e.2.Alike ⟨s.enum_ ++ enums, s.pool_ ++ new⟩ e.1 e'.2) new new :=
    List.forall₂_same.2 fun e _ => ⟨rfl, e.2.alike_refl _ _⟩
  exact ⟨by rw [hst.enums], List.rel_append hold hnew⟩

theorem Adds.coherent {r r' : Bool × DescriptorPool} (h : Adds s t r r') (hs : Coherent s) :
    Coherent r.2 := by
  obtain ⟨-, enums, new, hr, -, hid, hnd⟩ := h
  rw [hr]
  refine ⟨hnd hs.nodup, fun e he h0 => ?_, fun e he => ?_⟩
  · rcases List.mem_append.1 he with he | he
    · exact fun f hf => (hs.resolved e he h0 f hf).grows (grows_append s enums new)
    · rw [hid e he] at h0
      exact absurd h0 (by decide)
  · rcases List.mem_append.1 he with he | he
    · exact hs.state e he
    · exact .inr (.inl (hid e he))

/-- Descriptors that are alike to those they take the place of, under the same names. -/
theorem Similar.map {f : Name × Descriptor → Descriptor}
    (hf : ∀ e ∈ s.pool_, (f e).Alike s e.1 e.2) :
    Similar { s with pool_ := s.pool_.map fun e => (e.1, f e) } s := by
  have hnames : SameNames s { s with pool_ := s.pool_.map fun e => (e.1, f e) } := by
    rw [SameNames, List.map_map]
    rfl
  have hdecl : Grows s { s with pool_ := s.pool_.map fun e => (e.1, f e) } := fun name =>
    (declared_congr hnames rfl name).1
  refine ⟨rfl, List.forall₂_map_left_iff.2 (List.forall₂_same.2 fun e he => ⟨rfl, ?_⟩)⟩
  exact (hf e he).grows hdecl

theorem resolve_alike (p : DescriptorPool) (name : Name) (d : Descriptor) :
    (resolve p name d).Alike p name d := by
  unfold resolve
  split
  · dsimp only
    split
    · exact (alike_setId p name _ 0).trans (fixUnknownType_spec p name d).1
    · exact (fixUnknownType_spec p name d).1
  · exact d.alike_refl p name

/-- After the last loop of `Register`, the descriptors that can be resolved are. -/
theorem resolve_id {name : Name} {d : Descriptor} (h : d.Resolvable p name) :
    (resolve p name d).alias_.id = 0 := by
  unfold resolve
  split
  · dsimp only
    rw [if_pos ((fixUnknownType_spec p name d).2.2 h)]
    rfl
  · rename_i h0
    exact not_not.1 h0

/-- The state of one that cannot is as it was. -/
theorem resolve_id_of_not {name : Name} {d : Descriptor} (h : ¬d.Resolvable p name) :
    (resolve p name d).alias_.id = d.alias_.id := by
  unfold resolve
  split
  · dsimp only
    rw [if_neg fun hok => h ((fixUnknownType_spec p name d).2.1 hok)]
    exact fixUnknownType_id p name d
  · rfl

theorem update_eq (p : DescriptorPool) (name : Name) (d : Descriptor) :
    update p name d =
      { p with pool_ := p.pool_.map fun e => (e.1, if e.1 = name then d else e.2) } := by
  unfold update
  congr 2
  funext e
  split
  · rename_i h
    rw [h]
  · rfl

/-- Names are unique, so that looking up a name is to meet its entry. -/
theorem lookup_iff {l : List (Name × Descriptor)} (hl : (l.map Prod.fst).Nodup) {name : Name}
    {d : Descriptor} :
    l.lookup name = some d ↔ (name, d) ∈ l := by
  rw [List.lookup_eq_some_iff]
  constructor
  · rintro ⟨l₁, l₂, rfl, -⟩
    exact List.mem_append_right _ List.mem_cons_self
  · intro h
    obtain ⟨l₁, l₂, rfl⟩ := List.append_of_mem h
    refine ⟨l₁, l₂, rfl, fun e he => ?_⟩
    rw [List.map_append, List.nodup_append] at hl
    simpa using (hl.2.2 e.1 (List.mem_map_of_mem he) name List.mem_cons_self).symm

/-- What `Find` does, by the state of the descriptor. -/
theorem find_cases (hs : Coherent s) (name : Name) :
    s.pool_.lookup name = none ∧ find s name = (false, s) ∨
    ∃ d, s.pool_.lookup name = some d ∧
      (d.alias_.id = 0 ∧ find s name = (true, s) ∨ d.alias_.id = 0xfffffffe ∧
        find s name = (false, s) ∨
        d.alias_.id = 0xffffffff ∧ ∃ ok d',
          find s name = (ok, update s name d') ∧ d'.Alike s name d ∧
          (ok = true ∧ d.Resolvable s name ∧ d'.alias_.id = 0 ∨
            ok = false ∧ ¬d.Resolvable s name ∧ d'.alias_.id = 0xfffffffe)) := by
  unfold find
  cases hd : s.pool_.lookup name with
  | none => exact .inl ⟨rfl, rfl⟩
  | some d =>
    refine .inr ⟨d, rfl, ?_⟩
    dsimp only
    -- The mark has three values: resolved, not tried, and failed.
    rcases hs.state _ ((lookup_iff hs.nodup).1 hd) with h | h | h
    · exact .inl ⟨h, if_pos h⟩
    · -- The descriptor has not been tried yet.
      refine .inr (.inr ⟨h, ?_⟩)
      have hid := alike_setId s name d (d.alias_.id - 1)
      have hspec :=
        fixUnknownType_spec s name { d with alias_ := { d.alias_ with id := d.alias_.id - 1 } }
      have hmark :=
        fixUnknownType_id s name { d with alias_ := { d.alias_ with id := d.alias_.id - 1 } }
      rw [if_neg (by rw [h]; decide), if_neg (by rw [h]; decide)]
      split
      · rename_i hok
        exact ⟨true, _, rfl, (alike_setId s name _ 0).trans (hspec.1.trans hid),
          .inl ⟨rfl, hid.resolvable_iff.1 (hspec.2.1 hok), rfl⟩⟩
      · rename_i hok
        refine ⟨false, _, rfl, hspec.1.trans hid,
          .inr ⟨rfl, fun hres => hok (hspec.2.2 (hid.resolvable_iff.2 hres)), ?_⟩⟩
        rw [hmark]
        dsimp only
        rw [h]
        rfl
    · exact .inr (.inl ⟨h, by rw [if_neg (by rw [h]; decide), if_pos (by rw [h]; decide)]⟩)

/-- What `Find` returns, and the pool it leaves, if descriptors for which it failed cannot be
    found. -/
theorem find_true_iff (hs : Coherent s)
    (hfail : ∀ e ∈ s.pool_, e.2.alias_.id = 0xfffffffe → ¬e.2.Resolvable s e.1) (name : Name) :
    (find s name).1 = true ↔ ∃ d, (name, d) ∈ s.pool_ ∧ d.Resolvable s name := by
  have only {d d' : Descriptor} (hd : s.pool_.lookup name = some d) (hd' : (name, d') ∈ s.pool_) :
      d' = d := by
    rw [(lookup_iff hs.nodup).2 hd'] at hd
    exact Option.some.inj hd
  rcases find_cases hs name with ⟨hnone, hf⟩ | ⟨d, hd, h⟩
  · rw [hf]
    refine iff_of_false (by simp) fun ⟨d, hd, _⟩ => ?_
    rw [(lookup_iff hs.nodup).2 hd] at hnone
    cases hnone
  · have hmem := (lookup_iff hs.nodup).1 hd
    rcases h with ⟨h0, hf⟩ | ⟨h1, hf⟩ | ⟨-, ok, d', hf, -, h⟩
    · rw [hf]
      exact iff_of_true rfl ⟨d, hmem, hs.resolved _ hmem h0⟩
    · rw [hf]
      refine iff_of_false (by simp) fun ⟨d', hd', hres⟩ => ?_
      rw [only hd hd'] at hres
      exact hfail _ hmem h1 hres
    · rw [hf]
      rcases h with ⟨rfl, hres, -⟩ | ⟨rfl, hres, -⟩
      · exact iff_of_true rfl ⟨d, hmem, hres⟩
      · refine iff_of_false (by simp) fun ⟨d', hd', hres'⟩ => ?_
        rw [only hd hd'] at hres'
        exact hres hres'

/-- The entry of a name. -/
theorem eq_of_lookup (hs : Coherent s) {name : Name} {d : Descriptor}
    (hd : s.pool_.lookup name = some d) {e : Name × Descriptor} (he : e ∈ s.pool_)
    (hname : e.1 = name) : e.2 = d := by
  have he : (name, e.2) ∈ s.pool_ := hname ▸ he
  rw [(lookup_iff hs.nodup).2 he] at hd
  exact Option.some.inj hd

/-- Only the descriptor of the name changes. -/
theorem update_alike (hs : Coherent s) {name : Name} {d d' : Descriptor}
    (hd : s.pool_.lookup name = some d) (h : d'.Alike s name d) (e : Name × Descriptor)
    (he : e ∈ s.pool_) :
    Descriptor.Alike s e.1 (if e.1 = name then d' else e.2) e.2 := by
  split
  · rename_i hname
    rw [eq_of_lookup hs hd he hname, hname]
    exact h
  · exact e.2.alike_refl _ _

/-- `Find` leaves a pool of the same registrations. -/
theorem find_similar (hs : Coherent s) (name : Name) : Similar (find s name).2 s := by
  rcases find_cases hs name with ⟨-, hf⟩ | ⟨d, hd, ⟨-, hf⟩ | ⟨-, hf⟩ | ⟨-, ok, d', hf, halike, -⟩⟩
  · rw [hf]
    exact similar_refl s
  · rw [hf]
    exact similar_refl s
  · rw [hf]
    exact similar_refl s
  · rw [hf, update_eq]
    exact Similar.map (update_alike hs hd halike)

/-- What is kept true stays true where descriptors are tried again. -/
theorem Coherent.map (hs : Coherent s) {f : Name × Descriptor → Descriptor}
    (hf : ∀ e ∈ s.pool_, (f e).Alike s e.1 e.2)
    (hres : ∀ e ∈ s.pool_, (f e).alias_.id = 0 → e.2.Resolvable s e.1)
    (hstate : ∀ e ∈ s.pool_,
      (f e).alias_.id = 0 ∨ (f e).alias_.id = 0xffffffff ∨ (f e).alias_.id = 0xfffffffe) :
    Coherent { s with pool_ := s.pool_.map fun e => (e.1, f e) } := by
  have hsim := Similar.map hf
  refine ⟨by rw [hsim.same_names]; exact hs.nodup, fun e he h0 => ?_, fun e he => ?_⟩
  · obtain ⟨e', he', rfl⟩ := List.mem_map.1 he
    have hr := (hf e' he').resolvable_iff.2 (hres e' he' h0)
    exact fun field hfield => (hr field hfield).grows hsim.grows.2
  · obtain ⟨e', he', rfl⟩ := List.mem_map.1 he
    exact hstate e' he'

theorem find_coherent (hs : Coherent s) (name : Name) : Coherent (find s name).2 := by
  rcases find_cases hs name with ⟨-, hf⟩ | ⟨d, hd, ⟨-, hf⟩ | ⟨-, hf⟩ | ⟨-, ok, d', hf, halike, h⟩⟩
  · rw [hf]
    exact hs
  · rw [hf]
    exact hs
  · rw [hf]
    exact hs
  · rw [hf, update_eq]
    refine hs.map (update_alike hs hd halike) (fun e he => ?_) fun e he => ?_
    · split
      · rename_i hname
        intro h0
        rw [eq_of_lookup hs hd he hname, hname]
        rcases h with ⟨-, hres, -⟩ | ⟨-, -, hmark⟩
        · exact hres
        · rw [hmark] at h0
          exact absurd h0 (by decide)
      · exact hs.resolved e he
    · split
      · rcases h with ⟨-, -, h0⟩ | ⟨-, -, hmark⟩
        · exact .inl h0
        · exact .inr (.inr hmark)
      · exact hs.state e he

theorem resolveAll_coherent (hs : Coherent s) : Coherent (resolveAll s) := by
  refine hs.map (fun e _ => resolve_alike s e.1 e.2) (fun e he h0 => ?_) fun e he => ?_
  · by_contra hres
    rw [resolve_id_of_not hres] at h0
    exact hres (hs.resolved e he h0)
  · by_cases hres : e.2.Resolvable s e.1
    · exact .inl (resolve_id hres)
    · rw [resolve_id_of_not hres]
      exact hs.state e he

theorem resolveAll_similar (s : DescriptorPool) : Similar (resolveAll s) s :=
  Similar.map fun e _ => resolve_alike s e.1 e.2

theorem register_coherent (hs : Coherent s) (proto : FileProto) :
    Coherent (register s proto).2 := by
  have hfile := (registerFile_adds (rfl : SameNames s s) proto).coherent hs
  rw [register_eq]
  split
  · exact resolveAll_coherent hfile
  · exact hfile

/-- `Register` does the same to pools of the same registrations. -/
theorem register_similar (hst : Similar s t) (proto : FileProto) :
    (register s proto).1 = (register t proto).1 ∧
      Similar (register s proto).2 (register t proto).2 := by
  have hadds := registerFile_adds hst.same_names proto
  have hsim := hadds.similar hst
  rw [register_eq, register_eq, ← hadds.1]
  split
  · exact ⟨rfl, (resolveAll_similar _).trans (hsim.trans (resolveAll_similar _).symm)⟩
  · exact ⟨rfl, hsim⟩

/-! ## Runs -/

/-- A call of a user of the pool. -/
inductive Call
  | register (proto : FileProto)
  | find (name : Name)

/-- The pool after a call. -/
def call (p : DescriptorPool) : Call → DescriptorPool
  | .register proto => (register p proto).2
  | .find name => (find p name).2

/-- The pool after some calls. -/
def after (calls : List Call) : DescriptorPool := calls.foldl call {}

def Call.isRegister : Call → Bool
  | .register _ => true
  | .find _ => false

/-- The calls of `Register` alone. -/
def registers (calls : List Call) : List Call := calls.filter Call.isRegister

/-- A descriptor for which `Find` failed, and which no `Register` has resolved since. -/
def Descriptor.Failed (d : Descriptor) : Prop := d.alias_.id = 0xfffffffe

/-- No `Register` that fails leaves what is missing to a descriptor for which `Find` failed. -/
def NothingLeft (calls : List Call) : Prop :=
  ∀ pre proto, pre ++ [.register proto] <+: calls → (register (after pre) proto).1 = false →
    ∀ e ∈ (after pre).pool_, e.2.Failed → ¬e.2.Resolvable (register (after pre) proto).2 e.1

/-- Descriptors for which `Find` failed cannot be found. -/
def Settled (s : DescriptorPool) : Prop := ∀ e ∈ s.pool_, e.2.Failed → ¬e.2.Resolvable s e.1

theorem after_append (calls : List Call) (c : Call) :
    after (calls ++ [c]) = call (after calls) c := by
  rw [after, List.foldl_append]
  rfl

theorem registers_register (calls : List Call) (proto : FileProto) :
    registers (calls ++ [.register proto]) = registers calls ++ [.register proto] := by
  simp [registers, Call.isRegister]

theorem registers_find (calls : List Call) (name : Name) :
    registers (calls ++ [.find name]) = registers calls := by
  simp [registers, Call.isRegister]

theorem coherent_after (calls : List Call) : Coherent (after calls) := by
  induction calls using List.reverseRecOn with
  | nil =>
    exact ⟨List.nodup_nil, fun e he => absurd he List.not_mem_nil,
      fun e he => absurd he List.not_mem_nil⟩
  | append_singleton calls c ih =>
    rw [after_append]
    cases c with
    | register proto => exact register_coherent ih proto
    | find name => exact find_coherent ih name

/-- Calls of `Find` leave no trace in what is registered. -/
theorem similar_after (calls : List Call) : Similar (after calls) (after (registers calls)) := by
  induction calls using List.reverseRecOn with
  | nil => exact similar_refl _
  | append_singleton calls c ih =>
    rw [after_append]
    cases c with
    | register proto =>
      rw [registers_register, after_append]
      exact (register_similar ih proto).2
    | find name =>
      rw [registers_find]
      exact (find_similar (coherent_after calls) name).trans ih

/-- Without `Find`, there is no descriptor for which it failed. -/
theorem not_failed_registers (calls : List Call) :
    ∀ e ∈ (after (registers calls)).pool_, ¬e.2.Failed := by
  induction calls using List.reverseRecOn with
  | nil => exact fun e he => absurd he List.not_mem_nil
  | append_singleton calls c ih =>
    cases c with
    | find name => rwa [registers_find]
    | register proto =>
      rw [registers_register, after_append, call, register_eq]
      obtain ⟨-, enums, new, hr, -, hid, -⟩ :=
        registerFile_adds (rfl : SameNames (after (registers calls)) (after (registers calls)))
          proto
      have hfile : ∀ e ∈ (registerFile (after (registers calls)) proto).2.pool_, ¬e.2.Failed := by
        rw [hr]
        intro e he
        rcases List.mem_append.1 he with he | he
        · exact ih e he
        · rw [Descriptor.Failed, hid e he]
          decide
      split
      · intro e he
        obtain ⟨e', he', rfl⟩ := List.mem_map.1 he
        by_cases hres : e'.2.Resolvable (registerFile (after (registers calls)) proto).2 e'.1
        · rw [Descriptor.Failed, resolve_id hres]
          decide
        · rw [Descriptor.Failed, resolve_id_of_not hres]
          exact hfile e' he'
      · exact hfile

theorem Descriptor.Resolvable.grows {d : Descriptor} {full : Name} (h : d.Resolvable p full)
    (hp : Grows p p') :
    d.Resolvable p' full := fun field hfield => (h field hfield).grows hp

/-- What can be found in a pool can be found in one of the same registrations. -/
theorem Similar.found (h : Similar s t) {name : Name} :
    (∃ d, (name, d) ∈ s.pool_ ∧ d.Resolvable s name) → ∃ d,
      (name, d) ∈ t.pool_ ∧ d.Resolvable t name := by
  rintro ⟨d, hd, hres⟩
  obtain ⟨⟨name', d'⟩, hd', rfl, halike⟩ := Pointwise.exists_right h.pool hd
  exact ⟨d', hd', (halike.resolvable_iff.1 hres).grows h.grows.1⟩

theorem find_settled (hs : Coherent s) (h : Settled s) (name : Name) : Settled (find s name).2 := by
  have hsim := find_similar hs name
  intro e he hfail hres
  -- Whatever can be found in the pool that `Find` leaves could be found before.
  have hres := hres.grows hsim.grows.1
  rcases find_cases hs name with ⟨-, hf⟩ | ⟨d, hd, ⟨-, hf⟩ | ⟨-, hf⟩ | ⟨-, ok, d', hf, halike, hok⟩⟩
  · rw [hf] at he
    exact h e he hfail hres
  · rw [hf] at he
    exact h e he hfail hres
  · rw [hf] at he
    exact h e he hfail hres
  · rw [hf, update_eq] at he
    obtain ⟨e', he', rfl⟩ := List.mem_map.1 he
    dsimp only at hfail hres
    split at hfail
    · rename_i hname
      rw [if_pos hname, hname, halike.resolvable_iff] at hres
      rcases hok with ⟨-, -, h0⟩ | ⟨-, hnot, -⟩
      · rw [Descriptor.Failed, h0] at hfail
        exact absurd hfail (by decide)
      · exact hnot hres
    · rename_i hname
      rw [if_neg hname] at hres
      exact h e' he' hfail hres

theorem resolveAll_settled (s : DescriptorPool) : Settled (resolveAll s) := by
  intro e he hfail hres
  obtain ⟨e', he', rfl⟩ := List.mem_map.1 he
  have hres : e'.2.Resolvable s e'.1 :=
    (resolve_alike s e'.1 e'.2).resolvable_iff.1 (hres.grows (resolveAll_similar s).grows.1)
  rw [Descriptor.Failed, resolve_id hres] at hfail
  exact absurd hfail (by decide)

/-- Descriptors for which `Find` failed cannot be found, as long as no `Register` fails and leaves
    what they need. -/
theorem settled_after {calls : List Call} (h : NothingLeft calls) : Settled (after calls) := by
  induction calls using List.reverseRecOn with
  | nil => exact fun e he => absurd he List.not_mem_nil
  | append_singleton calls c ih =>
    have ih := ih fun pre proto hpre => h pre proto (hpre.trans (List.prefix_append calls [c]))
    rw [after_append]
    cases c with
    | find name => exact find_settled (coherent_after calls) ih name
    | register proto =>
      have hlast := h calls proto List.prefix_rfl
      obtain ⟨-, enums, new, hr, -, hid, -⟩ :=
        registerFile_adds (rfl : SameNames (after calls) (after calls)) proto
      rw [register_eq] at hlast
      rw [call, register_eq]
      split
      · exact resolveAll_settled _
      · rename_i hok
        rw [if_neg hok] at hlast
        intro e he hfail
        have he' := he
        rw [hr] at he'
        rcases List.mem_append.1 he' with he' | he'
        · exact hlast rfl e he' hfail
        · rw [Descriptor.Failed, hid e he'] at hfail
          exact absurd hfail (by decide)

/-- What `Find` returns for a name depends on the calls of `Register` only, after any calls, and it
    returns a descriptor as soon as the types it needs are registered, if and only if no
    `Register` that fails leaves what is missing to a descriptor for which `Find` failed. -/
theorem find_pure_iff (calls : List Call) :
    (∀ pre, pre <+: calls → ∀ name,
      (find (after pre) name).1 = (find (after (registers pre)) name).1 ∧
        ((find (after pre) name).1 = true ↔
          ∃ d, (name, d) ∈ (after pre).pool_ ∧ d.Resolvable (after pre) name)) ↔
      NothingLeft calls := by
  constructor
  · intro h pre proto hpre hfail e he hmark hres
    -- After the `Register` that fails, the descriptor could be found, and is not.
    have hfind := (h _ hpre e.1).2
    rw [after_append] at hfind
    have hco := register_coherent (coherent_after pre) proto
    have he' : (e.1, e.2) ∈ (register (after pre) proto).2.pool_ := by
      obtain ⟨-, enums, new, hr, -⟩ :=
        registerFile_adds (rfl : SameNames (after pre) (after pre)) proto
      rw [register_eq] at hfail ⊢
      split at hfail
      · cases hfail
      · rename_i hok
        rw [if_neg hok, hr]
        exact List.mem_append_left _ he
    have htrue := hfind.2 ⟨e.2, he', hres⟩
    have hlook := (lookup_iff hco.nodup).2 he'
    have hstate : e.2.alias_.id = 0xfffffffe := hmark
    rcases find_cases hco e.1 with ⟨hnone, -⟩ | ⟨d, hd, hcases⟩
    · rw [hlook] at hnone
      cases hnone
    · obtain rfl : e.2 = d := by
        rw [hlook] at hd
        exact Option.some.inj hd
      rcases hcases with ⟨h0, -⟩ | ⟨-, hf⟩ | ⟨h1, -⟩
      · exact absurd (h0.symm.trans hstate) (by decide)
      · rw [call, hf] at htrue
        cases htrue
      · exact absurd (h1.symm.trans hstate) (by decide)
  · intro h pre hpre name
    have hset : Settled (after pre) :=
      settled_after fun pre' proto hpre' => h pre' proto (hpre'.trans hpre)
    have hfind := find_true_iff (coherent_after pre) hset name
    have hfind' := find_true_iff (coherent_after (registers pre))
      (fun e he hmark => absurd hmark (not_failed_registers pre e he)) name
    refine ⟨?_, hfind⟩
    rw [Bool.eq_iff_iff, hfind, hfind']
    exact ⟨(similar_after pre).found, (similar_after pre).symm.found⟩

/-- A file with a message `M` that has a field of the type `N`. -/
def needyFile : FileProto :=
  ⟨[], [], [.message ['M'] false [] [] [⟨['x'], 1, false, none, ['N'], false⟩]]⟩

/-- A file with the message `N` and, once more, a message `M`. -/
def clashingFile : FileProto :=
  ⟨[], [], [.message ['N'] false [] [] [], .message ['M'] false [] [] []]⟩

/-- The second file adds `N` before it fails. With an early `Find` of `M`, a later one returns null,
    and without it, the descriptor. -/
theorem find_impure :
    (find (after [.register needyFile, .find ['M'], .register clashingFile]) ['M']).1 = false ∧
      (find (after (registers [.register needyFile, .find ['M'], .register clashingFile]))
        ['M']).1 = true := by
  decide

end ProtoCache.Reflection

import ProtoCache.Extension.Pool

/-!
# Scopes over time

The type of a field is bound once: when `FixUnknownType` (`src/extension/reflection.cc`) is
called for its message and finds the types of the fields visited before it and its own. What is
registered later does not change it. The fields of a message are listed in the order in which
they are visited, whatever it is.

* `Tracks`: the fields of a message after some calls, from those that its file gave;
* `tracked_after`: it holds after any calls of `Register` and `Find`;
* `scoping_iff`: a field is bound to what the innermost scope declares, and left unbound if
  none does, exactly if none does or if that is what was found the first time.
-/

namespace ProtoCache.Reflection

variable {p p' : DescriptorPool} {full : Name}

/-! ## One field -/

/-- What is found for a name: what is declared without a package, or else by the innermost scope. -/
def Found (p : DescriptorPool) (full name c : Name) : Prop :=
  Declared p name ∧ c = name ∨ ¬Declared p name ∧ Innermost p full name c

theorem Innermost.eq {name c c' : Name} (h : Innermost p full name c)
    (h' : Innermost p full name c') : c = c' :=
  candidate_inj h.1 h'.1 (le_antisymm (h'.2.2 c h.1 h.2.1) (h.2.2 c' h'.1 h'.2.1))

theorem Found.eq {name c c' : Name} (h : Found p full name c) (h' : Found p full name c') :
    c = c' := by
  rcases h with ⟨hd, rfl⟩ | ⟨hd, hin⟩
  · rcases h' with ⟨-, rfl⟩ | ⟨hd', -⟩
    · rfl
    · exact absurd hd hd'
  · exact hin.eq (h'.resolve_left fun h => hd h.1).2

theorem Found.declared {name c : Name} (h : Found p full name c) :
    Candidate full name c ∧ Declared p c := by
  rcases h with ⟨hd, rfl⟩ | ⟨-, hc⟩
  · exact ⟨.inr rfl, hd⟩
  · exact ⟨hc.1, hc.2.1⟩

/-- A field of an unknown type is bound to what is found. -/
theorem checkType_found {f : Field} (hv : f.value = .unknown) (hres : Resolvable p full f) :
    ∃ c, Found p full f.valueType c ∧ checkType p full f = some (bound p c f) := by
  obtain ⟨hn, c', hc', hdecl'⟩ := hres hv
  rw [checkType_eq hv hn]
  by_cases hdecl : Declared p f.valueType
  · exact ⟨_, .inl ⟨hdecl, rfl⟩, if_pos hdecl⟩
  · rw [if_neg hdecl]
    rcases checkInner_spec (p := p) full f with ⟨-, hall⟩ | ⟨c, hc, hsome⟩
    · -- Some scope declares it, so that the search cannot have failed.
      rcases hc' with hc' | rfl
      · exact absurd hdecl' (hall c' hc')
      · exact absurd hdecl' hdecl
    · exact ⟨c, .inr ⟨hdecl, hc⟩, hsome⟩

theorem checkType_known {f : Field} (hv : f.value ≠ .unknown) : checkType p full f = some f :=
  if_pos hv

/-- The field without its number, which is the state of the descriptor where the field is an
    alias. -/
def Field.unmarked (f : Field) : Field := { f with id := 0 }

theorem bound_unmarked (c : Name) (f : Field) : bound p c f.unmarked = (bound p c f).unmarked := by
  unfold bound
  split <;> rfl

theorem checkType_unmarked (f : Field) :
    checkType p full f.unmarked = (checkType p full f).map Field.unmarked := by
  by_cases hv : f.value = .unknown
  · by_cases hres : Resolvable p full f
    · have hres' : Resolvable p full f.unmarked := hres
      obtain ⟨c, hc, heq⟩ := checkType_found hv hres
      obtain ⟨c', hc', heq'⟩ := checkType_found (f := f.unmarked) hv hres'
      obtain rfl : c' = c := Found.eq hc' hc
      rw [heq, heq', bound_unmarked]
      rfl
    · have hres' : ¬Resolvable p full f.unmarked := hres
      rw [checkType_eq_none_iff.2 hres, checkType_eq_none_iff.2 hres']
      rfl
  · rw [checkType_known hv, checkType_known (f := f.unmarked) hv]
    rfl

/-! ## The fields of a message -/

/-- The fields of a message, without their numbers. -/
def Descriptor.shown (d : Descriptor) : List Field := d.visited.map Field.unmarked

/-- The fields after they were tried, to the first that fails. -/
def tryFields (p : DescriptorPool) (full : Name) : List Field → List Field
  | [] => []
  | f :: fs =>
    match checkType p full f with
    | none => f :: fs
    | some f => f :: tryFields p full fs

theorem fixFields_shown (fields : List (Name × Field)) :
    (fixFields p full fields).2.map (fun f => f.2.unmarked) =
      tryFields p full (fields.map fun f => f.2.unmarked) := by
  induction fields with
  | nil => rfl
  | cons f fields ih =>
    rw [fixFields, List.map_cons, tryFields, checkType_unmarked]
    cases hc : checkType p full f.2 with
    | none => rfl
    | some f' => exact congrArg _ ih

theorem fixUnknownType_shown (p : DescriptorPool) (full : Name) (d : Descriptor) :
    (fixUnknownType p full d).2.shown = tryFields p full d.shown := by
  unfold Descriptor.shown
  by_cases ha : d.isAlias = true
  · rw [fixUnknownType_alias ha, Descriptor.visited, if_pos ha, List.map_singleton,
      List.map_singleton, tryFields, checkType_unmarked]
    cases hc : checkType p full d.alias_ with
    | none => rfl
    | some f' => rfl
  · rw [fixUnknownType_fields ha, Descriptor.visited, if_neg ha, List.map_map, List.map_map]
    exact fixFields_shown d.fields

/-- The state of a descriptor is not shown. -/
theorem shown_setId (d : Descriptor) (id : UInt32) :
    Descriptor.shown { d with alias_ := { d.alias_ with id } } = d.shown := by
  unfold Descriptor.shown
  by_cases ha : d.isAlias = true
  · rw [Descriptor.visited, Descriptor.visited, if_pos ha, if_pos (by exact ha)]
    rfl
  · rw [Descriptor.visited, Descriptor.visited, if_neg ha, if_neg (by exact ha)]

/-- A field is tried when all before it could be bound. -/
theorem tryFields_tried {fs : List Field} {i : ℕ} (h : ∀ g ∈ fs.take i, Resolvable p full g) :
    (tryFields p full fs)[i]? = fs[i]?.map fun f => (checkType p full f).getD f := by
  induction fs generalizing i with
  | nil => rfl
  | cons f fs ih =>
    rw [tryFields]
    cases i with
    | zero =>
      rw [List.getElem?_cons_zero, Option.map_some]
      cases checkType p full f with
      | none => rfl
      | some f' => rfl
    | succ i =>
      rw [List.take_succ_cons, List.forall_mem_cons] at h
      cases hc : checkType p full f with
      | none => exact absurd h.1 (checkType_eq_none_iff.1 hc)
      | some f' => exact ih h.2

/-- Behind a field that fails, the fields stay as they are. -/
theorem tryFields_left {fs : List Field} {i : ℕ} (h : ¬∀ g ∈ fs.take i, Resolvable p full g) :
    (tryFields p full fs)[i]? = fs[i]? := by
  induction fs generalizing i with
  | nil => rfl
  | cons f fs ih =>
    rw [tryFields]
    cases i with
    | zero => exact absurd (fun g hg => absurd hg List.not_mem_nil) h
    | succ i =>
      rw [List.take_succ_cons, List.forall_mem_cons] at h
      cases hc : checkType p full f with
      | none => rfl
      | some f' =>
        refine ih fun hall => h ⟨?_, hall⟩
        by_contra hres
        rw [checkType_eq_none_iff.2 hres] at hc
        cases hc

theorem tryFields_length (fs : List Field) : (tryFields p full fs).length = fs.length := by
  induction fs with
  | nil => rfl
  | cons f fs ih =>
    rw [tryFields]
    cases checkType p full f with
    | none => rfl
    | some f' => exact congrArg Nat.succ ih

/-- Nothing changes where all types are known. -/
theorem tryFields_known {fs : List Field} (h : ∀ f ∈ fs, f.value ≠ .unknown) :
    tryFields p full fs = fs := by
  induction fs with
  | nil => rfl
  | cons f fs ih =>
    obtain ⟨hf, hfs⟩ := List.forall_mem_cons.1 h
    rw [tryFields, checkType_known hf]
    exact congrArg _ (ih hfs)

theorem tryFields_all {fs : List Field} (h : ∀ f ∈ fs, Resolvable p full f) :
    ∀ f ∈ tryFields p full fs, f.value ≠ .unknown := by
  induction fs with
  | nil => exact fun f hf => absurd hf List.not_mem_nil
  | cons f fs ih =>
    obtain ⟨hf, hfs⟩ := List.forall_mem_cons.1 h
    rw [tryFields]
    by_cases hv : f.value = .unknown
    · obtain ⟨c, -, heq⟩ := checkType_found hv hf
      rw [heq]
      exact List.forall_mem_cons.2 ⟨bound_value c f, ih hfs⟩
    · rw [checkType_known hv]
      exact List.forall_mem_cons.2 ⟨hv, ih hfs⟩

/-- A descriptor whose types have all been found has none that is unknown. -/
def Descriptor.Known (d : Descriptor) : Prop := d.alias_.id = 0 → ∀ f ∈ d.shown, f.value ≠ .unknown

/-- When `FixUnknownType` succeeds, all types are known. -/
theorem fixUnknownType_known {d : Descriptor} (h : (fixUnknownType p full d).1 = true) :
    ∀ f ∈ (fixUnknownType p full d).2.shown, f.value ≠ .unknown := by
  rw [fixUnknownType_shown]
  refine tryFields_all fun f hf => ?_
  obtain ⟨g, hg, rfl⟩ := List.mem_map.1 hf
  exact (fixUnknownType_spec p full d).2.1 h g hg

theorem tryFields_congr (hnames : SameNames p p') (henum : p.enum_ = p'.enum_) (fs : List Field) :
    tryFields p full fs = tryFields p' full fs := by
  have hdecl : Declared p = Declared p' :=
    funext fun name => propext (declared_congr hnames henum name)
  have hcheck : ∀ f, checkType p full f = checkType p' full f := by
    intro f
    by_cases hv : f.value = .unknown
    · have hres : Resolvable p full f ↔ Resolvable p' full f := by
        rw [Resolvable, Resolvable, hdecl]
      by_cases h : Resolvable p full f
      · obtain ⟨c, hc, heq⟩ := checkType_found hv h
        obtain ⟨c', hc', heq'⟩ := checkType_found hv (hres.1 h)
        rw [Found, Innermost, hdecl] at hc
        obtain rfl : c = c' := Found.eq (p := p') hc hc'
        rw [heq, heq', bound, bound, henum]
      · rw [checkType_eq_none_iff.2 h, checkType_eq_none_iff.2 fun h' => h (hres.2 h')]
    · rw [checkType_known hv, checkType_known hv]
  induction fs with
  | nil => rfl
  | cons f fs ih => rw [tryFields, tryFields, hcheck, ih]

/-! ## Calls -/

theorem grows_refl (p : DescriptorPool) : Grows p p := fun _ h => h

theorem Grows.trans {q : DescriptorPool} (h : Grows p p') (h' : Grows p' q) : Grows p q :=
  fun name hd => h' name (h name hd)

/-- What is registered stays registered. -/
theorem grows_call (hp : Coherent p) (c : Call) : Grows p (call p c) := by
  cases c with
  | register proto =>
    obtain ⟨-, enums, new, hr, -⟩ := registerFile_adds (rfl : SameNames p p) proto
    have hfile : Grows p (registerFile p proto).2 := by
      rw [hr]
      exact grows_append p enums new
    rw [call, register_eq]
    split
    · exact hfile.trans (resolveAll_similar _).grows.2
    · exact hfile
  | find name => exact (find_similar hp name).grows.2

theorem grows_after {calls calls' : List Call} (h : calls <+: calls') :
    Grows (after calls) (after calls') := by
  obtain ⟨rest, rfl⟩ := h
  induction rest using List.reverseRecOn with
  | nil =>
    rw [List.append_nil]
    exact grows_refl _
  | append_singleton rest c ih =>
    rw [← List.append_assoc, after_append]
    exact ih.trans (grows_call (coherent_after _) c)

/-- The names of the messages that are registered. -/
def names (p : DescriptorPool) : List Name := p.pool_.map Prod.fst

/-- The call tries to bind the fields of a message, unless all are bound: a `Register` that
    succeeds, or a `Find` of the message for which none has failed. -/
def Tries (p : DescriptorPool) (full : Name) : Call → Prop
  | .register proto => (register p proto).1 = true ∧ full ∈ names (register p proto).2
  | .find name => name = full ∧ ∃ d, (full, d) ∈ p.pool_ ∧ ¬d.Failed

/-- The last call tries to bind the fields of a message, and the types of these fields are known or
    registered by then. -/
def Ready (calls : List Call) (full : Name) (fields : List Field) : Prop :=
  ∃ pre c, calls = pre ++ [c] ∧ Tries (after pre) full c ∧ ∀ g ∈ fields,
    Resolvable (after calls) full g

/-- The first calls after which this is so. -/
def First (calls pre : List Call) (full : Name) (fields : List Field) : Prop :=
  pre <+: calls ∧ Ready pre full fields ∧ ∀ pre', pre' <+: pre → Ready pre' full fields → pre' = pre

theorem ready_append {calls : List Call} {c : Call} {fields : List Field} :
    Ready (calls ++ [c]) full fields ↔
      Tries (after calls) full c ∧ ∀ g ∈ fields, Resolvable (after (calls ++ [c])) full g := by
  constructor
  · rintro ⟨pre, c', heq, htry, hres⟩
    obtain ⟨rfl, hlast⟩ := List.append_inj' heq rfl
    obtain rfl : c = c' := (List.cons.inj hlast).1
    exact ⟨htry, hres⟩
  · exact fun ⟨htry, hres⟩ => ⟨calls, c, rfl, htry, hres⟩

/-- There are first calls, if there are any. -/
theorem exists_first {calls pre : List Call} {fields : List Field} (hpre : pre <+: calls)
    (h : Ready pre full fields) :
    ∃ pre, First calls pre full fields := by
  induction hlen : pre.length using Nat.strong_induction_on generalizing pre with
  | _ n ih =>
    by_cases hfirst : ∀ pre', pre' <+: pre → Ready pre' full fields → pre' = pre
    · exact ⟨pre, hpre, h, hfirst⟩
    · push Not at hfirst
      obtain ⟨pre', hpre', h', hne⟩ := hfirst
      have hlt : pre'.length < pre.length :=
        lt_of_le_of_ne hpre'.length_le fun heq => hne (hpre'.eq_of_length heq)
      exact ih _ (hlen ▸ hlt) (hpre'.trans hpre) h' rfl

theorem First.eq {calls pre pre' : List Call} {fields : List Field}
    (h : First calls pre full fields) (h' : First calls pre' full fields) : pre = pre' := by
  rcases List.prefix_or_prefix_of_prefix h.1 h'.1 with hle | hle
  · exact h'.2.2 _ hle h.2.1
  · exact (h.2.2 _ hle h'.2.1).symm

theorem First.append {calls pre : List Call} {fields : List Field} (h : First calls pre full fields)
    (c : Call) :
    First (calls ++ [c]) pre full fields := ⟨h.1.trans (List.prefix_append _ _), h.2⟩

theorem First.cases {calls pre : List Call} {c : Call} {fields : List Field}
    (h : First (calls ++ [c]) pre full fields) :
    First calls pre full fields ∨
      pre = calls ++ [c] ∧ Ready pre full fields ∧ ∀ pre',
        pre' <+: calls → ¬Ready pre' full fields := by
  rcases List.prefix_concat_iff.1 h.1 with rfl | hpre
  · refine .inr ⟨rfl, h.2.1, fun pre' hpre' hready => ?_⟩
    have heq := congrArg List.length (h.2.2 pre' (hpre'.trans (List.prefix_append _ _)) hready)
    have hle := hpre'.length_le
    rw [List.length_append, List.length_singleton] at heq
    omega
  · exact .inl ⟨hpre, h.2⟩

/-! ## The fields of a message after some calls -/

/-- The fields of a message after some calls, from those that its file gave: a field of an unknown
    type is bound to what was found when it and those before it could first be bound. -/
structure Tracks (calls : List Call) (full : Name) (fs₀ fs : List Field) : Prop where
  length : fs.length = fs₀.length
  known : ∀ (i : ℕ) f, fs₀[i]? = some f → f.value ≠ .unknown → fs[i]? = some f
  bound : ∀ (i : ℕ) f pre, fs₀[i]? = some f → f.value = .unknown →
    First calls pre full (fs₀.take (i + 1)) →
    ∃ c, Found (after pre) full f.valueType c ∧ fs[i]? = some (bound (after pre) c f)
  free : ∀ (i : ℕ) f, fs₀[i]? = some f → f.value = .unknown →
    (∀ pre, pre <+: calls → ¬Ready pre full (fs₀.take (i + 1))) → fs[i]? = some f

/-- The fields of a message that was not tried yet. -/
theorem tracks_new {calls : List Call} {fs : List Field}
    (h : ∀ pre fields, pre <+: calls → ¬Ready pre full fields) : Tracks calls full fs fs where
  length := rfl
  known _ _ hf _ := hf
  bound _ _ _ _ _ hfirst := absurd hfirst.2.1 (h _ _ hfirst.1)
  free _ _ hf _ _ := hf

section

variable {calls : List Call} {fs₀ fs : List Field}

/-- A field can be found if the one that its file gave can. -/
theorem Tracks.resolvable_iff (h : Tracks calls full fs₀ fs) {i : ℕ} {f f' : Field}
    (hf : fs₀[i]? = some f) (hf' : fs[i]? = some f') (hp : Grows (after calls) p) :
    Resolvable p full f' ↔ Resolvable p full f := by
  by_cases hv : f.value = .unknown
  · by_cases hready : ∃ pre, pre <+: calls ∧ Ready pre full (fs₀.take (i + 1))
    · obtain ⟨pre, hpre, hready⟩ := hready
      obtain ⟨first, hfirst⟩ := exists_first hpre hready
      obtain ⟨c, hc, heq⟩ := h.bound i f first hf hv hfirst
      obtain rfl : f' = Reflection.bound (after first) c f := Option.some.inj (hf'.symm.trans heq)
      obtain ⟨-, -, -, -, hres⟩ := hfirst.2.1
      have hmem : f ∈ fs₀.take (i + 1) := by
        obtain ⟨hi, rfl⟩ := List.getElem?_eq_some_iff.1 hf
        exact List.mem_take_iff_getElem.2 ⟨i, by omega, rfl⟩
      exact iff_of_true (fun hb => absurd hb (bound_value c f))
        (((hres f hmem).grows (grows_after hfirst.1)).grows hp)
    · push Not at hready
      obtain rfl : f' = f := Option.some.inj (hf'.symm.trans (h.free i f hf hv hready))
      exact Iff.rfl
  · obtain rfl : f' = f := Option.some.inj (hf'.symm.trans (h.known i f hf hv))
    exact Iff.rfl

theorem Tracks.forall_take (h : Tracks calls full fs₀ fs) (hp : Grows (after calls) p) (i : ℕ) :
    (∀ g ∈ fs.take i, Resolvable p full g) ↔ ∀ g ∈ fs₀.take i, Resolvable p full g := by
  refine Pointwise.forall_iff (R := fun f' f => Resolvable p full f' ↔ Resolvable p full f) ?_
    fun _ _ h => h
  refine List.forall₂_iff_get.2
    ⟨by rw [List.length_take, List.length_take, h.length], fun j hj hj' => ?_⟩
  have hlt : j < fs.length := lt_of_lt_of_le hj (List.length_take_le' _ _)
  have hlt' : j < fs₀.length := lt_of_lt_of_le hj' (List.length_take_le' _ _)
  rw [List.get_eq_getElem, List.get_eq_getElem, List.getElem_take, List.getElem_take]
  exact h.resolvable_iff (List.getElem?_eq_getElem hlt') (List.getElem?_eq_getElem hlt) hp

/-- A call that does not try the message leaves its fields. -/
theorem Tracks.skip (h : Tracks calls full fs₀ fs) {c : Call} (hno : ¬Tries (after calls) full c) :
    Tracks (calls ++ [c]) full fs₀ fs where
  length := h.length
  known := h.known
  bound i f pre hf hv hfirst := by
    rcases hfirst.cases with hfirst | ⟨rfl, hready, -⟩
    · exact h.bound i f pre hf hv hfirst
    · exact absurd (ready_append.1 hready).1 hno
  free i f hf hv hready :=
    h.free i f hf hv fun pre hpre => hready pre (hpre.trans (List.prefix_append _ _))

/-- A call that tries the message binds what it finds of the fields that are not bound yet. -/
theorem Tracks.try (h : Tracks calls full fs₀ fs) {c : Call} (htry : Tries (after calls) full c) :
    Tracks (calls ++ [c]) full fs₀ (tryFields (after (calls ++ [c])) full fs) := by
  have hp : Grows (after calls) (after (calls ++ [c])) := grows_after (List.prefix_append _ _)
  -- A field that is known stays as it is.
  have hkeep : ∀ {i : ℕ} {f : Field}, fs[i]? = some f → f.value ≠ .unknown →
      (tryFields (after (calls ++ [c])) full fs)[i]? = some f := by
    intro i f hf hv
    by_cases hall : ∀ g ∈ fs.take i, Resolvable (after (calls ++ [c])) full g
    · rw [tryFields_tried hall, hf, Option.map_some, checkType_known hv]
      rfl
    · rw [tryFields_left hall, hf]
  have htake : ∀ {i : ℕ} {f : Field}, fs₀[i]? = some f →
      ((∀ g ∈ fs₀.take (i + 1), Resolvable (after (calls ++ [c])) full g) ↔
        (∀ g ∈ fs.take i, Resolvable (after (calls ++ [c])) full g) ∧
        Resolvable (after (calls ++ [c])) full f) := by
    intro i f hf
    rw [h.forall_take hp, List.take_add_one, hf, Option.toList_some, List.forall_mem_append,
      List.forall_mem_singleton]
  refine ⟨(tryFields_length fs).trans h.length, fun i f hf hv => hkeep (h.known i f hf hv) hv,
    fun i f pre hf hv hfirst => ?_, fun i f hf hv hready => ?_⟩
  · rcases hfirst.cases with hfirst | ⟨rfl, hready, hnone⟩
    · obtain ⟨name, hname, heq⟩ := h.bound i f pre hf hv hfirst
      exact ⟨name, hname, hkeep heq (bound_value name f)⟩
    · obtain ⟨hall, hres⟩ := (htake hf).1 (ready_append.1 hready).2
      obtain ⟨name, hname, heq⟩ := checkType_found hv hres
      refine ⟨name, hname, ?_⟩
      rw [tryFields_tried hall, h.free i f hf hv hnone, Option.map_some, heq]
      rfl
  · have hfree := h.free i f hf hv fun pre hpre => hready pre (hpre.trans (List.prefix_append _ _))
    have hnot := fun hall => hready _ List.prefix_rfl (ready_append.2 ⟨htry, hall⟩)
    by_cases hall : ∀ g ∈ fs.take i, Resolvable (after (calls ++ [c])) full g
    · have hres : ¬Resolvable (after (calls ++ [c])) full f :=
        fun hres => hnot ((htake hf).2 ⟨hall, hres⟩)
      rw [tryFields_tried hall, hfree, Option.map_some, checkType_eq_none_iff.2 hres]
      rfl
    · rw [tryFields_left hall, hfree]

end

/-! ## The pool after some calls -/

/-- The pool with the descriptors as they were made, in which no field is bound. -/
def unbound (calls : List Call) : DescriptorPool :=
  calls.foldl (fun p c => match c with
    | .register proto => (registerFile p proto).2
    | .find _ => p) {}

/-- A descriptor after some calls, from the one that was made. -/
structure Tracked (calls : List Call) (e e' : Name × Descriptor) : Prop where
  name : e.1 = e'.1
  fields : Tracks calls e.1 e.2.shown e'.2.shown
  known : e'.2.Known

theorem unbound_append (calls : List Call) (c : Call) : unbound (calls ++ [c]) =
    match c with
    | .register proto => (registerFile (unbound calls) proto).2
    | .find _ => unbound calls := by
  rw [unbound, List.foldl_append]
  cases c <;> rfl

theorem names_call (hp : Coherent p) {c : Call} (h : full ∈ names p) : full ∈ names (call p c) := by
  cases c with
  | register proto =>
    obtain ⟨-, enums, new, hr, -⟩ := registerFile_adds (rfl : SameNames p p) proto
    have hfile : full ∈ names (registerFile p proto).2 := by
      rw [hr, names, List.map_append]
      exact List.mem_append_left _ h
    rw [call, register_eq]
    split
    · rw [names, (resolveAll_similar _).same_names]
      exact hfile
    · exact hfile
  | find name =>
    rw [call, names, (find_similar hp name).same_names]
    exact h

theorem names_after {calls calls' : List Call} (h : calls <+: calls')
    (hfull : full ∈ names (after calls)) :
    full ∈ names (after calls') := by
  obtain ⟨rest, rfl⟩ := h
  induction rest using List.reverseRecOn with
  | nil =>
    rw [List.append_nil]
    exact hfull
  | append_singleton rest c ih =>
    rw [← List.append_assoc, after_append]
    exact names_call (coherent_after _) ih

/-- Only a message that is registered is tried. -/
theorem Ready.mem_names {calls : List Call} {fields : List Field} (h : Ready calls full fields) :
    full ∈ names (after calls) := by
  obtain ⟨pre, c, rfl, htry, -⟩ := h
  rw [after_append]
  cases c with
  | register proto => exact htry.2
  | find name =>
    obtain ⟨-, d, hd, -⟩ := htry
    exact names_call (coherent_after pre) (List.mem_map_of_mem hd)

/-- The last loop of `Register` tries every message. -/
theorem resolve_shown {d : Descriptor} (hd : d.Known) :
    (resolve p full d).Known ∧ (resolve p full d).shown = tryFields p full d.shown := by
  rw [resolve]
  split
  · next h0 =>
    dsimp only
    split
    · next hok =>
      have hshown : (fixUnknownType p full d).2.resolved.shown =
        (fixUnknownType p full d).2.shown := shown_setId _ 0
      refine ⟨fun _ => ?_, by rw [hshown, fixUnknownType_shown]⟩
      rw [hshown]
      exact fixUnknownType_known hok
    · exact ⟨fun h => absurd ((fixUnknownType_id p full d).symm.trans h) h0,
        fixUnknownType_shown p full d⟩
  · next h0 => exact ⟨hd, (tryFields_known (hd (not_not.1 h0))).symm⟩

/-- The first `Find` of a message tries it. -/
theorem find_untried {name : Name} {d : Descriptor} (hd : p.pool_.lookup name = some d)
    (h : d.alias_.id = 0xffffffff) :
    ∃ d', (find p name).2 = update p name d' ∧ d'.Known ∧ d'.shown = tryFields p name d.shown := by
  set marked : Descriptor :=
    { d with alias_ := { d.alias_ with id := d.alias_.id - 1 } } with hmarked
  have hshown : marked.shown = d.shown := shown_setId d _
  have hid : marked.alias_.id ≠ 0 := by
    rw [hmarked]
    dsimp only
    rw [h]
    decide
  rw [find, hd]
  dsimp only
  rw [if_neg (by rw [h]; decide), if_neg (not_not.2 h)]
  split
  · next hok =>
    have heq : (fixUnknownType p name marked).2.resolved.shown =
      (fixUnknownType p name marked).2.shown := shown_setId _ 0
    refine ⟨_, rfl, fun _ => ?_, by rw [heq, fixUnknownType_shown, hshown]⟩
    rw [heq]
    exact fixUnknownType_known hok
  · refine ⟨_, rfl, fun hzero => ?_, by rw [fixUnknownType_shown, hshown]⟩
    rw [fixUnknownType_id] at hzero
    exact absurd hzero hid

/-- `Find` tries the message of the name, unless it failed before. -/
theorem find_shown (hp : Coherent p) (hknown : ∀ e ∈ p.pool_, e.2.Known) (name : Name) :
    ∃ f : Name × Descriptor → Descriptor,
      (find p name).2 = { p with pool_ := p.pool_.map fun e => (e.1, f e) } ∧
      ∀ e ∈ p.pool_,
        (f e).Known ∧ (Tries p e.1 (.find name) ∧ (f e).shown = tryFields p e.1 e.2.shown ∨
        ¬Tries p e.1 (.find name) ∧ (f e).shown = e.2.shown) := by
  have hsame : { p with pool_ := p.pool_.map fun e => (e.1, e.2) } = p := by simp
  have hother : ∀ {e : Name × Descriptor}, e.1 ≠ name → ¬Tries p e.1 (.find name) :=
    fun hne h => hne h.1.symm
  cases hd : p.pool_.lookup name with
  | none =>
    refine ⟨Prod.snd, ?_, fun e he => ⟨hknown e he, .inr ⟨fun h => ?_, rfl⟩⟩⟩
    · rw [find, hd, hsame]
    · obtain ⟨hname, d, hmem, -⟩ := h
      rw [(lookup_iff hp.nodup).2 (hname ▸ hmem)] at hd
      cases hd
  | some d =>
    have hmem := (lookup_iff hp.nodup).1 hd
    -- Whether the message is tried depends on its mark alone.
    have htry : ∀ {e}, e ∈ p.pool_ → e.1 = name → (Tries p e.1 (.find name) ↔ ¬d.Failed) := by
      intro e he hname
      refine ⟨fun ⟨_, d', hd', hnot⟩ => ?_, fun hnot => ⟨hname.symm, d, hname ▸ hmem, hnot⟩⟩
      obtain rfl : d' = d := eq_of_lookup hp hd hd' hname
      exact hnot
    -- By the mark: resolved, not tried since it was registered, or failed.
    rcases hp.state _ hmem with h0 | h | hfail
    · -- All its types are known.
      refine ⟨Prod.snd, by rw [find, hd]; dsimp only; rw [if_pos h0, hsame],
        fun e he => ⟨hknown e he, ?_⟩⟩
      by_cases hname : e.1 = name
      · refine .inl ⟨(htry he hname).2 fun hfail => ?_, (tryFields_known (hknown e he ?_)).symm⟩
        · rw [Descriptor.Failed, h0] at hfail
          exact absurd hfail (by decide)
        · rw [eq_of_lookup hp hd he hname]
          exact h0
      · exact .inr ⟨hother hname, rfl⟩
    · obtain ⟨d', hfind, hknown', hshown⟩ := find_untried hd h
      refine ⟨fun e => if e.1 = name then d' else e.2, hfind.trans (update_eq p name d'),
        fun e he => ?_⟩
      dsimp only
      by_cases hname : e.1 = name
      · rw [if_pos hname]
        refine ⟨hknown', .inl ⟨(htry he hname).2 fun hfail => ?_, ?_⟩⟩
        · exact absurd (h.symm.trans hfail) (by decide)
        · rw [eq_of_lookup hp hd he hname, hname]
          exact hshown
      · rw [if_neg hname]
        exact ⟨hknown e he, .inr ⟨hother hname, rfl⟩⟩
    · refine ⟨Prod.snd, ?_,
        fun e he => ⟨hknown e he, .inr ⟨fun h => (htry he h.1.symm).1 h hfail, rfl⟩⟩⟩
      -- The mark of a failure is found, and nothing is tried.
      have hmark : d.alias_.id = 0xfffffffe := hfail
      rw [find, hd]
      dsimp only
      rw [if_neg (by rw [hmark]; decide), if_pos (by rw [hmark]; decide), hsame]

/-- A call that tries some messages, in a pool to which it has added what it registers. -/
theorem tracked_map {calls : List Call} {c : Call} {l : List (Name × Descriptor)}
    {f : Name × Descriptor → Descriptor} (h : List.Forall₂ (Tracked calls) l p.pool_)
    (heq : after (calls ++ [c]) = { p with pool_ := p.pool_.map fun e => (e.1, f e) })
    (hf : ∀ e ∈ p.pool_, (f e).Known ∧ (Tries (after calls) e.1 c ∧ (f e).shown =
        tryFields p e.1 e.2.shown ∨ ¬Tries (after calls) e.1 c ∧ (f e).shown = e.2.shown)) :
    List.Forall₂ (Tracked (calls ++ [c])) l (after (calls ++ [c])).pool_ := by
  have hnames : SameNames p (after (calls ++ [c])) := by
    rw [SameNames, heq, List.map_map]
    rfl
  have henum : p.enum_ = (after (calls ++ [c])).enum_ := by rw [heq]
  rw [show (after (calls ++ [c])).pool_ = p.pool_.map fun e => (e.1, f e) by rw [heq],
    List.forall₂_map_right_iff]
  refine (Pointwise.and_right h hf).imp fun e e' he => ?_
  obtain ⟨⟨hname, hfields, -⟩, hknown, ⟨htry, hshown⟩ | ⟨htry, hshown⟩⟩ := he
  · refine ⟨hname, ?_, hknown⟩
    dsimp only
    rw [hshown, tryFields_congr hnames henum, ← hname]
    exact hfields.try (hname ▸ htry)
  · refine ⟨hname, ?_, hknown⟩
    dsimp only
    rw [hshown]
    exact hfields.skip (hname ▸ htry)

/-- After any calls, the fields of the messages are as their history says. -/
theorem tracked_after (calls : List Call) :
    (unbound calls).enum_ = (after calls).enum_ ∧
      List.Forall₂ (Tracked calls) (unbound calls).pool_ (after calls).pool_ := by
  -- By induction on the calls: each either tries the fields of a message or leaves them.
  induction calls using List.reverseRecOn with
  | nil => exact ⟨rfl, .nil⟩
  | append_singleton calls c ih =>
    obtain ⟨henum, htracked⟩ := ih
    have hnames : SameNames (unbound calls) (after calls) :=
      Pointwise.map_eq htracked fun _ _ _ h => h.name
    have hco := coherent_after calls
    have hknown : ∀ e ∈ (after calls).pool_, e.2.Known := fun e he => by
      obtain ⟨e', -, h⟩ := Pointwise.exists_left htracked he
      exact h.known
    rw [unbound_append]
    cases c with
    | find name =>
      obtain ⟨f, hf, hshown⟩ := find_shown hco hknown name
      have heq : after (calls ++ [.find name]) =
          { after calls with pool_ := (after calls).pool_.map fun e => (e.1, f e) } := by
        rw [after_append]
        exact hf
      exact ⟨by rw [heq]; exact henum, tracked_map htracked heq hshown⟩
    | register proto =>
      obtain ⟨-, enums, new, hun, hfile, hid, -⟩ := registerFile_adds hnames proto
      have hnodup :=
        ((registerFile_adds (rfl : SameNames (after calls) (after calls)) proto).coherent hco).nodup
      rw [hfile, List.map_append, List.nodup_append] at hnodup
      -- The new messages were not tried before.
      have hnew : List.Forall₂ (Tracked calls) new new := List.forall₂_same.2 fun e he => by
        refine ⟨rfl, tracks_new fun pre fields hpre hready => ?_, fun h0 => ?_⟩
        · exact hnodup.2.2 e.1 (names_after hpre hready.mem_names) e.1 (List.mem_map_of_mem he) rfl
        · rw [hid e he] at h0
          exact absurd h0 (by decide)
      have hall : List.Forall₂ (Tracked calls) (registerFile (unbound calls) proto).2.pool_
          (registerFile (after calls) proto).2.pool_ := by
        rw [hun, hfile]
        exact List.rel_append htracked hnew
      have henum' : (registerFile (unbound calls) proto).2.enum_ =
          (registerFile (after calls) proto).2.enum_ := by
        rw [hun, hfile, henum]
      have hknown' : ∀ e ∈ (registerFile (after calls) proto).2.pool_, e.2.Known := fun e he => by
        obtain ⟨e', -, h⟩ := Pointwise.exists_left hall he
        exact h.known
      have hcall := register_eq (after calls) proto
      by_cases hok : (registerFile (after calls) proto).1 = true
      · rw [if_pos hok] at hcall
        have heq : after (calls ++ [.register proto]) =
            resolveAll (registerFile (after calls) proto).2 := by
          rw [after_append, call, hcall]
        refine ⟨by rw [heq]; exact henum', tracked_map hall heq fun e he => ?_⟩
        obtain ⟨hres, hshown⟩ := resolve_shown (hknown' e he)
        refine ⟨hres, .inl ⟨⟨by rw [hcall], ?_⟩, hshown⟩⟩
        rw [hcall, names, (resolveAll_similar _).same_names]
        exact List.mem_map_of_mem he
      · rw [if_neg hok] at hcall
        have heq : after (calls ++ [.register proto]) = (registerFile (after calls) proto).2 := by
          rw [after_append, call, hcall]
        refine ⟨by rw [heq]; exact henum', tracked_map (f := Prod.snd) hall (by
            rw [heq]; simp) fun e he => ?_⟩
        refine ⟨hknown' e he, .inr ⟨fun htry => ?_, rfl⟩⟩
        have := htry.1
        rw [hcall] at this
        cases this

/-! ## Where fields are bound -/

/-- The field is bound to what the innermost scope declares, and left as it is if no scope
    declares its type. -/
def Scoped (p : DescriptorPool) (full : Name) (field field' : Field) : Prop :=
  (∃ c, Innermost p full field.valueType c ∧ field' = bound p c field) ∨
    (∀ c, Candidate full field.valueType c → ¬Declared p c) ∧ field' = field

/-- What is found in a pool is what the innermost scope declares in a later one; if both are
    enumerations, a field keeps no name of them. -/
def Agrees (p p' : DescriptorPool) (full name : Name) : Prop :=
  ∃ c c', Found p full name c ∧ Innermost p' full name c' ∧
    (c ∈ p.enum_ ∧ c' ∈ p'.enum_ ∨ c = c' ∧ c ∉ p.enum_ ∧ c' ∉ p'.enum_)

theorem bound_eq_iff {c c' : Name} {field : Field} :
    bound p c field = bound p' c' field ↔
      c ∈ p.enum_ ∧ c' ∈ p'.enum_ ∨ c = c' ∧ c ∉ p.enum_ ∧ c' ∉ p'.enum_ := by
  unfold bound
  by_cases hc : c ∈ p.enum_
  · by_cases hc' : c' ∈ p'.enum_
    · simp [hc, hc']
    · simp [hc, hc']
  · by_cases hc' : c' ∈ p'.enum_
    · simp [hc, hc']
    · simp [hc, hc']

/-- After any calls of `Register` and `Find`, a field is bound to what the innermost scope
    around its message declares, and unbound where no scope declares its type, if and only if no
    scope declares it, or the field could be bound in some call and what was found the first
    time is what the innermost scope declares now. -/
theorem scoping_iff (calls : List Call) {d : Descriptor} {before rest : List Field} {field : Field}
    (hd : (full, d) ∈ (unbound calls).pool_) (hfields : d.shown = before ++ field :: rest)
    (hv : field.value = .unknown) :
    (∃ d' field', (full, d') ∈ (after calls).pool_ ∧ d'.shown[before.length]? = some field' ∧
        Scoped (after calls) full field field') ↔
      (∀ c, Candidate full field.valueType c → ¬Declared (after calls) c) ∨
        ∃ pre, First calls pre full (before ++ [field]) ∧
          Agrees (after pre) (after calls) full field.valueType := by
  obtain ⟨⟨full', d'⟩, hd', hname, htracks, -⟩ := Pointwise.exists_right (tracked_after calls).2 hd
  obtain rfl : full = full' := hname
  rw [hfields] at htracks
  have hat : (before ++ field :: rest)[before.length]? = some field := by
    rw [List.getElem?_append_right le_rfl, Nat.sub_self, List.getElem?_cons_zero]
  have htake : (before ++ field :: rest).take (before.length + 1) = before ++ [field] := by
    rw [List.take_length_add_append, List.take_succ_cons, List.take_zero]
  have hnodup := (coherent_after calls).nodup
  -- The message has one descriptor.
  have honly : ∀ {field' : Field}, d'.shown[before.length]? = some field' →
      ((∃ d'' field'', (full, d'') ∈ (after calls).pool_ ∧
          d''.shown[before.length]? = some field'' ∧ Scoped (after calls) full field field'') ↔
        Scoped (after calls) full field field') := by
    intro field' hfield'
    refine ⟨fun ⟨d'', field'', hd'', hfield'', h⟩ => ?_, fun h => ⟨d', field', hd', hfield', h⟩⟩
    obtain rfl : d'' = d' :=
      eq_of_lookup (coherent_after calls) ((lookup_iff hnodup).2 hd') hd'' rfl
    rwa [← Option.some.inj (hfield''.symm.trans hfield')]
  -- Either there was a first call that could bind the field, which fixes what it is, or none.
  by_cases hready : ∃ pre, pre <+: calls ∧ Ready pre full (before ++ [field])
  · obtain ⟨pre, hpre, hready⟩ := hready
    obtain ⟨first, hfirst⟩ := exists_first hpre hready
    obtain ⟨c, hc, hbound⟩ := htracks.bound before.length field first hat hv (by rwa [htake])
    have hdecl := grows_after hfirst.1 c hc.declared.2
    rw [honly hbound]
    constructor
    · rintro (⟨c', hc', heq⟩ | ⟨hnone, -⟩)
      · exact .inr ⟨first, hfirst, c, c', hc, hc', bound_eq_iff.1 heq⟩
      · exact absurd hdecl (hnone c hc.declared.1)
    · rintro (hnone | ⟨first', hfirst', c₁, c', hc₁, hc', hsame⟩)
      · exact absurd hdecl (hnone c hc.declared.1)
      · obtain rfl : first = first' := hfirst.eq hfirst'
        obtain rfl : c = c₁ := hc.eq hc₁
        exact .inl ⟨c', hc', bound_eq_iff.2 hsame⟩
  · have hnone : ∀ pre, pre <+: calls → ¬Ready pre full (before ++ [field]) :=
      fun pre hpre h => hready ⟨pre, hpre, h⟩
    rw [honly (htracks.free before.length field hat hv (by rwa [htake]))]
    constructor
    · rintro (⟨c, -, heq⟩ | ⟨hnone, -⟩)
      · exact absurd (heq ▸ hv) (bound_value c field)
      · exact .inl hnone
    · rintro (hno | ⟨pre, hfirst, -⟩)
      · exact .inr ⟨hno, rfl⟩
      · exact absurd hfirst.2.1 (hnone pre hfirst.1)

/-- A file without a package, with a message `N`. -/
def outerFile : FileProto := ⟨[], [], [.message ['N'] false [] [] []]⟩

/-- A file of a package `p`, with a message `M` that has a message `N` of its own, and a field of
    the type `N`. -/
def innerFile : FileProto :=
  ⟨['p'], [], [.message ['M'] false [] [.message ['N'] false [] [] []]
    [⟨['x'], 1, false, none, ['N'], false⟩]]⟩

/-- The field of `innerFile` before its type is known. -/
def innerField : Field := { id := 0, value := .unknown, valueType := ['N'] }

/-- Without the other file, the field is bound to the message in its own. -/
theorem scoping_iff_alone :
    (∃ d' field', (['p', '.', 'M'], d') ∈ (after [.register innerFile]).pool_ ∧
      d'.shown[0]? = some field' ∧
        Scoped (after [.register innerFile]) ['p', '.', 'M'] innerField field') ↔
      (∀ c, Candidate ['p', '.', 'M'] ['N'] c → ¬Declared (after [.register innerFile]) c) ∨
        ∃ pre, First [.register innerFile] pre ['p', '.', 'M'] ([] ++ [innerField]) ∧
          Agrees (after pre) (after [.register innerFile]) ['p', '.', 'M'] ['N'] :=
  @scoping_iff ['p', '.', 'M'] [.register innerFile] { fields := [(['x'], innerField)] } [] []
    innerField
    (by decide) rfl rfl

/-- The field of a message is not bound as the scopes say if it is bound to another message than the
    innermost scope declares. -/
theorem not_scoped {calls : List Call} {d : Descriptor} (c c' : Name) {i : ℕ} {field : Field}
    (hd : (full, d) ∈ (after calls).pool_)
    (hfield : d.shown[i]? = some (bound (after calls) c field))
    (hin : Innermost (after calls) full field.valueType c') (hne : c ≠ c')
    (henum : c ∉ (after calls).enum_) :
    ¬∃ d' field', (full, d') ∈ (after calls).pool_ ∧ d'.shown[i]? = some field' ∧
      Scoped (after calls) full field field' := by
  rintro ⟨d', field', hd', hfield', h⟩
  obtain rfl : d' = d :=
    eq_of_lookup (coherent_after calls) ((lookup_iff (coherent_after calls).nodup).2 hd) hd' rfl
  obtain rfl := Option.some.inj (hfield'.symm.trans hfield)
  rcases h with ⟨c'', hc'', heq⟩ | ⟨hnone, -⟩
  · obtain rfl := hin.eq hc''
    rcases bound_eq_iff.1 heq with ⟨hmem, -⟩ | ⟨hsame, -⟩
    · exact henum hmem
    · exact hne hsame
  · exact hnone c' hin.1 hin.2.1

/-- A file of a package `a`, with a message `T`. -/
def aroundFile : FileProto := ⟨['a'], [], [.message ['T'] false [] [] []]⟩

/-- A file of the package `a.b`, with a message `M` that has a field of the type `T`. -/
def usingFile : FileProto :=
  ⟨['a', '.', 'b'], [], [.message ['M'] false [] [] [⟨['x'], 1, false, none, ['T'], false⟩]]⟩

/-- A file of the package `a.b`, with a message `T`. -/
def lateFile : FileProto := ⟨['a', '.', 'b'], [], [.message ['T'] false [] [] []]⟩

/-- With two files registered, a field is bound to the message without a package, although its own
    message declares another. With three, it is bound to the message of the package around its own,
    as the file that has the one of its own comes too late. -/
theorem scoping_false :
    (¬∃ d' field',
      (['p', '.', 'M'], d') ∈ (after [.register outerFile, .register innerFile]).pool_ ∧
        d'.shown[0]? = some field' ∧
        Scoped (after [.register outerFile, .register innerFile]) ['p', '.', 'M'] innerField
          field') ∧
      ¬∃ d' field', (['a', '.', 'b', '.', 'M'], d') ∈
          (after [.register aroundFile, .register usingFile, .register lateFile]).pool_ ∧
        d'.shown[0]? = some field' ∧
        Scoped (after [.register aroundFile, .register usingFile, .register lateFile])
          ['a', '.', 'b', '.', 'M']
          { id := 0, value := .unknown, valueType := ['T'] } field' := by
  constructor
  · refine not_scoped ['N'] ['p', '.', 'M', '.', 'N'] (i := 0)
      (d := { alias_ := { id := 0 }, fields :=
          [(['x'], bound (after [.register outerFile, .register innerFile]) ['N'] innerField)] })
      (by decide) (by decide) ⟨.inl (.inl rfl), by decide, ?_⟩ (by decide) (by decide)
    rintro c' ((rfl | ⟨scope, rest, hscope, rfl⟩) | rfl) -
    · decide
    · have hlen := congrArg List.length hscope
      simp [innerField] at hlen ⊢
      omega
    · decide
  · refine not_scoped ['a', '.', 'T'] ['a', '.', 'b', '.', 'T'] (i := 0)
      (d := { alias_ := { id := 0 }, fields :=
          [(['x'], bound (after [.register aroundFile, .register usingFile, .register lateFile])
            ['a', '.', 'T'] { id := 0, value := .unknown, valueType := ['T'] })] })
      (by decide) (by decide) ⟨.inl (.inr ⟨['a', '.', 'b'], ['M'], rfl, rfl⟩), by decide, ?_⟩
        (by decide) (by decide)
    rintro c' ((rfl | ⟨scope, rest, hscope, rfl⟩) | rfl) hdecl
    · exact absurd hdecl (by decide)
    · -- The message is not a scope of itself.
      have hrest : rest ≠ [] := by
        rintro rfl
        have hlast := congrArg List.getLast? hscope
        rw [List.getLast?_concat] at hlast
        exact absurd hlast (by decide)
      have hlen := congrArg List.length hscope
      have hpos := List.length_pos_iff.2 hrest
      simp at hlen ⊢
      omega
    · decide

end ProtoCache.Reflection

import ProtoCache.Extension.ReadBack

/-!
# Round trips

`Serialize` of a message of Protobuf into an empty buffer, and `Deserialize` of that.

* `alias_roundTrip_iff`, `message_roundTrip_iff`: when the message comes back, for a root
  that is an alias message, and for one that is none.
-/

namespace ProtoCache.Extension

open Row

variable {hash : List UInt8 → UInt32 → V128} {schema : Descriptors} {fuel : ℕ} {seeds : Seeds}
  {name : ℕ} {v : Value} {buf : Buffer}

/-- What is in the buffer is the message, unless this is an alias of a single word. -/
theorem serializeRoot_layout (h : serializeRoot hash schema fuel seeds name v [] = .ok buf) :
    ∃ n slots ws, v = .message slots ∧ MessageLayout hash (Layout hash schema n) (schema name)
      slots ws ∧
      (IsAlias (schema name) slots ∧ ws.length = 1 ∧ buf = [] ∨
        ¬(IsAlias (schema name) slots ∧ ws.length = 1) ∧ buf = ws) := by
  obtain ⟨⟨u, out⟩, h, hout⟩ := Res.bind_eq_ok.1 h
  cases hout
  rcases fuel with _ | n
  · cases h
  · rcases v with x | x | x | s | slots <;> try cases h
    rw [serialize] at h
    split at h
    · next hfits =>
      obtain ⟨p, hout, -, -, hlt, -, hQ⟩ :=
        (serializeSlots_wrote (serialize_writes hash schema n) hfits h).1
      obtain ⟨hlayout, hiff⟩ := hQ (by rw [List.length_nil]; omega)
      rw [List.append_nil] at hout
      refine ⟨n, slots, p.words, rfl, hlayout, ?_⟩
      cases p with
      | inl ws =>
        obtain ⟨halias, h1⟩ := hiff.1 rfl
        exact .inl ⟨halias, h1, hout⟩
      | out ws =>
        refine .inr ⟨fun h0 => ?_, hout⟩
        have h1 : ws.length = 1 := h0.2
        rw [show ws = [] from hiff.2 h0] at h1
        cases h1
    · cases h

/-- What comes back from a buffer that is not empty: the canonical value without the
    Booleans that are lost, unless there is an alias that is not read back. -/
theorem deserializeRoot_layout (hd : ∀ name, Distinct (schema name)) {n : ℕ} {ws : List UInt32}
    (h : Layout hash schema n name v ws) (mem : Bool) :
    (∃ out, deserializeRoot schema name mem ws = .ok out ∧
      out.Same (v.canon schema true (.message name)) ∧
      ¬Barred schema (.message name) v) ∨
      (∀ out, deserializeRoot schema name mem ws ≠ .ok out) ∧ Barred schema (.message name) v := by
  obtain ⟨w, tail, rfl, -⟩ := h.isObject
  rw [deserializeRoot, if_neg fun h0 => List.cons_ne_nil _ _ h0.1]
  by_cases hb : Barred schema (.message name) v
  · refine .inr ⟨fun out => ?_, hb⟩
    have hno :=
      deserialize_refuses hd n ((w :: tail).length + 1) name v (w :: tail) [] h (.inr rfl) hb out
    rwa [List.append_nil] at hno
  · obtain ⟨out, hout, hsame⟩ :=
      deserialize_reads hd n ((w :: tail).length + 1) name v (w :: tail) [] h
      (Nat.le_succ _) (.inr rfl) hb
    rw [List.append_nil] at hout
    exact .inl ⟨out, hout, hsame, hb⟩

/-- A value is its canonical value without the Booleans that are lost if they are the same
    size. -/
theorem canon_of_same {out : Value} {t : FieldType} (h : out.Same (v.canon schema true t))
    (hv : out.Same v) :
    v.canon schema false t = v ∧ ¬Short schema t v := by
  have hsize := size_eq.1 _ _ h
  rw [size_eq.1 _ _ hv] at hsize
  have hle := (canon_cut_size schema).1 v t
  have hcanon := (canon_size schema false).1 v t
  refine ⟨hcanon.2 (by omega), fun hshort => ?_⟩
  have := hshort.canon_lt
  omega

/-- An alias message to `serialize` is one to `deserialize`, too. -/
theorem aliasField_of_isAlias {fields : List FieldDescriptor} {slots : List Slot}
    (hd : Distinct fields) {ws : List UInt32} {lay : ℕ → Value → List UInt32 → Prop}
    (hlayout : MessageLayout hash lay fields slots ws) (h : IsAlias fields slots) :
    ∃ f slot, fields = [f] ∧ slots = [slot] ∧ aliasField [f] = some f ∧ f.deprecated = false ∧
      ∀ t, f.kind ≠ .single t := by
  obtain ⟨hfits, table, htable, hnumber, hbody⟩ := hlayout
  obtain ⟨f, slot, ht, hname⟩ := h
  obtain rfl := Except.ok.inj (htable.symm.trans ht)
  obtain ⟨rfl, rfl, hone, hdep⟩ := alias_of_table htable hfits hnumber hd rfl
  refine ⟨f, slot, rfl, rfl, if_pos ⟨hname, hone⟩, hdep, ?_⟩
  rcases hbody with ⟨f', slot', ht, -, hkind, -⟩ | ⟨hno, -⟩
  · cases ht
    exact hkind
  · exact absurd hname (hno f slot rfl)

/-! ## Normal messages -/

/-- A message that is no alias comes back, up to what is not kept, if there is no alias of
    one, two or three Booleans in it, nor one that is not read back. -/
theorem message_roundTrip_iff (hash : List UInt8 → UInt32 → V128) (schema : Descriptors)
    (hd : ∀ name, Distinct (schema name)) (fuel : ℕ) (seeds : Seeds) (name : ℕ)
    (hname : aliasField (schema name) = none) (v : Value) (buf : Buffer)
    (h : serializeRoot hash schema fuel seeds name v [] = .ok buf) (mem : Bool) :
    (∃ out, deserializeRoot schema name mem buf = .ok out ∧
      out.Same (v.canon schema false (.message name))) ↔
      ¬Short schema (.message name) v ∧ ¬Barred schema (.message name) v := by
  obtain ⟨n, slots, ws, rfl, hmsg, hbuf⟩ := serializeRoot_layout h
  have hlayout : Layout hash schema (n + 1) name (.message slots) ws := ⟨slots, rfl, hmsg⟩
  obtain rfl : buf = ws := by
    rcases hbuf with ⟨halias, -⟩ | ⟨-, hbuf⟩
    · obtain ⟨f, slot, hfields, -, hf, -⟩ := aliasField_of_isAlias (hd name) hmsg halias
      rw [hfields, hf] at hname
      cases hname
    · exact hbuf
  constructor
  · rintro ⟨out, hout, hsame⟩
    rcases deserializeRoot_layout hd hlayout mem with ⟨out', hout', hsame', hb⟩ | ⟨hno, -⟩
    · obtain rfl := Except.ok.inj (hout.symm.trans hout')
      refine ⟨fun hshort => ?_, hb⟩
      have := hshort.canon_lt
      rw [← size_eq.1 _ _ hsame, ← size_eq.1 _ _ hsame'] at this
      exact lt_irrefl _ this
    · exact absurd hout (hno out)
  · rintro ⟨hshort, hb⟩
    rcases deserializeRoot_layout hd hlayout mem with ⟨out, hout, hsame, -⟩ | ⟨-, hb'⟩
    · rw [canon_eq_of_not_short.1 _ _ hshort] at hsame
      exact ⟨out, hout, hsame⟩
    · exact absurd hb' hb

/-- A number, and flags, which are an alias message of Booleans. -/
def sample : Descriptors := fun name =>
  if name = 0 then
    [{ name := "x", number := 1, kind := .single .uint32 },
      { name := "flags", number := 2, kind := .single (.message 1) }]
  else [{ name := "_", number := 1, kind := .repeated .bool }]

theorem sample_distinct (name : ℕ) : Distinct (sample name) := by
  rw [sample]
  split <;> simp [Distinct]

/-- Four flags. -/
theorem message_roundTrip_iff_four :
    (∃ out, deserializeRoot sample 0 false [2304, 7, 16777488, 0] = .ok out ∧
      out.Same ((Value.message [.one (.w32 7),
            .one (.message [.repeated [.bool true, .bool false, .bool true, .bool false]])]).canon
        sample false (.message 0))) ↔
      ¬Short sample (.message 0)
          (.message [.one (.w32 7),
              .one (.message [.repeated [.bool true, .bool false, .bool true, .bool false]])]) ∧
        ¬Barred sample (.message 0)
          (.message [.one (.w32 7),
              .one (.message [.repeated [.bool true, .bool false, .bool true, .bool false]])]) :=
  message_roundTrip_iff (fun _ _ => ⟨0, 0, 0, 0⟩) sample sample_distinct 2 (fun _ _ => 0) 0 rfl _ _
    (by decide +kernel) false

/-- A single flag does not come back. -/
theorem message_roundTrip_one :
    serializeRoot (fun _ _ => ⟨0, 0, 0, 0⟩) sample 2 (fun _ _ => 0) 0
        (.message [.one (.w32 7), .one (.message [.repeated [.bool true]])]) [] = .ok [256, 7] ∧
      ¬∃ out, deserializeRoot sample 0 false [256, 7] = .ok out ∧
        out.Same ((Value.message [.one (.w32 7), .one (.message [.repeated [.bool true]])]).canon
          sample false (.message 0)) := by
  refine ⟨by decide +kernel, ?_⟩
  rintro ⟨out, hout, hsame⟩
  obtain rfl : .message [.one (.w32 7), .absent] = out := Except.ok.inj hout
  exact hsame.2.1

/-! ## Alias messages -/

/-- Where nothing is in the buffer, an array is read from a null pointer, and one of Booleans
    from the end of the buffer. -/
theorem deserializeArray_empty (rec : Reader) (t : FieldType) (out : List Value) :
    (deserializeArray rec false t Ptr.null = .ok out ↔ t.form ≠ .other ∧ out = []) ∧
      (deserializeArray rec true t (.at []) = .ok out ↔ t = .bool ∧ out = []) := by
  have hnull : ∀ b, openArray b Ptr.null = .ok ⟨Ptr.null, 0, 0⟩ := fun b => if_pos rfl
  have hend : openArray true (.at []) = .error .fault := rfl
  have hstr : readString false Ptr.null = .ok none ∧ readString true (.at []) = .ok none :=
    ⟨rfl, rfl⟩
  have hbool : t.form ≠ .bool → t ≠ .bool := by
    rintro hform rfl
    exact hform rfl
  unfold deserializeArray
  cases hform : t.form with
  | bool =>
    dsimp only
    rw [hstr.1, hstr.2, form_eq_bool hform]
    exact ⟨⟨fun h => ⟨fun h => (by cases h), (Except.ok.inj h).symm⟩, fun h => congrArg _ h.2.symm⟩,
      ⟨fun h => ⟨rfl, (Except.ok.inj h).symm⟩, fun h => congrArg _ h.2.symm⟩⟩
  | other =>
    exact ⟨⟨fun h => (by cases h), fun h => absurd rfl h.1⟩, ⟨fun h => (by cases h),
        fun h => absurd h.1 (hbool (by rw [hform]; exact fun h => by cases h))⟩⟩
  | _ =>
    dsimp only
    rw [hnull, hend]
    exact ⟨⟨fun h => ⟨fun h => (by cases h), (Except.ok.inj h).symm⟩, fun h => congrArg _ h.2.symm⟩,
      ⟨fun h => (by cases h),
        fun h => absurd h.1 (hbool (by rw [hform]; exact fun h => by cases h))⟩⟩

/-- Where nothing is in the buffer, no map is read. -/
theorem deserializeMap_empty (rec : Reader) (key value : FieldType) (out : List (Key × Value)) :
    deserializeMap rec false key value Ptr.null ≠ .ok out ∧
      deserializeMap rec true key value (.at []) ≠ .ok out := by
  have hnull : deserializeMap rec false key value Ptr.null = .error .reject := rfl
  have hend : deserializeMap rec true key value (.at []) = .error .fault := rfl
  rw [hnull, hend]
  exact ⟨fun h => (by cases h), fun h => (by cases h)⟩

/-- What is read of an empty buffer: an array without elements, of Booleans or if there is no
    memory behind the buffer. -/
theorem deserializeRoot_empty {f : FieldDescriptor} (hf : aliasField (schema name) = some f)
    (mem : Bool) (out : Value) : deserializeRoot schema name mem [] = .ok out ↔
      (∃ t, f.kind = .repeated t ∧ t.form ≠ .other ∧ (t = .bool ∨ mem = false)) ∧
        out = .message [.repeated []] := by
  -- What is around the array adds nothing to what is read.
  have harray : ∀ (rec : Reader) (b : Bool) (t : FieldType) (ptr : Ptr) (P : Prop),
      (∀ vs, deserializeArray rec b t ptr = .ok vs ↔ P ∧ vs = []) →
      ((do return .message [.repeated (← deserializeArray rec b t ptr)]) = (.ok out : Res Value) ↔
        P ∧ out = .message [.repeated []]) := by
    intro rec b t ptr P h
    rw [Res.bind_eq_ok]
    constructor
    · rintro ⟨vs, hvs, hout⟩
      obtain ⟨hP, rfl⟩ := (h vs).1 hvs
      exact ⟨hP, (Except.ok.inj hout).symm⟩
    · rintro ⟨hP, rfl⟩
      exact ⟨[], (h []).2 ⟨hP, rfl⟩, rfl⟩
  have hmap : ∀ (rec : Reader) (b : Bool) (k t : FieldType) (ptr : Ptr),
      (∀ ps, deserializeMap rec b k t ptr ≠ .ok ps) →
      (do return .message [.map (← deserializeMap rec b k t ptr)]) ≠ (.ok out : Res Value) := by
    intro rec b k t ptr h hok
    obtain ⟨ps, hps, -⟩ := Res.bind_eq_ok.1 hok
    exact h ps hps
  -- The first word is read of the null pointer, or behind the end of the memory.
  have hread : deserializeRoot schema name mem [] =
    deserializeMessage (deserialize schema mem 0) mem (schema name)
      (if mem then .at [] else Ptr.null) := by cases mem <;> rfl
  rw [hread, deserializeMessage, hf]
  dsimp only
  cases mem with
  | false =>
    cases hk : f.kind with
    | single t =>
      exact iff_of_false (fun h => by cases h) fun h => by obtain ⟨⟨t', h, -⟩, -⟩ := h; cases h
    | map k t =>
      refine iff_of_false (hmap _ _ _ _ _ fun ps => (deserializeMap_empty _ k t ps).1) fun h => ?_
      obtain ⟨⟨t', h, -⟩, -⟩ := h
      cases h
    | repeated t =>
      dsimp only
      rw [if_neg Bool.false_ne_true, harray _ _ _ _ _ fun vs => (deserializeArray_empty _ t vs).1]
      simp
  | true =>
    cases hk : f.kind with
    | single t =>
      exact iff_of_false (fun h => by cases h) fun h => by obtain ⟨⟨t', h, -⟩, -⟩ := h; cases h
    | map k t =>
      refine iff_of_false (hmap _ _ _ _ _ fun ps => (deserializeMap_empty _ k t ps).2) fun h => ?_
      obtain ⟨⟨t', h, -⟩, -⟩ := h
      cases h
    | repeated t =>
      dsimp only
      rw [if_pos rfl, harray _ _ _ _ _ fun vs => (deserializeArray_empty _ t vs).2]
      simp only [FieldKind.repeated.injEq, Bool.true_eq_false, or_false]
      constructor
      · rintro ⟨rfl, hout⟩
        exact ⟨⟨_, rfl, fun h => (by cases h), rfl⟩, hout⟩
      · rintro ⟨⟨_, rfl, -, rfl⟩, hout⟩
        exact ⟨rfl, hout⟩

/-- The values of an alias message that come back: there is nothing in them that is not kept,
    lost or not read back, and if there is nothing in them at all, it is an array, of
    Booleans or in a buffer without memory (`mem`). -/
structure ComesBack (schema : Descriptors) (mem : Bool) (name : ℕ) (f : FieldDescriptor)
    (v : Value) : Prop where
  canonical : v.canon schema false (.message name) = v
  kept : ¬Short schema (.message name) v
  read : ¬Barred schema (.message name) v
  found : f.deprecated = false → v.size = 0 → ∃ t, f.kind = .repeated t ∧ (t = .bool ∨ mem = false)

/-- When an alias message comes back. -/
theorem alias_roundTrip_iff (hash : List UInt8 → UInt32 → V128) (schema : Descriptors)
    (hd : ∀ name, Distinct (schema name)) (fuel : ℕ) (seeds : Seeds) (name : ℕ)
    (f : FieldDescriptor) (hf : aliasField (schema name) = some f) (v : Value) (buf : Buffer)
    (h : serializeRoot hash schema fuel seeds name v [] = .ok buf) (mem : Bool) :
    (∃ out, deserializeRoot schema name mem buf = .ok out ∧ out.Same v) ↔
      ComesBack schema mem name f v := by
  obtain ⟨n, slots, ws, rfl, hmsg, hbuf⟩ := serializeRoot_layout h
  have hlayout : Layout hash schema (n + 1) name (.message slots) ws := ⟨slots, rfl, hmsg⟩
  have hsingle := (layout_objects hash hd (n + 1)).single name _ _ hlayout
  -- Either the public `Serialize` dropped one word that was inline, and the reader gets an empty
  -- buffer, or the words of the alias message are all there.
  rcases hbuf with ⟨halias, h1, rfl⟩ | ⟨hno, rfl⟩
  · obtain ⟨f', slot, hfields, rfl, hf', hdep, hkind⟩ := aliasField_of_isAlias (hd name) hmsg halias
    rw [hfields, hf'] at hf
    cases hf
    rw [← hfields] at hf'
    simp only [deserializeRoot_empty hf']
    -- What an empty buffer is read as, is an array without elements.
    have hempty : (Value.message [.repeated []]).Same (.message [slot]) ↔ slot = .repeated [] := by
      constructor
      · rintro ⟨h, -⟩
        rcases slot with _ | v | vs | pairs <;> try exact absurd h id
        rw [List.forall₂_nil_left_iff.1 (sameValues_iff.1 h)]
      · rintro rfl
        exact ⟨trivial, trivial⟩
    constructor
    · rintro ⟨out, ⟨⟨t, hk, hform, ht⟩, rfl⟩, hsame⟩
      obtain rfl := hempty.1 hsame
      have hcanon := (canon_size schema false).1 (.message [.repeated []]) (.message name)
      refine ⟨hcanon.2 (Nat.zero_le _), fun hshort => ?_, fun hb => ?_, fun _ _ => ⟨t, hk, ht⟩⟩
      · exact absurd (hshort.canon_lt.trans_le hcanon.1) (Nat.not_lt_zero _)
      · cases hb with
        | here ht hf'' hbar =>
          cases ht
          cases hf'.symm.trans hf''
          rw [FieldDescriptor.Barred, hk] at hbar
          exact hform hbar
        | inside ht hmem _ hsize _ _ =>
          rw [List.of_mem_zip hmem |>.1 |> List.mem_singleton.1] at hsize
          exact hsize (Nat.le_zero.1 ((canon_size schema true).2 _ _).1)
    · rintro ⟨hcanon, hshort, hb, hfound⟩
      rw [← canon_eq_of_not_short.1 _ _ hshort] at hcanon
      have hsize := hsingle.1 h1
      rw [hcanon] at hsize
      obtain ⟨t, hk, ht⟩ := hfound hdep hsize
      refine ⟨_, ⟨⟨t, hk, fun hform => hb (.here rfl hf' ?_), ht⟩, rfl⟩, hempty.2 ?_⟩
      · rw [FieldDescriptor.Barred, hk]
        exact hform
      · have hfits := hmsg.1
        rw [hfields, fits, fits, Bool.and_true, hk] at hfits
        rcases slot with _ | v | vs | pairs <;> try cases hfits
        rw [Value.size, sizeSlots, sizeSlots, Nat.add_zero, Slot.size] at hsize
        by_contra hne
        exact (sizeValues_pos fun h => hne (congrArg _ h)).ne' hsize
  · constructor
    · rintro ⟨out, hout, hsame⟩
      -- What is read is the canonical value, which is the value itself if nothing is cut.
      rcases deserializeRoot_layout hd hlayout mem with ⟨out', hout', hsame', hb⟩ | ⟨hnone, -⟩
      · obtain rfl := Except.ok.inj (hout.symm.trans hout')
        obtain ⟨hcanon, hshort⟩ := canon_of_same hsame' hsame
        refine ⟨hcanon, hshort, hb, fun hdep hsize => ?_⟩
        rw [← size_eq.1 _ _ hsame, size_eq.1 _ _ hsame', ← hsingle] at hsize
        refine absurd ⟨?_, hsize⟩ hno
        obtain ⟨hfits, table, htable, -, -⟩ := hmsg
        obtain ⟨s, -, ht⟩ := table_of_alias htable hfits hf
        rw [if_neg (by simp [hdep])] at ht
        exact ⟨f, s, ht ▸ htable, (aliasField_eq hf).2.1⟩
      · exact absurd hout (hnone out)
    · rintro ⟨hcanon, hshort, hb, -⟩
      rcases deserializeRoot_layout hd hlayout mem with ⟨out, hout, hsame, -⟩ | ⟨-, hb'⟩
      · rw [canon_eq_of_not_short.1 _ _ hshort, hcanon] at hsame
        exact ⟨out, hout, hsame⟩
      · exact absurd hb' hb

/-- An array of one number. -/
theorem alias_roundTrip_iff_one :
    (∃ out, deserializeRoot (fun _ => [{ name := "_", number := 1, kind := .repeated .uint32 }]) 0
      false [5, 7] =
        .ok out ∧ out.Same (.message [.repeated [.w32 7]])) ↔
      ComesBack (fun _ => [{ name := "_", number := 1, kind := .repeated .uint32 }]) false 0
        { name := "_", number := 1, kind := .repeated .uint32 } (.message [.repeated [.w32 7]]) :=
  alias_roundTrip_iff (fun _ _ => ⟨0, 0, 0, 0⟩) _ (fun _ => (by decide : List.Nodup _)) 1
    (fun _ _ => 0) 0 _ rfl _ _
    rfl false

/-- A map without pairs leaves the buffer empty, and there is no map in it. -/
theorem alias_roundTrip_empty :
    serializeRoot (fun _ _ => ⟨0, 0, 0, 0⟩)
      (fun _ => [{ name := "_", number := 1, kind := .map .string .uint32 }]) 1
        (fun _ _ => 0) 0 (.message [.map []]) [] = .ok [] ∧
      ¬∃ out, deserializeRoot
        (fun _ => [{ name := "_", number := 1, kind := .map .string .uint32 }]) 0 false [] =
        .ok out ∧ out.Same (.message [.map []]) := by
  refine ⟨rfl, ?_⟩
  rintro ⟨out, hout, -⟩
  cases hout

end ProtoCache.Extension

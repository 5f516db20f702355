import ProtoCache.Extension.Layout
import ProtoCache.MapFind

/-!
# The objects of a message of Protobuf

What the words of a message of Protobuf have in common, for any type.

* `Layout.isObject`: they are an object, so that they are not taken for a link in a cell.
* `Layout.single`: there is a single word if nothing in the message is kept.
-/

namespace ProtoCache.Extension

open Row LittleEndian

/-! ## The table of the fields -/

/-- The fields of a message have different numbers. -/
def Distinct (fields : List FieldDescriptor) : Prop := (fields.map FieldDescriptor.number).Nodup

theorem fillTable_spec {entries : List (FieldDescriptor × Slot)}
    {table table' : List (Option (FieldDescriptor × Slot))}
    (h : fillTable entries table = .ok table') :
    table'.length = table.length ∧
      (∀ (i : ℕ) x, table[i]? = some (some x) → table'[i]? = some (some x)) ∧
      (∀ x ∈ entries, x.1.deprecated = false → table'[x.1.number - 1]? = some (some x)) ∧
      ∀ (i : ℕ) x, table'[i]? = some (some x) →
        table[i]? = some (some x) ∨ x ∈ entries ∧ x.1.deprecated = false := by
  -- By induction on the entries: a place that is taken stays as it is.
  induction entries generalizing table with
  | nil =>
    cases h
    exact ⟨rfl, fun _ _ h => h, fun _ hx => absurd hx List.not_mem_nil, fun _ _ h => .inl h⟩
  | cons e entries ih =>
    rcases e with ⟨f, slot⟩
    rw [fillTable] at h
    split at h
    · next hdep =>
      obtain ⟨hlen, hkeep, hin, hfrom⟩ := ih h
      refine ⟨hlen, hkeep, fun x hx hx0 => ?_, fun i x hx => ?_⟩
      · rcases List.mem_cons.1 hx with rfl | hx
        · exact absurd (hdep.symm.trans hx0) (by decide)
        · exact hin x hx hx0
      · exact (hfrom i x hx).imp id fun h => ⟨.tail _ h.1, h.2⟩
    · next hdep =>
      split at h
      · next hfree =>
        obtain ⟨hlen, hkeep, hin, hfrom⟩ := ih h
        have hlt : f.number - 1 < table.length := (List.getElem?_eq_some_iff.1 hfree).1
        refine ⟨hlen.trans List.length_set, fun i x hx => hkeep i x ?_, fun x hx hx0 => ?_,
          fun i x hx => ?_⟩
        · -- The place was free, so it is not one that was taken.
          rw [List.getElem?_set_ne, hx]
          rintro rfl
          rw [hfree] at hx
          cases hx
        · rcases List.mem_cons.1 hx with rfl | hx
          · exact hkeep _ _ (List.getElem?_set_self hlt)
          · exact hin x hx hx0
        · rcases hfrom i x hx with hx | hx
          · by_cases hi : f.number - 1 = i
            · subst hi
              rw [List.getElem?_set_self hlt] at hx
              cases hx
              exact .inr ⟨List.mem_cons_self, by simpa using hdep⟩
            · rw [List.getElem?_set_ne hi] at hx
              exact .inl hx
          · exact .inr ⟨.tail _ hx.1, hx.2⟩
      · cases h

theorem le_maxId {fields : List FieldDescriptor} {f : FieldDescriptor} (hf : f ∈ fields) :
    f.number ≤ maxId fields := le_foldl_max 1 (List.mem_map_of_mem hf)

theorem fits_iff {slots : List Slot} {fields : List FieldDescriptor} :
    fits slots fields = true ↔
      List.Forall₂ (fun s (f : FieldDescriptor) => s.fits f.kind = true) slots fields := by
  induction slots generalizing fields with
  | nil => cases fields <;> simp [fits]
  | cons s slots ih => cases fields <;> simp [fits, ih]

section

variable {fields : List FieldDescriptor} {slots : List Slot}
  {table : List (Option (FieldDescriptor × Slot))}

/-- A field that is not deprecated is in the table at its number, with its slot. -/
theorem table_of_mem
    (h : fillTable (fields.zip slots) (List.replicate (maxId fields) none) = .ok table)
    {f : FieldDescriptor} {s : Slot} (hmem : (f, s) ∈ fields.zip slots)
    (hdep : f.deprecated = false) :
    table[f.number - 1]? = some (some (f, s)) := (fillTable_spec h).2.2.1 _ hmem hdep

/-- What is in the table is a field that is not deprecated, with its slot. -/
theorem mem_of_table
    (h : fillTable (fields.zip slots) (List.replicate (maxId fields) none) = .ok table)
    {f : FieldDescriptor} {s : Slot} (hmem : some (f, s) ∈ table) :
    (f, s) ∈ fields.zip slots ∧ f.deprecated = false := by
  obtain ⟨i, hi⟩ := List.mem_iff_getElem?.1 hmem
  rcases (fillTable_spec h).2.2.2 i _ hi with hi | hi
  · rw [List.getElem?_replicate] at hi
    split at hi <;> cases hi
  · exact hi

/-- In a table of a single field that is not deprecated, it is the field of the message. -/
theorem alias_of_table
    (h : fillTable (fields.zip slots) (List.replicate (maxId fields) none) = .ok table)
    (hfits : fits slots fields = true) (hnumber : ∀ f ∈ fields, f.number ≠ 0) (hd : Distinct fields)
    {f : FieldDescriptor} {s : Slot} (htable : table = [some (f, s)]) :
    fields = [f] ∧ slots = [s] ∧ f.number = 1 ∧ f.deprecated = false := by
  have hlen := (fillTable_spec h).1
  rw [htable, List.length_replicate, List.length_singleton] at hlen
  have hone : ∀ g ∈ fields, g.number = 1 := fun g hg => by
    have := le_maxId hg
    have := hnumber g hg
    omega
  obtain ⟨hmem, hdep⟩ := mem_of_table h (htable ▸ List.mem_singleton_self _)
  have hslots := (fits_iff.1 hfits).length_eq
  rcases fields with _ | ⟨g, _ | ⟨g', fields⟩⟩
  · exact absurd hmem List.not_mem_nil
  · obtain ⟨s', rfl⟩ := List.length_eq_one_iff.1 hslots
    cases List.mem_singleton.1 hmem
    exact ⟨rfl, rfl, hone _ List.mem_cons_self, hdep⟩
  · have h₁ := hone g List.mem_cons_self
    have h₂ := hone g' (.tail _ List.mem_cons_self)
    rw [Distinct, List.map_cons, List.map_cons, List.nodup_cons, h₁, h₂] at hd
    exact absurd List.mem_cons_self hd.1

/-- The table of an alias message. -/
theorem table_of_alias
    (h : fillTable (fields.zip slots) (List.replicate (maxId fields) none) = .ok table)
    (hfits : fits slots fields = true) {f : FieldDescriptor} (hf : aliasField fields = some f) :
    ∃ s, slots = [s] ∧ table = [if f.deprecated then none else some (f, s)] := by
  obtain ⟨rfl, -, hnumber⟩ := aliasField_eq hf
  obtain ⟨s, rfl⟩ := List.length_eq_one_iff.1 (fits_iff.1 hfits).length_eq
  have hmax : maxId [f] = 1 := by
    rw [maxId, List.map_singleton, hnumber]
    rfl
  rw [hmax, List.zip_cons_cons, List.zip_nil_left, fillTable] at h
  refine ⟨s, rfl, ?_⟩
  split at h
  · next hdep =>
    cases h
    rw [if_pos hdep]
    rfl
  · next hdep =>
    rw [hnumber, List.replicate_one] at h
    cases h
    rw [if_neg hdep]
    rfl

end

/-! ## Objects -/

theorem isObject_mark (kind : FieldKind) : IsObject [aliasMark kind] := by
  refine ⟨aliasMark kind, [], rfl, fun _ => ?_⟩
  rcases kind with _ | _ | _
  · exact (by decide : (1 : UInt32) &&& 3 ≠ 3)
  · exact (by decide : (1 : UInt32) &&& 3 ≠ 3)
  · exact (by decide : (5 : UInt32) <<< 28 &&& 3 ≠ 3)

theorem isObject_isMapOf {hash : List UInt8 → UInt32 → V128} {κ β : Type}
    {keyBytes : κ → List UInt8} {c₁ c₂ : Option ℕ} {K : κ → List UInt32 → Prop}
    {V : β → List UInt32 → Prop} {pairs : List (κ × β)} {w : List UInt32}
    (h : IsMapOf hash keyBytes c₁ c₂ K V pairs w) : IsObject w := by
  obtain ⟨index, pos, slots, qs, m₁, m₂, hperm, hkeyed, -, hmap, hall⟩ := h
  exact hmap.isObject hkeyed (by rw [List.length_map, ← hperm.length_eq, hall.length_eq])

variable {hash : List UInt8 → UInt32 → V128} {lay : ℕ → Value → List UInt32 → Prop}

theorem ArrayLayout.isObject {t : FieldType} {vs : List Value} {ws : List UInt32}
    (h : ArrayLayout lay t vs ws) :
    IsObject ws := by
  rw [ArrayLayout] at h
  split at h
  · obtain ⟨bs, -, -, rfl⟩ := h
    exact isObject_stringWords _
  · obtain ⟨m, ps, harray, -⟩ := h
    exact harray.isObject

/-- The words of a repeated field or a map in which something is set. -/
theorem SlotLayout.isObject {kind : FieldKind} {slot : Slot} {ws : List UInt32}
    (h : SlotLayout hash lay kind slot ws) (hkind : ∀ t, kind ≠ .single t) (hne : ws ≠ []) :
    IsObject ws := by
  unfold SlotLayout at h
  rcases kind with t | t | ⟨k, t⟩
  · exact absurd rfl (hkind t)
  · rcases slot with _ | v | vs | pairs <;> try exact absurd h id
    dsimp only at h
    split at h
    · exact absurd h hne
    · exact ArrayLayout.isObject h
  · rcases slot with _ | v | vs | pairs <;> try exact absurd h id
    dsimp only at h
    split at h
    · exact absurd h hne
    · exact isObject_isMapOf h.2

theorem MessageLayout.isObject {fields : List FieldDescriptor} {slots : List Slot}
    {ws : List UInt32} (h : MessageLayout hash lay fields slots ws) : IsObject ws := by
  obtain ⟨-, table, -, -, ⟨f, slot, -, -, hkind, ws', hslot, rfl⟩ | ⟨-, ps, hmsg, -⟩⟩ := h
  · split
    · exact isObject_mark f.kind
    · next hlen => exact hslot.isObject hkind fun h0 => hlen (by rw [h0]; exact Nat.zero_le _)
  · exact hmsg.isObject

/-- The words of a message are an object. -/
theorem Layout.isObject {schema : Descriptors} {n name : ℕ} {v : Value} {ws : List UInt32}
    (h : Layout hash schema n name v ws) : IsObject ws := by
  cases n with
  | zero => exact absurd h id
  | succ n =>
    obtain ⟨slots, -, h⟩ := h
    exact h.isObject

/-! ## Messages of a single word -/

theorem form_eq_message {t : FieldType} {name : ℕ} (h : t.form = .message name) :
    t = .message name := by
  cases t <;> cases h
  rfl

theorem form_eq_bool {t : FieldType} (h : t.form = .bool) : t = .bool := by
  cases t <;> cases h
  rfl

/-- Strings of up to three bytes are in a single word. -/
theorem length_stringWords_le {s : List UInt8} : (stringWords s).length ≤ 1 ↔ s.length ≤ 3 := by
  have hpos : 1 ≤ (Varint.encode (s.length <<< 2)).length :=
    List.length_pos_iff.2 (Varint.encode_ne_nil _)
  rw [stringWords, length_wordsOf, List.length_append, wordSize]
  constructor
  · intro h
    omega
  · intro h
    have hlt : s.length <<< 2 < 128 := by
      rw [Nat.shiftLeft_eq]
      omega
    rw [Varint.encode_of_lt hlt, List.length_singleton]
    omega

/-- What the words of messages have in common. -/
structure Objects (schema : Descriptors) (lay : ℕ → Value → List UInt32 → Prop) : Prop where
  isObject : ∀ name v ws, lay name v ws → IsObject ws
  single : ∀ name v ws, lay name v ws →
    (ws.length = 1 ↔ (v.canon schema true (.message name)).size = 0)

variable {schema : Descriptors}

theorem spelled_ne_nil (hlay : Objects schema lay) {t : FieldType} {v : Value} {ws : List UInt32}
    (h : Spelled lay t v ws) : ws ≠ [] := by
  unfold Spelled at h
  split at h
  · obtain ⟨w, tail, rfl, -⟩ := hlay.isObject _ _ _ h
    exact List.cons_ne_nil _ _
  · rw [h.2]
    obtain ⟨w, tail, hw, -⟩ := isObject_stringWords _
    rw [hw]
    exact List.cons_ne_nil _ _
  · rw [h]
    exact List.cons_ne_nil _ _
  · rw [h]
    exact List.cons_ne_nil _ _
  · rw [h]
    exact List.cons_ne_nil _ _
  · exact absurd h id

/-- A value that is no message is canonical. -/
theorem spelled_canon (schema : Descriptors) {t : FieldType} {v : Value} {ws : List UInt32}
    (h : Spelled lay t v ws) (ht : t.form.isMessage = false) :
    v.canon schema true t = v ∧ v.size = 1 := by
  unfold Spelled at h
  split at h
  · next hform =>
    rw [hform] at ht
    cases ht
  · exact ⟨rfl, rfl⟩
  · exact ⟨rfl, rfl⟩
  · exact ⟨rfl, rfl⟩
  · exact ⟨rfl, rfl⟩
  · exact absurd h id

theorem size_canon_repeated {cut : Bool} {vs : List Value} {t : FieldType} :
    (Slot.canon schema cut (.repeated vs) (.repeated t)).size = 0 ↔ vs = [] := by
  rw [Slot.canon, Slot.size, canonValues_eq]
  constructor
  · intro h
    by_contra hne
    have : 0 < sizeValues (vs.map fun v => v.canon schema cut t) :=
      sizeValues_pos (by simpa using hne)
    omega
  · rintro rfl
    rfl

theorem size_canon_map {cut : Bool} {pairs : List (Key × Value)} {k t : FieldType} :
    (Slot.canon schema cut (.map pairs) (.map k t)).size = 0 ↔ pairs = [] := by
  rw [Slot.canon, Slot.size, canonPairs_eq]
  constructor
  · intro h
    rcases pairs with _ | ⟨⟨key, v⟩, pairs⟩
    · rfl
    · rw [List.map_cons, sizePairs, sizePair] at h
      omega
  · rintro rfl
    rfl

/-- There are no words for a field of which nothing is kept. -/
theorem SlotLayout.empty (hlay : Objects schema lay) {kind : FieldKind} {slot : Slot}
    {ws : List UInt32} (h : SlotLayout hash lay kind slot ws) :
    ws = [] ↔ (slot.canon schema true kind).size = 0 := by
  unfold SlotLayout at h
  rcases kind with t | t | ⟨k, t⟩
  · rcases slot with _ | v | vs | pairs
    · exact iff_of_true h rfl
    · obtain ⟨ws', hs, rfl⟩ := h
      have hne := spelled_ne_nil hlay hs
      rw [Slot.canon]
      by_cases hm : t.form.isMessage = true
      · -- A message takes one word if and only if nothing of it is kept.
        have hsingle : ws'.length = 1 ↔ (v.canon schema true t).size = 0 := by
          cases hform : t.form with
          | message name =>
            obtain rfl := form_eq_message hform
            exact hlay.single _ _ _ hs
          | _ => rw [hform] at hm; cases hm
        by_cases h1 : ws'.length = 1
        · rw [if_pos ⟨hm, h1⟩, if_pos (hsingle.1 h1)]
          exact iff_of_true rfl rfl
        · rw [if_neg fun h => h1 h.2, if_neg fun h => h1 (hsingle.2 h), Slot.size]
          exact iff_of_false hne (by omega)
      · obtain ⟨hcanon, hsize⟩ := spelled_canon schema hs (Bool.not_eq_true _ ▸ hm)
        rw [if_neg fun h => hm h.1, hcanon, if_neg (by omega), Slot.size]
        exact iff_of_false hne (by omega)
    all_goals exact absurd h id
  · rcases slot with _ | v | vs | pairs <;> try exact absurd h id
    dsimp only at h
    rw [size_canon_repeated]
    split at h
    · next hvs => exact iff_of_true h hvs
    · next hvs =>
      obtain ⟨w, tail, rfl, -⟩ := ArrayLayout.isObject h
      exact iff_of_false (List.cons_ne_nil _ _) hvs
  · rcases slot with _ | v | vs | pairs <;> try exact absurd h id
    dsimp only at h
    rw [size_canon_map]
    split at h
    · next hpairs => exact iff_of_true h hpairs
    · next hpairs =>
      obtain ⟨w, tail, rfl, -⟩ := isObject_isMapOf h.2
      exact iff_of_false (List.cons_ne_nil _ _) hpairs

/-- The words of the field of an alias message are one at most if there are none, or if they
    are lost. -/
theorem SlotLayout.length_le {f : FieldDescriptor} {slot : Slot} {ws : List UInt32}
    (h : SlotLayout hash lay f.kind slot ws) (hkind : ∀ t, f.kind ≠ .single t)
    (hf : aliasField [f] = some f) (hdep : f.deprecated = false) :
    ws.length ≤ 1 ↔ ws = [] ∨ lost [f] [slot] = true := by
  by_cases hbool : f.kind = .repeated .bool
  · rw [hbool] at h
    rcases slot with _ | v | vs | pairs <;> try exact absurd h id
    have hlost : lost [f] [.repeated vs] = true ↔ vs ≠ [] ∧ vs.length ≤ 3 := by
      simp [lost, hf, hbool, hdep, Nat.lt_succ_iff]
    rw [hlost]
    change if vs = [] then ws = [] else ArrayLayout lay .bool vs ws at h
    split at h
    · next hvs =>
      subst h
      exact iff_of_true (Nat.zero_le _) (.inl rfl)
    · next hvs =>
      obtain ⟨bs, rfl, -, rfl⟩ : ∃ bs : List Bool, vs = bs.map Value.bool ∧ bs.length < 2 ^ 30 ∧
        ws = stringWords (bs.map boolByte) := h
      obtain ⟨w, tail, hw, -⟩ := isObject_stringWords (bs.map boolByte)
      rw [length_stringWords_le, List.length_map, List.length_map, hw,
        or_iff_right (List.cons_ne_nil _ _), and_iff_right hvs]
  · have hlost : ¬lost [f] [slot] = true := by
      intro h
      obtain ⟨f', vs, hf', -, hk, -⟩ := lost_eq_true h
      cases hf.symm.trans hf'
      exact hbool hk
    rw [or_iff_left hlost]
    constructor
    · intro hle
      by_contra hne
      have := h.long hkind (fun t ht htb => hbool (form_eq_bool htb ▸ ht)) hne
      omega
    · rintro rfl
      exact Nat.zero_le _

/-- An alias message is in a single word if nothing is kept of its field, or if it is lost. -/
theorem AliasLayout.single (hlay : Objects schema lay) {f : FieldDescriptor} {slot : Slot}
    {ws : List UInt32} (h : AliasLayout hash lay f.kind slot ws) (hf : aliasField [f] = some f)
    (hdep : f.deprecated = false) :
    ws.length = 1 ↔ lost [f] [slot] = true ∨ (slot.canon schema true f.kind).size = 0 := by
  obtain ⟨hkind, ws', hslot, rfl⟩ := h
  rw [← hslot.empty hlay, or_comm, ← hslot.length_le hkind hf hdep]
  split
  · next hle => exact iff_of_true rfl hle
  · next hle => exact iff_of_false (fun h => hle h.le) hle

/-- A message with no field in its cells is a single word. -/
theorem length_isMessage_eq_one {ps : List (Piece UInt32)} {ws : List UInt32}
    (h : IsMessage (trim ps) ws) :
    ws.length = 1 ↔ ∀ p ∈ ps, p.words = [] := by
  have hlen := length_messageWords (trim ps)
  have hle := total_le_widths (trim ps)
  rw [← h.eq] at hlen
  rw [total_trim] at hle
  constructor
  · intro h1 p hp
    have := length_le_total hp
    exact List.length_eq_zero_iff.1 (by omega)
  · intro hnil
    have hrow : trim ps = [] := by
      rw [trim, List.rdropWhile_eq_nil_iff]
      exact fun p hp => by simp [hnil p hp]
    rw [hrow] at hlen
    exact hlen

/-- Nothing is kept of a message if nothing is kept of its fields. -/
theorem sizeSlots_eq_zero {slots : List Slot} {fields : List FieldDescriptor}
    (hlen : slots.length = fields.length) :
    sizeSlots (canonSlots schema true slots fields) = 0 ↔
      ∀ f s, (f, s) ∈ fields.zip slots → f.deprecated = false →
        (s.canon schema true f.kind).size = 0 := by
  induction slots generalizing fields with
  | nil =>
    exact iff_of_true rfl fun f s h => absurd h (by rw [List.zip_nil_right]; exact List.not_mem_nil)
  | cons s slots ih =>
    rcases fields with _ | ⟨f, fields⟩
    · cases hlen
    · rw [canonSlots_cons, Nat.add_eq_zero_iff, ih (Nat.succ.inj hlen)]
      constructor
      · rintro ⟨h₁, h₂⟩ f' s' hmem hdep
        rcases List.mem_cons.1 hmem with heq | hmem
        · cases heq
          rwa [hdep, if_neg Bool.false_ne_true] at h₁
        · exact h₂ f' s' hmem hdep
      · refine fun h => ⟨?_, fun f' s' hmem => h f' s' (.tail _ hmem)⟩
        split
        · rfl
        · next hdep => exact h f s List.mem_cons_self (by simpa using hdep)

/-- A message that is no alias is in a single word if nothing is kept of its fields. -/
theorem TableLayout.single (hlay : Objects schema lay) {fields : List FieldDescriptor}
    {slots : List Slot} {table : List (Option (FieldDescriptor × Slot))} {ws : List UInt32}
    (hfits : fits slots fields = true)
    (htable : fillTable (fields.zip slots) (List.replicate (maxId fields) none) = .ok table)
    (h : TableLayout hash lay table ws) :
    ws.length = 1 ↔ sizeSlots (canonSlots schema true slots fields) = 0 := by
  obtain ⟨ps, hmsg, hall⟩ := h
  rw [length_isMessage_eq_one hmsg, sizeSlots_eq_zero (fits_iff.1 hfits).length_eq]
  constructor
  · intro hnil f s hmem hdep
    obtain ⟨p, hp, hentry, -⟩ := Pointwise.exists_right hall
      (List.mem_of_getElem? (table_of_mem htable hmem hdep))
    exact (SlotLayout.empty hlay hentry).1 (hnil p hp)
  · intro hsize p hp
    obtain ⟨entry, hentry, hlayout, -⟩ := Pointwise.exists_left hall hp
    rcases entry with _ | ⟨f, s⟩
    · exact hlayout
    · obtain ⟨hmem, hdep⟩ := mem_of_table htable hentry
      exact (SlotLayout.empty hlay hlayout).2 (hsize f s hmem hdep)

theorem lost_of_table {fields : List FieldDescriptor} {slots : List Slot}
    {table : List (Option (FieldDescriptor × Slot))} (hfits : fits slots fields = true)
    (htable : fillTable (fields.zip slots) (List.replicate (maxId fields) none) = .ok table)
    (hname : ∀ f slot, table = [some (f, slot)] → f.name ≠ "_") : lost fields slots = false := by
  rw [← Bool.not_eq_true]
  intro hlost
  obtain ⟨f, vs, hf, -, -, hdep, -, -⟩ := lost_eq_true hlost
  obtain ⟨s, -, ht⟩ := table_of_alias htable hfits hf
  rw [hdep, if_neg Bool.false_ne_true] at ht
  exact hname f s ht (aliasField_eq hf).2.1

/-- A message is in a single word if nothing in it is kept. -/
theorem layout_objects (hash : List UInt8 → UInt32 → V128) (hd : ∀ name, Distinct (schema name))
    (n : ℕ) :
    Objects schema (Layout hash schema n) := by
  induction n with
  | zero => exact ⟨fun _ _ _ h => absurd h id, fun _ _ _ h => absurd h id⟩
  | succ n ih =>
    refine ⟨fun _ _ _ h => h.isObject, fun name v ws h => ?_⟩
    obtain ⟨slots, rfl, hfits, table, htable, hnumber, hlayout⟩ := h
    rw [Value.canon]
    dsimp only [FieldType.form]
    rw [Bool.true_and]
    rcases hlayout with ⟨f, slot, ht, hname, hlayout⟩ | ⟨hname, hlayout⟩
    · obtain ⟨hfields, rfl, hone, hdep⟩ := alias_of_table htable hfits hnumber (hd name) ht
      have hf : aliasField [f] = some f := if_pos ⟨hname, hone⟩
      rw [hfields, hlayout.single ih hf hdep, Value.size]
      split
      · next hlost => exact iff_of_true (.inl hlost) rfl
      · next hlost =>
        rw [or_iff_right hlost, canonSlots_cons, hdep, if_neg Bool.false_ne_true]
        rfl
    · rw [lost_of_table hfits htable hname, if_neg Bool.false_ne_true, Value.size]
      exact hlayout.single ih hfits htable

end ProtoCache.Extension

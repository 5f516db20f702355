import ProtoCache.Ex.Fields

/-!
# The state of EX objects

The encoding of an EX object is that of its state (`StateWords`): a scalar or a string by itself,
the elements of an array in their order, the pairs of a map at the positions of their keys, and
a message with the values of the fields that were accessed, and of the others the words that
they have in the object that the message is bound to. A message that was default-constructed has
none of its fields, and takes one word.

What is written (`Written`) may differ in the cells of arrays and maps: there is a link in the cell
of an element for which nothing was written.

* `serialize_writes`: `Serialize` writes these words, for any object, to any depth;
* `Written.state`: they are the encoding of the state where there is no such element.
-/

namespace ProtoCache.Ex

open Row LittleEndian
open Extension (Key Seeds Kept Folded)

/-- The number of the words of cells in which there is one word for every value that is void. -/
def cellShape (c : Option ℕ) : Option ℕ := if c = some 0 then some 1 else c

section

variable (hash : List UInt8 → UInt32 → V128) (classes : Schema) (raw : List UInt32)

/-- The words of the state of a message: if no field was accessed, those of the object that it is
    bound to, and otherwise those of its fields, where `O` tells those of values. -/
def MessageState (O : Object → List UInt32 → Prop) (name : ℕ) (view : Bound)
    (fields : List (Option Object)) (ws : List UInt32) : Prop :=
  ∃ ps old, BoundTo hash classes raw name view ps old ∧
    (fields.all Option.isNone = true ∧ ws = old ∨
      fields.all Option.isNone = false ∧ ∃ qs, IsMessage qs ws ∧ (∀ q ∈ qs, Folded q) ∧
        (∀ e ∈ (classes name).zip fields,
          FieldState O (fieldPiece ps e.1.1).words e.1.2 e.2 (fieldPiece qs e.1.1).words) ∧
        ∀ i, (∀ t, (i, t) ∉ classes name) → (fieldPiece qs i).words = [])

/-- The words of an object, from those of the objects in it: `C` tells those in the cells of arrays
    and maps, and `O` those in the fields of messages. -/
def State (C O : Object → List UInt32 → Prop) (x : Object) (ws : List UInt32) : Prop :=
  match x with
  | .w32 x | .float x => ws = [x]
  | .w64 x | .double x => ws = [x.toUInt32, (x >>> 32).toUInt32]
  | .bool x => ws = [if x then 1 else 0]
  | .octet x => ws = [if x = 0 then 0 else 1]
  | .str s => s.length < 2 ^ 30 ∧ ws = stringWords s
  | .bools core => core.length < 2 ^ 30 ∧ ws = stringWords core
  | .scalars m core =>
    m * core.length < 2 ^ 30 ∧ ws = UInt32.ofNat (core.length <<< 2 ||| m) :: core.flatten
  | .array core => ∃ m qs, IsArray m qs ws ∧ List.Forall₂ (fun y q => C y q.words) core qs
  | .map core =>
    ∃ c₁ c₂, (∀ p ∈ core, p.1.form.shape = c₁) ∧ (∀ p ∈ core, cellShape p.2.shape = c₂) ∧
      IsMapOf hash Key.bytes c₁ c₂ Key.Spelled C core ws
  | .message name view fields => MessageState hash classes raw O name view fields ws
  | .null => False

/-- The encoding of the state of an object. -/
def StateWords : ℕ → Object → List UInt32 → Prop
  | 0, _, _ => False
  | n + 1, x, ws => State hash classes raw (StateWords n) (StateWords n) x ws

/-- The words that are left in a cell of an array or a map: there is a link in that of an element
    that is void, although nothing was written for it. -/
def InCell (b : Bool) (R : Object → List UInt32 → Prop) (x : Object) (ws : List UInt32) : Prop :=
  (Void b x → IsLink ws) ∧ (¬Void b x → R x ws)

/-- The words that `Serialize` leaves for an object. -/
def Written (b : Bool) : ℕ → Object → List UInt32 → Prop
  | 0, _, _ => False
  | n + 1, x, ws => State hash classes raw (InCell b (Written b n)) (Own (Written b n) b) x ws

end

section

variable {hash : List UInt8 → UInt32 → V128} {classes : Schema} {raw : List UInt32} {b : Bool}
  {bound : ℕ → ℕ → Prop}

/-! ## Elements -/

/-- The elements of an array are written as if links were the words of those that are void. -/
theorem putAll_filling {α : Type} {put : ℕ → α → Buffer → Res (Unit × Buffer)} {c : Option ℕ}
    {V : α → List UInt32 → Prop} {void : α → Prop} (hc : c = none ∨ c = some 1) {xs : List α}
    {B out : Buffer} {us us' : List Unit}
    (hvoid : ∀ x ∈ xs, void x → ∀ i B r, put i x B = .ok r → r.1.IsNil ∧ r.2 = B)
    (hput : ∀ x ∈ xs, ¬void x → ∀ i B r, put i x B = .ok r → Wrote c B r fun p => V x p.words)
    (h : putAll put xs B = .ok (us, out)) (hf : List.Forall₂ Unit.Filled us us') :
    Items c (fun x ws => (void x → IsLink ws) ∧ (¬void x → V x ws)) B xs us' out := by
  induction xs generalizing us us' out with
  | nil =>
    cases h
    cases hf
    exact items_nil
  | cons x xs ih =>
    rw [putAll] at h
    obtain ⟨⟨us₁, out₁⟩, h₁, h⟩ := Res.bind_eq_ok.1 h
    obtain ⟨⟨u, out₂⟩, h₂, h⟩ := Res.bind_eq_ok.1 h
    cases h
    obtain ⟨u', us₁', hu, hus, rfl⟩ := List.forall₂_cons_left_iff.1 hf
    have hitems := ih (fun x hx => hvoid x (.tail _ hx)) (fun x hx => hput x (.tail _ hx)) h₁ hus
    by_cases hv : void x
    · -- The link that `Mark` makes is taken for the word of the element.
      obtain ⟨hnil, hout⟩ := hvoid x List.mem_cons_self hv _ _ _ h₂
      obtain rfl : out = out₁ := hout
      obtain ⟨w, hw, rfl⟩ := (hu.resolve_left fun hnot => hnot.1 hnil).2
      have hone : Wrote (some 1) out ({ len := 1, d₀ := w }, out) fun p =>
          (void x → IsLink p.words) ∧ (¬void x → V x p.words) :=
        wrote_inl [w] rfl rfl (List.cons_ne_nil _ _)
          ⟨fun _ => ⟨w, hw, rfl⟩, fun hnot => absurd hv hnot⟩
      rcases hc with rfl | rfl
      · exact hitems.cons hone.weaken
      · exact hitems.cons hone
    · have hwrote := hput x List.mem_cons_self hv _ _ _ h₂
      obtain rfl := hu.eq_of_not_nil hwrote.not_nil
      exact hitems.cons (hwrote.imp fun p _ hp => ⟨fun h => absurd h hv, fun _ => hp⟩)

/-- The words of an array, of which some elements may be void. -/
theorem array_filling {rec : Writer} {V : Object → List UInt32 → Prop} {core : List Object}
    (hvoid : ∀ x ∈ core, Void b x → ∀ seeds B r, rec seeds x B = .ok r → r.1.IsNil ∧ r.2 = B)
    (hput : ∀ x ∈ core, ¬Void b x → ∀ seeds B r, rec seeds x B = .ok r →
      Wrote none B r fun p => V x p.words) {seeds : Seeds} {B : Buffer} {r : Unit × Buffer}
    (h : serializeObject hash classes raw b rec seeds (.array core) B = .ok r) :
    Wrote none B r fun p => ∃ m qs, IsArray m qs p.words ∧
      List.Forall₂ (fun x q => InCell b V x q.words) core qs := by
  obtain ⟨⟨us, out⟩, hputs, h⟩ := Res.bind_eq_ok.1 h
  obtain ⟨us', hfill, harray⟩ := serializeArray_fill h
  have hitems := putAll_filling (.inl rfl) (fun x hx hv i B r => hvoid x hx hv _ B r)
    (fun x hx hv i B r => hput x hx hv _ B r) hputs hfill
  refine (serializeArray_items hitems harray).imp ?_
  rintro p - ⟨m, qs, hqs, hall⟩
  exact ⟨m, qs, hqs, hall.imp fun _ _ h => h.1⟩

theorem Key.put_not_nil {k : Key} {B : Buffer} {r : Unit × Buffer} (h : k.put B = .ok r) :
    ¬r.1.IsNil :=
  (Extension.Key.put_wrote h).not_nil

/-- The words of a map, of which some values may be void. -/
theorem map_filling {rec : Writer} {V : Object → List UInt32 → Prop} {form : Extension.Form}
    {c : Option ℕ} {core : List (Key × Object)} (hkeys : ∀ p ∈ core, p.1.form = form)
    (hshape : ∀ p ∈ core, p.2.shape = c)
    (hvoid : ∀ p ∈ core, Void b p.2 → ∀ seeds B r, rec seeds p.2 B = .ok r → r.1.IsNil ∧ r.2 = B)
    (hput : ∀ p ∈ core, ¬Void b p.2 → ∀ seeds B r, rec seeds p.2 B = .ok r →
      Wrote c B r fun q => V p.2 q.words) {seeds : Seeds} {B : Buffer} {r : Unit × Buffer}
    (h : serializeObject hash classes raw b rec seeds (.map core) B = .ok r) :
    Wrote none B r fun p => IsMapOf hash Key.bytes form.shape (cellShape c) Key.Spelled (InCell b V)
      core p.words := by
  have : DecidablePred (Void b) := Classical.decPred _
  have hkey : ∀ p ∈ core, ∀ B r, p.1.put B = .ok r → Wrote form.shape B r fun q =>
      p.1.Spelled q.words := by
    intro p hp B r h
    rw [← hkeys p hp]
    exact Extension.Key.put_wrote h
  obtain ⟨links, hlinks, h⟩ :=
    serializeMapFieldByKey_filling (Void b) (fun _ _ _ h => Key.put_not_nil h)
    (fun p hp hv i B r => hvoid p hp hv _ B r)
      (fun p hp hv i B r h => (hput p hp hv _ B r h).not_nil) h
  refine serializeMapFieldByKey_spec hkey (fun p hp i B r h => ?_) h
  refine filling_wrote (Void b) hlinks (fun hv => ?_) (fun hv i B r h => ?_) h
  · rw [cellShape]
    rcases hv with h0 | hpast
    · rw [if_pos ((hshape p hp).symm.trans h0)]
      exact .inr rfl
    · have hnone : c = none := (hshape p hp).symm.trans (shape_past hpast)
      rw [hnone, if_neg (fun h => by cases h)]
      exact .inl rfl
  · rw [cellShape, if_neg fun h0 => hv (.inl ((hshape p hp).trans h0))]
    exact hput p hp hv _ B r h

/-! ## Messages -/

/-- The words of the parts of a message. -/
def EntryWords {α : Type} (P : α → List UInt32 → Prop) : Option α → List UInt32 → Prop
  | none, ws => ws = []
  | some x, ws => P x ws

theorem putParts_spec {α : Type} {put : ℕ → α → Buffer → Res (Unit × Buffer)}
    {P : α → List UInt32 → Prop} {table : List (Option α)} {B out : Buffer} {us : List Unit}
    (hput : ∀ x, some x ∈ table → ∀ i B r, put i x B = .ok r → Kept B r (P x))
    (h : putParts put table B = .ok (us, out)) : Extension.Parts (EntryWords P) B table us out := by
  induction table generalizing us out with
  | nil =>
    cases h
    exact Extension.parts_nil
  | cons entry table ih =>
    have ih := fun {us out} => @ih us out fun x hx => hput x (.tail _ hx)
    rcases entry with _ | x
    · rw [putParts] at h
      obtain ⟨⟨us', out'⟩, h₁, h⟩ := Res.bind_eq_ok.1 h
      cases h
      have hnil : EntryWords P none [] := rfl
      exact (ih h₁).cons (Extension.kept_nil hnil)
    · rw [putParts] at h
      obtain ⟨⟨us', out₁⟩, h₁, h⟩ := Res.bind_eq_ok.1 h
      obtain ⟨⟨u, out₂⟩, h₂, h⟩ := Res.bind_eq_ok.1 h
      cases h
      have hx : Extension.Kept out₁ (u, _) (EntryWords P (some x)) :=
        hput x List.mem_cons_self _ _ _ h₂
      exact (ih h₁).cons hx

/-- The fields are at their places. -/
theorem spread_spec {α : Type} {k : ℕ} {l : List (ℕ × α)} (hle : ∀ a ∈ l, k ≤ a.1)
    (hsorted : l.Pairwise fun a a' => a.1 < a'.1) (i : ℕ) (a : α) :
    (spread k l)[i]? = some (some a) ↔ (k + i, a) ∈ l := by
  induction l generalizing k i with
  | nil => simp [spread]
  | cons e l ih =>
    rcases e with ⟨j, c⟩
    obtain ⟨hlt, hsorted⟩ := List.pairwise_cons.1 hsorted
    have hj : k ≤ j := hle (j, c) List.mem_cons_self
    have ih := ih (k := j + 1) (fun a ha => hlt a ha) hsorted
    rw [spread, List.mem_cons]
    rcases Nat.lt_trichotomy i (j - k) with hi | hi | hi
    · -- Before the first field.
      rw [List.getElem?_append_left (by rwa [List.length_replicate]), List.getElem?_replicate,
        if_pos hi]
      refine iff_of_false (by simp) ?_
      rintro (h | h)
      · cases h
        omega
      · have := hlt _ h
        omega
    · subst hi
      rw [List.getElem?_append_right (by rw [List.length_replicate]), List.length_replicate,
        Nat.sub_self, List.getElem?_cons_zero, show k + (j - k) = j by omega]
      refine ⟨fun h => .inl (by cases h; rfl), ?_⟩
      rintro (h | h)
      · cases h
        rfl
      · exact absurd (hlt _ h) (lt_irrefl j)
    · obtain ⟨d, rfl⟩ : ∃ d, i = (j - k) + (d + 1) := ⟨i - (j - k) - 1, by omega⟩
      rw [List.getElem?_append_right (by rw [List.length_replicate]; omega),
        List.length_replicate, Nat.add_sub_cancel_left, List.getElem?_cons_succ, ih,
        show k + (j - k + (d + 1)) = j + 1 + d by omega]
      refine ⟨.inr, ?_⟩
      rintro (h | h)
      · have := congrArg Prod.fst h
        dsimp only at this
        omega
      · exact h

theorem mem_spread {α : Type} {k : ℕ} {l : List (ℕ × α)} {a : α} (h : some a ∈ spread k l) :
    ∃ i, (i, a) ∈ l := by
  induction l generalizing k with
  | nil => exact absurd h List.not_mem_nil
  | cons e l ih =>
    rw [spread, List.mem_append, List.mem_cons] at h
    rcases h with h | h | h
    · exact absurd (List.eq_of_mem_replicate h) (Option.some_ne_none a)
    · cases h
      exact ⟨e.1, List.mem_cons_self⟩
    · obtain ⟨i, hi⟩ := ih h
      exact ⟨i, .tail _ hi⟩

theorem isObject_ne_nil {ws : List UInt32} (h : IsObject ws) : ws ≠ [] := by
  obtain ⟨w, tail, rfl, -⟩ := h
  exact List.cons_ne_nil _ _

theorem copy_null {B : Buffer} {fold : Bool} {r : Unit × Buffer}
    (h : copy WordSlice.null fold B = .ok r) :
    r.1.IsNil ∧ r.2 = B := by
  obtain ⟨ws, hws, h⟩ := Res.bind_eq_ok.1 h
  obtain rfl : ws = [] := List.length_eq_zero_iff.1 (wordsOfSlice_length hws)
  cases h
  rw [copySlice]
  split
  · exact ⟨⟨rfl, rfl⟩, rfl⟩
  · refine ⟨⟨rfl, ?_⟩, rfl⟩
    rw [segment, Unit.segLen, List.length_nil, Nat.zero_add, Nat.sub_self]
    rfl

theorem serializeMessageEX_copy {rec : Writer} {seeds : Seeds} {name : ℕ} {view : Bound}
    {fields : List (Option Object)} {B : Buffer} (hnone : fields.all Option.isNone = true) :
    serializeMessageEX classes raw b rec seeds name view fields B =
      (do copy (← view.detect classes raw b name) false B) := if_pos hnone

/-- Nothing is written for a message past the end. -/
theorem past_nil {rec : Writer} {seeds : Seeds} {x : Object} (hx : x.Past b) {B : Buffer}
    {r : Unit × Buffer} (h : serializeObject hash classes raw b rec seeds x B = .ok r) :
    r.1.IsNil ∧ r.2 = B := by
  obtain ⟨rfl, name, fields, rfl, hnone⟩ := hx
  rw [serializeObject, serializeMessageEX_copy hnone] at h
  exact copy_null h

/-- The unit of a message is a segment. -/
theorem serializeMessageEX_len {rec : Writer} {seeds : Seeds} {name : ℕ} {view : Bound}
    {fields : List (Option Object)} {B : Buffer} {r : Unit × Buffer}
    (h : serializeMessageEX classes raw b rec seeds name view fields B = .ok r) :
    r.1.len = 0 := by
  rw [serializeMessageEX] at h
  split at h
  · obtain ⟨s, -, h⟩ := Res.bind_eq_ok.1 h
    obtain ⟨ws, -, h⟩ := Res.bind_eq_ok.1 h
    cases h
    rfl
  · obtain ⟨⟨parts, out⟩, -, h⟩ := Res.bind_eq_ok.1 h
    rcases r with ⟨u, buf⟩
    rw [serializeMessage_unit h]
    rfl

/-- The words of a message, from those of its parts. -/
theorem fields_of_parts {name : ℕ} (hsorted : (classes name).Pairwise fun f f' => f.1 < f'.1)
    {fields : List (Option Object)} (hlen : fields.length = (classes name).length)
    {P : (ℕ × Ty) × Option Object → List UInt32 → Prop} {qs : List (Piece UInt32)}
    (hfolded : ∀ q ∈ qs, Folded q)
    (hwords : List.Forall₂ (fun entry q => EntryWords P entry q.words)
      (spread 0 (((classes name).zip fields).map fun e => (e.1.1, e))) qs) :
    (∀ q ∈ trim qs, Folded q) ∧
      (∀ e ∈ (classes name).zip fields, P e (fieldPiece (trim qs) e.1.1).words) ∧
      ∀ i, (∀ t, (i, t) ∉ classes name) → (fieldPiece (trim qs) i).words = [] := by
  set table := spread 0 (((classes name).zip fields).map fun e => (e.1.1, e)) with htable
  -- The numbers of the fields grow, so that each has its own place in the table.
  have hplaces : (((classes name).zip fields).map fun e => (e.1.1, e)).Pairwise fun a a' =>
      a.1 < a'.1 := by
    rw [List.pairwise_map]
    have hfst : ((classes name).zip fields).map Prod.fst = classes name :=
      List.map_fst_zip (by rw [hlen])
    rw [← hfst, List.pairwise_map] at hsorted
    exact hsorted
  have hspec := fun i a => spread_spec (k := 0) (fun _ _ => Nat.zero_le _) hplaces i a
  -- The fields dropped at the end are empty: what is read of them is the same.
  have hpiece : ∀ i, fieldPiece (trim qs) i = fieldPiece qs i :=
    fieldPiece_trim qs fun q hq h0 => by
    rw [h0] at hq
    exact absurd (hfolded _ hq) (by simp [Folded])
  refine ⟨fun q hq => ?_, fun e he => ?_, fun i hi => ?_⟩
  · obtain ⟨es, hqs, -⟩ := trim_append qs
    exact hfolded q (by rw [hqs]; exact List.mem_append_left _ hq)
  · have hat : table[e.1.1]? = some (some e) := (hspec e.1.1 e).2 (by
      rw [Nat.zero_add]
      exact List.mem_map.2 ⟨e, he, rfl⟩)
    obtain ⟨hlt, hget⟩ := List.getElem?_eq_some_iff.1 hat
    have hlt' : e.1.1 < qs.length := hwords.length_eq ▸ hlt
    have hentry := hwords.get hlt hlt'
    rw [List.get_eq_getElem, List.get_eq_getElem, hget] at hentry
    rw [hpiece, fieldPiece, List.getElem?_eq_getElem hlt']
    exact hentry
  · rw [hpiece, fieldPiece]
    by_cases hlt : i < qs.length
    · have hlt' : i < table.length := hwords.length_eq ▸ hlt
      have hentry := hwords.get hlt' hlt
      rw [List.getElem?_eq_getElem hlt]
      rw [List.get_eq_getElem, List.get_eq_getElem] at hentry
      cases hcase : table[i] with
      | none =>
        rw [hcase] at hentry
        exact hentry
      | some e =>
        -- The entry would be one of a field with this number.
        have hmem := (hspec i e).1 (by rw [List.getElem?_eq_getElem hlt', hcase])
        rw [Nat.zero_add] at hmem
        obtain ⟨e', he', heq⟩ := List.mem_map.1 hmem
        cases heq
        exact absurd (List.of_mem_zip (a := e.1) (b := e.2) he').1 (hi e.1.2)
    · rw [List.getElem?_eq_none (Nat.le_of_not_lt hlt)]
      rfl

/-- What is written for a message that is not past the end. -/
theorem serializeMessageEX_wrote {R : Object → List UInt32 → Prop} {rec : Writer}
    (hsorted : ∀ name, (classes name).Pairwise fun f f' => f.1 < f'.1)
    (hrec : Writes classes b bound rec R)
    (hbound : ∀ name pos, bound name pos → Held hash classes name (raw.drop pos)) {name : ℕ}
    {view : Bound} {fields : List (Option Object)}
    (hx : Typed classes bound (.message name) (.message name view fields))
    (hpast : ¬(Object.message name view fields).Past b) {seeds : Seeds} {B : Buffer}
    {r : Unit × Buffer}
    (h : serializeMessageEX classes raw b rec seeds name view fields B = .ok r) :
    Wrote none B r fun p => MessageState hash classes raw (Own R b) name view fields p.words := by
  cases hx with
  | message hview hlen hfields =>
    obtain ⟨old, rest, hwords, htakes, hn⟩ := held_words (hbound name) hview
    have htakes' := htakes
    cases htakes with
    | zero h0 => exact absurd h0 id
    | @message name ps old hmsg hlong hold hknown =>
      have hto : BoundTo hash classes raw name view ps old :=
        ⟨⟨rest, hwords⟩, hmsg, htakes', fun e he => fieldWords_piece hsorted hmsg hold hknown he,
          fun i hi => scalar_piece hsorted hmsg hknown hi⟩
      by_cases hnone : fields.all Option.isNone = true
      · -- Nothing was accessed: what `Detect` finds of the object is copied.
        rw [serializeMessageEX_copy hnone] at h
        obtain ⟨s, hs, h⟩ := Res.bind_eq_ok.1 h
        have hat : ¬(b = true ∧ view = .empty true) := by
          rintro ⟨rfl, rfl⟩
          exact hpast ⟨rfl, name, fields, rfl, hnone⟩
        have hws := detect_bound hsorted htakes' hwords hn hat hs
        rw [copy, hws, Res.ok_bind] at h
        cases h
        exact wrote_out old (isObject_ne_nil htakes'.isObject) (Takes.length_lt htakes') fun _ =>
          ⟨ps, old, hto, .inl ⟨hnone, rfl⟩⟩
      · rw [serializeMessageEX, if_neg hnone, hwords] at h
        obtain ⟨⟨us, out⟩, hputs, h⟩ := Res.bind_eq_ok.1 h
        -- Each field is put as its value, or as what was found of it.
        have hparts := putParts_spec (P := fun (e : (ℕ × Ty) × Option Object) =>
          FieldState (Own R b) (fieldPiece ps e.1.1).words e.1.2 e.2)
            (fun e he i B r hput => ?_) hputs
        · obtain ⟨qs, rfl, hsized, hplaced, hfolds, hcontent⟩ := hparts
          rcases r with ⟨u, buf⟩
          refine (serializeMessage_spec hsized hplaced h).imp fun p hlt hwritten => ?_
          obtain ⟨htotal, hmsg'⟩ := hwritten
          have hparts := hcontent (by
            have hle := total_le_widths (trim qs)
            have hlen := length_messageWords (trim qs)
            rw [← hmsg'.eq] at hlen
            rw [Extension.total_trim] at hle
            omega)
          obtain ⟨hfolded, hstate, hother⟩ := fields_of_parts (hsorted name) hlen hfolds hparts
          exact ⟨ps, old, hto,
            .inr ⟨Bool.eq_false_iff.2 hnone, trim qs, hmsg', hfolded, hstate, hother⟩⟩
        · -- What is put for a field is a value of the type of the field.
          obtain ⟨i', hi'⟩ := mem_spread he
          obtain ⟨e', he', heq⟩ := List.mem_map.1 hi'
          cases heq
          obtain ⟨j, hj, rfl⟩ := List.mem_iff_getElem.1 he'
          rw [List.length_zip] at hj
          rw [List.getElem_zip] at hput ⊢
          have hclass : (classes name)[j]? = some (classes name)[j] :=
            List.getElem?_eq_getElem (by omega)
          refine serializeField_kept hsorted hrec hmsg hlong hold hknown hn
            (List.mem_of_getElem? hclass)
            (fun x hfield => hfields j _ x hclass ?_) hput
          rw [List.getElem?_eq_getElem (by omega)]
          exact congrArg some hfield

/-! ## Any object -/

/-- What is written for an array of scalars. -/
theorem serializeScalars_wrote {m : ℕ} {core : List (List UInt32)}
    (hcore : ∀ ws ∈ core, ws.length = m) {B : Buffer} {r : Unit × Buffer}
    (h : serializeScalars m core B = .ok r) :
    Wrote none B r fun p => m * core.length < 2 ^ 30 ∧
      p.words = UInt32.ofNat (core.length <<< 2 ||| m) :: core.flatten := by
  rw [serializeScalars] at h
  split at h
  · next h0 =>
    cases h
    obtain rfl := List.length_eq_zero_iff.1 h0
    have hhead : UInt32.ofNat m = UInt32.ofNat (0 <<< 2 ||| m) := by simp
    have hzero : m * ([] : List (List UInt32)).length < 2 ^ 30 := by
      rw [List.length_nil, Nat.mul_zero]
      decide
    exact (wrote_inl [UInt32.ofNat m] rfl rfl (List.cons_ne_nil _ _)
      ⟨hzero, congrArg (fun w => [w]) hhead⟩).weaken
  · split at h
    · cases h
    · next hlt =>
      cases h
      have hlen : core.flatten.length = m * core.length := by
        rw [List.length_flatten, List.map_congr_left hcore, List.map_const', List.sum_replicate,
          smul_eq_mul, Nat.mul_comm]
      rw [← List.cons_append, List.length_append]
      exact wrote_out _ (List.cons_ne_nil _ _) (by rw [List.length_cons]; omega) fun _ =>
        ⟨by omega, rfl⟩

section

variable {rec : Writer} {R : Object → List UInt32 → Prop} {x : Object} {seeds : Seeds} {B : Buffer}
  {r : Unit × Buffer}

/-- The words of a scalar are in its unit. -/
theorem scalar_wrote {k : ℕ} (hk : x.shape = some k) (h0 : k ≠ 0)
    (h : serializeObject hash classes raw b rec seeds x B = .ok r) :
    Wrote x.shape B r fun p => State hash classes raw (InCell b R) (Own R b) x p.words := by
  have hinl : ∀ {p : Piece UInt32} {ws : List UInt32}, p = .inl ws → p.words = ws :=
    fun h => by rw [h]; rfl
  cases x <;> cases hk
  case w32 x => cases h; exact (serialize32_wrote x B).imp fun p _ hp => hinl hp
  case w64 x => cases h; exact (serialize64_wrote x B).imp fun p _ hp => hinl hp
  case float x => cases h; exact (serialize32_wrote x B).imp fun p _ hp => hinl hp
  case double x => cases h; exact (serialize64_wrote x B).imp fun p _ hp => hinl hp
  case bool x => cases h; exact (serializeBool_wrote x B).imp fun p _ hp => hinl hp
  case octet x => exact absurd rfl h0

theorem void_nil (hv : Void b x) (h : serializeObject hash classes raw b rec seeds x B = .ok r) :
    r.1.IsNil ∧ r.2 = B := by
  rcases hv with hshape | hpast
  · cases x <;> cases hshape
    cases h
    exact ⟨serializeScalar_one _, rfl⟩
  · exact past_nil hpast h

end

/-- `Serialize` writes the state of an object if the writer for the objects in it does. -/
theorem serializeObject_writes {R : Object → List UInt32 → Prop} {rec : Writer}
    (hsorted : ∀ name, (classes name).Pairwise fun f f' => f.1 < f'.1)
    (hbound : ∀ name pos, bound name pos → Held hash classes name (raw.drop pos))
    (hrec : Writes classes b bound rec R) :
    Writes classes b bound (serializeObject hash classes raw b rec)
      (State hash classes raw (InCell b R) (Own R b)) where
  void hv h := void_nil hv h
  message hx h := by
    cases hx with
    | message => exact serializeMessageEX_len h
    | null => cases h
  wrote {seeds x t B r} hx hv h := by
    cases hx with
    | scalar hk => exact scalar_wrote hk (fun h0 => hv (.inl (h0 ▸ hk))) h
    | str s =>
      obtain ⟨hlt, hw⟩ := serializeString_wrote h
      exact hw.imp fun p _ hp => ⟨hlt, hp⟩
    | bools core =>
      obtain ⟨hlt, hw⟩ := serializeString_wrote h
      exact hw.imp fun p _ hp => ⟨hlt, hp⟩
    | scalars _ hcore => exact serializeScalars_wrote hcore h
    | @array t core ht hcore =>
      have hshape : ∀ y ∈ core, y.shape = none := fun y hy =>
        Option.eq_none_iff_forall_not_mem.2 fun k hk => ht ((hcore y hy).shape.2 ⟨k, hk⟩)
      refine array_filling (fun y hy hv _ _ _ => hrec.void hv) (fun y hy hv _ _ _ h => ?_) h
      rw [← hshape y hy]
      exact hrec.wrote (hcore y hy) hv h
    | @map k t form c core hk hkeys hvalues hbyte hshape =>
      refine (map_filling (V := R) hkeys hshape (fun p hp hv _ _ _ => hrec.void hv)
        (fun p hp hv _ _ _ h => ?_) h).imp
        fun p _ hp => ⟨form.shape, cellShape c, fun p hp => by
          rw [hkeys p hp], fun p hp => by rw [hshape p hp], hp⟩
      rw [← hshape p hp]
      exact hrec.wrote (hvalues p hp fun h0 => hv (.inl h0)) hv h
    | message hview hlen hfields =>
      have hpast : ¬(Object.message _ _ _).Past b := fun hp => hv (.inr hp)
      exact serializeMessageEX_wrote hsorted hrec hbound (.message hview hlen hfields) hpast h
    | null => cases h

/-- What is written for an object, to any depth, is its state. -/
theorem serialize_writes (hash : List UInt8 → UInt32 → V128)
    (hsorted : ∀ name, (classes name).Pairwise fun f f' => f.1 < f'.1)
    (hbound : ∀ name pos, bound name pos → Held hash classes name (raw.drop pos)) (fuel : ℕ) :
    Writes classes b bound (serialize hash classes raw b fuel)
      (Written hash classes raw b fuel) := by
  induction fuel with
  | zero =>
    refine ⟨fun _ _ h => ?_, fun _ h => ?_, fun _ h => ?_⟩
    · cases h
    · cases h
    · cases h
  | succ fuel ih => exact serializeObject_writes hsorted hbound ih

/-! ## Objects -/

/-- The words of a scalar fit in a cell. -/
theorem State.length_le {C O : Object → List UInt32 → Prop} {x : Object} {k : ℕ} {ws : List UInt32}
    (hk : x.shape = some k) (h : State hash classes raw C O x ws) : ws.length ≤ 3 := by
  have hcase : ∀ us : List UInt32, us.length ≤ 3 → ws = us → ws.length ≤ 3 :=
    fun us hle heq => heq ▸ hle
  cases x <;> cases hk
  case w32.refl x => exact hcase [x] (show 1 ≤ 3 by decide) h
  case w64.refl x => exact hcase [x.toUInt32, (x >>> 32).toUInt32] (show 2 ≤ 3 by decide) h
  case float.refl x => exact hcase [x] (show 1 ≤ 3 by decide) h
  case double.refl x => exact hcase [x.toUInt32, (x >>> 32).toUInt32] (show 2 ≤ 3 by decide) h
  case bool.refl x => exact hcase [if x then 1 else 0] (show 1 ≤ 3 by decide) h
  case octet.refl x => exact hcase [if x = 0 then 0 else 1] (show 1 ≤ 3 by decide) h

theorem Written.length_le {n : ℕ} {x : Object} {k : ℕ} {ws : List UInt32} (hk : x.shape = some k)
    (h : Written hash classes raw b n x ws) : ws.length ≤ 3 := by
  cases n with
  | zero => exact absurd h id
  | succ n => exact State.length_le hk h

theorem StateWords.length_le {n : ℕ} {x : Object} {k : ℕ} {ws : List UInt32} (hk : x.shape = some k)
    (h : StateWords hash classes raw n x ws) : ws.length ≤ 3 := by
  cases n with
  | zero => exact absurd h id
  | succ n => exact State.length_le hk h

theorem Own.length_le {n : ℕ} {x : Object} {k : ℕ} {ws : List UInt32} (hk : x.shape = some k)
    (h : Own (Written hash classes raw b n) b x ws) : ws.length ≤ 3 := by
  rcases h with ⟨-, rfl⟩ | ⟨-, h⟩
  · exact Nat.zero_le _
  · exact h.length_le hk

/-- A scalar that is a field of a message fits in its cell. -/
theorem FieldState.length_le {O : Object → List UInt32 → Prop}
    (hO : ∀ {x k us}, Object.shape x = some k → O x us → us.length ≤ 3) {t : Ty}
    {field : Option Object} {old ws : List UInt32} (ht : t = .scalar) (hold : old.length ≤ 3)
    (hx : ∀ x, field = some x → Typed classes bound t x) (h : FieldState O old t field ws) :
    ws.length ≤ 3 := by
  subst ht
  cases field with
  | none =>
    obtain ⟨us, ⟨-, rfl⟩ | ⟨-, rfl⟩, rfl⟩ := h
    · exact Nat.zero_le _
    · exact hold
  | some x =>
    obtain ⟨k, hk⟩ := (hx x rfl).shape.1 rfl
    rcases h with ⟨-, rfl⟩ | ⟨-, us, hus, rfl⟩
    · exact Nat.zero_le _
    · exact hO hk hus

theorem State.isObject {C O : Object → List UInt32 → Prop} {t : Ty} {x : Object} {ws : List UInt32}
    (hx : Typed classes bound t x) (ht : t ≠ .scalar) (h : State hash classes raw C O x ws) :
    IsObject ws := by
  cases hx with
  | scalar => exact absurd rfl ht
  | str s =>
    obtain ⟨-, rfl⟩ := h
    exact isObject_stringWords s
  | bools core =>
    obtain ⟨-, rfl⟩ := h
    exact isObject_stringWords core
  | @scalars m core hm _ =>
    obtain ⟨hlt, rfl⟩ := h
    refine isObject_cons fun _ => ?_
    rcases hm with rfl | rfl
    · rw [arrayHead_mark (by omega) (by decide)]
      omega
    · rw [arrayHead_mark (by omega) (by decide)]
      omega
  | array _ _ =>
    obtain ⟨m, qs, harray, -⟩ := h
    exact harray.isObject
  | map =>
    obtain ⟨c₁, c₂, -, -, index, pos, slots, qs, m₁, m₂, hperm, hkeyed, -, hmap, hall⟩ := h
    refine hmap.isObject hkeyed ?_
    rw [List.length_map, ← hperm.length_eq, hall.length_eq]
  | message =>
    obtain ⟨ps, old, hto, ⟨-, rfl⟩ | ⟨-, qs, hqs, -⟩⟩ := h
    · exact hto.message.isObject
    · exact hqs.isObject
  | null => exact absurd h id

theorem Written.isObject {n : ℕ} {t : Ty} {x : Object} {ws : List UInt32}
    (hx : Typed classes bound t x) (ht : t ≠ .scalar) (h : Written hash classes raw b n x ws) :
    IsObject ws := by
  cases n with
  | zero => exact absurd h id
  | succ n => exact State.isObject hx ht h

theorem StateWords.isObject {n : ℕ} {t : Ty} {x : Object} {ws : List UInt32}
    (hx : Typed classes bound t x) (ht : t ≠ .scalar) (h : StateWords hash classes raw n x ws) :
    IsObject ws := by
  cases n with
  | zero => exact absurd h id
  | succ n => exact State.isObject hx ht h

/-! ## Objects that are written whole -/

/-- A message that was default-constructed, and of which nothing was accessed. -/
def Object.Fresh (x : Object) : Prop :=
  ∃ name past fields, x = .message name (.empty past) fields ∧ fields.all Option.isNone = true

theorem Object.Past.fresh {x : Object} (h : x.Past b) : x.Fresh := by
  obtain ⟨-, name, fields, rfl, hnone⟩ := h
  exact ⟨name, true, fields, rfl, hnone⟩

/-- The shared empty message is one word. -/
theorem BoundTo.eq_zero {name : ℕ} {past : Bool} {ps : List (Piece UInt32)} {old : List UInt32}
    (h : BoundTo hash classes raw name (.empty past) ps old) : old = [0] := by
  obtain ⟨rest, hrest⟩ := h.words
  obtain ⟨w, tail, rfl⟩ := List.exists_cons_of_ne_nil (isObject_ne_nil h.message.isObject)
  obtain ⟨rfl, htail⟩ := List.cons.inj hrest
  rw [(List.append_eq_nil_iff.1 htail.symm).1]

/-- A default-constructed message takes one word. -/
theorem state_fresh {C O : Object → List UInt32 → Prop} {x : Object} {ws : List UInt32}
    (hx : x.Fresh) (h : State hash classes raw C O x ws) : ws = [0] := by
  obtain ⟨name, past, fields, rfl, hnone⟩ := hx
  obtain ⟨ps, old, hto, ⟨-, rfl⟩ | ⟨hsome, -⟩⟩ := h
  · exact hto.eq_zero
  · rw [hnone] at hsome
    cases hsome

/-- The word is the encoding of one, wherever the shared empty message is. -/
theorem stateWords_fresh {n : ℕ} {x : Object} (hx : x.Fresh) :
    StateWords hash classes raw (n + 1) x [0] := by
  obtain ⟨name, past, fields, rfl, hnone⟩ := hx
  have hmsg : IsMessage [] [0] :=
    ⟨rfl, fun p hp => absurd hp List.not_mem_nil, by decide, by simp, by decide⟩
  exact ⟨[], [0], ⟨⟨[], rfl⟩, hmsg, takes_empty hash classes name, fun _ _ => FieldWords.nil,
      fun _ _ => ⟨[], rfl⟩⟩, .inl ⟨hnone, rfl⟩⟩

/-- The values of the fields that were accessed are of the types of the fields. -/
theorem Typed.field {name : ℕ} {view : Bound} {fields : List (Option Object)}
    (h : Typed classes bound (.message name) (.message name view fields))
    {e : (ℕ × Ty) × Option Object} (he : e ∈ (classes name).zip fields) {x : Object}
    (hx : e.2 = some x) : Typed classes bound e.1.2 x := by
  cases h with
  | message hview hlen hfields =>
    obtain ⟨j, hj, rfl⟩ := List.mem_iff_getElem.1 he
    rw [List.length_zip] at hj
    rw [List.getElem_zip] at hx ⊢
    refine hfields j _ x (List.getElem?_eq_getElem (by omega)) ?_
    rw [List.getElem?_eq_getElem (by omega)]
    exact congrArg some hx

theorem mem_of_zip {name : ℕ} {fields : List (Option Object)} {e : (ℕ × Ty) × Option Object}
    (he : e ∈ (classes name).zip fields) {x : Object} (hx : e.2 = some x) : some x ∈ fields :=
  hx ▸ (List.of_mem_zip (a := e.1) (b := e.2) he).2

/-- The words of a field are the same where those of its value are, but for a message without
    fields, of which nothing is kept. -/
theorem FieldState.imp {O O' : Object → List UInt32 → Prop} {t : Ty} {field : Option Object}
    {old ws : List UInt32}
    (hO : ∀ x, field = some x → ∀ us, O x us → ∃ us', O' x us' ∧ keep t us' = keep t us)
    (h : FieldState O old t field ws) : FieldState O' old t field ws := by
  cases field with
  | none => exact h
  | some x =>
    rcases h with hdefault | ⟨hdefault, us, hus, rfl⟩
    · exact .inl hdefault
    · obtain ⟨us', hus', heq⟩ := hO x rfl us hus
      exact .inr ⟨hdefault, us', hus', heq.symm⟩

/-- The words of a field are those of its state if those of its value are. -/
theorem FieldState.whole {n : ℕ} {t : Ty} {field : Option Object} {old ws : List UInt32}
    (hx : ∀ x, field = some x → Typed classes bound t x)
    (hstate : ∀ x, field = some x → ∀ us, Written hash classes raw b n x us →
      StateWords hash classes raw (n + 1) x us)
    (h : FieldState (Own (Written hash classes raw b n) b) old t field ws) :
    FieldState (StateWords hash classes raw (n + 1)) old t field ws := by
  refine h.imp fun x hfield us hus => ?_
  have hy := hx x hfield
  rcases hus with ⟨hv, rfl⟩ | ⟨-, hus⟩
  · -- Nothing was written for a message past the end, as nothing is kept of one without fields.
    have hpast : x.Past b := hv.resolve_left fun h0 => by
      cases hy with
      | scalar hk hne => exact hne (Option.some.inj (hk.symm.trans h0))
      | _ => cases h0
    obtain ⟨-, name, fields, rfl, hnone⟩ := hpast
    refine ⟨[0], stateWords_fresh ⟨name, true, fields, rfl, hnone⟩, ?_⟩
    cases hy with
    | scalar hk => cases hk
    | message => rfl
  · exact ⟨us, hstate x hfield us hus, rfl⟩

theorem isMapOf_imp {V V' : Object → List UInt32 → Prop} {c₁ c₂ : Option ℕ}
    {core : List (Key × Object)} {ws : List UInt32}
    (hV : ∀ pair ∈ core, ∀ us, V pair.2 us → V' pair.2 us)
    (h : IsMapOf hash Key.bytes c₁ c₂ Key.Spelled V core ws) :
    IsMapOf hash Key.bytes c₁ c₂ Key.Spelled V' core ws := by
  obtain ⟨index, pos, slots, qs, m₁, m₂, hperm, hkeyed, hpos, hmap, hall⟩ := h
  refine ⟨index, pos, slots, qs, m₁, m₂, hperm, hkeyed, hpos, hmap,
    List.forall₂_iff_get.2 ⟨hall.length_eq, fun i hi hi' => ?_⟩⟩
  obtain ⟨hkey, hvalue, hin⟩ := hall.get hi hi'
  exact ⟨hkey, hV _ (hperm.mem_iff.1 (List.getElem_mem hi)) _ hvalue, hin⟩

/-- The words that are left for an object are the encoding of its state, if no element of an array
    or a map in it is void. -/
theorem Written.state {n : ℕ} {t : Ty} {x : Object} {ws : List UInt32}
    (hx : Typed classes bound t x) (hwhole : ¬HasCell (Void b) x)
    (h : Written hash classes raw b n x ws) :
    StateWords hash classes raw (n + 1) x ws := by
  induction n generalizing t x ws with
  | zero => exact absurd h id
  | succ n ih =>
    have hx' := hx
    cases hx with
    | @scalar x k hk h0 => cases x <;> cases hk <;> exact h
    | str s => exact h
    | bools core => exact h
    | scalars hm hcore => exact h
    | @array t core ht hcore =>
      obtain ⟨m, qs, harray, hall⟩ := h
      refine ⟨m, qs, harray, List.forall₂_iff_get.2 ⟨hall.length_eq, fun i hi hi' => ?_⟩⟩
      have hy := List.getElem_mem hi
      exact ih (hcore _ hy) (fun hcell => hwhole (.inElement hy hcell))
        ((hall.get hi hi').2 fun hv => hwhole (.element hy hv))
    | @map k t form c core hk hkeys hvalues hbyte hshape =>
      obtain ⟨c₁, c₂, hkeys', hshape', hmap⟩ := h
      refine ⟨c₁, c₂, hkeys', hshape', isMapOf_imp (fun p hp us hus => ?_) hmap⟩
      have hv : ¬Void b p.2 := fun hv => hwhole (.value hp hv)
      exact ih (hvalues p hp fun h0 => hv (.inl h0)) (fun hcell => hwhole (.inValue hp hcell))
        (hus.2 hv)
    | @message name view fields hview hlen hfields =>
      obtain ⟨ps, old, hto, hcopy | ⟨hsome, qs, hqs, hfolded, hstate, hother⟩⟩ := h
      · exact ⟨ps, old, hto, .inl hcopy⟩
      refine ⟨ps, old, hto, .inr ⟨hsome, qs, hqs, hfolded, fun e he => ?_, hother⟩⟩
      refine (hstate e he).whole (fun x hfield => hx'.field he hfield) fun x hfield us hus => ?_
      exact ih (hx'.field he hfield)
        (fun hcell => hwhole (.inField (mem_of_zip he hfield) hcell)) hus
    | null => exact absurd h id

end

end ProtoCache.Ex

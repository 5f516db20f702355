import ProtoCache.Ex.Elements
import ProtoCache.Ex.Extent
import ProtoCache.Extension.RoundTrip

/-!
# Detect over generations of buffers

A buffer is written by the extension for a message of Protobuf, or by EX objects of which the
messages are bound to objects in a buffer that was written before, the one of which the end is
given, to any number of generations (`Produced`).

* `Produced.detected_iff`: `Detect`, at any object that can be reached in such a buffer, finds
  the words that the object takes, and only those, exactly if it sees one there: it does not
  see the mark of an array of Booleans without elements, nor a message without fields in the
  place of a container;
* `Produced.exact_head_iff`: so the first word tells whether all of an object is detected.
-/

namespace ProtoCache.Ex

open Extension (Descriptors Generated Valid Value Seeds typeName)

section

variable (hash : List UInt8 → UInt32 → V128) (schema : Descriptors) (classes : Schema)

/-- The words of an object of a type that are written in the `n`-th generation at the latest. No
    element in what is written is a message past the end. -/
def Produced : ℕ → Ty → List UInt32 → Prop
  | 0, t, ws =>
    ∃ fuel seeds name v n, Extension.serializeRoot hash schema fuel seeds name v [] = .ok ws ∧
      ws ≠ [] ∧ typeName schema n (.message name) = some t
  | n + 1, t, ws =>
    Produced n t ws ∨ ∃ t₀ ws₀ rest₀, Produced n t₀ ws₀ ∧ (Near ws₀ rest₀ ∨ rest₀ = []) ∧
      ∃ (b b' : Bool) (x : Object) (fuel : ℕ) (seeds : Seeds) (u : Unit) (out : Buffer),
        Typed classes (fun name pos =>
          Reached classes b' t₀ (ws₀ ++ rest₀) (.message name) ((ws₀ ++ rest₀).drop pos)) t x ∧
        t ≠ .scalar ∧ ¬x.Past b ∧ ¬HasCell (Object.Past b) x ∧
        serialize hash classes (ws₀ ++ rest₀) b fuel seeds x [] = .ok (u, out) ∧ ws = u.words out

end

section

variable {hash : List UInt8 → UInt32 → V128} {schema : Descriptors} {classes : Schema}

/-- The words that are produced are those of an object. -/
theorem Produced.takes (hclasses : Generated schema classes) (hvalid : Valid schema) {n : ℕ}
    {t : Ty} {ws : List UInt32} (h : Produced hash schema classes n t ws) :
    Takes hash classes t ws := by
  induction n generalizing t ws with
  | zero =>
    obtain ⟨fuel, seeds, name, v, n, h, hne, hname⟩ := h
    obtain ⟨n, slots, ws', rfl, hlayout, ⟨-, -, rfl⟩ | ⟨-, rfl⟩⟩ := Extension.serializeRoot_layout h
    · exact absurd rfl hne
    · exact hlayout.takes (fun _ _ _ _ _ h hname => h.takes hclasses hvalid hname) hclasses
        hvalid hname
  | succ n ih =>
    rcases h with
      h | ⟨t₀, ws₀, rest₀, hp, hn, b, b', x, fuel, seeds, u, out, hx, ht, hpast, hin, h, rfl⟩
    · exact ih h
    · have hwrote :=
        (serialize_writes hash (hclasses.sorted hvalid) (fun _ _ hreached => (ih hp).reached
            (hclasses.sorted hvalid) hn hreached) fuel).wrote hx (not_void hx ht hpast) h
      obtain ⟨p, hp, hwords⟩ := hwrote.words (by decide)
      rw [hwords]
      exact hp.takes hx ht hin

/-- `Detect` at an object in a buffer that was produced finds the words of the object, and only
    those, if and only if it sees one. -/
theorem Produced.detected_iff (hclasses : Generated schema classes) (hvalid : Valid schema) {n : ℕ}
    {t₀ : Ty} {ws₀ rest₀ : List UInt32} (h : Produced hash schema classes n t₀ ws₀)
    (hn : Near ws₀ rest₀ ∨ rest₀ = []) {b : Bool} {t : Ty} {v : List UInt32}
    (hreached : Reached classes b t₀ (ws₀ ++ rest₀) t v) :
    ∃ ws rest, v = ws ++ rest ∧ Takes hash classes t ws ∧ ∀ fuel, ws.length < fuel →
      (detect classes false b fuel t (.at v) = .ok ⟨.at v, ws.length⟩ ↔ ¬Unseen t ws) := by
  have hsorted := hclasses.sorted hvalid
  obtain ⟨ws, rest, rfl, htakes, hnear⟩ := (h.takes hclasses hvalid).reached hsorted hn hreached
  exact ⟨ws, rest, rfl, htakes, fun fuel hfuel => htakes.detect_iff hsorted (fun _ => hnear) hfuel⟩

/-- The whole of an object in a buffer that was produced is detected exactly if its first word is
    not one that `Detect` of its type does not see. -/
theorem Produced.exact_head_iff (hclasses : Generated schema classes) (hvalid : Valid schema)
    {n : ℕ} {t₀ : Ty} {ws₀ rest₀ : List UInt32} (h : Produced hash schema classes n t₀ ws₀)
    (hn : Near ws₀ rest₀ ∨ rest₀ = []) {b : Bool} {t : Ty} {v : List UInt32}
    (hreached : Reached classes b t₀ (ws₀ ++ rest₀) t v) :
    Exact hash classes b t v ↔ ¬UnseenAt t v := by
  have hsorted := hclasses.sorted hvalid
  obtain ⟨ws, rest, rfl, htakes, hnear⟩ := (h.takes hclasses hvalid).reached hsorted hn hreached
  exact htakes.exact_iff hsorted fun _ => hnear

end

/-- Messages of one number. -/
def numbered : Descriptors := fun _ => [{ name := "x", number := 1, kind := .single .uint32 }]

theorem numbered_generated : Generated numbered scalarClass := by
  intro name
  have hfields : Extension.fieldsInOrder (numbered name) = numbered name :=
    List.mergeSort_singleton _
  change List.Forall₂ _ (Extension.fieldsInOrder (numbered name)) _
  rw [hfields]
  exact .cons ⟨rfl, 1, rfl⟩ .nil

theorem numbered_valid : Valid numbered where
  distinct _ := List.nodup_singleton _
  numbered _ f hf := by
    rw [List.mem_singleton.1 hf]
    exact Nat.one_ne_zero
  aliased _ f hf := by cases hf

theorem numbered_first :
    Produced (fun _ _ => ⟨0, 0, 0, 0⟩) numbered scalarClass 0 (.message 0) [256, 7] :=
  ⟨1, fun _ _ => 0, 0, .message [.one (.w32 7)], 1, by decide +kernel, List.cons_ne_nil _ _, rfl⟩

/-- A message that was read with the number 7, which was set to 9. -/
def renumbered : Object := .message 0 (.at 0) [some (.w32 9)]

theorem renumbered_typed {bound : ℕ → ℕ → Prop} (h : bound 0 0) :
    Typed scalarClass bound (.message 0) renumbered := by
  refine .message (fun v hv => ?_) rfl fun i e x he hx => ?_
  · cases hv
    exact h
  · cases i with
    | zero =>
      cases he
      cases hx
      exact .scalar rfl Nat.one_ne_zero
    | succ i => cases he

theorem renumbered_not_past {b : Bool} : ¬renumbered.Past b := by
  rintro ⟨-, name, fields, h, -⟩
  cases h

theorem renumbered_whole {V : Object → Prop} : ¬HasCell V renumbered := by
  intro h
  cases h with
  | inField hx hcell =>
    cases List.mem_singleton.1 hx
    cases hcell

theorem renumbered_written :
    serialize (fun _ _ => ⟨0, 0, 0, 0⟩) scalarClass [256, 7] true 2 (fun _ _ => 0) renumbered [] =
      .ok (({ d₀ := 2, d₁ := 2 } : Unit), [256, 9]) := by decide +kernel

/-- The number 7 in a message, which was read into an EX object, set to 9 there, and written. -/
theorem renumbered_produced :
    Produced (fun _ _ => ⟨0, 0, 0, 0⟩) numbered scalarClass 1 (.message 0) [256, 9] :=
  .inr ⟨.message 0, [256, 7], [], numbered_first, .inr rfl, true, true, renumbered, 2, fun _ _ => 0,
    { d₀ := 2, d₁ := 2 }, [256, 9], renumbered_typed .root, fun h => (by cases h),
    renumbered_not_past, renumbered_whole, renumbered_written, by decide +kernel⟩

/-- A message of the second generation. -/
theorem Produced.detected_iff_two :
    ∃ ws rest, [256, 9] = ws ++ rest ∧ Takes (fun _ _ => ⟨0, 0, 0, 0⟩) scalarClass (.message 0) ws ∧
      ∀ fuel, ws.length < fuel →
        (detect scalarClass false true fuel (.message 0) (.at [256, 9]) =
          .ok ⟨.at [256, 9], ws.length⟩ ↔
          ¬Unseen (.message 0) ws) :=
  @Produced.detected_iff _ _ _ numbered_generated numbered_valid 1 (.message 0) [256, 9] []
    renumbered_produced (.inr rfl) true
    (.message 0) _ .root

/-- The whole of the same message is detected. -/
theorem Produced.exact_head_iff_two :
    Exact (fun _ _ => ⟨0, 0, 0, 0⟩) scalarClass true (.message 0) [256, 9] ↔
      ¬UnseenAt (.message 0) [256, 9] :=
  @Produced.exact_head_iff _ _ _ numbered_generated numbered_valid 1 (.message 0) [256, 9] []
    renumbered_produced (.inr rfl) true (.message 0) _ .root

/-- Messages with a list of aliases of Booleans. -/
def flagged : Descriptors := fun name =>
  if name = 0 then [{ name := "flags", number := 1, kind := .repeated (.message 1) }]
  else [{ name := "_", number := 1, kind := .repeated .bool }]

def flaggedClasses : Schema := fun name => if name = 0 then [(0, .array .bools)] else []

theorem flagged_generated : Generated flagged flaggedClasses := by
  intro name
  have hfields : Extension.fieldsInOrder (flagged name) = flagged name := by
    rw [flagged]
    split <;> exact List.mergeSort_singleton _
  rw [hfields, flagged, flaggedClasses]
  by_cases h0 : name = 0
  · rw [if_pos h0, if_pos h0]
    exact .cons ⟨rfl, 3, rfl⟩ .nil
  · rw [if_neg h0, if_neg h0]
    exact rfl

/-- In a message with a list of one alias of Booleans, which is empty, the alias is the mark 1, of
    which `Detect` does not find the word. -/
theorem produced_inexact :
    Generated flagged flaggedClasses ∧
      Produced (fun _ _ => ⟨0, 0, 0, 0⟩) flagged flaggedClasses 0 (.message 0) [0x200, 5, 1] ∧
      Reached flaggedClasses false (.message 0) [0x200, 5, 1] .bools [1] ∧
      ¬Exact (fun _ _ => ⟨0, 0, 0, 0⟩) flaggedClasses false .bools [1] := by
  have hflags : Reached flaggedClasses false (.message 0) [0x200, 5, 1] (.array .bools) [5, 1] :=
    .child .root (f := ⟨.at [5, 1], 2⟩) rfl List.mem_cons_self rfl
  refine ⟨flagged_generated, ?_, .child hflags (f := ⟨.at [1], 1⟩) rfl List.mem_cons_self rfl, ?_⟩
  · exact ⟨3, fun _ _ => 0, 0, .message [.repeated [.message [.repeated []]]], 1,
      by decide +kernel, List.cons_ne_nil _ _, rfl⟩
  · rintro ⟨ws, -, -, -, hdetect⟩
    cases hdetect (ws.length + 1) (Nat.lt_succ_self _)

end ProtoCache.Ex

import ProtoCache.Ex.Produced

/-!
# Reading EX objects back

What a reader finds of the fields of a message that an EX object has written.

* `serialize_state`: the words that `Serialize` leaves for an object are the encoding of its state,
  exactly if something is written for it and for every element of the arrays and maps in it.
* `serialize_fields_read`: in a message that was written, a field that was accessed reads as the
  value that the object has for it, and any other as it reads in the object that the message
  is bound to.
-/

namespace ProtoCache.Ex

open Row LittleEndian
open Extension (Seeds)

/-- What a reader finds of a field of a type in a message: nothing, a scalar, or an object, which
    starts with these words. -/
def FieldReads (b : Bool) (t : Ty) (v : List UInt32) (i : ℕ) (ws : List UInt32) : Prop :=
  ∃ f, getField b v i = .ok f ∧
    (ws = [] ∧ f = Field.null ∨
      ws ≠ [] ∧ ∃ tail, if t = .scalar then f.getValue b = (.at (ws ++ tail), ws.length)
        else f.getObject b = .ok (.at (ws ++ tail)))

section

variable {hash : List UInt8 → UInt32 → V128} {classes : Schema} {raw : List UInt32} {b b' : Bool}
  {bound : ℕ → ℕ → Prop}

/-- A reader finds the words of a field of a message. -/
theorem IsMessage.fieldReads {qs : List (Piece UInt32)} {ws : List UInt32} (h : IsMessage qs ws)
    {i : ℕ} {t : Ty} (hscalar : t = .scalar → ∃ us, fieldPiece qs i = .inl us)
    (hobject : t ≠ .scalar → (fieldPiece qs i).words ≠ [] → IsObject (fieldPiece qs i).words)
    (rest : List UInt32) :
    FieldReads b t (ws ++ rest) i (fieldPiece qs i).words := by
  -- A field has no words only if it has no width.
  have hwidth : pieceWidth (fieldPiece qs i) ≤ 3 ∧
      ((fieldPiece qs i).words = [] ↔ pieceWidth (fieldPiece qs i) = 0) := by
    have hne : fieldPiece qs i ≠ .out [] ∧ pieceWidth (fieldPiece qs i) ≤ 3 := by
      cases hi : qs[i]? with
      | none =>
        rw [fieldPiece, hi]
        exact ⟨fun h => (by cases h), Nat.zero_le _⟩
      | some q =>
        rw [fieldPiece, hi]
        exact (h.widths q (List.mem_of_getElem? hi)).symm
    refine ⟨hne.2, ?_⟩
    cases hp : fieldPiece qs i with
    | inl us => exact List.length_eq_zero_iff.symm
    | out us =>
      rw [hp] at hne
      exact iff_of_false (fun h0 => hne.1 (congrArg Piece.out h0)) Nat.one_ne_zero
  rcases getField_eq h b rest i with ⟨h0, hnull⟩ | ⟨v, hv, hshow⟩
  · exact ⟨_, hnull, .inl ⟨hwidth.2.2 h0, rfl⟩⟩
  · by_cases h0 : (fieldPiece qs i).words = []
    · refine ⟨Field.null, ?_, .inl ⟨h0, rfl⟩⟩
      rw [getField_at h, if_pos (hwidth.2.1 h0)]
    · refine ⟨_, hv, .inr ⟨h0, ?_⟩⟩
      -- A scalar is read from the cell itself, an object where the cell leads.
      by_cases ht : t = .scalar
      · obtain ⟨us, hus⟩ := hscalar ht
        rw [hus] at hshow ⊢
        obtain ⟨tail, rfl, hvalue⟩ := getValue_eq b us hshow
        exact ⟨tail, by rw [if_pos ht]; exact hvalue⟩
      · have hobj := hobject ht h0
        have hfits : (fieldPiece qs i).Fits (pieceWidth (fieldPiece qs i)) := by
          cases fieldPiece qs i with
          | inl us => exact le_rfl
          | out us => exact le_rfl
        obtain ⟨tail, hget, -⟩ :=
          getObject_shows (pieceWidth (fieldPiece qs i)) b hshow hfits hwidth.1 h0
          fun x xs hp => by
            rw [hp] at hobj hwidth
            obtain ⟨w, tail, hw, hmark⟩ := hobj
            cases hw
            exact hmark hwidth.1
        exact ⟨tail, by rw [if_neg ht]; exact hget⟩

theorem renumbered_held (name pos : ℕ) (h : name = 0 ∧ pos = 0) :
    Held (fun _ _ => ⟨0, 0, 0, 0⟩) scalarClass name (List.drop pos [256, 7]) := by
  obtain ⟨rfl, rfl⟩ := h
  exact ⟨[256, 7], [], rfl, numbered_first.takes numbered_generated numbered_valid, .inr rfl⟩

theorem Writes.nil {R : Object → List UInt32 → Prop} {rec : Writer}
    (hrec : Writes classes b bound rec R) {seeds : Seeds} {x : Object} {buf out : Buffer} {u : Unit}
    (hv : Void b x) (h : rec seeds x buf = .ok (u, out)) :
    u.words out = [] := by
  obtain ⟨⟨hlen, hseg⟩, -⟩ := hrec.void hv h
  change u.segLen = 0 at hseg
  rw [Unit.words, if_pos hlen, hseg]
  rfl

/-- What `Serialize` leaves for an object is the encoding of its state, if and only if something is
    written for it and for everything in a cell of an array or a map, at any depth. -/
theorem serialize_state (hash : List UInt8 → UInt32 → V128)
    (hsorted : ∀ name, (classes name).Pairwise fun f f' => f.1 < f'.1)
    (hbound : ∀ name pos, bound name pos → Held hash classes name (raw.drop pos)) (fuel : ℕ)
    (seeds : Seeds) {t : Ty} {x : Object} (hx : Typed classes bound t x) {buf out : Buffer}
    {u : Unit} (h : serialize hash classes raw b fuel seeds x buf = .ok (u, out))
    (hbuf : buf.length < 2 ^ 31) :
    Encodes hash classes raw x (u.words out) ↔ ¬Void b x ∧ ¬HasCell (Void b) x := by
  have hrec : Writes classes b bound (serialize hash classes raw b fuel)
    (Written hash classes raw b fuel) :=
    serialize_writes hash hsorted hbound fuel
  by_cases hv : Void b x
  · refine iff_of_false (fun ⟨n, hstate⟩ => ?_) fun hwhole => hwhole.1 hv
    obtain ⟨w, hw, -⟩ := hstate.void hv
    rw [hrec.nil hv h] at hw
    cases hw
  · obtain ⟨p, hp, hwords⟩ := (hrec.wrote hx hv h).words hbuf
    rw [hwords]
    constructor
    · rintro ⟨n, hstate⟩
      have hsame : p.words ++ [] = p.words ++ [] := rfl
      exact ⟨hv, fun hcell => hcell.clash hx hp hstate hsame⟩
    · rintro ⟨-, hwhole⟩
      exact ⟨_, hp.state hx hwhole⟩

/-- The state of a message that was read, changed and written. -/
theorem serialize_state_renumbered :
    Encodes (fun _ _ => ⟨0, 0, 0, 0⟩) scalarClass [256, 7] renumbered
      (({ d₀ := 2, d₁ := 2 } : Unit).words [256, 9]) ↔
      ¬Void true renumbered ∧ ¬HasCell (Void true) renumbered :=
  serialize_state _ scalarClass_sorted renumbered_held 2 (fun _ _ => 0)
    (renumbered_typed ⟨rfl, rfl⟩)
    renumbered_written (by decide)

/-! ## Fields -/

/-- The words of a field in an object that a message is bound to. -/
theorem BoundTo.fieldReads {name : ℕ} {view : Bound} {ps : List (Piece UInt32)} {old : List UInt32}
    (h : BoundTo hash classes raw name view ps old) {i : ℕ} {t : Ty} (hmem : (i, t) ∈ classes name)
    (rest : List UInt32) : FieldReads b t (old ++ rest) i (fieldPiece ps i).words := by
  refine IsMessage.fieldReads h.message (fun ht => h.scalar i (ht ▸ hmem)) (fun ht hne => ?_) rest
  have hfield := h.fields _ hmem
  rw [FieldWords, if_neg ht] at hfield
  exact (hfield.resolve_left hne).isObject

/-- What is read of a field starts with the same words, whatever they are told to be. -/
theorem FieldReads.same {t : Ty} {v : List UInt32} {i : ℕ} {us us' : List UInt32}
    (h : FieldReads b t v i us) (h' : FieldReads b t v i us') (ht : t ≠ .scalar) (hne : us ≠ [])
    (hne' : us' ≠ []) :
    ∃ tail tail', us ++ tail = us' ++ tail' := by
  obtain ⟨f, hf, hread⟩ := h
  obtain ⟨f', hf', hread'⟩ := h'
  obtain rfl : f = f' := Except.ok.inj (hf.symm.trans hf')
  obtain ⟨-, tail, hobj⟩ := hread.resolve_left fun h0 => hne h0.1
  obtain ⟨-, tail', hobj'⟩ := hread'.resolve_left fun h0 => hne' h0.1
  rw [if_neg ht] at hobj hobj'
  exact ⟨tail, tail', Ptr.at.inj (Except.ok.inj (hobj.symm.trans hobj'))⟩

theorem keep_eq_or (t : Ty) (us : List UInt32) : keep t us = us ∨ keep t us = [] := by
  cases t with
  | message name =>
    rw [keep]
    split
    · exact .inr rfl
    · exact .inl rfl
  | _ => exact .inl rfl

/-- The words of a field that was written are those of an object. -/
theorem FieldState.isObject {O : Object → List UInt32 → Prop} {t : Ty} {field : Option Object}
    {old ws : List UInt32} (hold : old ≠ [] → IsObject old)
    (hO : ∀ x, field = some x → ∀ us, O x us → us ≠ [] → IsObject us)
    (h : FieldState O old t field ws) (hne : ws ≠ []) : IsObject ws := by
  cases field with
  | none =>
    obtain ⟨us, hus, rfl⟩ := h
    have heq := (keep_eq_or t us).resolve_right hne
    rw [heq] at hne ⊢
    rcases hus with ⟨-, rfl⟩ | ⟨-, rfl⟩
    · exact absurd rfl hne
    · exact hold hne
  | some x =>
    rcases h with ⟨-, rfl⟩ | ⟨-, us, hus, rfl⟩
    · exact absurd rfl hne
    · have heq := (keep_eq_or t us).resolve_right hne
      rw [heq] at hne ⊢
      exact hO x rfl us hus hne

/-- The words of a field that was written, with a cell in it, are not those of its state. -/
theorem FieldState.clash {n : ℕ} {t : Ty} {x : Object} {v old old' ws ws' : List UInt32} {i : ℕ}
    (hx : Typed classes bound t x) (hcell : HasCell (Void b) x)
    (h : FieldState (Own (Written hash classes raw b n) b) old t (some x) ws)
    (hread : FieldReads b' t v i ws)
    (h' : FieldState (Encodes hash classes raw) old' t (some x) ws') :
    ¬FieldReads b' t v i ws' := by
  intro hread'
  have hdefault := hcell.not_default hx
  rcases h with ⟨h0, -⟩ | ⟨-, us, hus, rfl⟩
  · exact absurd h0 (by rw [hdefault]; decide)
  rcases h' with ⟨h0, -⟩ | ⟨-, us', ⟨n', hstate⟩, rfl⟩
  · exact absurd h0 (by rw [hdefault]; decide)
  have hwritten := (hus.resolve_left fun hown => hcell.not_void hown.1).2
  have hlong := hwritten.two_le hx hcell
  have hlong' := hstate.two_le hx hcell
  rw [keep_long hlong] at hread
  rw [keep_long hlong'] at hread'
  obtain ⟨tail, tail', hsame⟩ :=
    hread.same hread' (hcell.not_scalar hx) (List.ne_nil_of_length_pos (by omega))
    (List.ne_nil_of_length_pos (by omega))
  exact hcell.clash hx hwritten hstate hsame

end

end ProtoCache.Ex

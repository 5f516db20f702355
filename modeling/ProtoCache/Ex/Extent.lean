import ProtoCache.Ex.State

/-!
# The words of EX objects

What is written for an EX object takes its words in order, as what its messages are bound to
does, with copies of some fields and others written anew (`Written.takes`). There is an exception:
a message bound to the shared empty one may be past the end, and then `Detect` finds nothing,
for which an array or a map still has a cell.
-/

namespace ProtoCache.Ex

open Row LittleEndian
open Extension (Key Folded)

section

variable {hash : List UInt8 → UInt32 → V128} {classes : Schema} {raw : List UInt32} {b : Bool}
  {bound : ℕ → ℕ → Prop}

theorem FieldWords.keep {t : Ty} {ws : List UInt32} (h : FieldWords hash classes t ws) :
    FieldWords hash classes t (Ex.keep t ws) := by
  cases t with
  | message name =>
    rw [Ex.keep]
    split
    · exact FieldWords.nil
    · exact h
  | _ => exact h

/-- Only a scalar or a message past the end is void. -/
theorem not_void {t : Ty} {x : Object} (hx : Typed classes bound t x) (ht : t ≠ .scalar)
    (hpast : ¬x.Past b) :
    ¬Void b x := by
  rintro (h0 | h)
  · exact ht (hx.shape.2 ⟨0, h0⟩)
  · exact hpast h

/-- The words of a field of a message, whether it was accessed or not. -/
theorem FieldState.fieldWords {n : ℕ} {t : Ty} {field : Option Object} {old ws : List UInt32}
    (hold : FieldWords hash classes t old) (hx : ∀ x, field = some x → Typed classes bound t x)
    (htakes : ∀ x, field = some x → t ≠ .scalar → ∀ us,
      Written hash classes raw b n x us → Takes hash classes t us)
    (h : FieldState (Own (Written hash classes raw b n) b) old t field ws) :
    FieldWords hash classes t ws := by
  by_cases ht : t = .scalar
  · rw [FieldWords, if_pos ht] at hold ⊢
    exact h.length_le (fun hk hus => hus.length_le hk) ht hold hx
  · cases field with
    | none =>
      obtain ⟨us, ⟨-, rfl⟩ | ⟨-, rfl⟩, rfl⟩ := h
      · exact FieldWords.nil.keep
      · exact hold.keep
    | some x =>
      rcases h with ⟨-, rfl⟩ | ⟨-, us, ⟨-, rfl⟩ | ⟨-, hus⟩, rfl⟩
      · exact FieldWords.nil
      · exact FieldWords.nil.keep
      · exact FieldWords.keep (.of_takes (htakes x rfl ht us hus))

/-- The words of a message with these parts. -/
theorem takes_message {name : ℕ} {qs : List (Piece UInt32)}
    {ws : List UInt32} (hmsg : IsMessage qs ws) (hfolded : ∀ q ∈ qs, Folded q)
    (hwords : ∀ e ∈ classes name, FieldWords hash classes e.2 (fieldPiece qs e.1).words)
    (hother : ∀ i, (∀ t, (i, t) ∉ classes name) → (fieldPiece qs i).words = []) :
    Takes hash classes (.message name) ws := by
  have hpiece : ∀ {i : ℕ} {q : Piece UInt32}, qs[i]? = some q → fieldPiece qs i = q := fun hi => by
    rw [fieldPiece, hi]
    rfl
  refine .message hmsg (fun q hq x hx => ?_) (fun i t q hmem ht hi hne => ?_) fun i q hi ho => ?_
  · have hfold := hfolded q hq
    rw [hx] at hfold
    exact absurd hfold (by simp [Folded])
  · have hfield := hwords _ hmem
    rw [hpiece hi, FieldWords, if_neg ht] at hfield
    exact hfield.resolve_left hne
  · -- What is out of line is longer than a scalar.
    have hlong := (hfolded q (List.mem_of_getElem? hi)).outer ho
    by_cases hin : ∃ t, (i, t) ∈ classes name
    · obtain ⟨t, hmem⟩ := hin
      refine ⟨t, hmem, fun h0 => ?_⟩
      have hfield := hwords _ hmem
      rw [hpiece hi, FieldWords, if_pos h0] at hfield
      omega
    · have hnil := hother i fun t hmem => hin ⟨t, hmem⟩
      rw [hpiece hi] at hnil
      rw [hnil] at hlong
      exact absurd hlong (by simp)

/-- What is left for an object takes its words, unless an element in it is a message past the
    end. -/
theorem Written.takes {n : ℕ} {t : Ty} {x : Object} {ws : List UInt32}
    (hx : Typed classes bound t x) (ht : t ≠ .scalar) (hin : ¬HasCell (Object.Past b) x)
    (h : Written hash classes raw b n x ws) : Takes hash classes t ws := by
  -- By induction on how deep the calls are nested, with a case for each kind of object.
  induction n generalizing t x ws with
  | zero => exact absurd h id
  | succ n ih =>
    have hx' := hx
    cases hx with
    | scalar => exact absurd rfl ht
    | str s =>
      obtain ⟨hlt, rfl⟩ := h
      exact .str hlt
    | bools core =>
      obtain ⟨hlt, rfl⟩ := h
      exact .bools hlt
    | @scalars m core hm hcore =>
      obtain ⟨hlt, rfl⟩ := h
      have hlen : core.flatten.length = m * core.length := by
        rw [List.length_flatten, List.map_congr_left hcore, List.map_const', List.sum_replicate,
          smul_eq_mul, Nat.mul_comm]
      exact .scalars (by omega) (by omega) hlen hlt
    | @array t core ht hcore =>
      obtain ⟨m, qs, harray, hall⟩ := h
      refine .array harray fun q hq => ?_
      obtain ⟨y, hy, hcell⟩ := Pointwise.exists_left hall hq
      have hv := not_void (hcore y hy) ‹t ≠ .scalar› fun hpast => hin (.element hy hpast)
      exact ih (hcore y hy) ‹t ≠ .scalar› (fun hcell => hin (.inElement hy hcell)) (hcell.2 hv)
    | @map k t form c core hk hkeys hvalues hbyte hshape =>
      obtain ⟨c₁, c₂, hkeys', hshape', hmap⟩ := h
      refine Extension.takes_isMapOf ?_ (fun h0 hne => ?_) (fun h0 p hp us hus => ?_) hmap
      · -- The keys are strings, or they have one width.
        rcases hk with ⟨rfl, rfl⟩ | ⟨rfl, hform⟩
        · exact .inr ⟨rfl, hkeys⟩
        · refine .inl ⟨rfl, fun hne => ?_⟩
          obtain ⟨p, hp⟩ := List.exists_mem_of_ne_nil core hne
          rw [← hkeys' p hp, hkeys p hp]
          rcases hform with rfl | rfl
          · exact ⟨1, rfl⟩
          · exact ⟨2, rfl⟩
      · obtain ⟨p, hp⟩ := List.exists_mem_of_ne_nil core hne
        obtain ⟨n, hn⟩ : ∃ n, p.2.shape = some n := by
          by_cases hzero : p.2.shape = some 0
          · exact ⟨0, hzero⟩
          · exact (hvalues p hp hzero).shape.1 h0
        rw [← hshape' p hp, hn, cellShape]
        split <;> exact ⟨_, rfl⟩
      · have hy := hvalues p hp fun hzero => h0 (hbyte p hp hzero)
        exact ih hy h0 (fun hcell => hin (.inValue hp hcell))
          (hus.2 (not_void hy h0 fun hpast => hin (.value hp hpast)))
    | @message name view fields hview hlen hfields =>
      obtain ⟨ps, old, hto, ⟨-, rfl⟩ | ⟨-, qs, hqs, hfolded, hstate, hother⟩⟩ := h
      · exact hto.takes
      · refine takes_message hqs hfolded (fun e he => ?_) hother
        obtain ⟨j, hj, rfl⟩ := List.mem_iff_getElem.1 he
        have hzip : j < ((classes name).zip fields).length := by
          rw [List.length_zip, hlen, Nat.min_self]
          exact hj
        have hmem : ((classes name)[j], fields[j]) ∈ (classes name).zip fields := by
          refine List.mem_iff_getElem.2 ⟨j, hzip, ?_⟩
          rw [List.getElem_zip]
        exact FieldState.fieldWords (hto.fields _ he) (fun x hx => hx'.field hmem hx)
          (fun x hfield ht us hus => ih (hx'.field hmem hfield) ht
            (fun hcell => hin (.inField (mem_of_zip hmem hfield) hcell)) hus) (hstate _ hmem)
    | null => exact absurd h id

end

end ProtoCache.Ex

import ProtoCache.ReadBack

/-!
# Fields anywhere in the buffer

`SerializeMessage` does not move what its units stand for, so the words of a field may
be anywhere in the buffer (`Unit.InBuffer`).

* `serializeMessage_linked`: whatever the positions of its segments are, a message has
  for a segment the link to it, as a word of its own (`linked`).
* `serializeMessage_fields`: `Message::GetField` finds each field that is not empty, and
  a link leads to its segment unless it is `2 ^ 30` words away or more, which it is not
  where the segments stand next to each other; and when nothing is written.
-/

namespace ProtoCache

open Row

namespace Unit

/-- Nothing was written for it: `size()` is zero. -/
def IsNil (u : Unit) : Prop := u.len = 0 ∧ u.segLen = 0

/-- Its words are in the buffer. -/
def IsSegment (u : Unit) : Prop := u.len = 0 ∧ u.segLen ≠ 0

/-- A unit of no word, of one to three words, or of words in the buffer since `last`. -/
def InBuffer (last : ℕ) (buf : Buffer) (u : Unit) : Prop :=
  u.len ≤ 3 ∧ (u.IsSegment → last + u.segLen.toNat ≤ u.segPos.toNat ∧ u.segPos.toNat ≤ buf.length)

/-- The words from the first word of a segment on. -/
def view (u : Unit) (buf : Buffer) : List UInt32 := buf.drop (buf.length - u.segPos.toNat)

/-- The words that a unit stands for. -/
def words (u : Unit) (out : Buffer) : List UInt32 :=
  if u.len = 0 then (out.drop (out.length - u.segPos.toNat)).take u.segLen.toNat else u.data

instance (u : Unit) : Decidable u.IsNil := inferInstanceAs (Decidable (_ ∧ _))

instance (u : Unit) : Decidable u.IsSegment := inferInstanceAs (Decidable (_ ∧ _))

instance (last : ℕ) (buf : Buffer) (u : Unit) : Decidable (u.InBuffer last buf) :=
  inferInstanceAs (Decidable (_ ∧ (_ → _)))

theorem size_eq_zero {u : Unit} : u.size = 0 ↔ u.IsNil := by
  rw [size, IsNil]
  split
  · next h => rw [← UInt32.toNat_inj]; exact (and_iff_right h).symm
  · next h => exact ⟨fun h0 => absurd h0 h, fun h0 => absurd h0.1 h⟩

theorem width_eq_zero {u : Unit} : u.width = 0 ↔ u.IsNil := by
  rw [width, IsNil]
  split
  · next h => exact ⟨fun h0 => absurd h0 h, fun h0 => absurd h0.1 h⟩
  · next h =>
    split
    · next h' => exact ⟨fun h0 => absurd h0 Nat.one_ne_zero, fun h0 => absurd h0.2 h'⟩
    · next h' => exact ⟨fun _ => ⟨not_not.1 h, not_not.1 h'⟩, fun _ => rfl⟩

/-- A cell takes no more words than the unit. -/
theorem width_le_size (u : Unit) : u.width ≤ u.size := by
  by_cases h : u.len = 0
  · rw [width, if_neg (not_not.2 h), size, if_pos h]
    split
    · next h' => exact Nat.one_le_iff_ne_zero.2 fun h0 => h' (UInt32.toNat_inj.1 h0)
    · exact Nat.zero_le _
  · rw [width, if_pos h, size, if_neg h]

theorem length_data {u : Unit} (h : u.len ≤ 3) : u.data.length = u.len := by
  rw [data, List.length_take]
  exact Nat.min_eq_left h

end Unit

/-! ## Fields anywhere in the buffer -/

/-- What a message has for a field whose cell is at the position `pos`. -/
def Unit.cell (u : Unit) (pos : ℕ) : List UInt32 :=
  if u.len ≠ 0 then u.data else if u.segLen ≠ 0 then [offset (UInt32.ofNat pos - u.segPos)] else []

/-- The fields of a message, with the link to a segment as a word of the message. -/
def linked : ℕ → List Unit → List (Piece UInt32)
  | _, [] => []
  | pos, u :: us => .inl (u.cell pos) :: linked (pos - u.width) us

theorem Unit.length_cell {u : Unit} (h : u.len ≤ 3) (pos : ℕ) : (u.cell pos).length = u.width := by
  rw [cell, width]
  split
  · exact length_data h
  · split <;> rfl

theorem length_linked (pos : ℕ) (us : List Unit) : (linked pos us).length = us.length := by
  induction us generalizing pos with
  | nil => rfl
  | cons u us ih => rw [linked, List.length_cons, List.length_cons, ih]

theorem linked_getElem? (pos : ℕ) (us : List Unit) (id : ℕ) :
    (linked pos us)[id]? = us[id]?.map fun u =>
      .inl (u.cell (pos - ((us.take id).map Unit.width).sum)) := by
  induction us generalizing pos id with
  | nil => rfl
  | cons u us ih =>
    cases id with
    | zero => rfl
    | succ id =>
      rw [linked, List.getElem?_cons_succ, List.getElem?_cons_succ, ih, List.take_succ_cons,
        List.map_cons, List.sum_cons, Nat.sub_sub]

theorem outers_linked (pos : ℕ) (us : List Unit) : outers (linked pos us) = [] := by
  induction us generalizing pos with
  | nil => rfl
  | cons u us ih => rw [linked, outers_cons, ih]; rfl

theorem widths_linked {us : List Unit} (h : ∀ u ∈ us, u.len ≤ 3) (pos : ℕ) :
    (linked pos us).map pieceWidth = us.map Unit.width := by
  induction us generalizing pos with
  | nil => rfl
  | cons u us ih =>
    rw [linked, List.map_cons, List.map_cons, ih fun u hu => h u (.tail _ hu), pieceWidth,
      u.length_cell (h u List.mem_cons_self)]

theorem total_linked {us : List Unit} (h : ∀ u ∈ us, u.len ≤ 3) (pos : ℕ) :
    total (linked pos us) = (us.map Unit.width).sum := by
  induction us generalizing pos with
  | nil => rfl
  | cons u us ih =>
    rw [linked, total_cons, List.map_cons, List.sum_cons, ih fun u hu => h u (.tail _ hu),
      Piece.words, u.length_cell (h u List.mem_cons_self)]

/-- The words of the fields are the cells of a row without links. -/
theorem fieldWords_linked {us : List Unit} (h : ∀ u ∈ us, u.len ≤ 3) (pos n : ℕ) :
    fieldWords pos us = cells 0 linkWord n (messageRow (linked pos us)) := by
  induction us generalizing pos n with
  | nil => rfl
  | cons u us ih =>
    have ih := ih (fun u hu => h u (.tail _ hu)) (pos - u.width) (n + 0)
    have hcell : cellWords (0 : UInt32) linkWord (u.cell pos).length
        ((u.cell pos).length + width (messageRow (linked (pos - u.width) us)) + n)
          (.inl (u.cell pos)) =
          u.cell pos := by
      rw [cellWords, Nat.sub_self, List.replicate_zero, List.append_nil]
    have hfields : fieldWords pos (u :: us) = u.cell pos ++ fieldWords (pos - u.width) us := by
      rw [fieldWords, Unit.cell, Unit.width]
      split
      · rfl
      · split <;> rfl
    rw [hfields, ih]
    exact congrArg (· ++ _) hcell.symm

/-- `SerializeMessage` writes the message of the fields that are left when the empty ones
    at the end are dropped, with a link for each segment. -/
theorem serializeMessage_linked {us : List Unit} {buf out : Buffer} {last : ℕ} {u : Unit}
    (hl : ∀ x ∈ us, x.len ≤ 3) (h : serializeMessage us buf last = .ok (u, out)) :
    let us' := us.rdropWhile fun x => x.size = 0
    ∃ w, out = w ++ buf ∧ IsMessage (linked ((us'.map Unit.width).sum + buf.length) us') w ∧
      (us'.map Unit.size).sum < 2 ^ 30 := by
  dsimp only
  rw [serializeMessage] at h
  split at h
  · cases h
  · dsimp only at h
    have hl' : ∀ x ∈ us.rdropWhile (fun x => decide (x.size = 0)), x.len ≤ 3 := fun x hx =>
      hl x ((List.rdropWhile_prefix _ _).subset hx)
    generalize us.rdropWhile (fun x => decide (x.size = 0)) = us' at h hl'
    split at h
    · next hnil =>
      subst hnil
      cases h
      refine ⟨[0], rfl,
        ⟨by rw [linked]; rfl, ?_, by simp [sectionCount, linked], ?_, by simp [linked]⟩, by simp⟩
      · exact fun p hp => absurd hp List.not_mem_nil
      · exact fun a ha => absurd ha (by simp [linked, sectionCount])
    · split at h
      · cases h
      · next hsize =>
        split at h
        · cases h
        · next hsec =>
          obtain ⟨blocks, hblocks, h⟩ := Res.bind_eq_ok.1 h
          cases h
          -- The section words hold the counts of the widths, which are the widths of the linked
          -- pieces.
          obtain ⟨rfl, hcounts⟩ := sectionWords_eq hblocks
          set pos := (us'.map Unit.width).sum + buf.length with hpos
          have hwidths := widths_linked hl' pos
          have hlen := length_linked pos us'
          refine ⟨_, ?_, ⟨rfl, ?_, ?_, ?_, ?_⟩, by omega⟩
          · rw [messageWords, hwidths, hlen, outers_linked, ← fieldWords_linked hl', List.map_drop]
            simp [sectionCount]
          · -- A field is a word that leads to it, or at most three words.
            intro p hp
            obtain ⟨i, hi, rfl⟩ := List.getElem_of_mem hp
            have hget := linked_getElem? pos us' i
            rw [List.getElem?_eq_getElem hi, List.getElem?_eq_getElem (hlen ▸ hi),
              Option.map_some] at hget
            have hu := hl' us'[i] (List.getElem_mem (hlen ▸ hi))
            rw [Option.some.inj hget, pieceWidth, Unit.length_cell hu]
            refine ⟨?_, fun h => by cases h⟩
            rw [Unit.width]
            split
            · exact hu
            · split <;> omega
          · rw [hlen, sectionCount]
            omega
          · intro a ha
            rw [hlen, sectionCount] at ha
            have := hcounts a ha
            rwa [List.map_drop, ← List.sum_append, ← List.take_add, ← hwidths] at this
          · rw [total_linked hl']
            have : (us'.map Unit.width).sum ≤ (us'.map Unit.size).sum :=
              List.sum_le_sum fun x _ => x.width_le_size
            omega

/-- Dropping empty units at the end keeps the others where they are. -/
theorem trimmed_getElem? (us : List Unit) (id : ℕ) :
    (us.rdropWhile fun x => x.size = 0)[id]? = us[id]? ∨
      ((us.rdropWhile fun x => x.size = 0)[id]? = none ∧ ∀ x, us[id]? = some x → x.IsNil) := by
  have happ :=
    List.rdropWhile_append_rtakeWhile (p := fun x : Unit => decide (x.size = 0)) (l := us)
  set us' := us.rdropWhile fun x => decide (x.size = 0)
  rcases Nat.lt_or_ge id us'.length with hid | hid
  · left
    conv_rhs => rw [← happ, List.getElem?_append_left hid]
  · refine .inr ⟨List.getElem?_eq_none hid, fun x hx => ?_⟩
    rw [← happ, List.getElem?_append_right hid] at hx
    have := List.mem_rtakeWhile_imp (List.mem_of_getElem? hx)
    exact Unit.size_eq_zero.1 (of_decide_eq_true this)

/-- The distance from the cell of the field `id` to its segment: the cells from there on,
    and what stands before the segment. -/
def linkDistance (us : List Unit) (buf : Buffer) (id : ℕ) (x : Unit) : ℕ :=
  ((us.drop id).map Unit.width).sum + buf.length - x.segPos.toNat

/-- What `Message::GetField` returns for the field `id` that was given as the unit `x`: its
    words, or a cell from which `Field::GetObject` gets to the first word of its segment if
    that is not too far. -/
def Finds (b : Bool) (us : List Unit) (buf : Buffer) (id : ℕ) (x : Unit) (f : Field) : Prop :=
  f.width = x.width ∧ (x.len ≠ 0 → ∃ tail, f.ptr = .at (x.data ++ tail)) ∧
    (x.IsSegment → linkDistance us buf id x < 2 ^ 30 → f.getObject b = .ok (.at (x.view buf)))

/-- The sum of the widths from a field on does not depend on the empty fields at the end. -/
theorem trimmed_widths (us : List Unit) (id : ℕ) :
    (((us.rdropWhile fun x => x.size = 0).drop id).map Unit.width).sum =
      ((us.drop id).map Unit.width).sum := by
  have happ :=
    List.rdropWhile_append_rtakeWhile (p := fun x : Unit => decide (x.size = 0)) (l := us)
  have hnil : ∀ x ∈ us.rtakeWhile fun x => decide (x.size = 0), x.width = 0 := fun x hx =>
    have := List.mem_rtakeWhile_imp hx
    Unit.width_eq_zero.2 (Unit.size_eq_zero.1 (of_decide_eq_true this))
  conv_rhs => rw [← happ, List.drop_append, List.map_append, List.sum_append]
  rw [List.sum_eq_zero (l := List.map _ (List.drop _ (List.rtakeWhile _ _))), Nat.add_zero]
  intro k hk
  obtain ⟨x, hx, rfl⟩ := List.mem_map.1 hk
  exact hnil x (List.mem_of_mem_drop hx)

/-- `Field::GetObject` follows a link. -/
theorem getObject_link {v tail : List UInt32} {d : ℕ} (hv : v = linkWord d :: tail)
    (hd : d < 2 ^ 30) (hne : v.drop d ≠ []) (b : Bool) (w : ℕ) :
    Field.getObject b ⟨.at v, w⟩ = .ok (.at (v.drop d)) := by
  obtain ⟨h3, hd'⟩ := linkWord_mark hd
  subst hv
  have hempty := List.isEmpty_eq_false_iff.2 hne
  simp [Field.getObject, Ptr.reaches, Ptr.load, Ptr.null, h3, hd', Ptr.add, hempty]

/-- What a field has in the buffer: the cell, and how far it is from the end. -/
theorem getField_cell {us : List Unit} {buf out : Buffer} {last : ℕ} {u : Unit}
    (hl : ∀ x ∈ us, x.len ≤ 3) (h : serializeMessage us buf last = .ok (u, out)) (b : Bool)
    (id : ℕ) :
    ((∀ x, us[id]? = some x → x.IsNil) ∧ getField b out id = .ok Field.null) ∨
      ∃ x v front n, us[id]? = some x ∧ ¬x.IsNil ∧ getField b out id = .ok ⟨.at v, x.width⟩ ∧
        (∃ tail, v = x.cell v.length ++ tail) ∧ out = front ++ buf ∧ n ≤ front.length ∧
        v = out.drop n ∧
        v.length = ((us.drop id).map Unit.width).sum + buf.length := by
  obtain ⟨w, rfl, hmsg, -⟩ := serializeMessage_linked hl h
  have htrim := trimmed_getElem? us id
  have hwidths := trimmed_widths us id
  have hl : ∀ x ∈ us.rdropWhile (fun x => decide (x.size = 0)), x.len ≤ 3 := fun x hx =>
    hl x ((List.rdropWhile_prefix _ _).subset hx)
  -- The fields that are dropped at the end are empty, so that the other ones are as before.
  generalize us.rdropWhile (fun x => decide (x.size = 0)) = us' at hmsg htrim hwidths hl
  set pos := (us'.map Unit.width).sum + buf.length with hpos
  have hget := linked_getElem? pos us' id
  cases hx : us'[id]? with
  | none =>
    rw [hx] at hget
    -- Behind the last field that was written, there is nothing.
    refine .inl ⟨fun x hx' => ?_, ?_⟩
    · rcases htrim with h | ⟨-, h⟩
      · rw [← h, hx] at hx'
        cases hx'
      · exact h x hx'
    · rw [getField_at hmsg, fieldPiece, hget]
      rfl
  | some x =>
    obtain ⟨hid, hxid⟩ := List.getElem?_eq_some_iff.1 hx
    have hxus : us[id]? = some x := by
      rcases htrim with h | ⟨h, -⟩
      · rw [← h, hx]
      · rw [h] at hx
        cases hx
    have hxl := hl x (List.mem_of_getElem? hx)
    have hsum : (us'.map Unit.width).sum = ((us'.take id).map Unit.width).sum +
        ((us'.drop id).map Unit.width).sum := by
      rw [← List.sum_append, ← List.map_append, List.take_append_drop]
    set cellPos := pos - ((us'.take id).map Unit.width).sum with hcell
    have hpiece : fieldPiece (linked pos us') id = .inl (x.cell cellPos) := by
      rw [fieldPiece, hget, hx]
      rfl
    have hwidth : pieceWidth (fieldPiece (linked pos us') id) = x.width := by
      rw [hpiece]
      exact x.length_cell hxl _
    by_cases hnil : x.IsNil
    · refine .inl ⟨fun y hy => ?_, ?_⟩
      · rw [hxus] at hy
        exact Option.some.inj hy ▸ hnil
      · rw [getField_at hmsg, hwidth, if_pos (Unit.width_eq_zero.2 hnil)]
    · have hne : pieceWidth (fieldPiece (linked pos us') id) ≠ 0 := by
        rw [hwidth]
        exact fun h0 => hnil (Unit.width_eq_zero.1 h0)
      obtain ⟨hle, hshow⟩ := hmsg.found buf hne
      have hlen := length_messageWords (linked pos us')
      rw [← hmsg.eq, outers_linked, widths_linked hl] at hlen
      -- The cells in front of it are those of the units in front of its own.
      have hbefore : before (linked pos us') id = ((us'.take id).map Unit.width).sum := by
        rw [before, widths_linked hl, List.map_take]
      rw [hpiece] at hshow
      obtain ⟨tail, hv⟩ := hshow
      -- The cell is as far from the end as the cells from it on and the buffer behind them.
      have hvlen : ((w ++ buf).drop (1 + sectionCount (linked pos us').length * 2 +
          before (linked pos us') id)).length = cellPos := by
        rw [List.length_drop, List.length_append, hlen, hbefore, hcell, List.length_nil]
        omega
      refine .inr ⟨x, _, w, _, hxus, hnil, by rw [getField_at hmsg, if_neg hne, hwidth], ?_, rfl,
        ?_, rfl, ?_⟩
      · rw [hvlen]
        exact ⟨_, hv⟩
      · omega
      · rw [hvlen, hcell, hpos, ← hwidths]
        omega

/-- The cell of a segment has the distance to it, and the segment is there. -/
theorem link_cell {buf out front : Buffer} {x : Unit} {v tail : List UInt32} {n : ℕ}
    (hs : x.IsSegment) (hv : v = x.cell v.length ++ tail) (hout : out = front ++ buf)
    (hn : n ≤ front.length) (hview : v = out.drop n) (hpos : x.segPos.toNat ≤ buf.length) :
    v = linkWord (v.length - x.segPos.toNat) :: tail ∧ v.drop (v.length - x.segPos.toNat) =
      x.view buf := by
  rw [Unit.cell, if_neg (not_not.2 hs.1), if_pos hs.2] at hv
  have hlen : v.length = front.length - n + buf.length := by
    rw [hview, hout, List.length_drop, List.length_append]
    omega
  have hd : UInt32.ofNat v.length - x.segPos = UInt32.ofNat (v.length - x.segPos.toNat) := by
    conv_lhs => rw [show v.length = (v.length - x.segPos.toNat) + x.segPos.toNat by omega,
      UInt32.ofNat_add, UInt32.ofNat_toNat, UInt32.add_sub_cancel]
  rw [hd] at hv
  refine ⟨hv, ?_⟩
  conv_lhs => rw [hview, List.drop_drop, ← hview, hout]
  rw [show n + (v.length - x.segPos.toNat) = front.length + (buf.length - x.segPos.toNat) by omega,
    Unit.view, List.drop_append]
  simp

/-- A segment is behind its cell. -/
theorem Unit.InBuffer.segment {us : List Unit} {buf : Buffer} {last id : ℕ} {x : Unit}
    (hin : ∀ x ∈ us, x.InBuffer last buf) (hx : us[id]? = some x) (hs : x.IsSegment) :
    0 < x.segPos.toNat ∧ x.segPos.toNat ≤ buf.length ∧
      x.segPos.toNat < ((us.drop id).map Unit.width).sum + buf.length := by
  obtain ⟨hlast, hend⟩ := (hin x (List.mem_of_getElem? hx)).2 hs
  have hlen0 : x.segLen.toNat ≠ 0 := fun h0 => hs.2 (UInt32.toNat_inj.1 h0)
  have hmem : x ∈ us.drop id :=
    List.mem_of_getElem? (i := 0) (by rw [List.getElem?_drop, Nat.add_zero, hx])
  have hle :=
    List.single_le_sum (fun _ _ => Nat.zero_le _) _ (List.mem_map_of_mem (f := Unit.width) hmem)
  have hwidth : x.width ≠ 0 := fun h0 => hs.2 (Unit.width_eq_zero.1 h0).2
  omega

/-- What is found for the fields that `SerializeMessage` was given. -/
theorem getField_finds {us : List Unit} {buf out : Buffer} {last : ℕ} {u : Unit}
    (hin : ∀ x ∈ us, x.InBuffer last buf) (h : serializeMessage us buf last = .ok (u, out))
    (b : Bool) (id : ℕ) :
    ((∀ x, us[id]? = some x → x.IsNil) ∧ getField b out id = .ok Field.null) ∨
      ∃ x f, us[id]? = some x ∧ ¬x.IsNil ∧ getField b out id = .ok f ∧ Finds b us buf id x f := by
  rcases getField_cell (fun x hx => (hin x hx).1) h b id with hnil |
    ⟨x, v, front, n, hx, hnil, hf, ⟨tail, hv⟩, hout, hn, hview, hlen⟩
  · exact .inl hnil
  · refine .inr ⟨x, _, hx, hnil, hf, rfl, fun h0 => ?_, fun hs hdist => ?_⟩
    · rw [Unit.cell, if_pos h0] at hv
      exact ⟨tail, congrArg Ptr.at hv⟩
    · obtain ⟨hpos0, hpos, hlt⟩ := Unit.InBuffer.segment hin hx hs
      rw [linkDistance, ← hlen] at hdist
      obtain ⟨hlink, hdrop⟩ := link_cell hs hv hout hn hview hpos
      have hne : x.view buf ≠ [] := by
        rw [← List.length_pos_iff, Unit.view, List.length_drop]
        omega
      rw [getObject_link hlink hdist (by rwa [hdrop]), hdrop]

/-! ## What is not written -/

theorem sectionWords_error {k cnt : ℕ} {us : List Unit} {e : Stop}
    (h : sectionWords k cnt us = .error e) :
    e = .reject ∧ ∃ a < k, 2 ^ 14 ≤ cnt + ((us.map Unit.width).take (25 * a)).sum := by
  induction k generalizing cnt us with
  | zero => cases h
  | succ k ih =>
    rw [sectionWords] at h
    split at h
    · next hcnt =>
      cases h
      exact ⟨rfl, 0, Nat.zero_lt_succ k, by simpa using hcnt⟩
    · dsimp only at h
      cases hrest : sectionWords k (cnt + ((us.take 25).map Unit.width).sum) (us.drop 25) with
      | error e' =>
        rw [hrest] at h
        cases h
        obtain ⟨he, a, ha, hcnt⟩ := ih hrest
        refine ⟨he, a + 1, Nat.succ_lt_succ ha, ?_⟩
        rwa [Nat.mul_succ, Nat.add_comm (25 * a), List.take_add, List.sum_append, ← Nat.add_assoc,
          ← List.map_take, ← List.map_drop]
      | ok rest =>
        rw [hrest] at h
        cases h

/-- `SerializeMessage` fails without fields, for too many of them, for too many words, or
    for a section that starts too far behind. -/
theorem serializeMessage_error {us : List Unit} {buf : Buffer} {last : ℕ} {e : Stop}
    (h : serializeMessage us buf last = .error e) :
    let us' := us.rdropWhile fun x => x.size = 0
    e = .reject ∧ (us = [] ∨ 6387 < us'.length ∨ 2 ^ 30 ≤ (us'.map Unit.size).sum ∨
      ∃ a < sectionCount us'.length, 2 ^ 14 ≤ ((us'.map Unit.width).take (12 + 25 * a)).sum) := by
  dsimp only
  rw [serializeMessage] at h
  split at h
  · next hnil => cases h; exact ⟨rfl, .inl hnil⟩
  · dsimp only at h
    generalize us.rdropWhile (fun x => decide (x.size = 0)) = us' at h
    split at h
    · cases h
    · split at h
      · next hsize => cases h; exact ⟨rfl, .inr (.inr (.inl hsize))⟩
      · split at h
        · next hsec => cases h; exact ⟨rfl, .inr (.inl (by omega))⟩
        · cases hb : sectionWords ((us'.length + 12) / 25) ((us'.map Unit.width).take 12).sum
            (us'.drop 12) with
          | error e' =>
            rw [hb] at h
            cases h
            obtain ⟨he, a, ha, hcnt⟩ := sectionWords_error hb
            refine ⟨he, .inr (.inr (.inr ⟨a, ha, ?_⟩))⟩
            rwa [List.take_add, List.sum_append, ← List.map_drop]
          | ok blocks =>
            rw [hb] at h
            cases h

/-! ## Units that were written -/

/-- A buffer to which words were written for units, the last unit first; with gaps, of
    words that no unit stands for, or without. -/
inductive Stored (gaps : Bool) (base : Buffer) : List Unit → Buffer → Prop
  | nil : Stored gaps base [] base
  | gap {us : List Unit} {buf : Buffer} (w : UInt32) :
    gaps = true → Stored gaps base us buf → Stored gaps base us (w :: buf)
  | kept {us : List Unit} {buf : Buffer} {u : Unit} :
    ¬u.IsSegment → u.len ≤ 3 → Stored gaps base us buf → Stored gaps base (u :: us) buf
  | segment {us : List Unit} {buf : Buffer} {u : Unit} (ws : List UInt32) :
    u.len = 0 → ws ≠ [] → u.segLen.toNat = ws.length → u.segPos.toNat = (ws ++ buf).length →
    Stored gaps base us buf → Stored gaps base (u :: us) (ws ++ buf)

theorem Stored.length_le {gaps : Bool} {base buf : Buffer} {us : List Unit}
    (h : Stored gaps base us buf) :
    base.length ≤ buf.length := by
  induction h with
  | nil => exact le_rfl
  | gap w _ _ ih => exact ih.trans (Nat.le_succ _)
  | kept _ _ _ ih => exact ih
  | segment ws _ _ _ _ _ ih => rw [List.length_append]; omega

/-- What was in the buffer stays behind what is written. -/
theorem Stored.front {gaps : Bool} {base buf : Buffer} {us : List Unit}
    (h : Stored gaps base us buf) :
    ∃ front, buf = front ++ base := by
  induction h with
  | nil => exact ⟨[], rfl⟩
  | gap w _ _ ih =>
    obtain ⟨front, rfl⟩ := ih
    exact ⟨w :: front, rfl⟩
  | kept _ _ _ ih => exact ih
  | segment ws _ _ _ _ _ ih =>
    obtain ⟨front, rfl⟩ := ih
    exact ⟨ws ++ front, (List.append_assoc ..).symm⟩

/-- Units that were written stand for words since `base`. -/
theorem Stored.inBuffer {gaps : Bool} {base buf : Buffer} {us : List Unit}
    (h : Stored gaps base us buf) :
    ∀ x ∈ us, x.InBuffer base.length buf := by
  induction h with
  | nil => exact fun x hx => absurd hx List.not_mem_nil
  | gap w _ _ ih =>
    refine fun x hx => ⟨(ih x hx).1, fun hs => ⟨((ih x hx).2 hs).1, ?_⟩⟩
    exact ((ih x hx).2 hs).2.trans (Nat.le_succ _)
  | kept hn h3 _ ih => exact List.forall_mem_cons.2 ⟨⟨h3, fun hs => absurd hs hn⟩, ih⟩
  | segment ws h0 _ hlen hpos hst ih =>
    have hle := hst.length_le
    rw [List.length_append] at hpos
    refine List.forall_mem_cons.2
      ⟨⟨by omega, fun _ => ⟨by omega, by rw [List.length_append]; omega⟩⟩,
      fun x hx => ⟨(ih x hx).1, fun hs => ⟨((ih x hx).2 hs).1, ?_⟩⟩⟩
    rw [List.length_append]
    exact ((ih x hx).2 hs).2.trans (Nat.le_add_left _ _)

/-- Without gaps, a link leads over no more words than all the fields have: the cells
    behind it are no wider than their fields, and the other words are those of the fields
    before it. -/
theorem Stored.linkDistance_le {base buf : Buffer} {us : List Unit} (h : Stored false base us buf)
    {id : ℕ} {x : Unit} (hx : us[id]? = some x) (hs : x.IsSegment) :
    linkDistance us buf id x ≤ (us.map Unit.size).sum := by
  induction h generalizing id with
  | nil => cases hx
  | gap w hg _ ih => cases hg
  | @kept us buf u hn _ _ ih =>
    cases id with
    | zero =>
      cases hx
      exact absurd hs hn
    | succ id =>
      have := ih hx
      rw [linkDistance] at this ⊢
      rw [List.drop_succ_cons, List.map_cons, List.sum_cons]
      omega
  | @segment us buf u ws h0 _ hlen hpos hst ih =>
    have hsize : u.size = ws.length := by rw [Unit.size, if_pos h0, hlen]
    cases id with
    | zero =>
      cases hx
      rw [linkDistance, hpos, List.drop_zero, Nat.add_sub_cancel]
      exact List.sum_le_sum fun x _ => x.width_le_size
    | succ id =>
      have hle := ((hst.inBuffer x (List.mem_of_getElem? hx)).2 hs).2
      have := ih hx
      rw [linkDistance] at this ⊢
      rw [List.drop_succ_cons, List.map_cons, List.sum_cons, List.length_append, hsize]
      omega

/-- All fields of a message that is written have less than `2 ^ 30` words. -/
theorem serializeMessage_size {us : List Unit} {buf out : Buffer} {last : ℕ} {u : Unit}
    (hl : ∀ x ∈ us, x.len ≤ 3) (h : serializeMessage us buf last = .ok (u, out)) :
    (us.map Unit.size).sum < 2 ^ 30 := by
  obtain ⟨-, -, -, hsize⟩ := serializeMessage_linked hl h
  have happ :=
    List.rdropWhile_append_rtakeWhile (p := fun x : Unit => decide (x.size = 0)) (l := us)
  rw [← happ, List.map_append, List.sum_append,
    List.sum_eq_zero (l := List.map _ (List.rtakeWhile _ _)), Nat.add_zero]
  · exact hsize
  · intro k hk
    obtain ⟨x, hx, rfl⟩ := List.mem_map.1 hk
    have := List.mem_rtakeWhile_imp hx
    exact of_decide_eq_true this

/-- What `SerializeMessage` writes for fields whose words are anywhere in the buffer: for
    every number, `Message::GetField` finds nothing if the field is empty or not there, and
    otherwise the words of the field or a link that leads to them, if they are less than
    `2 ^ 30` words away; which they are where the fields were written without gaps. And
    when it writes nothing. -/
theorem serializeMessage_fields (us : List Unit) (buf : Buffer) (last : ℕ)
    (hin : ∀ x ∈ us, x.InBuffer last buf) :
    (∀ u out, serializeMessage us buf last = .ok (u, out) → ∀ b id,
      ((∀ x, us[id]? = some x → x.IsNil) ∧ getField b out id = .ok Field.null) ∨
        ∃ x f, us[id]? = some x ∧ ¬x.IsNil ∧ getField b out id = .ok f ∧ Finds b us buf id x f) ∧
    (∀ u out, serializeMessage us buf last = .ok (u, out) → ∀ base, Stored false base us buf →
      ∀ id x, us[id]? = some x → x.IsSegment → linkDistance us buf id x < 2 ^ 30) ∧
    ∀ e, serializeMessage us buf last = .error e →
      let us' := us.rdropWhile fun x => x.size = 0
      e = .reject ∧ (us = [] ∨ 6387 < us'.length ∨ 2 ^ 30 ≤ (us'.map Unit.size).sum ∨
        ∃ a < sectionCount us'.length, 2 ^ 14 ≤ ((us'.map Unit.width).take (12 + 25 * a)).sum) :=
  ⟨fun _ _ h b id => getField_finds hin h b id, fun _ _ h _ hst _ _ hx hs =>
    (hst.linkDistance_le hx hs).trans_lt (serializeMessage_size (fun x hx => (hin x hx).1) h),
    fun _ h => serializeMessage_error h⟩

/-- An empty field, one of a word and one of four words: the last one is found. -/
theorem serializeMessage_fields_three :
    ((∀ x, [{}, { len := 1, d₀ := 5 }, ({ d₀ := 4, d₁ := 4 } : Unit)][2]? = some x → x.IsNil) ∧
        getField true [0x1400, 5, 7, 9, 8, 7, 6] 2 = .ok Field.null) ∨
      ∃ x f, [{}, { len := 1, d₀ := 5 }, ({ d₀ := 4, d₁ := 4 } : Unit)][2]? = some x ∧ ¬x.IsNil ∧
        getField true [0x1400, 5, 7, 9, 8, 7, 6] 2 = .ok f ∧
        Finds true [{}, { len := 1, d₀ := 5 }, { d₀ := 4, d₁ := 4 }] [9, 8, 7, 6] 2 x f :=
  (serializeMessage_fields [{}, { len := 1, d₀ := 5 }, { d₀ := 4, d₁ := 4 }] [9, 8, 7, 6] 0
    (by decide)).1
    { d₀ := 7, d₁ := 7 } _ (by decide +kernel) true 2

/-- The message of one field whose word is the last one of the buffer. -/
theorem serializeMessage_last (buf : Buffer) :
    serializeMessage [{ d₀ := 1, d₁ := 1 }] buf 0 =
      .ok (segment 0 (buf.length + 2),
        0x100 :: offset (UInt32.ofNat (1 + buf.length) - 1) :: buf) := by
  rw [serializeMessage, if_neg (List.cons_ne_nil _ _)]
  have htrim : [({ d₀ := 1, d₁ := 1 } : Unit)].rdropWhile (fun x => decide (x.size = 0)) =
      [{ d₀ := 1, d₁ := 1 }] := by decide
  dsimp only
  rw [htrim, if_neg (List.cons_ne_nil _ _)]
  have h : ([({ d₀ := 1, d₁ := 1 } : Unit)].map Unit.width).sum = 1 := by decide
  rw [h]
  rfl

/-- The link `7` leads one word on. -/
theorem getObject_seven (buf : Buffer) (hbuf : buf ≠ []) (f : Field)
    (hf : getField true (0x100 :: 7 :: buf) 0 = .ok f) : f.getObject true = .ok (.at buf) := by
  obtain ⟨w, buf, rfl⟩ := List.exists_cons_of_ne_nil hbuf
  have hfield : getField true (0x100 :: 7 :: w :: buf) 0 = .ok ⟨.at (7 :: w :: buf), 1⟩ := by
    have hin : (Ptr.at (0x100 :: 7 :: w :: buf)).exceeds true (1 + 0 * 2 + 0 + 1) = false := by
      rw [Ptr.exceeds, Bool.true_and]
      exact decide_eq_false (by simp only [List.length_cons]; omega)
    rw [getField, List.head?_cons, access_some, Res.ok_bind]
    change (if (Ptr.at (0x100 :: 7 :: w :: buf)).exceeds true (1 + 0 * 2 + 0 + 1) = true then
      (Except.ok Field.null : Res Field) else .ok ⟨.at (7 :: w :: buf), 1⟩) = _
    rw [hin, if_neg Bool.false_ne_true]
  rw [hfield] at hf
  cases hf
  rfl

/-- A field of one word that is `2 ^ 30` words away: the high bits of the distance are lost,
    and the link leads to another word. -/
theorem serializeMessage_far : ∃ u out,
    serializeMessage [{ d₀ := 1, d₁ := 1 }] (List.replicate (2 ^ 30) 0 ++ [7]) 0 = .ok (u, out) ∧
      (∀ x ∈ [({ d₀ := 1, d₁ := 1 } : Unit)], x.InBuffer 0 (List.replicate (2 ^ 30) 0 ++ [7])) ∧
      ∀ f, getField true out 0 = .ok f → f.getObject true ≠
        .ok (.at (Unit.view { d₀ := 1, d₁ := 1 } (List.replicate (2 ^ 30) 0 ++ [7]))) := by
  have hlen : (List.replicate (2 ^ 30) (0 : UInt32) ++ [7]).length = 2 ^ 30 + 1 := by
    rw [List.length_append, List.length_replicate, List.length_singleton]
  generalize List.replicate (2 ^ 30) (0 : UInt32) ++ [7] = buf at hlen
  refine ⟨_, _, serializeMessage_last buf, fun x hx => ?_, fun f hf => ?_⟩
  · rw [List.mem_singleton.1 hx]
    refine ⟨by decide, fun _ => ⟨by decide, ?_⟩⟩
    rw [hlen]
    exact Nat.succ_le_succ (Nat.zero_le _)
  · have hword : offset (UInt32.ofNat (1 + buf.length) - 1) = 7 := by rw [hlen]; decide
    have hne : buf ≠ [] := fun h0 => by rw [h0] at hlen; cases hlen
    rw [hword] at hf
    rw [getObject_seven buf hne f hf]
    intro h
    have hview := congrArg List.length (Ptr.at.inj (Except.ok.inj h))
    rw [Unit.view, List.length_drop, hlen] at hview
    change 2 ^ 30 + 1 = 2 ^ 30 + 1 - (2 ^ 30 + 1 - 1) at hview
    omega

end ProtoCache

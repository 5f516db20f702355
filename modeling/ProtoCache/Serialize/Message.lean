import Mathlib.Algebra.Order.BigOperators.Group.List
import ProtoCache.Serialize.Array

/-!
# Writing messages

* `serializeMessage_spec`: what is written is the message of the fields
  (`messageWords`), without the empty ones at the end, on top of what was in the
  buffer.
-/

namespace ProtoCache

open Row

/-- The width of the cell of a field. -/
def pieceWidth : Piece UInt32 → ℕ
  | .inl ws => ws.length
  | .out _ => 1

/-- The cells of a message, each in its own width. -/
def messageRow (ps : List (Piece UInt32)) : List (ℕ × Piece UInt32) :=
  ps.map fun p => (pieceWidth p, p)

/-- The number of the sections of a message of `n` fields. -/
def sectionCount (n : ℕ) : ℕ := (n + 12) / 25

/-- The sections of a message, for the widths of its fields behind the first twelve. -/
def sectionMarks : ℕ → ℕ → List ℕ → List UInt32
  | 0, _, _ => []
  | k + 1, cnt, ws =>
    let mark := UInt64.ofNat (cnt <<< 50 ||| packWidths 0 (ws.take 25))
    mark.toUInt32 :: (mark >>> 32).toUInt32 :: sectionMarks k (cnt + (ws.take 25).sum) (ws.drop 25)

/-- The words of a message: the head, the sections, the cells of the fields, and what is
    out of line. -/
def messageWords (ps : List (Piece UInt32)) : List UInt32 :=
  let widths := ps.map pieceWidth
  UInt32.ofNat (sectionCount ps.length ||| packWidths 8 (widths.take 12)) ::
    (sectionMarks (sectionCount ps.length) (widths.take 12).sum (widths.drop 12) ++
      (cells 0 linkWord 0 (messageRow ps) ++ outers ps))

/-- A message. -/
structure IsMessage (ps : List (Piece UInt32)) (w : List UInt32) : Prop where
  eq : w = messageWords ps
  widths : ∀ p ∈ ps, pieceWidth p ≤ 3 ∧ p ≠ .out []
  sections : sectionCount ps.length ≤ 255
  counts : ∀ a < sectionCount ps.length, ((ps.map pieceWidth).take (12 + 25 * a)).sum < 2 ^ 14
  size : total ps < 2 ^ 30

/-- What a message has for a field; nothing if it has no cell for it. -/
def fieldPiece (ps : List (Piece UInt32)) (id : ℕ) : Piece UInt32 := (ps[id]?).getD (.inl [])

@[simp] theorem outs_messageRow (ps : List (Piece UInt32)) : outs (messageRow ps) = outers ps := by
  rw [← outers_map_snd, messageRow, List.map_map]
  exact congrArg outers (List.map_id ps)

@[simp] theorem width_messageRow (ps : List (Piece UInt32)) :
    width (messageRow ps) = (ps.map pieceWidth).sum := by
  rw [width, messageRow, List.map_map]
  rfl

theorem fit_messageRow (ps : List (Piece UInt32)) : Fit (messageRow ps) := by
  intro c hc
  obtain ⟨p, -, rfl⟩ := List.mem_map.1 hc
  cases p with
  | inl ws => exact le_refl _
  | out ws => exact le_refl _

theorem Unit.Sized.width_eq {u : Unit} {p : Piece UInt32} (h : u.Sized p) :
    u.width = pieceWidth p := by
  cases p with
  | inl ws =>
    obtain ⟨hlen, -, h0⟩ := h
    rw [Unit.width, pieceWidth, hlen]
    split
    · rfl
    · next hws =>
      have hws := List.length_eq_zero_iff.1 (not_not.1 hws)
      rw [h0 hws, hws]
      rfl
  | out ws =>
    obtain ⟨hlen, hseg, hws⟩ := h
    rw [Unit.width, if_neg (not_not.2 hlen), if_pos, pieceWidth]
    intro h0
    rw [h0] at hseg
    exact hws (List.length_eq_zero_iff.1 hseg.symm)

theorem sectionWords_eq {k cnt : ℕ} {us : List Unit} {blocks : List UInt32}
    (h : sectionWords k cnt us = .ok blocks) :
    blocks = sectionMarks k cnt (us.map Unit.width) ∧
      ∀ a < k, cnt + ((us.map Unit.width).take (25 * a)).sum < 2 ^ 14 := by
  induction k generalizing cnt us blocks with
  | zero =>
    cases h
    exact ⟨rfl, fun a ha => absurd ha (Nat.not_lt_zero a)⟩
  | succ k ih =>
    rw [sectionWords] at h
    split at h
    · cases h
    · next hcnt =>
      obtain ⟨rest, hrest, h⟩ := Res.bind_eq_ok.1 h
      cases h
      obtain ⟨rfl, hcounts⟩ := ih hrest
      refine ⟨?_, fun a ha => ?_⟩
      · rw [sectionMarks, List.map_take, List.map_drop]
      · rcases a with _ | a
        · simpa using hcnt
        · have := hcounts a (by omega)
          rw [List.map_drop, List.map_take] at this
          rw [Nat.mul_succ, Nat.add_comm (25 * a), List.take_add, List.sum_append]
          omega

theorem fieldWords_eq {us : List Unit} {ps : List (Piece UInt32)} {n k : ℕ}
    (h : List.Forall₂ Unit.Sized us ps) (hp : Placed n us ps) :
    fieldWords ((ps.map pieceWidth).sum + k + ((outers ps).length + n)) us =
      cells 0 linkWord k (messageRow ps) := by
  induction h generalizing k with
  | nil => rfl
  | @cons u p us ps hu h ih =>
    obtain ⟨hpos, hp⟩ := hp
    rw [List.map_cons, List.sum_cons, outers_cons, List.length_append, messageRow, List.map_cons,
      cells, ← messageRow, width_messageRow]
    have ih := ih (k := k + p.outer.length) hp
    cases p with
    | inl ws =>
      obtain ⟨hlen, hdata, h0⟩ := hu
      rw [pieceWidth, cellWords, Nat.sub_self, List.replicate_zero, List.append_nil]
      by_cases hws : ws = []
      · subst hws
        rw [fieldWords, if_neg (by simp [hlen]), if_neg (by simp [h0])]
        simpa [Piece.outer] using ih
      · have hu0 : u.len ≠ 0 := by rw [hlen]; exact fun h => hws (List.length_eq_zero_iff.1 h)
        rw [fieldWords, if_pos hu0, hdata, hlen]
        convert congrArg (ws ++ ·) ih using 3
        simp only [Piece.outer, List.length_nil]
        omega
    | out ws =>
      obtain ⟨hlen, hseg, hws⟩ := hu
      have hseg0 : u.segLen ≠ 0 := fun h => hws (by simpa [h] using hseg.symm)
      rw [fieldWords, if_neg (not_not.2 hlen), if_pos hseg0, hpos hws, pieceWidth, cellWords]
      have hd : 1 + (ps.map pieceWidth).sum + k + (ws.length + (outers ps).length + n) =
          1 + (ps.map pieceWidth).sum + k + (n + (outers (.out ws :: ps)).length) := by
        rw [outers_cons, List.length_append, Piece.outer]
        omega
      rw [Piece.outer, hd, UInt32.ofNat_add, UInt32.add_sub_cancel, List.replicate_zero]
      refine congrArg (linkWord (1 + (ps.map pieceWidth).sum + k) :: ·) (Eq.trans ?_ ih)
      congr 1
      rw [outers_cons, List.length_append, Piece.outer]
      omega

/-- The fields of a message without the empty ones at its end. -/
def trim (ps : List (Piece UInt32)) : List (Piece UInt32) :=
  ps.rdropWhile fun p => p.words.length = 0

theorem rdropWhile_forall₂ {α β : Type*} {R : α → β → Prop} {p : α → Bool} {q : β → Bool}
    (hpq : ∀ a b, R a b → p a = q b) {l : List α} {l' : List β} (h : List.Forall₂ R l l') :
    List.Forall₂ R (l.rdropWhile p) (l'.rdropWhile q) := by
  suffices ∀ {l : List α} {l' : List β}, List.Forall₂ R l l' →
      List.Forall₂ R (l.dropWhile p) (l'.dropWhile q) by
    rw [List.rdropWhile, List.rdropWhile]
    exact List.rel_reverse (this (List.rel_reverse h))
  intro l l' h
  induction h with
  | nil => exact .nil
  | @cons a b l l' hab h ih =>
    rw [List.dropWhile_cons, List.dropWhile_cons, hpq a b hab]
    split
    · exact ih
    · exact .cons hab h

/-- A field that was dropped is empty. -/
theorem trim_append (ps : List (Piece UInt32)) :
    ∃ es, ps = trim ps ++ es ∧ ∀ p ∈ es, p.words = [] := by
  refine ⟨ps.rtakeWhile fun p => p.words.length = 0,
    (List.rdropWhile_append_rtakeWhile ..).symm, ?_⟩
  intro p hp
  simpa using List.mem_rtakeWhile_imp hp

theorem outers_append (ps ps' : List (Piece UInt32)) :
    outers (ps ++ ps') = outers ps ++ outers ps' :=
  List.flatMap_append

theorem Placed.left {n : ℕ} {us : List Unit} (ue : List Unit) {ps pe : List (Piece UInt32)}
    (hl : us.length = ps.length) (he : outers pe = []) (h : Placed n (us ++ ue) (ps ++ pe)) :
    Placed n us ps := by
  induction us generalizing ps with
  | nil => exact trivial
  | cons u us ih =>
    cases ps with
    | nil => cases hl
    | cons p ps =>
      obtain ⟨hpos, h⟩ := h
      refine ⟨fun hp => ?_, ih (Nat.succ.inj hl) h⟩
      have houters : outers (p :: (ps ++ pe)) = outers (p :: ps) := by
        rw [outers_cons, outers_append, he, List.append_nil, outers_cons]
      rw [← houters]
      exact hpos hp

theorem fieldPiece_trim (ps : List (Piece UInt32)) (h : ∀ p ∈ ps, p ≠ .out []) (id : ℕ) :
    fieldPiece (trim ps) id = fieldPiece ps id := by
  obtain ⟨es, hps, hes⟩ := trim_append ps
  have h0 : ∀ p ∈ es, p = .inl [] := by
    intro p hp
    have hw := hes p hp
    have hne := h p (by rw [hps]; exact List.mem_append_right _ hp)
    cases p with
    | inl ws => rw [show ws = [] from hw]
    | out ws => rw [show ws = [] from hw] at hne; exact absurd rfl hne
  rw [fieldPiece, fieldPiece]
  conv_rhs => rw [hps]
  rcases Nat.lt_or_ge id (trim ps).length with hlt | hge
  · rw [List.getElem?_append_left hlt]
  · rw [List.getElem?_append_right hge, List.getElem?_eq_none hge]
    cases he : es[id - (trim ps).length]? with
    | none => rfl
    | some p => exact (h0 p (List.mem_of_getElem? he)).symm

theorem pieceWidth_le {ps : List (Piece UInt32)} (h : ∀ p ∈ ps, pieceWidth p ≤ 3) :
    (ps.map pieceWidth).sum ≤ 3 * ps.length := by
  rw [← List.length_map pieceWidth, Nat.mul_comm]
  refine List.sum_le_card_nsmul _ _ ?_
  intro k hk
  obtain ⟨p, hp, rfl⟩ := List.mem_map.1 hk
  exact h p hp

theorem length_sectionMarks (k cnt : ℕ) (ws : List ℕ) : (sectionMarks k cnt ws).length = 2 * k := by
  induction k generalizing cnt ws with
  | zero => rfl
  | succ k ih => rw [sectionMarks, List.length_cons, List.length_cons, ih]; ring

theorem length_messageWords (ps : List (Piece UInt32)) : (messageWords ps).length =
    1 + (2 * sectionCount ps.length + ((ps.map pieceWidth).sum + (outers ps).length)) := by
  rw [messageWords, List.length_cons, List.length_append, List.length_append, length_sectionMarks,
    length_cells (fit_messageRow ps), width_messageRow, Nat.add_comm]

theorem total_le_widths (ps : List (Piece UInt32)) :
    total ps ≤ (ps.map pieceWidth).sum + (outers ps).length := by
  induction ps with
  | nil => exact Nat.zero_le _
  | cons p ps ih =>
    rw [total_cons, List.map_cons, List.sum_cons, outers_cons, List.length_append]
    cases p <;> simp only [Piece.words, Piece.outer, pieceWidth, List.length_nil] <;> omega

/-- `SerializeMessage` of fields that stand in front of `B` writes their message. -/
theorem serializeMessage_spec {us : List Unit} {ps : List (Piece UInt32)} {B buf : Buffer}
    {u : Unit} (h : List.Forall₂ Unit.Sized us ps) (hp : Placed B.length us ps)
    (hok : serializeMessage us (outers ps ++ B) B.length = .ok (u, buf)) :
    Wrote none B (u, buf) fun p => total ps ≤ p.words.length ∧ IsMessage (trim ps) p.words := by
  -- A piece is as wide as its unit; a unit out of line is not empty.
  have hsized : ∀ p ∈ ps, pieceWidth p ≤ 3 ∧ p ≠ .out [] := by
    intro p hp
    obtain ⟨u, -, hu⟩ := Pointwise.exists_left h hp
    cases p with
    | inl ws => exact ⟨hu.length_le, fun h => by cases h⟩
    | out ws => exact ⟨by simp [pieceWidth], fun h => hu.2.2 (Piece.out.inj h)⟩
  -- The units that are dropped at the end are those of the pieces that are dropped.
  have htrim : List.Forall₂ Unit.Sized (us.rdropWhile fun u => decide (u.size = 0)) (trim ps) :=
    rdropWhile_forall₂ (p := fun u => decide (u.size = 0))
    (q := fun p => decide (p.words.length = 0)) (fun u p hu => by rw [hu.size_eq]) h
  obtain ⟨es, hps, hes⟩ := trim_append ps
  -- They left no words in the buffer.
  have hes0 : outers es = [] ∧ total es = 0 := by
    clear hps
    induction es with
    | nil => exact ⟨rfl, rfl⟩
    | cons p es ih =>
      have hp := hes p List.mem_cons_self
      obtain ⟨h₁, h₂⟩ := ih fun p hp => hes p (.tail _ hp)
      rw [outers_cons, h₁, total_cons, h₂, hp]
      cases p <;> simp_all [Piece.outer, Piece.words]
  have houters : outers ps = outers (trim ps) := by
    rw [hps, outers_append, hes0.1, List.append_nil, ← hps]
  have htotal : total ps = total (trim ps) := by
    conv_lhs => rw [hps, total, List.map_append, List.sum_append]
    exact (congrArg (total (trim ps) + ·) hes0.2).trans (Nat.add_zero _)
  rw [serializeMessage] at hok
  split at hok
  · cases hok
  · dsimp only at hok
    generalize hus : us.rdropWhile (fun u => decide (u.size = 0)) = us' at hok htrim
    split at hok
    · next hnil =>
      -- No field has words: the message is the word 0.
      subst hnil
      have hnil : trim ps = [] := List.forall₂_nil_left_iff.1 htrim
      rw [houters, hnil] at hok
      rw [htotal, hnil]
      cases hok
      refine wrote_out [0] (List.cons_ne_nil _ _) (by simp)
        fun _ => ⟨Nat.zero_le _, rfl, ?_, by simp [sectionCount], ?_, by simp⟩
      · exact fun p hp => absurd hp List.not_mem_nil
      · exact fun a ha => absurd ha (Nat.not_lt_zero a)
    · -- What the code computes of the units, their number, widths and sizes, is that of the
      -- pieces.
      have hlen : us'.length = (trim ps).length := htrim.length_eq
      have hwidths : us'.map Unit.width = (trim ps).map pieceWidth := by
        rw [← List.forall₂_eq_eq_eq, List.forall₂_map_left_iff, List.forall₂_map_right_iff]
        exact htrim.imp fun _ _ hu => hu.width_eq
      have hsizes : (us'.map Unit.size).sum = total (trim ps) := by
        rw [total]
        refine congrArg List.sum ?_
        rw [← List.forall₂_eq_eq_eq, List.forall₂_map_left_iff, List.forall₂_map_right_iff]
        exact htrim.imp fun _ _ hu => hu.size_eq
      rw [hsizes, hwidths, hlen] at hok
      split at hok
      · cases hok
      · next hsize =>
        split at hok
        · cases hok
        · next hsec =>
          -- The marks of the sections are those of the widths, and no count of words in front of
          -- a section is cut.
          obtain ⟨blocks, hblocks, hok⟩ := Res.bind_eq_ok.1 hok
          obtain ⟨hmarks, hcounts⟩ := sectionWords_eq hblocks
          -- The fields that stay are where their units say, so that the links to them are the
          -- right ones.
          have hplaced : Placed B.length us' (trim ps) := by
            refine Placed.left (us.rtakeWhile fun u => decide (u.size = 0)) hlen hes0.1 ?_
            rwa [← hus, List.rdropWhile_append_rtakeWhile, ← hps]
          have hfields := fieldWords_eq (k := 0) htrim hplaced
          rw [Nat.add_zero, ← List.length_append] at hfields
          rw [houters, hfields] at hok
          have hbuf : buf = messageWords (trim ps) ++ B := by
            cases hok
            rw [hmarks, List.map_drop, hwidths, messageWords, sectionCount]
            simp
          have hu : u = segment B.length buf.length := by cases hok; rfl
          have hwl := length_messageWords (trim ps)
          -- There are at most three words in a cell, so that the length of the message does not
          -- wrap around.
          have hcard :=
            pieceWidth_le fun p hp => (hsized p (by rw [hps]; exact List.mem_append_left _ hp)).1
          have hle := outers_le_total (trim ps)
          rw [sectionCount] at hwl
          have hne : messageWords (trim ps) ≠ [] := List.cons_ne_nil _ _
          rw [hu, hbuf, List.length_append]
          refine wrote_out _ hne (by omega) fun _ => ⟨?_, rfl, ?_, ?_, ?_, ?_⟩
          · rw [htotal]
            change total (trim ps) ≤ (messageWords (trim ps)).length
            have := total_le_widths (trim ps)
            omega
          · exact fun p hp => hsized p (by rw [hps]; exact List.mem_append_left _ hp)
          · rw [sectionCount]
            omega
          · intro a ha
            have := hcounts a ha
            rwa [List.map_drop, hwidths, ← List.sum_append, ← List.take_add] at this
          · omega

theorem serializeMessage_unit {us : List Unit} {buf out : Buffer} {last : ℕ} {u : Unit}
    (hok : serializeMessage us buf last = .ok (u, out)) : u = segment last out.length := by
  rw [serializeMessage] at hok
  split at hok
  · cases hok
  · dsimp only at hok
    split at hok
    · cases hok
      rw [List.length_cons, Nat.add_comm]
    · split at hok
      · cases hok
      · split at hok
        · cases hok
        · obtain ⟨blocks, -, hok⟩ := Res.bind_eq_ok.1 hok
          cases hok
          rfl

end ProtoCache

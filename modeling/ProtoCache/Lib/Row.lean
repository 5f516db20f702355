import Mathlib

/-!
# Rows of cells

A row is a sequence of cells of given widths. Each holds its words in the cell
itself, filled up to the width, or out of line: the words stand behind the row,
in the order of the cells, and the cell holds a link, the distance from the cell
to the words.

* `shows_cells`: what is read at a cell is either its words, or a link that leads to
  its words, whatever follows the row.
-/

namespace Row

variable {α : Type*}

/-- The words of a cell, in it or out of line. -/
inductive Piece (α : Type*)
  | inl (ws : List α)
  | out (ws : List α)

namespace Piece

/-- The words of a piece. -/
def words : Piece α → List α
  | inl ws => ws
  | out ws => ws

/-- The words of a piece that stand out of line. -/
def outer : Piece α → List α
  | inl _ => []
  | out ws => ws

/-- A piece fits in a cell of a width: a link takes one word. -/
def Fits (w : ℕ) : Piece α → Prop
  | inl ws => ws.length ≤ w
  | out _ => 1 ≤ w

end Piece

/-- The words that the cells of a row take. -/
def width (r : List (ℕ × Piece α)) : ℕ := (r.map Prod.fst).sum

/-- The words of a row that stand out of line. -/
def outs (r : List (ℕ × Piece α)) : List α := r.flatMap fun c => c.2.outer

/-- The words of pieces that stand out of line. -/
def outers (ps : List (Piece α)) : List α := ps.flatMap Piece.outer

section

variable (zero : α) (link : ℕ → α)

/-- A cell, which is `d` words in front of its words if they are out of line. -/
def cellWords (w d : ℕ) : Piece α → List α
  | .inl ws => ws ++ List.replicate (w - ws.length) zero
  | .out _ => link d :: List.replicate (w - 1) zero

/-- The cells of a row, with `n` words of earlier cells out of line. -/
def cells : ℕ → List (ℕ × Piece α) → List α
  | _, [] => []
  | n, (w, p) :: r => cellWords zero link w (w + width r + n) p ++ cells (n + p.outer.length) r

end

/-- All pieces of a row fit in their cells. -/
def Fit (r : List (ℕ × Piece α)) : Prop := ∀ c ∈ r, c.2.Fits c.1

variable {zero : α} {link : ℕ → α}

@[simp] theorem width_nil : width ([] : List (ℕ × Piece α)) = 0 := rfl

@[simp] theorem width_cons (c : ℕ × Piece α) (r : List (ℕ × Piece α)) :
    width (c :: r) = c.1 + width r := rfl

@[simp] theorem width_append (r r' : List (ℕ × Piece α)) :
    width (r ++ r') = width r + width r' := by
  simp [width]

@[simp] theorem outs_nil : outs ([] : List (ℕ × Piece α)) = [] := rfl

@[simp] theorem outs_cons (c : ℕ × Piece α) (r : List (ℕ × Piece α)) :
    outs (c :: r) = c.2.outer ++ outs r := rfl

@[simp] theorem outs_append (r r' : List (ℕ × Piece α)) : outs (r ++ r') = outs r ++ outs r' := by
  simp [outs]

@[simp] theorem outers_nil : outers ([] : List (Piece α)) = [] := rfl

@[simp] theorem outers_cons (p : Piece α) (ps : List (Piece α)) :
    outers (p :: ps) = p.outer ++ outers ps := rfl

theorem outers_map_snd (r : List (ℕ × Piece α)) : outers (r.map Prod.snd) = outs r := by
  rw [outers, outs, List.flatMap_map]

theorem length_cellWords {w d : ℕ} {p : Piece α} (h : p.Fits w) :
    (cellWords zero link w d p).length = w := by
  cases p with
  | inl ws => rw [cellWords, List.length_append, List.length_replicate]; exact Nat.add_sub_cancel' h
  | out ws => rw [cellWords, List.length_cons, List.length_replicate]; exact Nat.sub_add_cancel h

theorem length_cells {r : List (ℕ × Piece α)} (h : Fit r) (n : ℕ) :
    (cells zero link n r).length = width r := by
  induction r generalizing n with
  | nil => rfl
  | cons c r ih =>
    rw [cells, List.length_append, length_cellWords (h c List.mem_cons_self),
      ih fun c' hc' => h c' (List.mem_cons_of_mem _ hc'), width_cons]

theorem cells_append (zero : α) (link : ℕ → α) (n : ℕ) (r r' : List (ℕ × Piece α)) :
    ∃ front : List α, cells zero link n (r ++ r') = front ++
      cells zero link (n + (outs r).length) r' ∧
      (Fit r → front.length = width r) := by
  induction r generalizing n with
  | nil => exact ⟨[], rfl, fun _ => rfl⟩
  | cons c r ih =>
    obtain ⟨front, hf, hl⟩ := ih (n + c.2.outer.length)
    refine ⟨cellWords zero link c.1 (c.1 + width (r ++ r') + n) c.2 ++ front, ?_, fun h => ?_⟩
    · rw [List.cons_append, cells, hf, outs_cons, List.length_append, List.append_assoc,
        Nat.add_assoc n]
    · rw [List.length_append, length_cellWords (h c List.mem_cons_self),
        hl fun c' hc' => h c' (List.mem_cons_of_mem _ hc'), width_cons]

/-- A view shows a piece in a cell of a width: its words, or a link over less than `N`
    words that leads to them, where no more than `M` words are left. -/
def Shows (zero : α) (link : ℕ → α) (N M w : ℕ) (v : List α) : Piece α → Prop
  | .inl ws => ∃ tail, v = ws ++ (List.replicate (w - ws.length) zero ++ tail)
  | .out ws => ∃ d tail tail', d < N ∧ v = link d :: tail ∧ v.drop d = ws ++ tail' ∧
      ws.length + tail'.length ≤ M

/-- What stands from a cell of a row on: the cell, the cells behind it, and what is out of
    line. -/
theorem drop_cells (zero : α) (link : ℕ → α) {r r' : List (ℕ × Piece α)} {w : ℕ} {p : Piece α}
    (h : Fit (r ++ (w, p) :: r')) (rest : List α) :
    (cells zero link 0 (r ++ (w, p) :: r') ++ (outs (r ++ (w, p) :: r') ++ rest)).drop (width r) =
      cellWords zero link w (w + width r' + (outs r).length) p ++
        (cells zero link ((outs r).length + p.outer.length) r' ++
          (outs r ++ (p.outer ++ (outs r' ++ rest)))) := by
  obtain ⟨front, hf, hl⟩ := cells_append zero link 0 r ((w, p) :: r')
  have hfront := hl fun c hc => h c (List.mem_append_left _ hc)
  rw [hf, cells, List.append_assoc, ← hfront, List.drop_left]
  simp

/-- The link of a cell leads over the cell, the cells behind it, and what is out of line
    for the cells before it. -/
theorem link_cells (zero : α) (link : ℕ → α) {r r' : List (ℕ × Piece α)} {w : ℕ} {ws : List α}
    (h : Fit (r ++ (w, .out ws) :: r')) (rest : List α) :
    ∃ tail, (cells zero link 0 (r ++ (w, .out ws) :: r') ++
        (outs (r ++ (w, .out ws) :: r') ++ rest)).drop (width r) =
          link (w + width r' + (outs r).length) :: tail ∧
      (link (w + width r' + (outs r).length) :: tail).drop (w + width r' + (outs r).length) =
        ws ++ (outs r' ++ rest) := by
  have hp : (Piece.out ws).Fits w := h (w, .out ws) (by simp)
  have hr' : Fit r' := fun c hc => h c (by simp [hc])
  have hcell : (cellWords zero link w (w + width r' + (outs r).length) (.out ws)).length = w :=
    length_cellWords hp
  rw [drop_cells zero link h rest]
  refine ⟨_, by rw [cellWords, List.cons_append], ?_⟩
  change (cellWords zero link w (w + width r' + (outs r).length) (.out ws) ++ _).drop _ = _
  rw [List.drop_append, hcell, List.drop_append, length_cells hr', List.drop_append,
    List.drop_eq_nil_of_le, List.drop_eq_nil_of_le, List.drop_eq_nil_of_le, Nat.add_assoc,
    Nat.add_sub_cancel_left, Nat.add_sub_cancel_left]
  · simp [Piece.outer]
  · omega
  · rw [length_cells hr']; omega
  · rw [hcell]; omega

/-- What is read at a cell of a row. -/
theorem shows_cells (zero : α) (link : ℕ → α) (N : ℕ) {r r' : List (ℕ × Piece α)} {w : ℕ}
    {p : Piece α} (h : Fit (r ++ (w, p) :: r')) (hN : w + width r' + (outs r).length < N)
    (rest : List α) :
    Shows zero link N ((outs (r ++ (w, p) :: r')).length + rest.length) w
      ((cells zero link 0 (r ++ (w, p) :: r') ++
        (outs (r ++ (w, p) :: r') ++ rest)).drop (width r)) p := by
  cases p with
  | inl ws => exact ⟨_, by rw [drop_cells zero link h rest, cellWords, List.append_assoc]⟩
  | out ws =>
    obtain ⟨tail, hv, hdrop⟩ := link_cells zero link h rest
    exact ⟨_, tail, outs r' ++ rest, hN, hv, by rw [hv, hdrop], by simp [Piece.outer]; omega⟩

/-- A cell is not past the end of a row. -/
theorem Shows.length_le {N M w : ℕ} {v : List α} {ws : List α}
    (h : Shows zero link N M w v (.inl ws)) :
    w ≤ v.length := by
  obtain ⟨tail, rfl⟩ := h
  simp only [List.length_append, List.length_replicate]
  omega

end Row

import ProtoCache.Serialize.Units

/-!
# Units and what they stand for

The cells of a container as `Pick` and `Mark` leave them.

* A unit stands for a piece (`Unit.Sized`, `Placed`): its words, or the words that
  were written at its position. Sizes are always as the unit tells them, positions
  as long as the buffer has less than `2 ^ 32` words.
* `putCells_spec`: the cells of a container are those of a row, and what is out of
  line stands behind them without a gap.
-/

namespace ProtoCache

open Row

/-- A unit has the size of a piece, and its words if they are not in the buffer. -/
def Unit.Sized (u : Unit) : Piece UInt32 → Prop
  | .inl ws => u.len = ws.length ∧ u.data = ws ∧ (ws = [] → u.segLen = 0)
  | .out ws => u.len = 0 ∧ u.segLen.toNat = ws.length ∧ ws ≠ []

/-- Units whose pieces are written one on top of the other, the last one first, on
    `n` words, have the positions of their pieces. -/
def Placed (n : ℕ) : List Unit → List (Piece UInt32) → Prop
  | u :: us, p :: ps =>
    (p.outer ≠ [] → u.segPos = UInt32.ofNat (n + (outers (p :: ps)).length)) ∧ Placed n us ps
  | _, _ => True

/-- A unit stands for a piece that was written on `n` words. -/
def Unit.On (n : ℕ) (u : Unit) (p : Piece UInt32) : Prop :=
  u.Sized p ∧ (p.outer ≠ [] → u.segPos = UInt32.ofNat (n + p.outer.length))

/-- What `Pick` makes of a piece, for a cell of `m` words. -/
def pickPiece (m : ℕ) : Piece UInt32 → Piece UInt32
  | .inl ws => .inl ws
  | .out ws => if ws.length ≤ m then .inl ws else .out ws

theorem Unit.Sized.size_eq {u : Unit} {p : Piece UInt32} (h : u.Sized p) :
    u.size = p.words.length := by
  cases p with
  | inl ws =>
    obtain ⟨h₁, -, h₀⟩ := h
    rw [Unit.size, Piece.words, h₁]
    split
    · next hws => rw [h₀ (List.length_eq_zero_iff.1 hws), hws]; rfl
    · rfl
  | out ws => rw [Unit.size, if_pos h.1]; exact h.2.1

theorem Unit.data_store (u : Unit) {ws : List UInt32} (h : ws.length ≤ 3) :
    ({ u.store ws with len := ws.length } : Unit).data = ws := by
  match ws, h with
  | [], _ | [_], _ | [_, _], _ | [_, _, _], _ => rfl
  | _ :: _ :: _ :: _ :: _, h => exact absurd h (by simp only [List.length_cons]; omega)

theorem Unit.sized_store {u : Unit} {ws : List UInt32} (h : ws.length ≤ 3)
    (h₀ : ws = [] → u.segLen = 0) :
    ({ u.store ws with len := ws.length } : Unit).Sized (.inl ws) := by
  refine ⟨rfl, u.data_store h, fun hws => ?_⟩
  subst hws
  exact h₀ rfl

/-- The unit of a segment of less than `2 ^ 32` words. -/
theorem segment_on {ws : List UInt32} (hws : ws ≠ []) (hlt : ws.length < 2 ^ 32) (n : ℕ) :
    (segment n (ws.length + n)).On n (.out ws) := by
  refine ⟨⟨rfl, ?_, hws⟩, fun _ => ?_⟩
  · rw [segment, Unit.segLen, Nat.add_sub_cancel]
    exact Nat.mod_eq_of_lt hlt
  · rw [segment, Unit.segPos, Nat.add_comm]
    rfl

theorem placed_cons {n : ℕ} {u : Unit} {p : Piece UInt32} {us : List Unit}
    {ps : List (Piece UInt32)} (h : u.On (n + (outers ps).length) p) (hp : Placed n us ps) :
    Placed n (u :: us) (p :: ps) := by
  refine ⟨fun hne => ?_, hp⟩
  rw [h.2 hne, outers_cons, List.length_append]
  exact congrArg UInt32.ofNat (by omega)

/-! ## Moving words -/

theorem wordAt_append (X B : Buffer) (x : UInt32) :
    wordAt (X ++ x :: B) (B.length + 1) = .ok x := by
  rw [wordAt, if_pos (by simp), show (X ++ x :: B).length - (B.length + 1) = X.length by simp,
    List.getElem?_append_right (by rfl)]
  simp

theorem setWord_append (X B : Buffer) (x w : UInt32) :
    setWord (X ++ x :: B) (B.length + 1) w = .ok (X ++ w :: B) := by
  rw [setWord, if_pos (by simp), show (X ++ x :: B).length - (B.length + 1) = X.length by simp,
    List.set_append_right _ _ (by rfl), Nat.sub_self, List.set_cons_zero]

/-- A move stores in front of the words at `tail`, and keeps the size of the buffer. -/
theorem moveWords_frame {k src : ℕ} {X B buf : Buffer}
    (h : moveWords k (X ++ B) B.length src = .ok buf) :
    ∃ X', buf = X' ++ B ∧ X'.length = X.length ∧ k ≤ X.length := by
  induction k generalizing X B src with
  | zero => exact ⟨X, (Except.ok.inj h).symm, rfl, Nat.zero_le _⟩
  | succ k ih =>
    rw [moveWords] at h
    obtain ⟨w, -, h⟩ := Res.bind_eq_ok.1 h
    obtain ⟨buf₁, hset, h⟩ := Res.bind_eq_ok.1 h
    rcases List.eq_nil_or_concat X with rfl | ⟨X, x, rfl⟩
    · rw [setWord, if_neg (by simp)] at hset
      cases hset
    · rw [List.concat_eq_append, List.append_assoc, List.singleton_append, setWord_append] at hset
      cases hset
      obtain ⟨X', rfl, hlen, hk⟩ := ih (B := w :: B) h
      refine ⟨X' ++ [w], by simp, ?_, ?_⟩
      · simp [hlen]
      · simpa using hk

/-- A move over a gap: the words end up behind it. -/
theorem moveWords_eq (A ws : Buffer) {J B : Buffer} (hJ : J ≠ []) :
    ∃ J', moveWords ws.length (A ++ (ws ++ (J ++ B))) B.length (J.length + B.length) =
      .ok (A ++ (J' ++ (ws ++ B))) ∧ J'.length = J.length := by
  induction ws using List.reverseRecOn generalizing J B with
  | nil => exact ⟨J, rfl, rfl⟩
  | append_singleton ws w ih =>
    obtain ⟨J₀, j, rfl⟩ := (List.eq_nil_or_concat J).resolve_left hJ
    obtain ⟨J', h, hlen⟩ := ih (J := w :: J₀) (B := w :: B) (by simp)
    refine ⟨J', ?_, by rw [hlen]; simp⟩
    have hw := wordAt_append (A ++ ws) (J₀.concat j ++ B) w
    have hs := setWord_append (A ++ (ws ++ w :: J₀)) B j w
    simp only [List.concat_eq_append, List.append_assoc, List.cons_append, List.nil_append,
      List.length_append, List.length_cons, List.length_nil] at hw hs h ⊢
    have hsrc : J₀.length + (0 + 1) + B.length + 1 = J₀.length + (B.length + 1) + 1 := by omega
    rw [moveWords, hsrc, hw, Res.ok_bind, hs, Res.ok_bind]
    convert h using 2
    omega

/-! ## Picking a unit -/

theorem load_length {α : Type} {mem bs : List α} {n : ℕ} (h : Storage.load mem n = some bs) :
    bs.length = n := by
  rw [Storage.load] at h
  split at h
  · cases h; simp; omega
  · cases h

/-- `Pick` keeps what was kept before, and the sizes. -/
theorem pick_frame {u u' : Unit} {p : Piece UInt32} {X B buf : Buffer} {m tail : ℕ} (hs : u.Sized p)
    (hp : p.words ≠ []) (hm : m ≤ 3) (hX : p.outer.length ≤ X.length)
    (h : pick u (X ++ B) B.length m = .ok (u', buf, tail)) :
    ∃ X' p', buf = X' ++ (p'.outer ++ B) ∧ X'.length + p'.outer.length = X.length ∧
      tail = (p'.outer ++ B).length ∧ u'.Sized p' ∧ p'.words ≠ [] ∧
      ((pickPiece m p).Fits m → p'.Fits m) ∧ p'.outer.length = (pickPiece m p).outer.length := by
  cases p with
  | inl ws =>
    have hlen : u.len ≠ 0 := by rw [hs.1]; exact fun h0 => hp (List.length_eq_zero_iff.1 h0)
    rw [pick, if_pos hlen] at h
    cases h
    exact ⟨X, .inl ws, rfl, rfl, rfl, hs, hp, id, rfl⟩
  | out ws =>
    obtain ⟨h0, hlen, hne⟩ := hs
    rw [pick, if_neg (not_not.2 h0), hlen] at h
    split at h
    · next hle =>
      split at h
      · obtain ⟨src, hsrc, h⟩ := Res.bind_eq_ok.1 h
        have hl := load_length (access_eq_ok.1 hsrc)
        cases h
        -- The words that are stored need not be those of the piece, but they are as many.
        have hsrc0 : src ≠ [] := fun h0 => hne (by rw [← List.length_eq_zero_iff, ← hl, h0]; rfl)
        refine ⟨X, .inl src, rfl, rfl, rfl, ?_, hsrc0, fun _ => by
          rw [Piece.Fits, hl]; exact hle, ?_⟩
        · rw [← hl]
          exact u.sized_store (by omega) fun h0 => absurd h0 hsrc0
        · rw [pickPiece, if_pos hle]; rfl
      · cases h
    · next hlt =>
      have hout : (pickPiece m (.out ws)) = .out ws := if_neg hlt
      -- The words of the unit are at the end of what is in front of `B`, moved or not.
      suffices ∃ X', buf = X' ++ B ∧ X'.length = X.length ∧ tail = B.length + ws.length ∧
          u'.len = 0 ∧ u'.segLen = u.segLen by
        obtain ⟨X', rfl, hX', rfl, hu, hu'⟩ := this
        have hw : (X'.drop (X.length - ws.length)).length = ws.length := by
          rw [List.length_drop, hX']
          exact Nat.sub_sub_self hX
        refine ⟨X'.take (X.length - ws.length), .out (X'.drop (X.length - ws.length)), ?_, ?_, ?_,
          ⟨hu, by rw [hu', hlen, hw], ?_⟩, ?_, ?_, ?_⟩
        · rw [Piece.outer, ← List.append_assoc, List.take_append_drop]
        · rw [Piece.outer, ← List.length_append, List.take_append_drop, hX']
        · rw [Piece.outer, List.length_append, hw, Nat.add_comm]
        · rwa [← List.length_pos_iff, hw, List.length_pos_iff]
        · rwa [Piece.words, ← List.length_pos_iff, hw, List.length_pos_iff]
        · rw [hout]; exact id
        · rw [hout]; exact hw
      dsimp only at h
      split at h
      · obtain ⟨buf₁, hmove, h⟩ := Res.bind_eq_ok.1 h
        obtain ⟨X', rfl, hX', -⟩ := moveWords_frame hmove
        cases h
        exact ⟨X', rfl, hX', rfl, h0, rfl⟩
      · cases h
        exact ⟨X, rfl, rfl, rfl, h0, rfl⟩

/-- `Pick` of a unit whose words are where it says. -/
theorem pick_eq {u : Unit} {p : Piece UInt32} {J B : Buffer} {m : ℕ} (A : Buffer) (hs : u.Sized p)
    (hp : p.words ≠ []) (hm : m ≤ 3)
    (hpos : p.outer ≠ [] → u.segPos.toNat = (p.outer ++ (J ++ B)).length) :
    ∃ u' J', pick u (A ++ (p.outer ++ (J ++ B))) B.length m =
        .ok (u', A ++ (J' ++ ((pickPiece m p).outer ++ B)), ((pickPiece m p).outer ++ B).length) ∧
      u'.Sized (pickPiece m p) ∧
      J'.length + (pickPiece m p).outer.length = p.outer.length + J.length ∧
      ((pickPiece m p).outer ≠ [] →
        u'.segPos = UInt32.ofNat ((pickPiece m p).outer ++ B).length) := by
  -- As in the source: inline already, short enough to become so, or left behind the gap.
  cases p with
  | inl ws =>
    have hlen : u.len ≠ 0 := by rw [hs.1]; exact fun h0 => hp (List.length_eq_zero_iff.1 h0)
    refine ⟨u, J, ?_, hs, by simp [pickPiece, Piece.outer], fun h => absurd rfl h⟩
    rw [pick, if_pos hlen]
    rfl
  | out ws =>
    obtain ⟨h0, hlen, hne⟩ := hs
    have hpos : u.segPos.toNat = (ws ++ (J ++ B)).length := hpos hne
    have hlt : (ws ++ (J ++ B)).length < 2 ^ 32 := hpos ▸ u.segPos.toNat_lt
    rw [pick, if_neg (not_not.2 h0), hlen]
    by_cases hle : ws.length ≤ m
    · have hout : pickPiece m (.out ws) = .inl ws := if_pos hle
      rw [hout]
      refine ⟨{ u.store ws with len := ws.length }, ws ++ J, ?_, ?_, ?_, fun h => absurd rfl h⟩
      · rw [if_pos hle, if_pos (.inr (by rw [hpos]; simp [Piece.outer])), hpos]
        -- The words are copied to the unit, and those of the buffer become part of the gap.
        have hdrop : (A ++ (ws ++ (J ++ B))).length - (ws ++ (J ++ B)).length = A.length := by
          rw [List.length_append, Nat.add_sub_cancel]
        dsimp only [Piece.outer]
        rw [hdrop, List.drop_left, Storage.load_of_le (by simp), List.take_left]
        simp
      · exact u.sized_store (by omega) fun h0 => absurd h0 hne
      · simp [Piece.outer]
    · have hout : pickPiece m (.out ws) = .out ws := if_neg hle
      have hend : u.segEnd.toNat = (J ++ B).length := by
        rw [Unit.segEnd, UInt32.toNat_sub_of_le, hpos, hlen, List.length_append,
          Nat.add_sub_cancel_left]
        rw [UInt32.le_iff_toNat_le, hpos, hlen]
        simp
      rw [if_neg hle, hend, hout]
      -- Without a gap the words are in place, else they are moved behind it.
      rcases eq_or_ne J [] with rfl | hJ
      · refine ⟨u, [], ?_, ⟨h0, hlen, hne⟩, by simp, fun _ => ?_⟩
        · rw [List.nil_append, if_neg (Nat.lt_irrefl _)]
          simp [Piece.outer, Nat.add_comm]
        · rw [← UInt32.toNat_inj, hpos]
          exact (Nat.mod_eq_of_lt hlt).symm
      · obtain ⟨J', hmove, hJ'⟩ := moveWords_eq (B := B) A ws hJ
        have hJ0 := List.length_pos_iff.2 hJ
        refine ⟨{ u with d₀ := u.segPos - UInt32.ofNat J.length }, J', ?_, ⟨h0, hlen, hne⟩,
          by simp [hJ', Nat.add_comm], fun _ => ?_⟩
        · rw [if_pos (by simpa using hJ0), List.length_append, Piece.outer, hmove, Res.ok_bind]
          simp [Nat.add_comm]
        · have hJ2 : (UInt32.ofNat J.length).toNat = J.length :=
            Nat.mod_eq_of_lt (by simp at hlt; omega)
          have hlen' : (ws ++ (J ++ B)).length = (ws ++ B).length + J.length := by simp; omega
          refine UInt32.toNat_inj.1 ((UInt32.toNat_sub_of_le _ _ ?_).trans ?_)
          · rw [UInt32.le_iff_toNat_le, hJ2, hpos, hlen']
            exact Nat.le_add_left _ _
          · rw [hJ2, hpos, hlen', Nat.add_sub_cancel]
            exact (Nat.mod_eq_of_lt (by simp at hlt ⊢; omega)).symm

/-! ## Picking and marking all cells -/

/-- The row of the pieces that `Pick` leaves. -/
def picked (r : List (ℕ × Piece UInt32)) : List (ℕ × Piece UInt32) :=
  r.map fun c => (c.1, pickPiece c.1 c.2)

/-- The cells of a container: their widths are those of a row, and their units stand
    for its pieces, which have words. -/
def Cells (cs : List (ℕ × Unit)) (r : List (ℕ × Piece UInt32)) : Prop :=
  List.Forall₂ (fun c d => c.1 = d.1 ∧ c.2.Sized d.2 ∧ d.2.words ≠ []) cs r

/-- The widths that containers give to cells. -/
def Narrow (r : List (ℕ × Piece UInt32)) : Prop := ∀ c ∈ r, c.1 ≤ 3

@[simp] theorem picked_nil : picked [] = [] := rfl

@[simp] theorem picked_cons (c : ℕ × Piece UInt32) (r : List (ℕ × Piece UInt32)) :
    picked (c :: r) = (c.1, pickPiece c.1 c.2) :: picked r := rfl

@[simp] theorem width_picked (r : List (ℕ × Piece UInt32)) : width (picked r) = width r := by
  rw [width, picked, List.map_map]
  rfl

@[simp] theorem words_pickPiece (m : ℕ) (p : Piece UInt32) : (pickPiece m p).words = p.words := by
  cases p with
  | inl ws => rfl
  | out ws => rw [pickPiece]; split <;> rfl

theorem outer_pickPiece_le (m : ℕ) (p : Piece UInt32) :
    (pickPiece m p).outer.length ≤ p.outer.length := by
  cases p with
  | inl ws => rfl
  | out ws => rw [pickPiece]; split <;> simp [Piece.outer]

theorem outs_picked_le (r : List (ℕ × Piece UInt32)) :
    (outs (picked r)).length ≤ (outs r).length := by
  induction r with
  | nil => rfl
  | cons c r ih =>
    rw [picked_cons, outs_cons, outs_cons, List.length_append, List.length_append]
    exact Nat.add_le_add (outer_pickPiece_le _ _) ih

theorem fit_cons {c : ℕ × Piece UInt32} {r : List (ℕ × Piece UInt32)} :
    Fit (c :: r) ↔ c.2.Fits c.1 ∧ Fit r := List.forall_mem_cons

theorem pickAll_frame {cs cs' : List (ℕ × Unit)} {r : List (ℕ × Piece UInt32)} {X B buf : Buffer}
    {tail : ℕ} (hs : Cells cs r) (hm : Narrow r) (hX : (outs r).length ≤ X.length)
    (h : pickAll cs (X ++ B) B.length = .ok (cs', buf, tail)) :
    ∃ X' r', buf = X' ++ (outs r' ++ B) ∧ X'.length + (outs r').length = X.length ∧
      tail = (outs r' ++ B).length ∧ Cells cs' r' ∧ (Fit (picked r) → Fit r') ∧
      width r' = width r ∧ (outs r').length = (outs (picked r)).length := by
  induction hs generalizing cs' buf tail with
  | nil =>
    cases h
    exact ⟨X, [], rfl, rfl, rfl, .nil, fun _ c hc => absurd hc List.not_mem_nil, rfl, rfl⟩
  | @cons c d cs r hd hs ih =>
    obtain ⟨m, u⟩ := c
    obtain ⟨m', p⟩ := d
    obtain ⟨hm', hu, hp⟩ := hd
    obtain rfl : m = m' := hm'
    dsimp only at hu hp
    rw [pickAll] at h
    obtain ⟨⟨cs₁, buf₁, tail₁⟩, h₁, h⟩ := Res.bind_eq_ok.1 h
    obtain ⟨⟨u', buf₂, tail₂⟩, h₂, h⟩ := Res.bind_eq_ok.1 h
    cases h
    rw [outs_cons, List.length_append] at hX
    dsimp only at hX
    obtain ⟨X₁, r', rfl, hX₁, rfl, hs', hf, hw, ho⟩ :=
      ih (fun c hc => hm c (.tail _ hc)) (by omega) h₁
    have hle := outs_picked_le r
    obtain ⟨X₂, p', rfl, hX₂, rfl, hu', hp', hf', ho'⟩ :=
      pick_frame hu hp (hm (m, p) List.mem_cons_self) (by omega) h₂
    refine ⟨X₂, (m, p') :: r', by simp, ?_, by simp, .cons ⟨rfl, hu', hp'⟩ hs', fun h => ?_, ?_, ?_⟩
    · rw [outs_cons, List.length_append]
      dsimp only
      omega
    · rw [picked_cons, fit_cons] at h
      exact fit_cons.2 ⟨hf' h.1, hf h.2⟩
    · rw [width_cons, width_cons, hw]
    · rw [outs_cons, picked_cons, outs_cons, List.length_append, List.length_append, ho', ho]

/-- The words of the pieces of a row that stand out of line, each with a gap behind it. -/
def spread : List (List UInt32 × (ℕ × Piece UInt32)) → List UInt32
  | [] => []
  | (gap, c) :: r => c.2.outer ++ (gap ++ spread r)

/-- Units whose pieces stand in a buffer, the last one first on `n` words, with gaps
    between them, have the positions of their pieces. -/
def Spread (n : ℕ) : List Unit → List (List UInt32 × (ℕ × Piece UInt32)) → Prop
  | u :: us, c :: r =>
    (c.2.2.outer ≠ [] → u.segPos.toNat = n + (spread (c :: r)).length) ∧ Spread n us r
  | _, _ => True

/-- What is left of the pieces stands without gaps, in front of what was there before. -/
theorem pickAll_spread {cs : List (ℕ × Unit)} {r : List (List UInt32 × (ℕ × Piece UInt32))}
    {B : Buffer} (A : Buffer) (hs : Cells cs (r.map Prod.snd))
    (hp : Spread B.length (cs.map Prod.snd) r) (hm : Narrow (r.map Prod.snd)) :
    ∃ cs' J, pickAll cs (A ++ (spread r ++ B)) B.length =
        .ok (cs', A ++ (J ++ (outs (picked (r.map Prod.snd)) ++ B)),
          (outs (picked (r.map Prod.snd)) ++ B).length) ∧
      Cells cs' (picked (r.map Prod.snd)) ∧
      J.length + (outs (picked (r.map Prod.snd))).length = (spread r).length ∧
      Placed B.length (cs'.map Prod.snd) ((picked (r.map Prod.snd)).map Prod.snd) := by
  -- By induction on the row: the gaps of the later pieces are collected in front of what is left
  -- of them, and `Pick` moves the first piece behind them all.
  induction r generalizing cs A with
  | nil =>
    cases hs
    exact ⟨[], [], rfl, .nil, rfl, trivial⟩
  | cons d r ih =>
    rcases hs with _ | ⟨hd, hs⟩
    rename_i c cs
    obtain ⟨gap, m', p⟩ := d
    obtain ⟨m, u⟩ := c
    obtain ⟨hm', hu, hne⟩ := hd
    obtain rfl : m = m' := hm'
    obtain ⟨hpos, hp⟩ := hp
    dsimp only at hu hne hpos
    rw [spread, List.length_append, List.length_append] at hpos
    obtain ⟨cs', J₁, h₁, hs', hJ₁, hp'⟩ :=
      ih (A ++ (p.outer ++ gap)) hs hp fun c hc => hm c (.tail _ hc)
    set r' := picked (r.map Prod.snd) with hr'
    have hlen : (p.outer ++ ((gap ++ J₁) ++ (outs r' ++ B))).length =
        B.length + (p.outer.length + (gap.length + (spread r).length)) := by
      simp only [List.length_append]
      omega
    obtain ⟨u', J₂, h₂, hu', hJ₂, hpos'⟩ := pick_eq (J := gap ++ J₁) (B := outs r' ++ B) A hu hne
      (hm (m, p) List.mem_cons_self) fun h => by rw [hlen, hpos h]
    have hcons : picked (((gap, (m, p)) :: r).map Prod.snd) = (m, pickPiece m p) :: r' := rfl
    rw [hcons]
    refine ⟨(m, u') :: cs', J₂, ?_, .cons ⟨rfl, hu', ?_⟩ hs', ?_, fun h => ?_, hp'⟩
    · rw [pickAll, spread]
      simp only [List.append_assoc] at h₁ h₂ ⊢
      rw [h₁, Res.ok_bind]
      dsimp only
      rw [h₂, outs_cons]
      simp only [List.append_assoc]
      rfl
    · rwa [words_pickPiece]
    · rw [outs_cons, spread]
      simp only [List.length_append] at hJ₂ ⊢
      omega
    · rw [hpos' h, outers_cons, outers_map_snd]
      exact congrArg UInt32.ofNat (by simp only [List.length_append]; omega)

/-- The link to words that are `d` words behind it. -/
def linkWord (d : ℕ) : UInt32 := offset (UInt32.ofNat d)

theorem mark_frame {u : Unit} {p : Piece UInt32} {m : ℕ} (hs : u.Sized p) (hp : p.words ≠ [])
    (hf : p.Fits m) (buf : Buffer) : ∃ Z, mark u buf m = .ok (Z ++ buf) ∧ Z.length = m := by
  cases p with
  | inl ws =>
    obtain ⟨hlen, hdata, -⟩ := hs
    have h0 : u.len ≠ 0 := by rw [hlen]; exact fun h => hp (List.length_eq_zero_iff.1 h)
    have hm : u.len ≤ m := by rw [hlen]; exact hf
    refine ⟨u.data ++ List.replicate (m - u.len) 0, ?_, ?_⟩
    · rw [mark, if_neg h0, if_pos (by omega), Nat.sub_eq_zero_of_le hm]
      simp
    · rw [List.length_append, hdata, ← hlen, List.length_replicate]
      omega
  | out ws =>
    have hm : m ≠ 0 := Nat.one_le_iff_ne_zero.1 hf
    refine ⟨offset (UInt32.ofNat (m + buf.length) - u.segPos) :: List.replicate (m - 1) 0, ?_, ?_⟩
    · rw [mark, if_pos hs.1, if_neg hm]
      rfl
    · rw [List.length_cons, List.length_replicate]
      omega

theorem mark_eq {u : Unit} {p : Piece UInt32} {m : ℕ} (hs : u.Sized p) (hp : p.words ≠ [])
    (hf : p.Fits m) {buf : Buffer} {d pos : ℕ} (hd : d + pos = m + buf.length)
    (hpos : p.outer ≠ [] → u.segPos = UInt32.ofNat pos) :
    mark u buf m = .ok (cellWords 0 linkWord m d p ++ buf) := by
  cases p with
  | inl ws =>
    obtain ⟨hlen, hdata, -⟩ := hs
    have h0 : u.len ≠ 0 := by rw [hlen]; exact fun h => hp (List.length_eq_zero_iff.1 h)
    have hm : u.len ≤ m := by rw [hlen]; exact hf
    rw [mark, if_neg h0, if_pos (by omega), Nat.sub_eq_zero_of_le hm, hdata, hlen, cellWords]
    simp
  | out ws =>
    have hm : m ≠ 0 := Nat.one_le_iff_ne_zero.1 hf
    rw [mark, if_pos hs.1, if_neg hm, hpos hs.2.2, ← hd, UInt32.ofNat_add, UInt32.add_sub_cancel]
    rfl

theorem markAll_frame {cs : List (ℕ × Unit)} {r : List (ℕ × Piece UInt32)} (hs : Cells cs r)
    (hf : Fit r) (buf : Buffer) : ∃ Z, markAll cs buf = .ok (Z ++ buf) ∧ Z.length = width r := by
  induction hs with
  | nil => exact ⟨[], rfl, rfl⟩
  | @cons c d cs r hd hs ih =>
    rw [fit_cons] at hf
    obtain ⟨Z, h, hZ⟩ := ih hf.2
    obtain ⟨Z', h', hZ'⟩ := mark_frame hd.2.1 hd.2.2 hf.1 (Z ++ buf)
    refine ⟨Z' ++ Z, ?_, ?_⟩
    · rw [markAll, h, Res.ok_bind, hd.1, h', List.append_assoc]
    · rw [List.length_append, hZ, hZ', width_cons]

theorem markAll_eq {cs : List (ℕ × Unit)} {r : List (ℕ × Piece UInt32)} {n k : ℕ} {buf : Buffer}
    (hs : Cells cs r) (hp : Placed n (cs.map Prod.snd) (r.map Prod.snd)) (hf : Fit r)
    (hbuf : buf.length = k + ((outs r).length + n)) :
    markAll cs buf = .ok (cells 0 linkWord k r ++ buf) := by
  induction hs generalizing k with
  | nil => rfl
  | @cons c d cs r hd hs ih =>
    obtain ⟨hpos, hp⟩ := hp
    rw [fit_cons] at hf
    rw [outs_cons, List.length_append] at hbuf
    rw [markAll, ih hp hf.2 (k := k + d.2.outer.length) (by omega), Res.ok_bind, cells, hd.1]
    rw [mark_eq hd.2.1 hd.2.2 hf.1 (d := d.1 + width r + k) ?_ hpos, List.append_assoc]
    rw [outers_cons, outers_map_snd, List.length_append, List.length_append, length_cells hf.2]
    omega

/-! ## The cells of a container -/

/-- The cells take as many words as the row of the pieces that are left. -/
theorem putCells_frame {cs : List (ℕ × Unit)} {r : List (ℕ × Piece UInt32)} {X B buf : Buffer}
    (hs : Cells cs r) (hm : Narrow r) (hf : Fit (picked r)) (hX : (outs r).length ≤ X.length)
    (h : putCells cs (X ++ B) B.length = .ok buf) :
    ∃ Z, buf = Z ++ B ∧ Z.length = width r + (outs (picked r)).length := by
  rw [putCells] at h
  obtain ⟨⟨cs', buf₁, tail⟩, h₁, h₂⟩ := Res.bind_eq_ok.1 h
  obtain ⟨X', r', rfl, -, rfl, hs', hf', hw, ho⟩ := pickAll_frame hs hm hX h₁
  obtain ⟨Z, h, hZ⟩ := markAll_frame hs' (hf' hf) (outs r' ++ B)
  dsimp only at h₂
  rw [List.length_append, Nat.add_sub_cancel, List.drop_left, h] at h₂
  cases h₂
  exact ⟨Z ++ outs r', by simp, by rw [List.length_append, hZ, hw, ho]⟩

/-- The cells of a container whose pieces stand in front of `B`, with gaps between them,
    are those of the row of the pieces that are left, with what is out of line right behind
    them. -/
theorem putCells_spread {cs : List (ℕ × Unit)} {r : List (List UInt32 × (ℕ × Piece UInt32))}
    {B : Buffer} (A : Buffer) (hs : Cells cs (r.map Prod.snd))
    (hp : Spread B.length (cs.map Prod.snd) r) (hm : Narrow (r.map Prod.snd))
    (hf : Fit (picked (r.map Prod.snd))) :
    putCells cs (A ++ (spread r ++ B)) B.length =
      .ok (cells 0 linkWord 0 (picked (r.map Prod.snd)) ++
        (outs (picked (r.map Prod.snd)) ++ B)) := by
  obtain ⟨cs', J, h, hs', -, hp'⟩ := pickAll_spread A hs hp hm
  rw [putCells, h, Res.ok_bind]
  dsimp only
  rw [← List.append_assoc, List.length_append, Nat.add_sub_cancel, List.drop_left,
    markAll_eq (k := 0) hs' hp' hf (by simp)]

/-- The pieces of a row without gaps. -/
theorem spread_nil (r : List (ℕ × Piece UInt32)) : spread (r.map fun c => ([], c)) = outs r := by
  induction r with
  | nil => rfl
  | cons c r ih => rw [List.map_cons, spread, ih, outs_cons, List.nil_append]

theorem Placed.spread {n : ℕ} {us : List Unit} {r : List (ℕ × Piece UInt32)}
    (h : Placed n us (r.map Prod.snd)) (hlt : (outs r).length + n < 2 ^ 32) :
    Spread n us (r.map fun c => ([], c)) := by
  induction r generalizing us with
  | nil => cases us <;> exact trivial
  | cons c r ih =>
    cases us with
    | nil => exact trivial
    | cons u us =>
      rw [outs_cons, List.length_append] at hlt
      refine ⟨fun hne => ?_, ih h.2 (by omega)⟩
      have hout : (outers (c.2 :: r.map Prod.snd)).length = c.2.outer.length + (outs r).length := by
        rw [outers_cons, outers_map_snd, List.length_append]
      have hspread : (ProtoCache.spread (([], c) :: r.map fun c => ([], c))).length =
          c.2.outer.length + (outs r).length := by
        rw [ProtoCache.spread, spread_nil, List.nil_append, List.length_append]
      rw [h.1 hne, hout, hspread, UInt32.toNat_ofNat', Nat.mod_eq_of_lt (by omega)]

/-- The cells of a container whose pieces stand in front of `B` are those of the row
    of the pieces that are left, with what is out of line right behind them. -/
theorem putCells_eq {cs : List (ℕ × Unit)} {r : List (ℕ × Piece UInt32)} {B : Buffer}
    (hs : Cells cs r) (hp : Placed B.length (cs.map Prod.snd) (r.map Prod.snd)) (hm : Narrow r)
    (hf : Fit (picked r)) (hlt : (outs r ++ B).length < 2 ^ 32) :
    putCells cs (outs r ++ B) B.length =
      .ok (cells 0 linkWord 0 (picked r) ++ (outs (picked r) ++ B)) := by
  have hr : (r.map fun c => (([] : List UInt32), c)).map Prod.snd = r := by simp [Function.comp_def]
  rw [List.length_append] at hlt
  have h :=
    putCells_spread [] (r := r.map fun c => ([], c)) (hr.symm ▸ hs) (hp.spread hlt) (hr.symm ▸ hm)
    (hr.symm ▸ hf)
  rwa [hr, spread_nil] at h

end ProtoCache

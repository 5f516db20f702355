import ProtoCache.Extension.Terminate
import ProtoCache.MapSafe
import ProtoCache.ReadBack

/-!
# Where deserializing leaves the buffer

An `Array` that leaves the buffer has no body, but keeps its size and its width, and
`Deserialize` goes through it all the same: a number of it is loaded from a null pointer,
and so is the second message or string. The strings of an array are not told the end of the
buffer either. Nothing else in a buffer is read outside of it: the other accesses are shown to
have a result, whatever the buffer holds.

What is read for a message is a list of steps (`messageSteps`): calls for the messages of its
fields, in order, up to a return of `false` or to one of these four causes, each of which is told
by the head of an array (`Lost`) or of a string (`loose`).

* `deserializeMessage_runs`: reading a message is running its steps;
* `deserialize_inside_iff`: a buffer is only read inside, unless the reader strays for one of
  the four causes.
-/

namespace ProtoCache.Extension

/-! ## Heads that announce too much -/

/-- The number of elements that the head of an array announces. -/
def headSize (view : List UInt32) : ℕ := (view.headD 0 >>> 2).toNat

/-- The number of words that it announces for each of them. -/
def headWidth (view : List UInt32) : ℕ := (view.headD 0 &&& 3).toNat

/-- An array with a head that announces more words than the buffer holds from there on. -/
def Lost (view : List UInt32) : Prop := view.length < 1 + headWidth view * headSize view

instance (view : List UInt32) : Decidable (Lost view) := inferInstanceAs (Decidable (_ < _))

/-- The cells of an array, each with all that stands behind it. -/
def cells (view : List UInt32) : List (List UInt32) :=
  (List.range (headSize view)).map fun i => (view.drop 1).drop (headWidth view * i)

/-- What a cell stands for: the words at its link, or its own. -/
def linked (cell : List UInt32) : List UInt32 :=
  if cell.headD 0 &&& 3 = 3 then cell.drop (cell.headD 0 >>> 2).toNat else cell

/-- A string that leaves the buffer: there is no byte of it, its mark is cut off, or its mark
    announces more bytes than there are. -/
def loose : List UInt8 → Bool
  | [] => true
  | b :: bytes => b &&& 3 = 0 &&
    match Varint.decode 5 (b :: bytes) with
    | none => bytes.length < 4
    | some (mark, rest) => rest.length < mark / 4

/-! ## The steps -/

/-- A step of reading a message: a call for another one, a return of `false`, or a load outside
    the buffer. -/
inductive Step
  | call (name : ℕ) (ptr : Ptr)
  | reject
  | stray

/-- What follows an access that makes no calls. -/
def after {α : Type} (x : Res α) (steps : α → List Step) : List Step :=
  match x with
  | .ok a => steps a
  | .error _ => [.reject]

/-- The step of a singular value. -/
def singleSteps (t : FieldType) (src : Field) : List Step :=
  match t.form with
  | .message name => after (src.getObject true) fun q => [.call name q]
  | .other => [.reject]
  | _ => []

/-- Behind the first cell of an array without a body, there is nothing. -/
def strayBehind (size : ℕ) : List Step := if 1 < size then [.stray] else []

/-- The steps of an array. One that leaves the buffer is gone through as if it started at a null
    pointer, if it has cells of a width that is looked at; strings may leave the buffer as well. -/
def arraySteps (t : FieldType) (ptr : Ptr) : List Step :=
  match t.form, ptr with
  | .other, _ => [.reject]
  | _, .nul _ | .bool, .at _ => []
  | .w64, .at view => if headWidth view = 2 ∧ Lost view then [.stray] else []
  | .w32, .at view => if headWidth view = 1 ∧ Lost view then [.stray] else []
  | .str, .at view =>
    if headWidth view = 0 then []
    else if Lost view then strayBehind (headSize view)
    else (cells view).flatMap fun cell => if loose (bytesOf (linked cell)) then [.stray] else []
  | .message name, .at view =>
    if headWidth view = 0 then []
    else if Lost view then .call name Ptr.null :: strayBehind (headSize view)
    else (cells view).flatMap fun cell => after (Field.getObject true ⟨.at cell, headWidth view⟩)
      fun q =>
      [.call name q]

/-- The step of the key of a pair. -/
def keySteps (t : FieldType) : List Step :=
  match t.keyForm with
  | .str | .w64 | .w32 => []
  | _ => [.reject]

/-- The pairs of a map. -/
def pairs (m : MapView) (n : ℕ) : List (Field × Field) :=
  (List.range n).map fun i => pairAt m (m.body.add ((m.keyWidth + m.valueWidth) * i))

/-- The steps of a map. -/
def mapSteps (key value : FieldType) (ptr : Ptr) : List Step :=
  after (openMap true ptr) fun m =>
    if m.body = Ptr.null then [.reject]
    else after m.index.size fun n => (pairs m n).flatMap fun pair =>
      keySteps key ++ singleSteps value pair.2

/-- The steps of a field of a message. -/
def fieldSteps (view : List UInt32) (f : FieldDescriptor) : List Step :=
  if f.deprecated then []
  else after (getField true view (f.number - 1)) fun src =>
    if src.ptr = Ptr.null then []
    else
      match f.kind with
      | .single t => singleSteps t src
      | .repeated t => after (src.getObject true) (arraySteps t)
      | .map key value => after (src.getObject true) (mapSteps key value)

/-- The steps of a message. -/
def messageSteps (fields : List FieldDescriptor) (ptr : Ptr) : List Step :=
  match aliasField fields with
  | some f =>
    match f.kind with
    | .single _ => [.reject]
    | .repeated t => arraySteps t ptr
    | .map key value => mapSteps key value ptr
  | none => after (openMessage true ptr) fun
    | none => [.reject]
    | some view => fields.flatMap (fieldSteps view)

/-! ## Running the steps -/

/-- A pointer that views are made of: null, or to a word of the buffer. -/
def Placed (ptr : Ptr) : Prop := ptr = Ptr.null ∨ ∃ view, view ≠ [] ∧ ptr = .at view

/-- The steps, with the reader of messages for the calls. -/
def runSteps (rec : Reader) : List Step → Res PUnit
  | [] => .ok ()
  | .call name ptr :: steps => do
    let _ ← rec name ptr
    runSteps rec steps
  | .reject :: _ => .error .reject
  | .stray :: _ => .error .fault

/-- But for its result, the call runs the steps, and calls for messages in the buffer only. -/
structure Runs {α : Type} (rec : Reader) (x : Res α) (steps : List Step) : Prop where
  eq : (do let _ ← x; return ()) = runSteps rec steps
  placed : ∀ callee q, .call callee q ∈ steps → Placed q

theorem runSteps_append (rec : Reader) (l l' : List Step) :
    runSteps rec (l ++ l') = (do runSteps rec l; runSteps rec l') := by
  induction l with
  | nil => rfl
  | cons s l ih =>
    cases s with
    | reject => rfl
    | stray => rfl
    | call name ptr =>
      rw [List.cons_append, runSteps, runSteps, ih]
      cases rec name ptr <;> rfl

section

variable {α β γ : Type} {rec : Reader}

theorem Runs.ok (a : α) : Runs rec (.ok a) [] := ⟨rfl, fun _ _ h => absurd h List.not_mem_nil⟩

theorem Runs.reject : Runs rec (.error .reject : Res α) [.reject] :=
  ⟨rfl, fun _ _ h => Step.noConfusion (List.mem_singleton.1 h)⟩

theorem Runs.stray : Runs rec (.error .fault : Res α) [.stray] :=
  ⟨rfl, fun _ _ h => Step.noConfusion (List.mem_singleton.1 h)⟩

theorem Runs.call (name : ℕ) {ptr : Ptr} (h : Placed ptr) :
    Runs rec (rec name ptr) [.call name ptr] := by
  refine ⟨?_, fun callee q hq => ?_⟩
  · rw [runSteps]
    cases rec name ptr <;> rfl
  · cases List.mem_singleton.1 hq
    exact h

/-- One call after another. -/
theorem Runs.seq {x : Res α} {y : Res β} {l l' : List Step} (h : Runs rec x l) (h' : Runs rec y l')
    (g : α → β → γ) : Runs rec (do let a ← x; let b ← y; return g a b) (l ++ l') := by
  refine
    ⟨?_, fun callee q hq => (List.mem_append.1 hq).elim (h.placed callee q) (h'.placed callee q)⟩
  rw [runSteps_append, ← h.eq, ← h'.eq]
  cases x with
  | error e => rfl
  | ok a => cases y <;> rfl

theorem Runs.map {x : Res α} {l : List Step} (h : Runs rec x l) (g : α → β) :
    Runs rec (do let a ← x; return g a) l := by
  refine ⟨?_, h.placed⟩
  rw [← h.eq]
  cases x <;> rfl

/-- An access that has a result, and what follows. -/
theorem Runs.after {x : Res α} {f : α → Res β} {steps : α → List Step} (hx : ∃ a, x = .ok a)
    (h : ∀ a, x = .ok a → Runs rec (f a) (steps a)) :
    Runs rec (x >>= f) (Extension.after x steps) := by
  obtain ⟨a, rfl⟩ := hx
  exact h a rfl

/-- An access that has a result is no step. -/
theorem Runs.access {x : Res α} (h : ∃ a, x = .ok a) : Runs rec x [] := by
  obtain ⟨a, rfl⟩ := h
  exact .ok a

theorem Ptr.add_add (ptr : Ptr) (j k : ℕ) : (ptr.add j).add k = ptr.add (j + k) := by
  rcases ptr with view | off
  · exact congrArg Ptr.at List.drop_drop
  · exact congrArg Ptr.nul (Nat.add_assoc off j k)

/-- A loop over cells. -/
theorem Runs.forCells {f : Field → Res α} {steps : ℕ → List Step} {width : ℕ} (n : ℕ) (ptr : Ptr)
    (h : ∀ i < n, Runs rec (f ⟨ptr.add (width * i), width⟩) (steps i)) :
    Runs rec (forCells f width n ptr) ((List.range n).flatMap steps) := by
  induction n generalizing ptr steps with
  | zero => exact .ok []
  | succ n ih =>
    have hzero : ptr.add (width * 0) = ptr := by
      rcases ptr with view | off <;> rfl
    have hsucc : ∀ i, ptr.add (width * (i + 1)) = (ptr.add width).add (width * i) := by
      intro i
      rw [Ptr.add_add, Nat.mul_succ, Nat.add_comm width]
    have hfirst := h 0 (Nat.succ_pos n)
    rw [hzero] at hfirst
    rw [ProtoCache.forCells, List.range_succ_eq_map, List.flatMap_cons, List.flatMap_map]
    refine hfirst.seq (ih _ fun i hi => ?_) _
    rw [← hsucc]
    exact h (i + 1) (Nat.succ_lt_succ hi)

/-- A loop over cells that all have a result. -/
theorem Runs.cells {f : Field → Res α} {width : ℕ} (n : ℕ) (ptr : Ptr)
    (h : ∀ i < n, ∃ a, f ⟨ptr.add (width * i), width⟩ = .ok a) :
    Runs rec (ProtoCache.forCells f width n ptr) [] := by
  have hcells : Runs rec (ProtoCache.forCells f width n ptr) ((List.range n).flatMap fun _ => []) :=
    Runs.forCells n ptr fun i hi => Runs.access (h i hi)
  rwa [List.flatMap_eq_nil_iff.2 fun _ _ => rfl] at hcells

end

/-! ## Fields in the buffer -/

/-- The words of the field are in the buffer. -/
def Held (f : Field) : Prop := ∃ u, f.ptr = .at u ∧ f.width ≤ u.length

namespace Held

variable {f : Field}

theorem getValue_eq (h : Held f) (bounded : Bool) : f.getValue bounded = (f.ptr, f.width) := by
  obtain ⟨u, hu, hle⟩ := h
  rw [Field.getValue, hu, Ptr.exceeds, if_neg]
  rw [Bool.and_eq_true, decide_eq_true_eq]
  exact fun h => absurd h.2 (Nat.not_lt.2 hle)

theorem get32_ok (h : Held f) (bounded : Bool) : ∃ a, f.get32 bounded = .ok a := by
  rw [Field.get32, h.getValue_eq]
  obtain ⟨u, hu, hle⟩ := h
  dsimp only
  split
  · exact ⟨0, rfl⟩
  · obtain ⟨x, rest, rfl⟩ := List.exists_cons_of_length_pos (l := u) (by omega)
    exact ⟨x, by rw [hu]; rfl⟩

theorem get64_ok (h : Held f) (bounded : Bool) : ∃ a, f.get64 bounded = .ok a := by
  rw [Field.get64, h.getValue_eq]
  obtain ⟨u, hu, hle⟩ := h
  dsimp only
  split
  · exact ⟨0, rfl⟩
  · obtain ⟨x, rest, rfl⟩ := List.exists_cons_of_length_pos (l := u) (by omega)
    obtain ⟨y, rest, rfl⟩ := List.exists_cons_of_length_pos (l := rest) (by
      rw [List.length_cons] at hle
      omega)
    exact ⟨_, by rw [hu]; rfl⟩

theorem getBool_ok (h : Held f) (bounded : Bool) : ∃ a, f.getBool bounded = .ok a := by
  rw [Field.getBool, h.getValue_eq]
  obtain ⟨u, hu, hle⟩ := h
  dsimp only
  split
  · exact ⟨false, rfl⟩
  · obtain ⟨x, rest, rfl⟩ := List.exists_cons_of_length_pos (l := u) (by omega)
    exact ⟨_, by rw [hu]; rfl⟩

theorem getString_ok (h : Held f) : ∃ a, (f.getString true >>= ByteSlice.get) = .ok a := by
  obtain ⟨u, hu, hle⟩ := h
  obtain ⟨str, hstr, hget⟩ := getString_safe hu hle
  rw [hstr, Res.ok_bind]
  cases str with
  | none => exact ⟨[], rfl⟩
  | some s => exact hget s rfl

/-- The object of a field is in the buffer, or there is none. -/
theorem getObject_placed (h : Held f) : ∃ q, f.getObject true = .ok q ∧ Placed q := by
  obtain ⟨u, hu, -⟩ := h
  rw [Field.getObject, hu]
  cases u with
  | nil => exact ⟨Ptr.null, rfl, .inl rfl⟩
  | cons w rest =>
    have hreaches : ∀ ptr : Ptr, (∃ view, ptr = .at view) →
        Placed (if ptr.reaches true then Ptr.null else ptr) := by
      rintro _ ⟨view, rfl⟩
      cases view with
      | nil => exact .inl rfl
      | cons w rest => exact .inr ⟨w :: rest, List.cons_ne_nil _ _, rfl⟩
    refine ⟨_, rfl, hreaches _ ?_⟩
    -- The link, if it is one, leads on from the field.
    split
    · exact ⟨_, rfl⟩
    · exact ⟨_, rfl⟩

end Held

/-! ## Views that have a result -/

/-- A message. -/
theorem Placed.openMessage_ok {ptr : Ptr} (h : Placed ptr) : ∃ o, openMessage true ptr = .ok o := by
  rcases h with rfl | ⟨view, hview, rfl⟩
  · exact ⟨none, rfl⟩
  · obtain ⟨w, rest, rfl⟩ := List.exists_cons_of_ne_nil hview
    rw [openMessage, Ptr.load, List.head?_cons, access_some, Res.ok_bind]
    split
    · exact ⟨none, rfl⟩
    · exact ⟨_, rfl⟩

/-- A map. -/
theorem Placed.openMap_ok {ptr : Ptr} (h : Placed ptr) : ∃ m, openMap true ptr = .ok m := by
  rcases h with rfl | ⟨view, hview, rfl⟩
  · exact ⟨{}, rfl⟩
  · obtain ⟨w, rest, rfl⟩ := List.exists_cons_of_ne_nil hview
    by_cases hfits : IndexFits (w :: rest)
    · exact ⟨_, openMap_of_fits hfits⟩
    · exact ⟨_, openMap_of_not_fits hfits⟩

/-- The bytes of a string, at the end that it is told. -/
theorem Placed.readString_ok {ptr : Ptr} (h : Placed ptr) :
    ∃ bytes, (readString true ptr >>= ByteSlice.get) = .ok bytes := by
  rcases h with rfl | ⟨view, -, rfl⟩
  · exact ⟨[], rfl⟩
  · obtain ⟨str, hstr, hsize⟩ := readString_safe view
    rw [hstr, Res.ok_bind]
    cases str with
    | none => exact ⟨[], rfl⟩
    | some s => exact ⟨_, by rw [ByteSlice.get, Storage.load_of_le (hsize s rfl).2]; rfl⟩

/-- An array: there is no body if it leaves the buffer. -/
theorem openArray_placed {view : List UInt32} (h : view ≠ []) :
    openArray true (.at view) =
      .ok ⟨if headWidth view = 0 ∨ Lost view then Ptr.null else .at (view.drop 1), headSize view,
        headWidth view⟩ := by
  obtain ⟨w, rest, rfl⟩ := List.exists_cons_of_ne_nil h
  have hexceeds :
    (Ptr.at (w :: rest)).exceeds true (1 + headWidth (w :: rest) * headSize (w :: rest)) = true ↔
      Lost (w :: rest) := by
    rw [Ptr.exceeds, Bool.true_and, decide_eq_true_eq, Lost]
  rw [openArray, if_neg (by simp [Ptr.null]), Ptr.load, List.head?_cons, access_some, Res.ok_bind]
  by_cases hbody : headWidth (w :: rest) = 0 ∨ Lost (w :: rest)
  · rw [if_pos hbody]
    exact if_pos (hbody.imp_right hexceeds.2)
  · rw [if_neg hbody]
    exact if_neg fun h => hbody (h.imp_right hexceeds.1)

/-- The cells of an array that does not leave the buffer are in it. -/
theorem held_of_not_lost {view : List UInt32} (hview : view ≠ []) (h : ¬Lost view) {i : ℕ}
    (hi : i < headSize view) :
    Held ⟨(Ptr.at (view.drop 1)).add (headWidth view * i), headWidth view⟩ := by
  have hpos := List.length_pos_iff.2 hview
  have hle := Nat.le_of_not_lt h
  have hcell : headWidth view * (i + 1) ≤ headWidth view * headSize view := Nat.mul_le_mul_left _ hi
  rw [Nat.mul_succ] at hcell
  refine ⟨_, rfl, ?_⟩
  rw [List.length_drop, List.length_drop]
  dsimp only
  omega

/-- An array that leaves the buffer announces an element. -/
theorem Lost.pos {view : List UInt32} (h : Lost view) (hview : view ≠ []) :
    ∃ n, headSize view = n + 1 := by
  refine Nat.exists_eq_succ_of_ne_zero fun hzero => ?_
  rw [Lost, hzero, Nat.mul_zero] at h
  exact absurd h (Nat.not_lt.2 (List.length_pos_iff.2 hview))

/-- The pairs of a map with a body are in the buffer. -/
theorem openMap_held {ptr : Ptr} {m : MapView} (h : openMap true ptr = .ok m)
    (hbody : m.body ≠ Ptr.null) :
    ∃ n, m.index.size = .ok n ∧ ∀ i < n,
      Held (pairAt m (m.body.add ((m.keyWidth + m.valueWidth) * i))).1 ∧
      Held (pairAt m (m.body.add ((m.keyWidth + m.valueWidth) * i))).2 := by
  rcases ptr with view | _ | off
  · obtain ⟨n, k, hn, -, hat, -, -, hle⟩ :=
      @openMap_accepted (fun _ _ => ⟨0, 0, 0, 0⟩) view m h hbody
    refine ⟨n, hn, fun i hi => ?_⟩
    have hpair : (m.keyWidth + m.valueWidth) * (i + 1) ≤ (m.keyWidth + m.valueWidth) * n :=
      Nat.mul_le_mul_left _ hi
    rw [Nat.mul_succ] at hpair
    rw [hat]
    refine ⟨⟨_, rfl, ?_⟩, ⟨_, rfl, ?_⟩⟩
    · rw [List.length_drop, List.length_drop, pairAt]
      dsimp only
      omega
    · rw [List.length_drop, List.length_drop, List.length_drop, pairAt]
      dsimp only
      omega
  · cases h
    exact absurd rfl hbody
  · cases h

/-! ## Strings without an end -/

/-- The loop over the mark of a string, with `k` bytes to go: it adds up the groups of the mark, up
    to the last one. -/
theorem stringMark_eq {k sft : ℕ} (hsft : sft + 7 * k = 35) {mark : ℕ} (hmark : mark < 2 ^ sft)
    (p : List UInt8) :
    stringMark false sft mark p =
      match Varint.decode k p with
      | none => if p.length < k then .error .fault else .ok none
      | some (n, rest) => .ok (some ⟨rest, (mark + n * 2 ^ sft) / 4⟩) := by
  induction k generalizing sft mark p with
  | zero =>
    have hge : ¬sft < 32 := by omega
    cases p with
    | nil => exact if_neg fun h => hge h.1
    | cons b p => exact if_neg hge
  | succ k ih =>
    have hlt : sft < 32 := by omega
    cases p with
    | nil =>
      rw [stringMark, if_pos ⟨hlt, rfl⟩]
      exact (if_pos (Nat.succ_pos k)).symm
    | cons b p =>
      obtain ⟨htop, hlow, -, -⟩ := byte_top b
      rw [stringMark, if_pos hlt, Varint.decode]
      by_cases hlast : b.toNat < 128
      · rw [if_neg (not_not.2 (htop.2 hlast)), if_pos hlast, if_neg fun h => Bool.false_ne_true h.1,
          Varint.or_shiftLeft hmark, Nat.shiftRight_eq_div_pow]
      · have hgroup : b.toNat % 128 * 2 ^ sft ≤ 127 * 2 ^ sft := Nat.mul_le_mul_right _ (by omega)
        have hpow : 2 ^ (sft + 7) = 128 * 2 ^ sft := by rw [pow_add, Nat.mul_comm]; rfl
        rw [if_pos fun h => hlast (htop.1 h), if_neg hlast, hlow, Varint.or_shiftLeft hmark,
          ih (by omega) (by omega : mark + b.toNat % 128 * 2 ^ sft < 2 ^ (sft + 7)) p]
        cases Varint.decode k p with
        | none =>
          rw [List.length_cons]
          exact if_congr Nat.succ_lt_succ_iff.symm rfl rfl
        | some r =>
          have hsum : mark + b.toNat % 128 * 2 ^ sft + r.1 * 2 ^ (sft + 7) =
              mark + (b.toNat % 128 + 128 * r.1) * 2 ^ sft := by
            rw [hpow]
            ring
          exact congrArg (fun size => Except.ok (some (⟨r.2, size / 4⟩ : ByteSlice))) hsum

/-- Reading bytes leaves the buffer, or has a result. -/
def Loads : (leaves : Bool) → Res (List UInt8) → Prop
  | true, x => x = .error .fault
  | false, x => ∃ bytes, x = .ok bytes

/-- Bytes are read outside the buffer if there are too few of them. -/
theorem loads_some (rest : List UInt8) (size : ℕ) :
    Loads (rest.length < size) (ByteSlice.get (some ⟨rest, size⟩)) := by
  rw [ByteSlice.get, Storage.load]
  by_cases hlt : rest.length < size
  · rw [decide_eq_true hlt, if_neg (Nat.not_le.2 hlt)]
    rfl
  · rw [decide_eq_false hlt, if_pos (Nat.le_of_not_lt hlt)]
    exact ⟨_, rfl⟩

/-- A string that is told no end is read outside the buffer if it is loose. -/
theorem readString_loads (view : List UInt32) :
    Loads (loose (bytesOf view)) (readString false (.at view) >>= ByteSlice.get) := by
  have hnot : ¬(Ptr.at view = Ptr.null ∨ (Ptr.at view).reaches false = true) := by
    rintro (h | h)
    · cases h
    · cases h
  rw [readString, if_neg hnot]
  dsimp only
  cases bytesOf view with
  | nil => rfl
  | cons b p =>
    obtain ⟨htop, hlow, -, hquarter⟩ := byte_top b
    rw [loose]
    by_cases hmark : b &&& 3 = 0
    swap
    · -- There is no string here.
      rw [decide_eq_false hmark, Bool.false_and]
      dsimp only
      rw [if_pos hmark]
      exact ⟨[], rfl⟩
    rw [decide_eq_true hmark, Bool.true_and, Varint.decode]
    dsimp only
    rw [if_neg (not_not.2 hmark)]
    by_cases hlast : b.toNat < 128
    · -- The first byte is all of the mark.
      rw [if_pos (htop.2 hlast), if_pos hlast, if_neg fun h => Bool.false_ne_true h.1, hquarter]
      exact loads_some p (b.toNat / 4)
    have hgroup : b.toNat % 128 < 2 ^ 7 := Nat.mod_lt _ (by decide)
    rw [if_neg fun h => hlast (htop.1 h), if_neg hlast, hlow, stringMark_eq (k := 4) rfl hgroup p]
    cases Varint.decode 4 p with
    | none =>
      dsimp only [Option.map_none]
      by_cases hcut : p.length < 4
      · rw [if_pos hcut, decide_eq_true hcut]
        rfl
      · rw [if_neg hcut, decide_eq_false hcut]
        exact ⟨[], rfl⟩
    | some r =>
      have hsum : b.toNat % 128 + 128 * r.1 = b.toNat % 128 + r.1 * 2 ^ 7 := by
        rw [Nat.mul_comm 128]; rfl
      dsimp only [Option.map_some]
      rw [hsum]
      exact loads_some r.2 ((b.toNat % 128 + r.1 * 2 ^ 7) / 4)

/-- A cell that is told no end leads to what it stands for. -/
theorem getObject_linked {cell : List UInt32} (h : cell ≠ []) (width : ℕ) :
    Field.getObject false ⟨.at cell, width⟩ = .ok (.at (linked cell)) := by
  obtain ⟨w, rest, rfl⟩ := List.exists_cons_of_ne_nil h
  rw [Field.getObject, linked]
  by_cases hlink : w &&& 3 = 3
  · rw [List.headD_cons, if_pos hlink]
    change (Except.ok (if (if w &&& 3 = 3 then _ else _ : Ptr).reaches false = true then _ else _) :
      Res Ptr) = _
    rw [if_pos hlink]
    rfl
  · rw [List.headD_cons, if_neg hlink]
    change (Except.ok (if (if w &&& 3 = 3 then _ else _ : Ptr).reaches false = true then _ else _) :
      Res Ptr) = _
    rw [if_neg hlink]
    rfl

/-! ## Reading runs the steps -/

section

variable (rec : Reader)

theorem deserializeSingle_runs (t : FieldType) {src : Field} (h : Held src) :
    Runs rec (deserializeSingle rec true t src) (singleSteps t src) := by
  rw [deserializeSingle, singleSteps]
  cases t.form with
  | message name =>
    refine Runs.after (h.getObject_placed.imp fun q hq => hq.1) fun q hq => Runs.call name ?_
    obtain ⟨q', hq', hplaced⟩ := h.getObject_placed
    obtain rfl : q = q' := Except.ok.inj (hq.symm.trans hq')
    exact hplaced
  | str =>
    obtain ⟨bytes, hbytes⟩ := h.getString_ok
    dsimp only
    rw [← bind_assoc, hbytes]
    exact .ok _
  | w64 => exact (Runs.access (h.get64_ok true)).map _
  | w32 => exact (Runs.access (h.get32_ok true)).map _
  | bool => exact (Runs.access (h.getBool_ok true)).map _
  | other => exact .reject

/-- The moved null pointer of a second cell is loaded. -/
theorem getObject_nul {off : ℕ} (bounded : Bool) (hoff : off ≠ 0) (width : ℕ) :
    (⟨.nul off, width⟩ : Field).getObject bounded = .error .fault := by
  have hmoved : ¬Ptr.nul off = Ptr.null := fun h => hoff (Ptr.nul.inj h)
  rw [Field.getObject, Ptr.reaches, if_neg Bool.false_ne_true, if_neg hmoved]
  rfl

/-- A loop over an array that has no body: the first cell is a null pointer, the second
    makes it stray. -/
theorem Runs.lost {α : Type} {f : Field → Res α} {width size : ℕ} {l : List Step}
    (hsize : ∃ n, size = n + 1) (hfirst : Runs rec (f ⟨Ptr.null, width⟩) l)
    (hsecond : f ⟨.nul width, width⟩ = .error .fault) :
    Runs rec (ProtoCache.forCells f width size Ptr.null) (l ++ strayBehind size) := by
  obtain ⟨n, rfl⟩ := hsize
  rw [ProtoCache.forCells]
  refine hfirst.seq ?_ _
  rw [strayBehind]
  cases n with
  | zero => exact .ok []
  | succ n =>
    have hnext : Ptr.null.add width = .nul width := congrArg Ptr.nul (Nat.zero_add width)
    rw [if_pos (by omega), ProtoCache.forCells, hnext, hsecond]
    exact .stray

/-- Numbers of `k` words. -/
theorem numbers_runs {α : Type} {f : Field → Res α} {k : ℕ} {view : List UInt32} (hview : view ≠ [])
    (hk : k ≠ 0) (hheld : ∀ src : Field, Held src → ∃ a, f src = .ok a)
    (hlost : f ⟨Ptr.null, k⟩ = .error .fault) :
    Runs rec (openArray true (.at view) >>= fun a => a.numbers k f)
      (if headWidth view = k ∧ Lost view then [.stray] else []) := by
  rw [openArray_placed hview, Res.ok_bind, ArrayView.numbers]
  by_cases hwidth : headWidth view = k
  swap
  · rw [if_pos hwidth, if_neg fun h => hwidth h.1]
    exact .ok []
  rw [if_neg (not_not.2 hwidth)]
  by_cases hleaves : Lost view
  · -- The first number is loaded from the null pointer.
    obtain ⟨n, hsize⟩ := hleaves.pos hview
    have hand : headWidth view = k ∧ Lost view := ⟨hwidth, hleaves⟩
    rw [if_pos hand, if_pos (Or.inr hleaves), hsize, ProtoCache.forCells, hlost]
    exact .stray
  · have hand : ¬(headWidth view = k ∧ Lost view) := fun h => hleaves h.2
    have hor : ¬(headWidth view = 0 ∨ Lost view) :=
      fun h => h.elim (fun h0 => hk (hwidth.symm.trans h0)) hleaves
    rw [if_neg hand, if_neg hor]
    refine Runs.cells (headSize view) _ fun i hi => hheld _ ?_
    rw [← hwidth]
    exact held_of_not_lost hview hleaves hi

/-- The messages of an array. -/
theorem messages_runs {view : List UInt32} (hview : view ≠ []) (name : ℕ) :
    Runs rec (openArray true (.at view) >>= fun a => a.forEach fun one =>
      do rec name (← one.getObject true))
      (if headWidth view = 0 then []
      else if Lost view then .call name Ptr.null :: strayBehind (headSize view)
      else (cells view).flatMap fun cell => after (Field.getObject true ⟨.at cell, headWidth view⟩)
        fun q =>
        [.call name q]) := by
  rw [openArray_placed hview, Res.ok_bind, ArrayView.forEach]
  by_cases hwidth : headWidth view = 0
  · rw [if_pos hwidth, if_pos hwidth]
    exact .ok []
  rw [if_neg hwidth, if_neg hwidth]
  by_cases hleaves : Lost view
  · rw [if_pos hleaves, if_pos (.inr hleaves)]
    refine Runs.lost rec (hleaves.pos hview) (l := [.call name Ptr.null])
      (Runs.call name (.inl rfl)) ?_
    rw [getObject_nul true hwidth]
    rfl
  · rw [if_neg hleaves, if_neg fun h => h.elim hwidth hleaves, cells, List.flatMap_map]
    refine Runs.forCells (headSize view) _ fun i hi => ?_
    obtain ⟨q, hq, hplaced⟩ := (held_of_not_lost hview hleaves hi).getObject_placed
    refine Runs.after ⟨q, hq⟩ fun q' hq' => Runs.call name ?_
    obtain rfl : q = q' := Except.ok.inj (hq.symm.trans hq')
    exact hplaced

/-- The strings of an array. -/
theorem strings_runs {α : Type} {view : List UInt32} (hview : view ≠ []) (g : List UInt8 → α) :
    Runs rec (openArray true (.at view) >>= fun a => a.forEach fun one => do
        return g (← ByteSlice.get (← one.getString false)))
      (if headWidth view = 0 then []
      else if Lost view then strayBehind (headSize view)
      else (cells view).flatMap fun cell => if loose (bytesOf (linked cell)) then [.stray]
        else []) := by
  rw [openArray_placed hview, Res.ok_bind, ArrayView.forEach]
  by_cases hwidth : headWidth view = 0
  · rw [if_pos hwidth, if_pos hwidth]
    exact .ok []
  rw [if_neg hwidth, if_neg hwidth]
  by_cases hleaves : Lost view
  · rw [if_pos hleaves, if_pos (.inr hleaves)]
    refine Runs.lost rec (hleaves.pos hview) (l := []) (.ok (g [])) ?_
    rw [Field.getString, getObject_nul false hwidth]
    rfl
  · rw [if_neg hleaves, if_neg fun h => h.elim hwidth hleaves, cells, List.flatMap_map]
    -- Each cell holds what is loaded from it; the string that it leads to may be cut off.
    have hcell : ∀ i < headSize view, Runs rec
        (do return g (← ByteSlice.get (← Field.getString false
              ⟨(Ptr.at (view.drop 1)).add (headWidth view * i), headWidth view⟩)))
        (if loose (bytesOf (linked ((view.drop 1).drop (headWidth view * i)))) then [.stray]
          else []) := by
      intro i hi
      obtain ⟨u, hu, hle⟩ := held_of_not_lost hview hleaves hi
      obtain rfl : (view.drop 1).drop (headWidth view * i) = u := Ptr.at.inj hu
      have hne : (view.drop 1).drop (headWidth view * i) ≠ [] := by
        rintro h
        rw [h] at hle
        exact hwidth (Nat.le_zero.1 hle)
      have hloads := readString_loads (linked ((view.drop 1).drop (headWidth view * i)))
      rw [Field.getString, Ptr.add, getObject_linked hne, Res.ok_bind, ← bind_assoc]
      cases hloose : loose (bytesOf (linked ((view.drop 1).drop (headWidth view * i)))) with
      | true =>
        rw [hloose] at hloads
        rw [if_pos rfl, show (readString false _ >>= ByteSlice.get) = .error .fault from hloads]
        exact .stray
      | false =>
        rw [hloose] at hloads
        obtain ⟨bytes, hbytes⟩ := hloads
        rw [if_neg Bool.false_ne_true, hbytes]
        exact .ok _
    exact Runs.forCells (headSize view) _ hcell

/-- The elements of an array. -/
theorem deserializeArray_runs (t : FieldType) {ptr : Ptr} (h : Placed ptr) :
    Runs rec (deserializeArray rec true t ptr) (arraySteps t ptr) := by
  unfold deserializeArray arraySteps
  rcases h with rfl | ⟨view, hview, rfl⟩
  · -- Without an array, there is nothing to go through.
    cases t.form with
    | other => exact .reject
    | message name => exact .ok []
    | str => exact .ok []
    | w64 => exact .ok []
    | w32 => exact .ok []
    | bool => exact .ok []
  cases t.form with
  | message name => exact messages_runs rec hview name
  | str => exact strings_runs rec hview Value.str
  | w64 =>
    refine numbers_runs rec hview two_ne_zero (fun src h => ?_) rfl
    obtain ⟨x, hx⟩ := h.get64_ok false
    exact ⟨.w64 x, by rw [hx]; rfl⟩
  | w32 =>
    refine numbers_runs rec hview one_ne_zero (fun src h => ?_) rfl
    obtain ⟨x, hx⟩ := h.get32_ok false
    exact ⟨.w32 x, by rw [hx]; rfl⟩
  | bool =>
    have hplaced : Placed (.at view) := .inr ⟨view, hview, rfl⟩
    obtain ⟨bytes, hbytes⟩ := hplaced.readString_ok
    dsimp only
    rw [← bind_assoc, hbytes]
    exact .ok _
  | other => exact .reject

/-- The keys of a map. -/
theorem deserializeKey_runs (t : FieldType) {src : Field} (h : Held src) :
    Runs rec (deserializeKey true t src) (keySteps t) := by
  rw [deserializeKey, keySteps]
  cases t.keyForm with
  | str =>
    obtain ⟨bytes, hbytes⟩ := h.getString_ok
    dsimp only
    rw [← bind_assoc, hbytes]
    exact .ok _
  | w64 => exact (Runs.access (h.get64_ok true)).map _
  | w32 => exact (Runs.access (h.get32_ok true)).map _
  | message name => exact .reject
  | bool => exact .reject
  | other => exact .reject

theorem deserializeMap_runs (key value : FieldType) {ptr : Ptr} (h : Placed ptr) :
    Runs rec (deserializeMap rec true key value ptr) (mapSteps key value ptr) := by
  rw [deserializeMap, mapSteps]
  refine Runs.after h.openMap_ok fun m hm => ?_
  by_cases hbody : m.body = Ptr.null
  · rw [if_pos hbody, if_pos hbody]
    exact .reject
  · rw [if_neg hbody, if_neg hbody, MapView.forEach]
    obtain ⟨n, hn, hheld⟩ := openMap_held hm hbody
    refine Runs.after ⟨n, hn⟩ fun n' hn' => ?_
    obtain rfl : n = n' := Except.ok.inj (hn.symm.trans hn')
    rw [pairs, List.flatMap_map]
    refine Runs.forCells n m.body fun i hi => ?_
    exact (deserializeKey_runs rec key (hheld i hi).1).seq
      (deserializeSingle_runs rec value (hheld i hi).2) _

/-- The fields of a message whose sections are in the buffer. -/
theorem deserializeField_runs {view : List UInt32} (hview : view ≠ []) (hcut : ¬Cut view)
    (f : FieldDescriptor) :
    Runs rec (deserializeField rec true view f) (fieldSteps view f) := by
  rw [deserializeField, fieldSteps]
  split
  · exact .ok _
  · obtain ⟨src, hsrc, hinside⟩ := getField_inside hview hcut (f.number - 1)
    refine Runs.after ⟨src, hsrc⟩ fun src' hsrc' => ?_
    obtain rfl : src = src' := Except.ok.inj (hsrc.symm.trans hsrc')
    by_cases hnull : src.ptr = Ptr.null
    · rw [if_pos hnull, if_pos hnull]
      exact .ok _
    · rw [if_neg hnull, if_neg hnull]
      have hheld : Held src := by
        rcases hinside with rfl | ⟨k, -, hptr, hle⟩
        · exact absurd rfl hnull
        · exact ⟨_, hptr, by rw [List.length_drop]; omega⟩
      obtain ⟨q, hq, hplaced⟩ := hheld.getObject_placed
      cases f.kind with
      | single t => exact (deserializeSingle_runs rec t hheld).map _
      | repeated t =>
        refine Runs.after ⟨q, hq⟩ fun q' hq' => ?_
        obtain rfl : q = q' := Except.ok.inj (hq.symm.trans hq')
        exact (deserializeArray_runs rec t hplaced).map _
      | map key value =>
        refine Runs.after ⟨q, hq⟩ fun q' hq' => ?_
        obtain rfl : q = q' := Except.ok.inj (hq.symm.trans hq')
        exact (deserializeMap_runs rec key value hplaced).map _

/-- A message that was opened has its sections in the buffer. -/
theorem openMessage_some {ptr : Ptr} {view : List UInt32}
    (h : openMessage true ptr = .ok (some view)) :
    view ≠ [] ∧ ¬Cut view := by
  rcases ptr with view' | _ | off
  · rw [openMessage] at h
    obtain ⟨w, hw, h⟩ := Res.bind_eq_ok.1 h
    split at h
    · cases h
    · next hin =>
      cases h
      rcases view with _ | ⟨w', rest⟩
      · cases hw
      · cases hw
        refine ⟨List.cons_ne_nil _ _, not_cut_iff.2 (Nat.le_of_not_lt fun hlt => hin ?_)⟩
        rw [Ptr.exceeds, Bool.true_and, decide_eq_true_eq]
        exact hlt
  · cases h
  · cases h

/-- Reading a message runs its steps: nothing but these leaves the buffer. -/
theorem deserializeMessage_runs (fields : List FieldDescriptor) {ptr : Ptr} (h : Placed ptr) :
    Runs rec (deserializeMessage rec true fields ptr) (messageSteps fields ptr) := by
  rw [deserializeMessage, messageSteps]
  cases aliasField fields with
  | some f =>
    dsimp only
    cases f.kind with
    | single t => exact .reject
    | repeated t => exact (deserializeArray_runs rec t h).map _
    | map key value => exact (deserializeMap_runs rec key value h).map _
  | none =>
    refine Runs.after h.openMessage_ok fun o ho => ?_
    cases o with
    | none => exact .reject
    | some view =>
      have hview := openMessage_some ho
      have hfields : ∀ fields, Runs rec (deserializeFields rec true view fields)
          (fields.flatMap (fieldSteps view)) := by
        intro fields
        induction fields with
        | nil => exact .ok []
        | cons f fields ih =>
          rw [deserializeFields, List.flatMap_cons]
          exact (deserializeField_runs rec hview.1 hview.2 f).seq ih _
      exact (hfields fields).map _

end

/-! ## Straying -/

section

variable (schema : Descriptors)

/-- `Deserialize` of a message returns true: all its steps are calls that return true. -/
inductive Accepted : ℕ → Ptr → Prop
  | calls {name : ℕ} {ptr : Ptr}
      (h : ∀ s ∈ messageSteps (schema name) ptr, ∃ callee q, s = .call callee q)
      (hcall : ∀ callee q, .call callee q ∈ messageSteps (schema name) ptr → Accepted callee q) :
        Accepted name ptr

/-- All these steps are calls that return true. -/
def AllAccepted (l : List Step) : Prop :=
  ∀ s ∈ l, ∃ callee q, s = .call callee q ∧ Accepted schema callee q

/-- `Deserialize` of a message leaves the buffer: after calls that return true, one of its
    steps does, or a call of it. -/
inductive Strays : ℕ → Ptr → Prop
  | here {name : ℕ} {ptr : Ptr} {before later : List Step} (hbefore : AllAccepted schema before)
      (h : messageSteps (schema name) ptr = before ++ .stray :: later) : Strays name ptr
  | inside {name callee : ℕ} {ptr q : Ptr} {before later : List Step}
      (hbefore : AllAccepted schema before)
      (h : messageSteps (schema name) ptr = before ++ .call callee q :: later)
        (hq : Strays callee q) :
      Strays name ptr

variable {schema} {rec : Reader}

theorem Runs.ok_iff {α : Type} {x : Res α} {l : List Step} (h : Runs rec x l) :
    (∃ a, x = .ok a) ↔ runSteps rec l = .ok () := by
  rw [← h.eq]
  cases x with
  | error e => exact iff_of_false (fun ⟨_, h⟩ => by cases h) (fun h => by cases h)
  | ok a => exact iff_of_true ⟨a, rfl⟩ rfl

theorem Runs.error_iff {α : Type} {x : Res α} {l : List Step} (h : Runs rec x l) (e : Stop) :
    x = .error e ↔ runSteps rec l = .error e := by
  rw [← h.eq]
  cases x with
  | error e' => exact ⟨fun h => by cases h; rfl, fun h => by cases h; rfl⟩
  | ok a => exact iff_of_false (fun h => by cases h) (fun h => by cases h)

/-- What is known of steps that were all run. -/
theorem calls_of_ok {l : List Step} (h : runSteps rec l = .ok ()) :
    ∀ s ∈ l, ∃ callee q, s = .call callee q ∧ ∃ v, rec callee q = .ok v := by
  induction l with
  | nil => exact fun s hs => absurd hs List.not_mem_nil
  | cons s l ih =>
    cases s with
    | reject => cases h
    | stray => cases h
    | call callee q =>
      obtain ⟨v, hv, h⟩ := Res.bind_eq_ok.1 h
      intro s hs
      rcases List.mem_cons.1 hs with rfl | hs
      · exact ⟨callee, q, rfl, v, hv⟩
      · exact ih h s hs

/-- Where the steps that are run leave the buffer. -/
theorem step_of_fault {l : List Step} (h : runSteps rec l = .error .fault) :
    ∃ before s later, l = before ++ s :: later ∧
      (∀ s ∈ before, ∃ callee q, s = .call callee q ∧ ∃ v, rec callee q = .ok v) ∧
      (s = .stray ∨ ∃ callee q, s = .call callee q ∧ rec callee q = .error .fault) := by
  induction l with
  | nil => cases h
  | cons s l ih =>
    cases s with
    | reject => cases h
    | stray => exact ⟨[], _, l, rfl, fun s hs => absurd hs List.not_mem_nil, .inl rfl⟩
    | call callee q =>
      rw [runSteps] at h
      cases hrec : rec callee q with
      | error e =>
        rw [hrec] at h
        cases h
        exact ⟨[], _, l, rfl, fun s hs => absurd hs List.not_mem_nil, .inr ⟨callee, q, rfl, hrec⟩⟩
      | ok v =>
        rw [hrec] at h
        obtain ⟨before, s, later, rfl, hbefore, hs⟩ := ih h
        refine ⟨.call callee q :: before, s, later, rfl, fun s hs => ?_, hs⟩
        rcases List.mem_cons.1 hs with rfl | hs
        · exact ⟨callee, q, rfl, v, hrec⟩
        · exact hbefore s hs

/-- Steps that are all read, as far as they go. -/
theorem runSteps_read {l : List Step} (h : ∀ s ∈ l, ∃ callee q, s = .call callee q ∧
      (rec callee q = .error .fuel ∨ ∃ v, rec callee q = .ok v)) :
    runSteps rec l = .error .fuel ∨ runSteps rec l = .ok () := by
  induction l with
  | nil => exact .inr rfl
  | cons s l ih =>
    obtain ⟨callee, q, rfl, hcall⟩ := h s List.mem_cons_self
    rw [runSteps]
    rcases hcall with hfuel | ⟨v, hv⟩
    · rw [hfuel]
      exact .inl rfl
    · rw [hv]
      exact ih fun s hs => h s (List.mem_cons_of_mem _ hs)

/-- A message that is read returns true, as far as the recursion goes. -/
theorem Accepted.deserialize {name : ℕ} {ptr : Ptr} (h : Accepted schema name ptr)
    (hplaced : Placed ptr) (fuel : ℕ) :
    Extension.deserialize schema true fuel name ptr = .error .fuel ∨
      ∃ v, Extension.deserialize schema true fuel name ptr = .ok v := by
  induction h generalizing fuel with
  | @calls name ptr h hcall ih =>
    cases fuel with
    | zero => exact .inl rfl
    | succ fuel =>
      have hruns :=
        deserializeMessage_runs (Extension.deserialize schema true fuel) (schema name) hplaced
      refine (runSteps_read fun s hs => ?_).imp (hruns.error_iff .fuel).2 hruns.ok_iff.2
      obtain ⟨callee, q, rfl⟩ := h s hs
      exact ⟨callee, q, rfl, ih callee q hs (hruns.placed callee q hs) fuel⟩

/-- Steps that are all accepted are passed, as far as the recursion goes. -/
theorem AllAccepted.runSteps {before later : List Step} {s : Step} {fuel : ℕ}
    (hbefore : AllAccepted schema before) (hplaced : ∀ callee q, .call callee q ∈ before → Placed q)
    (hs : Extension.runSteps (Extension.deserialize schema true fuel) (s :: later) = .error .fuel ∨
      Extension.runSteps (Extension.deserialize schema true fuel) (s :: later) = .error .fault) :
    Extension.runSteps (Extension.deserialize schema true fuel) (before ++ s :: later) =
      .error .fuel ∨
      Extension.runSteps (Extension.deserialize schema true fuel) (before ++ s :: later) =
        .error .fault := by
  rw [runSteps_append]
  have hread : ∀ s ∈ before, ∃ callee q, s = .call callee q ∧
      (Extension.deserialize schema true fuel callee q = .error .fuel ∨
        ∃ v, Extension.deserialize schema true fuel callee q = .ok v) := by
    intro s hs
    obtain ⟨callee, q, rfl, haccepted⟩ := hbefore s hs
    exact ⟨callee, q, rfl, haccepted.deserialize (hplaced callee q hs) fuel⟩
  rcases runSteps_read hread with hfuel | hok
  · rw [hfuel]
    exact .inl rfl
  · rw [hok]
    exact hs

/-- A message that strays faults, as far as the recursion goes. -/
theorem Strays.deserialize {name : ℕ} {ptr : Ptr} (h : Strays schema name ptr)
    (hplaced : Placed ptr) (fuel : ℕ) :
    Extension.deserialize schema true fuel name ptr = .error .fuel ∨
      Extension.deserialize schema true fuel name ptr = .error .fault := by
  induction h generalizing fuel with
  | @here name ptr before later hbefore h =>
    cases fuel with
    | zero => exact .inl rfl
    | succ fuel =>
      have hruns :=
        deserializeMessage_runs (Extension.deserialize schema true fuel) (schema name) hplaced
      rw [h] at hruns
      have hcalls : ∀ callee q, .call callee q ∈ before → Placed q :=
        fun callee q hq => hruns.placed callee q (List.mem_append_left _ hq)
      exact (hbefore.runSteps hcalls (.inr rfl)).imp (hruns.error_iff .fuel).2
        (hruns.error_iff .fault).2
  | @inside name callee ptr q before later hbefore h hq ih =>
    cases fuel with
    | zero => exact .inl rfl
    | succ fuel =>
      have hruns :=
        deserializeMessage_runs (Extension.deserialize schema true fuel) (schema name) hplaced
      rw [h] at hruns
      have hcalls : ∀ callee q, .call callee q ∈ before → Placed q :=
        fun callee q hq => hruns.placed callee q (List.mem_append_left _ hq)
      have hcallee := hruns.placed callee q (List.mem_append_right _ List.mem_cons_self)
      refine (hbefore.runSteps hcalls ?_).imp (hruns.error_iff .fuel).2 (hruns.error_iff .fault).2
      rw [runSteps]
      rcases ih hcallee fuel with hfuel | hfault
      · rw [hfuel]
        exact .inl rfl
      · rw [hfault]
        exact .inr rfl

/-- What comes of a message tells whether it is read, or strays. -/
theorem accepted_or_strays {fuel : ℕ} {name : ℕ} {ptr : Ptr} (hplaced : Placed ptr) :
    ((∃ v, Extension.deserialize schema true fuel name ptr = .ok v) → Accepted schema name ptr) ∧
      (Extension.deserialize schema true fuel name ptr = .error .fault →
        Strays schema name ptr) := by
  induction fuel generalizing name ptr with
  | zero =>
    constructor
    · rintro ⟨v, h⟩
      cases h
    · intro h
      cases h
  | succ fuel ih =>
    have hruns :=
      deserializeMessage_runs (Extension.deserialize schema true fuel) (schema name) hplaced
    constructor
    · intro hok
      have hcalls := calls_of_ok (hruns.ok_iff.1 hok)
      refine .calls (fun s hs => ?_) fun callee q hs => ?_
      · obtain ⟨callee, q, rfl, -⟩ := hcalls s hs
        exact ⟨callee, q, rfl⟩
      · obtain ⟨callee', q', heq, hv⟩ := hcalls _ hs
        obtain ⟨rfl, rfl⟩ := Step.call.inj heq
        exact (ih (hruns.placed callee q hs)).1 hv
    · intro hfault
      obtain ⟨before, s, later, hsteps, hbefore, hs⟩ :=
        step_of_fault ((hruns.error_iff .fault).1 hfault)
      have hin : ∀ t ∈ before ++ s :: later, t ∈ messageSteps (schema name) ptr :=
        fun t ht => hsteps ▸ ht
      have hread : AllAccepted schema before := by
        intro t ht
        obtain ⟨callee, q, rfl, hv⟩ := hbefore t ht
        exact ⟨callee, q, rfl,
          (ih (hruns.placed callee q (hin _ (List.mem_append_left _ ht)))).1 hv⟩
      rcases hs with rfl | ⟨callee, q, rfl, hq⟩
      · exact .here hread hsteps
      · have hcallee := hruns.placed callee q (hin _ (List.mem_append_right _ List.mem_cons_self))
        exact .inside hread hsteps ((ih hcallee).2 hq)

/-- `Deserialize` of a buffer with a word reads inside the buffer only if, and only if, its
    steps do not stray: no array of numbers, strings or messages that leaves the buffer is gone
    through, and no string of an array leaves it. -/
theorem deserialize_inside_iff (schema : Descriptors) (name : ℕ) (mem : Bool) (raw : List UInt32)
    (hraw : raw ≠ []) :
    deserializeRoot schema name mem raw ≠ .error .fault ↔ ¬Strays schema name (.at raw) := by
  have hplaced : Placed (.at raw) := .inr ⟨raw, hraw, rfl⟩
  rw [deserializeRoot, if_neg fun h => hraw h.1]
  refine not_congr ⟨(accepted_or_strays hplaced).2,
    fun h => (h.deserialize hplaced _).resolve_left ?_⟩
  exact (deserialize_ends schema (Nat.lt_succ_self _) name).stops fun h => h rfl

end

/-- A message that stands for an array of numbers. -/
def numbersSchema : Descriptors := fun _ => [⟨"_", 1, false, .repeated .uint32⟩]

/-- An array of one number, in the buffer. -/
theorem deserialize_inside_iff_one :
    deserializeRoot numbersSchema 0 true [5, 7] ≠ .error .fault ↔
      ¬Strays numbersSchema 0 (.at [5, 7]) :=
  deserialize_inside_iff numbersSchema 0 true [5, 7] (List.cons_ne_nil _ _)

/-- An array that announces five numbers, of which there is none. -/
theorem deserialize_strays : deserializeRoot numbersSchema 0 true [21] = .error .fault := rfl

end ProtoCache.Extension

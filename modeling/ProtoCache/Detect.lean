import ProtoCache.Access

/-!
# How far an object reaches

The `Detect` functions of `include/protocache/access.h` and of the code that
`tools/protoc-gen-pccx.cc` makes for a message: the words that an object takes in a
buffer, with those of the objects behind it that belong to it. They go through the
fields, elements or pairs from the last one back, until one reaches past the cells.

* `detect_safe_iff`: on any buffer, they keep inside it and find nothing or words in it,
  unless they get to a message whose sections are not in the buffer.
-/

namespace ProtoCache

/-- `Slice<uint32_t>`. -/
structure WordSlice where
  ptr : Ptr
  size : ℕ
  deriving DecidableEq

namespace WordSlice

/-- `{}`. -/
def null : WordSlice := ⟨Ptr.null, 0⟩

/-- `t.end() > view.end()`, of two slices of a buffer. -/
def passes (t view : WordSlice) : Bool :=
  match t.ptr, view.ptr with
  | .at v', .at v => decide (v'.length + view.size < v.length + t.size)
  | _, _ => false

/-- `{view.data(), t.end() - view.data()}`. -/
def upTo (view t : WordSlice) : WordSlice :=
  match t.ptr, view.ptr with
  | .at v', .at v => ⟨view.ptr, v.length - v'.length + t.size⟩
  | _, _ => view

end WordSlice

/-! ## Detecting the cells of an object -/

/-- `String::Detect`. -/
def detectString (bounded : Bool) (ptr : Ptr) : Res WordSlice := do
  match ← readString bounded ptr, ptr with
  | some str, .at view => return ⟨ptr, (view.length * 4 - str.mem.length + str.size + 3) / 4⟩
  | _, _ => return WordSlice.null

/-- The number of the words of the fields of a message: what its last section tells, or its
    head if it has none. -/
def bodySize (view : List UInt32) (w : UInt32) : Res ℕ :=
  let sections := (w &&& 0xff).toNat
  if sections = 0 then .ok (count32 w)
  else do
    let sec ← sectionWord view (sections - 1)
    return count64 (sec <<< 14) + (sec >>> 50).toNat

/-- `Message::Detect`. The code loads the last section before it compares with the end
    (`early` is false). -/
def detectMessage (early bounded : Bool) (ptr : Ptr) : Res WordSlice :=
  match ptr with
  | .nul 0 => .ok WordSlice.null
  | .nul _ => .error .fault
  | .at view => do
    let w ← ptr.load
    let sections := (w &&& 0xff).toNat
    if early && ptr.exceeds bounded (1 + sections * 2) then return WordSlice.null
    else do
      let tail := 1 + sections * 2 + (← bodySize view w)
      if ptr.exceeds bounded tail then return WordSlice.null else return ⟨ptr, tail⟩

/-- `Array::Detect`. -/
def detectArray (bounded : Bool) (ptr : Ptr) : Res WordSlice :=
  if ptr = Ptr.null then .ok WordSlice.null
  else do
    let w ← ptr.load
    let size := (w >>> 2).toNat
    let width := (w &&& 3).toNat
    if width = 0 then return WordSlice.null
    else
      let tail := 1 + width * size
      if ptr.exceeds bounded tail then return WordSlice.null else return ⟨ptr, tail⟩

/-- `Map::Detect`. -/
def detectMap (bounded : Bool) (ptr : Ptr) : Res WordSlice :=
  match ptr with
  | .nul 0 => .ok WordSlice.null
  | .nul _ => .error .fault
  | .at view => do
    let w ← ptr.load
    let keyWidth := ((w >>> 30) &&& 3).toNat
    let valueWidth := ((w >>> 28) &&& 3).toNat
    if keyWidth = 0 ∨ valueWidth = 0 then return WordSlice.null
    else do
      let sz := if bounded then view.length * 4 % 2 ^ 32 else 0
      let index ← PerfectHash.ofData (bytesOf view) sz
      if index.data = none then return WordSlice.null
      else do
        let tail := wordSize index.dataSize + (keyWidth + valueWidth) * (← index.size)
        if ptr.exceeds bounded tail then return WordSlice.null else return ⟨ptr, tail⟩

/-! ## Detecting an object of a type -/

/-- The types of fields: a scalar, `Slice` of characters or bytes, `ArrayT` of Booleans, of
    other scalars and of anything else, `MapT`, and a message, which is told by its number. -/
inductive Ty
  | scalar
  | str
  | bools
  | scalars
  | array (elem : Ty)
  | map (key value : Ty)
  | message (name : ℕ)
  deriving DecidableEq

/-- The fields of the messages: for each, the number of its place in the message and the
    type, in the order of the numbers. -/
abbrev Schema := ℕ → List (ℕ × Ty)

/-- `Detect` of the cells of an object. -/
def Ty.detectHead (early bounded : Bool) : Ty → Ptr → Res WordSlice
  | .scalar, _ => .ok WordSlice.null
  | .str, ptr => detectString bounded ptr
  | .bools, ptr => detectString bounded ptr
  | .scalars, ptr => detectArray bounded ptr
  | .array _, ptr => detectArray bounded ptr
  | .map _ _, ptr => detectMap bounded ptr
  | .message _, ptr => detectMessage early bounded ptr

/-- The fields that `Detect` of an object looks at, in its order: those of the values of the
    pairs before those of the keys; scalars take no more than their cells. The views of
    arrays and maps are told no end. -/
def Ty.children (schema : Schema) (bounded : Bool) (ptr : Ptr) : Ty → Res (List (Ty × Res Field))
  | .array t => do
    let core ← openArray false ptr
    return (List.range core.size).reverse.map fun i =>
      (t, .ok ⟨core.body.add (core.width * i), core.width⟩)
  | .map k v =>
    if k = .scalar ∧ v = .scalar then return []
    else do
      let core ← openMap false ptr
      return (List.range (← core.index.size)).reverse.flatMap fun i =>
        let pair := pairAt core (core.body.add ((core.keyWidth + core.valueWidth) * i))
        (if v = .scalar then [] else [(v, .ok pair.2)]) ++ if k = .scalar then []
          else [(k, .ok pair.1)]
  | .message name => do
    -- A message that leaves the buffer is the shared empty one.
    let core := (← openMessage bounded ptr).getD [0]
    return ((schema name).reverse.filter fun field => field.2 ≠ .scalar).map fun field =>
      (field.2, getField bounded core field.1)
  | _ => return []

/-- `FieldT<T>::Detect`. -/
def Field.detect (detect : Ty → Ptr → Res WordSlice) (bounded : Bool) (t : Ty) (f : Field) :
    Res WordSlice :=
  if t = .scalar then
    let view := f.getValue bounded
    return ⟨view.1, view.2⟩
  else do detect t (← f.getObject bounded)

/-- The loop of `Detect`, up to the first child that reaches past the cells. -/
def scan {α : Type} (child : α → Res WordSlice) (view : WordSlice) : List α → Res WordSlice
  | [] => .ok view
  | c :: cs => do
    let t ← child c
    if t.passes view then return view.upTo t else scan child view cs

/-- `Detect` of a child. -/
def detectChild (detect : Ty → Ptr → Res WordSlice) (bounded : Bool) (c : Ty × Res Field) :
    Res WordSlice := do
  Field.detect detect bounded c.1 (← c.2)

/-- `Detect` of a type. -/
def detect (schema : Schema) (early bounded : Bool) : ℕ → Ty → Ptr → Res WordSlice
  | 0, _, _ => .error .fuel
  | fuel + 1, t, ptr => do
    let view ← t.detectHead early bounded ptr
    if view = WordSlice.null then return WordSlice.null
    else
      scan (detectChild (detect schema early bounded fuel) bounded) view
        (← t.children schema bounded ptr)

/-! ## What is safe -/

/-- Nothing, or words of the buffer from its start on. -/
def WordSlice.Within (s : WordSlice) (v : List UInt32) : Prop :=
  s = null ∨ ∃ k ≤ v.length, s = ⟨.at v, k⟩

/-- A call that keeps inside the buffer and finds words in it. -/
def Safe (r : Res WordSlice) (v : List UInt32) : Prop := ∃ s, r = .ok s ∧ s.Within v

/-- A message whose sections are not in the buffer. -/
def Cut : List UInt32 → Prop
  | [] => False
  | w :: rest => rest.length < 2 * (w &&& 0xff).toNat

instance (v : List UInt32) : Decidable (Cut v) :=
  match v with
  | [] => inferInstanceAs (Decidable False)
  | _ :: _ => inferInstanceAs (Decidable (_ < _))

theorem stringMark_safe (sft mark : ℕ) (p : List UInt8) :
    ∃ str, stringMark true sft mark p = .ok str ∧
      ∀ s, str = some s → s.mem.length ≤ p.length ∧ s.size ≤ s.mem.length := by
  induction p generalizing sft mark with
  | nil => exact ⟨none, by simp [stringMark], fun s hs => by cases hs⟩
  | cons b p ih =>
    rw [stringMark]
    split
    · split
      · obtain ⟨str, hstr, hs⟩ := ih (sft + 7) (mark ||| (b &&& 0x7f).toNat <<< sft)
        exact ⟨str, hstr, fun s h => ⟨(hs s h).1.trans (Nat.le_succ _), (hs s h).2⟩⟩
      · dsimp only
        split
        · exact ⟨none, rfl, fun s hs => by cases hs⟩
        · next hle =>
          refine ⟨_, rfl, fun s hs => ?_⟩
          cases hs
          exact ⟨Nat.le_succ _, by simpa using hle⟩
    · exact ⟨none, rfl, fun s hs => by cases hs⟩

theorem readString_safe (v : List UInt32) :
    ∃ str, readString true (.at v) = .ok str ∧
      ∀ s, str = some s → s.mem.length ≤ 4 * v.length ∧ s.size ≤ s.mem.length := by
  rw [readString]
  split
  · exact ⟨none, rfl, fun s hs => by cases hs⟩
  · next hin =>
    have hlen := length_bytesOf v
    dsimp only
    cases hb : bytesOf v with
    | nil =>
      rw [hb] at hlen
      refine absurd (.inr ?_) hin
      obtain rfl : v = [] := List.length_eq_zero_iff.1 (by simpa using hlen.symm)
      rfl
    | cons b p =>
      rw [hb, List.length_cons] at hlen
      dsimp only
      split
      · exact ⟨none, rfl, fun s hs => by cases hs⟩
      · split
        · split
          · exact ⟨none, rfl, fun s hs => by cases hs⟩
          · next hle =>
            refine ⟨_, rfl, fun s hs => ?_⟩
            cases hs
            exact ⟨by dsimp only; omega, by simpa using hle⟩
        · obtain ⟨str, hstr, hs⟩ := stringMark_safe 7 (b &&& 0x7f).toNat p
          exact ⟨str, hstr, fun s h => ⟨by have := (hs s h).1; omega, (hs s h).2⟩⟩

theorem detectString_safe (v : List UInt32) : Safe (detectString true (.at v)) v := by
  obtain ⟨str, hstr, hs⟩ := readString_safe v
  rw [detectString, hstr, Res.ok_bind]
  cases str with
  | none => exact ⟨_, rfl, .inl rfl⟩
  | some s =>
    obtain ⟨h₁, h₂⟩ := hs s rfl
    exact ⟨_, rfl, .inr ⟨_, by omega, rfl⟩⟩

theorem detectArray_safe {v : List UInt32} (hv : v ≠ []) : Safe (detectArray true (.at v)) v := by
  obtain ⟨w, rest, rfl⟩ := List.exists_cons_of_ne_nil hv
  rw [detectArray, if_neg (by simp [Ptr.null]), Ptr.load, List.head?_cons, access_some, Res.ok_bind]
  dsimp only
  split
  · exact ⟨_, rfl, .inl rfl⟩
  · split
    · exact ⟨_, rfl, .inl rfl⟩
    · next hle => exact ⟨_, rfl, .inr ⟨_, by simpa [Ptr.exceeds] using hle, rfl⟩⟩

/-- An array whose cells were found: the view that is told no end has them. -/
theorem openArray_of_detect {v : List UInt32} {s : WordSlice} (h : detectArray true (.at v) = .ok s)
    (hs : s ≠ WordSlice.null) :
    ∃ size width, openArray false (.at v) = .ok ⟨.at (v.drop 1), size, width⟩ ∧
      1 ≤ width ∧ 1 + width * size ≤ v.length ∧ s = ⟨.at v, 1 + width * size⟩ := by
  rw [detectArray, if_neg (by simp [Ptr.null])] at h
  obtain ⟨w, hw, h⟩ := Res.bind_eq_ok.1 h
  dsimp only at h
  split at h
  · cases h
    exact absurd rfl hs
  · next hwidth =>
    split at h
    · cases h
      exact absurd rfl hs
    · next hle =>
      cases h
      refine ⟨_, _, ?_, Nat.one_le_iff_ne_zero.2 hwidth, by simpa [Ptr.exceeds] using hle, rfl⟩
      rw [openArray, if_neg (by simp [Ptr.null]), hw, Res.ok_bind]
      exact if_neg (not_or.2 ⟨hwidth, Bool.false_ne_true⟩)

/-! ### Maps -/

theorem readLE_head {v : List UInt32} (hv : v ≠ []) : ∃ n, readLE (bytesOf v) 0 4 = .ok n := by
  have hlen := length_bytesOf v
  have hpos := List.length_pos_iff.2 hv
  exact ⟨_, by rw [readLE, List.drop_zero, Storage.load_of_le (by omega)]; rfl⟩

/-- An index in the buffer is the same where its size is not known. -/
theorem ofData_safe {v : List UInt32} (hv : v ≠ []) (size : ℕ) :
    ∃ ph, PerfectHash.ofData (bytesOf v) size = .ok ph ∧ (ph.data ≠ none →
      PerfectHash.ofData (bytesOf v) 0 = .ok ph ∧ ph.data = some (bytesOf v) ∧
        4 ≤ ph.dataSize) := by
  obtain ⟨n, hn⟩ := readLE_head hv
  by_cases hsize : size ≠ 0 ∧ size < 4
  · exact ⟨{}, if_pos hsize, fun h => absurd rfl h⟩
  · have h0 : ¬((0 : ℕ) ≠ 0 ∧ (0 : ℕ) < 4) := fun h => h.1 rfl
    rw [PerfectHash.ofData, PerfectHash.ofData, if_neg hsize, if_neg h0, hn, Res.ok_bind,
      Res.ok_bind]
    dsimp only
    by_cases h1 : realSize n > 1
    · rw [if_pos h1, if_pos h1]
      generalize (if realSize n > 65535 then _ else _ : ℕ) = bytes
      split
      · exact ⟨{}, rfl, fun h => absurd rfl h⟩
      · exact ⟨_, rfl, fun _ => ⟨if_neg fun h => h.1 rfl, rfl, Nat.le_add_left _ _⟩⟩
    · rw [if_neg h1, if_neg h1]
      exact ⟨_, rfl, fun _ => ⟨rfl, rfl, le_rfl⟩⟩

theorem detectMap_safe {v : List UInt32} (hv : v ≠ []) : Safe (detectMap true (.at v)) v := by
  obtain ⟨w, rest, hcons⟩ := List.exists_cons_of_ne_nil hv
  have hw : (Ptr.at v).load = .ok w := by rw [hcons]; rfl
  rw [detectMap, hw, Res.ok_bind]
  dsimp only
  split
  · exact ⟨_, rfl, .inl rfl⟩
  · obtain ⟨ph, hph, hknown⟩ := ofData_safe hv (if true = true then v.length * 4 % 2 ^ 32 else 0)
    rw [hph, Res.ok_bind]
    split
    · exact ⟨_, rfl, .inl rfl⟩
    · next hdata =>
      obtain ⟨-, hmem, -⟩ := hknown hdata
      obtain ⟨n, hn⟩ := readLE_head hv
      rw [PerfectHash.size, hmem]
      dsimp only
      rw [hn]
      simp only [Res.ok_bind, Res.pure_eq]
      split
      · exact ⟨_, rfl, .inl rfl⟩
      · next hle => exact ⟨_, rfl, .inr ⟨_, by simpa [Ptr.exceeds] using hle, rfl⟩⟩

/-- A map whose cells were found: the view that is told no end has them. -/
theorem openMap_of_detect {v : List UInt32} {s : WordSlice} (hv : v ≠ [])
    (h : detectMap true (.at v) = .ok s) (hs : s ≠ WordSlice.null) :
    ∃ core n k, openMap false (.at v) = .ok core ∧ core.index.size = .ok n ∧
      core.body = .at (v.drop k) ∧
      1 ≤ k ∧ 1 ≤ core.keyWidth ∧ 1 ≤ core.valueWidth ∧ k + (core.keyWidth + core.valueWidth) * n ≤
        v.length ∧
      s = ⟨.at v, k + (core.keyWidth + core.valueWidth) * n⟩ := by
  rw [detectMap] at h
  obtain ⟨w, hw, h⟩ := Res.bind_eq_ok.1 h
  dsimp only at h
  split at h
  · cases h
    exact absurd rfl hs
  · next hwidth =>
    obtain ⟨ph, hph, h⟩ := Res.bind_eq_ok.1 h
    obtain ⟨ph', hph', hknown⟩ := ofData_safe hv (if true = true then v.length * 4 % 2 ^ 32 else 0)
    obtain rfl : ph = ph' := Except.ok.inj (hph.symm.trans hph')
    split at h
    · cases h
      exact absurd rfl hs
    · next hdata =>
      obtain ⟨h0, -, hsize⟩ := hknown hdata
      obtain ⟨n, hn, h⟩ := Res.bind_eq_ok.1 h
      split at h
      · cases h
        exact absurd rfl hs
      · next hle =>
        cases h
        refine ⟨⟨ph, (Ptr.at v).add (wordSize ph.dataSize), ((w >>> 30) &&& 3).toNat,
            ((w >>> 28) &&& 3).toNat⟩, n, wordSize ph.dataSize, ?_, hn, rfl, ?_, ?_, ?_, by
          simpa [Ptr.exceeds] using hle, rfl⟩
        · rw [openMap, hw, Res.ok_bind]
          dsimp only
          rw [if_neg hwidth, if_neg Bool.false_ne_true, h0, Res.ok_bind, if_neg hdata, hn,
            Res.ok_bind]
          rfl
        · rw [wordSize]
          omega
        all_goals
          dsimp only
          omega

/-! ### Messages -/

theorem sectionWord_safe {v : List UInt32} {a : ℕ} (h : 2 + 2 * a < v.length) :
    ∃ x, sectionWord v a = .ok x := by
  rw [sectionWord, List.getElem?_eq_getElem (by omega), List.getElem?_eq_getElem h]
  exact ⟨_, rfl⟩

/-- The sections of a message are in the buffer, or else its last section is not. -/
theorem not_cut_iff {w : UInt32} {rest : List UInt32} :
    ¬Cut (w :: rest) ↔ 1 + (w &&& 0xff).toNat * 2 ≤ (w :: rest).length := by
  rw [Cut, List.length_cons]
  omega

/-- Past the load of the last section, `Message::Detect` finds nothing or words of the
    buffer, with the sections of the message. -/
theorem detectMessage_of_not_cut {v : List UInt32} (hv : v ≠ []) (hc : ¬Cut v) (early : Bool) :
    ∃ s, detectMessage early true (.at v) = .ok s ∧ detectMessage true true (.at v) = .ok s ∧
      s.Within v := by
  obtain ⟨w, rest, rfl⟩ := List.exists_cons_of_ne_nil hv
  have hin := not_cut_iff.1 hc
  have hnot : ∀ early : Bool,
      ¬(early && (Ptr.at (w :: rest)).exceeds true (1 + (w &&& 0xff).toNat * 2)) = true := by
    rintro early h
    rw [Bool.and_eq_true, Ptr.exceeds, Bool.true_and, decide_eq_true_eq] at h
    omega
  have hbody : ∃ body, bodySize (w :: rest) w = .ok body := by
    rw [bodySize]
    split
    · exact ⟨_, rfl⟩
    · next h0 =>
      obtain ⟨sec, hsec⟩ :=
        sectionWord_safe (v := w :: rest) (a := (w &&& 0xff).toNat - 1) (by omega)
      rw [hsec]
      exact ⟨_, rfl⟩
  obtain ⟨body, hbody⟩ := hbody
  have heq : ∀ early, detectMessage early true (.at (w :: rest)) =
      if (Ptr.at (w :: rest)).exceeds true (1 + (w &&& 0xff).toNat * 2 + body) then
        .ok WordSlice.null
      else .ok ⟨.at (w :: rest), 1 + (w &&& 0xff).toNat * 2 + body⟩ := by
    intro early
    rw [detectMessage, Ptr.load, List.head?_cons, access_some, Res.ok_bind]
    dsimp only
    rw [if_neg (hnot early), hbody, Res.ok_bind]
    rfl
  rw [heq, heq]
  split
  · exact ⟨_, rfl, rfl, .inl rfl⟩
  · next hle => exact ⟨_, rfl, rfl, .inr ⟨_, by simpa [Ptr.exceeds] using hle, rfl⟩⟩

/-- The last section of a message that is cut off is loaded from outside the buffer. -/
theorem detectMessage_cut {v : List UInt32} (h : Cut v) :
    detectMessage false true (.at v) = .error .fault ∧
      detectMessage true true (.at v) = .ok WordSlice.null := by
  rcases v with _ | ⟨w, rest⟩
  · exact absurd h id
  · have hlt : rest.length < 2 * (w &&& 0xff).toNat := h
    constructor
    · have hsec : sectionWord (w :: rest) ((w &&& 0xff).toNat - 1) = .error .fault := by
        have hhi : (w :: rest)[2 + 2 * ((w &&& 0xff).toNat - 1)]? = none :=
          List.getElem?_eq_none (by rw [List.length_cons]; omega)
        rw [sectionWord, hhi]
        cases (w :: rest)[1 + 2 * ((w &&& 0xff).toNat - 1)]? <;> rfl
      have hbody : bodySize (w :: rest) w = .error .fault := by
        rw [bodySize, if_neg (by omega), hsec]
        rfl
      rw [detectMessage, Ptr.load, List.head?_cons, access_some, Res.ok_bind]
      dsimp only
      rw [Bool.false_and, if_neg Bool.false_ne_true, hbody]
      rfl
    · rw [detectMessage, Ptr.load, List.head?_cons, access_some, Res.ok_bind]
      refine if_pos ?_
      rw [Bool.true_and, Ptr.exceeds, Bool.true_and, decide_eq_true_eq, List.length_cons]
      omega

/-- A field of a buffer that is not at its first word. -/
def Field.Inside (f : Field) (v : List UInt32) : Prop :=
  f = Field.null ∨ ∃ k, 1 ≤ k ∧ f.ptr = .at (v.drop k) ∧ k + f.width ≤ v.length

theorem getField_inside {v : List UInt32} (hv : v ≠ []) (hc : ¬Cut v) (id : ℕ) :
    ∃ f, getField true v id = .ok f ∧ f.Inside v := by
  obtain ⟨w, rest, rfl⟩ := List.exists_cons_of_ne_nil hv
  have hin := not_cut_iff.1 hc
  have hfield : ∀ off width, ∃ f,
      (if (Ptr.at (w :: rest)).exceeds true (1 + (w &&& 0xff).toNat * 2 + off + width) = true then
        (pure Field.null : Res Field)
      else pure ⟨(Ptr.at (w :: rest)).add (1 + (w &&& 0xff).toNat * 2 + off), width⟩) = .ok f ∧
        f.Inside (w :: rest) := by
    intro off width
    split
    · exact ⟨_, rfl, .inl rfl⟩
    · next hle => exact ⟨_, rfl, .inr ⟨_, by omega, rfl, by simpa [Ptr.exceeds] using hle⟩⟩
  rw [getField, List.head?_cons, access_some, Res.ok_bind]
  dsimp only
  split
  · split
    · exact ⟨_, rfl, .inl rfl⟩
    · exact hfield _ _
  · split
    · exact ⟨_, rfl, .inl rfl⟩
    · next hid ha =>
      obtain ⟨x, hx⟩ := sectionWord_safe (v := w :: rest) (a := (id - 12) / 25) (by omega)
      rw [hx, Res.ok_bind]
      split
      · exact ⟨_, rfl, .inl rfl⟩
      · exact hfield _ _

/-- The object of a field is behind the first word of the buffer. -/
theorem Field.Inside.getObject {f : Field} {v : List UInt32} (h : f.Inside v) (hv : v ≠ []) :
    ∃ q, f.getObject true = .ok q ∧
      (q = Ptr.null ∨ ∃ v', q = .at v' ∧ v' ≠ [] ∧ v'.length < v.length) := by
  rcases h with rfl | ⟨k, hk, hptr, -⟩
  · exact ⟨_, rfl, .inl rfl⟩
  · have hpos := List.length_pos_iff.2 hv
    obtain ⟨ptr, width⟩ := f
    obtain rfl : ptr = .at (v.drop k) := hptr
    rw [Field.getObject]
    split
    · exact ⟨_, rfl, .inl rfl⟩
    · next hin =>
      have hne : v.drop k ≠ [] := by
        intro h0
        rw [h0] at hin
        exact hin rfl
      obtain ⟨w, rest, hw⟩ := List.exists_cons_of_ne_nil hne
      rw [if_neg (by simp [Ptr.null]), Ptr.load, hw, List.head?_cons, access_some, Res.ok_bind]
      refine ⟨_, rfl, ?_⟩
      have hmove : ∃ v',
        (if w &&& 3 = 3 then (Ptr.at (w :: rest)).add (w >>> 2).toNat else Ptr.at (w :: rest)) =
          .at v' ∧ v'.length < v.length := by
        have hlen : (w :: rest).length < v.length := by
          rw [← hw, List.length_drop]
          omega
        split
        · exact ⟨_, rfl, by
            rw [List.length_drop]
            omega⟩
        · exact ⟨_, rfl, hlen⟩
      obtain ⟨v', hv', hlt⟩ := hmove
      dsimp only
      rw [hv']
      split
      · exact .inl rfl
      · next hin' =>
        refine .inr ⟨v', rfl, fun h0 => hin' ?_, hlt⟩
        rw [h0]
        rfl

/-! ### The loop -/

section

variable {α : Type} {child child' : α → Res WordSlice} {view : WordSlice} {cs : List α}

theorem scan_congr (h : ∀ c ∈ cs, child c = child' c) :
    scan child view cs = scan child' view cs := by
  induction cs with
  | nil => rfl
  | cons c cs ih =>
    rw [scan, scan, h c List.mem_cons_self, ih fun c hc => h c (.tail _ hc)]

/-- The loop stops at a child that faults, if it gets to it. -/
theorem scan_fault {before after : List α} {c : α}
    (h : ∀ b ∈ before, (∃ t, child b = .ok t ∧ t.passes view = false) ∨ child b = .error .fault)
    (hc : child c = .error .fault) : scan child view (before ++ c :: after) = .error .fault := by
  induction before with
  | nil => rw [List.nil_append, scan, hc]; rfl
  | cons b before ih =>
    rw [List.cons_append, scan]
    rcases h b List.mem_cons_self with ⟨t, ht, hpass⟩ | hb
    · rw [ht, Res.ok_bind, hpass, if_neg Bool.false_ne_true, ih fun b hb => h b (.tail _ hb)]
    · rw [hb]
      rfl

/-- Two loops whose children are the same up to those that are bad: they are the same, or get
    to a bad child. -/
theorem scan_cases (view : WordSlice) {Bad : α → Prop} (hok : ∀ c ∈ cs, ∃ t, child' c = .ok t)
    (h : ∀ c ∈ cs, ¬Bad c → child c = child' c) : scan child view cs = scan child' view cs ∨
      ∃ before c after, cs = before ++ c :: after ∧ Bad c ∧
        ∀ b ∈ before, ∃ t, child' b = .ok t ∧ t.passes view = false := by
  induction cs with
  | nil => exact .inl rfl
  | cons c cs ih =>
    by_cases hbad : Bad c
    · exact .inr ⟨[], c, cs, rfl, hbad, fun b hb => absurd hb List.not_mem_nil⟩
    · obtain ⟨t, ht⟩ := hok c List.mem_cons_self
      rw [scan, scan, h c List.mem_cons_self hbad, ht, Res.ok_bind, Res.ok_bind]
      cases hpass : t.passes view with
      | true => exact .inl rfl
      | false =>
        rw [if_neg Bool.false_ne_true, if_neg Bool.false_ne_true]
        rcases ih (fun c hc => hok c (.tail _ hc)) fun c hc => h c (.tail _ hc) with
          heq | ⟨before, c', after, rfl, hc', hbefore⟩
        · exact .inl heq
        · exact .inr ⟨c :: before, c', after, rfl, hc',
            List.forall_mem_cons.2 ⟨⟨t, ht, hpass⟩, hbefore⟩⟩

/-- Words of a buffer that is part of another: nothing, or words from its start on. -/
def Part (s : WordSlice) (v : List UInt32) : Prop :=
  s = WordSlice.null ∨ ∃ v' k, s = ⟨.at v', k⟩ ∧ k ≤ v'.length ∧ v'.length ≤ v.length

theorem scan_safe {v : List UInt32} {k : ℕ} (hk : k ≤ v.length)
    (h : ∀ c ∈ cs, ∃ t, child c = .ok t ∧ Part t v) : Safe (scan child ⟨.at v, k⟩ cs) v := by
  induction cs with
  | nil => exact ⟨_, rfl, .inr ⟨k, hk, rfl⟩⟩
  | cons c cs ih =>
    obtain ⟨t, ht, hpart⟩ := h c List.mem_cons_self
    rw [scan, ht, Res.ok_bind]
    split
    · next hpass =>
      rcases hpart with rfl | ⟨v', k', rfl, hk', hv'⟩
      · cases hpass
      · exact ⟨_, rfl, .inr ⟨v.length - v'.length + k', by omega, rfl⟩⟩
    · exact ih fun c hc => h c (.tail _ hc)

end

/-! ### Objects of a type -/

variable (schema : Schema)

theorem detectHead_safe (t : Ty) {v : List UInt32} (hv : v ≠ []) :
    Safe (t.detectHead true true (.at v)) v := by
  cases t with
  | scalar => exact ⟨_, rfl, .inl rfl⟩
  | str => exact detectString_safe v
  | bools => exact detectString_safe v
  | scalars => exact detectArray_safe hv
  | array t => exact detectArray_safe hv
  | map k t => exact detectMap_safe hv
  | message name =>
    by_cases hc : Cut v
    · exact ⟨_, (detectMessage_cut hc).2, .inl rfl⟩
    · obtain ⟨s, -, hs, hin⟩ := detectMessage_of_not_cut hv hc true
      exact ⟨s, hs, hin⟩

/-- The fields that `Detect` looks at are in the buffer, behind its first word. -/
theorem children_inside (t : Ty) {v : List UInt32} (hv : v ≠ []) {view : WordSlice}
    (h : t.detectHead true true (.at v) = .ok view) (hview : view ≠ WordSlice.null) :
    ∃ cs, t.children schema true (.at v) = .ok cs ∧ ∀ c ∈ cs, ∃ f, c.2 = .ok f ∧ f.Inside v := by
  have hpos := List.length_pos_iff.2 hv
  cases t with
  | scalar => exact ⟨[], rfl, fun c hc => absurd hc List.not_mem_nil⟩
  | str => exact ⟨[], rfl, fun c hc => absurd hc List.not_mem_nil⟩
  | bools => exact ⟨[], rfl, fun c hc => absurd hc List.not_mem_nil⟩
  | scalars => exact ⟨[], rfl, fun c hc => absurd hc List.not_mem_nil⟩
  | array t =>
    obtain ⟨size, width, hopen, -, hin, -⟩ := openArray_of_detect h hview
    refine ⟨_, by rw [Ty.children, hopen, Res.ok_bind]; rfl, fun c hc => ?_⟩
    obtain ⟨i, hi, rfl⟩ := List.mem_map.1 hc
    rw [List.mem_reverse, List.mem_range] at hi
    have hcell : width * i + width ≤ width * size := by
      rw [← Nat.mul_succ]
      exact Nat.mul_le_mul_left _ hi
    exact ⟨_, rfl, .inr
      ⟨1 + width * i, Nat.le_add_right _ _, by rw [Ptr.add, List.drop_drop], by dsimp only; omega⟩⟩
  | map k t =>
    rw [Ty.children]
    split
    · exact ⟨[], rfl, fun c hc => absurd hc List.not_mem_nil⟩
    · obtain ⟨core, n, j, hopen, hn, hbody, hj, -, -, hin, -⟩ := openMap_of_detect hv h hview
      refine ⟨_, by rw [hopen, Res.ok_bind, hn, Res.ok_bind]; rfl, fun c hc => ?_⟩
      obtain ⟨i, hi, hc⟩ := List.mem_flatMap.1 hc
      rw [List.mem_reverse, List.mem_range] at hi
      have hcell : (core.keyWidth + core.valueWidth) * i + (core.keyWidth + core.valueWidth) ≤
          (core.keyWidth + core.valueWidth) * n := by
        rw [← Nat.mul_succ]
        exact Nat.mul_le_mul_left _ hi
      rw [hbody] at hc
      rcases List.mem_append.1 hc with hc | hc
      · split at hc
        · exact absurd hc List.not_mem_nil
        · obtain rfl := List.mem_singleton.1 hc
          refine ⟨_, rfl,
            .inr ⟨j + (core.keyWidth + core.valueWidth) * i + core.keyWidth, by omega, ?_, ?_⟩⟩
          · simp only [pairAt, Ptr.add, List.drop_drop]
          · simp only [pairAt]
            omega
      · split at hc
        · exact absurd hc List.not_mem_nil
        · obtain rfl := List.mem_singleton.1 hc
          refine ⟨_, rfl, .inr ⟨j + (core.keyWidth + core.valueWidth) * i, by omega, ?_, ?_⟩⟩
          · simp only [pairAt, Ptr.add, List.drop_drop]
          · simp only [pairAt]
            omega
  | message name =>
    have hc : ¬Cut v := fun hc => hview (Except.ok.inj (h.symm.trans (detectMessage_cut hc).2))
    have hopen : openMessage true (.at v) = .ok (some v) := by
      obtain ⟨w, rest, rfl⟩ := List.exists_cons_of_ne_nil hv
      have hin := not_cut_iff.1 hc
      rw [openMessage, Ptr.load, List.head?_cons, access_some, Res.ok_bind]
      exact if_neg (by simpa [Ptr.exceeds] using hin)
    refine ⟨_, by rw [Ty.children, hopen, Res.ok_bind]; rfl, fun c hc' => ?_⟩
    obtain ⟨field, -, rfl⟩ := List.mem_map.1 hc'
    exact getField_inside hv hc field.1

/-- How far a type reaches at a null pointer. -/
theorem detect_null (early bounded : Bool) (fuel : ℕ) (t : Ty) :
    detect schema early bounded (fuel + 1) t Ptr.null = .ok WordSlice.null := by
  rw [detect]
  cases t <;> rfl

theorem Field.Inside.getValue {f : Field} {v : List UInt32} (h : f.Inside v) :
    Part ⟨(f.getValue true).1, (f.getValue true).2⟩ v := by
  rw [Field.getValue]
  rcases h with rfl | ⟨k, -, hptr, hle⟩
  · exact .inl rfl
  · obtain ⟨ptr, width⟩ := f
    obtain rfl : ptr = .at (v.drop k) := hptr
    split
    · exact .inl rfl
    · refine .inr ⟨_, _, rfl, ?_, ?_⟩
      · have hle : k + width ≤ v.length := hle
        change width ≤ (v.drop k).length
        rw [List.length_drop]
        omega
      · rw [List.length_drop]
        omega

/-- What `Detect` of a child is: the cell of a scalar, nothing, or how far an object behind
    the first word of the buffer reaches. -/
theorem detectChild_cases {c : Ty × Res Field} {f : Field} {v : List UInt32} (hv : v ≠ [])
    (hf : c.2 = .ok f) (hin : f.Inside v) :
    (c.1 = .scalar ∧ ∃ s, Part s v ∧ ∀ d, detectChild d true c = .ok s) ∨
      (f.getObject true = .ok Ptr.null ∧ ∀ d, detectChild d true c = d c.1 Ptr.null) ∨
      ∃ v', v' ≠ [] ∧ v'.length < v.length ∧ c.1 ≠ .scalar ∧ f.getObject true = .ok (.at v') ∧
        ∀ d, detectChild d true c = d c.1 (.at v') := by
  by_cases hs : c.1 = .scalar
  · refine .inl ⟨hs, _, hin.getValue, fun d => ?_⟩
    rw [detectChild, hf, Res.ok_bind, Field.detect, if_pos hs]
    rfl
  · obtain ⟨q, hq, hq'⟩ := hin.getObject hv
    have hd : ∀ d, detectChild d true c = d c.1 q := fun d => by
      rw [detectChild, hf, Res.ok_bind, Field.detect, if_neg hs, hq, Res.ok_bind]
    rcases hq' with rfl | ⟨v', rfl, hv', hlt⟩
    · exact .inr (.inl ⟨hq, hd⟩)
    · exact .inr (.inr ⟨v', hv', hlt, hs, hq, hd⟩)

/-- With the end compared first, nothing outside the buffer is loaded. -/
theorem detect_early_safe {fuel : ℕ} {t : Ty} {v : List UInt32} (hv : v ≠ [])
    (hf : v.length < fuel) :
    Safe (detect schema true true fuel t (.at v)) v := by
  induction fuel generalizing t v with
  | zero => exact absurd hf (Nat.not_lt_zero _)
  | succ fuel ih =>
    obtain ⟨view, hview, hin⟩ := detectHead_safe t hv
    rw [detect, hview, Res.ok_bind]
    split
    · exact ⟨_, rfl, .inl rfl⟩
    · next hne =>
      obtain ⟨cs, hcs, hall⟩ := children_inside schema t hv hview hne
      obtain ⟨k, hk, rfl⟩ := hin.resolve_left hne
      rw [hcs, Res.ok_bind]
      refine scan_safe hk fun c hc => ?_
      obtain ⟨f, hf', hin'⟩ := hall c hc
      have hpos := List.length_pos_iff.2 hv
      rcases detectChild_cases hv hf' hin' with ⟨-, s, hs, hd⟩ | ⟨-, hd⟩ | ⟨v', hv', hlt, -, -, hd⟩
      · exact ⟨s, hd _, hs⟩
      · obtain ⟨fuel, rfl⟩ := Nat.exists_eq_succ_of_ne_zero (by omega : fuel ≠ 0)
        exact ⟨_, (hd _).trans (detect_null schema true true fuel c.1), .inl rfl⟩
      · obtain ⟨s, hs, hs'⟩ := ih (t := c.1) hv' (by omega)
        refine ⟨s, (hd _).trans hs, ?_⟩
        rcases hs' with rfl | ⟨k', hk', rfl⟩
        · exact .inl rfl
        · exact .inr ⟨_, _, rfl, hk', hlt.le⟩

/-- What is detected does not depend on the fuel, if there is enough. -/
theorem detect_early_fuel {fuel fuel' : ℕ} {t : Ty} {v : List UInt32} (hv : v ≠ [])
    (hf : v.length < fuel) (hf' : v.length < fuel') :
    detect schema true true fuel t (.at v) = detect schema true true fuel' t (.at v) := by
  induction fuel generalizing t v fuel' with
  | zero => exact absurd hf (Nat.not_lt_zero _)
  | succ fuel ih =>
    obtain ⟨fuel', rfl⟩ := Nat.exists_eq_succ_of_ne_zero (by omega : fuel' ≠ 0)
    obtain ⟨view, hview, hin⟩ := detectHead_safe t hv
    rw [detect, detect, hview, Res.ok_bind, Res.ok_bind]
    split
    · rfl
    · next hne =>
      obtain ⟨cs, hcs, hall⟩ := children_inside schema t hv hview hne
      rw [hcs, Res.ok_bind, Res.ok_bind]
      refine scan_congr fun c hc => ?_
      obtain ⟨f, hf', hin'⟩ := hall c hc
      have hpos := List.length_pos_iff.2 hv
      rcases detectChild_cases hv hf' hin' with ⟨-, s, -, hd⟩ | ⟨-, hd⟩ | ⟨v', hv', hlt, -, -, hd⟩
      · rw [hd, hd]
      · obtain ⟨fuel, rfl⟩ := Nat.exists_eq_succ_of_ne_zero (by omega : fuel ≠ 0)
        obtain ⟨fuel', rfl⟩ := Nat.exists_eq_succ_of_ne_zero (by omega : fuel' ≠ 0)
        rw [hd, hd, detect_null, detect_null]
      · rw [hd, hd]
        exact ih hv' (by omega) (by omega)

/-! ### What is not safe -/

/-- `Detect` of an object, with the end compared first, gets to a message whose sections are
    not in the buffer: it is the object itself, or there is one that the scan gets to in a
    child, when no child before that reaches past the cells. -/
inductive Overreads : Ty → List UInt32 → Prop
  | head {name : ℕ} {v : List UInt32} : Cut v → Overreads (.message name) v
  | child {t : Ty} {v v' : List UInt32} {view : WordSlice} {before after : List (Ty × Res Field)}
      {t' : Ty}
      {f : Field} :
    t.detectHead true true (.at v) = .ok view → view ≠ WordSlice.null →
    t.children schema true (.at v) = .ok (before ++ (t', .ok f) :: after) →
    (∀ c ∈ before, ∃ s, detectChild (detect schema true true v.length) true c = .ok s ∧
      s.passes view = false) →
    t' ≠ .scalar → f.getObject true = .ok (.at v') → Overreads t' v' → Overreads t v

/-- The head of an object that is not cut off is detected the same, whether the end is
    compared first or not. -/
theorem detectHead_eq {t : Ty} {v : List UInt32} (hv : v ≠ [])
    (h : ∀ name, t = .message name → ¬Cut v) :
    t.detectHead false true (.at v) = t.detectHead true true (.at v) := by
  cases t with
  | message name =>
    obtain ⟨s, hs, hs', -⟩ := detectMessage_of_not_cut hv (h name rfl) false
    exact hs.trans hs'.symm
  | _ => rfl

/-- `Detect` of a child gets to a message whose sections are not in the buffer. -/
def ChildOverreads (c : Ty × Res Field) : Prop :=
  ∃ f v', c.2 = .ok f ∧ c.1 ≠ .scalar ∧ f.getObject true = .ok (.at v') ∧ Overreads schema c.1 v'

/-- What is detected of a child, if the objects in shorter buffers are detected as they would
    with the end compared first, but for those that get to a message which is cut off. -/
theorem detectChild_compare {fuel : ℕ} {c : Ty × Res Field} {f : Field} {v : List UInt32}
    (hv : v ≠ []) (hf : c.2 = .ok f) (hin : f.Inside v) (hfuel : v.length ≤ fuel)
    (h : ∀ t v', v' ≠ [] → v'.length < v.length → (Overreads schema t v' →
        detect schema false true fuel t (.at v') = .error .fault) ∧ (¬Overreads schema t v' →
        detect schema false true fuel t (.at v') = detect schema true true fuel t (.at v'))) :
    (∃ s, detectChild (detect schema true true fuel) true c = .ok s) ∧
      detectChild (detect schema true true fuel) true c =
        detectChild (detect schema true true v.length) true c ∧
      (ChildOverreads schema c → detectChild (detect schema false true fuel) true c =
        .error .fault) ∧
      (¬ChildOverreads schema c → detectChild (detect schema false true fuel) true c =
        detectChild (detect schema true true fuel) true c) := by
  have hpos := List.length_pos_iff.2 hv
  obtain ⟨k, hk⟩ := Nat.exists_eq_succ_of_ne_zero (by omega : fuel ≠ 0)
  obtain ⟨n, hn⟩ := Nat.exists_eq_succ_of_ne_zero hpos.ne'
  rcases detectChild_cases hv hf hin with ⟨hs, s, -, hd⟩ | ⟨hnull, hd⟩ |
    ⟨v', hv', hlt, hs, hobj, hd⟩
  · refine ⟨⟨s, hd _⟩, by rw [hd, hd], ?_, fun _ => by rw [hd, hd]⟩
    rintro ⟨-, -, -, hs', -⟩
    exact absurd hs hs'
  · rw [hd, hd, hd, hk, hn, detect_null, detect_null, detect_null]
    refine ⟨⟨_, rfl⟩, rfl, ?_, fun _ => rfl⟩
    rintro ⟨f', v', hf', -, hobj, -⟩
    obtain rfl : f = f' := Except.ok.inj (hf.symm.trans hf')
    cases hnull.symm.trans hobj
  · obtain ⟨s, hs', -⟩ := detect_early_safe schema (t := c.1) hv' (hlt.trans_le hfuel)
    obtain ⟨h₁, h₂⟩ := h c.1 v' hv' hlt
    rw [hd, hd, hd]
    refine ⟨⟨s, hs'⟩, detect_early_fuel schema hv' (hlt.trans_le hfuel) hlt, ?_, fun ho => ?_⟩
    · rintro ⟨f', v'', hf', -, hobj', ho⟩
      obtain rfl : f = f' := Except.ok.inj (hf.symm.trans hf')
      obtain rfl : v' = v'' := Ptr.at.inj (Except.ok.inj (hobj.symm.trans hobj'))
      exact h₁ ho
    · exact h₂ fun ho' => ho ⟨f, v', hf, hs, hobj, ho'⟩

/-- The code detects what it would with the end compared first, unless it gets to a message
    whose sections are not in the buffer: then it loads a word outside. -/
theorem detect_cases {fuel : ℕ} {t : Ty} {v : List UInt32} (hv : v ≠ []) (hf : v.length < fuel) :
    (Overreads schema t v → detect schema false true fuel t (.at v) = .error .fault) ∧
      (¬Overreads schema t v →
        detect schema false true fuel t (.at v) = detect schema true true fuel t (.at v)) := by
  induction fuel generalizing t v with
  | zero => exact absurd hf (Nat.not_lt_zero _)
  | succ fuel ih =>
    -- Only the head of a message is loaded before the end is compared; the children are smaller.
    by_cases hcut : ∃ name, t = .message name ∧ Cut v
    · obtain ⟨name, rfl, hc⟩ := hcut
      refine ⟨fun _ => ?_, fun h => absurd (.head hc) h⟩
      rw [detect, show Ty.detectHead false true (.message name) (.at v) = _ from
        (detectMessage_cut hc).1]
      rfl
    · have hhead := detectHead_eq hv fun name hname hc => hcut ⟨name, hname, hc⟩
      obtain ⟨view, hview, -⟩ := detectHead_safe t hv
      rw [detect, detect, hhead, hview, Res.ok_bind, Res.ok_bind]
      by_cases hne : view = WordSlice.null
      · rw [if_pos hne, if_pos hne]
        refine ⟨fun h => ?_, fun _ => rfl⟩
        cases h with
        | head hc => exact absurd ⟨_, rfl, hc⟩ hcut
        | child hview' hne' => exact absurd hne (Except.ok.inj (hview.symm.trans hview') ▸ hne')
      · rw [if_neg hne, if_neg hne]
        obtain ⟨cs, hcs, hall⟩ := children_inside schema t hv hview hne
        -- What is in a container starts behind its head.
        have hchild : ∀ c ∈ cs, _ := fun c hc =>
          have ⟨f, hf', hin⟩ := hall c hc
          detectChild_compare schema hv hf' hin (Nat.le_of_lt_succ hf) fun t v' hv' hlt =>
            ih (t := t) hv' (hlt.trans_le (Nat.le_of_lt_succ hf))
        rw [hcs, Res.ok_bind, Res.ok_bind]
        constructor
        · intro h
          cases h with
          | head hc => exact absurd ⟨_, rfl, hc⟩ hcut
          | @child _ _ v' view' before after t' f hview' _ hcs' hbefore hs hobj ho =>
            obtain rfl : view = view' := Except.ok.inj (hview.symm.trans hview')
            obtain rfl : cs = before ++ (t', .ok f) :: after := Except.ok.inj (hcs.symm.trans hcs')
            refine scan_fault (fun b hb => ?_) ?_
            · obtain ⟨-, hfuel, h₁, h₂⟩ := hchild b (List.mem_append_left _ hb)
              by_cases hbad : ChildOverreads schema b
              · exact .inr (h₁ hbad)
              · exact .inl (by rw [h₂ hbad, hfuel]; exact hbefore b hb)
            · obtain ⟨-, -, h₁, -⟩ :=
                hchild (t', .ok f) (List.mem_append_right _ List.mem_cons_self)
              exact h₁ ⟨f, v', rfl, hs, hobj, ho⟩
        · intro h
          rcases scan_cases view (fun c hc => (hchild c hc).1)
            (fun c hc => (hchild c hc).2.2.2) with
            heq | ⟨before, c, after, rfl, ⟨f, v', hf', hs, hobj, ho⟩, hbefore⟩
          · exact heq
          · -- The scan gets to a message that is cut off, against the assumption.
            obtain ⟨t', r⟩ := c
            obtain rfl : r = .ok f := hf'
            refine absurd (.child hview hne hcs (fun b hb => ?_) hs hobj ho) h
            rw [← (hchild b (List.mem_append_left _ hb)).2.1]
            exact hbefore b hb

/-- The bounded `Detect` functions, on what stands from a pointer in a buffer to its end: they
    load no word outside and find nothing or words from the pointer on, inside the buffer.
    `Message::Detect` does if and only if the sections of the message are in the buffer, and
    `Detect` of a type if and only if it gets to no message whose sections are not. -/
theorem detect_safe_iff (schema : Schema) (v : List UInt32) (hv : v ≠ []) :
    Safe (detectString true (.at v)) v ∧ Safe (detectArray true (.at v)) v ∧
      Safe (detectMap true (.at v)) v ∧
      (Safe (detectMessage false true (.at v)) v ↔ ¬Cut v) ∧
      ∀ t fuel, v.length < fuel →
        (Safe (detect schema false true fuel t (.at v)) v ↔ ¬Overreads schema t v) := by
  have hfault : ∀ {r : Res WordSlice}, r = .error .fault → ¬Safe r v := by
    rintro r rfl ⟨s, h, -⟩
    cases h
  refine ⟨detectString_safe v, detectArray_safe hv, detectMap_safe hv,
    ⟨fun h hc => ?_, fun hc => ?_⟩, fun t fuel hf => ⟨fun h ho => ?_, fun ho => ?_⟩⟩
  · exact hfault (detectMessage_cut hc).1 h
  · obtain ⟨s, hs, -, hin⟩ := detectMessage_of_not_cut hv hc false
    exact ⟨s, hs, hin⟩
  · exact hfault ((detect_cases schema hv hf).1 ho) h
  · rw [(detect_cases schema hv hf).2 ho]
    exact detect_early_safe schema hv hf

/-- A message with a string of one word, whose field is a message again. -/
theorem detect_safe_iff_two :
    let schema : Schema := fun _ => [(0, .str), (1, .message 0)]
    Safe (detect schema false true 4 (.message 0) (.at [0x500, 4, 0])) [0x500, 4, 0] ↔
      ¬Overreads schema (.message 0) [0x500, 4, 0] :=
  (detect_safe_iff (fun _ => [(0, .str), (1, .message 0)]) [0x500, 4, 0] (by decide)).2.2.2.2
    (.message 0) 4
    (by decide)

/-- The head of a message with one section, at the end of the buffer. -/
theorem detect_unsafe : detectMessage false true (.at [1]) = .error .fault ∧
    ¬Safe (detectMessage false true (.at [1])) [1] := by
  have h : detectMessage false true (.at [1]) = .error .fault := (detectMessage_cut (by decide)).1
  refine ⟨h, ?_⟩
  rintro ⟨s, hs, -⟩
  cases h.symm.trans hs

end ProtoCache

import ProtoCache.PerfectHash.Build
import ProtoCache.Serialize.Array

/-!
# Writing a map from its pairs

`SerializeMapFieldByKey` (`src/extension/serialize.cc`): the keys are indexed, and the
pairs are written in the order of the positions that the index gives to their keys.

* `serializeMapFieldByKey_spec`: a map is written, over an index of the keys, whose
  pairs are those given, each at the position of its key.
-/

namespace ProtoCache

open Row LittleEndian

variable {κ β : Type}

/-- The book of the pairs: for every position, which pair has its key there. -/
def fillBook (locate : List UInt8 → Res ℕ) : ℕ → List (List UInt8) → List ℕ → Res (List ℕ)
  | _, [], book => return book
  | i, key :: keys, book => do
    let pos ← locate key
    if pos < book.length then fillBook locate (i + 1) keys (book.set pos i) else .error .fault

/-- The loop over the book, from its end: the value of a pair, and in front of it the
    key. A value is written as that of the pair which has `k` pairs behind it. -/
def putPairs (putKey : κ → Buffer → Res (Unit × Buffer))
    (put : ℕ → β → Buffer → Res (Unit × Buffer)) (pairs : List (κ × β)) :
    List ℕ → Buffer → Res (List (Unit × Unit) × Buffer)
  | [], buf => return ([], buf)
  | i :: book, buf => do
    let (units, buf) ← putPairs putKey put pairs book buf
    let (key, value) ← access pairs[i]?
    let (second, buf) ← put book.length value buf
    let (first, buf) ← putKey key buf
    return ((first, second) :: units, buf)

/-- `SerializeMapFieldByKey`. -/
def serializeMapFieldByKey (hash : List UInt8 → UInt32 → V128) (seeds : ℕ → UInt32)
    (keyBytes : κ → List UInt8) (putKey : κ → Buffer → Res (Unit × Buffer))
    (put : ℕ → β → Buffer → Res (Unit × Buffer)) (pairs : List (κ × β)) (buf : Buffer) :
    Res (Unit × Buffer) := do
  let keys := pairs.map fun pair => keyBytes pair.1
  let index ← PerfectHashObject.build hash (keys.map some) seeds true
  match index.data with
  | none => .error .reject
  | some data => do
    let book ← fillBook (index.locate hash) 0 keys (List.replicate keys.length 0)
    let (units, out) ← putPairs putKey put pairs book buf
    serializeMap data units out buf.length

/-! ## The book -/

theorem fillBook_spec {locate : List UInt8 → Res ℕ} {pos : List UInt8 → ℕ} {n : ℕ}
    {keys : List (List UInt8)} (hloc : ∀ key, locate key = .ok (pos key))
    (hlt : ∀ key ∈ keys, pos key < n) (hinj : (keys.map pos).Nodup) (i : ℕ) {book : List ℕ}
    (hbook : book.length = n) :
    ∃ book', fillBook locate i keys book = .ok book' ∧ book'.length = n ∧
      (∀ j (hj : j < keys.length), book'[pos keys[j]]? = some (i + j)) ∧
      ∀ p, p ∉ keys.map pos → book'[p]? = book[p]? := by
  induction keys generalizing i book with
  | nil => exact ⟨book, rfl, hbook, fun j hj => absurd hj (Nat.not_lt_zero j), fun _ _ => rfl⟩
  | cons key keys ih =>
    rw [List.map_cons, List.nodup_cons] at hinj
    have hpos := hlt key List.mem_cons_self
    obtain ⟨book', h, hlen, hat, hother⟩ := ih (fun k hk => hlt k (.tail _ hk)) hinj.2 (i + 1)
      ((List.length_set).trans hbook : (book.set (pos key) i).length = n)
    refine ⟨book', ?_, hlen, ?_, fun p hp => ?_⟩
    · rw [fillBook, hloc, Res.ok_bind, if_pos (by omega), h]
    · rintro (_ | j) hj
      · rw [List.getElem_cons_zero, hother _ hinj.1, List.getElem?_set_self (by omega)]
        rfl
      · rw [List.getElem_cons_succ, hat j (by simpa using hj)]
        congr 1
        omega
    · rw [List.map_cons, List.mem_cons, not_or] at hp
      rw [hother p hp.2, List.getElem?_set_ne (Ne.symm hp.1)]

/-! ## The pairs -/

section

variable {putKey : κ → Buffer → Res (Unit × Buffer)} {put : ℕ → β → Buffer → Res (Unit × Buffer)}
  {pairs : List (κ × β)} {c₁ c₂ : Option ℕ} {K : κ → List UInt32 → Prop}
  {V : β → List UInt32 → Prop}

theorem putPairs_spec
    (hkey : ∀ p ∈ pairs, ∀ B r, putKey p.1 B = .ok r → Wrote c₁ B r fun q => K p.1 q.words)
    (hput : ∀ p ∈ pairs, ∀ i B r, put i p.2 B = .ok r → Wrote c₂ B r fun q => V p.2 q.words)
    {book : List ℕ} {B out : Buffer} {us : List (Unit × Unit)}
    (h : putPairs putKey put pairs book B = .ok (us, out)) :
    ∃ (slots : List (κ × β)) (ps : List (Piece UInt32 × Piece UInt32)),
      List.Forall₂ (fun i slot => pairs[i]? = some slot) book slots ∧ ps.length = slots.length ∧
      out = outers (flat ps) ++ B ∧ Pairs us ps ∧ Placed B.length (flat us) (flat ps) ∧
      (∀ p ∈ ps, Shaped c₁ p.1 ∧ Shaped c₂ p.2) ∧
      (total (flat ps) + B.length < 2 ^ 32 →
        List.Forall₂ (fun slot p => K slot.1 p.1.words ∧ V slot.2 p.2.words) slots ps) := by
  -- By induction on the book: the later pairs are written first, then the value and the key in
  -- front of them.
  induction book generalizing us out with
  | nil =>
    cases h
    exact ⟨[], [], .nil, rfl, rfl, ⟨.nil, .nil⟩, trivial, fun _ hp => absurd hp List.not_mem_nil,
      fun _ => .nil⟩
  | cons i book ih =>
    rw [putPairs] at h
    obtain ⟨⟨us, out₁⟩, h₁, h⟩ := Res.bind_eq_ok.1 h
    obtain ⟨⟨key, value⟩, hpair, h⟩ := Res.bind_eq_ok.1 h
    obtain ⟨⟨u₂, out₂⟩, h₂, h⟩ := Res.bind_eq_ok.1 h
    obtain ⟨⟨u₁, out₃⟩, h₃, h⟩ := Res.bind_eq_ok.1 h
    cases h
    have hpair := access_eq_ok.1 hpair
    have hmem := List.mem_of_getElem? hpair
    obtain ⟨slots, ps, hbook, hlen, rfl, ⟨hs₁, hs₂⟩, hp, hc, hcontent⟩ := ih h₁
    obtain ⟨q₂, rfl, hon₂, hne₂, -, hc₂, hV⟩ := hput _ hmem _ _ _ h₂
    obtain ⟨q₁, rfl, hon₁, hne₁, -, hc₁, hK⟩ := hkey _ hmem _ _ h₃
    have hbase : (outers (flat ps) ++ B).length = B.length + (outers (flat ps)).length := by
      rw [List.length_append, Nat.add_comm]
    refine ⟨(key, value) :: slots, (q₁, q₂) :: ps, .cons hpair hbook, by simp [hlen], by simp,
      ⟨.cons ⟨hon₁.1, hne₁⟩ hs₁, .cons ⟨hon₂.1, hne₂⟩ hs₂⟩, ?_, ?_, fun hlt => ?_⟩
    · rw [flat_cons, flat_cons]
      refine placed_cons ?_ (placed_cons ?_ hp)
      · rw [outers_cons, List.length_append, Nat.add_left_comm, ← hbase, ← List.length_append]
        exact hon₁
      · rw [← hbase]
        exact hon₂
    · exact List.forall_mem_cons.2 ⟨⟨hc₁, hc₂⟩, hc⟩
    · rw [flat_cons, total_cons, total_cons] at hlt
      dsimp only at hlt
      have hle := outers_le_total (flat ps)
      have hle₂ : q₂.outer.length ≤ q₂.words.length := by
        cases q₂ <;> simp [Piece.outer, Piece.words]
      refine .cons ⟨hK ?_, hV ?_⟩ (hcontent (by omega))
      · rw [List.length_append, hbase]
        omega
      · rw [hbase]
        omega

/-- What a book of all the pairs says is all the pairs. -/
theorem perm_of_book {book : List ℕ} {slots : List (κ × β)} (hlen : book.length = pairs.length)
    (hall : ∀ i < pairs.length, i ∈ book)
    (h : List.Forall₂ (fun i slot => pairs[i]? = some slot) book slots) : slots.Perm pairs := by
  have hbook : (List.range pairs.length).Perm book := by
    refine (List.subperm_of_subset List.nodup_range fun i hi => ?_).perm_of_length_le ?_
    · exact hall i (List.mem_range.1 hi)
    · rw [List.length_range, hlen]
  have hslots : slots.map some = book.map (pairs[·]?) := by
    rw [← List.forall₂_eq_eq_eq, List.forall₂_map_left_iff, List.forall₂_map_right_iff]
    exact (h.imp fun _ _ h => h.symm).flip
  have hpairs : pairs.map some = (List.range pairs.length).map (pairs[·]?) := by
    refine List.ext_getElem? fun i => ?_
    rw [List.getElem?_map, List.getElem?_map]
    rcases Nat.lt_or_ge i pairs.length with hi | hi
    · rw [List.getElem?_range hi, List.getElem?_eq_getElem hi, Option.map_some, Option.map_some,
        List.getElem?_eq_getElem hi]
    · rw [List.getElem?_eq_none hi, List.getElem?_eq_none (by rwa [List.length_range])]
      rfl
  have hperm : (slots.map some).Perm (pairs.map some) := by
    rw [hslots, hpairs]
    exact (hbook.map _).symm
  have := hperm.filterMap id
  simpa [List.filterMap_map] using this

/-- A map over an index of its keys. -/
structure IsKeyed (hash : List UInt8 → UInt32 → V128) (keys : List (List UInt8))
    (pos : List UInt8 → ℕ) (index : List UInt8) : Prop where
  numbers : ∃ (obj : PerfectHashObject) (body : List UInt8), obj.Numbers hash keys index body pos
  length : keys.length < 2 ^ 28

/-- What `PerfectHashObject::Build` makes of keys is an index of them. -/
theorem IsKeyed.of_build {hash : List UInt8 → UInt32 → V128} {seeds : ℕ → UInt32}
    {keys : List (List UInt8)} {obj : PerfectHashObject} {index : List UInt8}
    (h : PerfectHashObject.build hash (keys.map some) seeds true = .ok obj)
    (hd : obj.data = some index) :
    ∃ body pos, obj.Numbers hash keys index body pos ∧ IsKeyed hash keys pos index := by
  have hn : keys.length < 2 ^ 28 := by
    by_contra hge
    rw [PerfectHashObject.build, if_pos (by simpa using hge)] at h
    cases h
    cases hd
  obtain ⟨body, pos, hnum⟩ := PerfectHashObject.build_spec hn h hd
  exact ⟨body, pos, hnum, ⟨obj, body, hnum⟩, hn⟩

/-- The words of a map of the pairs: each is at the position of its key. -/
def IsMapOf (hash : List UInt8 → UInt32 → V128) (keyBytes : κ → List UInt8) (c₁ c₂ : Option ℕ)
    (K : κ → List UInt32 → Prop) (V : β → List UInt32 → Prop) (pairs : List (κ × β))
    (w : List UInt32) : Prop :=
  ∃ (index : List UInt8) (pos : List UInt8 → ℕ) (slots : List (κ × β))
    (qs : List (Piece UInt32 × Piece UInt32)) (m₁ m₂ : ℕ),
    slots.Perm pairs ∧ IsKeyed hash (pairs.map fun p => keyBytes p.1) pos index ∧
    (∀ s (hs : s < slots.length), pos (keyBytes slots[s].1) = s) ∧ IsMap m₁ m₂ index qs w ∧
    List.Forall₂ (fun slot q => (K slot.1 q.1.words ∧ InColumn c₁ m₁ q.1) ∧
      V slot.2 q.2.words ∧ InColumn c₂ m₂ q.2) slots qs

/-- `SerializeMapFieldByKey` writes the map of the pairs. -/
theorem serializeMapFieldByKey_spec {hash : List UInt8 → UInt32 → V128} {seeds : ℕ → UInt32}
    {keyBytes : κ → List UInt8} {B : Buffer} {r : Unit × Buffer}
    (hkey : ∀ p ∈ pairs, ∀ B r, putKey p.1 B = .ok r → Wrote c₁ B r fun q => K p.1 q.words)
    (hput : ∀ p ∈ pairs, ∀ i B r, put i p.2 B = .ok r → Wrote c₂ B r fun q => V p.2 q.words)
    (h : serializeMapFieldByKey hash seeds keyBytes putKey put pairs B = .ok r) :
    Wrote none B r fun p => IsMapOf hash keyBytes c₁ c₂ K V pairs p.words := by
  rw [serializeMapFieldByKey] at h
  dsimp only at h
  set keys := pairs.map fun p => keyBytes p.1 with hkeys
  have hklen : keys.length = pairs.length := List.length_map ..
  obtain ⟨obj, hbuild, h⟩ := Res.bind_eq_ok.1 h
  cases hd : obj.data with
  | none => rw [hd] at h; cases h
  | some data =>
    rw [hd] at h
    obtain ⟨book, hbook, h⟩ := Res.bind_eq_ok.1 h
    obtain ⟨⟨us, out⟩, hput', h⟩ := Res.bind_eq_ok.1 h
    obtain ⟨body, pos, hnum, hkeyed⟩ := IsKeyed.of_build hbuild hd
    -- The perfect hash numbers the keys without a gap, so the book is a permutation of the pairs.
    have hpos : ∀ key ∈ keys, pos key < keys.length := fun key hk => hnum.bijOn.mapsTo hk
    have hinj : (keys.map pos).Nodup :=
      hnum.nodup.map_on fun a ha b hb hab => hnum.bijOn.injOn ha hb hab
    obtain ⟨book', hbook', hblen, hat, -⟩ := fillBook_spec hnum.locate hpos hinj 0
      (List.length_replicate .. : (List.replicate keys.length 0).length = keys.length)
    obtain rfl : book = book' := Except.ok.inj (hbook.symm.trans hbook')
    obtain ⟨slots, ps, hslots, hlen, rfl, hpairs, hplaced, hc, hcontent⟩ :=
      putPairs_spec hkey hput hput'
    have hperm : slots.Perm pairs := by
      refine perm_of_book (by omega) (fun i hi => ?_) hslots
      exact List.mem_of_getElem? ((hat i (by omega)).trans (by rw [Nat.zero_add]))
    -- For no pairs the index is the word of an empty object.
    have hempty : ps = [] → data = [0, 0, 0, 0] := by
      rintro rfl
      have h0 : keys.length = 0 := by rw [hklen, ← hperm.length_eq, ← hlen]; rfl
      have hbody := hnum.length
      rw [hnum.data_eq, h0, List.length_append, length_toLE, indexBytes, if_neg (by omega)] at hbody
      rw [hnum.data_eq, h0, List.length_eq_zero_iff.1 (by omega : body.length = 0)]
      rfl
    obtain ⟨u, buf⟩ := r
    refine (serializeMap_spec hpairs hplaced hc hempty h).imp ?_
    rintro p hlt ⟨htotal, m₁, m₂, hmap, hin⟩
    refine ⟨data, pos, slots, ps.map (pickPair m₁ m₂), m₁, m₂, hperm, hkeyed, ?_, hmap, ?_⟩
    · intro s hs
      have hs' : s < keys.length := by rw [hklen, ← hperm.length_eq]; exact hs
      -- A slot holds the pair whose key the index gives it.
      obtain ⟨key, hk, rfl⟩ := hnum.bijOn.surjOn (Set.mem_Iio.2 hs')
      obtain ⟨i, hi, rfl⟩ := List.getElem_of_mem hk
      have hslot := hslots.get (hblen ▸ hs') hs
      rw [List.get_eq_getElem, List.get_eq_getElem, (List.getElem_eq_iff _).2 (hat i hi),
        Nat.zero_add, List.getElem?_eq_getElem (by omega : i < pairs.length)] at hslot
      rw [← Option.some.inj hslot, List.getElem_map]
    · rw [List.forall₂_map_right_iff]
      refine (Pointwise.and_right (hcontent (by omega)) hin).imp ?_
      rintro slot q ⟨⟨hK, hV⟩, h₁, h₂⟩
      rw [pickPair, words_pickPiece, words_pickPiece]
      exact ⟨⟨hK, h₁⟩, hV, h₂⟩

end

end ProtoCache

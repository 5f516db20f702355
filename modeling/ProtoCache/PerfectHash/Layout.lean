import ProtoCache.Lib.Ensures
import ProtoCache.PerfectHash.Build

/-!
# The bytes of an index

How long the index of a perfect hash is follows from the number of its keys. `Build`
(`src/perfect_hash.cc`) lays out the header, the bitmap and, if the bitmap has more than one
block, a table with an entry for each block, of the size of a `Word`; the constructor of
`PerfectHash` and `Locate` go by thresholds of the number instead.

* `build_layout`: the data of what is built, whether or not the keys can be read, are of
  these parts;
* `layoutBytes_eq`, `tableEntry_eq`, `block_lt_iff`: the thresholds come to the same.
-/

namespace ProtoCache

open LittleEndian Outcome

/-! ## The builder -/

/-- The size of the `Word` that `PerfectHashObject::Build` chooses. -/
def builderWord (total : ℕ) : ℕ := if total > 65535 then 4 else if total > 255 then 2 else 1

/-- The table that `Build` lays out: the width of an entry, and how many blocks have one. -/
def builderTable (total : ℕ) : ℕ × ℕ :=
  let bmsz := bitmapSize (sectionFor total)
  if total > 1 ∧ bmsz > 8 then (builderWord total, bmsz / 8) else (0, 0)

/-- `data_size` of `PerfectHashObject::Build`. -/
def layoutBytes (total : ℕ) : ℕ :=
  if total > 1 then
    8 + bitmapSize (sectionFor total) + (builderTable total).2 * (builderTable total).1 else 4

/-! ## What is built -/

theorem access_ensures {α : Type} (o : Option α) :
    Ensures (fun _ => True) (fun a => o = some a) (access o) := by
  cases o <;> trivial

theorem setBit2on11_length (vec : List UInt8) (pos : ℕ) (val : UInt8) :
    Ensures (fun _ => True) (fun vec' => vec'.length = vec.length) (setBit2on11 vec pos val) :=
  (access_ensures _).bind fun _ _ => List.length_set

theorem bit2_ensures (vec : List UInt8) (pos : ℕ) :
    Ensures (fun _ => True) (fun _ => True) (bit2 vec pos) :=
  (access_ensures _).bind fun _ _ => trivial

theorem mapEdge_length (a b c : ℕ) (bitmap : List UInt8) (book : ℕ → Bool) :
    Ensures (fun _ => True) (fun r => r.1.length = bitmap.length) (mapEdge a b c bitmap book) := by
  have hset : ∀ p q pos (f : ℕ → UInt8) (book' : ℕ → Bool), Ensures (fun _ => True)
      (fun r : List UInt8 × (ℕ → Bool) => r.1.length = bitmap.length) (do
        let sum := (← bit2 bitmap p) + (← bit2 bitmap q)
        let bitmap ← setBit2on11 bitmap pos (f sum)
        return (bitmap, book') : Res (List UInt8 × (ℕ → Bool))) := by
    intro p q pos f book'
    refine (bit2_ensures _ _).bind fun _ _ => (bit2_ensures _ _).bind fun _ _ => ?_
    exact (setBit2on11_length _ _ _).bind fun _ h => h
  rw [mapEdge]
  split
  · exact hset _ _ _ (fun sum => UInt8.ofNat ((6 - sum) % 3)) _
  · split
    · exact hset _ _ _ (fun sum => UInt8.ofNat ((7 - sum) % 3)) _
    · split
      · exact hset _ _ _ (fun sum => UInt8.ofNat ((8 - sum) % 3)) _
      · rfl

theorem mapping_length (g : Graph) (n : ℕ) (free : List ℕ) : Ensures (fun _ => True)
    (fun bitmap => bitmap.length = bitmapSize (sectionFor n)) (mapping g n free) := by
  have hloop : ∀ edges bitmap book, Ensures (fun _ => True) (fun r => r.length = bitmap.length)
      (mappingLoop g (sectionFor n) edges bitmap book) := by
    intro edges
    induction edges with
    | nil => exact fun bitmap book => rfl
    | cons idx edges ih =>
      intro bitmap book
      rw [mappingLoop]
      exact (mapEdge_length _ _ _ _ _).bind fun r hr => (ih r.1 r.2).mono fun _ h => h.trans hr
  exact (hloop _ _ _).mono fun bitmap h => h.trans List.length_replicate

/-- The bitmap of a try, whatever the keys are. -/
theorem tryBuild_length {hash : List UInt8 → UInt32 → V128} {w : ℕ}
    {source : List (Option (List UInt8))} {total : ℕ} {divisor : Divisor} {seed : UInt32}
    {bitmap : List UInt8} (h : tryBuild hash w source total divisor seed = .ok (some bitmap)) :
    bitmap.length = bitmapSize (sectionFor total) := by
  rw [tryBuild] at h
  split at h
  · cases h
  · split at h
    · cases h
    · obtain ⟨bitmap', hmap, h⟩ := Res.bind_eq_ok.1 h
      cases h
      exact (mapping_length _ _ _).of_ok hmap

/-- The table is of one entry for each block. -/
theorem buildTable_entries (w : ℕ) (bitmap : List UInt8) (k i cnt : ℕ) :
    Ensures (fun _ => True) (fun table => ∃ cnts : List ℕ,
      cnts.length = k ∧ table = cnts.flatMap (toLE w))
      (buildTable w bitmap k i cnt) := by
  induction k generalizing i cnt with
  | zero => exact ⟨[], rfl, rfl⟩
  | succ k ih =>
    rw [buildTable]
    have hread : Ensures (fun _ => True) (fun _ => True) (readLE bitmap (8 * i) 8) :=
      (access_ensures _).bind fun _ _ => trivial
    refine hread.bind fun block _ => (ih _ _).bind fun table htable => ?_
    obtain ⟨cnts, hlen, rfl⟩ := htable
    exact ⟨cnt :: cnts, congrArg (· + 1) hlen, List.flatMap_cons.symm⟩

theorem length_entries (w : ℕ) (cnts : List ℕ) :
    (cnts.flatMap (toLE w)).length = cnts.length * w := by
  induction cnts with
  | nil => exact (Nat.zero_mul w).symm
  | cons cnt cnts ih =>
    rw [List.flatMap_cons, List.length_append, length_toLE, ih, List.length_cons, Nat.succ_mul,
      Nat.add_comm]

/-- The data are the number of keys and a seed, a bitmap, and a table. -/
def Parts (n : ℕ) (data : List UInt8) : Prop :=
  ∃ (seed : UInt32) (bitmap : List UInt8) (cnts : List ℕ),
    data = toLE 4 n ++ toLE 4 seed.toNat ++ bitmap ++ cnts.flatMap (toLE (builderTable n).1) ∧
      bitmap.length = bitmapSize (sectionFor n) ∧ cnts.length = (builderTable n).2

/-- What `Build` lays out for two keys or more. -/
theorem buildData_parts {hash : List UInt8 → UInt32 → V128} {w : ℕ}
    {source : List (Option (List UInt8))} {seeds : ℕ → UInt32} {noCheck : Bool} {divisor : Divisor}
    {data : List UInt8} (h2 : source.length > 1) (hw : w = builderWord source.length)
    (h : buildData hash w source seeds noCheck = .ok (some (divisor, data))) :
    Parts source.length data := by
  rw [buildData] at h
  obtain ⟨r, hr, h⟩ := Res.bind_eq_ok.1 h
  cases r with
  | none => cases h
  | some found =>
    obtain ⟨seed, bitmap⟩ := found
    obtain ⟨table, htable, h⟩ := Res.bind_eq_ok.1 h
    cases h
    have hentries : ∃ cnts : List ℕ, cnts.length = (builderTable source.length).2 ∧
        table = cnts.flatMap (toLE (builderTable source.length).1) := by
      rw [builderTable]
      split at htable
      · next h8 =>
        rw [if_pos ⟨h2, h8⟩, ← hw]
        exact (buildTable_entries _ _ _ _ _).of_ok htable
      · next h8 =>
        cases htable
        rw [if_neg fun h => h8 h.2]
        exact ⟨[], rfl, rfl⟩
    obtain ⟨cnts, hcnts, rfl⟩ := hentries
    exact ⟨seed, bitmap, cnts, rfl, tryBuild_length (findSeed_spec hr), hcnts⟩

theorem Parts.length_eq {n : ℕ} {data : List UInt8} (h : Parts n data) (h2 : n > 1) :
    data.length = layoutBytes n := by
  obtain ⟨seed, bitmap, cnts, rfl, hbitmap, hcnts⟩ := h
  rw [layoutBytes, if_pos h2]
  simp only [List.length_append, length_toLE, hbitmap, length_entries, hcnts]

/-- What is built: the length of the data, and, for two keys or more, their parts. -/
theorem build_layout {hash : List UInt8 → UInt32 → V128} {source : List (Option (List UInt8))}
    {seeds : ℕ → UInt32} {noCheck : Bool} {obj : PerfectHashObject} {data : List UInt8}
    (h : PerfectHashObject.build hash source seeds noCheck = .ok obj) (hd : obj.data = some data) :
    obj.dataSize = layoutBytes source.length ∧ data.length = layoutBytes source.length ∧
      (source.length > 1 → Parts source.length data) := by
  have hword : ∀ w, source.length > 1 → w = builderWord source.length →
      PerfectHashObject.ofWord hash w source seeds noCheck = .ok obj →
      obj.dataSize = layoutBytes source.length ∧ data.length = layoutBytes source.length ∧
        (source.length > 1 → Parts source.length data) := by
    intro w h2 hw h
    rw [PerfectHashObject.ofWord] at h
    obtain ⟨r, hr, h⟩ := Res.bind_eq_ok.1 h
    cases r with
    | none =>
      cases h
      cases hd
    | some built =>
      cases h
      cases hd
      have hparts := buildData_parts h2 hw hr
      exact ⟨hparts.length_eq h2, hparts.length_eq h2, fun _ => hparts⟩
  rw [PerfectHashObject.build] at h
  split at h
  · cases h
    cases hd
  · split at h
    · next h4 => exact hword 4 (by omega) (by rw [builderWord, if_pos h4]) h
    · next h4 =>
      split at h
      · next h2 => exact hword 2 (by omega) (by rw [builderWord, if_neg h4, if_pos h2]) h
      · next h2 =>
        split at h
        · next h1 => exact hword 1 h1 (by rw [builderWord, if_neg h4, if_neg h2]) h
        · next h1 =>
          cases h
          cases hd
          rw [layoutBytes, if_neg h1, length_toLE]
          exact ⟨rfl, rfl, fun h => absurd h h1⟩

/-! ## The reader -/

/-- The bitmap has more than one block from 25 keys on. -/
theorem bitmapSize_gt_iff (n : ℕ) : bitmapSize (sectionFor n) > 8 ↔ n > 24 := by
  rw [bitmapSize_eq, sectionFor]
  omega

/-- The entries of the table are as wide as `PerfectHash` takes them to be. -/
theorem builderTable_fst (n : ℕ) : (builderTable n).1 = tableWidth n := by
  rw [builderTable, builderWord, tableWidth]
  have hblocks := bitmapSize_gt_iff n
  by_cases h24 : n > 24
  · rw [if_pos ⟨by omega, hblocks.2 h24⟩]
    split
    · rfl
    · split <;> rfl
  · rw [if_neg fun h => h24 (hblocks.1 h.2), if_neg (by omega), if_neg (by omega), if_neg h24]

/-- The constructor of `PerfectHash` counts the bytes that `Build` lays out. -/
theorem layoutBytes_eq (n : ℕ) : layoutBytes n = indexBytes n := by
  rw [layoutBytes, indexBytes, ← builderTable_fst, builderTable]
  split
  · split <;> rfl
  · rfl

/-- `Locate` looks up entries of the builder's width. -/
theorem tableEntry_eq (bitmap : List UInt8) (table n a : ℕ) :
    tableEntry bitmap table n a = if (builderTable n).1 = 0 then .ok 0
      else readLE bitmap (table + (builderTable n).1 * a) (builderTable n).1 := by
  rw [builderTable_fst, tableEntry, tableWidth]
  split
  · rfl
  · split
    · rfl
    · split
      · rw [Nat.one_mul]
        rfl
      · rfl

/-- Where there is a table, the slots lie in as many blocks as it has entries for. -/
theorem block_lt_iff {n : ℕ} (h : (builderTable n).1 ≠ 0) (a : ℕ) :
    (∃ slot < 3 * sectionFor n, slot / 32 = a) ↔ a < (builderTable n).2 := by
  rw [builderTable] at h ⊢
  split at h
  · next h8 =>
    rw [if_pos h8, bitmapSize_eq]
    constructor
    · rintro ⟨slot, hslot, rfl⟩
      dsimp only
      omega
    · intro ha
      dsimp only at ha
      exact ⟨32 * a, by omega, by omega⟩
  · exact absurd rfl h

end ProtoCache

import ProtoCache.PerfectHash.Locate

/-!
# Building a perfect hash

`PerfectHashObject::Build` (`src/perfect_hash.cc`) tries seeds until the graph of
the keys can be taken apart, maps the keys to slots, and lays out the index. The
hash function and the stream of seeds are parameters.

* `build_index`: what is built for two keys or more is an index (`Index`) of slots
  that the keys own;
* `build_spec`: a perfect hash that is built numbers its keys, which are distinct,
  and is read back from its data as it is.
-/

namespace ProtoCache

open LittleEndian

section

variable (hash : List UInt8 → UInt32 → V128)

/-! ## Checking for equal keys -/

/-- The insertion of `Check`, with `k` probes left, from the cell `pos`. -/
def checkInsert (m : ℕ) (code : V128) : ℕ → ℕ → List V128 → Res (Option (List V128))
  | 0, _, _ => .ok none
  | k + 1, pos, space => do
    let c ← access space[pos]?
    if c.u0 &&& 1 = 0 then return some (space.set pos code)
    else if c = code then return none
    else checkInsert m code k (if pos + 1 ≥ m then 0 else pos + 1) space

/-- The loop of `Check` over the keys. -/
def checkLoop (n m : ℕ) (seed : UInt32) :
    List (Option (List UInt8)) → List V128 → Res Bool
  | [], _ => .ok true
  | none :: _, _ => .ok false
  | some key :: source, space => do
    let code := hash key seed
    match ← checkInsert m { code with u0 := code.u0 ||| 1 } n (code.u0.toNat % m) space with
    | none => return false
    | some space => checkLoop n m seed source space

/-- `Check`: false if two keys have the same code. -/
def check (source : List (Option (List UInt8))) (n : ℕ) (seed : UInt32) : Res Bool :=
  checkLoop hash n (n * 2) seed source (List.replicate (n * 2) ⟨0, 0, 0, 0⟩)

/-! ## Building -/

/-- One try, with `Word` of `w` bytes: the bitmap, if the graph can be taken apart.
    `CreateGraph` stores all that the others read of the scratch space. -/
def tryBuild (w : ℕ) (source : List (Option (List UInt8))) (total : ℕ) (divisor : Divisor)
    (seed : UInt32) : Res (Option (List UInt8)) :=
  let kEnd := 256 ^ w - 1
  match createGraph kEnd hash source seed ⟨fun _ _ => ⟨0, 0, 0⟩, fun _ => 0⟩ divisor with
  | none => .ok none
  | some g =>
    match tearGraph kEnd g total with
    | none => .ok none
    | some (g, free) => do return some (← mapping g total free)

/-- A loop of `Build` over seeds: the first for which a try succeeds. -/
def tryBuilds (w : ℕ) (source : List (Option (List UInt8))) (total : ℕ) (divisor : Divisor)
    (seeds : ℕ → UInt32) : ℕ → ℕ → Res (Option (UInt32 × List UInt8))
  | 0, _ => .ok none
  | k + 1, i => do
    match ← tryBuild hash w source total divisor (seeds i) with
    | some bitmap => return some (seeds i, bitmap)
    | none => tryBuilds w source total divisor seeds k (i + 1)

/-- The loop of `Build` over the blocks of the bitmap: the table of ranks, from the
    block `i` on, counted in a `Word` of `w` bytes. -/
def buildTable (w : ℕ) (bitmap : List UInt8) : ℕ → ℕ → ℕ → Res (List UInt8)
  | 0, _, _ => .ok []
  | k + 1, i, cnt => do
    let block := UInt64.ofNat (← readLE bitmap (8 * i) 8)
    let table ← buildTable w bitmap k (i + 1) ((cnt + countValidSlot block) % 256 ^ w)
    return toLE w cnt ++ table

/-- The tries of `Build`, with a look for equal keys after the first ones. -/
def findSeed (w : ℕ) (source : List (Option (List UInt8))) (total : ℕ) (divisor : Divisor)
    (seeds : ℕ → UInt32) (noCheck : Bool) : Res (Option (UInt32 × List UInt8)) := do
  let firstTries := if w = 1 then 8 else 4
  let secondTries := if w = 1 then 32 else 12
  match ← tryBuilds hash w source total divisor seeds firstTries 0 with
  | some found => return some found
  | none =>
    if noCheck then tryBuilds hash w source total divisor seeds secondTries firstTries
    else if ← check hash source total (seeds (firstTries - 1)) then
      tryBuilds hash w source total divisor seeds secondTries firstTries
    else return none

/-- `Build`: the divisor and the data. -/
def buildData (w : ℕ) (source : List (Option (List UInt8))) (seeds : ℕ → UInt32) (noCheck : Bool) :
    Res (Option (Divisor × List UInt8)) := do
  let total := source.length
  let bmsz := bitmapSize (sectionFor total)
  let divisor := Divisor.ofValue (UInt32.ofNat (sectionFor total))
  match ← findSeed hash w source total divisor seeds noCheck with
  | none => return none
  | some (seed, bitmap) => do
    let table ← (if bmsz > 8 then buildTable w bitmap (bmsz / 8) 0 0 else .ok [])
    return some (divisor, toLE 4 total ++ toLE 4 seed.toNat ++ bitmap ++ table)

/-- `PerfectHashObject`, with the divisor in front of its data. -/
structure PerfectHashObject extends PerfectHash where
  divisor : Divisor
  deriving DecidableEq

/-- The branches of `PerfectHashObject::Build` for two keys or more, with `Word` of
    `w` bytes. -/
def PerfectHashObject.ofWord (w : ℕ) (source : List (Option (List UInt8))) (seeds : ℕ → UInt32)
    (noCheck : Bool) : Res PerfectHashObject := do
  match ← buildData hash w source seeds noCheck with
  | none => return { divisor := ⟨0, 0, 0, 0⟩ }
  | some (divisor, data) =>
    return ⟨⟨if data.length > 8 then sectionFor source.length else 0, data.length, data⟩, divisor⟩

/-- `PerfectHashObject::Build`; without data if the keys cannot be hashed. -/
def PerfectHashObject.build (source : List (Option (List UInt8))) (seeds : ℕ → UInt32)
    (noCheck : Bool) : Res PerfectHashObject :=
  let total := source.length
  if total ≥ 2 ^ 28 then .ok { divisor := ⟨0, 0, 0, 0⟩ }
  else if total > 65535 then ofWord hash 4 source seeds noCheck
  else if total > 255 then ofWord hash 2 source seeds noCheck
  else if total > 1 then ofWord hash 1 source seeds noCheck
  else .ok ⟨⟨0, 4, toLE 4 total⟩, Divisor.ofValue 0⟩

/-- `PerfectHashObject::Locate`; without data, `UINT32_MAX`. -/
def PerfectHashObject.locate (h : PerfectHashObject) (key : List UInt8) : Res ℕ :=
  match h.data with
  | none => .ok 0xffffffff
  | some mem => do
    if realSize (← readLE mem 0 4) < 2 then return 0
    else do
      let seed := UInt32.ofNat (← readLE mem 4 4)
      let code := hash key seed
      locateSlots mem h.section_ fun j => (h.divisor.mod (code.u32 j)).toNat +
        h.divisor.val.toNat * j

end

/-! ## What is built -/

/-- The slots of the keys in the thirds of the table. -/
def slotOf (hash : List UInt8 → UInt32 → V128) (m : ℕ) (seed : UInt32) (keys : List (List UInt8))
    (e : ℕ) (j : Fin 3) : ℕ :=
  ((hash (keys.getD e []) seed).u32 j).toNat % m

theorem sectionFor_pos (n : ℕ) : 0 < sectionFor n := by
  rw [sectionFor]
  omega

/-- Remainders by the divisor of `Build` are those by the size of a section. -/
theorem ofValue_sectionFor {n : ℕ} (hn : n < 2 ^ 28) :
    (Divisor.ofValue (UInt32.ofNat (sectionFor n))).val.toNat = sectionFor n ∧
      ∀ x, ((Divisor.ofValue (UInt32.ofNat (sectionFor n))).mod x).toNat =
        x.toNat % sectionFor n := by
  have hlt : sectionFor n < 2 ^ 32 := by rw [sectionFor]; omega
  have hval : (UInt32.ofNat (sectionFor n)).toNat = sectionFor n := by
    rw [UInt32.toNat_ofNat', Nat.mod_eq_of_lt hlt]
  have hne : UInt32.ofNat (sectionFor n) ≠ 0 := fun h => by
    have := sectionFor_pos n
    rw [h] at hval
    exact this.ne hval
  refine ⟨by rw [(Divisor.ofValue_spec hne).1, hval], fun x => ?_⟩
  rw [Divisor.mod_eq hne, UInt32.toNat_mod, hval]

variable {hash : List UInt8 → UInt32 → V128}

/-- A try that succeeds gives every key a slot of its own. -/
theorem tryBuild_spec {w : ℕ} {keys : List (List UInt8)} {seed : UInt32} {bitmap : List UInt8}
    (hn : keys.length < 2 ^ 28) (hw : keys.length ≤ 256 ^ w - 1)
    (hm : sectionFor keys.length ≤ 256 ^ w - 1)
    (h : tryBuild hash w (keys.map some) keys.length
      (Divisor.ofValue (UInt32.ofNat (sectionFor keys.length))) seed = .ok (some bitmap)) :
    bitmap.length = bitmapSize (sectionFor keys.length) ∧ Owners keys.length
      (sectionFor keys.length) (slotOf hash (sectionFor keys.length) seed keys) bitmap := by
  obtain ⟨hval, hmod⟩ := ofValue_sectionFor hn
  have hslot : ∀ e < keys.length, ∀ j,
      slotOf hash (sectionFor keys.length) seed keys e j < sectionFor keys.length :=
    fun e _ j => Nat.mod_lt _ (sectionFor_pos _)
  rw [tryBuild] at h
  split at h
  · cases h
  · rename_i g hg
    split at h
    · cases h
    · rename_i g' free htear
      -- The graph lists, for each vertex, the edges that have it.
      have hpart : ∀ j, g.Part (256 ^ w - 1) (slotOf hash (sectionFor keys.length) seed keys) j
          (List.range keys.length).reverse := by
        have := fun j => createGraph_spec (by simpa using hw) (by rw [hval]; exact hm)
          (by simpa [hval] using hslot) (fun i key hkey => funext fun j => ?_) hg j
        · simpa using this
        · rw [List.getElem?_map, Option.map_eq_some_iff] at hkey
          obtain ⟨_, hkey, ⟨⟩⟩ := hkey
          rw [hmod, slotOf, List.getD_eq_getElem?_getD, hkey]
          rfl
      obtain ⟨hlen, hnd, hlt, hpeel, hslots⟩ := tearGraph_spec hw hpart htear
      obtain ⟨bitmap', hmap, hl, howners⟩ := mapping_spec hslots hslot hlen hnd hlt hpeel
      rw [hmap] at h
      cases h
      exact ⟨hl, howners⟩

/-- The tries end with a seed for which one succeeds. -/
theorem tryBuilds_spec {w : ℕ} {source : List (Option (List UInt8))} {total : ℕ} {divisor : Divisor}
    {seeds : ℕ → UInt32} {seed : UInt32} {bitmap : List UInt8} (k i : ℕ)
    (h : tryBuilds hash w source total divisor seeds k i = .ok (some (seed, bitmap))) :
    tryBuild hash w source total divisor seed = .ok (some bitmap) := by
  induction k generalizing i with
  | zero => cases h
  | succ k ih =>
    rw [tryBuilds] at h
    obtain ⟨r, hr, h⟩ := Res.bind_eq_ok.1 h
    cases r with
    | none => exact ih (i + 1) h
    | some b => cases h; exact hr

/-- What `Build` finds is a seed for which a try succeeds. -/
theorem findSeed_spec {w : ℕ} {source : List (Option (List UInt8))} {total : ℕ} {divisor : Divisor}
    {seeds : ℕ → UInt32} {noCheck : Bool} {seed : UInt32} {bitmap : List UInt8}
    (h : findSeed hash w source total divisor seeds noCheck = .ok (some (seed, bitmap))) :
    tryBuild hash w source total divisor seed = .ok (some bitmap) := by
  rw [findSeed] at h
  obtain ⟨r, hr, h⟩ := Res.bind_eq_ok.1 h
  cases r with
  | some found => cases h; exact tryBuilds_spec _ _ hr
  | none =>
    by_cases hc : noCheck = true
    · rw [if_pos hc] at h
      exact tryBuilds_spec _ _ h
    · rw [if_neg hc] at h
      obtain ⟨ok, -, h⟩ := Res.bind_eq_ok.1 h
      split at h
      · exact tryBuilds_spec _ _ h
      · cases h

/-- The table of ranks: no entry overflows its `Word`. -/
theorem buildTable_spec {w : ℕ} {bitmap : List UInt8}
    (hw : rank bitmap (4 * bitmap.length) < 256 ^ w) (k i : ℕ) (hk : i + k = bitmap.length / 8) :
    ∃ table, buildTable w bitmap k i (rank bitmap (32 * i)) = .ok table ∧ table.length = w * k ∧
      ∀ a < k, readLE table (w * a) w = .ok (rank bitmap (32 * (i + a))) := by
  have hrank : ∀ a ≤ bitmap.length / 8, rank bitmap (32 * a) < 256 ^ w := fun a ha =>
    Nat.lt_of_le_of_lt (Nat.count_monotone _ (by omega)) hw
  induction k generalizing i with
  | zero => exact ⟨[], rfl, rfl, by simp⟩
  | succ k ih =>
    obtain ⟨table, htable, hl, hread⟩ := ih (i + 1) (by omega)
    have hblock : 8 * i + 8 ≤ bitmap.length := by omega
    have hrank' := hrank (i + 1) (by omega)
    have hload : readLE bitmap (8 * i) 8 = .ok (le ((bitmap.drop (8 * i)).take 8)) := by
      rw [readLE, Storage.load_of_le (by simp; omega)]
      rfl
    have hcnt : rank bitmap (32 * i) + countValidSlot (UInt64.ofNat
        (le ((bitmap.drop (8 * i)).take 8))) = rank bitmap (32 * (i + 1)) := by
      rw [countValidSlot_block hblock, rank, rank, ← Nat.count_add, Nat.mul_succ]
    refine ⟨toLE w (rank bitmap (32 * i)) ++ table, ?_, ?_, ?_⟩
    · simp only [buildTable, hload, Res.ok_bind, hcnt, Nat.mod_eq_of_lt hrank', htable,
        Res.pure_eq]
    · rw [List.length_append, length_toLE, hl, Nat.mul_succ, Nat.add_comm]
    · intro a ha
      cases a with
      | zero => exact readLE_toLE (hrank i (by omega)) _
      | succ a =>
        have := readLE_append (toLE w (rank bitmap (32 * i))) table (w * a) w
        rw [length_toLE] at this
        rw [Nat.mul_succ, Nat.add_comm, this, hread a (by omega)]
        congr 2
        omega

/-- The keys own the cells of the bitmap that are set. -/
theorem Owners.owns_cells {keys : List (List UInt8)} {seed : UInt32} {bitmap : List UInt8}
    (h : Owners keys.length (sectionFor keys.length)
      (slotOf hash (sectionFor keys.length) seed keys) bitmap)
    (hl : bitmap.length = bitmapSize (sectionFor keys.length)) :
    Rank.Owns (fun p => cell bitmap p ≠ 3) (4 * bitmap.length) keys.length fun e =>
      choose bitmap (keySlots hash (sectionFor keys.length) seed (keys.getD e [])) :=
  ⟨fun _ _ => keySlots_lt hl _, h.owns, h.inj, h.owned⟩

/-- What is built for two keys or more is an index of slots that the keys own. It
    stays one when the header gets high bits, and with more behind it. -/
theorem buildData_spec {w : ℕ} {keys : List (List UInt8)} {seeds : ℕ → UInt32} {noCheck : Bool}
    {divisor : Divisor} {data : List UInt8} (h2 : 2 ≤ keys.length) (hn : keys.length < 2 ^ 28)
    (hw : keys.length ≤ 256 ^ w - 1) (hm : sectionFor keys.length ≤ 256 ^ w - 1)
    (hwidth : 24 < keys.length → tableWidth keys.length = w)
    (h : buildData hash w (keys.map some) seeds noCheck = .ok (some (divisor, data))) :
    divisor = Divisor.ofValue (UInt32.ofNat (sectionFor keys.length)) ∧
      data.length = indexBytes keys.length ∧ ∃ seed bitmap body,
        data = toLE 4 keys.length ++ body ∧
        (∀ header rest : List UInt8, header.length = 4 → realSize (le header) = keys.length →
          Index keys.length seed bitmap (header ++ (body ++ rest))) ∧
        Owners keys.length (sectionFor keys.length)
          (slotOf hash (sectionFor keys.length) seed keys) bitmap := by
  rw [buildData] at h
  simp only [List.length_map] at h
  obtain ⟨r, hr, h⟩ := Res.bind_eq_ok.1 h
  cases r with
  | none => cases h
  | some found =>
    obtain ⟨seed, bitmap⟩ := found
    obtain ⟨hl, howners⟩ := tryBuild_spec hn hw hm (findSeed_spec hr)
    obtain ⟨table, htable, h⟩ := Res.bind_eq_ok.1 h
    cases h
    have hpow : 0 < 256 ^ w := Nat.pos_of_ne_zero (by positivity)
    have htotal : rank bitmap (4 * bitmap.length) < 256 ^ w := by
      rw [rank, (howners.owns_cells hl).count_eq]
      omega
    -- Up to 24 keys there is one block, and no table.
    have h8 : bitmapSize (sectionFor keys.length) > 8 ↔ 24 < keys.length := by
      rw [bitmapSize_eq, sectionFor]
      omega
    obtain ⟨htl, hread⟩ : table.length = bitmap.length / 8 * tableWidth keys.length ∧
        (24 < keys.length → ∀ a < bitmap.length / 8,
          readLE table (tableWidth keys.length * a) (tableWidth keys.length) =
            .ok (rank bitmap (32 * a))) := by
      by_cases h24 : 24 < keys.length
      · rw [if_pos (h8.2 h24), ← hl] at htable
        obtain ⟨table', htable', htl, hread⟩ :=
          buildTable_spec htotal (bitmap.length / 8) 0 (by omega)
        cases htable.symm.trans htable'
        rw [hwidth h24, Nat.mul_comm]
        exact ⟨htl, fun _ a ha => by rw [hread a ha, Nat.zero_add]⟩
      · rw [if_neg (h8.not.2 h24)] at htable
        cases htable
        refine ⟨?_, fun h => absurd h h24⟩
        rw [tableWidth, if_neg (by omega), if_neg (by omega), if_neg h24]
        rfl
    refine ⟨rfl, ?_, seed, bitmap, toLE 4 seed.toNat ++ (bitmap ++ table), by simp,
      fun header rest hh hreal => index_of_parts h2 hn hh hreal hl hread rest, howners⟩
    rw [indexBytes, if_pos (by omega), ← hl]
    simp only [List.length_append, length_toLE, htl]

/-- A perfect hash with the data `data` numbers the keys: they are distinct and get
    each a position of its own, and what is read of the data in place gives any key
    the same position, whatever the high bits of the header are, and with more
    memory behind it. -/
structure PerfectHashObject.Numbers (hash : List UInt8 → UInt32 → V128) (obj : PerfectHashObject)
    (keys : List (List UInt8)) (data body : List UInt8) (pos : List UInt8 → ℕ) : Prop where
  nodup : keys.Nodup
  bijOn : Set.BijOn pos {key | key ∈ keys} (Set.Iio keys.length)
  locate : ∀ key, obj.locate hash key = .ok (pos key)
  data_eq : data = toLE 4 keys.length ++ body
  length : data.length = indexBytes keys.length
  dataSize : obj.dataSize = data.length
  read : ∀ (header rest : List UInt8) (size : ℕ), header.length = 4 →
    realSize (le header) = keys.length → size = 0 ∨ data.length ≤ size →
    ∃ ph, PerfectHash.ofData (header ++ (body ++ rest)) size = .ok ph ∧
      ph.dataSize = data.length ∧ ph.data = some (header ++ (body ++ rest)) ∧
      ∀ key, ph.locate hash key = .ok (pos key)

/-- Two keys or more. -/
theorem PerfectHashObject.ofWord_spec {w : ℕ} {keys : List (List UInt8)} {seeds : ℕ → UInt32}
    {noCheck : Bool} {obj : PerfectHashObject} {data : List UInt8} (h2 : 2 ≤ keys.length)
    (hn : keys.length < 2 ^ 28) (hw : keys.length ≤ 256 ^ w - 1)
    (hm : sectionFor keys.length ≤ 256 ^ w - 1)
    (hwidth : 24 < keys.length → tableWidth keys.length = w)
    (h : ofWord hash w (keys.map some) seeds noCheck = .ok obj) (hd : obj.data = some data) :
    ∃ body pos, obj.Numbers hash keys data body pos := by
  rw [ofWord] at h
  obtain ⟨r, hr, h⟩ := Res.bind_eq_ok.1 h
  cases r with
  | none => cases h; cases hd
  | some built =>
    obtain ⟨divisor, data'⟩ := built
    cases h
    cases hd
    obtain ⟨hdiv, hlen, seed, bitmap, body, hdata, hindex, howners⟩ :=
      buildData_spec h2 hn hw hm hwidth hr
    have hreal : realSize (le (toLE 4 keys.length)) = keys.length := by
      rw [le_toLE (by omega)]
      exact Nat.mod_eq_of_lt hn
    have hix := hindex (toLE 4 keys.length) [] (length_toLE _ _) hreal
    -- The position of a key is the rank of the cell that it owns.
    have hbij := Rank.nodup_and_bijOn [] (fun key => rank bitmap (choose bitmap
      (keySlots hash (sectionFor keys.length) seed key))) (howners.owns_cells hix.length).bijOn
    have h8 : data.length > 8 := by
      rw [hlen, indexBytes, if_pos (by omega), bitmapSize_eq]
      have := sectionFor_pos keys.length
      omega
    refine ⟨body,
      fun key => rank bitmap (choose bitmap (keySlots hash (sectionFor keys.length) seed key)),
      hbij.1, hbij.2, fun key => ?_, hdata, hlen, rfl, fun header rest size hh hreal hsize => ?_⟩
    · obtain ⟨hval, hmod⟩ := ofValue_sectionFor hn
      obtain ⟨header, hsize, hreal'⟩ := hix.size
      rw [List.append_nil, ← hdata] at hix hsize
      simp only [locate, hsize, Res.ok_bind, hreal', hix.seed, hdiv, hval, hmod]
      rw [if_neg (by omega), UInt32.ofNat_toNat, List.length_map, if_pos h8]
      exact locateSlots_spec hix fun j => keySlots_lt hix.length j
    · have hix' := hindex header rest hh hreal
      exact ⟨_, ofData_index hix' (by rwa [hlen] at hsize), hlen.symm, rfl,
        fun key => PerfectHash.locate_index hix' _ key⟩

/-- One key, or none: every key is at position 0, and the data are the header. -/
theorem PerfectHashObject.numbers_of_le_one {keys : List (List UInt8)} (h1 : keys.length ≤ 1)
    (divisor : Divisor) :
    Numbers hash ⟨⟨0, 4, toLE 4 keys.length⟩, divisor⟩ keys (toLE 4 keys.length) [] fun _ => 0 := by
  have hheader : ∀ (header rest : List UInt8), header.length = 4 →
      readLE (header ++ ([] ++ rest)) 0 4 = .ok (le header) := fun header rest hh => by
    rw [readLE, List.drop_zero, Storage.load_of_le (by simp; omega), ← hh, List.nil_append,
      List.take_left]
    rfl
  have hreal : realSize (le (toLE 4 keys.length)) = keys.length := by
    rw [le_toLE (by omega)]
    exact Nat.mod_eq_of_lt (by omega)
  refine ⟨?_, ?_, fun key => ?_, by simp, ?_, by simp, fun header rest size hh hr hsize => ?_⟩
  · exact List.nodup_iff_count_le_one.2 fun key => (List.count_le_length).trans h1
  · obtain rfl | ⟨key, rfl⟩ : keys = [] ∨ ∃ key, keys = [key] := by
      rcases Nat.le_one_iff_eq_zero_or_eq_one.1 h1 with h0 | h1
      · exact .inl (List.length_eq_zero_iff.1 h0)
      · exact .inr (List.length_eq_one_iff.1 h1)
    · simp [Set.BijOn, Set.MapsTo, Set.InjOn, Set.SurjOn]
    · simp [Set.BijOn, Set.MapsTo, Set.InjOn, Set.SurjOn]
  · have := hheader (toLE 4 keys.length) [] (length_toLE _ _)
    rw [List.append_nil, List.append_nil] at this
    simp only [locate, this, Res.ok_bind, hreal]
    exact if_pos (by omega)
  · rw [length_toLE, indexBytes, if_neg (by omega)]
  · rw [length_toLE] at hsize
    refine ⟨⟨0, 4, some (header ++ ([] ++ rest))⟩, ?_, by simp, rfl, fun key => ?_⟩
    · rw [PerfectHash.ofData, if_neg (by omega), hheader header rest hh]
      simp only [Res.ok_bind, hr]
      exact if_neg (by omega)
    · simp only [PerfectHash.locate, hheader header rest hh, Res.ok_bind, hr]
      exact if_pos (by omega)

/-- What `PerfectHashObject::Build` builds numbers the keys. -/
theorem PerfectHashObject.build_spec {keys : List (List UInt8)} {seeds : ℕ → UInt32}
    {noCheck : Bool} {obj : PerfectHashObject} {data : List UInt8} (hn : keys.length < 2 ^ 28)
    (h : PerfectHashObject.build hash (keys.map some) seeds noCheck = .ok obj)
    (hd : obj.data = some data) : ∃ body pos, obj.Numbers hash keys data body pos := by
  simp only [build, List.length_map] at h
  rw [if_neg (by omega)] at h
  split at h
  · refine ofWord_spec (by omega) hn (by omega) (by rw [sectionFor]; omega) (fun _ => ?_) h hd
    rw [tableWidth, if_pos (by omega)]
  · split at h
    · refine ofWord_spec (by omega) hn (by omega) (by rw [sectionFor]; omega) (fun _ => ?_) h hd
      rw [tableWidth, if_neg (by omega), if_pos (by omega)]
    · split at h
      · refine ofWord_spec (by omega) hn (by omega) (by rw [sectionFor]; omega) (fun _ => ?_) h hd
        rw [tableWidth, if_neg (by omega), if_neg (by omega), if_pos (by omega)]
      · cases h
        cases hd
        exact ⟨[], fun _ => 0, numbers_of_le_one (by omega) _⟩

/-- A perfect hash that is built has distinct keys, which it maps one to one onto the
    numbers below their count; and a reader of its data, which is told their size or
    not, finds every byte string where the object itself does. -/
theorem PerfectHashObject.locate_build (hash : List UInt8 → UInt32 → V128)
    (keys : List (List UInt8)) (seeds : ℕ → UInt32) (noCheck : Bool) (obj : PerfectHashObject)
    (data : List UInt8) (hn : keys.length < 2 ^ 28)
    (h : PerfectHashObject.build hash (keys.map some) seeds noCheck = .ok obj)
    (hd : obj.data = some data) :
    keys.Nodup ∧ ∃ pos : List UInt8 → ℕ,
      Set.BijOn pos {key | key ∈ keys} (Set.Iio keys.length) ∧
      (∀ key, obj.locate hash key = .ok (pos key)) ∧
      ∀ size, size = 0 ∨ size = obj.dataSize →
        ∃ ph, PerfectHash.ofData data size = .ok ph ∧ ∀ key,
          ph.locate hash key = .ok (pos key) := by
  obtain ⟨body, pos, hnum⟩ := build_spec hn h hd
  refine ⟨hnum.nodup, pos, hnum.bijOn, hnum.locate, fun size hsize => ?_⟩
  have hreal : realSize (le (toLE 4 keys.length)) = keys.length := by
    rw [le_toLE (by omega)]
    exact Nat.mod_eq_of_lt hn
  rw [hnum.dataSize] at hsize
  obtain ⟨ph, hph, -, -, hlocate⟩ := hnum.read (toLE 4 keys.length) [] size (length_toLE _ _) hreal
    (hsize.imp_right ge_of_eq)
  rw [List.append_nil, ← hnum.data_eq] at hph
  exact ⟨ph, hph, hlocate⟩

/-- Two keys, under a hash that reads the first byte. -/
theorem PerfectHashObject.locate_build_two :
    ([[1], [2]] : List (List UInt8)).Nodup ∧ ∃ pos : List UInt8 → ℕ,
      Set.BijOn pos {key | key ∈ ([[1], [2]] : List (List UInt8))} (Set.Iio 2) ∧
      (∀ key, PerfectHashObject.locate
        (fun key _ => ⟨(key.headD 0).toUInt32, (key.headD 0).toUInt32, (key.headD 0).toUInt32, 0⟩)
        ⟨⟨10, 16, some [2, 0, 0, 0, 0, 0, 0, 0, 0xc3, 255, 255, 255, 255, 255, 255, 255]⟩,
          Divisor.ofValue 10⟩ key = .ok (pos key)) ∧
      ∀ size, size = 0 ∨ size = 16 →
        ∃ ph, PerfectHash.ofData
            [2, 0, 0, 0, 0, 0, 0, 0, 0xc3, 255, 255, 255, 255, 255, 255, 255] size = .ok ph ∧
          ∀ key, ph.locate
            (fun key _ =>
              ⟨(key.headD 0).toUInt32, (key.headD 0).toUInt32, (key.headD 0).toUInt32, 0⟩)
            key = .ok (pos key) :=
  locate_build _ [[1], [2]] (fun _ => 0) false
    ⟨⟨10, 16, some [2, 0, 0, 0, 0, 0, 0, 0, 0xc3, 255, 255, 255, 255, 255, 255, 255]⟩,
      Divisor.ofValue 10⟩ _ (by decide) (by decide +kernel) rfl

end ProtoCache

import ProtoCache.Lib.Probing
import ProtoCache.PerfectHash.Build

/-!
# Looking for equal keys

`Check` (`src/perfect_hash.cc`) puts the codes of the keys in a table, with open
addressing. The table is twice as large as there are keys; it is the front of the
scratch space of `Build` where that is large enough, and otherwise an array of its
own. The first bit of a code marks a cell that is in use.

* `checkInsert_stops`: an insertion goes to the first cell that is free or has the
  code;
* `checkKeys_spec`: the table after some of the keys;
* `checkIn_spec`: equal codes are found, distinct codes are not taken for equal, and
  no cell behind the table matters or changes.
-/

namespace ProtoCache

open Probing

/-! ## The code -/

/-- The code with the bit that marks a cell in use. -/
def V128.marked (code : V128) : V128 := { code with u0 := code.u0 ||| 1 }

section

variable (hash : List UInt8 → UInt32 → V128)

/-- The loop of `Check` over the keys, with the cells it leaves. -/
def checkKeys (n m : ℕ) (seed : UInt32) :
    List (Option (List UInt8)) → List V128 → Res (Bool × List V128)
  | [], space => .ok (true, space)
  | none :: _, space => .ok (false, space)
  | some key :: source, space => do
    let code := hash key seed
    match ← checkInsert m code.marked n (code.u0.toNat % m) space with
    | none => return (false, space)
    | some space => checkKeys n m seed source space

/-- `memset` of the first `m` cells. -/
def clearCells (m : ℕ) (space : List V128) : Res (List V128) :=
  access (Storage.write space 0 (List.replicate m ⟨0, 0, 0, 0⟩))

/-- `Check` of `n` keys, in the cells from `space` on. -/
def checkIn (space : List V128) (source : List (Option (List UInt8))) (n : UInt32) (seed : UInt32) :
    Res (Bool × List V128) := do
  let m := (n * 2).toNat
  checkKeys hash n.toNat m seed source (← clearCells m space)

end

/-- `tmp_sz`, with `Word` of `w` bytes: edges, the queue, nodes and marks. -/
def scratchSize (w total : ℕ) : ℕ :=
  9 * w * total + w * total + w * (sectionFor total * 3) + (sectionFor total * 3 + 7) / 8

/-- The cells that `Build` gives to `Check`: those of the scratch space, if there are more
    than it needs, or new ones. -/
def checkSpace (w : ℕ) (n : UInt32) (scratch own : List V128) : List V128 :=
  if scratchSize w n.toNat / 16 > (n * 2).toNat then scratch else own

/-! ## One insertion -/

/-- The table in a list of cells: those in use have the bit of a marked code. -/
def entryAt (cells : List V128) (p : ℕ) : Option V128 := (cells[p]?).filter fun c => c.u0 &&& 1 ≠ 0

theorem marked_and_one (code : V128) : code.marked.u0 &&& 1 ≠ 0 := by
  have h1 : (code.u0.toNat ||| 1) &&& 1 = 1 := by
    rw [Nat.and_or_distrib_right, Nat.and_one_is_mod]
    rcases Nat.mod_two_eq_zero_or_one code.u0.toNat with h | h <;> rw [h] <;> rfl
  intro h
  have h0 := congrArg UInt32.toNat h
  rw [V128.marked, UInt32.toNat_and, UInt32.toNat_or] at h0
  exact absurd (h1.symm.trans h0) (by decide)

/-- A cell of the table, whatever is behind the table. -/
theorem entryAt_of_lt {cells : List V128} (rest : List V128) {p : ℕ} (hp : p < cells.length) :
    ∃ c, (cells ++ rest)[p]? = some c ∧ entryAt cells p = if c.u0 &&& 1 = 0 then none
      else some c := by
  refine ⟨cells[p], ?_, ?_⟩
  · rw [List.getElem?_append_left hp, List.getElem?_eq_getElem hp]
  · rw [entryAt, List.getElem?_eq_getElem hp, Option.filter_some]
    by_cases h : cells[p].u0 &&& 1 = 0 <;> simp [h]

/-- A marked code in a cell, and the other cells as they were. -/
theorem entryAt_set {cells : List V128} {p : ℕ} (hp : p < cells.length) {code : V128}
    (hcode : code.u0 &&& 1 ≠ 0) :
    entryAt (cells.set p code) = Function.update (entryAt cells) p (some code) := by
  funext q
  by_cases hq : q = p
  · subst hq
    rw [Function.update_self, entryAt, List.getElem?_set_self hp, Option.filter_some,
      if_pos (by simpa using hcode)]
  · rw [Function.update_of_ne hq, entryAt, entryAt, List.getElem?_set_ne (Ne.symm hq)]

/-- The next cell, around the end of the table. -/
theorem probe_next {m pos : ℕ} (hpos : pos < m) (i : ℕ) :
    probe m (if pos + 1 ≥ m then 0 else pos + 1) i = probe m pos (i + 1) := by
  unfold probe
  split
  · rw [show pos + (i + 1) = i + m by omega, Nat.add_mod_right, Nat.zero_add]
  · rw [Nat.add_assoc, Nat.add_comm 1]

/-- An insertion goes to the first probe that finds a free cell or the code; what is behind
    the table does not matter. -/
theorem checkInsert_stops {cells : List V128} (rest : List V128) {m : ℕ} (hm : cells.length = m)
    {code : V128} {j k pos : ℕ} (hjk : j < k) (hpos : pos < m)
    (hj : Stops (entryAt cells) m pos code j) :
    checkInsert m code k pos (cells ++ rest) =
      .ok (if entryAt cells (probe m pos j) = none then
        some (cells.set (probe m pos j) code ++ rest)
        else none) := by
  induction j generalizing pos k with
  | zero =>
    have hstop := hj.1
    obtain ⟨k, rfl⟩ : ∃ k', k = k' + 1 := ⟨k - 1, by omega⟩
    obtain ⟨c, hc, hentry⟩ := entryAt_of_lt rest (hm ▸ hpos)
    rw [show probe m pos 0 = pos from Nat.mod_eq_of_lt hpos, hentry] at hstop ⊢
    rw [checkInsert, hc, access_some, Res.ok_bind]
    split
    · rw [if_pos rfl, List.set_append_left pos code (hm ▸ hpos)]
      rfl
    · rename_i h0
      rw [if_neg h0] at hstop
      rw [if_pos (by simpa using hstop), if_neg (by simp)]
      rfl
  | succ j ih =>
    obtain ⟨hne, hcodene⟩ := hj.2 0 (Nat.zero_lt_succ j)
    obtain ⟨k, rfl⟩ : ∃ k', k = k' + 1 := ⟨k - 1, by omega⟩
    obtain ⟨c, hc, hentry⟩ := entryAt_of_lt rest (hm ▸ hpos)
    rw [show probe m pos 0 = pos from Nat.mod_eq_of_lt hpos, hentry] at hne hcodene
    have h0 : ¬c.u0 &&& 1 = 0 := fun h => hne (if_pos h)
    rw [if_neg h0] at hcodene
    rw [checkInsert, hc, access_some, Res.ok_bind, if_neg h0, if_neg (fun h => hcodene (by rw [h])),
      ih (by omega) (by split <;> omega) ⟨?_, fun i hi => ?_⟩, probe_next hpos]
    · rw [probe_next hpos]
      exact hj.1
    · rw [probe_next hpos]
      exact hj.2 (i + 1) (Nat.succ_lt_succ hi)

/-! ## All keys -/

variable {hash : List UInt8 → UInt32 → V128}

/-- The entry of a key: the marked code, looked for from the cell of the code itself. -/
def checkEntry (hash : List UInt8 → UInt32 → V128) (m : ℕ) (seed : UInt32) (key : List UInt8) :
    ℕ × V128 :=
  ((hash key seed).u0.toNat % m, (hash key seed).marked)

theorem checkKeys_put {n m : ℕ} {seed : UInt32} {key : List UInt8} {space space' : List V128}
    (h : checkInsert m (checkEntry hash m seed key).2 n (checkEntry hash m seed key).1 space =
      .ok (some space')) (source : List (Option (List UInt8))) :
    checkKeys hash n m seed (some key :: source) space = checkKeys hash n m seed source space' := by
  rw [checkEntry] at h
  rw [checkKeys, h]
  rfl

theorem checkKeys_found {n m : ℕ} {seed : UInt32} {key : List UInt8} {space : List V128}
    (h : checkInsert m (checkEntry hash m seed key).2 n (checkEntry hash m seed key).1 space =
      .ok none) (source : List (Option (List UInt8))) :
    checkKeys hash n m seed (some key :: source) space = .ok (false, space) := by
  rw [checkEntry] at h
  rw [checkKeys, h]
  rfl

/-- The keys are put one after the other, next to the entries `es`, until one has a code that is
    there; only the cells of the table matter. -/
theorem checkKeys_spec {n m : ℕ} (hnm : n ≤ m) {seed : UInt32} (keys : List (List UInt8))
    {cells : List V128} (hm : cells.length = m) {es : List (ℕ × V128)}
    (h : Filled (entryAt cells) n m es) (hes : es.Nodup) (hlen : es.length + keys.length ≤ n) :
    ∃ result cells', cells'.length = m ∧
      (∀ rest, checkKeys hash n m seed (keys.map some) (cells ++ rest) =
        .ok (result, cells' ++ rest)) ∧
      (result = true →
        Filled (entryAt cells') n m ((keys.map (checkEntry hash m seed)).reverse ++ es) ∧
        ((keys.map (checkEntry hash m seed)).reverse ++ es).Nodup) ∧
      (result = false →
        ¬(((keys.map (checkEntry hash m seed)).reverse ++ es).map Prod.snd).Nodup) := by
  -- By induction on the keys; the invariant is that the cells hold the codes put so far.
  induction keys generalizing cells es with
  | nil => exact ⟨true, cells, hm, fun _ => rfl, fun _ => ⟨h, hes⟩, fun hf => Bool.noConfusion hf⟩
  | cons key keys ih =>
    rw [List.length_cons] at hlen
    have hpos : (checkEntry hash m seed key).1 < m := Nat.mod_lt _ (by omega)
    obtain ⟨j, hjn, hj⟩ := h.exists_stops hnm (by omega) (checkEntry hash m seed key).1
      (checkEntry hash m seed key).2
    have hput (rest : List V128) := checkInsert_stops rest hm hjn hpos hj
    have hlist : ((key :: keys).map (checkEntry hash m seed)).reverse ++ es =
        (keys.map (checkEntry hash m seed)).reverse ++ checkEntry hash m seed key :: es := by
      rw [List.map_cons, List.reverse_cons, List.append_assoc]
      rfl
    rw [hlist]
    by_cases hfree : entryAt cells (probe m (checkEntry hash m seed key).1 j) = none
    · -- The code is put in a free cell, so it was not there.
      have hnew : checkEntry hash m seed key ∉ es := fun hin => by
        exact Option.some_ne_none _ ((h.found hin hj).symm.trans hfree)
      have hpc : probe m (checkEntry hash m seed key).1 j < cells.length := by
        rw [hm]
        exact probe_lt (by omega) _ _
      have hset := entryAt_set hpc (marked_and_one (hash key seed))
      have hlenset : (cells.set (probe m (checkEntry hash m seed key).1 j)
          (hash key seed).marked).length = m := by
        rw [List.length_set, hm]
      obtain ⟨result, cells', hlen', hrun, htrue, hfalse⟩ := ih hlenset
        (by rw [hset]; exact h.insert hjn hj hfree) (List.nodup_cons.2 ⟨hnew, hes⟩)
        (by rw [List.length_cons]; omega)
      refine ⟨result, cells', hlen', fun rest => ?_, htrue, hfalse⟩
      rw [List.map_cons, checkKeys_put ((hput rest).trans (by rw [if_pos hfree]))]
      exact hrun rest
    · -- The code is there already.
      have hthere := hj.1.resolve_left hfree
      have hin := h.mem _ (probe_lt (by omega) _ _) _ hthere
      refine ⟨false, cells, hm, fun rest => ?_, fun hf => Bool.noConfusion hf, fun _ hnd => ?_⟩
      · rw [List.map_cons, checkKeys_found ((hput rest).trans (by rw [if_neg hfree]))]
      · rw [List.map_append, List.nodup_append] at hnd
        exact (List.nodup_cons.1 hnd.2.1).1 hin

theorem entryAt_replicate (m : ℕ) : entryAt (List.replicate m ⟨0, 0, 0, 0⟩) = fun _ => none := by
  funext p
  rw [entryAt, List.getElem?_replicate]
  split <;> rfl

/-- The cells are cleared first. -/
theorem checkIn_append {n : UInt32} {m : ℕ} (hm : (n * 2).toNat = m) (seed : UInt32)
    (source : List (Option (List UInt8))) {cells : List V128} (hcells : cells.length = m)
    (rest : List V128) :
    checkIn hash (cells ++ rest) source n seed =
      checkKeys hash n.toNat m seed source (List.replicate m ⟨0, 0, 0, 0⟩ ++ rest) := by
  have hclear : clearCells m (cells ++ rest) = .ok (List.replicate m ⟨0, 0, 0, 0⟩ ++ rest) := by
    rw [clearCells, Storage.write_of_le (by simp [hcells])]
    rw [List.length_replicate, Nat.zero_add, List.take_zero, List.nil_append,
      List.drop_left' hcells]
    rfl
  rw [checkIn, hm, hclear]
  rfl

/-- `Check` of the model of `Build`, where the cells are not kept. -/
theorem check_eq_checkKeys (source : List (Option (List UInt8))) (n m : ℕ) (seed : UInt32)
    (space : List V128) :
    checkLoop hash n m seed source space = (checkKeys hash n m seed source space).map Prod.fst := by
  induction source generalizing space with
  | nil => rfl
  | cons key source ih =>
    cases key with
    | none => rfl
    | some key =>
      rw [checkLoop, checkKeys]
      dsimp only [V128.marked]
      cases hins : checkInsert m { hash key seed with u0 := (hash key seed).u0 ||| 1 } n
          ((hash key seed).u0.toNat % m) space with
      | error e => rfl
      | ok r =>
        cases r with
        | none => rfl
        | some space' => exact ih space'

/-- `Check` of keys, in the cells that `Build` gives to it: the scratch space, of any contents,
    or a new array. It returns false if two codes are equal, and true if they are distinct
    with bit 0 of the first word set in each. No cell but the first `2 * n` is read or
    changed: the others stay, and without them the outcome is the same. Whenever a key is
    put, one of its `n` probes finds a free cell. -/
theorem checkIn_spec (hash : List UInt8 → UInt32 → V128) (keys : List (List UInt8)) (seed : UInt32)
    (w : ℕ) (scratch own : List V128) (hn : keys.length < 2 ^ 31)
    (hscratch : scratch.length = scratchSize w keys.length / 16)
    (hown : own.length = 2 * keys.length) :
    ∃ result cells, cells.length = 2 * keys.length ∧
      checkIn hash (checkSpace w (UInt32.ofNat keys.length) scratch own) (keys.map some)
        (UInt32.ofNat keys.length) seed = .ok (result, cells ++
          (checkSpace w (UInt32.ofNat keys.length) scratch own).drop (2 * keys.length)) ∧
      (∀ table : List V128, table.length = 2 * keys.length →
        checkIn hash table (keys.map some) (UInt32.ofNat keys.length) seed = .ok (result, cells)) ∧
      check hash (keys.map some) keys.length seed = .ok result ∧
      (¬(keys.map (hash · seed)).Nodup → result = false) ∧
      ((keys.map fun key => (hash key seed).marked).Nodup → result = true) ∧
      ∀ pre key post, keys = pre ++ key :: post → ∀ space,
        checkKeys hash keys.length (2 * keys.length) seed (pre.map some)
          (List.replicate (2 * keys.length) ⟨0, 0, 0, 0⟩) = .ok (true, space) →
        ∃ j < keys.length, ∃ c,
          space[((hash key seed).u0.toNat % (2 * keys.length) + j) % (2 * keys.length)]? = some c ∧
            c.u0 &&& 1 = 0 := by
  have hlt : keys.length < 2 ^ 32 := by omega
  have hN : (UInt32.ofNat keys.length).toNat = keys.length := by
    rw [UInt32.toNat_ofNat', Nat.mod_eq_of_lt hlt]
  have hM : (UInt32.ofNat keys.length * 2).toNat = 2 * keys.length := by
    rw [UInt32.toNat_mul, hN]
    exact (Nat.mod_eq_of_lt (by show keys.length * 2 < 2 ^ 32; omega)).trans (Nat.mul_comm _ _)
  -- The cells that are used are cleared first, whatever they were.
  have hclear : Filled (entryAt (List.replicate (2 * keys.length) ⟨0, 0, 0, 0⟩)) keys.length
      (2 * keys.length) [] := by
    rw [entryAt_replicate]
    exact Filled.empty _ _
  have hfill (ks : List (List UInt8)) (hks : ks.length ≤ keys.length) :=
    @checkKeys_spec hash _ _ (Nat.le_mul_of_pos_left keys.length two_pos) seed ks _
      List.length_replicate _ hclear
      List.nodup_nil (by simpa using hks)
  obtain ⟨result, cells, hlen, hrun, htrue, hfalse⟩ := hfill keys le_rfl
  have hspace : 2 * keys.length ≤ (checkSpace w (UInt32.ofNat keys.length) scratch own).length := by
    unfold checkSpace
    rw [hN, hM]
    split <;> omega
  -- What lies behind the first cells is neither read nor changed.
  have hin (table : List V128) (rest : List V128) (ht : table.length = 2 * keys.length) :
      checkIn hash (table ++ rest) (keys.map some) (UInt32.ofNat keys.length) seed =
        .ok (result, cells ++ rest) := by
    rw [checkIn_append hM seed _ ht, hN, hrun]
  refine ⟨result, cells, hlen, ?_, fun table ht => ?_, ?_, fun hdup => ?_, fun hdist => ?_, ?_⟩
  · rw [← hin _ _ (List.length_take_of_le hspace), List.take_append_drop]
  · rw [← List.append_nil table, hin table [] ht, List.append_nil]
  · rw [check, check_eq_checkKeys, Nat.mul_comm, ← List.append_nil (List.replicate _ _), hrun]
    rfl
  · cases hr : result with
    | false => rfl
    | true =>
      refine absurd ?_ hdup
      -- Two equal codes have the same first probe and the same mark, and the second one meets the
      -- first.
      have hnd := (htrue hr).2
      rw [List.append_nil, List.nodup_reverse] at hnd
      refine List.Nodup.of_map (fun code => (code.u0.toNat % (2 * keys.length), code.marked)) ?_
      rw [List.map_map]
      exact hnd
  · cases hr : result with
    | true => rfl
    | false =>
      refine absurd ?_ (hfalse hr)
      rw [List.append_nil, List.map_reverse, List.nodup_reverse, List.map_map]
      exact hdist
  · rintro pre key post hkeys space hpre
    have hlt : pre.length < keys.length := by
      rw [hkeys, List.length_append, List.length_cons]
      omega
    obtain ⟨result', cells', hlen', hrun', htrue', -⟩ := hfill pre hlt.le
    have hsame := hrun' []
    rw [List.append_nil, List.append_nil, hpre] at hsame
    cases hsame
    -- Fewer keys than probes are in the table, which has twice as many cells.
    obtain ⟨j, hj, hfree⟩ := (htrue' rfl).1.exists_free (Nat.le_mul_of_pos_left _ two_pos)
      (by simpa using hlt) ((hash key seed).u0.toNat % (2 * keys.length))
    have hlast : probe (2 * keys.length) ((hash key seed).u0.toNat % (2 * keys.length)) j <
        space.length := by
      rw [hlen']
      exact probe_lt (by omega) _ _
    obtain ⟨c, hc, hentry⟩ := entryAt_of_lt [] hlast
    rw [List.append_nil] at hc
    rw [hfree] at hentry
    refine ⟨j, hj, c, hc, ?_⟩
    by_contra hocc
    rw [if_neg hocc] at hentry
    cases hentry

/-- Two keys whose codes are equal, and a scratch space of three cells, which is too small. -/
theorem checkIn_spec_equal : ∃ cells,
    checkIn (fun _ _ => ⟨6, 0, 0, 0⟩) (checkSpace 1 2 (List.replicate 3 ⟨1, 2, 3, 4⟩)
      (List.replicate 4 ⟨1, 1, 1, 1⟩)) [some [1], some [2]] 2 0 = .ok (false, cells) := by
  obtain ⟨result, cells, -, hrun, -, -, hdup, -⟩ :=
    checkIn_spec (fun _ _ => ⟨6, 0, 0, 0⟩) [[1], [2]] 0 1
    (List.replicate 3 ⟨1, 2, 3, 4⟩) (List.replicate 4 ⟨1, 1, 1, 1⟩) (by decide) (by decide) rfl
  rw [hdup (by decide)] at hrun
  exact ⟨_, hrun⟩

end ProtoCache

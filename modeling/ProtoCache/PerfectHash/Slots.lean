import ProtoCache.PerfectHash.Build

/-!
# The slots of a key

Building a perfect hash, the slots of a key come from remainders by a `Divisor`, in
`CreateGraph` and in `PerfectHashObject::Locate`. Reading it, `PerfectHash::Locate`
takes remainders by `%` (`src/perfect_hash.cc`).

* `divisor_exact`: the remainders are the same, so that the slots are.
-/

namespace ProtoCache

variable {hash : List UInt8 → UInt32 → V128}

/-- The sum in `Divisor::div` fits in 64 bits. -/
theorem Divisor.product_lt (d : Divisor) (m : UInt32) :
    d.fac.toNat * m.toNat + d.tip.toNat < 2 ^ 64 := by
  have hf := Nat.le_of_lt_succ d.fac.toNat_lt
  have ht := Nat.le_of_lt_succ d.tip.toNat_lt
  have hm := Nat.le_of_lt_succ m.toNat_lt
  calc d.fac.toNat * m.toNat + d.tip.toNat
      ≤ (2 ^ 32 - 1) * (2 ^ 32 - 1) + (2 ^ 32 - 1) := Nat.add_le_add (Nat.mul_le_mul hf hm) ht
    _ < 2 ^ 64 := by decide

/-- The edges that `CreateGraph` makes have the slots of their keys. -/
theorem createGraph_slots {kEnd : ℕ} {source : List (Option (List UInt8))} {seed n : UInt32}
    {g g' : Graph} (hn : n ≠ 0) (hlen : source.length ≤ kEnd) (hle : n.toNat ≤ kEnd)
    (hg : createGraph kEnd hash source seed g (Divisor.ofValue n) = some g') {i : ℕ}
    {key : List UInt8} (hi : source[i]? = some (some key)) (j : Fin 3) :
    (g'.edges i j).slot + n.toNat * j = keySlots hash n.toNat seed key j := by
  have hval : (Divisor.ofValue n).val = n := (Divisor.ofValue_spec hn).1
  have hpos : 0 < n.toNat := Nat.pos_of_ne_zero fun h => hn (UInt32.toNat_inj.1 h)
  have hpart : g'.Part kEnd
      (fun i j => ((hash ((source[i]?.join).getD []) seed).u32 j).toNat % n.toNat) j
      (List.range source.length).reverse := by
    refine createGraph_spec hlen (hval.symm ▸ hle) (fun i _ j => ?_) (fun i key hi => ?_) hg j
    · rw [hval]
      exact Nat.mod_lt _ hpos
    · funext j
      rw [hi, Divisor.mod_eq hn, UInt32.toNat_mod]
      rfl
  have hmem : i ∈ (List.range source.length).reverse :=
    List.mem_reverse.2 (List.mem_range.2 (List.getElem?_eq_some_iff.1 hi).1)
  rw [hpart.slots i hmem, hi]
  rfl

/-- With the divisor of its sections, `PerfectHashObject::Locate` is
    `PerfectHash::Locate`. -/
theorem PerfectHashObject.locate_eq {n : UInt32} (hn : n ≠ 0) {h : PerfectHash}
    (hs : h.section_ = n.toNat) (key : List UInt8) :
    PerfectHashObject.locate hash ⟨h, Divisor.ofValue n⟩ key = h.locate hash key := by
  have hval : (Divisor.ofValue n).val = n := (Divisor.ofValue_spec hn).1
  rw [locate, PerfectHash.locate]
  cases h.data with
  | none => rfl
  | some mem => simp only [hval, Divisor.mod_eq hn, UInt32.toNat_mod, hs]

/-- `Divisor` divides without an overflow of 64 bits, and its quotients and remainders
    are those of `/` and `%`. So the slots of a key are the same in `CreateGraph`, in
    `PerfectHashObject::Locate` and in `PerfectHash::Locate`. -/
theorem divisor_exact (n : UInt32) (hn : n ≠ 0) :
    (∀ m : UInt32, (Divisor.ofValue n).fac.toNat * m.toNat + (Divisor.ofValue n).tip.toNat <
      2 ^ 64 ∧
      (Divisor.ofValue n).div m = m / n ∧ (Divisor.ofValue n).mod m = m % n) ∧
    (∀ (hash : List UInt8 → UInt32 → V128) (kEnd : ℕ) (source : List (Option (List UInt8)))
      (seed : UInt32) (g g' : Graph), source.length ≤ kEnd → n.toNat ≤ kEnd →
      createGraph kEnd hash source seed g (Divisor.ofValue n) = some g' →
      ∀ i key, source[i]? = some (some key) → ∀ j : Fin 3,
        (g'.edges i j).slot + n.toNat * j = ((hash key seed).u32 j).toNat % n.toNat + n.toNat * j) ∧
    ∀ (hash : List UInt8 → UInt32 → V128) (h : PerfectHash), h.section_ = n.toNat →
      ∀ key, PerfectHashObject.locate hash ⟨h, Divisor.ofValue n⟩ key = h.locate hash key := by
  refine ⟨fun m => ⟨(Divisor.ofValue n).product_lt m, Divisor.div_eq hn m, Divisor.mod_eq hn m⟩,
    ?_, ?_⟩
  · intro hash kEnd source seed g g' hlen hle hg i key hi j
    exact createGraph_slots hn hlen hle hg hi j
  · intro hash h hs key
    exact PerfectHashObject.locate_eq hn hs key

/-- Dividing by seven, and one key in sections of seven slots. -/
theorem divisor_exact_seven :
    (Divisor.ofValue 7).mod 0xffffffff = 0xffffffff % 7 ∧
    (∃ g', createGraph 255 (fun key _ => ⟨(key.headD 0).toUInt32, 8, 9, 0⟩) [some [10]] 0
        ⟨fun _ _ => ⟨0, 0, 0⟩, fun _ => 0⟩ (Divisor.ofValue 7) = some g' ∧
      (g'.edges 0 2).slot + 7 * 2 = 9 % 7 + 7 * 2) ∧
    PerfectHashObject.locate (fun key _ => ⟨(key.headD 0).toUInt32, 8, 9, 0⟩)
        ⟨⟨7, 16, some [2, 0, 0, 0, 0, 0, 0, 0, 0xc3, 255, 255, 255, 255, 255, 255, 255]⟩,
          Divisor.ofValue 7⟩ [10] =
      PerfectHash.locate (fun key _ => ⟨(key.headD 0).toUInt32, 8, 9, 0⟩)
        ⟨7, 16, some [2, 0, 0, 0, 0, 0, 0, 0, 0xc3, 255, 255, 255, 255, 255, 255, 255]⟩ [10] := by
  obtain ⟨hdiv, hcreate, hlocate⟩ := divisor_exact 7 (by decide)
  have hg : ∃ g', createGraph 255 (fun key _ => ⟨(key.headD 0).toUInt32, 8, 9, 0⟩) [some [10]] 0
      ⟨fun _ _ => ⟨0, 0, 0⟩, fun _ => 0⟩ (Divisor.ofValue 7) = some g' :=
    ⟨_, by rw [createGraph, createGraphLoop, createGraphLoop]⟩
  obtain ⟨g', hg⟩ := hg
  exact ⟨(hdiv _).2.2, ⟨g', hg,
      hcreate _ 255 [some [10]] 0 _ g' (by decide) (by decide) hg 0 [10] rfl 2⟩, hlocate _ _ rfl _⟩

end ProtoCache

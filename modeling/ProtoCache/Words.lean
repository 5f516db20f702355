import ProtoCache.Lib.LittleEndian

/-!
# Words and bytes

A buffer is made of 32-bit words, and what it holds of strings and indexes is read
and written as bytes, in little-endian order.

* `bytesOf_wordsOf`: bytes stored in words come back, filled up with zeros to the
  end of the last word.
-/

namespace ProtoCache

open LittleEndian

/-- The bytes of a word. -/
def wordBytes (w : UInt32) : List UInt8 := toLE 4 w.toNat

/-- The bytes of a sequence of words. -/
def bytesOf (ws : List UInt32) : List UInt8 := ws.flatMap wordBytes

/-- The words that a sequence of bytes is stored in; the rest of the last is zero. -/
def wordsOf : List UInt8 → List UInt32
  | b₀ :: b₁ :: b₂ :: b₃ :: bs => UInt32.ofNat (le [b₀, b₁, b₂, b₃]) :: wordsOf bs
  | [] => []
  | bs => [UInt32.ofNat (le bs)]

/-- `WordSize`. -/
def wordSize (sz : ℕ) : ℕ := (sz + 3) / 4

@[simp] theorem length_wordBytes (w : UInt32) : (wordBytes w).length = 4 := length_toLE _ _

@[simp] theorem bytesOf_nil : bytesOf [] = [] := rfl

@[simp] theorem bytesOf_cons (w : UInt32) (ws : List UInt32) :
    bytesOf (w :: ws) = wordBytes w ++ bytesOf ws := rfl

@[simp] theorem bytesOf_append (ws ws' : List UInt32) :
    bytesOf (ws ++ ws') = bytesOf ws ++ bytesOf ws' := by
  rw [bytesOf, List.flatMap_append]
  rfl

@[simp] theorem length_bytesOf (ws : List UInt32) : (bytesOf ws).length = 4 * ws.length := by
  induction ws with
  | nil => rfl
  | cons w ws ih =>
    rw [bytesOf_cons, List.length_append, length_wordBytes, ih, List.length_cons]; omega

/-- The bytes of a word that up to four bytes are stored in. -/
theorem wordBytes_ofNat {bs : List UInt8} (h : bs.length ≤ 4) :
    wordBytes (UInt32.ofNat (le bs)) = bs ++ List.replicate (4 - bs.length) 0 := by
  have hle : le (bs ++ List.replicate (4 - bs.length) 0) = le bs := by
    rw [le_append]
    suffices ∀ n, le (List.replicate n 0) = 0 by rw [this, Nat.mul_zero, Nat.add_zero]
    intro n
    induction n with
    | zero => rfl
    | succ n ih => rw [List.replicate_succ, le, ih]; rfl
  have hlen : (bs ++ List.replicate (4 - bs.length) (0 : UInt8)).length = 4 := by simp; omega
  have hlt := le_lt (bs ++ List.replicate (4 - bs.length) 0)
  rw [hlen, hle] at hlt
  refine le_inj (by simp; omega) ?_
  rw [wordBytes, UInt32.toNat_ofNat', Nat.mod_eq_of_lt (by omega), le_toLE (by omega), hle]

/-- Bytes that are stored in words come back, with zeros behind them. -/
theorem bytesOf_wordsOf (bs : List UInt8) :
    bytesOf (wordsOf bs) = bs ++ List.replicate (4 * wordSize bs.length - bs.length) 0 := by
  induction bs using wordsOf.induct with
  | case1 b₀ b₁ b₂ b₃ bs ih =>
    have hlen : wordSize (b₀ :: b₁ :: b₂ :: b₃ :: bs).length = wordSize bs.length + 1 := by
      simp only [List.length_cons, wordSize]
      omega
    have hpad : 4 * (wordSize bs.length + 1) - (b₀ :: b₁ :: b₂ :: b₃ :: bs).length =
        4 * wordSize bs.length - bs.length := by
      simp only [List.length_cons]
      omega
    rw [wordsOf, bytesOf_cons, wordBytes_ofNat (by simp), ih, hlen, hpad]
    rfl
  | case2 => rfl
  | case3 bs h₁ h₂ =>
    obtain ⟨hw, h1, h3⟩ : wordsOf bs = [UInt32.ofNat (le bs)] ∧ 1 ≤ bs.length ∧ bs.length ≤ 3 := by
      match bs with
      | [] => exact absurd rfl h₂
      | [_] | [_, _] | [_, _, _] => exact ⟨rfl, by simp, by simp⟩
      | b₀ :: b₁ :: b₂ :: b₃ :: bs => exact absurd rfl (h₁ b₀ b₁ b₂ b₃ bs)
    rw [hw, bytesOf_cons, bytesOf_nil, List.append_nil, wordBytes_ofNat (by omega),
      show wordSize bs.length = 1 by rw [wordSize]; omega]

@[simp] theorem length_wordsOf (bs : List UInt8) : (wordsOf bs).length = wordSize bs.length := by
  have h := congrArg List.length (bytesOf_wordsOf bs)
  rw [length_bytesOf, List.length_append, List.length_replicate] at h
  rw [wordSize] at *
  omega

end ProtoCache

import Mathlib.Data.List.Basic

/-!
# Bounded storage

A piece of storage as the list of its cells. A store of a block of cells at a
position replaces the cells there; it is undefined when the block leaves the
storage. A writer that keeps the cells before its position, and moves the
position by no more than the block it stores, may store blocks that are wider
than what it means to write: what it has written is the prefix of the storage
before its position (`take_write`).
-/

namespace Storage

variable {α : Type*}

/-- Storing the block `bs` at position `d`: undefined outside the storage. -/
def write (mem : List α) (d : ℕ) (bs : List α) : Option (List α) :=
  if d + bs.length ≤ mem.length then some (mem.take d ++ (bs ++ mem.drop (d + bs.length)))
  else none

/-- Loading `n` cells from the front of what is left to read. -/
def load (src : List α) (n : ℕ) : Option (List α) :=
  if n ≤ src.length then some (src.take n) else none

theorem write_of_le {mem : List α} {d : ℕ} {bs : List α} (h : d + bs.length ≤ mem.length) :
    write mem d bs = some (mem.take d ++ (bs ++ mem.drop (d + bs.length))) := if_pos h

theorem load_of_le {src : List α} {n : ℕ} (h : n ≤ src.length) : load src n = some (src.take n) :=
  if_pos h

/-- A store keeps the size of the storage. -/
theorem length_write {mem mem' : List α} {d : ℕ} {bs : List α} (h : write mem d bs = some mem') :
    mem'.length = mem.length := by
  rw [write] at h
  split at h
  · cases h; simp; omega
  · cases h

/-- What is before the position, once it has moved over a part of the block. -/
theorem take_write {mem mem' : List α} {d : ℕ} {bs : List α} (h : write mem d bs = some mem')
    {l : ℕ} (hl : l ≤ bs.length) : mem'.take (d + l) = mem.take d ++ bs.take l := by
  rw [write] at h
  split at h
  · rename_i hd
    cases h
    have hd' : (mem.take d).length = d := by simp; omega
    rw [List.take_append, hd', List.take_take, Nat.add_sub_cancel_left,
      Nat.min_eq_right (Nat.le_add_right d l), List.take_append_of_le_length hl]
  · cases h

/-- A store inside the storage succeeds, and shows in the prefix before the new
    position. -/
theorem exists_write (mem : List α) (d l : ℕ) (bs : List α) (h : d + bs.length ≤ mem.length)
    (hl : l ≤ bs.length) : ∃ mem', write mem d bs = some mem' ∧ mem'.length = mem.length ∧
      mem'.take (d + l) = mem.take d ++ bs.take l :=
  ⟨_, write_of_le h, length_write (write_of_le h), take_write (write_of_le h) hl⟩

end Storage

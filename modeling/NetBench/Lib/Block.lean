/-
# `NetBench.Lib.Block` — a block of memory

A block is the list of its cells.  `load` and `store` go through an offset and
fail where they would leave the block.

    a load where one stored gives what was stored      (`load_store_same`)
    a load beside it gives what it gave before          (`load_store_disjoint`)
    storing what is there changes nothing               (`store_of_load`)
-/
import Mathlib.Data.List.Basic
import Mathlib.Tactic.Common

namespace NetBench.Lib.Block

variable {α : Type*} {m m' d : List α} {off len : Nat}

/-- The `len` cells from `off` on. -/
def load (m : List α) (off len : Nat) : Option (List α) :=
  if off + len ≤ m.length then some ((m.drop off).take len) else none

/-- Overwrite the cells from `off` on. -/
def store (m : List α) (off : Nat) (d : List α) : Option (List α) :=
  if off + d.length ≤ m.length then some (m.take off ++ (d ++ m.drop (off + d.length))) else none

theorem load_of_le (h : off + len ≤ m.length) : load m off len = some ((m.drop off).take len) :=
  if_pos h

theorem load_le (h : load m off len = some d) : off + len ≤ m.length := by
  by_contra hlt
  rw [load, if_neg hlt] at h
  cases h

theorem length_of_load (h : load m off len = some d) : d.length = len := by
  have hle := load_le h
  rw [load_of_le hle] at h
  cases h
  rw [List.length_take, List.length_drop]
  omega

theorem store_of_le (h : off + d.length ≤ m.length) :
    store m off d = some (m.take off ++ (d ++ m.drop (off + d.length))) :=
  if_pos h

theorem store_eq_some (h : store m off d = some m') :
    off + d.length ≤ m.length ∧ m' = m.take off ++ (d ++ m.drop (off + d.length)) := by
  by_cases hle : off + d.length ≤ m.length
  · rw [store_of_le hle] at h
    cases h
    exact ⟨hle, rfl⟩
  · rw [store, if_neg hle] at h
    cases h

theorem length_store (h : store m off d = some m') : m'.length = m.length := by
  obtain ⟨hle, rfl⟩ := store_eq_some h
  simp only [List.length_append, List.length_take, List.length_drop]
  omega

theorem load_store_same (h : store m off d = some m') : load m' off d.length = some d := by
  have hlen := length_store h
  obtain ⟨hle, rfl⟩ := store_eq_some h
  rw [load_of_le (by rw [hlen]; exact hle)]
  have htake : (m.take off).length = off := by
    rw [List.length_take]
    omega
  rw [List.drop_left' htake, List.take_left]

theorem load_store_disjoint {o l : Nat} (h : store m off d = some m')
    (hdis : o + l ≤ off ∨ off + d.length ≤ o) : load m' o l = load m o l := by
  have hlen := length_store h
  obtain ⟨hle, rfl⟩ := store_eq_some h
  have htake : (m.take off).length = off := by
    rw [List.length_take]
    omega
  by_cases hol : o + l ≤ m.length
  · rw [load_of_le (by rw [hlen]; exact hol), load_of_le hol]
    congr 1
    rcases hdis with hlt | hge
    · -- the loaded cells lie before the stored ones
      rw [List.drop_append_of_le_length (by omega), List.take_append_of_le_length
        (by rw [List.length_drop]; omega), List.drop_take, List.take_take]
      congr 1
      omega
    · rw [← List.append_assoc, List.drop_append,
        List.drop_eq_nil_of_le (by rw [List.length_append]; omega), List.nil_append,
        List.drop_drop]
      congr 2
      rw [List.length_append]
      omega
  · rw [load, if_neg (by rw [hlen]; exact hol), load, if_neg hol]

/-- A part of what a load gives is loaded from inside. -/
theorem load_sub {k l : Nat} (h : load m off len = some d) (hk : k + l ≤ len) :
    load m (off + k) l = some ((d.drop k).take l) := by
  have hle := load_le h
  rw [load_of_le hle] at h
  cases h
  rw [load_of_le (by omega), List.drop_take, List.take_take, List.drop_drop,
    Nat.min_eq_left (by omega)]

/-- Storing what is there changes nothing. -/
theorem store_of_load (h : load m off d.length = some d) : store m off d = some m := by
  have hle := load_le h
  rw [load_of_le hle] at h
  rw [store_of_le hle]
  have hd : (m.drop off).take d.length = d := Option.some.inj h
  congr 1
  calc m.take off ++ (d ++ m.drop (off + d.length))
      = m.take off ++ ((m.drop off).take d.length ++ (m.drop off).drop d.length) := by
        rw [hd, List.drop_drop]
    _ = m := by rw [List.take_append_drop, List.take_append_drop]

end NetBench.Lib.Block

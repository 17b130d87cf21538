/-
# `NetBench.Lib.CellRing` — a ring of cells that are written in place

A ring of `c` cells with a reader cursor `r` and a writer cursor `w`, which are not reduced
modulo `c`.  An item is built up in the cell at the writer, which is not among those that can
be read, and is handed over by moving the writer.

    r ≤ w ≤ r + c          unread = the cells at r, r + 1, …, w - 1 modulo c

    a write into the cell at the writer leaves what is unread       (`contents_modify`)
    moving the writer appends its cell                              (`contents_push`)
    what is taken out was the first                                 (`contents_of_pop`)
-/
import NetBench.Lib.Ring
import Mathlib.Data.Nat.ModEq

namespace NetBench.Lib

structure CellRing (α : Type*) (c : Nat) where
  cells : Nat → α
  r : Nat
  w : Nat
  le : r ≤ w
  le_add : w ≤ r + c

namespace CellRing

variable {α : Type*} {c : Nat}

/-- Nothing to read; the cells hold whatever they held. -/
def empty (c : Nat) (cells : Nat → α) : CellRing α c := ⟨cells, 0, 0, Nat.le_refl 0, Nat.zero_le _⟩

/-- The unread items, oldest first. -/
def contents (R : CellRing α c) : List α := segment (fun i => R.cells (i % c)) R.r (R.w - R.r)

/-- A write into a cell. -/
def modify (R : CellRing α c) (p : Nat) (f : α → α) : CellRing α c :=
  { R with cells := Function.update R.cells p (f (R.cells p)) }

/-- The item at the writer is done. -/
def push (R : CellRing α c) : CellRing α c :=
  if h : R.w < R.r + c then { R with w := R.w + 1, le := Nat.le_succ_of_le R.le, le_add := h }
  else R

/-- The first item, and the ring without it. -/
def pop (R : CellRing α c) : Option (α × CellRing α c) :=
  if h : R.r < R.w then
    some (R.cells (R.r % c), { R with
      r := R.r + 1, le := h, le_add := Nat.add_right_comm R.r c 1 ▸ Nat.le_succ_of_le R.le_add })
  else none

variable {R : CellRing α c}

@[simp] theorem contents_empty (cells : Nat → α) : (empty c cells).contents = [] := rfl

@[simp] theorem cells_modify (R : CellRing α c) (p : Nat) (f : α → α) :
    (R.modify p f).cells p = f (R.cells p) :=
  Function.update_self ..

theorem length_contents (R : CellRing α c) : R.contents.length = R.w - R.r :=
  length_segment ..

/-- An unread cell is not the one at the writer. -/
theorem mod_ne_of_lt (h : R.w < R.r + c) {i : Nat} (hr : R.r ≤ i) (hw : i < R.w) :
    i % c ≠ R.w % c := by
  intro heq
  have hdvd : c ∣ R.w - i := (Nat.modEq_iff_dvd' hw.le).mp heq
  have hle := Nat.le_of_dvd (Nat.sub_pos_of_lt hw) hdvd
  omega

theorem contents_modify (h : R.w < R.r + c) (f : α → α) :
    (R.modify (R.w % c) f).contents = R.contents := by
  refine segment_congr fun i hr hw => ?_
  have hw : i < R.r + (R.w - R.r) := hw
  have hle := R.le
  exact Function.update_of_ne (mod_ne_of_lt h hr (by omega)) _ _

theorem contents_push (h : R.w < R.r + c) :
    R.push.contents = R.contents ++ [R.cells (R.w % c)] := by
  have hle := R.le
  have hlen : R.w + 1 - R.r = (R.w - R.r) + 1 := by omega
  have hpos : R.r + (R.w - R.r) = R.w := by omega
  rw [push, dif_pos h]
  show segment _ R.r (R.w + 1 - R.r) = _
  rw [hlen, segment_add, hpos]
  rfl

theorem contents_of_pop {x : α} {R' : CellRing α c} (h : R.pop = some (x, R')) :
    R.contents = x :: R'.contents ∧ R'.w = R.w ∧ R.r ≤ R'.r ∧ R'.cells = R.cells := by
  rw [pop] at h
  split at h
  · rename_i hlt
    cases h
    have hlen : R.w - R.r = 1 + (R.w - (R.r + 1)) := by omega
    refine ⟨?_, rfl, Nat.le_succ _, rfl⟩
    rw [contents, hlen, segment_add]
    rfl
  · cases h

theorem contents_of_pop_none (h : R.pop = none) : R.contents = [] := by
  rw [pop] at h
  split at h
  · cases h
  · refine List.eq_nil_of_length_eq_zero ?_
    rw [length_contents]
    omega

end CellRing

end NetBench.Lib

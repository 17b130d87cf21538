/-
# `NetBench.MaRing` — the rings of the records

`muggle_ma_ring` belongs to another repository.  `MaRing` lists the functions of it that
`record.c` calls and what its own thread does, over an arbitrary type of rings with items
`α`; `MaRing.Fifo` is what `record.c` relies on: seen through `contents` a ring is a FIFO of
whole items, and the cell that `alloc` has returned is not among them.

`Owns q c` says that the thread of the ring `q` may write into the cell `c`: it has been
returned by `alloc`, and `move` was not called since.

`cellRing` is the ring of `NetBench.Lib.CellRing` with these functions; `cellRing_fifo` says
that it is such a FIFO.
-/
import NetBench.Lib.CellRing

namespace NetBench

open Lib

/-- The functions of `muggle_ma_ring`. -/
structure MaRing (α β : Type) where
  /-- `muggle_ma_ring_alloc`: a cell, or `none` as long as it waits. -/
  alloc : β → Option (Nat × β)
  /-- What a cell holds. -/
  load : β → Nat → α
  /-- A write into a cell. -/
  modify : β → Nat → (α → α) → β
  /-- `muggle_ma_ring_move`. -/
  move : β → β
  /-- The next item for the callback, and the ring without it. -/
  read : β → Option (α × β)

variable {α β : Type}

/-- The ring is a FIFO of at most `cap` items, with one more cell for the next item only if
there are fewer. -/
structure MaRing.Fifo (M : MaRing α β) (contents : β → List α) (Owns : β → Nat → Prop)
    (cap : Nat) : Prop where
  alloc : ∀ {q c q'}, M.alloc q = some (c, q') → (contents q).length < cap ∧
    contents q' = contents q ∧ Owns q' c
  modify : ∀ {q c}, Owns q c → ∀ f, contents (M.modify q c f) = contents q ∧
    Owns (M.modify q c f) c ∧ M.load (M.modify q c f) c = f (M.load q c)
  move : ∀ {q c}, Owns q c → contents (M.move q) = contents q ++ [M.load q c]
  read : ∀ {q x q'}, M.read q = some (x, q') → contents q = x :: contents q' ∧
    ∀ c, Owns q c → Owns q' c ∧ M.load q' c = M.load q c
  read_none : ∀ {q}, M.read q = none → contents q = []

/-! ## The ring with two cursors -/

/-- `muggle_ma_ring` as a ring of `c` cells. -/
def cellRing (α : Type) (c : Nat) : MaRing α (CellRing α c) where
  alloc R := if R.w < R.r + c then some (R.w % c, R) else none
  load R p := R.cells p
  modify R p f := R.modify p f
  move R := R.push
  read R := R.pop

/-- The cell at the writer, if it is not unread. -/
def CellRing.Writes {c : Nat} (R : CellRing α c) (p : Nat) : Prop :=
  R.w < R.r + c ∧ p = R.w % c

theorem cellRing_fifo (α : Type) (c : Nat) :
    (cellRing α c).Fifo CellRing.contents CellRing.Writes c where
  alloc {R p R'} h := by
    by_cases hw : R.w < R.r + c
    · obtain ⟨rfl, rfl⟩ := Prod.mk.inj (Option.some.inj ((if_pos hw).symm.trans h))
      refine ⟨?_, rfl, hw, rfl⟩
      have hle := R.le
      rw [CellRing.length_contents]
      omega
    · cases (if_neg hw).symm.trans h
  modify {R p} h f := by
    obtain ⟨hw, rfl⟩ := h
    exact ⟨CellRing.contents_modify hw f, ⟨hw, rfl⟩, R.cells_modify _ f⟩
  move {R p} h := by
    obtain ⟨hw, rfl⟩ := h
    exact CellRing.contents_push hw
  read {R x R'} h := by
    obtain ⟨hcont, hw, hr, hcells⟩ := CellRing.contents_of_pop h
    refine ⟨hcont, fun p hp => ⟨⟨?_, ?_⟩, congrFun hcells p⟩⟩
    · have hlt := hp.1
      omega
    · rw [hw]
      exact hp.2
  read_none h := CellRing.contents_of_pop_none h

end NetBench

/-
# `NetBench.Lib.Ring` — a ring buffer whose writer jumps

A ring of capacity `c` with a reader position `r`, a writer position `w` and a
truncation mark `t`.  Space for a write must be contiguous: when there is not
enough of it behind `w`, the writer jumps to the start of the memory and leaves
`t` where it was; the reader skips from `t` to the start.

    unwrapped   r ≤ w          unread = [r, w)             t = c
    wrapped     w < r ≤ t      unread = [r, t) ++ [0, w)

`Marks` holds the three positions and carries their invariant, `Ring` adds the
memory.  Seen from outside the ring is a FIFO queue:

    a write of `data` where `writerFc` said appends `data`       (`contents_store`)
    `skip k` drops the first `k` unread elements                  (`contents_skip`)
    a contiguous read sees the first unread elements              (`contents_take_of_contig`)
-/
import Mathlib.Algebra.GroupWithZero.Nat
import Mathlib.Data.List.Basic
import Mathlib.Data.List.Range
import Mathlib.Tactic.Common

namespace NetBench.Lib

/-! ## Positions -/

/-- Reader, writer and truncation mark of a ring of capacity `c`. -/
@[ext] structure Marks (c : Nat) where
  r : Nat
  w : Nat
  t : Nat
  ok : (r ≤ w ∧ w ≤ c ∧ t = c) ∨ (w < r ∧ r ≤ t ∧ t ≤ c)

namespace Marks

variable {c : Nat}

/-- The marks of an empty ring. -/
def empty (c : Nat) : Marks c := ⟨0, 0, c, Or.inl (by omega)⟩

/-- The number of unread elements. -/
def unread (m : Marks c) : Nat := if m.r ≤ m.w then m.w - m.r else m.t - m.r + m.w

/-- How many of them can be read in one piece. -/
def contig (m : Marks c) : Nat := if m.r ≤ m.w then m.w - m.r else m.t - m.r

/-- How much can be written in one piece at the writer position; the writer
never catches up with the reader from behind. -/
def room (m : Marks c) : Nat :=
  if m.r ≤ m.w then (if m.r = 0 then c - m.w - 1 else c - m.w) else m.r - m.w - 1

/-- Where `k` elements can be written in one piece: at the writer, else at the
start of the memory, else nowhere. -/
def writerFc (m : Marks c) (k : Nat) : Option Nat :=
  if k ≤ m.room then some m.w
  else if m.r ≤ m.w ∧ k < m.r then some 0
  else none

/-- Account for `k` elements written at position `p`: behind the writer, or at
the start after a jump. -/
def writerMove (m : Marks c) (p k : Nat) : Option (Marks c) :=
  if h : p = m.w ∧ k ≤ m.room then
    some ⟨m.r, m.w + k, m.t, by
      have := m.ok
      have := h.2
      simp only [room] at this
      split at this
      · split at this <;> omega
      · omega⟩
  else if h : p = 0 ∧ m.r ≤ m.w ∧ k < m.r then
    some ⟨m.r, k, m.w, by have := m.ok; omega⟩
  else none

/-- Consume `k` unread elements. -/
def skip (m : Marks c) (k : Nat) (h : k ≤ m.unread) : Marks c :=
  if hw : m.r ≤ m.w then
    ⟨m.r + k, m.w, m.t, by
      have := m.ok
      simp only [unread, if_pos hw] at h
      omega⟩
  else if ht : m.t ≤ m.r + k then
    ⟨m.r + k - m.t, m.w, c, by
      have := m.ok
      simp only [unread, if_neg hw] at h
      omega⟩
  else ⟨m.r + k, m.w, m.t, by have := m.ok; omega⟩

theorem contig_le_unread (m : Marks c) : m.contig ≤ m.unread := by
  unfold contig unread
  split <;> omega

theorem unread_le (m : Marks c) : m.unread ≤ c := by
  have := m.ok
  unfold unread
  split <;> omega

@[simp] theorem unread_empty : (empty c).unread = 0 := rfl

/-! ### Several writes -/

/-- Of writes with the lengths `ns`, the first at position `w`: those from the first one on
that does not find `k` elements behind the writer. -/
def afterJump (c k : Nat) : Nat → List Nat → List Nat
  | _, [] => []
  | w, n :: ns => if w + k ≤ c then afterJump c k (w + n) ns else n :: ns

/-- Room for `k` elements is found for each of the writes with the lengths `ns`, and once
more after them. -/
def Fits (k : Nat) (m : Marks c) (ns : List Nat) : Prop :=
  if m.r ≤ m.w then
    if m.r = 0 then m.w + ns.sum + k < c
    else m.w + ns.sum + k ≤ c ∨ (afterJump c k m.w ns).sum + k < m.r
  else m.w + ns.sum + k < m.r

instance (k : Nat) (m : Marks c) (ns : List Nat) : Decidable (m.Fits k ns) :=
  inferInstanceAs (Decidable (if m.r ≤ m.w then
    if m.r = 0 then m.w + ns.sum + k < c
    else m.w + ns.sum + k ≤ c ∨ (afterJump c k m.w ns).sum + k < m.r
  else m.w + ns.sum + k < m.r))

theorem fits_nil {k : Nat} (h0 : 0 < k) {m : Marks c} : m.Fits k [] ↔ (m.writerFc k).isSome := by
  have hok := m.ok
  rw [Fits, writerFc, room, List.sum_nil]
  by_cases hw : m.r ≤ m.w
  · rw [if_pos hw, if_pos hw]
    by_cases hr : m.r = 0
    · rw [if_pos hr, if_pos hr]
      split
      · exact iff_of_true (by omega) rfl
      · rw [if_neg (by omega)]
        exact iff_of_false (by omega) (by simp)
    · rw [if_neg hr, if_neg hr]
      show _ ∨ 0 + k < m.r ↔ _
      split
      · exact iff_of_true (Or.inl (by omega)) rfl
      · split
        · exact iff_of_true (Or.inr (by omega)) rfl
        · exact iff_of_false (by omega) (by simp)
  · rw [if_neg hw, if_neg hw]
    split
    · exact iff_of_true (by omega) rfl
    · rw [if_neg (by omega)]
      exact iff_of_false (by omega) (by simp)

/-- The first write finds room. -/
theorem Fits.isSome {k : Nat} (h0 : 0 < k) {m : Marks c} {ns : List Nat} (h : m.Fits k ns) :
    (m.writerFc k).isSome := by
  refine (fits_nil h0).mp ?_
  unfold Fits at h ⊢
  split
  · rename_i hw
    rw [if_pos hw] at h
    split
    · rename_i hr
      rw [if_pos hr] at h
      rw [List.sum_nil]
      omega
    · rename_i hr
      rw [if_neg hr] at h
      rw [List.sum_nil]
      show _ ∨ 0 + k < m.r
      omega
  · rename_i hw
    rw [if_neg hw] at h
    rw [List.sum_nil]
    omega

/-- What is left after the first write. -/
theorem fits_cons {k n p : Nat} {ns : List Nat} {m m' : Marks c} (hp : m.writerFc k = some p)
    (hn : n ≤ k) (hm : m.writerMove p n = some m') : m.Fits k (n :: ns) ↔ m'.Fits k ns := by
  have hok := m.ok
  unfold writerFc at hp
  by_cases hroom : k ≤ m.room
  · -- behind the writer
    rw [if_pos hroom] at hp
    cases hp
    rw [writerMove, dif_pos ⟨rfl, Nat.le_trans hn hroom⟩] at hm
    cases hm
    simp only [room] at hroom
    simp only [Fits, List.sum_cons, afterJump]
    by_cases hw : m.r ≤ m.w
    · rw [if_pos hw] at hroom
      rw [if_pos hw, if_pos (show m.r ≤ m.w + n by omega)]
      by_cases hr : m.r = 0
      · rw [if_pos hr, if_pos hr, Nat.add_assoc m.w n]
      · rw [if_neg hr] at hroom
        rw [if_neg hr, if_neg hr, if_pos (show m.w + k ≤ c by omega), Nat.add_assoc m.w n]
    · rw [if_neg hw] at hroom
      rw [if_neg hw, if_neg (show ¬ m.r ≤ m.w + n by omega), Nat.add_assoc m.w n]
  · -- at the start, after a jump
    rw [if_neg hroom] at hp
    split at hp
    · rename_i hj
      cases hp
      rw [writerMove, dif_neg (show ¬ (0 = m.w ∧ n ≤ m.room) by omega),
        dif_pos ⟨rfl, hj.1, by omega⟩] at hm
      cases hm
      simp only [room, if_pos hj.1] at hroom
      simp only [Fits, List.sum_cons, afterJump]
      rw [if_pos hj.1, if_neg (show ¬ m.r = 0 by omega), if_neg (show ¬ m.r ≤ n by omega)]
      rw [if_neg (show ¬ m.r = 0 by omega)] at hroom
      rw [if_neg (show ¬ m.w + k ≤ c by omega), List.sum_cons]
      omega
    · cases hp

end Marks

/-! ## Segments of the memory -/

section Segment

variable {α : Type*}

/-- The `n` elements of the memory from position `a` on. -/
def segment (f : Nat → α) (a n : Nat) : List α := (List.range' a n).map f

/-- The memory after `data` was stored at position `p`. -/
def storeAt (f : Nat → α) (p : Nat) (data : List α) : Nat → α :=
  fun i => if p ≤ i then data.getD (i - p) (f i) else f i

variable (f : Nat → α) (a n k : Nat)

@[simp] theorem length_segment : (segment f a n).length = n := by simp [segment]

@[simp] theorem segment_zero : segment f a 0 = [] := rfl

theorem segment_add : segment f a (n + k) = segment f a n ++ segment f (a + n) k := by
  simp [segment, ← List.map_append]

theorem drop_segment : (segment f a n).drop k = segment f (a + k) (n - k) := by
  simp [segment, ← List.map_drop, List.drop_range']

theorem take_segment (h : k ≤ n) : (segment f a n).take k = segment f a k := by
  obtain ⟨d, rfl⟩ := Nat.exists_eq_add_of_le h
  rw [segment_add, List.take_left' (by simp)]

variable {f a n}

theorem segment_congr {g : Nat → α} (h : ∀ i, a ≤ i → i < a + n → f i = g i) :
    segment f a n = segment g a n := by
  refine List.map_congr_left fun i hi => ?_
  rw [List.mem_range'_1] at hi
  exact h i hi.1 hi.2

/-- Storing elsewhere does not change a segment. -/
theorem segment_storeAt_of_disjoint {p : Nat} {data : List α}
    (h : a + n ≤ p ∨ p + data.length ≤ a) : segment (storeAt f p data) a n = segment f a n := by
  refine segment_congr fun i hi hi' => ?_
  unfold storeAt
  split
  · rw [List.getD_eq_getElem?_getD, List.getElem?_eq_none (by omega), Option.getD_none]
  · rfl

/-- The segment that was stored. -/
theorem segment_storeAt_self (p : Nat) (data : List α) :
    segment (storeAt f p data) p data.length = data := by
  refine List.ext_getElem (by simp) fun i hi hi' => ?_
  simp [segment, storeAt, hi']

end Segment

/-! ## The ring -/

/-- A ring of capacity `c` over `α`. -/
structure Ring (α : Type*) (c : Nat) extends Marks c where
  mem : Nat → α

namespace Ring

variable {α : Type*} {c : Nat}

/-- The unread elements, oldest first. -/
def contents (R : Ring α c) : List α :=
  if R.r ≤ R.w then segment R.mem R.r (R.w - R.r)
  else segment R.mem R.r (R.t - R.r) ++ segment R.mem 0 R.w

theorem length_contents (R : Ring α c) : R.contents.length = R.unread := by
  unfold contents Marks.unread
  split <;> simp

/-- Data stored where `writerFc` said, and accounted for, is appended to the
unread elements. -/
theorem contents_store {R : Ring α c} {k p : Nat} {data : List α}
    (h : R.writerFc k = some p) (hlen : data.length ≤ k) :
    ∃ m', R.writerMove p data.length = some m' ∧
      (⟨m', storeAt R.mem p data⟩ : Ring α c).contents = R.contents ++ data := by
  have hok := R.ok
  unfold Marks.writerFc at h
  split at h
  · -- behind the writer
    rename_i hroom
    cases h
    rw [Marks.writerMove, dif_pos ⟨rfl, Nat.le_trans hlen hroom⟩]
    refine ⟨_, rfl, ?_⟩
    by_cases hw : R.r ≤ R.w
    · have hsum : R.w + data.length - R.r = (R.w - R.r) + data.length := by omega
      have hpos : R.r + (R.w - R.r) = R.w := by omega
      simp only [contents, if_pos hw, if_pos (show R.r ≤ R.w + data.length by omega)]
      rw [hsum, segment_add, hpos, segment_storeAt_self,
        segment_storeAt_of_disjoint (Or.inl (by omega))]
    · have hfit : R.w + data.length < R.r := by
        simp only [Marks.room, if_neg hw] at hroom
        omega
      simp only [contents, if_neg hw, if_neg (show ¬ R.r ≤ R.w + data.length by omega)]
      rw [segment_add, Nat.zero_add, segment_storeAt_self,
        segment_storeAt_of_disjoint (a := 0) (Or.inl (by omega)),
        segment_storeAt_of_disjoint (a := R.r) (Or.inr (by omega)), List.append_assoc]
  · split at h
    · -- at the start, after a jump
      rename_i hroom hj
      cases h
      rw [Marks.writerMove, dif_neg (by rintro ⟨hw, _⟩; omega), dif_pos ⟨rfl, hj.1, by omega⟩]
      refine ⟨_, rfl, ?_⟩
      simp only [contents, if_pos hj.1, if_neg (show ¬ R.r ≤ data.length by omega)]
      rw [segment_storeAt_self, segment_storeAt_of_disjoint (Or.inr (by omega))]
    · cases h

/-- Consuming `k` elements drops them from the front. -/
theorem contents_skip (R : Ring α c) (k : Nat) (h : k ≤ R.unread) :
    (⟨R.skip k h, R.mem⟩ : Ring α c).contents = R.contents.drop k := by
  have hok := R.ok
  by_cases hw : R.r ≤ R.w
  · have hle : R.r + k ≤ R.w := by simp only [Marks.unread, if_pos hw] at h; omega
    rw [Marks.skip, dif_pos hw]
    simp only [contents, if_pos hw, if_pos hle, drop_segment]
    rw [show R.w - (R.r + k) = R.w - R.r - k by omega]
  · have hlen : (segment R.mem R.r (R.t - R.r)).length = R.t - R.r := by simp
    by_cases ht : R.t ≤ R.r + k
    · -- the reader passes the truncation mark
      have hle : R.r + k - R.t ≤ R.w := by simp only [Marks.unread, if_neg hw] at h; omega
      rw [Marks.skip, dif_neg hw, dif_pos ht]
      simp only [contents, if_neg hw, if_pos hle]
      rw [List.drop_append, List.drop_eq_nil_of_le (by omega), List.nil_append, hlen,
        drop_segment, Nat.zero_add, show k - (R.t - R.r) = R.r + k - R.t by omega]
    · rw [Marks.skip, dif_neg hw, dif_neg ht]
      simp only [contents, if_neg hw, if_neg (show ¬ R.r + k ≤ R.w by omega)]
      rw [List.drop_append_of_le_length (by omega), drop_segment,
        show R.t - (R.r + k) = R.t - R.r - k by omega]

/-- What is contiguously readable is what comes first. -/
theorem contents_take_of_contig (R : Ring α c) {k : Nat} (h : k ≤ R.contig) :
    R.contents.take k = segment R.mem R.r k := by
  unfold contents
  by_cases hw : R.r ≤ R.w
  · simp only [Marks.contig, if_pos hw] at h
    rw [if_pos hw, take_segment _ _ _ _ h]
  · simp only [Marks.contig, if_neg hw] at h
    rw [if_neg hw, List.take_append_of_le_length (by simpa using h), take_segment _ _ _ _ h]

/-- The contiguously readable part does not reach past the capacity. -/
theorem r_add_contig_le (m : Marks c) : m.r + m.contig ≤ c := by
  have := m.ok
  unfold Marks.contig
  split <;> omega

end Ring

end NetBench.Lib

/-
# `NetBench.BytesBuffer` — the receive buffer

`muggle_bytes_buffer` belongs to another repository.  `BytesBuffer` lists the
functions of it that the session calls, over an arbitrary type of buffers;
`BytesBuffer.Fifo` is what the session relies on: seen through `contents` the
buffer is a FIFO of bytes, whatever its layout.

A pointer into the buffer is its offset.  A read pointer is given as the memory
seen through it, which may go on past the bytes asked for: `readerFc` points
into the buffer, `read` copies into a fresh block, and behind either lies
memory that the buffer says nothing about.

`ringBuffer` is the ring of `NetBench.Lib.Ring` with these functions;
`ringBuffer_fifo` says that it is such a FIFO.
-/
import NetBench.Lib.Ring
import NetBench.Msg

namespace NetBench

open Lib

/-- The functions of `muggle_bytes_buffer` that the session calls. -/
structure BytesBuffer (β : Type) where
  /-- `writer_fc`: where so many bytes can be written in one piece. -/
  writerFc : β → Nat → Option Nat
  /-- A store of bytes through a pointer of `writerFc`. -/
  fill : β → Nat → Bytes → β
  /-- `writer_move_n`: account for so many bytes written at the pointer. -/
  writerMoveN : β → Nat → Nat → Option β
  /-- `fetch`: copy without consuming. -/
  fetch : β → Nat → Option Bytes
  /-- `readable`. -/
  readable : β → Nat
  /-- `reader_fc`: the memory at the read position, if so many bytes are contiguous there. -/
  readerFc : β → Nat → Option Bytes
  /-- `reader_move`: consume. -/
  readerMove : β → Nat → Option β
  /-- `read`: copy and consume; the memory at the copy. -/
  read : β → Nat → Option (Bytes × β)

variable {β : Type}

/-- The buffer is a FIFO of at most `cap` bytes, and `cap` fits an `int`. -/
structure BytesBuffer.Fifo (B : BytesBuffer β) (contents : β → Bytes) (cap : Nat) : Prop where
  cap_lt : cap < 2 ^ 31
  length_le : ∀ b, (contents b).length ≤ cap
  write : ∀ {b k p} {data : Bytes}, B.writerFc b k = some p → data.length ≤ k →
    ∃ b', B.writerMoveN (B.fill b p data) p data.length = some b' ∧
      contents b' = contents b ++ data
  fetch_of_le : ∀ {b k}, k ≤ (contents b).length → B.fetch b k = some ((contents b).take k)
  fetch_of_lt : ∀ {b k}, (contents b).length < k → B.fetch b k = none
  readable_eq : ∀ b, B.readable b = (contents b).length
  readerFc_some : ∀ {b k m}, B.readerFc b k = some m → (contents b).take k <+: m ∧
    ∃ b', B.readerMove b k = some b' ∧ contents b' = (contents b).drop k
  read_of_le : ∀ {b k}, k ≤ (contents b).length → ∃ m b', B.read b k = some (m, b') ∧
    (contents b).take k <+: m ∧ contents b' = (contents b).drop k

/-! ## The ring as such a buffer -/

/-- `muggle_bytes_buffer` as a ring of capacity `c`. -/
def ringBuffer (c : Nat) : BytesBuffer (Ring UInt8 c) where
  writerFc R k := R.writerFc k
  fill R p data := ⟨R.toMarks, storeAt R.mem p data⟩
  writerMoveN R p k := (R.writerMove p k).map fun m => ⟨m, R.mem⟩
  fetch R k := if k ≤ R.unread then some (R.contents.take k) else none
  readable R := R.unread
  readerFc R k := if k ≤ R.contig then some (segment R.mem R.r (c - R.r)) else none
  readerMove R k :=
    if h : k ≤ R.contig then some ⟨R.skip k (Nat.le_trans h R.contig_le_unread), R.mem⟩ else none
  read R k := if h : k ≤ R.unread then some (R.contents.take k, ⟨R.skip k h, R.mem⟩) else none

/-- A ring with nothing in it; the memory holds whatever it held. -/
def emptyRing (c : Nat) (mem : Nat → UInt8) : Ring UInt8 c := ⟨Marks.empty c, mem⟩

@[simp] theorem contents_emptyRing (c : Nat) (mem : Nat → UInt8) :
    (emptyRing c mem).contents = [] := rfl

theorem ringBuffer_fifo {c : Nat} (hc : c < 2 ^ 31) :
    (ringBuffer c).Fifo Ring.contents c where
  cap_lt := hc
  length_le R := by rw [Ring.length_contents]; exact R.unread_le
  write {R k p data} h hlen := by
    obtain ⟨m', hm, hcont⟩ := Ring.contents_store h hlen
    exact ⟨⟨m', storeAt R.mem p data⟩, by simp [ringBuffer, hm], hcont⟩
  fetch_of_le {R k} h := by
    rw [Ring.length_contents] at h
    exact if_pos h
  fetch_of_lt {R k} h := by
    rw [Ring.length_contents] at h
    exact if_neg (by omega)
  readable_eq R := (Ring.length_contents R).symm
  readerFc_some {R k m} h := by
    by_cases hk : k ≤ R.contig
    · simp only [ringBuffer, if_pos hk, Option.some.injEq] at h
      subst h
      refine ⟨?_, ⟨R.skip k (Nat.le_trans hk R.contig_le_unread), R.mem⟩, dif_pos hk,
        Ring.contents_skip R k _⟩
      have hfit : k ≤ c - R.r := by
        have := Ring.r_add_contig_le R.toMarks
        omega
      rw [Ring.contents_take_of_contig R hk, ← take_segment R.mem R.r (c - R.r) k hfit]
      exact List.take_prefix _ _
    · simp [ringBuffer, if_neg hk] at h
  read_of_le {R k} h := by
    rw [Ring.length_contents] at h
    exact ⟨_, _, dif_pos h, List.prefix_rfl, Ring.contents_skip R k h⟩

end NetBench

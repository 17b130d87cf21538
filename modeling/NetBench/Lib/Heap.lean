/-
# `NetBench.Lib.Heap` — blocks of memory and their owners

A program allocates blocks and frees them.  `allocated` replays its operations: it
faults on a release of a block that is not allocated, so a sequence that does not
fault has no double free, and what it returns at the end is what has not been freed.

`Owned held live` says who answers for those blocks: the live blocks are the ones that
some owner holds, and no block has two owners.  An owner that takes new blocks
(`Owned.take`) or gives all of its blocks back (`Owned.drop`) keeps it, without a fault.
-/
import Mathlib.Algebra.GroupWithZero.Nat
import Mathlib.Data.Finset.Card
import Mathlib.Data.Finset.Lattice.Lemmas

namespace NetBench.Lib

variable {ι κ : Type*}

inductive HeapOp (ι : Type*) where
  | alloc (b : ι)
  | free (b : ι)
  deriving DecidableEq, Repr

/-- The live blocks are those that the owners hold, and no block has two owners. -/
structure Owned (held : κ → List ι) (live : Finset ι) : Prop where
  mem_iff : ∀ b, b ∈ live ↔ ∃ k, b ∈ held k
  owner : ∀ k l b, b ∈ held k → b ∈ held l → k = l
  nodup : ∀ k, (held k).Nodup

theorem Owned.empty : Owned (fun _ : κ => ([] : List ι)) ∅ where
  mem_iff b := iff_of_false (Finset.notMem_empty b) fun ⟨_, h⟩ => nomatch h
  owner _ _ _ h := nomatch h
  nodup _ := List.nodup_nil

theorem mem_update [DecidableEq κ] {held : κ → List ι} {k l : κ} {bs : List ι} {b : ι} :
    b ∈ Function.update held k bs l ↔ (l = k ∧ b ∈ bs) ∨ (l ≠ k ∧ b ∈ held l) := by
  by_cases hlk : l = k
  · subst hlk
    rw [Function.update_self]
    exact ⟨fun h => Or.inl ⟨rfl, h⟩, fun h => h.elim And.right fun h => absurd rfl h.1⟩
  · rw [Function.update_of_ne hlk]
    exact ⟨fun h => Or.inr ⟨hlk, h⟩, fun h => h.elim (fun h => absurd h.1 hlk) And.right⟩

theorem nodup_update [DecidableEq κ] {held : κ → List ι} {k : κ} {bs : List ι} (hbs : bs.Nodup)
    (h : ∀ l, (held l).Nodup) (l : κ) : (Function.update held k bs l).Nodup := by
  by_cases hlk : l = k
  · rwa [hlk, Function.update_self]
  · rw [Function.update_of_ne hlk]
    exact h l

variable [DecidableEq ι]

/-- The live blocks after one operation; `none` is a fault. -/
def HeapOp.exec (live : Finset ι) : HeapOp ι → Option (Finset ι)
  | .alloc b => if b ∈ live then none else some (insert b live)
  | .free b => if b ∈ live then some (live.erase b) else none

/-- The live blocks after the operations `ops`. -/
def allocated (ops : List (HeapOp ι)) : Option (Finset ι) := ops.foldlM HeapOp.exec ∅

theorem allocated_append {ops ops' : List (HeapOp ι)} {live : Finset ι}
    (h : allocated ops = some live) : allocated (ops ++ ops') = ops'.foldlM HeapOp.exec live := by
  unfold allocated at h ⊢
  rw [List.foldlM_append, h]
  rfl

theorem foldlM_alloc : ∀ {bs : List ι} {live : Finset ι}, bs.Nodup → (∀ b ∈ bs, b ∉ live) →
    (bs.map HeapOp.alloc).foldlM HeapOp.exec live = some (live ∪ bs.toFinset)
  | [], live, _, _ => by simp
  | b :: bs, live, hnd, hfresh => by
      obtain ⟨hb, hnd⟩ := List.nodup_cons.mp hnd
      obtain ⟨hlive, hfresh⟩ := List.forall_mem_cons.mp hfresh
      have hrest : ∀ d ∈ bs, d ∉ insert b live := by
        intro d hd hins
        rcases Finset.mem_insert.mp hins with rfl | hl
        · exact hb hd
        · exact hfresh d hd hl
      rw [List.map_cons, List.foldlM_cons, HeapOp.exec, if_neg hlive]
      show (bs.map HeapOp.alloc).foldlM HeapOp.exec (insert b live) = _
      rw [foldlM_alloc hnd hrest, List.toFinset_cons, Finset.insert_union, Finset.union_insert]

theorem foldlM_free : ∀ {bs : List ι} {live : Finset ι}, bs.Nodup → (∀ b ∈ bs, b ∈ live) →
    (bs.map HeapOp.free).foldlM HeapOp.exec live = some (live \ bs.toFinset)
  | [], live, _, _ => by simp
  | b :: bs, live, hnd, hlive => by
      obtain ⟨hb, hnd⟩ := List.nodup_cons.mp hnd
      obtain ⟨hmem, hlive⟩ := List.forall_mem_cons.mp hlive
      have hrest : ∀ d ∈ bs, d ∈ live.erase b := fun d hd =>
        Finset.mem_erase.mpr ⟨fun h => hb (h ▸ hd), hlive d hd⟩
      rw [List.map_cons, List.foldlM_cons, HeapOp.exec, if_pos hmem]
      show (bs.map HeapOp.free).foldlM HeapOp.exec (live.erase b) = _
      rw [foldlM_free hnd hrest, List.toFinset_cons, Finset.erase_sdiff_comm,
        Finset.sdiff_insert]

namespace Owned

/-- How many blocks are live, if the owners are among the `ks`. -/
theorem card_eq {held : κ → List ι} {live : Finset ι} (h : Owned held live) {ks : List κ}
    (hks : ks.Nodup) (hall : ∀ k, held k ≠ [] → k ∈ ks) :
    live.card = (ks.map fun k => (held k).length).sum := by
  have hnd : (ks.flatMap held).Nodup := by
    refine List.nodup_flatMap.mpr ⟨fun k _ => h.nodup k, hks.imp fun {k l} hne b hk hl => ?_⟩
    exact hne (h.owner k l b hk hl)
  have hlive : live = (ks.flatMap held).toFinset := by
    ext b
    rw [h.mem_iff, List.mem_toFinset, List.mem_flatMap]
    exact ⟨fun ⟨k, hk⟩ => ⟨k, hall k (List.ne_nil_of_mem hk), hk⟩, fun ⟨k, _, hk⟩ => ⟨k, hk⟩⟩
  rw [hlive, List.toFinset_card_of_nodup hnd, List.length_flatMap]

variable [DecidableEq κ] {held : κ → List ι} {live : Finset ι} {bs : List ι} {k : κ}

/-- An owner of nothing takes new blocks. -/
theorem take (h : Owned held live) (hk : held k = []) (hnd : bs.Nodup)
    (hnew : ∀ b ∈ bs, b ∉ live) :
    (bs.map HeapOp.alloc).foldlM HeapOp.exec live = some (live ∪ bs.toFinset) ∧
      Owned (Function.update held k bs) (live ∪ bs.toFinset) := by
  have hother : ∀ {l b}, b ∈ held l → b ∉ bs := fun hb hbs =>
    hnew _ hbs ((h.mem_iff _).mpr ⟨_, hb⟩)
  refine ⟨foldlM_alloc hnd hnew, ⟨fun b => ?_, fun l l' b hl hl' => ?_, nodup_update hnd h.nodup⟩⟩
  · rw [Finset.mem_union, List.mem_toFinset, h.mem_iff]
    constructor
    · rintro (⟨l, hl⟩ | hb)
      · have hne : l ≠ k := by
          rintro rfl
          rw [hk] at hl
          cases hl
        exact ⟨l, mem_update.mpr (Or.inr ⟨hne, hl⟩)⟩
      · exact ⟨k, mem_update.mpr (Or.inl ⟨rfl, hb⟩)⟩
    · rintro ⟨l, hl⟩
      exact (mem_update.mp hl).elim (fun h => Or.inr h.2) fun h => Or.inl ⟨l, h.2⟩
  · rcases mem_update.mp hl with ⟨rfl, hb⟩ | ⟨_, hb⟩
    · rcases mem_update.mp hl' with ⟨rfl, _⟩ | ⟨_, hb'⟩
      · rfl
      · exact absurd hb (hother hb')
    · rcases mem_update.mp hl' with ⟨rfl, hb'⟩ | ⟨_, hb'⟩
      · exact absurd hb' (hother hb)
      · exact h.owner l l' b hb hb'

/-- An owner gives its blocks back, in any order. -/
theorem drop (h : Owned held live) (hp : bs.Perm (held k)) :
    (bs.map HeapOp.free).foldlM HeapOp.exec live = some (live \ bs.toFinset) ∧
      Owned (Function.update held k []) (live \ bs.toFinset) := by
  have hlive : ∀ b ∈ bs, b ∈ live := fun b hb => (h.mem_iff b).mpr ⟨k, hp.subset hb⟩
  have hkeep : ∀ {l b}, b ∈ Function.update held k [] l ↔ l ≠ k ∧ b ∈ held l := by
    intro l b
    rw [mem_update]
    exact ⟨fun h => h.elim (fun h => nomatch h.2) id, Or.inr⟩
  refine ⟨foldlM_free (hp.nodup_iff.mpr (h.nodup k)) hlive, ⟨fun b => ?_, fun l l' b hl hl' =>
    h.owner l l' b (hkeep.mp hl).2 (hkeep.mp hl').2, nodup_update List.nodup_nil h.nodup⟩⟩
  rw [Finset.mem_sdiff, List.mem_toFinset, h.mem_iff]
  constructor
  · rintro ⟨⟨l, hl⟩, hb⟩
    have hne : l ≠ k := by
      rintro rfl
      exact hb (hp.symm.subset hl)
    exact ⟨l, hkeep.mpr ⟨hne, hl⟩⟩
  · rintro ⟨l, hl⟩
    obtain ⟨hne, hl⟩ := hkeep.mp hl
    exact ⟨⟨l, hl⟩, fun hb => hne (h.owner l k b hl (hp.subset hb))⟩

end Owned

end NetBench.Lib

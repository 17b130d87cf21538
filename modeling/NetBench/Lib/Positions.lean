/-
# `NetBench.Lib.Positions` — where the elements of a list stand

`positions f l` are the elements of `l` on which `f` is defined, each with its position
in `l`, in order.  On a list that grows at its end the old ones stay and new ones come
behind them (`positions_append`).  `Follows δ W R l` says that every `W` in `l` has an
`R` just `δ` places before it; a list that is put together from such lists is one.
-/
import Mathlib.Data.List.Basic

namespace NetBench.Lib

variable {α β γ : Type*}

/-- The values of `f` on `l`, with their positions. -/
def positions (f : α → Option β) (l : List α) : List (Nat × β) :=
  l.zipIdx.filterMap fun x => (f x.1).map (Prod.mk x.2)

variable {f : α → Option β} {l l' : List α} {n : Nat} {b : β}

theorem mem_positions : (n, b) ∈ positions f l ↔ ∃ x, l[n]? = some x ∧ f x = some b := by
  rw [positions, List.mem_filterMap]
  constructor
  · rintro ⟨⟨x, m⟩, hmem, hx⟩
    obtain ⟨b', hb', heq⟩ := Option.map_eq_some_iff.mp hx
    obtain ⟨rfl, rfl⟩ := Prod.mk.inj heq
    exact ⟨x, List.mk_mem_zipIdx_iff_getElem?.mp hmem, hb'⟩
  · rintro ⟨x, hx, hb⟩
    refine ⟨(x, n), List.mk_mem_zipIdx_iff_getElem?.mpr hx, ?_⟩
    rw [hb]
    rfl

theorem map_snd_positions (f : α → Option β) (l : List α) :
    (positions f l).map Prod.snd = l.filterMap f := by
  have hcomp : (fun x : α × Nat => ((f x.1).map (Prod.mk x.2)).map Prod.snd) = f ∘ Prod.fst := by
    funext x
    cases hx : f x.1 with
    | none => simp [hx]
    | some b => simp [hx]
  calc (positions f l).map Prod.snd
      = l.zipIdx.filterMap (f ∘ Prod.fst) := by rw [positions, List.map_filterMap, hcomp]
    _ = (l.zipIdx.map Prod.fst).filterMap f := List.filterMap_map.symm
    _ = l.filterMap f := by rw [List.zipIdx_map_fst]

/-- The `k`-th value. -/
theorem getElem?_positions {k : Nat} (h : (positions f l)[k]? = some (n, b)) :
    (l.filterMap f)[k]? = some b := by
  rw [← map_snd_positions, List.getElem?_map, h]
  rfl

theorem exists_getElem?_positions {k : Nat} (h : (l.filterMap f)[k]? = some b) :
    ∃ n, (positions f l)[k]? = some (n, b) := by
  rw [← map_snd_positions, List.getElem?_map] at h
  obtain ⟨⟨n, b'⟩, hk, rfl⟩ := Option.map_eq_some_iff.mp h
  exact ⟨n, hk⟩

theorem lt_of_mem_positions (h : (n, b) ∈ positions f l) : n < l.length := by
  obtain ⟨x, hx, _⟩ := mem_positions.mp h
  exact (List.getElem?_eq_some_iff.mp hx).1

/-- The positions increase. -/
theorem pairwise_positions (f : α → Option β) (l : List α) :
    (positions f l).Pairwise fun x y => x.1 < y.1 := by
  have hidx : l.zipIdx.Pairwise fun x y => x.2 < y.2 := by
    rw [← List.pairwise_map (f := Prod.snd) (R := (· < ·)), List.zipIdx_map_snd]
    exact List.pairwise_lt_range'
  refine List.Pairwise.filterMap _ ?_ hidx
  intro x y hxy p hp q hq
  obtain ⟨_, _, rfl⟩ := Option.map_eq_some_iff.mp hp
  obtain ⟨_, _, rfl⟩ := Option.map_eq_some_iff.mp hq
  exact hxy

/-- The last of some of them has the highest position. -/
theorem fst_le_of_getLast? {r : List (Nat × β)} (h : r.Pairwise fun x y => x.1 < y.1)
    {x y : Nat × β} (hx : r.getLast? = some x) (hy : y ∈ r) : y.1 ≤ x.1 := by
  obtain ⟨s, rfl⟩ := List.getLast?_eq_some_iff.mp hx
  rcases List.mem_append.mp hy with hy | hy
  · exact Nat.le_of_lt ((List.pairwise_append.mp h).2.2 y hy x List.mem_cons_self)
  · obtain rfl := List.mem_singleton.mp hy
    exact Nat.le_refl _

/-- New elements come behind the old ones; there are none where `f` is not defined. -/
theorem positions_append (f : α → Option β) (l l' : List α) :
    ∃ r, positions f (l ++ l') = positions f l ++ r ∧ (∀ x ∈ r, l.length ≤ x.1) ∧
      (l'.filterMap f = [] → r = []) := by
  refine ⟨(l'.zipIdx (0 + l.length)).filterMap fun x => (f x.1).map (Prod.mk x.2), ?_, ?_, ?_⟩
  · rw [positions, List.zipIdx_append, List.filterMap_append]
    rfl
  · intro x hx
    obtain ⟨⟨y, m⟩, hmem, hy⟩ := List.mem_filterMap.mp hx
    obtain ⟨_, _, rfl⟩ := Option.map_eq_some_iff.mp hy
    have := List.le_snd_of_mem_zipIdx hmem
    rwa [Nat.zero_add] at this
  · intro hnil
    refine List.filterMap_eq_nil_iff.mpr fun x hx => ?_
    rw [List.filterMap_eq_nil_iff.mp hnil x.1 (List.fst_mem_of_mem_zipIdx hx)]
    rfl

/-! ## Elements at a fixed distance -/

/-- Every element with `W` stands `δ` places behind one that has `R` to it. -/
def Follows (δ : Nat) (W : α → Prop) (R : α → α → Prop) (l : List α) : Prop :=
  ∀ n x, l[n]? = some x → W x → ∃ m y, n = m + δ ∧ l[m]? = some y ∧ R y x

variable {δ : Nat} {W : α → Prop} {R : α → α → Prop}

theorem follows_nil : Follows δ W R [] := fun _ _ h => nomatch h

theorem follows_of_not (h : ∀ x ∈ l, ¬ W x) : Follows δ W R l :=
  fun _ x hx hw => absurd hw (h x (List.mem_of_getElem? hx))

theorem Follows.append (h : Follows δ W R l) (h' : Follows δ W R l') :
    Follows δ W R (l ++ l') := by
  intro n x hx hw
  by_cases hn : n < l.length
  · rw [List.getElem?_append_left hn] at hx
    obtain ⟨m, y, rfl, hy, hr⟩ := h n x hx hw
    refine ⟨m, y, rfl, ?_, hr⟩
    rw [List.getElem?_append_left (Nat.lt_of_le_of_lt (Nat.le_add_right _ _) hn)]
    exact hy
  · have hn := Nat.le_of_not_lt hn
    rw [List.getElem?_append_right hn] at hx
    obtain ⟨m, y, hm, hy, hr⟩ := h' _ x hx hw
    refine ⟨l.length + m, y, by omega, ?_, hr⟩
    rw [List.getElem?_append_right (Nat.le_add_right _ _), Nat.add_sub_cancel_left]
    exact hy

end NetBench.Lib

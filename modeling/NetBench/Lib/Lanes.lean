/-
# `NetBench.Lib.Lanes` — what several writers hand to one reader

A list of items, each with its writer, is an interleaving of the lists of the writers:
`lane k xs` has the items of the writer `k`, in order.  Two lists with the same lanes have
the same items (`perm_of_lane_eq`); two whose lanes are the two sides of the same links
have them too (`perm_of_lanes`).
-/
import Mathlib.Data.List.Perm.Subperm
import Mathlib.Logic.Function.Basic

namespace NetBench.Lib

variable {κ α β : Type*}

/-! ## Lanes -/

section Lane

variable [DecidableEq κ]

/-- The items of the writer `k`. -/
def lane (k : κ) (xs : List (κ × α)) : List α :=
  xs.filterMap fun x => if x.1 = k then some x.2 else none

@[simp] theorem lane_nil (k : κ) : lane k ([] : List (κ × α)) = [] := rfl

@[simp] theorem lane_append (k : κ) (xs ys : List (κ × α)) :
    lane k (xs ++ ys) = lane k xs ++ lane k ys := List.filterMap_append

theorem lane_single_self (k : κ) (x : α) : lane k [(k, x)] = [x] := by
  rw [lane, List.filterMap_cons, if_pos rfl]
  rfl

theorem lane_single_of_ne {k k' : κ} (h : k' ≠ k) (x : α) : lane k [(k', x)] = [] := by
  rw [lane, List.filterMap_cons, if_neg h]
  rfl

theorem lane_map_self (k : κ) (xs : List α) : lane k (xs.map (k, ·)) = xs := by
  rw [lane, List.filterMap_map]
  refine (List.filterMap_congr fun x _ => ?_).trans List.filterMap_some
  exact if_pos rfl

theorem lane_map_of_ne {k k' : κ} (h : k' ≠ k) (xs : List α) : lane k (xs.map (k', ·)) = [] := by
  rw [lane, List.filterMap_map, List.filterMap_eq_nil_iff]
  intro x _
  exact if_neg h

theorem mem_lane {k : κ} {xs : List (κ × α)} {x : α} : x ∈ lane k xs ↔ (k, x) ∈ xs := by
  rw [lane, List.mem_filterMap]
  constructor
  · rintro ⟨⟨k', y⟩, hy, h⟩
    by_cases hk : k' = k
    · rw [if_pos hk] at h
      obtain rfl := hk
      obtain rfl := Option.some.inj h
      exact hy
    · rw [if_neg hk] at h
      exact nomatch h
  · intro h
    exact ⟨(k, x), h, if_pos rfl⟩

theorem count_eq_count_lane [DecidableEq α] (xs : List (κ × α)) (k : κ) (x : α) :
    xs.count (k, x) = (lane k xs).count x := by
  induction xs with
  | nil => rfl
  | cons y ys ih =>
      rw [← List.singleton_append, lane_append, List.count_append, List.count_append, ih]
      obtain ⟨k', y⟩ := y
      by_cases hk : k' = k
      · obtain rfl := hk
        rw [lane_single_self]
        by_cases hx : y = x
        · obtain rfl := hx
          rw [List.count_singleton_self, List.count_singleton_self]
        · have hpair : (k', x) ∉ [(k', y)] := fun h =>
            hx (Prod.mk.inj (List.mem_singleton.mp h)).2.symm
          have hitem : x ∉ [y] := fun h => hx (List.mem_singleton.mp h).symm
          rw [List.count_eq_zero_of_not_mem hpair, List.count_eq_zero_of_not_mem hitem]
      · have hpair : (k, x) ∉ [(k', y)] := fun h =>
          hk (Prod.mk.inj (List.mem_singleton.mp h)).1.symm
        rw [lane_single_of_ne hk, List.count_nil, List.count_eq_zero_of_not_mem hpair]

/-- An item that only one writer hands over. -/
theorem count_map_snd [DecidableEq α] {xs : List (κ × α)} {k : κ} {a : α}
    (h : ∀ x ∈ xs, x.2 = a → x.1 = k) : (xs.map Prod.snd).count a = (lane k xs).count a := by
  rw [← count_eq_count_lane, List.count, List.count, List.countP_map]
  refine List.countP_congr fun x hx => ?_
  rw [Function.comp_apply, beq_iff_eq, beq_iff_eq]
  constructor
  · intro ha
    exact Prod.ext (h x hx ha) ha
  · intro hxa
    exact congrArg Prod.snd hxa

/-- Two interleavings of the same lists have the same items. -/
theorem perm_of_lane_eq [DecidableEq α] {xs ys : List (κ × α)}
    (h : ∀ k, lane k xs = lane k ys) : xs.Perm ys := by
  rw [List.perm_iff_count]
  rintro ⟨k, x⟩
  rw [count_eq_count_lane, count_eq_count_lane, h]

/-- What two writers handed over. -/
theorem perm_two_lanes [DecidableEq α] {k k' : κ} (hne : k ≠ k') {xs : List (κ × α)}
    (h : ∀ x ∈ xs, x.1 = k ∨ x.1 = k') :
    (xs.map Prod.snd).Perm (lane k xs ++ lane k' xs) := by
  have hlanes : xs.Perm ((lane k xs).map (k, ·) ++ (lane k' xs).map (k', ·)) := by
    refine perm_of_lane_eq fun j => ?_
    rw [lane_append]
    by_cases hk : j = k
    · obtain rfl := hk
      rw [lane_map_self, lane_map_of_ne (Ne.symm hne), List.append_nil]
    · by_cases hk' : j = k'
      · obtain rfl := hk'
        rw [lane_map_self, lane_map_of_ne hne, List.nil_append]
      · rw [lane_map_of_ne (Ne.symm hk), lane_map_of_ne (Ne.symm hk'), List.append_nil, lane,
          List.filterMap_eq_nil_iff]
        intro x hx
        refine if_neg fun hj => ?_
        rcases h x hx with heq | heq
        · exact hk (hj.symm.trans heq)
        · exact hk' (hj.symm.trans heq)
  have hmap := hlanes.map Prod.snd
  have hsnd : ∀ (j : κ) (ys : List α), (ys.map (j, ·)).map Prod.snd = ys := by
    intro j ys
    rw [List.map_map]
    exact List.map_id ys
  rw [List.map_append, hsnd, hsnd] at hmap
  exact hmap

end Lane

/-! ## Two sides of the same links -/

section Linked

variable {κ' : Type*} [DecidableEq κ] [DecidableEq κ'] [DecidableEq α] {f : κ → Option κ'}
  {xs : List (κ × α)} {ys : List (κ' × α)}

/-- The items under the names that the writers have on the other side; those of a writer
without one are dropped. -/
def rename (f : κ → Option κ') (xs : List (κ × α)) : List (κ' × α) :=
  xs.filterMap fun x => (f x.1).map (·, x.2)

omit [DecidableEq κ] [DecidableEq κ'] [DecidableEq α] in
theorem map_snd_rename (h : ∀ x ∈ xs, (f x.1).isSome) :
    (rename f xs).map Prod.snd = xs.map Prod.snd := by
  rw [rename, List.map_filterMap, ← List.filterMap_eq_map]
  refine List.filterMap_congr fun x hx => ?_
  obtain ⟨q, hq⟩ := Option.isSome_iff_exists.mp (h x hx)
  rw [hq]
  rfl

omit [DecidableEq α] in
theorem lane_rename (hinj : ∀ k k' q, f k = some q → f k' = some q → k = k') {k : κ} {q : κ'}
    (hq : f k = some q) : lane q (rename f xs) = lane k xs := by
  rw [lane, rename, List.filterMap_filterMap]
  refine List.filterMap_congr fun x _ => ?_
  by_cases hk : x.1 = k
  · rw [if_pos hk, hk, hq]
    exact if_pos rfl
  · rw [if_neg hk]
    cases hx : f x.1 with
    | none => rfl
    | some q' =>
        refine if_neg ?_
        rintro rfl
        exact hk (hinj _ _ _ hx hq)

omit [DecidableEq κ] [DecidableEq α] in
theorem lane_rename_none {q : κ'} (hq : ∀ k, f k ≠ some q) : lane q (rename f xs) = [] := by
  rw [lane, rename, List.filterMap_filterMap, List.filterMap_eq_nil_iff]
  intro x _
  cases hx : f x.1 with
  | none => rfl
  | some q' =>
      refine if_neg ?_
      rintro rfl
      exact hq _ hx

/-- Where every lane is a part of the one at its other end, the items are a part of those
there. -/
theorem subperm_of_lanes (hinj : ∀ k k' q, f k = some q → f k' = some q → k = k')
    (hpeer : ∀ x ∈ xs, (f x.1).isSome)
    (hlane : ∀ k q, f k = some q → (lane k xs).Sublist (lane q ys)) :
    (xs.map Prod.snd).Subperm (ys.map Prod.snd) := by
  have hsub : (rename f xs).Subperm ys := by
    rw [List.subperm_ext_iff]
    rintro ⟨q, x⟩ _
    rw [count_eq_count_lane, count_eq_count_lane]
    by_cases hq : ∃ k, f k = some q
    · obtain ⟨k, hk⟩ := hq
      rw [lane_rename hinj hk]
      exact (hlane k q hk).count_le x
    · rw [lane_rename_none fun k hk => hq ⟨k, hk⟩]
      exact Nat.zero_le _
  obtain ⟨zs, hzs, hsub⟩ := hsub
  rw [← map_snd_rename hpeer]
  exact ⟨zs.map Prod.snd, hzs.map Prod.snd, hsub.map Prod.snd⟩

/-- Where the lanes are equal, and each with items has another end, the items are the same. -/
theorem perm_of_lanes (hinj : ∀ k k' q, f k = some q → f k' = some q → k = k')
    (hpeer : ∀ x ∈ xs, (f x.1).isSome)
    (hlane : ∀ k q, f k = some q → lane k xs = lane q ys)
    (hall : ∀ q, lane q ys ≠ [] → ∃ k, f k = some q) :
    (xs.map Prod.snd).Perm (ys.map Prod.snd) := by
  have hperm : (rename f xs).Perm ys := by
    refine perm_of_lane_eq fun q => ?_
    by_cases hq : ∃ k, f k = some q
    · obtain ⟨k, hk⟩ := hq
      rw [lane_rename hinj hk, hlane k q hk]
    · rw [lane_rename_none fun k hk => hq ⟨k, hk⟩]
      exact (not_not.mp fun h => hq (hall q h)).symm
  rw [← map_snd_rename hpeer]
  exact hperm.map Prod.snd

end Linked

end NetBench.Lib

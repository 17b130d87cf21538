/-
# `NetBench.Lib.Dict` — dictionaries that keep the order of insertion

A dictionary is a list of items with pairwise different keys.  Writing to a key that
is there replaces the value in its place, writing to a new one appends an item.  The
keys stay different, so an item of the list and a successful lookup are the same thing
(`Dict.mem_items`).

Two loops that fill a dictionary are common: `Dict.group` collects the elements of each
key, `Dict.table` keeps the last value for each key and column.  The second commutes with a
renaming of the keys (`Dict.table_rename`).
-/
import Mathlib.Data.List.Basic
import Mathlib.Data.List.Nodup
import Mathlib.Data.List.Induction

namespace NetBench.Lib

variable {κ ν : Type*}

/-- The items, in the order in which their keys were first written. -/
@[ext] structure Dict (κ ν : Type*) where
  items : List (κ × ν)
  nodup : (items.map Prod.fst).Nodup

namespace Dict

instance : EmptyCollection (Dict κ ν) := ⟨[], List.nodup_nil⟩

variable [DecidableEq κ]

/-- Replace the value of `k`, or append an item. -/
def setItems (k : κ) (v : ν) : List (κ × ν) → List (κ × ν)
  | [] => [(k, v)]
  | x :: l => if x.1 = k then (k, v) :: l else x :: setItems k v l

def getItems (k : κ) : List (κ × ν) → Option ν
  | [] => none
  | x :: l => if x.1 = k then some x.2 else getItems k l

theorem keys_setItems (k : κ) (v : ν) : ∀ l : List (κ × ν),
    (setItems k v l).map Prod.fst = l.map Prod.fst ∧ k ∈ l.map Prod.fst ∨
    (setItems k v l).map Prod.fst = l.map Prod.fst ++ [k] ∧ k ∉ l.map Prod.fst
  | [] => Or.inr ⟨rfl, List.not_mem_nil⟩
  | x :: l => by
      by_cases hx : x.1 = k
      · left
        simp [setItems, hx]
      · rcases keys_setItems k v l with ⟨hl, hmem⟩ | ⟨hl, hmem⟩
        · left
          rw [setItems, if_neg hx, List.map_cons, List.map_cons, hl]
          exact ⟨rfl, List.mem_cons_of_mem _ hmem⟩
        · right
          rw [setItems, if_neg hx, List.map_cons, List.map_cons, hl]
          refine ⟨rfl, fun h => ?_⟩
          rcases List.mem_cons.mp h with h | h
          · exact hx h.symm
          · exact hmem h

/-- `d[k] = v`. -/
def set (d : Dict κ ν) (k : κ) (v : ν) : Dict κ ν where
  items := setItems k v d.items
  nodup := by
    rcases keys_setItems k v d.items with ⟨h, _⟩ | ⟨h, hk⟩
    · rw [h]
      exact d.nodup
    · rw [h]
      exact d.nodup.append (List.nodup_singleton k) (List.disjoint_singleton.mpr hk)

/-- The value of `k`. -/
def get? (d : Dict κ ν) (k : κ) : Option ν := getItems k d.items

@[simp] theorem get?_empty (k : κ) : (∅ : Dict κ ν).get? k = none := rfl

theorem getItems_setItems (k k' : κ) (v : ν) : ∀ l : List (κ × ν),
    getItems k' (setItems k v l) = if k' = k then some v else getItems k' l
  | [] => by
      by_cases hk : k' = k
      · simp [setItems, getItems, hk]
      · simp [setItems, getItems, hk, Ne.symm hk]
  | x :: l => by
      have ih := getItems_setItems k k' v l
      by_cases hx : x.1 = k
      · by_cases hk : k' = k
        · simp [setItems, getItems, hx, hk]
        · simp [setItems, getItems, hx, hk, Ne.symm hk]
      · by_cases hk : x.1 = k'
        · have hne : k' ≠ k := fun h => hx (hk.trans h)
          simp [setItems, getItems, hk, hne]
        · simp only [setItems, if_neg hx, getItems, if_neg hk, ih]

theorem get?_set (d : Dict κ ν) (k k' : κ) (v : ν) :
    (d.set k v).get? k' = if k' = k then some v else d.get? k' :=
  getItems_setItems k k' v d.items

theorem getItems_eq_some {k : κ} {v : ν} : ∀ {l : List (κ × ν)}, (l.map Prod.fst).Nodup →
    (getItems k l = some v ↔ (k, v) ∈ l)
  | [], _ => iff_of_false (fun h => nomatch h) (fun h => nomatch h)
  | (k', v') :: l, h => by
      obtain ⟨hk', hl⟩ := List.nodup_cons.mp h
      have ih := getItems_eq_some (k := k) (v := v) hl
      by_cases hk : k' = k
      · subst hk
        have hnot : (k', v) ∉ l := fun hmem =>
          hk' (List.mem_map.mpr ⟨_, hmem, rfl⟩)
        simp only [getItems, if_pos, Option.some.injEq, List.mem_cons, Prod.mk.injEq, true_and,
          hnot, or_false]
        exact eq_comm
      · simp [getItems, hk, Ne.symm hk, ih]

/-- The items are what the keys are mapped to. -/
theorem mem_items {d : Dict κ ν} {k : κ} {v : ν} : (k, v) ∈ d.items ↔ d.get? k = some v :=
  (getItems_eq_some d.nodup).symm

/-! ## Grouping -/

variable {α β γ : Type*}

/-- Put each element behind those of its key. -/
def group (key : α → κ) (d : Dict κ (List α)) (xs : List α) : Dict κ (List α) :=
  xs.foldl (fun d x => d.set (key x) ((d.get? (key x)).getD [] ++ [x])) d

theorem group_append (key : α → κ) (d : Dict κ (List α)) (xs ys : List α) :
    group key d (xs ++ ys) = group key (group key d xs) ys := List.foldl_append

theorem getD_group (key : α → κ) (xs : List α) (k : κ) :
    ((group key ∅ xs).get? k).getD [] = xs.filter fun x => key x = k := by
  induction xs using List.reverseRecOn with
  | nil => rfl
  | append_singleton xs x ih =>
      rw [group] at ih ⊢
      rw [List.foldl_concat, get?_set, List.filter_append]
      by_cases hk : k = key x
      · subst hk
        rw [if_pos rfl, Option.getD_some, ih]
        simp
      · rw [if_neg hk, ih]
        simp [Ne.symm hk]

/-- The keys are those of the elements. -/
theorem get?_group_eq_none (key : α → κ) (xs : List α) (k : κ) :
    (group key ∅ xs).get? k = none ↔ ∀ x ∈ xs, key x ≠ k := by
  induction xs using List.reverseRecOn with
  | nil => exact iff_of_true rfl fun _ h => absurd h List.not_mem_nil
  | append_singleton xs x ih =>
      rw [group] at ih ⊢
      rw [List.foldl_concat, get?_set, List.forall_mem_append, List.forall_mem_singleton, ← ih]
      by_cases hk : k = key x
      · rw [if_pos hk]
        exact iff_of_false (fun h => nomatch h) fun h => h.2 hk.symm
      · rw [if_neg hk]
        exact (and_iff_left (Ne.symm hk)).symm

/-- An item: the elements of a key that some element has. -/
theorem of_mem_group {key : α → κ} {xs ys : List α} {k : κ}
    (h : (k, ys) ∈ (group key ∅ xs).items) :
    (∃ x ∈ xs, key x = k) ∧ ys = xs.filter fun x => key x = k := by
  have hget := mem_items.mp h
  constructor
  · by_contra hnone
    have hall : ∀ x ∈ xs, key x ≠ k := fun x hx hk => hnone ⟨x, hx, hk⟩
    rw [(get?_group_eq_none key xs k).mpr hall] at hget
    exact nomatch hget
  · rw [← getD_group, hget, Option.getD_some]

variable [DecidableEq γ]

/-- Keep, for each key and column, the value of the last element. -/
def table (key : α → κ) (col : α → γ) (val : α → β) (xs : List α) : Dict κ (Dict γ β) :=
  xs.foldl (fun d x => d.set (key x) (((d.get? (key x)).getD ∅).set (col x) (val x))) ∅

theorem getD_table (key : α → κ) (col : α → γ) (val : α → β) (xs : List α) (k : κ) (c : γ) :
    (((table key col val xs).get? k).getD ∅).get? c =
      ((xs.filter fun x => key x = k ∧ col x = c).getLast?).map val := by
  induction xs using List.reverseRecOn with
  | nil => rfl
  | append_singleton xs x ih =>
      rw [table] at ih ⊢
      rw [List.foldl_concat, get?_set, List.filter_append]
      by_cases hk : k = key x
      · subst hk
        rw [if_pos rfl, Option.getD_some, get?_set]
        by_cases hc : c = col x
        · subst hc
          simp
        · rw [if_neg hc, ih]
          simp [Ne.symm hc]
      · rw [if_neg hk, ih]
        simp [Ne.symm hk]

/-! ## Renaming -/

section Rename

variable {κ' ν' γ' : Type*} {f : κ → κ'} (hf : Function.Injective f)

omit [DecidableEq κ] [DecidableEq γ] in
/-- Rename the keys, and change the values. -/
def rename (g : ν → ν') (d : Dict κ ν) : Dict κ' ν' where
  items := d.items.map (Prod.map f g)
  nodup := by
    rw [List.map_map, show Prod.fst ∘ Prod.map f g = f ∘ Prod.fst from rfl, ← List.map_map]
    exact d.nodup.map hf

variable [DecidableEq κ']

omit [DecidableEq γ] in
theorem get?_rename (g : ν → ν') (d : Dict κ ν) (k : κ) :
    (d.rename hf g).get? (f k) = (d.get? k).map g := by
  show getItems (f k) (d.items.map (Prod.map f g)) = (getItems k d.items).map g
  induction d.items with
  | nil => rfl
  | cons x l ih =>
      simp only [List.map_cons, getItems, Prod.map_fst, Prod.map_snd, hf.eq_iff]
      split
      · rfl
      · exact ih

omit [DecidableEq γ] in
theorem rename_set (g : ν → ν') (d : Dict κ ν) (k : κ) (v : ν) :
    (d.set k v).rename hf g = (d.rename hf g).set (f k) (g v) := by
  apply Dict.ext
  show (setItems k v d.items).map (Prod.map f g) = setItems (f k) (g v) (d.items.map (Prod.map f g))
  induction d.items with
  | nil => rfl
  | cons x l ih =>
      simp only [List.map_cons, setItems, Prod.map_fst, hf.eq_iff]
      split
      · rfl
      · rw [List.map_cons, ih]

theorem table_rename {c : γ → γ'} (hc : Function.Injective c) [DecidableEq γ'] {key : α → κ}
    {key' : α → κ'} {col : α → γ} {col' : α → γ'} {val : α → β} {xs : List α}
    (hkey : ∀ x ∈ xs, key' x = f (key x)) (hcol : ∀ x ∈ xs, col' x = c (col x)) :
    table key' col' val xs = (table key col val xs).rename hf (rename hc id) := by
  induction xs using List.reverseRecOn with
  | nil => rfl
  | append_singleton xs x ih =>
      have hmem : x ∈ xs ++ [x] := List.mem_append_right _ List.mem_cons_self
      have ih := ih (fun y hy => hkey y (List.mem_append_left _ hy))
        (fun y hy => hcol y (List.mem_append_left _ hy))
      have hempty : (∅ : Dict γ' β) = (∅ : Dict γ β).rename hc id := rfl
      rw [table] at ih ⊢
      rw [table, List.foldl_concat, List.foldl_concat, ih, hkey x hmem, hcol x hmem,
        get?_rename, hempty, Option.getD_map, rename_set, rename_set]
      rfl

end Rename

end Dict

end NetBench.Lib

/-
# `NetBench.Lib.Retry` — a cursor that goes back

Items are delivered one after the other, in blocks of `n`.  An attempt at the item under
the cursor succeeds, and the cursor moves on; or it fails, and the cursor goes back to
where the block of the item begins.  The outcomes alone decide which items are tried.

    successes of j  =  failures behind j in its block  +  1 if the cursor is past j
                                                               (`count_tries`)
-/
import Mathlib.Data.List.Basic
import Mathlib.Data.List.Induction
import Mathlib.Data.List.Count

namespace NetBench.Lib.Retry

variable {n p j : Nat}

/-- The cursor after an attempt. -/
def move (n p : Nat) (ok : Bool) : Nat := if ok then p + 1 else p / n * n

/-- The cursor after some attempts. -/
def cursor (n : Nat) (os : List Bool) : Nat := os.foldl (move n) 0

/-- The items tried from the cursor `p` on, each with its outcome. -/
def triesFrom (n p : Nat) : List Bool → List (Nat × Bool)
  | [] => []
  | ok :: os => (p, ok) :: triesFrom n (move n p ok) os

def tries (n : Nat) (os : List Bool) : List (Nat × Bool) := triesFrom n 0 os

/-- The failures at items behind `j` in its block. -/
def failuresBehind (n j : Nat) (ts : List (Nat × Bool)) : Nat :=
  ts.countP fun x => decide (x.2 = false ∧ j < x.1 ∧ x.1 / n = j / n)

/-! ## One more attempt -/

@[simp] theorem move_true (n p : Nat) : move n p true = p + 1 := if_pos rfl

@[simp] theorem move_false (n p : Nat) : move n p false = p / n * n := if_neg Bool.false_ne_true

@[simp] theorem cursor_snoc (n : Nat) (os : List Bool) (ok : Bool) :
    cursor n (os ++ [ok]) = move n (cursor n os) ok :=
  List.foldl_concat ..

theorem triesFrom_snoc (n p : Nat) (os : List Bool) (ok : Bool) :
    triesFrom n p (os ++ [ok]) = triesFrom n p os ++ [(os.foldl (move n) p, ok)] := by
  induction os generalizing p with
  | nil => rfl
  | cons o os ih => exact congrArg ((p, o) :: ·) (ih (move n p o))

theorem tries_snoc (n : Nat) (os : List Bool) (ok : Bool) :
    tries n (os ++ [ok]) = tries n os ++ [(cursor n os, ok)] :=
  triesFrom_snoc n 0 os ok

theorem count_snoc (ts : List (Nat × Bool)) (p : Nat) (ok : Bool) (j : Nat) :
    (ts ++ [(p, ok)]).count (j, true) = ts.count (j, true) + if p = j ∧ ok = true then 1 else 0 := by
  rw [List.count_append, List.count_singleton]
  simp only [beq_iff_eq, Prod.mk.injEq]

theorem failuresBehind_snoc (n j : Nat) (ts : List (Nat × Bool)) (p : Nat) (ok : Bool) :
    failuresBehind n j (ts ++ [(p, ok)]) =
      failuresBehind n j ts + if ok = false ∧ j < p ∧ p / n = j / n then 1 else 0 := by
  rw [failuresBehind, List.countP_append, List.countP_singleton]
  simp only [decide_eq_true_iff]
  rfl

/-! ## What the attempts add up to -/

/-- An item before the cursor is in its block, or before the beginning of it. -/
theorem lt_cases (hn : 0 < n) : j < p ↔ j < p / n * n ∨ j < p ∧ p / n = j / n := by
  rw [← Nat.div_lt_iff_lt_mul hn]
  constructor
  · intro h
    rcases Nat.lt_or_eq_of_le (Nat.div_le_div_right (c := n) (Nat.le_of_lt h)) with hlt | heq
    · exact Or.inl hlt
    · exact Or.inr ⟨h, heq.symm⟩
  · rintro (h | h)
    · exact Nat.lt_of_not_le fun hle => Nat.not_lt_of_le (Nat.div_le_div_right hle) h
    · exact h.1

theorem if_lt_succ (k j p : Nat) :
    k + (if j < p then 1 else 0) + (if p = j then 1 else 0) = k + if j < p + 1 then 1 else 0 := by
  split_ifs <;> omega

/-- Going back to the beginning of the block gives up what is tried again. -/
theorem if_lt_block (hn : 0 < n) (k j p : Nat) :
    k + (if j < p then 1 else 0) =
      k + (if j < p ∧ p / n = j / n then 1 else 0) + if j < p / n * n then 1 else 0 := by
  have hdisj : j < p / n * n → p / n ≠ j / n := fun h =>
    Nat.ne_of_gt ((Nat.div_lt_iff_lt_mul hn).mpr h)
  have hlt := lt_cases (j := j) (p := p) hn
  by_cases hback : j < p / n * n
  · rw [if_pos (hlt.mpr (Or.inl hback)), if_pos hback, if_neg fun h => hdisj hback h.2]
  · rw [or_iff_right hback] at hlt
    rw [if_neg hback, Nat.add_zero, if_congr hlt rfl rfl]

/-- Every item has succeeded once for each failure behind it in its block, and once more if
the cursor is past it. -/
theorem count_tries (hn : 0 < n) (j : Nat) (os : List Bool) :
    (tries n os).count (j, true) =
      failuresBehind n j (tries n os) + if j < cursor n os then 1 else 0 := by
  induction os using List.reverseRecOn with
  | nil => rfl
  | append_singleton os ok ih =>
      rw [tries_snoc, count_snoc, failuresBehind_snoc, cursor_snoc, ih]
      cases ok with
      | true =>
          simp only [move_true, and_true, Bool.true_eq_false, false_and, if_false, Nat.add_zero]
          exact if_lt_succ _ _ _
      | false =>
          simp only [move_false, Bool.false_eq_true, and_false, if_false, Nat.add_zero, true_and]
          exact if_lt_block hn _ _ _

end NetBench.Lib.Retry

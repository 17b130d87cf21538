/-
# `NetBench.Lib.Forever` — runs without an end

`Forever step s e`: the states `s 0`, `s 1`, … with an event between each two.  Up to every
place it is a finite run (`Forever.run`), so an invariant of runs holds at every place.

For what happens at last, a bound is enough.  A number that no step lowers and that stays
below a bound cannot grow again and again; so if it grows again and again unless a goal is
reached, the goal is reached (`Forever.reaches`).

Every finite run goes on for ever if there is always a next step (`Run.exists_forever`).
-/
import NetBench.Lib.Run
import Mathlib.Order.Filter.AtTopBot.Basic

namespace NetBench.Lib

open Filter

variable {σ ε : Type*}

/-- One step after the other, without end. -/
def Forever (step : σ → ε → σ → Prop) (s : ℕ → σ) (e : ℕ → ε) : Prop :=
  ∀ n, step (s n) (e n) (s (n + 1))

namespace Forever

variable {step : σ → ε → σ → Prop} {s : ℕ → σ} {e : ℕ → ε}

/-- The first steps. -/
theorem run (h : Forever step s e) (n : ℕ) : Run step (s 0) ((List.range n).map e) (s n) := by
  induction n with
  | zero => exact .nil _
  | succ n ih =>
      rw [List.range_succ, List.map_append]
      exact ih.snoc (h n)

/-- Without a bound, if it grows again and again. -/
theorem exists_ge {μ : ℕ → ℕ} (hmono : Monotone μ) (hgrows : ∃ᶠ n in atTop, μ n < μ (n + 1))
    (k : ℕ) : ∃ n, k ≤ μ n := by
  induction k with
  | zero => exact ⟨0, Nat.zero_le _⟩
  | succ k ih =>
      obtain ⟨n, hn⟩ := ih
      obtain ⟨m, hm, hlt⟩ := frequently_atTop.mp hgrows n
      have hle : k ≤ μ m := Nat.le_trans hn (hmono hm)
      exact ⟨m + 1, Nat.lt_of_le_of_lt hle hlt⟩

/-- A goal `P` is reached if `μ` is bounded, no step lowers it, and again and again it grows
or `P` holds. -/
theorem reaches {P : ℕ → Prop} {μ : ℕ → ℕ} {K : ℕ} (hle : ∀ n, μ n ≤ μ (n + 1))
    (hbound : ∀ n, μ n ≤ K) (hfair : ∃ᶠ n in atTop, P n ∨ μ n < μ (n + 1)) : ∃ n, P n := by
  by_contra hnever
  have hgrows : ∃ᶠ n in atTop, μ n < μ (n + 1) :=
    hfair.mono fun n h => h.resolve_left fun hP => hnever ⟨n, hP⟩
  obtain ⟨n, hn⟩ := exists_ge (monotone_nat_of_le_succ hle) hgrows (K + 1)
  exact absurd (hbound n) (Nat.not_le.mpr hn)

end Forever

namespace Run

variable {step : σ → ε → σ → Prop} {s t : σ} {es : List ε}

/-- From a state with `I`, if one of them is always followed by another. -/
theorem forever_of_next {I : σ → Prop} {P : σ → ε → Prop} (ht : I t)
    (hnext : ∀ u, I u → ∃ e v, step u e v ∧ P u e ∧ I v) :
    ∃ s' e', Forever step s' e' ∧ s' 0 = t ∧ ∀ n, P (s' n) (e' n) := by
  have hevent : Nonempty ε := (hnext t ht).nonempty
  have hstate : Nonempty σ := ⟨t⟩
  choose! f g hstep hP hI using hnext
  have hall : ∀ n, I (g^[n] t) := by
    intro n
    induction n with
    | zero => exact ht
    | succ n ih =>
        rw [Function.iterate_succ_apply']
        exact hI _ ih
  refine ⟨fun n => g^[n] t, fun n => f (g^[n] t), fun n => ?_, rfl, fun n => hP _ (hall n)⟩
  show step (g^[n] t) (f (g^[n] t)) (g^[n + 1] t)
  rw [Function.iterate_succ_apply']
  exact hstep _ (hall n)

/-- A finite run is the beginning of one without end. -/
theorem exists_forever {I : σ → Prop} {P : σ → ε → Prop} (h : Run step s es t) (ht : I t)
    (hnext : ∀ u, I u → ∃ e v, step u e v ∧ P u e ∧ I v) :
    ∃ s' e', Forever step s' e' ∧ s' 0 = s ∧ (∀ n < es.length, e' n ∈ es) ∧
      ∀ n, es.length ≤ n → P (s' n) (e' n) := by
  induction h with
  | nil =>
      obtain ⟨s', e', hrun, h₀, hP⟩ := forever_of_next ht hnext
      exact ⟨s', e', hrun, h₀, fun n hn => absurd hn (Nat.not_lt_zero n), fun n _ => hP n⟩
  | @cons s u t e es hs _ ih =>
      obtain ⟨s', e', hrun, h₀, hfirst, hP⟩ := ih ht
      refine ⟨fun | 0 => s | n + 1 => s' n, fun | 0 => e | n + 1 => e' n, fun n => ?_, rfl,
        fun n hn => ?_, fun n hn => ?_⟩
      · cases n with
        | zero =>
            show step s e (s' 0)
            rw [h₀]
            exact hs
        | succ n => exact hrun n
      · cases n with
        | zero => exact List.mem_cons_self
        | succ n => exact List.mem_cons_of_mem _ (hfirst n (Nat.lt_of_succ_lt_succ hn))
      · cases n with
        | zero => exact absurd hn (by simp)
        | succ n => exact hP n (Nat.le_of_succ_le_succ hn)

end Run

end NetBench.Lib

/-
# `NetBench.Quantiles` — the quantiles of a report

`dump_statistics_result` sorts the latencies and takes the elements at the indices
`round(p / 100 * n)` for `p = 0, 10, …, 90`, and the last one.  With an exact quotient and
ties to even,

    round(90 / 100 * n) < n  ⟺  5 ≤ n                         (`exactIndex_lt_iff`)

so a list of four or fewer is indexed outside, the empty one at once, and the exception
ends the script (`reports_iff`).  From five on the rounding is monotone and the list
sorted, and so are the quantiles.
-/
import NetBench.ScriptLoops
import Mathlib.Data.List.Sort

namespace NetBench.Script

open Lib Lib.Csv

/-! ## Indices -/

/-- The quotient of two numbers, rounded to the nearest integer, or to an even one. -/
def roundHalfEven (a b : Nat) : Nat :=
  if 2 * (a % b) < b then a / b
  else if b < 2 * (a % b) then a / b + 1
  else if a / b % 2 = 0 then a / b
  else a / b + 1

theorem div_le_roundHalfEven (a b : Nat) : a / b ≤ roundHalfEven a b := by
  unfold roundHalfEven
  split_ifs <;> omega

theorem roundHalfEven_le (a b : Nat) : roundHalfEven a b ≤ a / b + 1 := by
  unfold roundHalfEven
  split_ifs <;> omega

/-- Rounding is monotone. -/
theorem roundHalfEven_mono {a b : Nat} (h : a ≤ b) (c : Nat) :
    roundHalfEven a c ≤ roundHalfEven b c := by
  rcases Nat.lt_or_eq_of_le (Nat.div_le_div_right (c := c) h) with hlt | heq
  · calc roundHalfEven a c ≤ a / c + 1 := roundHalfEven_le a c
      _ ≤ b / c := hlt
      _ ≤ roundHalfEven b c := div_le_roundHalfEven b c
  · -- the same integer part, so the remainders decide
    have hmod : a % c ≤ b % c := by
      have ha := Nat.div_add_mod a c
      have hb := Nat.div_add_mod b c
      rw [heq] at ha
      omega
    unfold roundHalfEven
    rw [heq]
    split_ifs <;> omega

/-- `int(round(quantile_k * (n / 100)))`, without rounding errors. -/
def exactIndex (q n : Nat) : Nat := roundHalfEven (q * n) 100

theorem exactIndex_mono {p q : Nat} (h : p ≤ q) (n : Nat) : exactIndex p n ≤ exactIndex q n :=
  roundHalfEven_mono (Nat.mul_le_mul_right n h) 100

/-- The index of a quantile is inside of a list of five or more. -/
def Statistics.Indexes (st : Statistics) : Prop :=
  ∀ q < 10, ∀ n, 5 ≤ n → st.index (q * 10) n < n

/-- The index of the last quantile but one is outside of a list of four or fewer. -/
def Statistics.Misses (st : Statistics) : Prop := ∀ n < 5, n ≤ st.index 90 n

/-- The last index is inside of the list just when it has five elements. -/
theorem exactIndex_lt_iff (n : Nat) : exactIndex 90 n < n ↔ 5 ≤ n := by
  unfold exactIndex roundHalfEven
  split_ifs <;> omega

theorem exactIndex_lt {p n : Nat} (hp : p < 10) (hn : 5 ≤ n) : exactIndex (p * 10) n < n :=
  Nat.lt_of_le_of_lt (exactIndex_mono (by omega) n) ((exactIndex_lt_iff n).mpr hn)

theorem exactIndex_zero (n : Nat) : exactIndex 0 n = 0 := by
  simp [exactIndex, roundHalfEven]

theorem indexes_exact {mean pstdev : List Int → Int} :
    Statistics.Indexes ⟨mean, pstdev, exactIndex⟩ := fun _ hq _ hn => exactIndex_lt hq hn

theorem misses_exact {mean pstdev : List Int → Int} :
    Statistics.Misses ⟨mean, pstdev, exactIndex⟩ := fun n hn =>
  Nat.le_of_not_lt fun hlt => absurd ((exactIndex_lt_iff n).mp hlt) (Nat.not_le_of_lt hn)

/-! ## Picks from a sorted list -/

theorem le_of_getElem? {s : List Int} (hs : s.Pairwise (· ≤ ·)) {i j : Nat} (h : i ≤ j) {x y : Int}
    (hx : s[i]? = some x) (hy : s[j]? = some y) : x ≤ y := by
  obtain ⟨hi, rfl⟩ := List.getElem?_eq_some_iff.mp hx
  obtain ⟨hj, rfl⟩ := List.getElem?_eq_some_iff.mp hy
  rcases Nat.lt_or_eq_of_le h with hlt | rfl
  · exact List.pairwise_iff_getElem.mp hs i j hi hj hlt
  · exact Int.le_refl _

theorem getLast?_eq_getElem? {s : List Int} {x : Int} (h : s.getLast? = some x) :
    s[s.length - 1]? = some x := by
  rwa [List.getLast?_eq_getElem?] at h

/-! ## The columns -/

/-- The columns of the quantiles are well defined: eleven latencies of the list, in order,
from the least to the greatest. -/
structure AreQuantiles (ls qs : List Int) : Prop where
  length_eq : qs.length = 11
  mem : ∀ q ∈ qs, q ∈ ls
  sorted : qs.Pairwise (· ≤ ·)
  least : ∃ q, qs.head? = some q ∧ ∀ x ∈ ls, q ≤ x
  greatest : ∃ q, qs.getLast? = some q ∧ ∀ x ∈ ls, x ≤ q

/-- Picks from a sorted list at increasing indices, and its last element. -/
theorem areQuantiles_picks {ls s : List Int} (hs : s.Pairwise (· ≤ ·))
    (hmem : ∀ {x : Int}, x ∈ s ↔ x ∈ ls) {index : Nat → Nat} (hzero : index 0 = 0)
    (hindex : ∀ p q, p ≤ q → index p ≤ index q) {pick : Nat → Int}
    (hpick : ∀ p < 10, s[index p]? = some (pick p)) {last : Int} (hlast : s.getLast? = some last) :
    AreQuantiles ls ((List.range 10).map pick ++ [last]) := by
  have hlast := getLast?_eq_getElem? hlast
  have hle : ∀ {i : Nat} {x : Int}, s[i]? = some x → x ≤ last := by
    intro i x hx
    obtain ⟨hlt, _⟩ := List.getElem?_eq_some_iff.mp hx
    exact le_of_getElem? hs (by omega) hx hlast
  refine ⟨by simp, ?_, ?_, ⟨pick 0, rfl, ?_⟩, ⟨last, List.getLast?_concat, ?_⟩⟩
  · intro q hq
    refine hmem.mp ?_
    rcases List.mem_append.mp hq with hq | hq
    · obtain ⟨p, hp, rfl⟩ := List.mem_map.mp hq
      exact List.mem_of_getElem? (hpick p (List.mem_range.mp hp))
    · rw [List.mem_singleton.mp hq]
      exact List.mem_of_getElem? hlast
  · rw [List.pairwise_append, List.pairwise_map]
    refine ⟨?_, List.pairwise_singleton _ _, ?_⟩
    · refine List.pairwise_lt_range.imp_of_mem ?_
      intro p q hp hq hlt
      exact le_of_getElem? hs (hindex p q (Nat.le_of_lt hlt)) (hpick p (List.mem_range.mp hp))
        (hpick q (List.mem_range.mp hq))
    · intro x hx y hy
      obtain ⟨p, hp, rfl⟩ := List.mem_map.mp hx
      obtain rfl := List.mem_singleton.mp hy
      exact hle (hpick p (List.mem_range.mp hp))
  · intro x hx
    obtain ⟨i, hi, rfl⟩ := List.getElem_of_mem (hmem.mpr hx)
    have hfirst := hpick 0 (by decide)
    rw [hzero] at hfirst
    exact le_of_getElem? hs (Nat.zero_le i) hfirst (List.getElem?_eq_getElem hi)
  · intro x hx
    obtain ⟨i, hi, rfl⟩ := List.getElem_of_mem (hmem.mpr hx)
    exact hle (List.getElem?_eq_getElem hi)

/-- `dump_statistics_result` writes a row, with well-defined quantiles if there are any
latencies. -/
def WritesRow (st : Statistics) (msgSize : Int) (ls : List Int) : Prop :=
  ∃ result, dumpStatisticsResult st msgSize ls = some result ∧
    (ls ≠ [] → ∃ mean pstdev qs, result = [msgSize, ls.length, mean, pstdev] ++ qs ∧
      AreQuantiles ls qs)

theorem dumpStatisticsResult_isSome {st : Statistics} (hst : st.Indexes) (n : Int) {ls : List Int}
    (h : 5 ≤ ls.length) : (dumpStatisticsResult st n ls).isSome := by
  have hlen : ls.mergeSort.length = ls.length := List.length_mergeSort ..
  have hindex : ∀ q ∈ List.range 10, ls.mergeSort[st.index (q * 10) ls.mergeSort.length]? =
      some ((ls.mergeSort[st.index (q * 10) ls.mergeSort.length]?).getD 0) := by
    intro q hq
    have hlt := hst q (List.mem_range.mp hq) ls.mergeSort.length (hlen ▸ h)
    rw [List.getElem?_eq_getElem hlt, Option.getD_some]
  have hne : ls.mergeSort ≠ [] := by
    intro hnil
    rw [hnil, List.length_nil] at hlen
    omega
  rw [dumpStatisticsResult, mapM_eq_some hindex, List.getLast?_eq_some_getLast hne]
  rfl

/-- What is known of a loop that finishes. -/
theorem of_mapM_eq_some {α β : Type} {f : β → Option α} {xs : List β} {ys : List α}
    (h : xs.mapM f = some ys) (d : α) :
    (∀ x ∈ xs, f x = some ((f x).getD d)) ∧ ys = xs.map fun x => (f x).getD d := by
  induction xs generalizing ys with
  | nil =>
      obtain rfl := Option.some.inj h
      exact ⟨fun _ h => (nomatch h), rfl⟩
  | cons x xs ih =>
      simp only [List.mapM_cons, Option.bind_eq_bind, Option.bind_eq_some_iff] at h
      obtain ⟨y, hy, ys', hys, hcons⟩ := h
      obtain ⟨hall, rfl⟩ := ih hys
      obtain rfl := Option.some.inj hcons
      refine ⟨List.forall_mem_cons.mpr ⟨by rw [hy]; rfl, hall⟩, ?_⟩
      rw [List.map_cons, hy]
      rfl

/-- A row is written just when there are five latencies. -/
theorem dumpStatisticsResult_isSome_iff {st : Statistics} (hst : st.Indexes) (hmiss : st.Misses)
    (n : Int) (ls : List Int) : (dumpStatisticsResult st n ls).isSome ↔ 5 ≤ ls.length := by
  refine ⟨fun h => ?_, dumpStatisticsResult_isSome hst n⟩
  have hlen : ls.mergeSort.length = ls.length := List.length_mergeSort ..
  obtain ⟨result, hresult⟩ := Option.isSome_iff_exists.mp h
  simp only [dumpStatisticsResult, hlen, Option.bind_eq_bind, Option.bind_eq_some_iff] at hresult
  obtain ⟨picks, hpicks, _⟩ := hresult
  have hlast := (of_mapM_eq_some hpicks 0).1 9 (by decide)
  obtain ⟨hlt, _⟩ := List.getElem?_eq_some_iff.mp hlast
  by_contra hshort
  have hout := hmiss ls.length (Nat.lt_of_not_le hshort)
  rw [hlen] at hlt
  exact absurd hlt (Nat.not_lt_of_le hout)

/-- The loop over the reports of a size raises an exception as soon as one of them has fewer
than five latencies. -/
theorem handleSize_isSome_iff {st : Statistics} (hst : st.Indexes) (hmiss : st.Misses)
    {x : Int × List DictRow} {data : Dict Text Times}
    (hdata : recordDataDict x.2 = some data) (out : Output) :
    (handleSize st out x).isSome ↔ ∀ t ∈ target, 5 ≤ (calLatency data t.fst t.snd).length := by
  have hdump : ∀ t ∈ target, ∀ out : Output, (dumpTarget st x.1 data out t).isSome ↔
      5 ≤ (calLatency data t.fst t.snd).length := by
    intro t _ out
    rw [← dumpStatisticsResult_isSome_iff hst hmiss x.1, dumpTarget]
    cases dumpStatisticsResult st x.1 (calLatency data t.fst t.snd) with
    | none => exact Iff.rfl
    | some result => exact Iff.rfl
  rw [handleSize, hdata]
  exact foldlM_isSome_iff hdump out

section Exact

variable {mean pstdev : List Int → Int}

/-- The row that is written, picks from the sorted latencies. -/
theorem dumpStatisticsResult_spec {n : Int} {ls result : List Int}
    (h : dumpStatisticsResult ⟨mean, pstdev, exactIndex⟩ n ls = some result) : ∃ qs,
      result = [n, (ls.length : Int), mean ls.mergeSort, pstdev ls.mergeSort] ++ qs ∧
      AreQuantiles ls qs := by
  have hlen : ls.mergeSort.length = ls.length := List.length_mergeSort ..
  have hmem : ∀ {x : Int}, x ∈ ls.mergeSort ↔ x ∈ ls := (List.mergeSort_perm ls _).mem_iff
  have hsorted : ls.mergeSort.Pairwise (· ≤ ·) := List.pairwise_mergeSort' (· ≤ ·) ls
  simp only [dumpStatisticsResult, hlen, Option.bind_eq_bind, Option.bind_eq_some_iff] at h
  obtain ⟨picks, hpicks, last, hlast, hresult⟩ := h
  obtain ⟨hpick, rfl⟩ := of_mapM_eq_some hpicks 0
  obtain rfl := Option.some.inj hresult
  have hpick : ∀ p < 10, _ := fun p hp => hpick p (List.mem_range.mpr hp)
  have hzero : exactIndex (0 * 10) ls.length = 0 := by rw [Nat.zero_mul, exactIndex_zero]
  exact ⟨_, rfl, areQuantiles_picks hsorted hmem hzero
    (fun p q h => exactIndex_mono (Nat.mul_le_mul_right 10 h) ls.length) hpick hlast⟩

/-- A row is written, with well-defined quantiles unless there is no latency, if and only if
there are five latencies or more; and all sizes are reported if and only if that is so for
each report of each size. -/
theorem reports_iff (mean pstdev : List Int → Int) :
    (∀ n ls, WritesRow ⟨mean, pstdev, exactIndex⟩ n ls ↔ 5 ≤ ls.length) ∧
    (∀ (sizes : List (Int × List DictRow)) (out : Output),
      (∀ x ∈ sizes, (recordDataDict x.2).isSome) →
      ((sizes.foldlM (handleSize ⟨mean, pstdev, exactIndex⟩) out).isSome ↔
        ∀ x ∈ sizes, ∀ data, recordDataDict x.2 = some data →
          ∀ t ∈ target, 5 ≤ (calLatency data t.fst t.snd).length)) := by
  refine ⟨fun n ls => ?_, fun sizes out hsizes => foldlM_isSome_iff (fun x hx out => ?_) out⟩
  · rw [← dumpStatisticsResult_isSome_iff indexes_exact misses_exact n ls,
      Option.isSome_iff_exists]
    refine exists_congr fun result => and_iff_left_of_imp fun hresult _ => ?_
    obtain ⟨qs, hrow, hqs⟩ := dumpStatisticsResult_spec hresult
    exact ⟨_, _, qs, hrow, hqs⟩
  · obtain ⟨data, hdata⟩ := Option.isSome_iff_exists.mp (hsizes x hx)
    rw [handleSize_isSome_iff indexes_exact misses_exact hdata]
    constructor
    · intro h data' hdata'
      obtain rfl := Option.some.inj (hdata.symm.trans hdata')
      exact h
    · intro h
      exact h data hdata

end Exact

/-- One latency: the index for 60 % is 1, outside of the list.  And no latency. -/
theorem short_lists_raise :
    ¬ WritesRow ⟨fun _ => 0, fun _ => 0, exactIndex⟩ 64 [7] ∧
    ¬ WritesRow ⟨fun _ => 0, fun _ => 0, exactIndex⟩ 64 [] := by
  have hraises : ∀ ls : List Int, ¬ 5 ≤ ls.length →
      ¬ WritesRow ⟨fun _ => 0, fun _ => 0, exactIndex⟩ 64 ls := by
    rintro ls hshort ⟨result, hresult, _⟩
    have hsome := (dumpStatisticsResult_isSome_iff indexes_exact misses_exact 64 ls).mp
      (Option.isSome_iff_exists.mpr ⟨result, hresult⟩)
    exact hshort hsome
  exact ⟨hraises [7] (by decide), hraises [] (by decide)⟩

end NetBench.Script

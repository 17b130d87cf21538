/-
# `NetBench.Lib.Decimal` — decimal numerals

What is printed for an integer, and what Python's `int` makes of a text: blanks around
it are dropped, a sign may stand before the digits and a single underscore between two
of them.  Digits are those of ASCII.

    int(str(n)) = n, for a numeral of a natural number          (`toInt_dec`)
-/
import Mathlib.Algebra.Group.Nat.Defs
import Mathlib.Data.List.Basic
import Mathlib.Data.Nat.Notation
import Mathlib.Data.Int.Notation

namespace NetBench.Lib

/-- The decimal numeral of a natural number. -/
def dec (n : ℕ) : List Char := Nat.toDigits 10 n

/-- The decimal numeral of an integer. -/
def decInt : ℤ → List Char
  | .ofNat n => dec n
  | .negSucc n => '-' :: dec (n + 1)

/-- The numeral with zeros in front, at least `k` characters: `"%0kd"` of a natural number. -/
def decPad (k n : ℕ) : List Char := List.replicate (k - (dec n).length) '0' ++ dec n

namespace Decimal

/-- The characters that Python counts as blanks. -/
def isBlank (c : Char) : Bool :=
  c.toNat ∈ [0x9, 0xa, 0xb, 0xc, 0xd, 0x1c, 0x1d, 0x1e, 0x1f, 0x20, 0x85, 0xa0, 0x1680, 0x2000,
    0x2001, 0x2002, 0x2003, 0x2004, 0x2005, 0x2006, 0x2007, 0x2008, 0x2009, 0x200a, 0x2028,
    0x2029, 0x202f, 0x205f, 0x3000]

def strip (t : List Char) : List Char :=
  ((t.dropWhile isBlank).reverse.dropWhile isBlank).reverse

/-- The value of the digits behind a digit. -/
def moreDigits (n : ℕ) : List Char → Option ℕ
  | [] => some n
  | '_' :: c :: t => if c.isDigit then moreDigits (10 * n + (c.toNat - '0'.toNat)) t else none
  | c :: t => if c.isDigit then moreDigits (10 * n + (c.toNat - '0'.toNat)) t else none

def digits : List Char → Option ℕ
  | [] => none
  | c :: t => if c.isDigit then moreDigits (c.toNat - '0'.toNat) t else none

/-- `int(t)`, or `none` where it raises an error. -/
def toInt (t : List Char) : Option ℤ :=
  match strip t with
  | '-' :: t => (digits t).map Int.negOfNat
  | '+' :: t => (digits t).map Int.ofNat
  | t => (digits t).map Int.ofNat

/-! ## Numerals -/

theorem isDigit_of_mem_dec {n : ℕ} {c : Char} (h : c ∈ dec n) : c.isDigit :=
  Nat.isDigit_of_mem_toDigits (by omega) (by omega) h

theorem length_dec_le {n k : ℕ} (hk : 0 < k) (h : n < 10 ^ k) : (dec n).length ≤ k :=
  (Nat.length_toDigits_le_iff (by omega) hk).mpr h

theorem underscore_notMem_dec (n : ℕ) : '_' ∉ dec n := Nat.underscore_not_in_toDigits

theorem dec_ne_nil (n : ℕ) : dec n ≠ [] := Nat.toDigits_ne_nil

/-- Distinct numbers have distinct numerals. -/
theorem dec_injective : Function.Injective dec := by
  intro m n h
  have hm := Nat.ofDigitChars_ten_toDigits (n := m)
  have hn := Nat.ofDigitChars_ten_toDigits (n := n)
  rw [dec, dec] at h
  rw [← hm, h, hn]

theorem mem_decInt {z : ℤ} {c : Char} (h : c ∈ decInt z) : c = '-' ∨ c.isDigit := by
  cases z with
  | ofNat n => exact Or.inr (isDigit_of_mem_dec h)
  | negSucc n =>
      rcases List.mem_cons.mp h with h | h
      · exact Or.inl h
      · exact Or.inr (isDigit_of_mem_dec h)

theorem decInt_ne_nil (z : ℤ) : decInt z ≠ [] := by
  cases z with
  | ofNat n => exact dec_ne_nil n
  | negSucc n => exact List.cons_ne_nil _ _

theorem not_isBlank_of_isDigit {c : Char} (h : c.isDigit) : isBlank c = false := by
  rw [Char.isDigit, Bool.and_eq_true, decide_eq_true_iff, decide_eq_true_iff] at h
  obtain ⟨hlo, hhi⟩ := h
  have hlo : 48 ≤ c.toNat := hlo
  have hhi : c.toNat ≤ 57 := hhi
  rw [isBlank, decide_eq_false_iff_not]
  simp only [List.mem_cons, List.not_mem_nil, or_false, not_or]
  omega

theorem dropWhile_of_head {p : Char → Bool} {t : List Char} (h : ∀ c ∈ t, p c = false) :
    t.dropWhile p = t := by
  cases t with
  | nil => rfl
  | cons c t => rw [List.dropWhile_cons_of_neg (by rw [h c List.mem_cons_self]; exact nofun)]

theorem strip_of_digits {t : List Char} (h : ∀ c ∈ t, c.isDigit) : strip t = t := by
  have hblank : ∀ c ∈ t, isBlank c = false := fun c hc => not_isBlank_of_isDigit (h c hc)
  rw [strip, dropWhile_of_head hblank, dropWhile_of_head, List.reverse_reverse]
  intro c hc
  exact hblank c (List.mem_reverse.mp hc)

theorem moreDigits_of_digits {t : List Char} (h : ∀ c ∈ t, c.isDigit) (n : ℕ) :
    moreDigits n t = some (Nat.ofDigitChars 10 t n) := by
  induction t generalizing n with
  | nil => rw [moreDigits, Nat.ofDigitChars_nil]
  | cons c t ih =>
      have hc : c.isDigit := h c List.mem_cons_self
      rw [moreDigits, if_pos hc, Nat.ofDigitChars_cons]
      · exact ih (fun x hx => h x (List.mem_cons_of_mem _ hx)) _
      · rintro _ _ rfl
        exact absurd hc (by decide)

theorem digits_dec (n : ℕ) : digits (dec n) = some n := by
  have hdigit : ∀ c ∈ dec n, c.isDigit := fun c hc => isDigit_of_mem_dec hc
  obtain ⟨c, t, hct⟩ := List.exists_cons_of_ne_nil (dec_ne_nil n)
  have hval := Nat.ofDigitChars_ten_toDigits (n := n)
  rw [← dec, hct, Nat.ofDigitChars_cons, Nat.mul_zero, Nat.zero_add] at hval
  rw [hct] at hdigit ⊢
  rw [digits, if_pos (hdigit c List.mem_cons_self),
    moreDigits_of_digits fun x hx => hdigit x (List.mem_cons_of_mem _ hx), hval]

/-- A numeral is read back. -/
theorem toInt_dec (n : ℕ) : toInt (dec n) = some (n : ℤ) := by
  have hdigit : ∀ c ∈ dec n, c.isDigit := fun c hc => isDigit_of_mem_dec hc
  rw [toInt, strip_of_digits hdigit]
  split
  · next t h => exact absurd (hdigit '-' (h ▸ List.mem_cons_self)) (by decide)
  · next t h => exact absurd (hdigit '+' (h ▸ List.mem_cons_self)) (by decide)
  · rw [digits_dec]
    rfl

example : toInt " -1_0 ".toList = some (-10) ∧ toInt "1__0".toList = none := by decide

theorem decInt_injective : Function.Injective decInt := by
  have hminus : ∀ n : ℕ, '-' ∉ dec n := fun n h =>
    absurd (isDigit_of_mem_dec h) (by decide)
  intro x y h
  cases x with
  | ofNat m =>
      cases y with
      | ofNat n => exact congrArg Int.ofNat (dec_injective h)
      | negSucc n =>
          have hmem : '-' ∈ decInt (.ofNat m) := h ▸ List.mem_cons_self
          exact absurd hmem (hminus m)
  | negSucc m =>
      cases y with
      | ofNat n =>
          have hmem : '-' ∈ decInt (.ofNat n) := h ▸ List.mem_cons_self
          exact absurd hmem (hminus n)
      | negSucc n =>
          have hsucc : m + 1 = n + 1 := dec_injective (List.cons.inj h).2
          rw [Nat.add_right_cancel hsucc]

/-- The zeros in front do not change the number. -/
theorem decPad_injective (k : ℕ) : Function.Injective (decPad k) := by
  have hval : ∀ n, Nat.ofDigitChars 10 (decPad k n) 0 = n := fun n => by
    rw [decPad, Nat.ofDigitChars_append, Nat.ofDigitChars_replicate_zero, Nat.mul_zero, dec,
      Nat.ofDigitChars_ten_toDigits]
  intro m n h
  rw [← hval m, h, hval n]

theorem length_decPad {n k : ℕ} (hk : 0 < k) (h : n < 10 ^ k) : (decPad k n).length = k := by
  have hle := length_dec_le hk h
  rw [decPad, List.length_append, List.length_replicate]
  omega

theorem isDigit_of_mem_decPad {n k : ℕ} {c : Char} (h : c ∈ decPad k n) : c.isDigit := by
  rcases List.mem_append.mp h with h | h
  · rw [List.eq_of_mem_replicate h]
    rfl
  · exact isDigit_of_mem_dec h

end Decimal

end NetBench.Lib

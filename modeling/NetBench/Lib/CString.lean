/-
# `NetBench.Lib.CString` — strings and character arrays of C

A string is its bytes before the terminator; an array of characters has a fixed number of
bytes.  `strncpy` of one less than the size of a zeroed array leaves a string in it that is
cut off where needed, and only zeros after it, also when it is done again:

    copy (holding s) t = holding t                        (`CharBuf.copy_holding`)
-/
import Mathlib.Data.List.TakeWhile

namespace NetBench.Lib

/-! ## Strings -/

/-- A string, without its terminator. -/
structure CString where
  bytes : List UInt8
  noNul : 0 ∉ bytes
  deriving DecidableEq

namespace CString

/-- The string that begins where the bytes begin. -/
def ofBytes (l : List UInt8) : CString where
  bytes := l.takeWhile (· ≠ 0)
  noNul h := by
    have hne := List.mem_takeWhile_imp h
    exact of_decide_eq_true hne rfl

theorem bytes_ofBytes {l : List UInt8} (h : 0 ∉ l) : (ofBytes l).bytes = l := by
  rw [ofBytes, List.takeWhile_eq_self_iff]
  intro x hx
  exact decide_eq_true (ne_of_mem_of_not_mem hx h)

@[simp] theorem ofBytes_bytes (s : CString) : ofBytes s.bytes = s := by
  obtain ⟨l, h⟩ := s
  rw [CString.mk.injEq]
  exact bytes_ofBytes h

/-- A literal in ASCII. -/
def lit (s : String) : CString := ofBytes (s.toList.map fun c => UInt8.ofNat c.toNat)

def append (s t : CString) : CString where
  bytes := s.bytes ++ t.bytes
  noNul h := (List.mem_append.mp h).elim s.noNul t.noNul

end CString

/-! ## `strncpy` -/

/-- `strncpy(dst, src, n)` for an array of at least `n` bytes. -/
def strncpy (dst : List UInt8) (src : CString) (n : Nat) : List UInt8 :=
  src.bytes.take n ++ List.replicate (n - src.bytes.length) 0 ++ dst.drop n

theorem length_strncpy {dst : List UInt8} (src : CString) {n : Nat} (h : n ≤ dst.length) :
    (strncpy dst src n).length = dst.length := by
  rw [strncpy, List.length_append, List.length_append, List.length_take, List.length_replicate,
    List.length_drop]
  omega

/-! ## Character arrays -/

/-- `char[n]`. -/
structure CharBuf (n : Nat) where
  bytes : List UInt8
  length_eq : bytes.length = n
  deriving DecidableEq

namespace CharBuf

variable {n : Nat}

/-- The array after `memset(…, 0, …)`. -/
def zero : CharBuf n := ⟨List.replicate n 0, List.length_replicate⟩

/-- `strncpy(buf, s, sizeof(buf) - 1)`. -/
def copy (b : CharBuf n) (s : CString) : CharBuf n where
  bytes := strncpy b.bytes s (n - 1)
  length_eq := by rw [length_strncpy s (by rw [b.length_eq]; exact Nat.sub_le n 1), b.length_eq]

/-- The array with the longest beginning of `s` that leaves room for the terminator, and
zeros up to its end. -/
def holding (s : CString) : CharBuf n where
  bytes := s.bytes.take (n - 1) ++ List.replicate (n - min (n - 1) s.bytes.length) 0
  length_eq := by
    rw [List.length_append, List.length_take, List.length_replicate]
    omega

theorem bytes_zero : (zero : CharBuf n).bytes = List.replicate n 0 := rfl

theorem bytes_copy (b : CharBuf n) (s : CString) :
    (b.copy s).bytes = strncpy b.bytes s (n - 1) := rfl

theorem bytes_holding (s : CString) : (holding s : CharBuf n).bytes =
    s.bytes.take (n - 1) ++ List.replicate (n - min (n - 1) s.bytes.length) 0 := rfl

theorem ext_bytes {b b' : CharBuf n} (h : b.bytes = b'.bytes) : b = b' := by
  obtain ⟨l, hl⟩ := b
  rw [CharBuf.mk.injEq]
  exact h

theorem zero_eq_holding : (zero : CharBuf n) = holding (CString.ofBytes []) := by
  have hnil : (CString.ofBytes []).bytes = [] := rfl
  refine ext_bytes ?_
  rw [bytes_zero, bytes_holding, hnil, List.take_nil, List.length_nil, Nat.min_zero, Nat.sub_zero,
    List.nil_append]

/-- The last byte of such an array is a terminator. -/
theorem drop_holding (hn : 0 < n) (s : CString) : (holding s : CharBuf n).bytes.drop (n - 1) = [0] := by
  have hlen : (s.bytes.take (n - 1)).length = min (n - 1) s.bytes.length := List.length_take
  have hnil : (s.bytes.take (n - 1)).drop (n - 1) = [] :=
    List.drop_eq_nil_of_le (by rw [hlen]; exact Nat.min_le_left _ _)
  have hone : n - min (n - 1) s.bytes.length - (n - 1 - min (n - 1) s.bytes.length) = 1 := by omega
  rw [bytes_holding, List.drop_append, hnil, hlen, List.drop_replicate, hone]
  rfl

theorem getLast?_holding (hn : 0 < n) (s : CString) :
    (holding s : CharBuf n).bytes.getLast? = some 0 := by
  rw [← List.take_append_drop (n - 1) (holding s : CharBuf n).bytes, drop_holding hn]
  exact List.getLast?_concat

/-- Nothing of the earlier string is left. -/
theorem copy_holding (hn : 0 < n) (s t : CString) :
    (holding s : CharBuf n).copy t = holding t := by
  refine ext_bytes ?_
  rw [bytes_copy, bytes_holding t, strncpy, drop_holding hn, List.append_assoc]
  congr 1
  have hzero : ([0] : List UInt8) = List.replicate 1 0 := rfl
  rw [hzero, List.replicate_append_replicate]
  congr 1
  omega

/-- The string that the array holds. -/
def str (b : CharBuf n) : CString := .ofBytes b.bytes

/-- `snprintf(buf, sizeof(buf), "%s", s)`: what stands behind the terminator stays. -/
def print (b : CharBuf (n + 1)) (s : CString) : CharBuf (n + 1) where
  bytes := s.bytes.take n ++ 0 :: b.bytes.drop (min n s.bytes.length + 1)
  length_eq := by
    rw [List.length_append, List.length_take, List.length_cons, List.length_drop, b.length_eq]
    omega

/-- A string that stands before a terminator. -/
theorem str_eq {b : CharBuf n} {l rest : List UInt8} (hl : 0 ∉ l) (h : b.bytes = l ++ 0 :: rest) :
    b.str.bytes = l := by
  have hall : ∀ x ∈ l, decide (x ≠ 0) = true := fun x hx =>
    decide_eq_true (ne_of_mem_of_not_mem hx hl)
  rw [str, CString.ofBytes, h]
  dsimp only
  rw [List.takeWhile_append_of_pos hall]
  exact List.append_nil l

theorem str_print (b : CharBuf (n + 1)) {s : CString} (h : s.bytes.length ≤ n) :
    (b.print s).str.bytes = s.bytes := by
  have hbytes : (b.print s).bytes = s.bytes ++ 0 :: b.bytes.drop (min n s.bytes.length + 1) :=
    congrArg (· ++ _) (List.take_of_length_le h)
  exact str_eq s.noNul hbytes

theorem str_holding (s : CString) :
    (holding s : CharBuf (n + 1)).str.bytes = s.bytes.take n := by
  have hsub : n + 1 - min n s.bytes.length = (n - min n s.bytes.length) + 1 := by omega
  have hbytes : (holding s : CharBuf (n + 1)).bytes =
      s.bytes.take n ++ 0 :: List.replicate (n - min n s.bytes.length) 0 := by
    rw [bytes_holding, Nat.add_sub_cancel, hsub, List.replicate_succ]
  exact str_eq (fun h => s.noNul (List.mem_of_mem_take h)) hbytes

end CharBuf

end NetBench.Lib

/-
# `NetBench.ScriptLoops` — what the loops of the script compute

The loops of the script raise an exception at the first row they cannot use.  Over rows
that have all columns they are the two loops of `NetBench.Lib.Dict`:

    load_record_list_dict   collects the rows of each size      (`foldlM_addRecord`)
    record_data_dict        keeps the last time for each
                            message and action                  (`recordDataDict_map`)

An entry stands for a row of a record file whose numbers are decimal numerals.
-/
import NetBench.Script

namespace NetBench.Script

open Lib Lib.Csv

/-! ## Rows of record files -/

/-- The names of the columns, in their order. -/
def columns : List Text :=
  ["tid", "sec", "nsec", "uid", "id", "size", "action"].map String.toList

structure Entry where
  tid : Text
  sec : Nat
  nsec : Nat
  uid : Nat
  id : Nat
  size : Nat
  action : Text
  deriving DecidableEq

namespace Entry

def fields (x : Entry) : List Text :=
  [x.tid, dec x.sec, dec x.nsec, dec x.uid, dec x.id, dec x.size, x.action]

/-- The row that is read of an entry. -/
def row (x : Entry) : DictRow := dictRow columns x.fields

/-- The text that stands for the message. -/
def key (x : Entry) : Text := dec x.uid ++ '_' :: dec x.id

def ts (x : Entry) : Timespec := ⟨x.sec, x.nsec⟩

@[simp] theorem row_uid (x : Entry) : x.row.get? "uid".toList = some (some (dec x.uid)) := rfl

@[simp] theorem row_id (x : Entry) : x.row.get? "id".toList = some (some (dec x.id)) := rfl

@[simp] theorem row_action (x : Entry) : x.row.get? "action".toList = some (some x.action) := rfl

theorem row_sec (x : Entry) : x.row.get? "sec".toList = some (some (dec x.sec)) := rfl

theorem row_nsec (x : Entry) : x.row.get? "nsec".toList = some (some (dec x.nsec)) := rfl

theorem row_size (x : Entry) : x.row.get? "size".toList = some (some (dec x.size)) := rfl

/-- The key determines the numbers. -/
theorem key_inj {x y : Entry} : x.key = y.key ↔ x.uid = y.uid ∧ x.id = y.id := by
  constructor
  · intro h
    rw [key, key, List.append_cons_inj_of_notMem (Decimal.underscore_notMem_dec x.uid)
      (Decimal.underscore_notMem_dec x.id)] at h
    obtain ⟨huid, _, hid⟩ := h
    exact ⟨Decimal.dec_injective huid, Decimal.dec_injective hid⟩
  · rintro ⟨huid, hid⟩
    rw [key, key, huid, hid]

end Entry

/-! ## Integers of a row -/

theorem intField_dec {row : DictRow} {name : Text} {n : Nat}
    (h : row.get? name = some (some (dec n))) : intField row name = some (n : Int) := by
  rw [intField, h]
  exact Decimal.toInt_dec n

theorem intField_of_none {row : DictRow} {name : Text} (h : row.get? name = none) :
    intField row name = none := by
  rw [intField, h]
  rfl

/-! ## Loops that do not raise -/

theorem foldlM_eq_some {α β : Type} {f : α → β → Option α} {g : α → β → α} {xs : List β}
    (h : ∀ x ∈ xs, ∀ a, f a x = some (g a x)) (a : α) : xs.foldlM f a = some (xs.foldl g a) := by
  induction xs generalizing a with
  | nil => rfl
  | cons x xs ih =>
      rw [List.foldlM_cons, h x List.mem_cons_self, List.foldl_cons]
      exact ih (fun y hy => h y (List.mem_cons_of_mem _ hy)) _

/-- A loop raises an exception if one of its steps does. -/
theorem foldlM_eq_none {α β : Type} {f : α → β → Option α} {xs : List β} {x : β} (hx : x ∈ xs)
    (h : ∀ a, f a x = none) (a : α) : xs.foldlM f a = none := by
  induction xs generalizing a with
  | nil => exact absurd hx List.not_mem_nil
  | cons y xs ih =>
      rw [List.foldlM_cons]
      rcases List.mem_cons.mp hx with rfl | hx
      · rw [h]
        rfl
      · cases hy : f a y with
        | none => rfl
        | some b => exact ih hx b

theorem foldlM_congr {α β : Type} {f g : α → β → Option α} {xs : List β}
    (h : ∀ x ∈ xs, ∀ a, f a x = g a x) (a : α) : xs.foldlM f a = xs.foldlM g a := by
  induction xs generalizing a with
  | nil => rfl
  | cons x xs ih =>
      rw [List.foldlM_cons, List.foldlM_cons, h x List.mem_cons_self]
      exact congrArg _ (funext (ih fun y hy => h y (List.mem_cons_of_mem _ hy)))

/-- What each step keeps, the loop keeps. -/
theorem foldlM_invariant {α β : Type} {f : α → β → Option α} {xs : List β} {P : α → Prop}
    (hkeep : ∀ x ∈ xs, ∀ a a', P a → f a x = some a' → P a') {a b : α} (ha : P a)
    (h : xs.foldlM f a = some b) : P b := by
  induction xs generalizing a with
  | nil => exact Option.some.inj h ▸ ha
  | cons x xs ih =>
      rw [List.foldlM_cons, Option.bind_eq_bind, Option.bind_eq_some_iff] at h
      obtain ⟨a', hx, hrest⟩ := h
      exact ih (fun y hy => hkeep y (List.mem_cons_of_mem _ hy))
        (hkeep x List.mem_cons_self a a' ha hx) hrest

/-- What one step brings about and each step keeps, the loop brings about. -/
theorem foldlM_reaches {α β : Type} {f : α → β → Option α} {xs : List β} {P : α → Prop}
    (hkeep : ∀ x ∈ xs, ∀ a a', P a → f a x = some a' → P a') {x : β} (hx : x ∈ xs)
    (hset : ∀ a a', f a x = some a' → P a') {a b : α} (h : xs.foldlM f a = some b) : P b := by
  induction xs generalizing a with
  | nil => exact absurd hx List.not_mem_nil
  | cons y xs ih =>
      rw [List.foldlM_cons, Option.bind_eq_bind, Option.bind_eq_some_iff] at h
      obtain ⟨a', hy, hrest⟩ := h
      have hkeep' := fun z hz => hkeep z (List.mem_cons_of_mem _ hz)
      rcases List.mem_cons.mp hx with rfl | hx
      · exact foldlM_invariant hkeep' (hset a a' hy) hrest
      · exact ih hkeep' hx hrest

/-- A loop whose steps raise or not whatever they are given besides the element. -/
theorem foldlM_isSome_iff {α β : Type} {f : α → β → Option α} {P : β → Prop} {xs : List β}
    (h : ∀ x ∈ xs, ∀ a, (f a x).isSome ↔ P x) (a : α) :
    (xs.foldlM f a).isSome ↔ ∀ x ∈ xs, P x := by
  induction xs generalizing a with
  | nil => exact iff_of_true rfl fun _ h => nomatch h
  | cons x xs ih =>
      have hx := h x List.mem_cons_self a
      rw [List.foldlM_cons, List.forall_mem_cons, ← hx]
      cases hfa : f a x with
      | none => exact iff_of_false (fun h => nomatch h) fun h => nomatch h.1
      | some a' =>
          rw [← ih (fun y hy => h y (List.mem_cons_of_mem _ hy)) a']
          exact ⟨fun h => ⟨rfl, h⟩, fun h => h.2⟩

/-- A loop whose steps do not raise on what they are given. -/
theorem foldlM_isSome {α β : Type} {f : α → β → Option α} {xs : List β}
    (h : ∀ x ∈ xs, ∀ a, (f a x).isSome) (a : α) : (xs.foldlM f a).isSome :=
  (foldlM_isSome_iff (P := fun _ => True) (fun x hx a => iff_true_intro (h x hx a)) a).mpr
    fun _ _ => trivial

/-- Into a directory that is there, each size writes its files. -/
theorem dumpInto_of_some {handle : Output → Int × List DictRow → Option Output}
    {d : Dict Int (List DictRow)} {fs : Directories} {output : Text} {dir : Directory}
    (hdir : fs output = some dir) :
    dumpInto handle d fs output = (d.items.foldlM handle ⟨dir, []⟩).map fun out =>
      Function.update fs output (some out.dir) := by
  rw [dumpInto, hdir, Option.map_eq_bind]
  rfl

/-- Into a directory that is not there, nothing can be written. -/
theorem dumpInto_of_none {handle : Output → Int × List DictRow → Option Output}
    {d : Dict Int (List DictRow)} {fs : Directories} {output : Text} (hdir : fs output = none) :
    dumpInto handle d fs output = if d.items.isEmpty then some fs else none := by
  rw [dumpInto, hdir]

/-- The loop raises no exception if none of the sizes does, and there is a directory for the
reports if there are any. -/
theorem dumpInto_isSome_iff {handle : Output → Int × List DictRow → Option Output}
    {d : Dict Int (List DictRow)} {P : Int × List DictRow → Prop}
    (h : ∀ x ∈ d.items, ∀ out, (handle out x).isSome ↔ P x) (fs : Directories) (output : Text) :
    (dumpInto handle d fs output).isSome ↔
      (∀ x ∈ d.items, P x) ∧ (d.items = [] ∨ (fs output).isSome) := by
  cases hdir : fs output with
  | some dir =>
      rw [dumpInto_of_some hdir, Option.isSome_map, foldlM_isSome_iff h]
      exact (and_iff_left (Or.inr rfl)).symm
  | none =>
      rw [dumpInto_of_none hdir]
      cases hitems : d.items with
      | nil => exact iff_of_true rfl ⟨fun _ hx => (nomatch hx), Or.inl rfl⟩
      | cons x xs =>
          refine iff_of_false (fun hsome => nomatch hsome) ?_
          rintro ⟨_, hnil | hsome⟩
          · cases hnil
          · cases hsome

theorem mapM_eq_some {α β : Type} {f : β → Option α} {g : β → α} {xs : List β}
    (h : ∀ x ∈ xs, f x = some (g x)) : xs.mapM f = some (xs.map g) := by
  induction xs with
  | nil => rfl
  | cons x xs ih =>
      rw [List.mapM_cons, h x List.mem_cons_self,
        ih fun y hy => h y (List.mem_cons_of_mem _ hy)]
      rfl

/-- The size of a row, where it has one. -/
def rowSize (row : DictRow) : Int := (intField row "size".toList).getD 0

@[simp] theorem rowSize_row (x : Entry) : rowSize x.row = x.size := by
  rw [rowSize, intField_dec x.row_size]
  rfl

theorem addRecord_of_none {row : DictRow} (h : row.get? "size".toList = none)
    (d : Dict Int (List DictRow)) : addRecord d row = none := by
  rw [addRecord, intField_of_none h]
  rfl

/-- Rows that have a size are collected by their size. -/
theorem foldlM_addRecord {rows : List DictRow}
    (h : ∀ row ∈ rows, (intField row "size".toList).isSome) (d : Dict Int (List DictRow)) :
    rows.foldlM addRecord d = some (Dict.group rowSize d rows) := by
  refine foldlM_eq_some ?_ d
  intro row hrow d
  obtain ⟨k, hk⟩ := Option.isSome_iff_exists.mp (h row hrow)
  have hsize : rowSize row = k := by rw [rowSize, hk]; rfl
  rw [addRecord, hk, hsize]
  rfl

/-- The rows of a file are collected by their size. -/
theorem loadRecordListDict_rows {t : Text} {es : List Entry}
    (h : rowsOf t = some (es.map Entry.row)) (d : Dict Int (List DictRow)) :
    loadRecordListDict d t = some (Dict.group rowSize d (es.map Entry.row)) := by
  rw [loadRecordListDict, h]
  refine foldlM_addRecord ?_ d
  intro row hrow
  obtain ⟨x, _, rfl⟩ := List.mem_map.mp hrow
  rw [intField_dec x.row_size]
  rfl

/-- The entries of a size. -/
theorem filter_rowSize_map (es : List Entry) (n : Int) :
    ((es.map Entry.row).filter fun row => rowSize row = n) =
      (es.filter fun x => (x.size : Int) = n).map Entry.row := by
  rw [List.filter_map]
  congr 2
  funext x
  rw [Function.comp_apply, rowSize_row]

theorem addRow_row (x : Entry) (d : Dict Text Times) :
    addRow d x.row = some (d.set x.key (((d.get? x.key).getD ∅).set (some x.action) x.ts)) := by
  rw [addRow, x.row_uid, x.row_id, x.row_action, intField_dec x.row_sec, intField_dec x.row_nsec]
  rfl

/-- The last times of the messages. -/
theorem recordDataDict_map (es : List Entry) :
    recordDataDict (es.map Entry.row) =
      some (Dict.table Entry.key (fun x => some x.action) Entry.ts es) := by
  rw [recordDataDict, List.foldlM_map]
  exact foldlM_eq_some (fun x _ d => addRow_row x d) ∅

end NetBench.Script

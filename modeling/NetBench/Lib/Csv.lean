/-
# `NetBench.Lib.Csv` — reading comma-separated values

The reader of Python's `csv` module for the `excel` dialect, over the characters of a
file whose line ends are single newlines.  A reader is a state, the field in progress
and the fields before it; a character is put into the field, ends it, or ends the record
as well.  A field may not grow past `limit` characters.

Fields without comma, quote and newline need no quoting, and what is read of a line of
such fields are the fields themselves (`read_line`).

`dictReader` takes the first record for the names of the columns and makes each other
record that is not empty into a dictionary.
-/
import NetBench.Lib.Dict
import Mathlib.Data.List.Induction

namespace NetBench.Lib.Csv

/-- The characters of a text file. -/
abbrev Text := List Char

/-! ## The reader -/

inductive State where
  | startRecord
  | startField
  | inField
  | inQuotedField
  | quoteInQuotedField
  deriving DecidableEq, Repr

structure Reader where
  state : State
  field : Text
  fields : List Text
  deriving DecidableEq, Repr

/-- What a character does. -/
inductive Outcome where
  | more (r : Reader)
  | record (fields : List Text)
  | error
  deriving DecidableEq, Repr

namespace Reader

/-- Nothing of a record has been read. -/
def start : Reader := ⟨.startRecord, [], []⟩

/-- The fields, if the one in progress is the last. -/
def save (r : Reader) : List Text := r.fields ++ [r.field]

/-- The field in progress is complete, and another one follows. -/
def saveField (r : Reader) : Reader := ⟨.startField, [], r.save⟩

def setState (r : Reader) (s : State) : Reader := { r with state := s }

variable (limit : Nat)

def addChar (r : Reader) (c : Char) (s : State) : Outcome :=
  if r.field.length < limit then .more ⟨s, r.field ++ [c], r.fields⟩ else .error

/-- A character where a field may begin. -/
def stepStartField (r : Reader) (c : Char) : Outcome :=
  if c = '\n' then .record r.save
  else if c = '"' then .more (r.setState .inQuotedField)
  else if c = ',' then .more r.saveField
  else r.addChar limit c .inField

def step (r : Reader) (c : Char) : Outcome :=
  match r.state with
  | .startRecord => if c = '\n' then .record [] else r.stepStartField limit c
  | .startField => r.stepStartField limit c
  | .inField =>
      if c = '\n' then .record r.save
      else if c = ',' then .more r.saveField
      else r.addChar limit c .inField
  | .inQuotedField =>
      if c = '"' then .more (r.setState .quoteInQuotedField)
      else r.addChar limit c .inQuotedField
  | .quoteInQuotedField =>
      if c = '"' then r.addChar limit c .inQuotedField
      else if c = ',' then .more r.saveField
      else if c = '\n' then .record r.save
      else r.addChar limit c .inField

/-- The record that the end of the file completes. -/
def finish (r : Reader) : List (List Text) :=
  if r.state = .startRecord then [] else [r.save]

/-- All records, or `none` where the reader raises an error. -/
def read (r : Reader) : Text → Option (List (List Text))
  | [] => some r.finish
  | c :: t =>
      match r.step limit c with
      | .more r => read r t
      | .record fields => (read start t).map (fields :: ·)
      | .error => none

end Reader

/-- The records of a text. -/
def records (limit : Nat) (t : Text) : Option (List (List Text)) := Reader.start.read limit t

/-! ## Fields that need no quotes -/

/-- A character that stands for itself. -/
def IsPlain (c : Char) : Prop := c ≠ ',' ∧ c ≠ '"' ∧ c ≠ '\n'

instance : DecidablePred IsPlain := fun _ => inferInstanceAs (Decidable (_ ∧ _))

def Plain (f : Text) : Prop := ∀ c ∈ f, IsPlain c

instance (f : Text) : Decidable (Plain f) := List.decidableBAll IsPlain f

theorem Plain.nil : Plain [] := fun _ h => absurd h List.not_mem_nil

theorem Plain.append {f g : Text} (hf : Plain f) (hg : Plain g) : Plain (f ++ g) := by
  intro c hc
  rcases List.mem_append.mp hc with hc | hc
  · exact hf c hc
  · exact hg c hc

namespace Reader

variable {limit : Nat}

theorem step_inField {f : Text} {fs : List Text} {c : Char} (hc : IsPlain c) :
    (Reader.mk .inField f fs).step limit c = (Reader.mk .inField f fs).addChar limit c .inField := by
  obtain ⟨hcomma, _, hnl⟩ := hc
  simp only [step, if_neg hnl, if_neg hcomma]

/-- Plain characters are put into the field, as long as there is room. -/
theorem read_inField {f : Text} (hf : Plain f) (g : Text) (fs : List Text) (t : Text)
    (hlen : g.length + f.length ≤ limit) :
    (Reader.mk .inField g fs).read limit (f ++ t) = (Reader.mk .inField (g ++ f) fs).read limit t := by
  induction f generalizing g with
  | nil => rw [List.nil_append, List.append_nil]
  | cons c f ih =>
      have hc : IsPlain c := hf c List.mem_cons_self
      rw [List.length_cons] at hlen
      have hroom : g.length < limit := by omega
      rw [List.cons_append, read, step_inField hc, addChar, if_pos hroom]
      have hrest := ih (fun x hx => hf x (List.mem_cons_of_mem _ hx)) (g ++ [c])
        (by rw [List.length_append, List.length_singleton]; omega)
      rw [List.append_assoc, List.singleton_append] at hrest
      exact hrest

/-- There is no room for more than `limit` characters. -/
theorem read_inField_of_long {f : Text} (hf : Plain f) (g : Text) (fs : List Text) (t : Text)
    (hlen : limit < g.length + f.length) (hg : g.length ≤ limit) :
    (Reader.mk .inField g fs).read limit (f ++ t) = none := by
  induction f generalizing g with
  | nil =>
      rw [List.length_nil] at hlen
      omega
  | cons c f ih =>
      have hc : IsPlain c := hf c List.mem_cons_self
      rw [List.cons_append, read, step_inField hc, addChar]
      by_cases hroom : g.length < limit
      · rw [if_pos hroom]
        refine ih (fun x hx => hf x (List.mem_cons_of_mem _ hx)) (g ++ [c]) ?_ ?_
        · rw [List.length_append, List.length_singleton]
          rw [List.length_cons] at hlen
          omega
        · rw [List.length_append, List.length_singleton]
          omega
      · rw [if_neg hroom]

theorem stepStartField_of_plain {s : State} {fs : List Text} {c : Char} (hc : IsPlain c) :
    (Reader.mk s [] fs).stepStartField limit c = (Reader.mk s [] fs).addChar limit c .inField := by
  obtain ⟨hcomma, hquote, hnl⟩ := hc
  simp only [stepStartField, if_neg hnl, if_neg hquote, if_neg hcomma]

/-- The characters of a field, from its first one on. -/
theorem read_startField {c : Char} {f : Text} (hf : Plain (c :: f))
    (hlen : (c :: f).length ≤ limit) (fs : List Text) (t : Text) :
    (Reader.mk .startField [] fs).read limit (c :: f ++ t) =
      (Reader.mk .inField (c :: f) fs).read limit t := by
  have hc : IsPlain c := hf c List.mem_cons_self
  rw [List.length_cons] at hlen
  have hroom : ([] : Text).length < limit := by rw [List.length_nil]; omega
  rw [List.cons_append, read, step, stepStartField_of_plain hc, addChar, if_pos hroom]
  refine read_inField (fun x hx => hf x (List.mem_cons_of_mem _ hx)) [c] fs t ?_
  rw [List.length_singleton]
  omega

/-- A field and the comma behind it. -/
theorem read_field {f : Text} (hf : Plain f) (hlen : f.length ≤ limit) (fs : List Text) (t : Text) :
    (Reader.mk .startField [] fs).read limit (f ++ ',' :: t) =
      (Reader.mk .startField [] (fs ++ [f])).read limit t := by
  cases f with
  | nil => rfl
  | cons c f =>
      rw [read_startField hf hlen]
      rfl

/-- A field and the newline behind it. -/
theorem read_lastField {f : Text} (hf : Plain f) (hlen : f.length ≤ limit) (fs : List Text)
    (t : Text) :
    (Reader.mk .startField [] fs).read limit (f ++ '\n' :: t) =
      (start.read limit t).map ((fs ++ [f]) :: ·) := by
  cases f with
  | nil => rfl
  | cons c f =>
      rw [read_startField hf hlen]
      rfl

/-- A field that is too long. -/
theorem read_longField {f : Text} (hf : Plain f) (hlen : limit < f.length) (fs : List Text)
    (t : Text) : (Reader.mk .startField [] fs).read limit (f ++ t) = none := by
  cases f with
  | nil => exact absurd hlen (Nat.not_lt_zero _)
  | cons c f =>
      have hc : IsPlain c := hf c List.mem_cons_self
      rw [List.length_cons] at hlen
      rw [List.cons_append, read, step, stepStartField_of_plain hc, addChar]
      by_cases hroom : ([] : Text).length < limit
      · rw [if_pos hroom]
        refine read_inField_of_long (fun x hx => hf x (List.mem_cons_of_mem _ hx)) [c] fs t ?_ ?_
        · rw [List.length_singleton]
          omega
        · exact hroom
      · rw [if_neg hroom]

/-- A record begins like a field, unless the line is empty. -/
theorem read_start {c : Char} (hc : c ≠ '\n') (t : Text) :
    start.read limit (c :: t) = (Reader.mk .startField [] []).read limit (c :: t) := by
  rw [read, read]
  simp only [start, step, if_neg hc]
  rfl

end Reader

/-! ## Lines of fields -/

/-- The line of a record with the fields `f` and `fs`. -/
def line (f : Text) : List Text → Text
  | [] => f ++ ['\n']
  | g :: fs => f ++ ',' :: line g fs

theorem line_append (f : Text) (fs : List Text) (t : Text) :
    line f fs ++ t =
      match fs with
      | [] => f ++ '\n' :: t
      | g :: fs => f ++ ',' :: (line g fs ++ t) := by
  cases fs with
  | nil => rw [line, List.append_assoc, List.singleton_append]
  | cons g fs => rw [line, List.append_assoc, List.cons_append]

theorem mem_line {c : Char} {f : Text} {fs : List Text} (h : c ∈ line f fs) :
    c = ',' ∨ c = '\n' ∨ ∃ g ∈ f :: fs, c ∈ g := by
  induction fs generalizing f with
  | nil =>
      rcases List.mem_append.mp h with h | h
      · exact Or.inr (Or.inr ⟨f, List.mem_cons_self, h⟩)
      · exact Or.inr (Or.inl (List.mem_singleton.mp h))
  | cons g fs ih =>
      rcases List.mem_append.mp h with h | h
      · exact Or.inr (Or.inr ⟨f, List.mem_cons_self, h⟩)
      · rcases List.mem_cons.mp h with h | h
        · exact Or.inl h
        · rcases ih h with h | h | ⟨x, hx, hc⟩
          · exact Or.inl h
          · exact Or.inr (Or.inl h)
          · exact Or.inr (Or.inr ⟨x, List.mem_cons_of_mem _ hx, hc⟩)

theorem exists_line_cons (c : Char) (f : Text) (fs : List Text) (t : Text) :
    ∃ s, line (c :: f) fs ++ t = c :: s := by
  cases fs with
  | nil => exact ⟨_, rfl⟩
  | cons g fs => exact ⟨_, rfl⟩

variable {limit : Nat}

theorem read_fields {f : Text} {fs : List Text} (hf : ∀ g ∈ f :: fs, Plain g ∧ g.length ≤ limit)
    (before : List Text) (t : Text) :
    (Reader.mk .startField [] before).read limit (line f fs ++ t) =
      (records limit t).map ((before ++ f :: fs) :: ·) := by
  induction fs generalizing f before with
  | nil =>
      obtain ⟨hplain, hlen⟩ := hf f List.mem_cons_self
      rw [line_append]
      exact Reader.read_lastField hplain hlen before t
  | cons g fs ih =>
      obtain ⟨hplain, hlen⟩ := hf f List.mem_cons_self
      rw [line_append]
      refine (Reader.read_field hplain hlen before _).trans ?_
      rw [ih (fun x hx => hf x (List.mem_cons_of_mem _ hx)), List.append_assoc,
        List.singleton_append]

/-- A line is read as its fields; a line of one empty field would be an empty line. -/
theorem read_line {f : Text} {fs : List Text} (hf : ∀ g ∈ f :: fs, Plain g ∧ g.length ≤ limit)
    (hne : f ≠ []) (t : Text) :
    records limit (line f fs ++ t) = (records limit t).map ((f :: fs) :: ·) := by
  obtain ⟨c, f, rfl⟩ := List.exists_cons_of_ne_nil hne
  have hc : c ≠ '\n' := ((hf _ List.mem_cons_self).1 c List.mem_cons_self).2.2
  obtain ⟨s, hs⟩ := exists_line_cons c f fs t
  rw [records, hs, Reader.read_start hc, ← hs, read_fields hf, List.nil_append]

theorem read_fields_of_long {f : Text} {fs : List Text} (hf : ∀ g ∈ f :: fs, Plain g)
    (hlong : ∃ g ∈ f :: fs, limit < g.length) (before : List Text) (t : Text) :
    (Reader.mk .startField [] before).read limit (line f fs ++ t) = none := by
  induction fs generalizing f before with
  | nil =>
      obtain ⟨g, hg, hlen⟩ := hlong
      obtain rfl := List.mem_singleton.mp hg
      rw [line_append]
      exact Reader.read_longField (hf g hg) hlen before _
  | cons g fs ih =>
      have hplain := hf f List.mem_cons_self
      rw [line_append]
      by_cases hlen : f.length ≤ limit
      · refine (Reader.read_field hplain hlen before _).trans ?_
        refine ih (fun x hx => hf x (List.mem_cons_of_mem _ hx)) ?_ _
        obtain ⟨x, hx, hxlen⟩ := hlong
        rcases List.mem_cons.mp hx with rfl | hx
        · exact absurd hxlen (Nat.not_lt.mpr hlen)
        · exact ⟨x, hx, hxlen⟩
      · exact Reader.read_longField hplain (Nat.not_le.mp hlen) before _

/-- A field that is too long spoils the whole file. -/
theorem read_line_of_long {f : Text} {fs : List Text} (hf : ∀ g ∈ f :: fs, Plain g)
    (hlong : ∃ g ∈ f :: fs, limit < g.length) (hne : f ≠ []) (t : Text) :
    records limit (line f fs ++ t) = none := by
  obtain ⟨c, f, rfl⟩ := List.exists_cons_of_ne_nil hne
  have hc : c ≠ '\n' := (hf _ List.mem_cons_self c List.mem_cons_self).2.2
  obtain ⟨s, hs⟩ := exists_line_cons c f fs t
  rw [records, hs, Reader.read_start hc, ← hs, read_fields_of_long hf hlong]

/-! ## Text mode -/

/-- Text mode turns each end of a line into a newline. -/
def universalNewlines : Text → Text
  | [] => []
  | ['\r'] => ['\n']
  | '\r' :: '\n' :: t => '\n' :: universalNewlines t
  | '\r' :: c :: t => '\n' :: universalNewlines (c :: t)
  | c :: t => c :: universalNewlines t

theorem universalNewlines_of_notMem {t : Text} (h : '\r' ∉ t) : universalNewlines t = t := by
  induction t with
  | nil => rfl
  | cons c t ih =>
      rw [List.mem_cons, not_or] at h
      obtain ⟨hc, ht⟩ := h
      rw [universalNewlines]
      · rw [ih ht]
      · intro hc' _
        exact hc hc'.symm
      · intro _ hc' _
        exact hc hc'.symm
      · intro _ _ hc' _
        exact hc hc'.symm

/-! ## Rows as dictionaries -/

/-- A row; a column that the record does not reach has no value. -/
abbrev DictRow := Dict Text (Option Text)

/-- The row of a record.  What the record has beyond the columns is left out. -/
def dictRow (names fields : List Text) : DictRow :=
  names.zipIdx.foldl (fun row x => row.set x.1 fields[x.2]?) ∅

/-- The rows of a file. -/
def dictReader : List (List Text) → List DictRow
  | [] => []
  | names :: rs => (rs.filter (· ≠ [])).map (dictRow names)

end NetBench.Lib.Csv

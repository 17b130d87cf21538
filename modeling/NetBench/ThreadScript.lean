/-
# `NetBench.ThreadScript` — `thread_latency_analysis.py`

The script for the records of the thread program.  It has the loops of the network script
and the same methods of `LatencyHandle`, other targets, and it does not write the
latencies of a size into a file of their own.  So all that it leaves in the output
directory are its two reports, which it skips when it reads:

    a run reads the files that are no reports, and writes a report with the column names
    and one row for each size                                      (`main_eq_some_iff`)
    with the input directory as output directory, a second run that finds the files in
    the same order reads the same files and leaves everything as it is  (`main_again`)
-/
import NetBench.Rerun

namespace NetBench.Script.ThreadAnalysis

open Lib Lib.Csv

/-- Names are compared as texts. -/
local instance lawfulBEqText : LawfulBEq Text := inferInstance

/-! ## The script -/

def target : List Target :=
  [⟨"report_push.csv".toList, "producer.prepare".toList, "producer.push_end".toList⟩,
    ⟨"report_throughout.csv".toList, "producer.prepare".toList, "consumer.rcv".toList⟩]

/-- The body of the loop over `target`. -/
def dumpTarget (st : Statistics) (msgSize : Int) (data : Dict Text Times) (out : Output)
    (t : Target) : Option Output := do
  let out :=
    if t.filename ∈ out.opened then out
    else ⟨out.dir.set t.filename reportHead, t.filename :: out.opened⟩
  let result ← dumpStatisticsResult st msgSize (calLatency data t.fst t.snd)
  let report := (out.dir.get? t.filename).getD [] ++ joined (result.map decInt)
  some ⟨out.dir.set t.filename report, out.opened⟩

/-- The body of the loop over the sizes. -/
def handleSize (st : Statistics) (out : Output) (x : Int × List DictRow) : Option Output := do
  let data ← recordDataDict x.2
  target.foldlM (dumpTarget st x.1 data) out

/-- The script, with the input directory listed as `names`: what it leaves in the
directories. -/
def main (st : Statistics) (opts : List Opt) (names : List Text) (fs : Directories) :
    Option Directories := do
  let (input, output) ← parseArgs opts
  if input.length = 0 then none
  else
    let d ← recordListDict (← fs input) names
    dumpInto (handleSize st) d fs output

/-! ## Rows of a report -/

/-- The row of a size in the report of a target. -/
def rowText (st : Statistics) (x : Int × List DictRow) (t : Target) : Option Text := do
  let data ← recordDataDict x.2
  let result ← dumpStatisticsResult st x.1 (calLatency data t.fst t.snd)
  some (joined (result.map decInt))

/-- What a report that is not open yet begins with. -/
def Output.opening (out : Output) (t : Target) : Output :=
  if t.filename ∈ out.opened then out
  else ⟨out.dir.set t.filename reportHead, t.filename :: out.opened⟩

/-- Write a row, into a report that is opened for the first one. -/
def writeRow (out : Output) (t : Target) (row : Text) : Output :=
  let out := Output.opening out t
  ⟨out.dir.set t.filename ((out.dir.get? t.filename).getD [] ++ row), out.opened⟩

/-- The rows of a size. -/
def writeRows (st : Statistics) (out : Output) (x : Int × List DictRow) : Output :=
  target.foldl (fun out t => writeRow out t ((rowText st x t).getD [])) out

/-- There is a row for each size and each target. -/
def HasRows (st : Statistics) (d : Dict Int (List DictRow)) : Prop :=
  ∀ x ∈ d.items, ∀ t ∈ target, (rowText st x t).isSome

theorem dumpTarget_eq {st : Statistics} {x : Int × List DictRow} {data : Dict Text Times}
    (hdata : recordDataDict x.2 = some data) (out : Output) (t : Target) :
    dumpTarget st x.1 data out t = (rowText st x t).map (writeRow out t) := by
  rw [rowText, hdata]
  show dumpTarget st x.1 data out t = Option.map _ (dumpStatisticsResult st x.1 _ >>= _)
  rw [dumpTarget]
  cases dumpStatisticsResult st x.1 (calLatency data t.fst t.snd) with
  | none => rfl
  | some result => rfl

theorem handleSize_isSome_iff {st : Statistics} {x : Int × List DictRow} (out : Output) :
    (handleSize st out x).isSome ↔ ∀ t ∈ target, (rowText st x t).isSome := by
  cases hdata : recordDataDict x.2 with
  | none =>
      refine iff_of_false ?_ ?_
      · rw [handleSize, hdata]
        exact nofun
      · intro h
        have hrow := h _ List.mem_cons_self
        rw [rowText, hdata] at hrow
        exact nomatch hrow
  | some data =>
      rw [handleSize, hdata]
      refine foldlM_isSome_iff (fun t _ out => ?_) out
      rw [dumpTarget_eq hdata, Option.isSome_map]

theorem handleSize_eq {st : Statistics} {x : Int × List DictRow}
    (h : ∀ t ∈ target, (rowText st x t).isSome) (out : Output) :
    handleSize st out x = some (writeRows st out x) := by
  obtain ⟨data, hdata⟩ : ∃ data, recordDataDict x.2 = some data := by
    obtain ⟨row, hrow⟩ := Option.isSome_iff_exists.mp (h _ List.mem_cons_self)
    obtain ⟨data, hdata, _⟩ := Option.bind_eq_some_iff.mp hrow
    exact ⟨data, hdata⟩
  rw [handleSize, hdata]
  refine foldlM_eq_some ?_ out
  intro t ht out
  obtain ⟨row, hrow⟩ := Option.isSome_iff_exists.mp (h t ht)
  rw [dumpTarget_eq hdata, hrow]
  rfl

/-- The directories, with the reports of some sizes in `output`. -/
def withReports (st : Statistics) (d : Dict Int (List DictRow)) (fs : Directories) (output : Text) :
    Directories :=
  Function.update fs output
    ((fs output).map fun dir => (d.items.foldl (writeRows st) ⟨dir, []⟩).dir)

theorem dumpInto_eq_some_iff {st : Statistics} {d : Dict Int (List DictRow)}
    {fs fs' : Directories} {output : Text} :
    dumpInto (handleSize st) d fs output = some fs' ↔
      HasRows st d ∧ (d.items = [] ∨ (fs output).isSome) ∧ fs' = withReports st d fs output := by
  have hsize : ∀ x ∈ d.items, ∀ out,
      (handleSize st out x).isSome ↔ ∀ t ∈ target, (rowText st x t).isSome :=
    fun x _ out => handleSize_isSome_iff out
  have hsome := dumpInto_isSome_iff hsize fs output
  have heq : HasRows st d → (d.items = [] ∨ (fs output).isSome) →
      dumpInto (handleSize st) d fs output = some (withReports st d fs output) := by
    intro hrows hout
    rw [withReports]
    cases hdir : fs output with
    | some dir =>
        rw [dumpInto_of_some hdir,
          foldlM_eq_some (fun x hx out => handleSize_eq (hrows x hx) out)]
        rfl
    | none =>
        have hnil : d.items = [] := by
          rw [hdir] at hout
          exact hout.resolve_right fun h => nomatch h
        rw [dumpInto_of_none hdir, hnil]
        exact congrArg some ((congrArg _ hdir.symm).trans (Function.update_eq_self output fs)).symm
  constructor
  · intro h
    obtain ⟨hrows, hout⟩ := hsome.mp (Option.isSome_iff_exists.mpr ⟨fs', h⟩)
    exact ⟨hrows, hout, Option.some.inj (h.symm.trans (heq hrows hout))⟩
  · rintro ⟨hrows, hout, rfl⟩
    exact heq hrows hout

/-- The script raises no exception if the files can be loaded, there are all rows, and there
is a directory for them. -/
theorem main_eq_some_iff {st : Statistics} {opts : List Opt} {names : List Text}
    {fs fs' : Directories} :
    main st opts names fs = some fs' ↔
      ∃ input output dir d, parseArgs opts = some (input, output) ∧ input ≠ [] ∧
        fs input = some dir ∧ recordListDict dir names = some d ∧ HasRows st d ∧
        (d.items = [] ∨ (fs output).isSome) ∧ fs' = withReports st d fs output := by
  constructor
  · intro h
    simp only [main, Option.bind_eq_bind, Option.bind_eq_some_iff] at h
    obtain ⟨⟨input, output⟩, hargs, hrest⟩ := h
    by_cases hlen : input.length = 0
    · rw [if_pos hlen] at hrest
      exact nomatch hrest
    · rw [if_neg hlen] at hrest
      obtain ⟨dir, hdir, hrest⟩ := Option.bind_eq_some_iff.mp hrest
      obtain ⟨d, hd, hout⟩ := Option.bind_eq_some_iff.mp hrest
      exact ⟨input, output, dir, d, hargs, fun hnil => hlen (hnil ▸ rfl), hdir, hd,
        dumpInto_eq_some_iff.mp hout⟩
  · rintro ⟨input, output, dir, d, hargs, hne, hdir, hd, hout⟩
    have hlen : input.length ≠ 0 := fun h => hne (List.length_eq_zero_iff.mp h)
    rw [main, hargs]
    simp only [Option.bind_eq_bind, Option.bind_some, if_neg hlen, hdir, hd]
    exact dumpInto_eq_some_iff.mpr hout

/-! ## Two reports -/

theorem filename_inj {t t' : Target} (ht : t ∈ target) (ht' : t' ∈ target)
    (h : t.filename = t'.filename) : t = t' := by
  simp only [target, List.mem_cons, List.not_mem_nil, or_false] at ht ht'
  rcases ht with rfl | rfl <;> rcases ht' with rfl | rfl
  · rfl
  · exact absurd h (by decide)
  · exact absurd h (by decide)
  · rfl

theorem isReport_filename {t : Target} (ht : t ∈ target) : isReport t.filename = true := by
  simp only [target, List.mem_cons, List.not_mem_nil, or_false] at ht
  rcases ht with rfl | rfl
  · decide
  · decide

/-- What a row for the report would be put behind. -/
def Output.text (out : Output) (filename : Text) : Text :=
  if filename ∈ out.opened then (out.dir.get? filename).getD [] else reportHead

theorem get?_opening (out : Output) (t : Target) :
    ((Output.opening out t).dir.get? t.filename).getD [] = Output.text out t.filename := by
  rw [Output.opening, Output.text]
  by_cases hopen : t.filename ∈ out.opened
  · rw [if_pos hopen, if_pos hopen]
  · rw [if_neg hopen, if_neg hopen, Dict.get?_set, if_pos rfl]
    rfl

theorem mem_opened_opening {out : Output} {t : Target} {name : Text} :
    name ∈ (Output.opening out t).opened ↔ name = t.filename ∨ name ∈ out.opened := by
  rw [Output.opening]
  split
  · rename_i hopen
    constructor
    · exact Or.inr
    · rintro (rfl | h)
      · exact hopen
      · exact h
  · exact List.mem_cons

/-- A row goes behind its own report, and the other files stay. -/
theorem get?_writeRow (out : Output) (t : Target) (row name : Text) :
    (writeRow out t row).dir.get? name =
      if name = t.filename then some (Output.text out t.filename ++ row) else out.dir.get? name := by
  rw [writeRow]
  dsimp only
  rw [Dict.get?_set, get?_opening]
  split
  · rfl
  · rename_i hne
    rw [Output.opening]
    split
    · rfl
    · rw [Dict.get?_set, if_neg hne]

theorem text_writeRow (out : Output) (t : Target) (row name : Text) :
    Output.text (writeRow out t row) name =
      Output.text out name ++ if name = t.filename then row else [] := by
  have hopened : name ∈ (writeRow out t row).opened ↔ name = t.filename ∨ name ∈ out.opened :=
    mem_opened_opening
  rw [Output.text, get?_writeRow]
  by_cases hname : name = t.filename
  · rw [if_pos (hopened.mpr (Or.inl hname)), if_pos hname, if_pos hname, hname]
    rfl
  · rw [if_neg hname, if_neg hname, List.append_nil, Output.text]
    by_cases hold : name ∈ out.opened
    · rw [if_pos (hopened.mpr (Or.inr hold)), if_pos hold]
    · rw [if_neg (fun h => (hopened.mp h).elim hname hold), if_neg hold]

theorem text_foldl_writeRow (f : Target → Text) (ts : List Target) (out : Output) (name : Text) :
    Output.text (ts.foldl (fun out t => writeRow out t (f t)) out) name =
      Output.text out name ++ ts.flatMap fun t => if name = t.filename then f t else [] := by
  induction ts generalizing out with
  | nil => exact (List.append_nil _).symm
  | cons t ts ih => rw [List.foldl_cons, ih, text_writeRow, List.flatMap_cons, List.append_assoc]

/-- One of the two reports is that of the target. -/
theorem flatMap_target (f : Target → Text) {t : Target} (ht : t ∈ target) :
    (target.flatMap fun t' => if t.filename = t'.filename then f t' else []) = f t := by
  have hname : ∀ t' ∈ target, (if t.filename = t'.filename then f t' else []) =
      if t = t' then f t' else [] := by
    intro t' ht'
    by_cases heq : t = t'
    · rw [if_pos (congrArg Target.filename heq), if_pos heq]
    · rw [if_neg fun h => heq (filename_inj ht ht' h), if_neg heq]
  rw [List.flatMap_congr hname]
  simp only [target, List.mem_cons, List.not_mem_nil, or_false] at ht
  rcases ht with rfl | rfl
  · exact List.append_nil _
  · exact List.append_nil _

/-- The rows of a size go behind the reports. -/
theorem text_writeRows (st : Statistics) (out : Output) (x : Int × List DictRow) {t : Target}
    (ht : t ∈ target) :
    Output.text (writeRows st out x) t.filename =
      Output.text out t.filename ++ (rowText st x t).getD [] := by
  rw [writeRows, text_foldl_writeRow fun t => (rowText st x t).getD [],
    flatMap_target (fun t => (rowText st x t).getD []) ht]

theorem get?_foldl_writeRow_of_ne (f : Target → Text) {ts : List Target} (out : Output) {name : Text}
    (hname : ∀ t ∈ ts, name ≠ t.filename) :
    (ts.foldl (fun out t => writeRow out t (f t)) out).dir.get? name = out.dir.get? name := by
  induction ts generalizing out with
  | nil => rfl
  | cons t ts ih =>
      obtain ⟨hne, hrest⟩ := List.forall_mem_cons.mp hname
      rw [List.foldl_cons, ih _ hrest, get?_writeRow, if_neg hne]

theorem opened_foldl_writeRow (f : Target → Text) (ts : List Target) (out : Output) {name : Text} :
    name ∈ (ts.foldl (fun out t => writeRow out t (f t)) out).opened ↔
      (∃ t ∈ ts, name = t.filename) ∨ name ∈ out.opened := by
  induction ts generalizing out with
  | nil => simp
  | cons t ts ih =>
      rw [List.foldl_cons, ih, List.exists_mem_cons_iff, or_assoc, or_left_comm]
      exact or_congr_right mem_opened_opening

/-- The report of a target over some sizes. -/
def reportText (st : Statistics) (t : Target) (xs : List (Int × List DictRow)) : Text :=
  reportHead ++ xs.flatMap fun x => (rowText st x t).getD []

theorem text_foldl_writeRows (st : Statistics) (xs : List (Int × List DictRow)) (out : Output)
    {t : Target} (ht : t ∈ target) :
    Output.text (xs.foldl (writeRows st) out) t.filename =
      Output.text out t.filename ++ xs.flatMap fun x => (rowText st x t).getD [] := by
  induction xs generalizing out with
  | nil => exact (List.append_nil _).symm
  | cons x xs ih =>
      rw [List.foldl_cons, ih, text_writeRows st out x ht, List.flatMap_cons, List.append_assoc]

theorem get?_foldl_writeRows_of_ne (st : Statistics) (xs : List (Int × List DictRow)) (out : Output)
    {name : Text} (hname : ∀ t ∈ target, name ≠ t.filename) :
    (xs.foldl (writeRows st) out).dir.get? name = out.dir.get? name := by
  induction xs generalizing out with
  | nil => rfl
  | cons x xs ih =>
      rw [List.foldl_cons, ih, writeRows,
        get?_foldl_writeRow_of_ne (fun t => (rowText st x t).getD []) out hname]

/-- Where a report is open, it is in the directory. -/
def Output.Open (out : Output) : Prop := ∀ name ∈ out.opened, (out.dir.get? name).isSome

theorem open_writeRow {out : Output} (h : Output.Open out) (t : Target) (row : Text) :
    Output.Open (writeRow out t row) := by
  intro name hname
  rw [get?_writeRow]
  split
  · rfl
  · rename_i hne
    exact h name ((mem_opened_opening.mp hname).resolve_left hne)

theorem open_foldl_writeRows (st : Statistics) (xs : List (Int × List DictRow)) {out : Output}
    (h : Output.Open out) : Output.Open (xs.foldl (writeRows st) out) := by
  refine List.foldlRecOn xs (writeRows st) h ?_
  intro out hout x _
  exact List.foldlRecOn target _ hout fun out hout t _ => open_writeRow hout t _

/-- What the script leaves in the output directory, if there is a size to report. -/
theorem get?_reports (st : Statistics) {xs : List (Int × List DictRow)} (hxs : xs ≠ [])
    (dir : Directory) {t : Target} (ht : t ∈ target) :
    (xs.foldl (writeRows st) ⟨dir, []⟩).dir.get? t.filename = some (reportText st t xs) := by
  have htext := text_foldl_writeRows st xs ⟨dir, []⟩ ht
  have hopened : t.filename ∈ (xs.foldl (writeRows st) ⟨dir, []⟩).opened := by
    induction xs using List.reverseRecOn with
    | nil => exact absurd rfl hxs
    | append_singleton xs x _ =>
        rw [List.foldl_concat]
        exact (opened_foldl_writeRow _ target _).mpr (Or.inl ⟨t, ht, rfl⟩)
  have hstart : Output.Open ⟨dir, []⟩ := fun name hname => absurd hname List.not_mem_nil
  have hsome := open_foldl_writeRows st xs hstart _ hopened
  obtain ⟨text, hget⟩ := Option.isSome_iff_exists.mp hsome
  rw [Output.text, if_pos hopened, Output.text, if_neg List.not_mem_nil, hget] at htext
  rw [hget]
  exact congrArg some htext

/-- The other files are as they were. -/
theorem get?_of_not_report (st : Statistics) (xs : List (Int × List DictRow)) (dir : Directory)
    {name : Text} (hname : isReport name = false) :
    (xs.foldl (writeRows st) ⟨dir, []⟩).dir.get? name = dir.get? name := by
  refine get?_foldl_writeRows_of_ne st xs _ ?_
  rintro t ht rfl
  rw [isReport_filename ht] at hname
  exact nomatch hname

/-- A file of the output directory, afterwards. -/
theorem fileAt_withReports (st : Statistics) (d : Dict Int (List DictRow)) (fs : Directories)
    (output name : Text) : fileAt (withReports st d fs output) output name =
      (fs output).bind fun dir => (d.items.foldl (writeRows st) ⟨dir, []⟩).dir.get? name := by
  rw [fileAt, withReports, Function.update_self, Option.bind_eq_bind]
  exact Option.bind_map ..

/-! ## Record files -/

/-- The columns of a size in the report of a target, from the records. -/
def columnsOf (st : Statistics) (es : List Entry) (t : Target) (n : Int) : Option (List Int) :=
  dumpStatisticsResult st n (latencies es n t.fst t.snd)

/-- The sizes, in the order in which they are found. -/
def sizesOf (d : Dict Int (List DictRow)) : List Int := d.items.map Prod.fst

variable {es : List Entry} {files : List (List Entry)}

theorem mem_sizesOf (xs : List Entry) (n : Int) :
    n ∈ sizesOf (Dict.group rowSize ∅ (xs.map Entry.row)) ↔ ∃ x ∈ xs, (x.size : Int) = n := by
  constructor
  · intro h
    obtain ⟨⟨k, rows⟩, hmem, rfl⟩ := List.mem_map.mp h
    obtain ⟨⟨row, hrow, hsize⟩, _⟩ := Dict.of_mem_group hmem
    obtain ⟨x, hx, rfl⟩ := List.mem_map.mp hrow
    exact ⟨x, hx, (rowSize_row x).symm.trans hsize⟩
  · rintro ⟨x, hx, rfl⟩
    rcases hget : (Dict.group rowSize ∅ (xs.map Entry.row)).get? (x.size : Int) with _ | rows
    · exact absurd (rowSize_row x)
        ((Dict.get?_group_eq_none _ _ _).mp hget _ (List.mem_map_of_mem hx))
    · exact List.mem_map.mpr ⟨_, Dict.mem_items.mpr hget, rfl⟩

/-- The rows of a size stand for the records of that size. -/
theorem rowText_group (hes : (es.map Entry.ident).Nodup) {xs : List Entry} (hperm : xs.Perm es)
    (st : Statistics) {x : Int × List DictRow}
    (hx : x ∈ (Dict.group rowSize ∅ (xs.map Entry.row)).items) (t : Target) :
    rowText st x t = (columnsOf st es t x.1).map fun result => joined (result.map decInt) := by
  obtain ⟨_, hrecords⟩ := Dict.of_mem_group hx
  rw [filter_rowSize_map] at hrecords
  rw [rowText, hrecords, recordDataDict_map, columnsOf,
    ← dumpStatisticsResult_perm (calLatency_table hes hperm x.1 t.fst t.snd)]
  show (dumpStatisticsResult st x.1 _ >>= _) = _
  rw [Option.bind_eq_bind, Option.map_eq_bind]
  rfl

/-- The sizes of the records, each once. -/
theorem mem_sizesOf_perm {xs : List Entry} (hperm : xs.Perm es) (n : Int) :
    n ∈ sizesOf (Dict.group rowSize ∅ (xs.map Entry.row)) ↔ ∃ x ∈ es, (x.size : Int) = n := by
  rw [mem_sizesOf]
  simp only [hperm.mem_iff]

theorem hasRows_iff (hes : (es.map Entry.ident).Nodup) {xs : List Entry} (hperm : xs.Perm es)
    (st : Statistics) :
    HasRows st (Dict.group rowSize ∅ (xs.map Entry.row)) ↔
      ∀ x ∈ es, ∀ t ∈ target, (columnsOf st es t x.size).isSome := by
  constructor
  · intro hrows x hx t ht
    obtain ⟨y, hy, hyn⟩ := List.mem_map.mp ((mem_sizesOf_perm hperm x.size).mpr ⟨x, hx, rfl⟩)
    have hsome := hrows y hy t ht
    rw [rowText_group hes hperm st hy t, Option.isSome_map, hyn] at hsome
    exact hsome
  · intro hcolumns y hy t ht
    obtain ⟨x, hx, hxn⟩ := (mem_sizesOf_perm hperm y.1).mp (List.mem_map_of_mem hy)
    rw [rowText_group hes hperm st hy t, Option.isSome_map, ← hxn]
    exact hcolumns x hx t ht

/-- What stands in the report of a target. -/
theorem reportText_group (hes : (es.map Entry.ident).Nodup) {xs : List Entry} (hperm : xs.Perm es)
    {st : Statistics} (hrows : HasRows st (Dict.group rowSize ∅ (xs.map Entry.row))) {t : Target}
    (ht : t ∈ target) :
    ∃ rows, (sizesOf (Dict.group rowSize ∅ (xs.map Entry.row))).mapM (columnsOf st es t) = some rows ∧
      reportText st t (Dict.group rowSize ∅ (xs.map Entry.row)).items =
        reportHead ++ rows.flatMap fun result => joined (result.map decInt) := by
  have hcolumns : ∀ y ∈ (Dict.group rowSize ∅ (xs.map Entry.row)).items,
      ∃ result, columnsOf st es t y.1 = some result := by
    intro y hy
    have hsome := hrows y hy t ht
    rw [rowText_group hes hperm st hy t, Option.isSome_map] at hsome
    exact Option.isSome_iff_exists.mp hsome
  refine ⟨(sizesOf (Dict.group rowSize ∅ (xs.map Entry.row))).map fun n =>
    (columnsOf st es t n).getD [], mapM_eq_some ?_, ?_⟩
  · intro n hn
    obtain ⟨y, hy, rfl⟩ := List.mem_map.mp hn
    obtain ⟨result, hresult⟩ := hcolumns y hy
    rw [hresult]
    rfl
  · rw [reportText, sizesOf, List.map_map, List.flatMap_map]
    refine congrArg (reportHead ++ ·) (List.flatMap_congr ?_)
    intro y hy
    obtain ⟨result, hresult⟩ := hcolumns y hy
    rw [rowText_group hes hperm st hy t, Function.comp_apply, hresult]
    rfl

theorem items_eq_nil_iff {xs : List Entry} (hperm : xs.Perm es) :
    (Dict.group rowSize ∅ (xs.map Entry.row)).items = [] ↔ es = [] := by
  constructor
  · intro hnil
    by_contra hsome
    exact items_ne_nil (fun hxs => hsome (hxs ▸ hperm).nil_eq.symm) hnil
  · rintro rfl
    rw [hperm.eq_nil]
    rfl

/-- With five latencies for each report of each size, and an output directory, the script
comes to its end. -/
theorem exists_main {st : Statistics} (hst : st.Indexes) {opts : List Opt} {input output : Text}
    (hopts : parseArgs opts = some (input, output)) (hne : input ≠ []) {names : List Text}
    {fs : Directories} {dir : Directory} (hinput : fs input = some dir)
    (hes : (es.map Entry.ident).Nodup) (hdir : Holding dir names files)
    (hperm : files.flatten.Perm es)
    (hlength : ∀ x ∈ es, ∀ t ∈ target, 5 ≤ (latencies es x.size t.fst t.snd).length)
    (hout : es = [] ∨ (fs output).isSome) : ∃ fs', main st opts names fs = some fs' := by
  refine ⟨_, main_eq_some_iff.mpr ⟨input, output, dir, _, hopts, hne, hinput,
    recordListDict_holding hdir, (hasRows_iff hes hperm st).mpr ?_,
    hout.imp_left (items_eq_nil_iff hperm).mpr, rfl⟩⟩
  exact fun x hx t ht => dumpStatisticsResult_isSome hst _ (hlength x hx t ht)

theorem isSome_main_iff {st : Statistics} (hst : st.Indexes) (hmiss : st.Misses)
    {opts : List Opt} {input output : Text} (hopts : parseArgs opts = some (input, output))
    (hne : input ≠ []) {names : List Text} {fs : Directories} {dir : Directory}
    (hinput : fs input = some dir) (hes : (es.map Entry.ident).Nodup)
    (hdir : Holding dir names files) (hperm : files.flatten.Perm es) :
    (main st opts names fs).isSome ↔
      (∀ x ∈ es, ∀ t ∈ target, 5 ≤ (latencies es x.size t.fst t.snd).length) ∧
        (es = [] ∨ (fs output).isSome) := by
  rw [Option.isSome_iff_exists]
  constructor
  · rintro ⟨fs', hmain⟩
    obtain ⟨input', output', dir', d, hargs, _, hinput', hd, hrows, hout, _⟩ :=
      main_eq_some_iff.mp hmain
    obtain ⟨rfl, rfl⟩ := Prod.mk.inj (Option.some.inj (hopts.symm.trans hargs))
    obtain rfl := Option.some.inj (hinput.symm.trans hinput')
    obtain rfl := Option.some.inj ((recordListDict_holding hdir).symm.trans hd)
    refine ⟨fun x hx t ht => ?_, hout.imp_left (items_eq_nil_iff hperm).mp⟩
    exact (dumpStatisticsResult_isSome_iff hst hmiss _ _).mp
      ((hasRows_iff hes hperm st).mp hrows x hx t ht)
  · rintro ⟨hlength, hout⟩
    exact exists_main hst hopts hne hinput hes hdir hperm hlength hout

theorem reports_of_main {st : Statistics} {opts : List Opt} {input output : Text}
    (hopts : parseArgs opts = some (input, output)) {names : List Text} {fs fs' : Directories}
    {dir : Directory} (hinput : fs input = some dir) (hes : (es.map Entry.ident).Nodup)
    (hdir : Holding dir names files) (hperm : files.flatten.Perm es)
    (h : main st opts names fs = some fs') :
    ∃ sizes : List Int, sizes.Nodup ∧ (∀ n, n ∈ sizes ↔ ∃ x ∈ es, (x.size : Int) = n) ∧
      (es ≠ [] → ∀ t ∈ target, ∃ rows, sizes.mapM (columnsOf st es t) = some rows ∧
        fileAt fs' output t.filename =
          some (reportHead ++ rows.flatMap fun result => joined (result.map decInt))) ∧
      (∀ name, (∀ t ∈ target, name ≠ t.filename) →
        fileAt fs' output name = fileAt fs output name) ∧
      ∀ q ≠ output, fs' q = fs q := by
  obtain ⟨input', output', dir', d, hargs, _, hinput', hd, hrows, hout, rfl⟩ :=
    main_eq_some_iff.mp h
  obtain ⟨rfl, rfl⟩ := Prod.mk.inj (Option.some.inj (hopts.symm.trans hargs))
  obtain rfl := Option.some.inj (hinput.symm.trans hinput')
  obtain rfl := Option.some.inj ((recordListDict_holding hdir).symm.trans hd)
  refine ⟨sizesOf _, Dict.nodup _, mem_sizesOf_perm hperm, ?_, ?_, ?_⟩
  · intro hsome t ht
    have hne : files.flatten ≠ [] := fun hnil => hsome (hnil ▸ hperm).nil_eq.symm
    have hitems := items_ne_nil hne
    obtain ⟨rows, hmap, htext⟩ := reportText_group hes hperm hrows ht
    obtain ⟨dir', hdir'⟩ := Option.isSome_iff_exists.mp (hout.resolve_left hitems)
    refine ⟨rows, hmap, ?_⟩
    rw [fileAt_withReports, hdir', Option.bind_some, get?_reports st hitems _ ht, htext]
  · intro name hname
    rw [fileAt_withReports]
    exact congrArg _ (funext fun dir => get?_foldl_writeRows_of_ne st _ _ hname)
  · intro q hq
    exact Function.update_of_ne hq ..

/-- The script on a directory of records, each of them there once: whether it succeeds, and
what it writes, does not depend on the order of the files and of the records in them. -/
theorem main_of_directory {st : Statistics} (hst : st.Indexes) (hmiss : st.Misses)
    {opts : List Opt} {input output : Text} (hopts : parseArgs opts = some (input, output))
    (hne : input ≠ []) {names : List Text} {fs : Directories} {dir : Directory}
    (hinput : fs input = some dir) (hes : (es.map Entry.ident).Nodup)
    (hdir : Holding dir names files) (hperm : files.flatten.Perm es) :
    ((main st opts names fs).isSome ↔
      (∀ x ∈ es, ∀ t ∈ target, 5 ≤ (latencies es x.size t.fst t.snd).length) ∧
        (es = [] ∨ (fs output).isSome)) ∧
    ∀ fs', main st opts names fs = some fs' →
      ∃ sizes : List Int, sizes.Nodup ∧ (∀ n, n ∈ sizes ↔ ∃ x ∈ es, (x.size : Int) = n) ∧
        (es ≠ [] → ∀ t ∈ target, ∃ rows, sizes.mapM (columnsOf st es t) = some rows ∧
          fileAt fs' output t.filename =
            some (reportHead ++ rows.flatMap fun result => joined (result.map decInt))) ∧
        (∀ name, (∀ t ∈ target, name ≠ t.filename) →
          fileAt fs' output name = fileAt fs output name) ∧
        ∀ q ≠ output, fs' q = fs q :=
  ⟨isSome_main_iff hst hmiss hopts hne hinput hes hdir hperm,
    fun _ hmain => reports_of_main hopts hinput hes hdir hperm hmain⟩

/-! ## Five messages -/

/-- The records of a message that went through the channel. -/
def threadEntries (id : UInt32) : List TsEntry :=
  [⟨7, ⟨1718755200, 5, 0, id, 64, "producer.prepare".toList⟩⟩,
    ⟨7, ⟨1718755200, 6, 0, id, 64, "producer.push_begin".toList⟩⟩,
    ⟨7, ⟨1718755200, 9, 0, id, 64, "producer.push_end".toList⟩⟩,
    ⟨8, ⟨1718755200, 17, 0, id, 64, "consumer.rcv".toList⟩⟩]

def fivePushes : List TsEntry := ([0, 1, 2, 3, 4] : List UInt32).flatMap threadEntries

def fivePushesDir : Directory := (∅ : Directory).set "all.csv".toList (recordFile fivePushes)

def fivePushesSystem : Directories := fun _ => some fivePushesDir

theorem fivePushes_holding :
    Holding fivePushesDir fiveMessagesNames [fivePushes.map TsEntry.entry] := by
  have hprintable : ∀ e ∈ fivePushes, e.record.Printable ∧ e.record.action.length ≤ fieldSizeLimit := by
    decide +kernel
  refine List.Forall₂.cons ⟨_, rfl, ?_⟩ List.Forall₂.nil
  rw [rowsOf_recordFile (fun e he => (hprintable e he).1) (fun e he => (hprintable e he).2),
    List.map_map]
  rfl

theorem fivePushes_ident : ((fivePushes.map TsEntry.entry).map Entry.ident).Nodup := by
  decide +kernel

theorem fivePushes_dir : fivePushesSystem recordsPath = some fivePushesDir := rfl

theorem main_five_pushes : ∃ fs', main exactStatistics [.input recordsPath]
    fiveMessagesNames fivePushesSystem = some fs' := by
  have hsize : ∀ x ∈ fivePushes.map TsEntry.entry, x.size = 64 := by decide +kernel
  have hlength : ∀ t ∈ target,
      5 ≤ (latencies (fivePushes.map TsEntry.entry) (64 : Nat) t.fst t.snd).length := by
    decide +kernel
  have hopts : parseArgs [.input recordsPath] = some (recordsPath, recordsPath) := rfl
  refine exists_main exactStatistics_indexes hopts (List.cons_ne_nil _ _) fivePushes_dir
    fivePushes_ident fivePushes_holding (List.Perm.of_eq (List.append_nil _)) ?_ (Or.inr rfl)
  intro x hx
  rw [hsize x hx]
  exact hlength

theorem main_of_directory_five_pushes :
    ∃ fs', main exactStatistics [.input recordsPath] fiveMessagesNames fivePushesSystem = some fs' ∧
      fs' [] = fivePushesSystem [] := by
  have hopts : parseArgs [.input recordsPath] = some (recordsPath, recordsPath) := rfl
  obtain ⟨fs', hmain⟩ := main_five_pushes
  obtain ⟨_, hwrites⟩ := main_of_directory exactStatistics_indexes misses_exact hopts
    (List.cons_ne_nil _ _) fivePushes_dir fivePushes_ident fivePushes_holding
    (List.Perm.of_eq (List.append_nil _))
  obtain ⟨_, _, _, _, _, hother⟩ := hwrites fs' hmain
  exact ⟨fs', hmain, hother [] (List.cons_ne_nil _ _).symm⟩

/-! ## The second run -/

theorem recordListDict_congr {dir dir' : Directory} {names names' : List Text}
    (hnames : considered names' = considered names)
    (hdir : ∀ name, isReport name = false → dir'.get? name = dir.get? name) :
    recordListDict dir' names' = recordListDict dir names := by
  rw [recordListDict, recordListDict, hnames]
  refine foldlM_congr ?_ ∅
  intro name hname d
  have hreport : isReport name = false := by simpa using (List.mem_filter.mp hname).2
  rw [hdir name hreport]

/-- The same files are read, whatever the reports are. -/
theorem considered_perm {dir dir' : Directory} {names names' : List Text}
    (hdir : ∀ name, isReport name = false → dir'.get? name = dir.get? name)
    (hnames : Listed dir names) (hnames' : Listed dir' names') :
    (considered names').Perm (considered names) := by
  have hmem : ∀ {d : Directory} {l : List Text}, Listed d l → ∀ name, name ∈ l ↔
      (d.get? name).isSome := by
    intro d l hl name
    rw [hl.mem_iff, Option.isSome_iff_exists]
    constructor
    · rintro h
      obtain ⟨⟨k, t⟩, hk, rfl⟩ := List.mem_map.mp h
      exact ⟨t, Dict.mem_items.mp hk⟩
    · rintro ⟨t, ht⟩
      exact List.mem_map.mpr ⟨(name, t), Dict.mem_items.mpr ht, rfl⟩
  have hnodup : ∀ {d : Directory} {l : List Text}, Listed d l → (considered l).Nodup :=
    fun hl => (hl.nodup_iff.mpr (Dict.nodup _)).filter _
  refine (List.perm_ext_iff_of_nodup (hnodup hnames') (hnodup hnames)).mpr fun name => ?_
  rw [considered, considered, List.mem_filter, List.mem_filter, hmem hnames, hmem hnames']
  refine and_congr_left fun hreport => ?_
  rw [hdir name (by simpa using hreport)]

/-- A second run on what the first one left, with the files listed in the same order, leaves
every file of every directory as it is. -/
theorem main_again {st : Statistics} {opts : List Opt} {p : Text}
    (hopts : parseArgs opts = some (p, p)) {names names' : List Text} {fs fs' : Directories}
    (h : main st opts names fs = some fs') :
    (∀ dir dir', fs p = some dir → fs' p = some dir' → Listed dir names → Listed dir' names' →
      (considered names').Perm (considered names)) ∧
      (considered names' = considered names →
        ∃ fs'', main st opts names' fs' = some fs'' ∧
          ∀ q name, fileAt fs'' q name = fileAt fs' q name) := by
  obtain ⟨input, output, dir, d, hargs, hne, hdir, hd, hrows, hout, rfl⟩ := main_eq_some_iff.mp h
  obtain ⟨rfl, rfl⟩ := Prod.mk.inj (Option.some.inj (hopts.symm.trans hargs))
  -- what the first run leaves in the directory
  have hleft : withReports st d fs p p =
      some (d.items.foldl (writeRows st) ⟨dir, []⟩).dir := by
    rw [withReports, Function.update_self, hdir]
    rfl
  have hfiles : ∀ name, isReport name = false →
      (d.items.foldl (writeRows st) ⟨dir, []⟩).dir.get? name = dir.get? name :=
    fun name hname => get?_of_not_report st d.items dir hname
  constructor
  · intro dir₁ dir₂ hdir₁ hdir₂ hnames hnames'
    obtain rfl := Option.some.inj (hdir.symm.trans hdir₁)
    obtain rfl := Option.some.inj (hleft.symm.trans hdir₂)
    exact considered_perm hfiles hnames hnames'
  · intro hnames
    refine ⟨_, main_eq_some_iff.mpr ⟨p, p, _, d, hargs, hne, hleft,
      (recordListDict_congr hnames hfiles).trans hd, hrows, Or.inr (hleft ▸ rfl), rfl⟩, ?_⟩
    intro q name
    by_cases hq : q = p
    · obtain rfl := hq
      rw [fileAt_withReports, hleft, fileAt, hleft, Option.bind_eq_bind, Option.bind_some,
        Option.bind_some]
      by_cases hname : ∃ t ∈ target, name = t.filename
      · obtain ⟨t, ht, rfl⟩ := hname
        by_cases hitems : d.items = []
        · rw [hitems]
          rfl
        · rw [get?_reports st hitems _ ht, get?_reports st hitems _ ht]
      · have hne : ∀ t ∈ target, name ≠ t.filename := fun t ht heq => hname ⟨t, ht, heq⟩
        exact get?_foldl_writeRows_of_ne st d.items _ hne
    · rw [fileAt, fileAt, withReports, Function.update_of_ne hq]

/-- The directory after the first run. -/
def fivePushesAgain : List Text :=
  ["report_push.csv".toList, "all.csv".toList, "report_throughout.csv".toList]

/-- The second run, on a listing with the reports of the first one. -/
theorem main_again_five_pushes :
    ∃ fs' fs'', main exactStatistics [.input recordsPath] fiveMessagesNames fivePushesSystem =
        some fs' ∧
      main exactStatistics [.input recordsPath] fivePushesAgain fs' = some fs'' ∧
      ∀ q name, fileAt fs'' q name = fileAt fs' q name := by
  obtain ⟨fs', hmain⟩ := main_five_pushes
  have hnames : considered fivePushesAgain = considered fiveMessagesNames := by decide
  obtain ⟨_, hagain⟩ := main_again (p := recordsPath) rfl hmain
  obtain ⟨fs'', hmain', hsame⟩ := hagain hnames
  exact ⟨fs', fs'', hmain, hmain', hsame⟩

end NetBench.Script.ThreadAnalysis

/-
# `NetBench.Rerun` — the analysis on its own output

By default the reports are written into the directory that the record files are read
from.  The loop over the files skips the names that begin with `report_`, but the files
with the latencies of a size are called `records_<size>_<report>`, and a second run
takes them for record files:

    the first line of such a file is the header, so the rows have no
    column `size`, and loading them raises an exception (`load_recordsText`)
    so the script can be run twice if and only if there is no record at all
                                                        (`rerun_iff_no_records`)
-/
import NetBench.LatencyOrder
import NetBench.Quantiles
import Mathlib.Algebra.Ring.Int.Defs
import Mathlib.Data.List.Dedup
import Mathlib.Data.Nat.Sqrt

namespace NetBench.Script

open Lib Lib.Csv

/-! ## Files with latencies are no record files -/

theorem decInt_plain (z : Int) : Plain (decInt z) := by
  intro c hc
  rcases Decimal.mem_decInt hc with rfl | hc
  · decide
  · refine ⟨?_, ?_, ?_⟩ <;> rintro rfl <;> exact absurd hc (by decide)

theorem cr_notMem_recordsText (ls : List Int) : '\r' ∉ recordsText ls := by
  intro h
  obtain ⟨t, ht, hc⟩ := List.mem_flatten.mp h
  obtain ⟨ℓ, _, rfl⟩ := List.mem_map.mp ht
  rcases List.mem_append.mp hc with hc | hc
  · rcases Decimal.mem_decInt hc with hc | hc
    · exact absurd hc (by decide)
    · exact absurd hc (by decide)
  · exact absurd hc (by decide)

/-- Each line is a record of one field. -/
theorem records_recordsText {ls : List Int} {rs : List (List Text)}
    (h : records fieldSizeLimit (recordsText ls) = some rs) : rs = ls.map fun ℓ => [decInt ℓ] := by
  induction ls generalizing rs with
  | nil => exact (Option.some.inj h).symm
  | cons ℓ ls ih =>
      have hsplit : recordsText (ℓ :: ls) = line (decInt ℓ) [] ++ recordsText ls := rfl
      rw [hsplit] at h
      by_cases hlen : (decInt ℓ).length ≤ fieldSizeLimit
      · rw [read_line (by simpa using ⟨decInt_plain ℓ, hlen⟩) (Decimal.decInt_ne_nil ℓ)] at h
        obtain ⟨rs', hrs', rfl⟩ := Option.map_eq_some_iff.mp h
        rw [ih hrs', List.map_cons]
      · rw [read_line_of_long (by simpa using decInt_plain ℓ) (by simpa using hlen)
          (Decimal.decInt_ne_nil ℓ)] at h
        exact nomatch h

/-- A row below a number has no column `size`. -/
theorem get?_size_dictRow (z z' : Int) :
    (dictRow [decInt z] [decInt z']).get? "size".toList = none := by
  have hne : "size".toList ≠ decInt z := by
    intro h
    have hmem : 's' ∈ decInt z := h ▸ List.mem_cons_self
    rcases Decimal.mem_decInt hmem with hs | hs
    · exact absurd hs (by decide)
    · exact absurd hs (by decide)
  have hset := Dict.get?_set (∅ : DictRow) (decInt z) "size".toList (some (decInt z'))
  rw [if_neg hne] at hset
  exact hset

/-- Two latencies, and the file cannot be loaded. -/
theorem load_recordsText {ls : List Int} (hls : 2 ≤ ls.length) (d : Dict Int (List DictRow)) :
    loadRecordListDict d (recordsText ls) = none := by
  rw [loadRecordListDict, rowsOf, universalNewlines_of_notMem (cr_notMem_recordsText ls)]
  rcases hrs : records fieldSizeLimit (recordsText ls) with _ | rs
  · rfl
  · obtain ⟨ℓ, ℓ', ls, rfl⟩ : ∃ ℓ ℓ' ls', ls = ℓ :: ℓ' :: ls' := by
      rcases ls with _ | ⟨ℓ, _ | ⟨ℓ', ls'⟩⟩
      · exact absurd hls (by decide)
      · exact absurd hls (Nat.not_succ_le_self 1)
      · exact ⟨ℓ, ℓ', ls', rfl⟩
    rw [records_recordsText hrs]
    refine foldlM_eq_none (x := dictRow [decInt ℓ] [decInt ℓ']) ?_
      (addRecord_of_none (get?_size_dictRow ℓ ℓ')) d
    refine List.mem_map.mpr ⟨[decInt ℓ'], ?_, rfl⟩
    exact List.mem_filter.mpr ⟨List.mem_cons_self, rfl⟩

/-! ## What a run leaves -/

theorem isReport_target {t : Target} (ht : t ∈ target) : isReport t.filename = true := by
  simp only [target, List.mem_cons, List.not_mem_nil, or_false] at ht
  rcases ht with rfl | rfl
  · decide
  · decide

/-- The filter does not know these names. -/
theorem isReport_recordsFilename (n : Int) (filename : Text) :
    isReport (recordsFilename n filename) = false := rfl

/-- Of the files that are no reports, one is written for a size and a target. -/
theorem get?_dumpTarget {st : Statistics} {n : Int} {data : Dict Text Times} {out out' : Output}
    {t : Target} {name : Text} (ht : t ∈ target) (hname : isReport name = false)
    (h : dumpTarget st n data out t = some out') :
    out'.dir.get? name =
      if name = recordsFilename n t.filename then some (recordsText (calLatency data t.fst t.snd))
      else out.dir.get? name := by
  have hne : name ≠ t.filename := by
    rintro rfl
    rw [isReport_target ht] at hname
    exact nomatch hname
  simp only [dumpTarget, Option.bind_eq_bind, Option.bind_eq_some_iff, Option.some.injEq] at h
  obtain ⟨result, _, rfl⟩ := h
  simp only [Dict.get?_set, if_neg hne]
  by_cases hopened : t.filename ∈ out.opened
  · rw [if_pos hopened]
  · rw [if_neg hopened]
    simp only [Dict.get?_set, if_neg hne]

/-- A file with latencies that cannot be loaded. -/
def Spoils (name : Text) (dir : Directory) : Prop :=
  ∃ ls : List Int, 2 ≤ ls.length ∧ dir.get? name = some (recordsText ls)

/-- There are five latencies or more for each target. -/
def Enough (records : List DictRow) : Prop :=
  ∀ data, recordDataDict records = some data →
    ∀ t ∈ target, 5 ≤ (calLatency data t.fst t.snd).length

theorem Spoils.dumpTarget {st : Statistics} {n : Int} {data : Dict Text Times} {out out' : Output}
    {t : Target} {name : Text} (ht : t ∈ target) (hname : isReport name = false)
    (hlen : 5 ≤ (calLatency data t.fst t.snd).length)
    (h : dumpTarget st n data out t = some out') (hs : Spoils name out.dir) :
    Spoils name out'.dir := by
  have hget := get?_dumpTarget ht hname h
  by_cases heq : name = recordsFilename n t.filename
  · rw [if_pos heq] at hget
    exact ⟨_, (by omega : 2 ≤ 5).trans hlen, hget⟩
  · rw [if_neg heq] at hget
    obtain ⟨ls, hls, hdir⟩ := hs
    exact ⟨ls, hls, hget.trans hdir⟩

theorem Spoils.handleSize {st : Statistics} {out out' : Output} {x : Int × List DictRow}
    {name : Text} (hname : isReport name = false) (hx : Enough x.2)
    (h : handleSize st out x = some out') (hs : Spoils name out.dir) : Spoils name out'.dir := by
  simp only [Script.handleSize, Option.bind_eq_bind, Option.bind_eq_some_iff] at h
  obtain ⟨data, hdata, hfold⟩ := h
  refine foldlM_invariant (P := fun out => Spoils name out.dir) ?_ hs hfold
  intro t ht out out' hs hstep
  exact hs.dumpTarget ht hname (hx data hdata t ht) hstep

/-- The latencies of a size are written into a file that spoils the directory. -/
theorem spoils_handleSize {st : Statistics} {out out' : Output} {x : Int × List DictRow}
    (hx : Enough x.2) (h : handleSize st out x = some out') :
    Spoils (recordsFilename x.1 "report_send.csv".toList) out'.dir := by
  simp only [Script.handleSize, Option.bind_eq_bind, Option.bind_eq_some_iff] at h
  obtain ⟨data, hdata, hfold⟩ := h
  have hname := isReport_recordsFilename x.1 "report_send.csv".toList
  have hfirst : Target.mk "report_send.csv".toList "client.snd_begin".toList
      "client.snd_end".toList ∈ target := List.mem_cons_self
  refine foldlM_reaches
    (P := fun out => Spoils (recordsFilename x.1 "report_send.csv".toList) out.dir)
    ?_ hfirst ?_ hfold
  · intro t ht out out' hs hstep
    exact hs.dumpTarget ht hname (hx data hdata t ht) hstep
  · intro out out' hstep
    exact ⟨_, (by omega : 2 ≤ 5).trans (hx data hdata _ hfirst),
      (get?_dumpTarget hfirst hname hstep).trans (if_pos rfl)⟩

/-! ## The second run -/

/-- `os.listdir`: the names of the files, in any order. -/
def Listed (dir : Directory) (names : List Text) : Prop := names.Perm (dir.items.map Prod.fst)

theorem mem_listed {dir : Directory} {names : List Text} (h : Listed dir names) {name t : Text}
    (hget : dir.get? name = some t) : name ∈ names :=
  h.mem_iff.mpr (List.mem_map.mpr ⟨(name, t), Dict.mem_items.mpr hget, rfl⟩)

theorem recordListDict_of_spoils {dir : Directory} {names : List Text} (hnames : Listed dir names)
    {name : Text} (hname : isReport name = false) (h : Spoils name dir) :
    recordListDict dir names = none := by
  obtain ⟨ls, hls, hget⟩ := h
  have hmem : name ∈ considered names :=
    List.mem_filter.mpr ⟨mem_listed hnames hget, by rw [hname]; rfl⟩
  refine foldlM_eq_none hmem ?_ ∅
  intro d
  rw [hget]
  exact load_recordsText hls d

/-- The input directory is the output directory. -/
theorem main_default {st : Statistics} {p : Text} (hp : p ≠ []) (names : List Text)
    {fs : Directories} {dir : Directory} (hdir : fs p = some dir) :
    main st [.input p] names fs =
      (recordListDict dir names).bind fun d =>
        (d.items.foldlM (handleSize st) ⟨dir, []⟩).map fun out =>
          Function.update fs p (some out.dir) := by
  have hlen : p.length ≠ 0 := fun h => hp (List.length_eq_zero_iff.mp h)
  have hargs : parseArgs [.input p] = some (p, p) := rfl
  rw [main, hargs]
  simp only [Option.bind_eq_bind, Option.bind_some, if_neg hlen, hdir, dumpInto_of_some hdir]

/-- Once there was a record, the script does not run on its own output. -/
theorem second_run_raises {st : Statistics} {p : Text} (hp : p ≠ []) {names names' : List Text}
    {fs fs' : Directories} {dir dir' : Directory} (hdir : fs p = some dir)
    {d : Dict Int (List DictRow)} (hd : recordListDict dir names = some d) (hne : d.items ≠ [])
    (henough : ∀ x ∈ d.items, Enough x.2) (h : main st [.input p] names fs = some fs')
    (hdir' : fs' p = some dir') (hnames' : Listed dir' names') :
    main st [.input p] names' fs' = none := by
  rw [main_default hp names hdir, hd, Option.bind_some, Option.map_eq_some_iff] at h
  obtain ⟨out, hfold, rfl⟩ := h
  obtain ⟨x, hx⟩ := List.exists_mem_of_ne_nil _ hne
  have hname := isReport_recordsFilename x.1 "report_send.csv".toList
  have hspoils : Spoils (recordsFilename x.1 "report_send.csv".toList) out.dir := by
    refine foldlM_reaches
      (P := fun out => Spoils (recordsFilename x.1 "report_send.csv".toList) out.dir)
      ?_ hx (fun _ _ hstep => spoils_handleSize (henough x hx) hstep) hfold
    intro y hy out out' hs hstep
    exact hs.handleSize hname (henough y hy) hstep
  have hout := hdir'
  rw [Function.update_self, Option.some.injEq] at hout
  rw [main_default hp names' hdir', recordListDict_of_spoils hnames' hname (hout ▸ hspoils)]
  rfl

/-! ## Directories of record files -/

/-- Each file is what the programs write for the given records. -/
def RecordDirectory (dir : Directory) (contents : Text → List TsEntry) : Prop :=
  ∀ name t, dir.get? name = some t → t = recordFile (contents name) ∧
    ∀ e ∈ contents name, e.record.Printable ∧ e.record.action.length ≤ fieldSizeLimit

/-- The records of the files that are read. -/
def consideredEntries (names : List Text) (contents : Text → List TsEntry) : List Entry :=
  ((considered names).map fun name => (contents name).map TsEntry.entry).flatten

/-- The messages of a size for which both actions were recorded. -/
def complete (es : List Entry) (n : Nat) (fst snd : Text) : List (Nat × Nat) :=
  ((es.filter fun x => (x.size = n ∧ x.action = fst) ∧
    ∃ y ∈ es, (y.size = n ∧ y.action = snd) ∧ x.uid = y.uid ∧ x.id = y.id).map
      fun x => (x.uid, x.id)).dedup

/-- Each size has five complete messages for each report. -/
def FivePairs (es : List Entry) : Prop :=
  ∀ x ∈ es, ∀ t ∈ target, 5 ≤ (complete es x.size t.fst t.snd).length

theorem fileHolds_of_mem {dir : Directory} {names : List Text} {contents : Text → List TsEntry}
    (hdir : RecordDirectory dir contents) (hnames : Listed dir names) {name : Text}
    (hname : name ∈ considered names) :
    FileHolds dir name ((contents name).map TsEntry.entry) := by
  obtain ⟨⟨name, t⟩, hmem, rfl⟩ := List.mem_map.mp (hnames.mem_iff.mp (List.mem_of_mem_filter hname))
  have hget := Dict.mem_items.mp hmem
  obtain ⟨rfl, hes⟩ := hdir name t hget
  refine ⟨_, hget, ?_⟩
  rw [rowsOf_recordFile (fun e he => (hes e he).1) (fun e he => (hes e he).2), List.map_map]
  rfl

theorem holding_considered {dir : Directory} {names : List Text} {contents : Text → List TsEntry}
    (hdir : RecordDirectory dir contents) (hnames : Listed dir names) :
    Holding dir names
      ((considered names).map fun name => (contents name).map TsEntry.entry) :=
  List.forall₂_map_right_iff.mpr
    (List.forall₂_same.mpr fun _ hname => fileHolds_of_mem hdir hnames hname)

/-- A message for which both actions were recorded has a latency. -/
theorem exists_keyed {es : List Entry} {n : Nat} {fst snd : Text} {k : Nat × Nat}
    (h : k ∈ complete es n fst snd) :
    ∃ ℓ, (dec k.1 ++ '_' :: dec k.2, ℓ) ∈ keyed (tableOf (ofSize es n)) fst snd := by
  have htime : ∀ {x : Entry}, x ∈ ofSize es n →
      ∃ t, (((tableOf (ofSize es n)).get? x.key).getD ∅).get? (some x.action) = some t := by
    intro x hx
    rw [Dict.getD_table]
    have hmem : x ∈ (ofSize es n).filter fun y => y.key = x.key ∧ some y.action = some x.action :=
      List.mem_filter.mpr ⟨hx, decide_eq_true ⟨rfl, rfl⟩⟩
    exact ⟨_, congrArg _ (List.getLast?_eq_some_getLast (List.ne_nil_of_mem hmem))⟩
  obtain ⟨x, hx, rfl⟩ := List.mem_map.mp (List.mem_dedup.mp h)
  obtain ⟨hxes, hdec⟩ := List.mem_filter.mp hx
  obtain ⟨⟨hxn, rfl⟩, y, hyes, ⟨hyn, rfl⟩, huid, hid⟩ := of_decide_eq_true hdec
  obtain ⟨b, hb⟩ := htime (mem_ofSize.mpr ⟨hxes, by rw [hxn]⟩)
  obtain ⟨e, he⟩ := htime (mem_ofSize.mpr ⟨hyes, by rw [hyn]⟩)
  rw [← Entry.key_inj.mpr ⟨huid, hid⟩] at he
  exact ⟨_, mem_keyed.mpr (calItem_iff.mpr ⟨b, e, hb, he, rfl⟩)⟩

/-- There are at least as many latencies as complete messages. -/
theorem length_complete_le (es : List Entry) (n : Nat) (fst snd : Text) :
    (complete es n fst snd).length ≤ (calLatency (tableOf (ofSize es n)) fst snd).length := by
  have hinj : Function.Injective fun k : Nat × Nat => dec k.1 ++ '_' :: dec k.2 := by
    intro k k' hk
    rw [List.append_cons_inj_of_notMem (Decimal.underscore_notMem_dec k.1)
      (Decimal.underscore_notMem_dec k.2)] at hk
    obtain ⟨huid, _, hid⟩ := hk
    exact Prod.ext (Decimal.dec_injective huid) (Decimal.dec_injective hid)
  have hnodup : ((complete es n fst snd).map fun k => dec k.1 ++ '_' :: dec k.2).Nodup :=
    (List.nodup_dedup _).map hinj
  have hsub : ((complete es n fst snd).map fun k => dec k.1 ++ '_' :: dec k.2) ⊆
      (keyed (tableOf (ofSize es n)) fst snd).map Prod.fst := by
    intro t ht
    obtain ⟨k, hk, rfl⟩ := List.mem_map.mp ht
    obtain ⟨ℓ, hℓ⟩ := exists_keyed hk
    exact List.mem_map.mpr ⟨_, hℓ, rfl⟩
  have hlen := (List.subperm_of_subset hnodup hsub).length_le
  rw [List.length_map, List.length_map] at hlen
  rw [← map_snd_keyed, List.length_map]
  exact hlen

theorem enough_of_fivePairs {es : List Entry} (h : FivePairs es) {x : Int × List DictRow}
    (hx : x ∈ (Dict.group rowSize ∅ (es.map Entry.row)).items) : Enough x.2 := by
  obtain ⟨⟨row, hrow, hn⟩, hrecords⟩ := Dict.of_mem_group hx
  obtain ⟨y, hy, rfl⟩ := List.mem_map.mp hrow
  rw [rowSize_row] at hn
  rw [filter_rowSize_map] at hrecords
  intro data hdata t ht
  rw [hrecords, recordDataDict_map] at hdata
  obtain rfl := Option.some.inj hdata
  rw [← hn]
  exact (h y hy t ht).trans (length_complete_le es y.size t.fst t.snd)

/-! ## Running twice -/

/-- The same lines, in any order. -/
def SameLines (t t' : Text) : Prop := (t.splitOn '\n').Perm (t'.splitOn '\n')

/-- The names of the files that the script writes. -/
def IsOutput (name : Text) : Prop :=
  ∃ t ∈ target, name = t.filename ∨ ∃ n, name = recordsFilename n t.filename

/-- The rows of the files that are read. -/
def consideredRows (dir : Directory) (names : List Text) : Option (List DictRow) :=
  ((considered names).mapM fun name => do rowsOf (← dir.get? name)).map List.flatten

/-- The script runs, and however the files are listed then it runs again, on the same
rows and with the same results. -/
def RunsTwice (st : Statistics) (p : Text) (names : List Text) (fs : Directories) : Prop :=
  ∃ fs' dir dir', main st [.input p] names fs = some fs' ∧ fs p = some dir ∧ fs' p = some dir' ∧
    ∀ names', Listed dir' names' →
      ∃ fs'', main st [.input p] names' fs' = some fs'' ∧
        (∃ rows rows', consideredRows dir names = some rows ∧
          consideredRows dir' names' = some rows' ∧ rows'.Perm rows) ∧
        ∀ name, IsOutput name → Option.Rel SameLines (fileAt fs' p name) (fileAt fs'' p name)

theorem considered_files {dir : Directory} {names : List Text} {contents : Text → List TsEntry}
    (hdir : RecordDirectory dir contents) (hnames : Listed dir names) :
    recordListDict dir names =
      some (Dict.group rowSize ∅ ((consideredEntries names contents).map Entry.row)) :=
  recordListDict_holding (holding_considered hdir hnames)

theorem considered_nil {names : List Text} {contents : Text → List TsEntry} :
    consideredEntries names contents = [] ↔ ∀ name ∈ considered names, contents name = [] := by
  rw [consideredEntries, List.flatten_eq_nil_iff, List.forall_mem_map]
  simp only [List.map_eq_nil_iff]

/-- Without records the script reads nothing and writes nothing. -/
theorem main_of_no_records {st : Statistics} {p : Text} (hp : p ≠ []) {names : List Text}
    {fs : Directories} {dir : Directory} (hfs : fs p = some dir)
    {contents : Text → List TsEntry} (hdir : RecordDirectory dir contents)
    (hnames : Listed dir names) (hnone : ∀ name ∈ considered names, contents name = []) :
    main st [.input p] names fs = some fs := by
  rw [main_default hp names hfs, considered_files hdir hnames, considered_nil.mpr hnone]
  exact congrArg some ((congrArg _ hfs.symm).trans (Function.update_eq_self p fs))

theorem consideredRows_eq {dir : Directory} {names : List Text}
    {contents : Text → List TsEntry} (hdir : RecordDirectory dir contents)
    (hnames : Listed dir names) :
    consideredRows dir names = some ((consideredEntries names contents).map Entry.row) := by
  have hfiles : (considered names).mapM (fun name => do rowsOf (← dir.get? name)) =
      some ((considered names).map fun name =>
        ((contents name).map TsEntry.entry).map Entry.row) := by
    refine mapM_eq_some ?_
    intro name hname
    obtain ⟨t, ht, hrows⟩ := fileHolds_of_mem hdir hnames hname
    rw [ht]
    exact hrows
  rw [consideredRows, hfiles, Option.map_some, consideredEntries, List.map_flatten, List.map_map]
  rfl

theorem items_ne_nil {es : List Entry} (h : es ≠ []) :
    (Dict.group rowSize ∅ (es.map Entry.row)).items ≠ [] := by
  intro hnil
  obtain ⟨x, hx⟩ := List.exists_mem_of_ne_nil _ h
  have hget : (Dict.group rowSize ∅ (es.map Entry.row)).get? x.size = none := by
    rw [Dict.get?, hnil]
    rfl
  exact (Dict.get?_group_eq_none _ _ _).mp hget _ (List.mem_map_of_mem hx) (rowSize_row x)

/-- The script can be run twice if and only if it has no record to read. -/
theorem rerun_iff_no_records {st : Statistics} {p : Text} (hp : p ≠ []) {names : List Text}
    {fs : Directories} {dir : Directory} (hfs : fs p = some dir)
    {contents : Text → List TsEntry} (hdir : RecordDirectory dir contents)
    (hnames : Listed dir names) (hfive : FivePairs (consideredEntries names contents)) :
    RunsTwice st p names fs ↔ ∀ name ∈ considered names, contents name = [] := by
  constructor
  · rintro ⟨fs', dir₁, dir', hmain, _, hfs', hagain⟩
    by_contra hsome
    rw [← considered_nil] at hsome
    obtain ⟨fs'', hmain', _⟩ := hagain _ (List.Perm.refl _)
    have hraises := second_run_raises hp hfs (considered_files hdir hnames)
      (items_ne_nil hsome) (fun x hx => enough_of_fivePairs hfive hx) hmain hfs' (List.Perm.refl _)
    rw [hraises] at hmain'
    exact nomatch hmain'
  · intro hnone
    have hmain : main st [.input p] names fs = some fs :=
      main_of_no_records hp hfs hdir hnames hnone
    refine ⟨fs, dir, dir, hmain, hfs, hfs, ?_⟩
    intro names' hnames'
    have hnone' : ∀ name ∈ considered names', contents name = [] := by
      intro name hname
      obtain ⟨hmem, hreport⟩ := List.mem_filter.mp hname
      exact hnone name (List.mem_filter.mpr
        ⟨hnames.mem_iff.mpr (hnames'.mem_iff.mp hmem), hreport⟩)
    refine ⟨fs, main_of_no_records hp hfs hdir hnames' hnone',
      ⟨[], [], ?_, ?_, List.Perm.refl _⟩, ?_⟩
    · rw [consideredRows_eq hdir hnames, considered_nil.mpr hnone, List.map_nil]
    · rw [consideredRows_eq hdir hnames', considered_nil.mpr hnone', List.map_nil]
    · intro name _
      cases fileAt fs p name with
      | none => exact Option.Rel.none
      | some t => exact Option.Rel.some (List.Perm.refl _)

/-! ## The first run -/

theorem dumpTarget_isSome {st : Statistics} (hst : st.Indexes) (n : Int) {data : Dict Text Times}
    {t : Target} (h : 5 ≤ (calLatency data t.fst t.snd).length) (out : Output) :
    (dumpTarget st n data out t).isSome := by
  obtain ⟨result, hresult⟩ := Option.isSome_iff_exists.mp (dumpStatisticsResult_isSome hst n h)
  rw [dumpTarget, hresult]
  rfl

/-- The first run raises no exception. -/
theorem first_run_succeeds {st : Statistics} (hst : st.Indexes) {p : Text} (hp : p ≠ [])
    {names : List Text} {fs : Directories} {dir : Directory} (hfs : fs p = some dir)
    {contents : Text → List TsEntry} (hdir : RecordDirectory dir contents)
    (hnames : Listed dir names) (hfive : FivePairs (consideredEntries names contents)) :
    ∃ fs' dir', main st [.input p] names fs = some fs' ∧ fs' p = some dir' := by
  have hsizes : ∀ x ∈ (Dict.group rowSize ∅
      ((consideredEntries names contents).map Entry.row)).items, ∀ out : Output,
      (handleSize st out x).isSome := by
    intro x hx out
    have henough := enough_of_fivePairs hfive hx
    obtain ⟨_, hrecords⟩ := Dict.of_mem_group hx
    rw [filter_rowSize_map] at hrecords
    have hdata := recordDataDict_map (ofSize (consideredEntries names contents) x.1)
    rw [ofSize, ← hrecords] at hdata
    rw [handleSize, hdata]
    exact foldlM_isSome (fun t ht out => dumpTarget_isSome hst x.1 (henough _ hdata t ht) out) out
  obtain ⟨out, hout⟩ := Option.isSome_iff_exists.mp (foldlM_isSome hsizes ⟨dir, []⟩)
  rw [main_default hp names hfs, considered_files hdir hnames, Option.bind_some, hout]
  exact ⟨_, _, rfl, Function.update_self ..⟩

/-! ## Five messages -/

/-- The functions of a report, without rounding errors. -/
def exactStatistics : Statistics where
  mean ls := ls.sum.tdiv ls.length
  pstdev ls :=
    Nat.sqrt (((ls.map (· ^ 2)).sum * ls.length - ls.sum ^ 2).toNat / ls.length ^ 2)
  index q n := roundHalfEven (q * n) 100

theorem exactStatistics_indexes : exactStatistics.Indexes := indexes_exact

/-- The records of a message that was sent and received. -/
def messageEntries (id : UInt32) : List TsEntry :=
  [⟨7, ⟨1718755200, 5, 0, id, 64, "client.snd_begin".toList⟩⟩,
    ⟨7, ⟨1718755200, 9, 0, id, 64, "client.snd_end".toList⟩⟩,
    ⟨8, ⟨1718755200, 17, 0, id, 64, "upstream.rcv".toList⟩⟩]

def fiveMessages : List TsEntry := ([0, 1, 2, 3, 4] : List UInt32).flatMap messageEntries

/-- One record file. -/
def fiveMessagesDir : Directory := (∅ : Directory).set "all.csv".toList (recordFile fiveMessages)

def fiveMessagesSystem : Directories := fun _ => some fiveMessagesDir

def recordsPath : Text := "records".toList

def fiveMessagesNames : List Text := ["all.csv".toList]

theorem fiveMessages_printable :
    ∀ e ∈ fiveMessages, e.record.Printable ∧ e.record.action.length ≤ fieldSizeLimit := by
  decide +kernel

theorem fiveMessages_directory : RecordDirectory fiveMessagesDir fun _ => fiveMessages := by
  intro name t ht
  rw [fiveMessagesDir, Dict.get?_set] at ht
  split at ht
  · exact ⟨(Option.some.inj ht).symm, fiveMessages_printable⟩
  · cases ht

theorem fiveMessages_pairs :
    FivePairs (consideredEntries fiveMessagesNames fun _ => fiveMessages) := by
  unfold FivePairs
  decide +kernel

theorem fiveMessages_dir : fiveMessagesSystem recordsPath = some fiveMessagesDir := rfl

theorem fiveMessages_listed : Listed fiveMessagesDir fiveMessagesNames := List.Perm.refl _

theorem rerun_iff_no_records_five_messages :
    RunsTwice exactStatistics recordsPath fiveMessagesNames fiveMessagesSystem ↔
      ∀ name ∈ considered fiveMessagesNames, fiveMessages = [] :=
  rerun_iff_no_records (List.cons_ne_nil _ _) fiveMessages_dir fiveMessages_directory
    fiveMessages_listed fiveMessages_pairs

/-- The first run succeeds, the second one raises an exception. -/
theorem second_run_raises_five_messages :
    (∃ fs' dir', main exactStatistics [.input recordsPath] fiveMessagesNames fiveMessagesSystem =
        some fs' ∧ fs' recordsPath = some dir' ∧
      ∀ names', Listed dir' names' →
        main exactStatistics [.input recordsPath] names' fs' = none) ∧
      ¬ RunsTwice exactStatistics recordsPath fiveMessagesNames fiveMessagesSystem := by
  have hp : recordsPath ≠ [] := List.cons_ne_nil _ _
  obtain ⟨fs', dir', hmain, hdir'⟩ := first_run_succeeds exactStatistics_indexes hp
    fiveMessages_dir fiveMessages_directory fiveMessages_listed fiveMessages_pairs
  have hne : consideredEntries fiveMessagesNames (fun _ => fiveMessages) ≠ [] :=
    List.cons_ne_nil _ _
  have hraises : ∀ names', Listed dir' names' →
      main exactStatistics [.input recordsPath] names' fs' = none := fun names' hnames' =>
    second_run_raises hp fiveMessages_dir (considered_files fiveMessages_directory fiveMessages_listed)
      (items_ne_nil hne) (fun x hx => enough_of_fivePairs fiveMessages_pairs hx) hmain hdir' hnames'
  refine ⟨⟨fs', dir', hmain, hdir', hraises⟩, ?_⟩
  rintro ⟨fs₁, _, dir₁, hmain₁, _, hdir₁, hagain⟩
  obtain rfl := Option.some.inj (hmain.symm.trans hmain₁)
  obtain rfl := Option.some.inj (hdir'.symm.trans hdir₁)
  obtain ⟨fs₂, hmain₂, _⟩ := hagain _ (List.Perm.refl _)
  rw [hraises _ (List.Perm.refl _)] at hmain₂
  exact nomatch hmain₂

end NetBench.Script

/-
# `NetBench.RecordRoundTrip` — the script loads what the programs recorded

The writer and the loader agree on the line of column names, on the order of the fields
and on decimal numerals.  An action without comma, quote and line break is printed and
read as it is, up to the size that the `csv` module allows a field:

    for each size the loader has the records of that size, in writing
    order over all runs                              (`record_files_round_trip`)
    an action that is longer makes the loader fail   (`long_action_raises`)
-/
import NetBench.RecordFile
import NetBench.ScriptLoops

namespace NetBench

open Lib Lib.Csv Script

/-! ## Records that the format can carry -/

/-- A time after the epoch, and an action that needs no quotes. -/
structure NbTsRecord.Printable (r : NbTsRecord) : Prop where
  sec_nonneg : 0 ≤ r.tvSec.toInt
  nsec_nonneg : 0 ≤ r.tvNsec.toInt
  nsec_lt : r.tvNsec.toInt < 1000000000
  plain : ∀ c ∈ r.action, c ≠ ',' ∧ c ≠ '"' ∧ c ≠ '\n' ∧ c ≠ '\r'

instance (r : NbTsRecord) : Decidable r.Printable :=
  decidable_of_iff ((0 ≤ r.tvSec.toInt ∧ 0 ≤ r.tvNsec.toInt ∧ r.tvNsec.toInt < 1000000000) ∧
      r.action.all fun c => decide (c ≠ ',' ∧ c ≠ '"' ∧ c ≠ '\n' ∧ c ≠ '\r'))
    ⟨fun h => ⟨h.1.1, h.1.2.1, h.1.2.2,
        fun c hc => of_decide_eq_true (List.all_eq_true.mp h.2 c hc)⟩,
      fun h => ⟨⟨h.sec_nonneg, h.nsec_nonneg, h.nsec_lt⟩,
        List.all_eq_true.mpr fun c hc => decide_eq_true (h.plain c hc)⟩⟩

/-- What is read of a record. -/
def TsEntry.entry (e : TsEntry) : Entry where
  tid := dec e.tid.toNat
  sec := e.record.tvSec.toUInt64.toNat
  nsec := e.record.tvNsec.toUInt64.toNat
  uid := e.record.userId.toNat
  id := e.record.id.toNat
  size := e.record.msgSize.toNat
  action := e.record.action

/-- A field is the numeral of a 64-bit number, or the action. -/
theorem TsEntry.mem_fields {e : TsEntry} {f : Text} (h : f ∈ e.fields) :
    (∃ n < 2 ^ 64, f = dec n) ∨ f = e.record.action := by
  have h32 : ∀ x : UInt32, x.toNat < 2 ^ 64 := fun x => x.toNat_lt.trans (by decide)
  simp only [fields, List.mem_cons, List.not_mem_nil, or_false] at h
  rcases h with h | h | h | h | h | h | h
  · exact Or.inl ⟨_, e.tid.toNat_lt, h⟩
  · exact Or.inl ⟨_, e.record.tvSec.toUInt64.toNat_lt, h⟩
  · exact Or.inl ⟨_, e.record.tvNsec.toUInt64.toNat_lt, h⟩
  · exact Or.inl ⟨_, h32 _, h⟩
  · exact Or.inl ⟨_, h32 _, h⟩
  · exact Or.inl ⟨_, h32 _, h⟩
  · exact Or.inr h

theorem special_notMem_dec {c : Char} {n : Nat} (h : c ∈ dec n) :
    c ≠ ',' ∧ c ≠ '"' ∧ c ≠ '\n' ∧ c ≠ '\r' := by
  have hdigit : c.isDigit := Decimal.isDigit_of_mem_dec h
  refine ⟨?_, ?_, ?_, ?_⟩ <;> rintro rfl <;> exact absurd hdigit (by decide)

theorem NbTsRecord.Printable.field {e : TsEntry} (he : e.record.Printable) {f : Text}
    (hf : f ∈ e.fields) {c : Char} (hc : c ∈ f) : c ≠ ',' ∧ c ≠ '"' ∧ c ≠ '\n' ∧ c ≠ '\r' := by
  rcases TsEntry.mem_fields hf with ⟨n, _, rfl⟩ | rfl
  · exact special_notMem_dec hc
  · exact he.plain c hc

theorem NbTsRecord.Printable.plainField {e : TsEntry} (he : e.record.Printable) {f : Text}
    (hf : f ∈ e.fields) : Plain f := by
  intro c hc
  obtain ⟨hcomma, hquote, hnl, _⟩ := he.field hf hc
  exact ⟨hcomma, hquote, hnl⟩

theorem length_field_le {e : TsEntry} (hlen : e.record.action.length ≤ fieldSizeLimit) {f : Text}
    (hf : f ∈ e.fields) : f.length ≤ fieldSizeLimit := by
  rcases TsEntry.mem_fields hf with ⟨n, hn, rfl⟩ | rfl
  · have hdec : (dec n).length ≤ 20 :=
      Decimal.length_dec_le (by omega) (hn.trans (by decide))
    exact hdec.trans (by decide)
  · exact hlen

/-! ## Records of a file -/

theorem recordHead_eq : recordHead = Csv.line "tid".toList columns.tail := rfl

theorem cr_notMem_recordFile {es : List TsEntry} (hes : ∀ e ∈ es, e.record.Printable) :
    '\r' ∉ recordFile es := by
  intro h
  rcases List.mem_append.mp h with h | h
  · exact absurd h (by decide)
  · obtain ⟨t, ht, hc⟩ := List.mem_flatten.mp h
    obtain ⟨e, he, rfl⟩ := List.mem_map.mp ht
    rcases mem_line hc with hc | hc | ⟨f, hf, hc⟩
    · exact absurd hc (by decide)
    · exact absurd hc (by decide)
    · obtain ⟨_, _, _, hcr⟩ := (hes e he).field hf hc
      exact hcr rfl

/-- The line of an entry is one row. -/
theorem records_line {e : TsEntry} (he : e.record.Printable)
    (hlen : e.record.action.length ≤ fieldSizeLimit) (t : Text) :
    records fieldSizeLimit (e.line ++ t) = (records fieldSizeLimit t).map (e.fields :: ·) :=
  read_line (fun _ hg => ⟨he.plainField hg, length_field_le hlen hg⟩) (Decimal.dec_ne_nil _) t

theorem records_recordLines {es : List TsEntry} (hes : ∀ e ∈ es, e.record.Printable)
    (hlen : ∀ e ∈ es, e.record.action.length ≤ fieldSizeLimit) :
    records fieldSizeLimit (recordLines es) = some (es.map TsEntry.fields) := by
  induction es with
  | nil => rfl
  | cons e es ih =>
      have he := hes e List.mem_cons_self
      have helen := hlen e List.mem_cons_self
      have hrest := ih (fun x hx => hes x (List.mem_cons_of_mem _ hx))
        (fun x hx => hlen x (List.mem_cons_of_mem _ hx))
      have hline := records_line he helen (recordLines es)
      rw [hrest] at hline
      exact hline

theorem records_recordHead (t : Text) :
    records fieldSizeLimit (recordHead ++ t) =
      (records fieldSizeLimit t).map (columns :: ·) := by
  rw [recordHead_eq]
  exact read_line (by decide) (by decide) t

/-- The first line is the header, and each other line is a row. -/
theorem rowsOf_recordFile {es : List TsEntry} (hes : ∀ e ∈ es, e.record.Printable)
    (hlen : ∀ e ∈ es, e.record.action.length ≤ fieldSizeLimit) :
    rowsOf (recordFile es) = some (es.map fun e => e.entry.row) := by
  rw [rowsOf, universalNewlines_of_notMem (cr_notMem_recordFile hes), recordFile,
    records_recordHead, records_recordLines hes hlen]
  refine congrArg some ?_
  have hfilter : (es.map TsEntry.fields).filter (· ≠ []) = es.map TsEntry.fields := by
    rw [List.filter_eq_self]
    intro fs hfs
    obtain ⟨e, _, rfl⟩ := List.mem_map.mp hfs
    rfl
  rw [dictReader, hfilter, List.map_map]
  rfl

/-! ## The round trip -/

theorem toNat_of_nonneg {x : Int64} (hx : 0 ≤ x.toInt) : (x.toUInt64.toNat : Int) = x.toInt := by
  have hle : 0 ≤ x := Int64.le_iff_toInt_le.mpr hx
  rw [Int64.toNat_toUInt64_of_le hle]
  exact Int.toNat_of_nonneg hx

/-- The row gives back what was recorded. -/
structure Holds (row : DictRow) (r : NbTsRecord) : Prop where
  sec : intField row "sec".toList = some r.tvSec.toInt
  nsec : intField row "nsec".toList = some r.tvNsec.toInt
  uid : intField row "uid".toList = some (r.userId.toNat : Int)
  id : intField row "id".toList = some (r.id.toNat : Int)
  size : intField row "size".toList = some (r.msgSize.toNat : Int)
  action : row.get? "action".toList = some (some r.action)

theorem holds_row {e : TsEntry} (he : e.record.Printable) : Holds e.entry.row e.record where
  sec := (intField_dec e.entry.row_sec).trans (congrArg some (toNat_of_nonneg he.sec_nonneg))
  nsec := (intField_dec e.entry.row_nsec).trans (congrArg some (toNat_of_nonneg he.nsec_nonneg))
  uid := intField_dec e.entry.row_uid
  id := intField_dec e.entry.row_id
  size := intField_dec e.entry.row_size
  action := e.entry.row_action

theorem loadRecordListDict_recordFile {es : List TsEntry} (hes : ∀ e ∈ es, e.record.Printable)
    (hlen : ∀ e ∈ es, e.record.action.length ≤ fieldSizeLimit) (d : Dict Int (List DictRow)) :
    Script.loadRecordListDict d (recordFile es) =
      some (Dict.group rowSize d (es.map fun e => e.entry.row)) := by
  have hmap : (es.map fun e => e.entry.row) = (es.map TsEntry.entry).map Entry.row := by
    rw [List.map_map]
    rfl
  rw [hmap]
  exact loadRecordListDict_rows (hmap ▸ rowsOf_recordFile hes hlen) d

/-- The rows of a size, against the records of that size. -/
theorem filter_rows (es : List TsEntry) (n : Int) :
    ((es.map fun e => e.entry.row).filter fun row => rowSize row = n) =
      (es.filter fun e => (e.record.msgSize.toNat : Int) = n).map fun e => e.entry.row := by
  rw [List.filter_map]
  congr 2
  funext e
  rw [Function.comp_apply, rowSize_row]
  rfl

/-- After any number of runs the loader has, for each size, the records of that size, in
writing order. -/
theorem record_files_round_trip {filepath : Text} {runs : List ProgramRun} {fs fs' : FileSystem}
    (hnew : fs.has filepath = false) (hne : runs ≠ [])
    (hes : ∀ e ∈ allEntries runs, e.record.Printable)
    (hlen : ∀ e ∈ allEntries runs, e.record.action.length ≤ fieldSizeLimit)
    (h : programRuns filepath runs fs = some fs') :
    ∃ file d, fs'.files filepath = some file ∧ Script.loadRecordListDict ∅ file = some d ∧
      ∀ n : Int,
        List.Forall₂ Holds ((d.get? n).getD [])
          (((allEntries runs).map TsEntry.record).filter fun r => (r.msgSize.toNat : Int) = n) ∧
        (d.get? n = none ↔ ∀ e ∈ allEntries runs, (e.record.msgSize.toNat : Int) ≠ n) := by
  refine ⟨_, _, files_programRuns h hnew hne, loadRecordListDict_recordFile hes hlen ∅, ?_⟩
  intro n
  constructor
  · rw [Dict.getD_group, filter_rows, List.filter_map, List.forall₂_map_left_iff,
      List.forall₂_map_right_iff]
    refine List.forall₂_same.mpr ?_
    intro e he
    exact holds_row (hes e (List.mem_of_mem_filter he))
  · rw [Dict.get?_group_eq_none, List.forall_mem_map]
    constructor
    · intro hsize e he
      have hrow := hsize e he
      rw [rowSize_row] at hrow
      exact hrow
    · intro hsize e he
      rw [rowSize_row]
      exact hsize e he

/-- The path of a record file, and a system that has its directory. -/
def samplePath : Text := "records/client.csv".toList

def sampleOs : Os := .working fun _ => some "records".toList

def sampleSystem : FileSystem := ⟨fun _ => none, fun path => path = "records".toList⟩

def sampleEntry (nsec : Int64) (action : String) : TsEntry :=
  ⟨7, ⟨1718755200, nsec, 0, 0, 64, action.toList⟩⟩

/-- A message is sent in one run and received in the next. -/
def sampleRuns : List ProgramRun :=
  [⟨sampleOs, [sampleEntry 5 "client.snd_begin", sampleEntry 9 "client.snd_end"]⟩,
    ⟨sampleOs, [sampleEntry 17 "upstream.rcv"]⟩]

theorem sampleRuns_printable : ∀ e ∈ allEntries sampleRuns,
    e.record.Printable ∧ e.record.action.length ≤ fieldSizeLimit := by
  intro e he
  have he : e ∈ [sampleEntry 5 "client.snd_begin", sampleEntry 9 "client.snd_end",
    sampleEntry 17 "upstream.rcv"] := he
  simp only [List.mem_cons, List.not_mem_nil, or_false] at he
  rcases he with rfl | rfl | rfl
  · exact ⟨by decide, by decide⟩
  · exact ⟨by decide, by decide⟩
  · exact ⟨by decide, by decide⟩

theorem record_files_round_trip_two_runs :
    ∃ fs', programRuns samplePath sampleRuns sampleSystem = some fs' ∧
      ∃ file d, fs'.files samplePath = some file ∧
        Script.loadRecordListDict ∅ file = some d ∧
        List.Forall₂ Holds ((d.get? 64).getD []) ((allEntries sampleRuns).map TsEntry.record) := by
  obtain ⟨fs', h⟩ : ∃ fs', programRuns samplePath sampleRuns sampleSystem = some fs' := ⟨_, rfl⟩
  have hne : sampleRuns ≠ [] := List.cons_ne_nil _ _
  obtain ⟨file, d, hfile, hload, hrows⟩ := record_files_round_trip rfl hne
    (fun e he => (sampleRuns_printable e he).1) (fun e he => (sampleRuns_printable e he).2) h
  exact ⟨fs', h, file, d, hfile, hload, (hrows 64).1⟩

/-! ## Long actions -/

theorem records_recordLines_of_long {es : List TsEntry} (hes : ∀ e ∈ es, e.record.Printable)
    (hlong : ∃ e ∈ es, fieldSizeLimit < e.record.action.length) :
    records fieldSizeLimit (recordLines es) = none := by
  induction es with
  | nil =>
      obtain ⟨e, he, _⟩ := hlong
      exact absurd he List.not_mem_nil
  | cons e es ih =>
      have he := hes e List.mem_cons_self
      by_cases helen : e.record.action.length ≤ fieldSizeLimit
      · have hrest := ih (fun x hx => hes x (List.mem_cons_of_mem _ hx)) (by
          obtain ⟨x, hx, hxlen⟩ := hlong
          rcases List.mem_cons.mp hx with rfl | hx
          · exact absurd hxlen (Nat.not_lt.mpr helen)
          · exact ⟨x, hx, hxlen⟩)
        have hline := records_line he helen (recordLines es)
        rw [hrest] at hline
        exact hline
      · exact read_line_of_long (fun g hg => he.plainField hg)
          ⟨e.record.action, by simp, Nat.not_le.mp helen⟩
          (Decimal.dec_ne_nil _) (recordLines es)

/-- One action beyond the limit of the `csv` module, and the whole file is not loaded. -/
theorem loadRecordListDict_of_long {es : List TsEntry} (hes : ∀ e ∈ es, e.record.Printable)
    (hlong : ∃ e ∈ es, fieldSizeLimit < e.record.action.length) (d : Dict Int (List DictRow)) :
    Script.loadRecordListDict d (recordFile es) = none := by
  rw [Script.loadRecordListDict, rowsOf, universalNewlines_of_notMem (cr_notMem_recordFile hes),
    recordFile, records_recordHead, records_recordLines_of_long hes hlong]
  rfl

def longEntry : TsEntry := ⟨7, ⟨1718755200, 5, 0, 0, 64, List.replicate (fieldSizeLimit + 1) 'a'⟩⟩

theorem longEntry_printable : longEntry.record.Printable where
  sec_nonneg := by decide
  nsec_nonneg := by decide
  nsec_lt := by decide
  plain := by
    intro c hc
    obtain rfl := List.eq_of_mem_replicate hc
    decide

theorem long_action_raises :
    sampleSystem.has samplePath = false ∧ longEntry.record.Printable ∧
      ∃ fs' file, programRuns samplePath [⟨sampleOs, [longEntry]⟩] sampleSystem = some fs' ∧
        fs'.files samplePath = some file ∧ Script.loadRecordListDict ∅ file = none := by
  obtain ⟨fs', h⟩ : ∃ fs', programRuns samplePath [⟨sampleOs, [longEntry]⟩] sampleSystem = some fs' :=
    ⟨_, rfl⟩
  refine ⟨rfl, longEntry_printable, fs', _, h,
    files_programRuns h rfl (List.cons_ne_nil _ _), loadRecordListDict_of_long ?_ ?_ ∅⟩
  · intro e he
    obtain rfl := List.mem_singleton.mp he
    exact longEntry_printable
  · refine ⟨longEntry, List.mem_singleton_self _, ?_⟩
    have hlen : longEntry.record.action.length = fieldSizeLimit + 1 := List.length_replicate
    omega

end NetBench

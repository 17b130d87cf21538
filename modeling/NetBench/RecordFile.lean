/-
# `NetBench.RecordFile` — the file that a program writes its records to

`record.c`: `nb_record_init` opens the file for appending and writes the line of column
names if the path did not exist before, `nb_ts_record_callback` prints a record as one
line.  Programs that are run one after the other with the same path append to the same
file.

    after some runs the file is the column names and then one line for each
    record, in writing order                                    (`files_programRuns`)
-/
import NetBench.Lib.Csv
import NetBench.Lib.Decimal
import NetBench.TcpClient
import Mathlib.Logic.Function.Basic

namespace NetBench

open Lib Lib.Csv

/-! ## Records -/

/-- `nb_ts_record_t`, with the text that `action` points to. -/
structure NbTsRecord where
  tvSec : Int64
  tvNsec : Int64
  userId : UInt32
  id : UInt32
  msgSize : UInt32
  action : Text
  deriving DecidableEq

/-- A record and the thread that made it. -/
structure TsEntry where
  tid : UInt64
  record : NbTsRecord
  deriving DecidableEq

/-- The fields of a line. -/
def TsEntry.fields (e : TsEntry) : List Text :=
  [dec e.tid.toNat, dec e.record.tvSec.toUInt64.toNat, dec e.record.tvNsec.toUInt64.toNat,
    dec e.record.userId.toNat, dec e.record.id.toNat, dec e.record.msgSize.toNat, e.record.action]

/-- What `fprintf` makes of `"%lu,%llu,%lu,%u,%u,%u,%s\n"`. -/
def TsEntry.line (e : TsEntry) : Text :=
  Csv.line (dec e.tid.toNat) e.fields.tail

/-- `"tid,sec,nsec,uid,id,size,action\n"`. -/
def recordHead : Text := "tid,sec,nsec,uid,id,size,action\n".toList

/-! ## Files -/

structure FileSystem where
  files : Text → Option Text
  dirs : Text → Bool

namespace FileSystem

/-- There is a file or a directory. -/
def has (fs : FileSystem) (path : Text) : Bool := (fs.files path).isSome || fs.dirs path

theorem has_of_files {fs : FileSystem} {path t : Text} (h : fs.files path = some t) :
    fs.has path = true := by
  rw [has, h]
  rfl

theorem has_eq_false_iff {fs : FileSystem} {path : Text} :
    fs.has path = false ↔ fs.files path = none ∧ fs.dirs path = false := by
  rw [has, Bool.or_eq_false_iff, Option.isSome_eq_false_iff, Option.isNone_iff_eq_none]

/-- Put a text behind what a file holds. -/
def append (fs : FileSystem) (path : Text) (t : Text) : FileSystem :=
  { fs with files := Function.update fs.files path ((fs.files path).map (· ++ t)) }

@[simp] theorem files_append (fs : FileSystem) (path t : Text) :
    (fs.append path t).files path = (fs.files path).map (· ++ t) := by
  simp [append]

end FileSystem

/-- What muggle and the C library return: `muggle_path_exists`, `muggle_path_dirname`,
whether `muggle_os_mkdir` makes a directory and whether `fopen` opens a file. -/
structure Os where
  pathExists : FileSystem → Text → Bool
  dirname : Text → Option Text
  mkdir : Text → Bool
  fopen : Text → Bool
  /-- `muggle_path_exists` finds what there is -/
  pathExists_eq : ∀ fs path, pathExists fs path = fs.has path

/-- All calls succeed. -/
def Os.working (dirname : Text → Option Text) : Os where
  pathExists fs path := fs.has path
  dirname := dirname
  mkdir _ := true
  fopen _ := true
  pathExists_eq _ _ := rfl

/-- The directory is made if it does not exist. -/
def ensureDir (os : Os) (dirpath : Text) (fs : FileSystem) : Option FileSystem :=
  if os.pathExists fs dirpath then some fs
  else if os.mkdir dirpath then some { fs with dirs := Function.update fs.dirs dirpath true }
  else none

/-- `nb_record_open_file`, or `none` where it returns `NULL`. -/
def nbRecordOpenFile (os : Os) (filepath : Text) (fs : FileSystem) : Option FileSystem := do
  let dirpath ← os.dirname filepath
  let fs ← ensureDir os dirpath fs
  if os.fopen filepath then
    some { fs with files := Function.update fs.files filepath ((fs.files filepath).getD []) }
  else none

/-- `nb_record_init`, or `none` where it returns `false`. -/
def nbRecordInit (os : Os) (filepath : Text) (fs : FileSystem) : Option FileSystem := do
  let needWriteHead := !os.pathExists fs filepath
  let fs ← nbRecordOpenFile os filepath fs
  some (if needWriteHead then fs.append filepath recordHead else fs)

/-- `nb_ts_record_callback`. -/
def nbTsRecordCallback (filepath : Text) (fs : FileSystem) (e : TsEntry) : FileSystem :=
  fs.append filepath e.line

/-- A run of a program: what the system answers, and the records that are made. -/
structure ProgramRun where
  os : Os
  entries : List TsEntry

/-- `nb_record_init`, and the callback for each record. -/
def ProgramRun.exec (filepath : Text) (fs : FileSystem) (run : ProgramRun) : Option FileSystem := do
  let fs ← nbRecordInit run.os filepath fs
  some (run.entries.foldl (nbTsRecordCallback filepath) fs)

/-- Runs one after the other. -/
def programRuns (filepath : Text) (runs : List ProgramRun) (fs : FileSystem) : Option FileSystem :=
  runs.foldlM (ProgramRun.exec filepath) fs

/-! ## What is in the file -/

/-- The lines of some records. -/
def recordLines (es : List TsEntry) : Text := (es.map TsEntry.line).flatten

/-- A file with some records. -/
def recordFile (es : List TsEntry) : Text := recordHead ++ recordLines es

theorem recordLines_append (es es' : List TsEntry) :
    recordLines (es ++ es') = recordLines es ++ recordLines es' := by
  rw [recordLines, List.map_append, List.flatten_append]
  rfl

theorem files_ensureDir {os : Os} {dirpath : Text} {fs fs' : FileSystem}
    (h : ensureDir os dirpath fs = some fs') : fs'.files = fs.files := by
  rw [ensureDir] at h
  split at h
  · rw [← Option.some.inj h]
  · split at h
    · rw [← Option.some.inj h]
    · exact nomatch h

/-- Opening a file for appending leaves its text as it is. -/
theorem files_nbRecordOpenFile {os : Os} {filepath : Text} {fs fs' : FileSystem}
    (h : nbRecordOpenFile os filepath fs = some fs') :
    fs'.files filepath = some ((fs.files filepath).getD []) := by
  simp only [nbRecordOpenFile, Option.bind_eq_bind, Option.bind_eq_some_iff] at h
  obtain ⟨dirpath, _, fs₁, hdir, hopen⟩ := h
  by_cases hfopen : os.fopen filepath
  · rw [if_pos hfopen] at hopen
    rw [← Option.some.inj hopen, files_ensureDir hdir]
    exact Function.update_self ..
  · rw [if_neg hfopen] at hopen
    exact nomatch hopen

theorem dirs_ensureDir {os : Os} {d : Text} {fs fs' : FileSystem}
    (h : ensureDir os d fs = some fs') {p : Text}
    (hp : fs'.dirs p = true) : fs.dirs p = true ∨ p = d := by
  rw [ensureDir] at h
  split at h
  · exact Or.inl (Option.some.inj h ▸ hp)
  · split at h
    · obtain rfl := Option.some.inj h
      by_cases hpd : p = d
      · exact Or.inr hpd
      · exact Or.inl ((Function.update_of_ne hpd _ _).symm.trans hp)
    · cases h

/-- An opening touches its file and the directory of it. -/
theorem nbRecordOpenFile_frame {os : Os} {path : Text} {fs fs' : FileSystem}
    (h : nbRecordOpenFile os path fs = some fs') :
    (∀ p, p ≠ path → fs'.files p = fs.files p) ∧
    ∀ p, fs'.dirs p = true → fs.dirs p = true ∨ os.dirname path = some p := by
  simp only [nbRecordOpenFile, Option.bind_eq_bind, Option.bind_eq_some_iff] at h
  obtain ⟨d, hd, fs₁, hdir, hopen⟩ := h
  split at hopen
  · obtain rfl := Option.some.inj hopen
    refine ⟨fun p hp => ?_, fun p hp => ?_⟩
    · rw [← files_ensureDir hdir]
      exact Function.update_of_ne hp _ _
    · rcases dirs_ensureDir hdir hp with hold | rfl
      · exact Or.inl hold
      · exact Or.inr hd
  · cases hopen

theorem files_append_ne {fs : FileSystem} {path t p : Text} (hp : p ≠ path) : (fs.append path t).files p = fs.files p :=
  Function.update_of_ne hp _ _

/-- The first run writes the column names. -/
theorem files_nbRecordInit_new {os : Os} {filepath : Text} {fs fs' : FileSystem}
    (h : nbRecordInit os filepath fs = some fs') (hnew : fs.has filepath = false) :
    fs'.files filepath = some recordHead := by
  simp only [nbRecordInit, Option.bind_eq_bind, Option.bind_eq_some_iff] at h
  obtain ⟨fs₁, hopen, hfs'⟩ := h
  rw [os.pathExists_eq, hnew, Bool.not_false, if_pos rfl] at hfs'
  rw [← Option.some.inj hfs', FileSystem.files_append, files_nbRecordOpenFile hopen,
    (FileSystem.has_eq_false_iff.mp hnew).1]
  rfl

/-- A later run writes nothing before its records. -/
theorem files_nbRecordInit_old {os : Os} {filepath t : Text} {fs fs' : FileSystem}
    (h : nbRecordInit os filepath fs = some fs') (hold : fs.files filepath = some t) :
    fs'.files filepath = some t := by
  simp only [nbRecordInit, Option.bind_eq_bind, Option.bind_eq_some_iff] at h
  obtain ⟨fs₁, hopen, hfs'⟩ := h
  rw [os.pathExists_eq, FileSystem.has_of_files hold, Bool.not_true, if_neg Bool.false_ne_true] at hfs'
  rw [← Option.some.inj hfs', files_nbRecordOpenFile hopen, hold]
  rfl

theorem files_callbacks {filepath t : Text} {fs : FileSystem} (h : fs.files filepath = some t)
    (es : List TsEntry) :
    (es.foldl (nbTsRecordCallback filepath) fs).files filepath = some (t ++ recordLines es) := by
  induction es generalizing fs t with
  | nil =>
      rw [recordLines, List.map_nil, List.flatten_nil, List.append_nil]
      exact h
  | cons e es ih =>
      have hstep : (nbTsRecordCallback filepath fs e).files filepath = some (t ++ e.line) := by
        rw [nbTsRecordCallback, FileSystem.files_append, h]
        rfl
      have hrest := ih hstep
      rw [List.append_assoc] at hrest
      exact hrest

/-- The records of all runs. -/
def allEntries (runs : List ProgramRun) : List TsEntry := runs.flatMap ProgramRun.entries

theorem files_laterRuns {filepath t : Text} {runs : List ProgramRun} {fs fs' : FileSystem}
    (h : programRuns filepath runs fs = some fs') (hold : fs.files filepath = some t) :
    fs'.files filepath = some (t ++ recordLines (allEntries runs)) := by
  induction runs generalizing fs t with
  | nil =>
      obtain rfl := Option.some.inj h
      rw [hold]
      exact congrArg some (List.append_nil t).symm
  | cons run runs ih =>
      rw [programRuns, List.foldlM_cons, Option.bind_eq_bind, Option.bind_eq_some_iff] at h
      obtain ⟨fs₁, hrun, hrest⟩ := h
      simp only [ProgramRun.exec, Option.bind_eq_bind, Option.bind_eq_some_iff] at hrun
      obtain ⟨fs₂, hinit, hfs₁⟩ := hrun
      have hwritten : fs₁.files filepath = some (t ++ recordLines run.entries) := by
        rw [← Option.some.inj hfs₁]
        exact files_callbacks (files_nbRecordInit_old hinit hold) run.entries
      rw [ih hrest hwritten, List.append_assoc, ← recordLines_append]
      rfl

/-- The column names stand at the beginning, and only there. -/
theorem files_programRuns {filepath : Text} {runs : List ProgramRun} {fs fs' : FileSystem}
    (h : programRuns filepath runs fs = some fs') (hnew : fs.has filepath = false)
    (hne : runs ≠ []) :
    fs'.files filepath = some (recordFile (allEntries runs)) := by
  obtain ⟨run, runs, rfl⟩ := List.exists_cons_of_ne_nil hne
  rw [programRuns, List.foldlM_cons, Option.bind_eq_bind, Option.bind_eq_some_iff] at h
  obtain ⟨fs₁, hrun, hrest⟩ := h
  simp only [ProgramRun.exec, Option.bind_eq_bind, Option.bind_eq_some_iff] at hrun
  obtain ⟨fs₂, hinit, hfs₁⟩ := hrun
  have hwritten : fs₁.files filepath = some (recordHead ++ recordLines run.entries) := by
    rw [← Option.some.inj hfs₁]
    exact files_callbacks (files_nbRecordInit_new hinit hnew) run.entries
  rw [files_laterRuns hrest hwritten, List.append_assoc, ← recordLines_append]
  rfl

end NetBench

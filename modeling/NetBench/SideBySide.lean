/-
# `NetBench.SideBySide` — the record files of programs that run side by side

Programs that are started without a record path share the directory `records`.  Here
the calls of `nb_record_init` are taken apart, so that the programs can move between
the test whether the path exists, the opening of the file and the line of column names:

    start → checked need → opened need → up          (`nb_record_init`)
                        ↘ failed

`need` is the variable `need_write_head`.  The logs are written in between, by threads of
their own.  Programs that differ in their name or in the second of their start never share a
file, whatever the order of their steps; the file of each is the column names and then its
records (`record_files_of_run`).
-/
import NetBench.Startup
import NetBench.Lib.Run

namespace NetBench

open Lib Lib.Csv

/-! ## The programs -/

inductive Stage where
  | start
  /-- `need_write_head` is set -/
  | checked (need : Bool)
  /-- `ctx->fp` is set -/
  | opened (need : Bool)
  | up
  /-- `nb_record_init` has returned `false` -/
  | failed
  deriving DecidableEq, Repr

/-- The file system and the programs `ι`; `written` are the records of each so far. -/
structure SideBySide (ι : Type) where
  fs : FileSystem
  stage : ι → Stage
  written : ι → List TsEntry

inductive FileEvent (ι : Type) where
  | check (i : ι) (os : Os)
  | openFile (i : ι) (os : Os)
  | fail (i : ι) (os : Os)
  | head (i : ι)
  | entry (i : ι) (e : TsEntry)
  | log

/-- `muggle_path_dirname` returns what stands before the last slash. -/
def Os.Dirnames (os : Os) : Prop :=
  ∀ dir file : Text, '/' ∉ file → os.dirname (dir ++ '/' :: file) = some dir

/-- The system calls of an event satisfy `P`. -/
def FileEvent.Calls {ι : Type} (P : Os → Prop) : FileEvent ι → Prop
  | .check _ os => P os
  | .openFile _ os => P os
  | .fail _ os => P os
  | _ => True

theorem FileEvent.Calls.imp {ι : Type} {P Q : Os → Prop} (hPQ : ∀ os, P os → Q os)
    {e : FileEvent ι} (h : e.Calls P) : e.Calls Q := by
  cases e with
  | check i os => exact hPQ os h
  | openFile i os => exact hPQ os h
  | fail i os => exact hPQ os h
  | head | entry | log => trivial

namespace SideBySide

variable {ι : Type} [DecidableEq ι] (path : ι → Text) (logs : Set Text)

def start (fs : FileSystem) : SideBySide ι := ⟨fs, fun _ => .start, fun _ => []⟩

/-- The steps of the programs, each with its path.  A call of `nb_record_open_file` that
fails can have made the directory.  Of the logs it is known which files and directories they
are. -/
inductive Step : SideBySide ι → FileEvent ι → SideBySide ι → Prop
  | check {x : SideBySide ι} {i : ι} {os : Os} (hi : x.stage i = .start) :
      Step x (.check i os)
        { x with stage := Function.update x.stage i (.checked (!os.pathExists x.fs (path i))) }
  | openFile {x : SideBySide ι} {i : ι} {os : Os} {need : Bool} {fs : FileSystem}
      (hi : x.stage i = .checked need) (hopen : nbRecordOpenFile os (path i) x.fs = some fs) :
      Step x (.openFile i os)
        { x with fs := fs, stage := Function.update x.stage i (.opened need) }
  | fail {x : SideBySide ι} {i : ι} {os : Os} {need : Bool} {fs : FileSystem}
      (hi : x.stage i = .checked need) (hopen : nbRecordOpenFile os (path i) x.fs = none)
      (hfs : fs = x.fs ∨ ∃ d, os.dirname (path i) = some d ∧ ensureDir os d x.fs = some fs) :
      Step x (.fail i os) { x with fs := fs, stage := Function.update x.stage i .failed }
  | head {x : SideBySide ι} {i : ι} {need : Bool} (hi : x.stage i = .opened need) :
      Step x (.head i)
        { x with
          fs := if need then x.fs.append (path i) recordHead else x.fs
          stage := Function.update x.stage i .up }
  | entry {x : SideBySide ι} {i : ι} {e : TsEntry} (hi : x.stage i = .up) :
      Step x (.entry i e)
        { x with
          fs := nbTsRecordCallback (path i) x.fs e
          written := Function.update x.written i (x.written i ++ [e]) }
  | log {x : SideBySide ι} {fs : FileSystem} (hfiles : ∀ p ∉ logs, fs.files p = x.fs.files p)
      (hdirs : ∀ p ∉ logs, fs.dirs p = x.fs.dirs p) : Step x .log { x with fs := fs }

variable {path} {logs}

/-- A program that is not interrupted does what `nb_record_init` does. -/
theorem run_nbRecordInit {x : SideBySide ι} {i : ι} {os : Os} {fs : FileSystem}
    (hi : x.stage i = .start) (h : nbRecordInit os (path i) x.fs = some fs) :
    ∃ y, Run (Step path logs) x [.check i os, .openFile i os, .head i] y ∧ y.fs = fs ∧
      y.stage i = .up ∧ y.written = x.written := by
  simp only [nbRecordInit, Option.bind_eq_bind, Option.bind_eq_some_iff] at h
  obtain ⟨fs₁, hopen, hfs⟩ := h
  refine ⟨_, .cons (.check hi) (.cons (.openFile (Function.update_self ..) hopen)
    (.cons (.head (Function.update_self ..)) (.nil _))), Option.some.inj hfs,
    Function.update_self .., rfl⟩

/-! ## The invariant -/

/-- What is at the path of a program, by its stage. -/
def At (fs : FileSystem) (p : Text) (es : List TsEntry) : Stage → Prop
  | .start => fs.files p = none
  | .checked need => need = true ∧ fs.files p = none
  | .opened need => need = true ∧ fs.files p = some []
  | .up => fs.files p = some (recordFile es)
  | .failed => True

theorem At.congr {fs fs' : FileSystem} {p : Text} {es : List TsEntry} {st : Stage}
    (h : At fs p es st) (hfs : fs'.files p = fs.files p) : At fs' p es st := by
  cases st with
  | start => exact hfs.trans h
  | checked need => exact ⟨h.1, hfs.trans h.2⟩
  | opened need => exact ⟨h.1, hfs.trans h.2⟩
  | up => exact hfs.trans h
  | failed => trivial

/-- Every file is that of its program, and the rest of the file system is as it was. -/
structure Apart (path : ι → Text) (logs : Set Text) (fs₀ : FileSystem) (x : SideBySide ι) :
    Prop where
  files : ∀ i, At x.fs (path i) (x.written i) (x.stage i)
  dirs : ∀ i, x.fs.dirs (path i) = false
  written : ∀ i, x.stage i ≠ .up → x.written i = []
  others : ∀ p ∉ logs, (∀ i, p ≠ path i) → x.fs.files p = fs₀.files p

omit [DecidableEq ι] in
theorem apart_start {fs₀ : FileSystem} (hnew : ∀ i, fs₀.has (path i) = false) :
    Apart path logs fs₀ (start fs₀) where
  files i := (FileSystem.has_eq_false_iff.mp (hnew i)).1
  dirs i := (FileSystem.has_eq_false_iff.mp (hnew i)).2
  written _ _ := rfl
  others _ _ _ := rfl

/-- A step of the program `i` that changes no file but its own. -/
theorem Apart.move (hinj : Function.Injective path) {fs₀ fs : FileSystem} {x : SideBySide ι}
    (h : Apart path logs fs₀ x) {i : ι} {st : Stage} (hi : x.stage i ≠ .up)
    (hframe : ∀ p, p ≠ path i → fs.files p = x.fs.files p)
    (hdirs : ∀ j, fs.dirs (path j) = false) (hat : At fs (path i) [] st) :
    Apart path logs fs₀ { x with fs := fs, stage := Function.update x.stage i st } where
  files j := by
    by_cases hj : j = i
    · subst hj
      show At fs (path j) (x.written j) (Function.update x.stage j st j)
      rw [Function.update_self, h.written j hi]
      exact hat
    · show At fs (path j) (x.written j) (Function.update x.stage i st j)
      rw [Function.update_of_ne hj]
      exact (h.files j).congr (hframe _ fun heq => hj (hinj heq))
  dirs := hdirs
  written j hj := by
    by_cases hji : j = i
    · exact hji ▸ h.written i hi
    · exact h.written j fun hup => hj ((Function.update_of_ne hji _ _).trans hup)
  others p hlog hp := (hframe p (hp i)).trans (h.others p hlog hp)

/-- Every step keeps the files apart, if no path is the directory of one or belongs to the
logs. -/
theorem Apart.step (hinj : Function.Injective path) (hlogs : ∀ i, path i ∉ logs)
    {fs₀ : FileSystem} {x y : SideBySide ι} (h : Apart path logs fs₀ x) {e : FileEvent ι}
    (he : e.Calls fun os => ∀ i j, os.dirname (path i) ≠ some (path j))
    (hs : Step path logs x e y) : Apart path logs fs₀ y := by
  cases hs with
  | @check i os hi =>
      have hat := h.files i
      rw [hi] at hat
      have hnew : x.fs.has (path i) = false := FileSystem.has_eq_false_iff.mpr ⟨hat, h.dirs i⟩
      refine h.move hinj (by simp [hi]) (fun _ _ => rfl) h.dirs ⟨?_, hat⟩
      rw [os.pathExists_eq, hnew]
      rfl
  | @openFile i os need fs hi hopen =>
      have hat := h.files i
      rw [hi] at hat
      obtain ⟨hfiles, hdirs⟩ := nbRecordOpenFile_frame hopen
      refine h.move hinj (by simp [hi]) hfiles (fun j => ?_) ⟨hat.1, ?_⟩
      · refine Bool.eq_false_iff.mpr fun hj => (hdirs _ hj).elim (fun hold => ?_) (he i j)
        rw [h.dirs j] at hold
        cases hold
      · rw [files_nbRecordOpenFile hopen, hat.2]
        rfl
  | @fail i os need fs hi hopen hfs =>
      refine h.move hinj (by simp [hi]) (fun p _ => ?_) (fun j => ?_) trivial
      · rcases hfs with rfl | ⟨d, _, hdir⟩
        · rfl
        · rw [files_ensureDir hdir]
      · rcases hfs with rfl | ⟨d, hd, hdir⟩
        · exact h.dirs j
        · refine Bool.eq_false_iff.mpr fun hj => ?_
          rcases dirs_ensureDir hdir hj with hold | rfl
          · rw [h.dirs j] at hold
            cases hold
          · exact he i j hd
  | @head i need hi =>
      have hat := h.files i
      rw [hi] at hat
      obtain ⟨rfl, hfile⟩ := hat
      refine h.move hinj (by simp [hi]) (fun p hp => files_append_ne hp) h.dirs ?_
      show (x.fs.append (path i) recordHead).files (path i) = _
      rw [FileSystem.files_append, hfile]
      rfl
  | @entry i e hi =>
      have hat := h.files i
      rw [hi] at hat
      have hframe : ∀ p, p ≠ path i → (nbTsRecordCallback (path i) x.fs e).files p = x.fs.files p :=
        fun p hp => files_append_ne hp
      refine ⟨fun j => ?_, h.dirs, fun j hj => ?_,
        fun p hlog hp => (hframe p (hp i)).trans (h.others p hlog hp)⟩
      · by_cases hj : j = i
        · subst hj
          show At _ (path j) (Function.update x.written j (x.written j ++ [e]) j) (x.stage j)
          rw [Function.update_self, hi]
          show (x.fs.append (path j) e.line).files (path j) = some (recordFile (x.written j ++ [e]))
          have hline : recordLines [e] = e.line := List.append_nil _
          rw [FileSystem.files_append, show x.fs.files (path j) = _ from hat, Option.map_some,
            recordFile, recordFile, recordLines_append, List.append_assoc, hline]
        · show At _ (path j) (Function.update x.written i (x.written i ++ [e]) j) (x.stage j)
          rw [Function.update_of_ne hj]
          exact (h.files j).congr (hframe _ fun heq => hj (hinj heq))
      · by_cases hji : j = i
        · exact absurd (hji ▸ hi) hj
        · exact (Function.update_of_ne hji _ _).trans (h.written j hj)
  | log hfiles hdirs =>
      exact ⟨fun j => (h.files j).congr (hfiles _ (hlogs j)),
        fun j => (hdirs _ (hlogs j)).trans (h.dirs j), h.written,
        fun p hlog hp => (hfiles p hlog).trans (h.others p hlog hp)⟩

end SideBySide

/-! ## Programs without a record path -/

/-- No slash stands behind the one of the directory. -/
theorem slash_notMem (app : App) (t : Tm) : '/' ∉ app.name ++ ('.' :: (t.stamp ++ ".csv".toList)) := by
  have hdigit : ∀ c : Char, c.isDigit → c ≠ '/' := by
    rintro c hc rfl
    exact absurd hc (by decide)
  have hpad : ∀ n, '/' ∉ Lib.decPad 2 n := fun n h =>
    hdigit _ (Decimal.isDigit_of_mem_decPad h) rfl
  have hyear : '/' ∉ decInt (t.tmYear + 1900) := fun h =>
    (Decimal.mem_decInt h).elim (by decide) fun h => hdigit _ h rfl
  have happ : '/' ∉ app.name := by
    cases app <;> decide
  simp [Tm.stamp, happ, hyear, hpad]

theorem dirname_default {os : Os} (hos : os.Dirnames) (app : App) (t : Tm) :
    os.dirname (defaultRecordPath app t) = some "records".toList :=
  hos "records".toList _ (slash_notMem app t)

theorem records_ne_default (app : App) (t : Tm) : "records".toList ≠ defaultRecordPath app t := by
  intro h
  have hlen := congrArg List.length h
  simp [defaultRecordPath, defaultPath] at hlen

/-- A start without a record path, or with an empty one. -/
def Launch.NoRecordPath (l : Launch) : Prop :=
  ∀ s, last l.given .recordPath = some s → s.bytes = []

theorem Launch.NoRecordPath.eq_default {l : Launch} (h : l.NoRecordPath) :
    l.recordPath = defaultRecordPath l.app l.tm := by
  unfold Launch.recordPath pathOf
  split
  · rfl
  · rename_i s hs
    exact if_pos (h s hs)

/-- A log that was not given a path, and its directory, are no such record file. -/
theorem log_ne_default (app app' : App) (t t' : Tm) :
    defaultRecordPath app t' ≠ defaultLogPath app' t ∧
      defaultRecordPath app t' ≠ "logs".toList := by
  have hfirst : ∀ {t : Text}, t.head? = some 'l' → defaultRecordPath app t' ≠ t := by
    rintro _ hl rfl
    exact absurd (Option.some.inj hl) (by decide)
  exact ⟨hfirst rfl, hfirst rfl⟩

/-- Programs that are started without a record path and differ in their name or in the second
of their start, with logs that are other files: in every order of their steps the file of each
that is up is the column names and then its records, in the order in which it made them, and no
other file is touched but the logs. -/
theorem record_files_of_run {ι : Type} [DecidableEq ι] {l : ι → Launch}
    (hgiven : ∀ i, (l i).NoRecordPath)
    (hdiff : ∀ i j, (l i).app = (l j).app → (l i).tm = (l j).tm → i = j) {fs₀ : FileSystem}
    (hnew : ∀ i, fs₀.has (l i).recordPath = false) {logs : Set Text}
    (hlogs : ∀ i, (l i).recordPath ∉ logs) {es : List (FileEvent ι)} {x : SideBySide ι}
    (hos : ∀ e ∈ es, e.Calls Os.Dirnames)
    (hrun : Run (SideBySide.Step (fun i => (l i).recordPath) logs) (.start fs₀) es x) :
    (∀ i, x.stage i = .up → x.fs.files (l i).recordPath = some (recordFile (x.written i))) ∧
    ∀ p ∉ logs, (∀ i, p ≠ (l i).recordPath) → x.fs.files p = fs₀.files p := by
  have hpath : ∀ i, (l i).recordPath = defaultRecordPath (l i).app (l i).tm := fun i =>
    (hgiven i).eq_default
  have hinj : Function.Injective fun i => (l i).recordPath := by
    intro i j hij
    have hij : (l i).recordPath = (l j).recordPath := hij
    rw [hpath, hpath] at hij
    obtain ⟨happ, htm⟩ := defaultPath_inj.mp hij
    exact hdiff i j happ htm
  have hclear : ∀ os : Os, os.Dirnames →
      ∀ i j, os.dirname (l i).recordPath ≠ some (l j).recordPath := by
    intro os hdir i j heq
    rw [hpath, hpath, dirname_default hdir] at heq
    exact records_ne_default _ _ (Option.some.inj heq)
  have h := hrun.invariant_of_forall (I := SideBySide.Apart (fun i => (l i).recordPath) logs fs₀)
    (fun _ _ _ he h hs => h.step hinj hlogs (he.imp hclear) hs) hos
    (SideBySide.apart_start hnew)
  refine ⟨fun i hup => ?_, h.others⟩
  have hat := h.files i
  rw [hup] at hat
  exact hat

theorem plainOs_dirnames : plainOs.Dirnames := by
  intro dir file hfile
  have hdrop : (file.reverse ++ '/' :: dir.reverse).dropWhile (· ≠ '/') = '/' :: dir.reverse := by
    rw [List.dropWhile_append_of_pos fun c hc => decide_eq_true
      (ne_of_mem_of_not_mem (List.mem_reverse.mp hc) hfile)]
    rfl
  simp only [plainOs, Os.working, List.reverse_append, List.reverse_cons, List.append_assoc,
    List.singleton_append, hdrop, List.drop_one, List.tail_cons, List.reverse_reverse]

/-- The server and the upstream, started in one second. -/
def twoPrograms (server : Bool) : Launch :=
  ⟨if server then .tcpServer else .tcpUpstream, noon, []⟩

def oneEntry : TsEntry := ⟨7, ⟨1718755200, 0, 1, 0, 64, "server.rcv".toList⟩⟩

/-- What their logs write. -/
def twoLogs : Set Text :=
  {p | p = "logs".toList ∨ ∃ i, p = (twoPrograms i).logPath}

theorem recordPath_notMem_twoLogs (i : Bool) : (twoPrograms i).recordPath ∉ twoLogs := by
  rintro (h | ⟨j, h⟩)
  · exact (log_ne_default (twoPrograms i).app .hello noon noon).2 h
  · exact (log_ne_default (twoPrograms i).app (twoPrograms j).app noon noon).1 h

/-- The server's log is opened. -/
def logOpened : FileSystem :=
  (nbRecordOpenFile plainOs (twoPrograms true).logPath noFiles).getD noFiles

theorem logOpened_frame : (∀ p ∉ twoLogs, logOpened.files p = noFiles.files p) ∧
    ∀ p ∉ twoLogs, logOpened.dirs p = noFiles.dirs p := by
  obtain ⟨hfiles, hdirs⟩ := nbRecordOpenFile_frame
    (show nbRecordOpenFile plainOs (twoPrograms true).logPath noFiles = some logOpened from rfl)
  constructor
  · intro p hp
    exact hfiles p fun h => hp (Or.inr ⟨true, h⟩)
  · intro p hp
    refine Bool.eq_false_iff.mpr fun hdir => ?_
    rcases hdirs p hdir with hold | hlogs
    · cases hold
    · have hname : plainOs.dirname (twoPrograms true).logPath = some "logs".toList := rfl
      rw [hname] at hlogs
      exact hp (Or.inl (Option.some.inj hlogs).symm)

/-- Their calls of `nb_record_init` overlap; then the server writes a record. -/
def overlap : List (FileEvent Bool) :=
  [.log, .check true plainOs, .check false plainOs, .openFile true plainOs,
    .openFile false plainOs, .head false, .head true, .entry true oneEntry]

/-- Each has its own file. -/
theorem record_files_of_run_overlap : ∃ x,
    Run (SideBySide.Step (fun i => (twoPrograms i).recordPath) twoLogs) (.start noFiles)
      overlap x ∧
    x.fs.files (twoPrograms true).recordPath = some (recordFile [oneEntry]) ∧
    x.fs.files (twoPrograms false).recordPath = some (recordFile []) := by
  obtain ⟨x, hrun, hserver, hupstream, hone, hnone⟩ : ∃ x,
      Run (SideBySide.Step (fun i => (twoPrograms i).recordPath) twoLogs) (.start noFiles)
        overlap x ∧
      x.stage true = .up ∧ x.stage false = .up ∧ x.written true = [oneEntry] ∧
      x.written false = [] :=
    ⟨_, .cons (.log logOpened_frame.1 logOpened_frame.2) (.cons (.check rfl) (.cons (.check rfl)
      (.cons (.openFile rfl rfl) (.cons (.openFile rfl rfl) (.cons (.head rfl)
        (.cons (.head rfl) (.cons (.entry rfl) (.nil _)))))))), rfl, rfl, rfl, rfl⟩
  have hos : ∀ e ∈ overlap, e.Calls Os.Dirnames := by
    simp [overlap, FileEvent.Calls, plainOs_dirnames]
  have hgiven : ∀ i, (twoPrograms i).NoRecordPath := by
    intro i s hs
    cases hs
  have hdiff : ∀ i j, (twoPrograms i).app = (twoPrograms j).app →
      (twoPrograms i).tm = (twoPrograms j).tm → i = j := by
    intro i j happ _
    cases i <;> cases j <;> first | rfl | cases happ
  obtain ⟨hfiles, _⟩ :=
    record_files_of_run hgiven hdiff (fun _ => rfl) recordPath_notMem_twoLogs hos hrun
  refine ⟨x, hrun, ?_, ?_⟩
  · rw [hfiles true hserver, hone]
  · rw [hfiles false hupstream, hnone]

end NetBench

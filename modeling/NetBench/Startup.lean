/-
# `NetBench.Startup` — how a program starts

`nb_init_components` of `init.c`: the arguments are parsed, the paths that were not given
are filled up with the program's name and the local time, and the log, the record file and
the socket library are initialised, in this order.  What haclog, muggle and the C library
answer is a parameter.

    a path that was given is kept, up to the size of its array; one that was not is
    that of the name and the time                        (`paths_of_start`)
    no other name or time has it                         (`defaultPath_inj`)
    the records are opened behind the log, whose file is another  (`records_of_start`)
-/
import NetBench.ParseArgs
import NetBench.RecordFile

namespace NetBench

open Lib Lib.Csv Lib.Decimal

/-! ## Texts in arrays -/

/-- The characters of a string. -/
def asText (s : CString) : Text := s.bytes.map fun b => Char.ofNat b.toNat

def ofText (t : Text) : CString := .ofBytes (t.map fun c => UInt8.ofNat c.toNat)

/-- One byte for each character, and no terminator. -/
def Latin1 (t : Text) : Prop := ∀ c ∈ t, 0 < c.toNat ∧ c.toNat < 256

theorem Latin1.append {t u : Text} (h : Latin1 t) (h' : Latin1 u) : Latin1 (t ++ u) := fun c hc =>
  (List.mem_append.mp hc).elim (h c) (h' c)

theorem Latin1.of_all {t : Text} (h : (t.all fun c => decide (0 < c.toNat ∧ c.toNat < 256)) = true) :
    Latin1 t := fun c hc => of_decide_eq_true (List.all_eq_true.mp h c hc)

theorem Latin1.of_digits {t : Text} (h : ∀ c ∈ t, c = '-' ∨ c.isDigit) : Latin1 t := by
  intro c hc
  rcases h c hc with rfl | hd
  · decide
  · rw [Char.isDigit, Bool.and_eq_true, decide_eq_true_iff, decide_eq_true_iff] at hd
    have hlo : 48 ≤ c.toNat := hd.1
    have hhi : c.toNat ≤ 57 := hd.2
    omega

theorem bytes_ofText {t : Text} (h : Latin1 t) :
    (ofText t).bytes = t.map fun c => UInt8.ofNat c.toNat := by
  refine CString.bytes_ofBytes fun hmem => ?_
  obtain ⟨c, hc, hzero⟩ := List.mem_map.mp hmem
  have hval := congrArg UInt8.toNat hzero
  rw [UInt8.toNat_ofNat', Nat.mod_eq_of_lt (h c hc).2] at hval
  exact absurd hval (Nat.ne_of_gt (h c hc).1)

theorem asText_ofText {t : Text} (h : Latin1 t) : asText (ofText t) = t := by
  rw [asText, bytes_ofText h, List.map_map]
  refine (List.map_congr_left fun c hc => ?_).trans (List.map_id t)
  show Char.ofNat (UInt8.ofNat c.toNat).toNat = c
  rw [UInt8.toNat_ofNat', Nat.mod_eq_of_lt (h c hc).2, Char.ofNat_toNat]

/-- A text that has room in an array is read back from it. -/
theorem asText_print {n : Nat} (b : CharBuf (n + 1)) {t : Text} (h : Latin1 t)
    (hlen : t.length ≤ n) : asText (b.print (ofText t)).str = t := by
  have hroom : (ofText t).bytes.length ≤ n := by
    rw [bytes_ofText h, List.length_map]
    exact hlen
  have hstr : (b.print (ofText t)).str = ofText t := by
    rw [← CString.ofBytes_bytes (b.print (ofText t)).str, CharBuf.str_print b hroom,
      CString.ofBytes_bytes]
  rw [hstr, asText_ofText h]

/-! ## The default paths -/

/-- The programs, which pass their names to `nb_init_components`. -/
inductive App where
  | hello
  | thread
  | tcpClient
  | tcpServer
  | tcpUpstream
  | udpClient
  | udpServer
  | udpUpstream
  deriving DecidableEq, Repr

def App.name : App → Text
  | .hello => "hello".toList
  | .thread => "thread".toList
  | .tcpClient => "tcp_client".toList
  | .tcpServer => "tcp_server".toList
  | .tcpUpstream => "tcp_upstream".toList
  | .udpClient => "udp_client".toList
  | .udpServer => "udp_server".toList
  | .udpUpstream => "udp_upstream".toList

/-- `struct tm` as `localtime_r` fills it; the year as it is printed fits an `int`. -/
structure Tm where
  tmYear : Int
  tmMon : Fin 12
  tmMday : Fin 32
  tmHour : Fin 24
  tmMin : Fin 60
  tmSec : Fin 61
  year_ge : -2 ^ 31 ≤ tmYear + 1900
  year_lt : tmYear + 1900 < 2 ^ 31
  deriving DecidableEq

/-- `"%d%02d%02dT%02d%02d%02d"`. -/
def Tm.stamp (t : Tm) : Text :=
  decInt (t.tmYear + 1900) ++ (decPad 2 (t.tmMon + 1) ++ (decPad 2 t.tmMday ++
    ('T' :: (decPad 2 t.tmHour ++ (decPad 2 t.tmMin ++ decPad 2 t.tmSec)))))

/-- `"<dir>%s.<stamp><ext>"`. -/
def defaultPath (dir ext : Text) (app : App) (t : Tm) : Text :=
  dir ++ (app.name ++ ('.' :: (t.stamp ++ ext)))

def defaultLogPath : App → Tm → Text := defaultPath "logs/".toList ".log".toList

def defaultRecordPath : App → Tm → Text := defaultPath "records/".toList ".csv".toList

theorem App.name_injective : Function.Injective App.name := by
  intro x y h
  cases x <;> cases y <;> first | rfl | exact absurd h (by decide)

theorem App.dot_notMem (x : App) : '.' ∉ x.name := by
  cases x <;> decide

theorem App.plain (x : App) : Latin1 x.name := by
  cases x <;> exact .of_all rfl

theorem App.length_le (x : App) : x.name.length ≤ 12 := by
  cases x <;> decide

/-- Two digits. -/
theorem length_two {n : Nat} (h : n < 100) : (decPad 2 n).length = 2 :=
  length_decPad (by decide) h

theorem Tm.stamp_injective : Function.Injective Tm.stamp := by
  intro s t h
  have hlen : ∀ t : Tm, (decPad 2 (t.tmMon + 1)).length = 2 ∧ (decPad 2 t.tmMday).length = 2 ∧
      (decPad 2 t.tmHour).length = 2 ∧ (decPad 2 t.tmMin).length = 2 ∧
      (decPad 2 t.tmSec).length = 2 := fun t =>
    ⟨length_two (by omega), length_two (by omega), length_two (by omega), length_two (by omega),
      length_two (by omega)⟩
  obtain ⟨hmon, hmday, hhour, hmin, hsec⟩ := hlen s
  obtain ⟨hmon', hmday', hhour', hmin', hsec'⟩ := hlen t
  obtain ⟨hyear, h⟩ := List.append_inj' h (by simp [hmon, hmday, hhour, hmin, hsec, hmon', hmday',
    hhour', hmin', hsec'])
  obtain ⟨hm, h⟩ := List.append_inj h (hmon.trans hmon'.symm)
  obtain ⟨hd, h⟩ := List.append_inj h (hmday.trans hmday'.symm)
  obtain ⟨hh, h⟩ := List.append_inj (List.cons.inj h).2 (hhour.trans hhour'.symm)
  obtain ⟨hmi, hs⟩ := List.append_inj h (hmin.trans hmin'.symm)
  have hyear := decInt_injective hyear
  have hm := decPad_injective 2 hm
  obtain ⟨y, mo, d, ho, mi, se, _, _⟩ := s
  obtain ⟨y', mo', d', ho', mi', se', _, _⟩ := t
  rw [Tm.mk.injEq]
  exact ⟨add_right_cancel hyear, Fin.ext (Nat.add_right_cancel hm),
    Fin.ext (decPad_injective 2 hd), Fin.ext (decPad_injective 2 hh),
    Fin.ext (decPad_injective 2 hmi), Fin.ext (decPad_injective 2 hs)⟩

/-- Two texts that agree, cut at their first `a`. -/
theorem split_at_first {a : Char} : ∀ {x y u v : Text}, a ∉ x → a ∉ y →
    x ++ a :: u = y ++ a :: v → x = y ∧ u = v
  | [], [], _, _, _, _, h => ⟨rfl, (List.cons.inj h).2⟩
  | [], _ :: _, _, _, _, hy, h => absurd ((List.cons.inj h).1 ▸ List.mem_cons_self) hy
  | _ :: _, [], _, _, hx, _, h => absurd ((List.cons.inj h).1 ▸ List.mem_cons_self) hx
  | b :: x, c :: y, _, _, hx, hy, h => by
      obtain ⟨rfl, hrest⟩ := List.cons.inj h
      obtain ⟨hxy, huv⟩ := split_at_first (fun hm => hx (List.mem_cons_of_mem _ hm))
        (fun hm => hy (List.mem_cons_of_mem _ hm)) hrest
      exact ⟨congrArg (b :: ·) hxy, huv⟩

/-- The path tells the program and the time. -/
theorem defaultPath_inj {dir ext : Text} {x y : App} {s t : Tm} :
    defaultPath dir ext x s = defaultPath dir ext y t ↔ x = y ∧ s = t := by
  constructor
  · intro h
    obtain ⟨hname, h⟩ := split_at_first x.dot_notMem y.dot_notMem (List.append_cancel_left h)
    exact ⟨App.name_injective hname, Tm.stamp_injective (List.append_cancel_right h)⟩
  · rintro ⟨rfl, rfl⟩
    rfl

theorem length_decInt_le {z : Int} (hlo : -2 ^ 31 ≤ z) (hhi : z < 2 ^ 31) :
    (decInt z).length ≤ 11 := by
  cases z with
  | ofNat n =>
      have hn : n < 10 ^ 11 := by
        have : (n : Int) < 2 ^ 31 := hhi
        omega
      exact length_dec_le (by decide) hn
  | negSucc n =>
      have hn : n + 1 < 10 ^ 10 := by
        have : -2 ^ 31 ≤ Int.negSucc n := hlo
        omega
      exact Nat.succ_le_succ (length_dec_le (by decide) hn)

theorem Tm.length_stamp_le (t : Tm) : t.stamp.length ≤ 22 := by
  have hyear := length_decInt_le t.year_ge t.year_lt
  have hmon : (decPad 2 (t.tmMon + 1)).length = 2 := length_two (by omega)
  have hmday : (decPad 2 t.tmMday).length = 2 := length_two (by omega)
  have hhour : (decPad 2 t.tmHour).length = 2 := length_two (by omega)
  have hmin : (decPad 2 t.tmMin).length = 2 := length_two (by omega)
  have hsec : (decPad 2 t.tmSec).length = 2 := length_two (by omega)
  simp only [stamp, List.length_append, List.length_cons, hmon, hmday, hhour, hmin, hsec]
  omega

theorem Tm.latin1_stamp (t : Tm) : Latin1 t.stamp := by
  have hpad : ∀ n, Latin1 (decPad 2 n) := fun n =>
    .of_digits fun c hc => Or.inr (isDigit_of_mem_decPad hc)
  have hT : Latin1 ['T'] := .of_all rfl
  exact (Latin1.of_digits fun c hc => mem_decInt hc).append ((hpad _).append ((hpad _).append
    (hT.append ((hpad _).append ((hpad _).append (hpad _))))))

/-- A default path has room in its array, where it is read back. -/
theorem asText_default (b : CharBuf 128) {dir ext : Text} (hdir : Latin1 dir) (hext : Latin1 ext)
    (hlen : dir.length + ext.length ≤ 92) (app : App) (t : Tm) :
    asText (b.print (ofText (defaultPath dir ext app t))).str = defaultPath dir ext app t := by
  have hdot : Latin1 ['.'] := .of_all rfl
  refine asText_print b (hdir.append (app.plain.append (hdot.append (t.latin1_stamp.append hext)))) ?_
  have happ := app.length_le
  have hstamp := t.length_stamp_le
  simp only [defaultPath, List.length_append, List.length_cons]
  omega

/-! ## `nb_args_fillup_empty` -/

variable {A : Nat}

/-- `nb_args_fillup_empty`, at the local time `t`. -/
def nbArgsFillupEmpty (args : SysArgs A) (name : App) (t : Tm) : SysArgs A :=
  let args :=
    if args.logPath.bytes.head? = some 0 then
      { args with logPath := args.logPath.print (ofText (defaultLogPath name t)) }
    else args
  if args.recordPath.bytes.head? = some 0 then
    { args with recordPath := args.recordPath.print (ofText (defaultRecordPath name t)) }
  else args

/-- What the fill-up leaves in the array of a path. -/
def filled (b : CharBuf 128) (path : Text) : CharBuf 128 :=
  if b.bytes.head? = some 0 then b.print (ofText path) else b

/-- The two paths are filled up, all other fields stay. -/
theorem nbArgsFillupEmpty_eq (args : SysArgs A) (name : App) (t : Tm) :
    nbArgsFillupEmpty args name t =
      { args with
        logPath := filled args.logPath (defaultLogPath name t)
        recordPath := filled args.recordPath (defaultRecordPath name t) } := by
  unfold nbArgsFillupEmpty filled
  by_cases hlog : args.logPath.bytes.head? = some 0
  · by_cases hrec : args.recordPath.bytes.head? = some 0
    · simp only [hlog, hrec, if_true]
    · simp only [hlog, hrec, if_true, if_false]
  · by_cases hrec : args.recordPath.bytes.head? = some 0
    · simp only [hlog, hrec, if_true, if_false]
    · simp only [hlog, hrec, if_false]

theorem head?_holding {s : CString} : (CharBuf.holding s : CharBuf 128).bytes.head? = some 0 ↔
    s.bytes = [] := by
  rw [CharBuf.bytes_holding]
  cases hs : s.bytes with
  | nil => exact iff_of_true rfl rfl
  | cons b l =>
      refine iff_of_false (fun h => ?_) (List.cons_ne_nil _ _)
      obtain rfl : b = 0 := Option.some.inj h
      exact s.noNul (hs ▸ List.mem_cons_self)

/-- The path after the fill-up: what was given, cut off where the array ends, or the default. -/
def pathOf (given : Option CString) (path : Text) : Text :=
  match given with
  | none => path
  | some s => if s.bytes = [] then path else (asText s).take 127

/-- A filled array is read back as the path. -/
theorem asText_filled (given : Option CString) {path : Text}
    (hpath : ∀ b : CharBuf 128, asText (b.print (ofText path)).str = path) :
    asText (filled (.holding (given.getD (.lit ""))) path).str = pathOf given path := by
  have hfill : ∀ {s : CString}, s.bytes = [] → asText (filled (.holding s) path).str = path := by
    intro s hs
    rw [filled, if_pos (head?_holding.mpr hs), hpath]
  cases given with
  | none => exact hfill rfl
  | some s =>
      rw [Option.getD_some, pathOf]
      by_cases hs : s.bytes = []
      · rw [if_pos hs, hfill hs]
      · rw [if_neg hs, filled, if_neg fun h => hs (head?_holding.mp h), asText, CharBuf.str_holding,
          List.map_take]
        rfl

/-! ## `nb_init_components` -/

/-- What the parts that are not in the repository answer. -/
structure Libraries where
  os : Os
  /-- whether `haclog_console_handler_init` succeeds -/
  consoleHandlerInit : Bool
  /-- `haclog_file_handler_init` with the mode `"a"`, or `none` where it fails -/
  fileHandlerInit : Text → FileSystem → Option FileSystem
  /-- whether `muggle_socket_lib_init` succeeds -/
  socketInit : Bool

/-- The handler opens its file, and makes at most the directory of it. -/
structure Libraries.OpensLog (lib : Libraries) : Prop where
  files : ∀ {path fs fs'}, lib.fileHandlerInit path fs = some fs' →
    ∀ p, p ≠ path → fs'.files p = fs.files p
  dirs : ∀ {path fs fs'}, lib.fileHandlerInit path fs = some fs' →
    ∀ p, fs'.dirs p = true → fs.dirs p = true ∨ lib.os.dirname path = some p

/-- `nb_log_init`, or `none` where it returns `false`; a level is `none` where it is -1. -/
def nbLogInit (lib : Libraries) (consoleLevel fileLevel : Option LogLevel) (filepath : Text)
    (fs : FileSystem) : Option FileSystem :=
  if consoleLevel.isSome && !lib.consoleHandlerInit then none
  else if fileLevel.isSome then lib.fileHandlerInit filepath fs
  else some fs

inductive Started (A : Nat) where
  | ready (args : SysArgs A) (fs : FileSystem)
  /-- it returns `false` -/
  | failed
  | exited
  /-- `nb_parse_args` leaves its table -/
  | outside

/-- `nb_init_components`, at the local time `t`. -/
def nbInitComponents (m : MuggleStr) (lib : Libraries) (argv : List CString) (name : App) (t : Tm)
    (fs : FileSystem) : Started A :=
  match nbParseArgs m argv with
  | .exited => .exited
  | .outside => .outside
  | .returned false _ => .failed
  | .returned true args =>
      let args := nbArgsFillupEmpty args name t
      match nbLogInit lib (some args.logConsoleLevel) (some args.logFileLevel)
        (asText args.logPath.str) fs with
      | none => .failed
      | some fs =>
          match nbRecordInit lib.os (asText args.recordPath.str) fs with
          | none => .failed
          | some fs => if lib.socketInit then .ready args fs else .failed

/-- A start of a program: its options, and the time. -/
structure Launch where
  app : App
  tm : Tm
  given : List Given

def Launch.logPath (l : Launch) : Text :=
  pathOf (last l.given .logPath) (defaultLogPath l.app l.tm)

def Launch.recordPath (l : Launch) : Text :=
  pathOf (last l.given .recordPath) (defaultRecordPath l.app l.tm)

theorem asText_defaultLogPath (b : CharBuf 128) (app : App) (t : Tm) :
    asText (b.print (ofText (defaultLogPath app t))).str = defaultLogPath app t :=
  asText_default b (.of_all rfl) (.of_all rfl) (by decide) app t

theorem asText_defaultRecordPath (b : CharBuf 128) (app : App) (t : Tm) :
    asText (b.print (ofText (defaultRecordPath app t))).str = defaultRecordPath app t :=
  asText_default b (.of_all rfl) (.of_all rfl) (by decide) app t

/-- A start that succeeds goes on from arguments that were parsed. -/
theorem inits_of_ready {m : MuggleStr} {lib : Libraries} {argv : List CString} {name : App}
    {t : Tm} {parsed args : SysArgs A} {fs fs' : FileSystem}
    (hparse : nbParseArgs m argv = .returned true parsed)
    (h : nbInitComponents m lib argv name t fs = .ready args fs') :
    args = nbArgsFillupEmpty parsed name t ∧
    ∃ fs₁, nbLogInit lib (some args.logConsoleLevel) (some args.logFileLevel)
        (asText args.logPath.str) fs = some fs₁ ∧
      nbRecordInit lib.os (asText args.recordPath.str) fs₁ = some fs' := by
  unfold nbInitComponents at h
  rw [hparse] at h
  dsimp only at h
  split at h
  · cases h
  · rename_i fs₁ hlog
    split at h
    · cases h
    · rename_i fs₂ hrec
      split at h
      · cases h
        exact ⟨rfl, fs₁, hlog, hrec⟩
      · cases h

/-- The paths after the fill-up of what the options store. -/
theorem asText_fillup (m : MuggleStr) (l : Launch) {args : SysArgs A}
    (h : args = nbArgsFillupEmpty (stored m l.given) l.app l.tm) :
    asText args.logPath.str = l.logPath ∧ asText args.recordPath.str = l.recordPath := by
  rw [h, nbArgsFillupEmpty_eq]
  exact ⟨asText_filled (last l.given .logPath) (asText_defaultLogPath · l.app l.tm),
    asText_filled (last l.given .recordPath) (asText_defaultRecordPath · l.app l.tm)⟩

/-- A start that succeeds: the arguments are those that the options store, with the paths filled
up, and the log and then the record file are those of the paths. -/
theorem paths_of_start (hA : 0 < A) {m : MuggleStr} {lib : Libraries} {l : Launch}
    (hgs : ∀ g ∈ l.given, (g.opt.kind A).Converts m g.value) {fs fs' : FileSystem}
    {args : SysArgs A}
    (h : nbInitComponents m lib (l.given.flatMap Given.argv) l.app l.tm fs = .ready args fs') :
    args = { (stored m l.given : SysArgs A) with
      logPath := args.logPath, recordPath := args.recordPath } ∧
    asText args.logPath.str = l.logPath ∧ asText args.recordPath.str = l.recordPath ∧
    ∃ fs₁, nbLogInit lib (some args.logConsoleLevel) (some args.logFileLevel) l.logPath fs =
        some fs₁ ∧ nbRecordInit lib.os l.recordPath fs₁ = some fs' := by
  obtain ⟨hargs, fs₁, hloginit, hrecinit⟩ := inits_of_ready (parse_last hA hgs).1 h
  obtain ⟨hlog, hrec⟩ := asText_fillup m l hargs
  rw [hlog] at hloginit
  rw [hrec] at hrecinit
  refine ⟨?_, hlog, hrec, fs₁, hloginit, hrecinit⟩
  rw [hargs, nbArgsFillupEmpty_eq]

/-- The log changes no other file, and makes at most its directory. -/
theorem nbLogInit_frame {lib : Libraries} (hlib : lib.OpensLog)
    {consoleLevel fileLevel : Option LogLevel} {path : Text} {fs fs' : FileSystem}
    (h : nbLogInit lib consoleLevel fileLevel path fs = some fs') :
    (∀ p, p ≠ path → fs'.files p = fs.files p) ∧
    ∀ p, fs'.dirs p = true → fs.dirs p = true ∨ lib.os.dirname path = some p := by
  rw [nbLogInit] at h
  split at h
  · cases h
  · split at h
    · exact ⟨hlib.files h, hlib.dirs h⟩
    · cases h
      exact ⟨fun _ _ => rfl, fun _ hp => Or.inl hp⟩

/-- Where the log is another file, a new record file begins with the column names, and one with
the records of earlier runs stays as it is. -/
theorem records_of_start (hA : 0 < A) {m : MuggleStr} {lib : Libraries} (hlib : lib.OpensLog)
    {l : Launch} (hgs : ∀ g ∈ l.given, (g.opt.kind A).Converts m g.value)
    {fs fs' : FileSystem} {args : SysArgs A}
    (h : nbInitComponents m lib (l.given.flatMap Given.argv) l.app l.tm fs = .ready args fs')
    (hne : l.recordPath ≠ l.logPath) (hdir : lib.os.dirname l.logPath ≠ some l.recordPath) :
    (fs.has l.recordPath = false → fs'.files l.recordPath = some recordHead) ∧
    ∀ t, fs.files l.recordPath = some t → fs'.files l.recordPath = some t := by
  obtain ⟨hargs, fs₁, hlog, hinit⟩ := inits_of_ready (parse_last hA hgs).1 h
  obtain ⟨hlogPath, hrecordPath⟩ := asText_fillup m l hargs
  rw [hlogPath] at hlog
  rw [hrecordPath] at hinit
  obtain ⟨hfiles, hdirs⟩ := nbLogInit_frame hlib hlog
  constructor
  · intro hnew
    obtain ⟨hnone, hnodir⟩ := FileSystem.has_eq_false_iff.mp hnew
    refine files_nbRecordInit_new hinit (FileSystem.has_eq_false_iff.mpr ⟨?_, ?_⟩)
    · rw [hfiles _ hne, hnone]
    · refine Bool.eq_false_iff.mpr fun hmade => (hdirs _ hmade).elim (fun hold => ?_) hdir
      rw [hnodir] at hold
      cases hold
  · intro t ht
    refine files_nbRecordInit_old hinit ?_
    rw [hfiles _ hne, ht]

/-- The directory of a path is what stands before the last slash. -/
def plainOs : Os := .working fun p => some ((p.reverse.dropWhile (· ≠ '/')).drop 1).reverse

/-- All calls succeed; the log is opened as the records are. -/
def plainLibraries : Libraries where
  os := plainOs
  consoleHandlerInit := true
  fileHandlerInit := nbRecordOpenFile plainOs
  socketInit := true

theorem plainLibraries_opensLog : plainLibraries.OpensLog where
  files h := (nbRecordOpenFile_frame h).1
  dirs h := (nbRecordOpenFile_frame h).2

def noFiles : FileSystem := ⟨fun _ => none, fun _ => false⟩

def noon : Tm := ⟨124, 5, 20, 12, 0, 0, by decide, by decide⟩

/-- The server with a path for its log. -/
def logGiven : Launch := ⟨.tcpServer, noon, [⟨.logPath, .lit "here/l.log", true⟩]⟩

theorem converts_logGiven : ∀ g ∈ logGiven.given, (g.opt.kind 64).Converts plainStr g.value := by
  intro g hg
  obtain rfl := List.mem_singleton.mp hg
  exact trivial

/-- It starts. -/
theorem ready_logGiven : ∃ args fs, (nbInitComponents plainStr plainLibraries
      (logGiven.given.flatMap Given.argv) logGiven.app logGiven.tm noFiles : Started 64) =
      .ready args fs := by
  unfold nbInitComponents
  rw [(parse_last (by decide) converts_logGiven).1]
  exact ⟨_, _, rfl⟩

/-- Its log is there, its records have a path of their own. -/
theorem paths_of_start_log_given : ∃ args fs, (nbInitComponents plainStr plainLibraries
      (logGiven.given.flatMap Given.argv) logGiven.app logGiven.tm noFiles : Started 64) =
      .ready args fs ∧
    asText args.logPath.str = "here/l.log".toList ∧
    asText args.recordPath.str = "records/tcp_server.20240620T120000.csv".toList := by
  obtain ⟨args, fs, h⟩ := ready_logGiven
  obtain ⟨_, hlog, hrec, _⟩ := paths_of_start (by decide) converts_logGiven h
  exact ⟨args, fs, h, hlog.trans (by decide), hrec.trans (by decide)⟩

end NetBench

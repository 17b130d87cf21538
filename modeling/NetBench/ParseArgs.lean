/-
# `NetBench.ParseArgs` — what `nb_parse_args` rejects, and what it stores

The switch returns `false` for a log level or a frequency that it does not know, and
for nothing else: it has no case for `'?'`, and looks neither at what the conversions of
numbers return nor at the length of a text (`optCase_eq_none_iff`).  A name that is not in
the table leads the lookup out of it.

    bad level or frequency, before the table was left     return false
    otherwise, the table was left                          undefined
    otherwise                                              return true   (`argsLoop_cases`)

Arguments that are all accepted are stored, and of each option the last one stays
(`parse_last`).
-/
import NetBench.SysArgs
import Mathlib.Data.List.Induction

namespace NetBench

open Lib Lib.Getopt

/-! ## Acceptable arguments -/

/-- The value of a digit. -/
def digit (c : UInt8) : Option Nat := if 48 ≤ c ∧ c ≤ 57 then some (c.toNat - 48) else none

/-- The number written with the digits. -/
def digits (l : List UInt8) : Option Nat :=
  if l = [] then none else l.foldlM (fun n c => (digit c).map fun d => 10 * n + d) 0

/-- The number that a text is, all of it: digits, perhaps after a sign. -/
def decimal (s : CString) : Option Int :=
  match s.bytes with
  | [] => none
  | c :: l =>
      if c = 45 then (digits l).map fun n => -(n : Int)
      else if c = 43 then (digits l).map fun n => (n : Int)
      else (digits (c :: l)).map fun n => (n : Int)

/-- The kinds of values. -/
inductive ValueKind where
  | level
  | freq
  | int
  | uint
  | text (size : Nat)
  deriving DecidableEq, Repr

namespace ValueKind

/-- The field can hold what the text says. -/
def Accepts : ValueKind → CString → Prop
  | .level, s => (nbLogStrToLevel s).isSome
  | .freq, s => s = .lit "powersave" ∨ s = .lit "performance"
  | .int, s => ∃ v, decimal s = some v ∧ -2 ^ 31 ≤ v ∧ v < 2 ^ 31
  | .uint, s => ∃ v, decimal s = some v ∧ 0 ≤ v ∧ v < 2 ^ 32
  | .text size, s => s.bytes.length < size

/-- The kinds of which the switch checks the value. -/
def Checked : ValueKind → Prop
  | .level => True
  | .freq => True
  | .int => False
  | .uint => False
  | .text _ => False

end ValueKind

/-- The field of an option. -/
def OptVal.kind (A : Nat) : OptVal → ValueKind
  | .logConsole => .level
  | .logFile => .level
  | .logPath => .text 128
  | .logBindCpu => .int
  | .recordPath => .text 128
  | .recordBindCpu => .int
  | .serverHost => .text A
  | .serverPort => .text 16
  | .connHost => .text A
  | .connPort => .text 16
  | .bindHost => .text A
  | .bindPort => .text 16
  | .cpuFreq => .freq
  | .cpuBind => .int
  | .userId => .uint
  | .round => .uint
  | .numPerRound => .uint
  | .roundInterval => .uint
  | .msgSize => .uint
  | .cliWait => .uint

variable {A : Nat} {m : MuggleStr}

/-- The switch returns `false` for a value that is checked and not accepted. -/
theorem optCase_eq_none_iff (m : MuggleStr) (args : SysArgs A) (k : OptVal) (s : CString) :
    optCase m args k s = none ↔ (k.kind A).Checked ∧ ¬ (k.kind A).Accepts s := by
  have hfreq : ∀ x y : SysArgs A, (if s = .lit "powersave" then some x
      else if s = .lit "performance" then some y else none) = none ↔
      ValueKind.Checked .freq ∧ ¬ ValueKind.Accepts .freq s := by
    intro x y
    simp only [ValueKind.Checked, ValueKind.Accepts, true_and, not_or]
    split_ifs with h h'
    · simp [h]
    · simp [h']
    · simp [h, h']
  cases k with
  | logConsole | logFile =>
      simp [optCase, OptVal.kind, ValueKind.Checked, ValueKind.Accepts]
  | cpuFreq => exact hfreq _ _
  | _ => simp [optCase, OptVal.kind, ValueKind.Checked]

/-! ## What is rejected -/

/-- A value of `getopt_long` that a program can honour: an option of the table with an
argument that its field accepts. -/
def Honoured (A : Nat) : Call HelpFlag OptVal → Prop
  | .flag _ => True
  | .arg k s => (k.kind A).Accepts s
  | .unknown => False
  | .outside => False

/-- A value for which the switch returns `false`. -/
def Rejected (A : Nat) : Call HelpFlag OptVal → Prop
  | .flag _ => False
  | .arg k s => (k.kind A).Checked ∧ ¬ (k.kind A).Accepts s
  | .unknown => False
  | .outside => False

/-- A level or a frequency is rejected before the table is left. -/
def RejectedFirst (A : Nat) (cs : List (Call HelpFlag OptVal)) : Prop :=
  ∃ pre c post, cs = pre ++ c :: post ∧ Rejected A c ∧ .outside ∉ pre

theorem Rejected.not_honoured {c : Call HelpFlag OptVal} (h : Rejected A c) : ¬ Honoured A c := by
  cases c with
  | flag f => exact h.elim
  | arg k s => exact h.2
  | unknown => exact h.elim
  | outside => exact h.elim

theorem RejectedFirst.not_honoured {cs : List (Call HelpFlag OptVal)} (h : RejectedFirst A cs) :
    ¬ ∀ c ∈ cs, Honoured A c := by
  obtain ⟨pre, c, post, rfl, hc, _⟩ := h
  intro hall
  exact hc.not_honoured (hall c (List.mem_append_right pre List.mem_cons_self))

theorem rejectedFirst_cons {c : Call HelpFlag OptVal} {cs : List (Call HelpFlag OptVal)} :
    RejectedFirst A (c :: cs) ↔ Rejected A c ∨ (c ≠ .outside ∧ RejectedFirst A cs) := by
  constructor
  · rintro ⟨pre, d, post, heq, hd, hpre⟩
    cases pre with
    | nil =>
        obtain ⟨rfl, rfl⟩ := List.cons.inj heq
        exact Or.inl hd
    | cons e pre =>
        obtain ⟨rfl, rfl⟩ := List.cons.inj heq
        obtain ⟨hne, hpre⟩ := not_or.mp fun h => hpre (List.mem_cons.mpr h)
        exact Or.inr ⟨fun h => hne h.symm, pre, d, post, rfl, hd, hpre⟩
  · rintro (hc | ⟨hne, pre, d, post, rfl, hd, hpre⟩)
    · exact ⟨[], c, cs, rfl, hc, List.not_mem_nil⟩
    · refine ⟨c :: pre, d, post, rfl, hd, fun h => ?_⟩
      rcases List.mem_cons.mp h with h | h
      · exact hne h.symm
      · exact hpre h

/-- The three ends of the loop, where no call asks for help. -/
theorem argsLoop_cases (m : MuggleStr) {cs : List (Call HelpFlag OptVal)}
    (hhelp : .flag .help ∉ cs) (args : SysArgs A) :
    (RejectedFirst A cs ∧ ∃ args', argsLoop m cs args = .returned false args') ∨
    (¬ RejectedFirst A cs ∧ .outside ∈ cs ∧ argsLoop m cs args = .outside) ∨
    (¬ RejectedFirst A cs ∧ .outside ∉ cs ∧ ∃ args', argsLoop m cs args = .returned true args') := by
  induction cs generalizing args with
  | nil =>
      refine Or.inr (Or.inr ⟨?_, List.not_mem_nil, args, rfl⟩)
      rintro ⟨pre, c, post, heq, _⟩
      exact absurd heq.symm (by simp)
  | cons c cs ih =>
      obtain ⟨hc, hrest⟩ := not_or.mp fun h => hhelp (List.mem_cons.mpr h)
      rw [rejectedFirst_cons]
      cases c with
      | flag f => exact absurd rfl hc
      | unknown =>
          simp only [Rejected, false_or, ne_eq, reduceCtorEq, not_false_eq_true, true_and,
            List.mem_cons]
          exact ih hrest args
      | outside =>
          refine Or.inr (Or.inl ⟨?_, List.mem_cons_self, rfl⟩)
          rintro (h | ⟨h, _⟩)
          · exact h
          · exact h rfl
      | arg k s =>
          simp only [ne_eq, reduceCtorEq, not_false_eq_true, true_and, List.mem_cons, false_or]
          have hcase := optCase_eq_none_iff m args k s
          cases hopt : optCase m args k s with
          | none =>
              have hloop : argsLoop m (.arg k s :: cs) args = .returned false args := by
                simp only [argsLoop, hopt]
              exact Or.inl ⟨Or.inl (hcase.mp hopt), args, hloop⟩
          | some args' =>
              have hloop : argsLoop m (.arg k s :: cs) args = argsLoop m cs args' := by
                simp only [argsLoop, hopt]
              have hnot : ¬ Rejected A (.arg k s) := fun h =>
                nomatch hopt.symm.trans (hcase.mpr h)
              rw [hloop, or_iff_right hnot]
              exact ih hrest args'

/-- `nb_parse_args` looks at the entries of the table only, returns `true` for arguments that
can all be honoured, and otherwise `false`. -/
structure RejectsUnusable (m : MuggleStr) (A : Nat) (argv : List CString) : Prop where
  inside : (nbParseArgs m argv : Parsed A) ≠ .outside
  accepts : (∀ c ∈ calls shortOptions longOptions argv, Honoured A c) ↔
    ∃ args : SysArgs A, nbParseArgs m argv = .returned true args
  rejects : (¬ ∀ c ∈ calls shortOptions longOptions argv, Honoured A c) ↔
    ∃ args : SysArgs A, nbParseArgs m argv = .returned false args

/-- It does so exactly for arguments that can all be honoured, and for those of which a log
level or a frequency is bad before the table is left. -/
theorem rejectsUnusable_iff (m : MuggleStr) (A : Nat) {argv : List CString}
    (hhelp : .flag .help ∉ calls shortOptions longOptions argv) :
    RejectsUnusable m A argv ↔
      (∀ c ∈ calls shortOptions longOptions argv, Honoured A c) ∨
        RejectedFirst A (calls shortOptions longOptions argv) := by
  have hcases := argsLoop_cases m hhelp (defaultArgs : SysArgs A)
  have hparse : (nbParseArgs m argv : Parsed A) =
    argsLoop m (calls shortOptions longOptions argv) defaultArgs := rfl
  rcases hcases with ⟨hfirst, args, hloop⟩ | ⟨hfirst, hout, hloop⟩ | ⟨hfirst, hin, args, hloop⟩
  · refine iff_of_true ⟨?_, ?_, ?_⟩ (Or.inr hfirst)
    · rw [hparse, hloop]
      exact fun h => nomatch h
    · refine iff_of_false hfirst.not_honoured ?_
      rintro ⟨args', h⟩
      rw [hparse, hloop] at h
      cases h
    · exact iff_of_true hfirst.not_honoured ⟨args, hparse.trans hloop⟩
  · refine iff_of_false (fun h => h.inside (hparse.trans hloop)) ?_
    rintro (h | h)
    · exact h _ hout
    · exact hfirst h
  · rw [or_iff_left hfirst]
    constructor
    · intro h
      exact h.accepts.mpr ⟨args, hparse.trans hloop⟩
    · intro h
      refine ⟨?_, iff_of_true h ⟨args, hparse.trans hloop⟩, iff_of_false (fun hn => hn h) ?_⟩
      · rw [hparse, hloop]
        exact fun h => nomatch h
      · rintro ⟨args', h'⟩
        rw [hparse, hloop] at h'
        cases h'

/-- Conversions that take decimal numbers in the range of their type. -/
def plainStr : MuggleStr where
  toi s := (decimal s).bind fun v =>
    if -2 ^ 31 ≤ v ∧ v < 2 ^ 31 then some (Int32.ofInt v) else none
  toiLeft _ x := x
  tou s := (decimal s).bind fun v => if 0 ≤ v ∧ v < 2 ^ 32 then some (UInt32.ofInt v) else none
  touLeft _ x := x

/-- A size that is a number, and a level that is none. -/
theorem rejects_bad_level :
    RejectsUnusable plainStr 64 [.lit "--msg.size", .lit "64", .lit "--log.file=loud"] := by
  refine (rejectsUnusable_iff plainStr 64 (by decide)).mpr (Or.inr ?_)
  refine ⟨[.arg .msgSize (.lit "64")], .arg .logFile (.lit "loud"), [], by decide, ?_, by decide⟩
  exact ⟨trivial, by unfold OptVal.kind ValueKind.Accepts; decide⟩

/-- An unknown option leads out of the table; a text that is no number, a missing argument, an
unknown letter and a text that is too long are taken without a word. -/
theorem takes_unusable :
    (nbParseArgs plainStr [.lit "--foo=1"] : Parsed 64) = .outside ∧
    (∃ args : SysArgs 64, nbParseArgs plainStr [.lit "--user.id", .lit "abc"] =
      .returned true args) ∧
    (∃ args : SysArgs 64, nbParseArgs plainStr [.lit "--user.id"] = .returned true args) ∧
    (∃ args : SysArgs 64, nbParseArgs plainStr [.lit "-x"] = .returned true args) ∧
    (∃ args : SysArgs 64, nbParseArgs plainStr
      [.lit "--conn.port=a port of twenty."] = .returned true args) ∧
    ¬ RejectsUnusable plainStr 64 [.lit "--foo=1"] ∧
    ¬ RejectsUnusable plainStr 64 [.lit "--user.id", .lit "abc"] := by
  have hfoo : (nbParseArgs plainStr [.lit "--foo=1"] : Parsed 64) = .outside := by decide
  have habc : ∃ args : SysArgs 64, nbParseArgs plainStr [.lit "--user.id", .lit "abc"] =
      .returned true args := ⟨_, rfl⟩
  refine ⟨hfoo, habc, ⟨_, rfl⟩, ⟨_, rfl⟩, ⟨_, rfl⟩, fun h => h.inside hfoo, fun h => ?_⟩
  obtain ⟨v, hv, _⟩ := h.accepts.mpr habc (.arg .userId (.lit "abc")) (by decide)
  exact nomatch hv

/-! ## The last one stays -/

/-- An option of the table with its argument, in one of the two forms. -/
structure Given where
  opt : OptVal
  value : CString
  joined : Bool

/-- `--name=value`, or `--name value`. -/
def Given.argv (g : Given) : List CString :=
  if g.joined then [longWith g.opt.name g.value] else [longName g.opt.name, g.value]

theorem named (k : OptVal) : Named longOptions k.name k := by
  cases k <;> exact ⟨rfl, by decide, by decide⟩

/-- Each of them makes one call return. -/
theorem calls_given (gs : List Given) :
    calls shortOptions longOptions (gs.flatMap Given.argv) =
      gs.map fun g => .arg g.opt g.value := by
  induction gs with
  | nil => rfl
  | cons g gs ih =>
      rw [List.flatMap_cons, List.map_cons, ← ih]
      cases hj : g.joined with
      | true =>
          have hargv : g.argv = [longWith g.opt.name g.value] := if_pos hj
          rw [hargv]
          exact calls_longWith (named g.opt) g.value
      | false =>
          have hargv : g.argv = [longName g.opt.name, g.value] := if_neg (by simp [hj])
          rw [hargv]
          exact calls_longName (named g.opt) g.value

/-- The frequency that a text names. -/
def cpuFreqOf (s : CString) : Option CpuFreq :=
  if s = .lit "powersave" then some .powersave
  else if s = .lit "performance" then some .performance
  else none

/-- The value is a level, a frequency or a number that is converted; or it is a text. -/
def ValueKind.Converts (m : MuggleStr) : ValueKind → CString → Prop
  | .level, s => (nbLogStrToLevel s).isSome
  | .freq, s => (cpuFreqOf s).isSome
  | .int, s => (m.toi s).isSome
  | .uint, s => (m.tou s).isSome
  | .text _, _ => True

/-- The last argument of an option. -/
def last (gs : List Given) (k : OptVal) : Option CString :=
  ((gs.filter fun g => g.opt = k).getLast?).map Given.value

theorem last_concat (gs : List Given) (g : Given) (k : OptVal) :
    last (gs ++ [g]) k = if g.opt = k then some g.value else last gs k := by
  rw [last, List.filter_append]
  by_cases h : g.opt = k
  · have hone : [g].filter (fun g => g.opt = k) = [g] := by simp [h]
    rw [hone, List.getLast?_concat, if_pos h]
    rfl
  · have hnone : [g].filter (fun g => g.opt = k) = [] := by simp [h]
    rw [hnone, List.append_nil, if_neg h, last]

/-- The arguments in which each field has the value of the last argument of its option, or
its default. -/
def stored (m : MuggleStr) (gs : List Given) : SysArgs A where
  logConsoleLevel := ((last gs .logConsole).bind nbLogStrToLevel).getD .info
  logFileLevel := ((last gs .logFile).bind nbLogStrToLevel).getD .debug
  logPath := .holding ((last gs .logPath).getD (.lit ""))
  logBindCpu := ((last gs .logBindCpu).bind m.toi).getD (-1)
  recordPath := .holding ((last gs .recordPath).getD (.lit ""))
  recordBindCpu := ((last gs .recordBindCpu).bind m.toi).getD (-1)
  servHost := .holding ((last gs .serverHost).getD (.lit ""))
  servPort := .holding ((last gs .serverPort).getD (.lit ""))
  connHost := .holding ((last gs .connHost).getD (.lit ""))
  connPort := .holding ((last gs .connPort).getD (.lit ""))
  bindHost := .holding ((last gs .bindHost).getD (.lit ""))
  bindPort := .holding ((last gs .bindPort).getD (.lit ""))
  cpuFreq := ((last gs .cpuFreq).bind cpuFreqOf).getD .powersave
  cpuBind := ((last gs .cpuBind).bind m.toi).getD (-1)
  userId := ((last gs .userId).bind m.tou).getD 1
  roundNum := ((last gs .round).bind m.tou).getD 1000
  numPerRound := ((last gs .numPerRound).bind m.tou).getD 1
  roundIntervalMs := ((last gs .roundInterval).bind m.tou).getD 1
  msgSize := ((last gs .msgSize).bind m.tou).getD 0
  cliWait := ((last gs .cliWait).bind m.tou).getD 0

theorem defaultArgs_eq (hA : 0 < A) (m : MuggleStr) : (defaultArgs : SysArgs A) = stored m [] := by
  have hempty : ∀ {n : Nat}, 0 < n → CharBuf.copy (.zero : CharBuf n) (.lit "") =
      .holding (.lit "") := by
    intro n hn
    rw [CharBuf.zero_eq_holding, CharBuf.copy_holding hn]
  have hlast : ∀ k, last [] k = none := fun _ => rfl
  simp only [defaultArgs, stored, hlast, hempty hA, hempty (show 0 < 128 by decide),
    hempty (show 0 < 16 by decide), Option.bind_none, Option.getD_none]

theorem optCase_cpuFreq (args : SysArgs A) (s : CString) :
    optCase m args .cpuFreq s = (cpuFreqOf s).map fun f => { args with cpuFreq := f } := by
  simp only [optCase, cpuFreqOf]
  split_ifs
  · rfl
  · rfl
  · rfl

/-- One more option: its field changes, and no other. -/
theorem optCase_stored (hA : 0 < A) {gs : List Given} {g : Given}
    (hg : (g.opt.kind A).Converts m g.value) :
    optCase m (stored m gs : SysArgs A) g.opt g.value = some (stored m (gs ++ [g])) := by
  obtain ⟨k, v, j⟩ := g
  have hlast : ∀ k', last (gs ++ [⟨k, v, j⟩]) k' = if k = k' then some v else last gs k' :=
    last_concat gs ⟨k, v, j⟩
  cases k with
  | logConsole | logFile =>
      obtain ⟨level, hlevel⟩ := Option.isSome_iff_exists.mp hg
      simp [optCase, stored, hlast, hlevel]
  | logPath | recordPath | serverPort | connPort | bindPort | serverHost | connHost | bindHost =>
      simp [optCase, stored, hlast, CharBuf.copy_holding, hA]
  | logBindCpu | recordBindCpu | cpuBind =>
      obtain ⟨x, hx⟩ := Option.isSome_iff_exists.mp hg
      simp [optCase, stored, hlast, MuggleStr.strToi, hx]
  | cpuFreq =>
      obtain ⟨f, hf⟩ := Option.isSome_iff_exists.mp hg
      simp [optCase_cpuFreq, stored, hlast, hf]
  | userId | round | numPerRound | roundInterval | msgSize | cliWait =>
      obtain ⟨x, hx⟩ := Option.isSome_iff_exists.mp hg
      simp [optCase, stored, hlast, MuggleStr.strTou, hx]

theorem argsLoop_append {cs ds : List (Call HelpFlag OptVal)} {args args' : SysArgs A}
    (h : argsLoop m cs args = .returned true args') :
    argsLoop m (cs ++ ds) args = argsLoop m ds args' := by
  induction cs generalizing args with
  | nil =>
      obtain ⟨_, rfl⟩ := Parsed.returned.inj h
      rfl
  | cons c cs ih =>
      cases c with
      | flag f =>
          cases f
          cases h
      | unknown => exact ih h
      | outside => cases h
      | arg k s =>
          cases hopt : optCase m args k s with
          | none =>
              simp only [argsLoop, hopt] at h
              cases h
          | some args'' =>
              simp only [argsLoop, hopt] at h
              rw [List.cons_append]
              simp only [argsLoop, hopt]
              exact ih h

theorem argsLoop_given (hA : 0 < A) {gs : List Given}
    (hgs : ∀ g ∈ gs, (g.opt.kind A).Converts m g.value) :
    argsLoop m (gs.map fun g => .arg g.opt g.value) defaultArgs =
      .returned true (stored m gs : SysArgs A) := by
  induction gs using List.reverseRecOn with
  | nil => rw [defaultArgs_eq hA m]; rfl
  | append_singleton gs g ih =>
      have hlast := hgs g (List.mem_append_right gs List.mem_cons_self)
      have hprev := ih fun g' hg' => hgs g' (List.mem_append_left [g] hg')
      rw [List.map_append, argsLoop_append hprev]
      simp only [List.map_cons, List.map_nil, argsLoop, optCase_stored hA hlast]

/-- The character arrays. -/
def SysArgs.texts (args : SysArgs A) : List Bytes :=
  [args.logPath.bytes, args.recordPath.bytes, args.servHost.bytes, args.servPort.bytes,
    args.connHost.bytes, args.connPort.bytes, args.bindHost.bytes, args.bindPort.bytes]

/-- Options of the table, with values that are accepted or texts, in any order: each field is
that of the last argument of its option, the arrays are terminated, and only the order among
the arguments of one option matters. -/
theorem parse_last (hA : 0 < A) {gs : List Given}
    (hgs : ∀ g ∈ gs, (g.opt.kind A).Converts m g.value) :
    nbParseArgs m (gs.flatMap Given.argv) = .returned true (stored m gs : SysArgs A) ∧
    (∀ b ∈ (stored m gs : SysArgs A).texts, b.getLast? = some 0) ∧
    ∀ gs' : List Given,
      (∀ k, ((gs'.filter fun g => g.opt = k).map Given.value) =
        (gs.filter fun g => g.opt = k).map Given.value) →
      (nbParseArgs m (gs'.flatMap Given.argv) : Parsed A) =
        nbParseArgs m (gs.flatMap Given.argv) := by
  have hparse : ∀ {l : List Given}, (∀ g ∈ l, (g.opt.kind A).Converts m g.value) →
      nbParseArgs m (l.flatMap Given.argv) = .returned true (stored m l : SysArgs A) := by
    intro l hl
    rw [nbParseArgs, calls_given]
    exact argsLoop_given hA hl
  refine ⟨hparse hgs, ?_, fun gs' hsame => ?_⟩
  · have hlast : ∀ {n : Nat}, 0 < n → ∀ s, (CharBuf.holding s : CharBuf n).bytes.getLast? = some 0 :=
      fun hn s => CharBuf.getLast?_holding hn s
    simp [SysArgs.texts, stored, hlast, hA]
  · have hgs' : ∀ g ∈ gs', (g.opt.kind A).Converts m g.value := by
      intro g hg
      have hmem : g.value ∈ (gs'.filter fun g' => g'.opt = g.opt).map Given.value :=
        List.mem_map_of_mem (List.mem_filter.mpr ⟨hg, decide_eq_true rfl⟩)
      rw [hsame] at hmem
      obtain ⟨g', hg', hvalue⟩ := List.mem_map.mp hmem
      obtain ⟨hmem', hopt⟩ := List.mem_filter.mp hg'
      have hconv := hgs g' hmem'
      rwa [of_decide_eq_true hopt, hvalue] at hconv
    have hstored : (stored m gs' : SysArgs A) = stored m gs := by
      have hlast : last gs' = last gs := by
        funext k
        rw [last, last, ← List.getLast?_map, ← List.getLast?_map, hsame k]
      rw [stored, stored, hlast]
    rw [hparse hgs', hparse hgs, hstored]

/-- A long host, a size, and a short host. -/
def twoHosts : List Given :=
  [⟨.connHost, .lit "a.long.host.name", false⟩, ⟨.msgSize, .lit "64", true⟩,
    ⟨.connHost, .lit "::1", true⟩]

/-- Nothing of the long one is left, and where the size stands does not matter. -/
theorem short_host_stays :
    nbParseArgs plainStr (twoHosts.flatMap Given.argv) =
      .returned true (stored plainStr twoHosts : SysArgs 64) ∧
    (stored plainStr twoHosts : SysArgs 64).connHost.bytes =
      [58, 58, 49] ++ List.replicate 61 0 ∧
    (stored plainStr twoHosts : SysArgs 64).msgSize = 64 ∧
    (nbParseArgs plainStr ([⟨.msgSize, .lit "64", true⟩,
        ⟨.connHost, .lit "a.long.host.name", false⟩, ⟨.connHost, .lit "::1", true⟩].flatMap
          Given.argv) : Parsed 64) = nbParseArgs plainStr (twoHosts.flatMap Given.argv) := by
  have hvalid : ∀ g ∈ twoHosts, (g.opt.kind 64).Converts plainStr g.value := by
    intro g hg
    simp only [twoHosts, List.mem_cons, List.not_mem_nil, or_false] at hg
    rcases hg with rfl | rfl | rfl
    · exact trivial
    · exact (by decide : (plainStr.tou (.lit "64")).isSome)
    · exact trivial
  have h := parse_last (A := 64) (by decide) hvalid
  refine ⟨h.1, by decide, by decide, h.2.2 _ fun k => ?_⟩
  cases k <;> rfl

end NetBench

/-
# `NetBench.SysArgs` — the arguments of the programs

`nb_parse_args` of `sys_args.c`: the table of the long options, the defaults, and the loop
over the values of `getopt_long` with its switch.  The table has no last entry without a
name, and the switch no case for `'?'`.

Two things are parameters: the size of an address text, and what `muggle_str_toi` and
`muggle_str_tou` make of a text.
-/
import NetBench.Lib.Getopt
import NetBench.Table

namespace NetBench

open Lib Lib.Getopt

/-! ## Values -/

/-- `NB_LOG_LEVEL_*`. -/
inductive LogLevel where
  | trace
  | debug
  | info
  | warning
  | error
  | fatal
  deriving DecidableEq, Repr

/-- `nb_log_str_to_level`; `none` is its value -1. -/
def nbLogStrToLevel (s : CString) : Option LogLevel :=
  if s = .lit "TRACE" ∨ s = .lit "trace" then some .trace
  else if s = .lit "DEBUG" ∨ s = .lit "debug" then some .debug
  else if s = .lit "INFO" ∨ s = .lit "info" then some .info
  else if s = .lit "WARNING" ∨ s = .lit "warning" ∨ s = .lit "WARN" ∨ s = .lit "warn" then
    some .warning
  else if s = .lit "ERROR" ∨ s = .lit "error" then some .error
  else if s = .lit "FATAL" ∨ s = .lit "fatal" then some .fatal
  else none

/-- `NETBENCH_CPU_FREQ_*`. -/
inductive CpuFreq where
  | powersave
  | performance
  deriving DecidableEq, Repr

/-- The conversions of texts: the number, where there is one, and otherwise what the
variable is left with. -/
structure MuggleStr where
  toi : CString → Option Int32
  toiLeft : CString → Int32 → Int32
  tou : CString → Option UInt32
  touLeft : CString → UInt32 → UInt32

/-- `muggle_str_toi(s, &x, 10)`: what it returns, and `x` afterwards. -/
def MuggleStr.strToi (m : MuggleStr) (s : CString) (x : Int32) : Bool × Int32 :=
  match m.toi s with
  | some v => (true, v)
  | none => (false, m.toiLeft s x)

/-- `muggle_str_tou(s, &x, 10)`. -/
def MuggleStr.strTou (m : MuggleStr) (s : CString) (x : UInt32) : Bool × UInt32 :=
  match m.tou s with
  | some v => (true, v)
  | none => (false, m.touLeft s x)

/-- `nb_sys_args_t`; `A` is `MUGGLE_SOCKET_ADDR_STRLEN`. -/
structure SysArgs (A : Nat) extends NbSysArgs where
  logConsoleLevel : LogLevel
  logFileLevel : LogLevel
  logPath : CharBuf 128
  logBindCpu : Int32
  recordPath : CharBuf 128
  recordBindCpu : Int32
  servHost : CharBuf A
  servPort : CharBuf 16
  connHost : CharBuf A
  connPort : CharBuf 16
  bindHost : CharBuf A
  bindPort : CharBuf 16
  cpuFreq : CpuFreq
  cpuBind : Int32
  deriving DecidableEq

/-! ## Options -/

/-- The option without argument. -/
inductive HelpFlag where
  | help
  deriving DecidableEq, Repr

/-- `OPT_VAL_*`. -/
inductive OptVal where
  | logConsole
  | logFile
  | logPath
  | logBindCpu
  | recordPath
  | recordBindCpu
  | serverHost
  | serverPort
  | connHost
  | connPort
  | bindHost
  | bindPort
  | cpuFreq
  | cpuBind
  | userId
  | round
  | numPerRound
  | roundInterval
  | msgSize
  | cliWait
  deriving DecidableEq, Repr

/-- The name of an option. -/
def OptVal.name : OptVal → CString
  | .logConsole => .lit "log.console"
  | .logFile => .lit "log.file"
  | .logPath => .lit "log.path"
  | .logBindCpu => .lit "log.bind_cpu"
  | .recordPath => .lit "record.path"
  | .recordBindCpu => .lit "record.bind_cpu"
  | .serverHost => .lit "server.host"
  | .serverPort => .lit "server.port"
  | .connHost => .lit "conn.host"
  | .connPort => .lit "conn.port"
  | .bindHost => .lit "bind.host"
  | .bindPort => .lit "bind.port"
  | .cpuFreq => .lit "cpu.freq"
  | .cpuBind => .lit "cpu.bind"
  | .userId => .lit "user.id"
  | .round => .lit "round.num"
  | .numPerRound => .lit "round.num_per"
  | .roundInterval => .lit "round.interval"
  | .msgSize => .lit "msg.size"
  | .cliWait => .lit "cli.wait"

/-- The entries of the table that require an argument, in their order. -/
def optVals : List OptVal :=
  [.logConsole, .logFile, .logPath, .logBindCpu, .recordPath, .recordBindCpu, .serverHost,
    .serverPort, .connHost, .connPort, .bindHost, .bindPort, .cpuFreq, .cpuBind, .userId, .round,
    .numPerRound, .roundInterval, .msgSize, .cliWait]

/-- `long_options`. -/
def longOptions : List (LongOption HelpFlag OptVal) :=
  ⟨.lit "help", .noArgument .help⟩ :: optVals.map fun k => ⟨k.name, .requiredArgument k⟩

/-- `"h"`. -/
def shortOptions : List (UInt8 × HelpFlag) := [(104, .help)]

/-! ## `nb_parse_args` -/

variable {A : Nat} (m : MuggleStr)

/-- The arguments before the loop. -/
def defaultArgs : SysArgs A where
  logConsoleLevel := .info
  logFileLevel := .debug
  logPath := .copy .zero (.lit "")
  logBindCpu := -1
  recordPath := .copy .zero (.lit "")
  recordBindCpu := -1
  servHost := .copy .zero (.lit "")
  servPort := .copy .zero (.lit "")
  connHost := .copy .zero (.lit "")
  connPort := .copy .zero (.lit "")
  bindHost := .copy .zero (.lit "")
  bindPort := .copy .zero (.lit "")
  cpuFreq := .powersave
  cpuBind := -1
  userId := 1
  roundNum := 1000
  numPerRound := 1
  roundIntervalMs := 1
  msgSize := 0
  cliWait := 0

/-- The case of an option with its argument; `none` is `return false`. -/
def optCase (args : SysArgs A) (k : OptVal) (optarg : CString) : Option (SysArgs A) :=
  match k with
  | .logConsole => (nbLogStrToLevel optarg).map fun level => { args with logConsoleLevel := level }
  | .logFile => (nbLogStrToLevel optarg).map fun level => { args with logFileLevel := level }
  | .logPath => some { args with logPath := args.logPath.copy optarg }
  | .logBindCpu => some { args with logBindCpu := (m.strToi optarg args.logBindCpu).2 }
  | .recordPath => some { args with recordPath := args.recordPath.copy optarg }
  | .recordBindCpu => some { args with recordBindCpu := (m.strToi optarg args.recordBindCpu).2 }
  | .serverHost => some { args with servHost := args.servHost.copy optarg }
  | .serverPort => some { args with servPort := args.servPort.copy optarg }
  | .connHost => some { args with connHost := args.connHost.copy optarg }
  | .connPort => some { args with connPort := args.connPort.copy optarg }
  | .bindHost => some { args with bindHost := args.bindHost.copy optarg }
  | .bindPort => some { args with bindPort := args.bindPort.copy optarg }
  | .cpuFreq =>
      if optarg = .lit "powersave" then some { args with cpuFreq := .powersave }
      else if optarg = .lit "performance" then some { args with cpuFreq := .performance }
      else none
  | .cpuBind => some { args with cpuBind := (m.strToi optarg args.cpuBind).2 }
  | .userId => some { args with userId := (m.strTou optarg args.userId).2 }
  | .round => some { args with roundNum := (m.strTou optarg args.roundNum).2 }
  | .numPerRound => some { args with numPerRound := (m.strTou optarg args.numPerRound).2 }
  | .roundInterval => some { args with roundIntervalMs := (m.strTou optarg args.roundIntervalMs).2 }
  | .msgSize => some { args with msgSize := (m.strTou optarg args.msgSize).2 }
  | .cliWait => some { args with cliWait := (m.strTou optarg args.cliWait).2 }

/-- How a call of `nb_parse_args` ends: it returns, the program exits, or the table is left. -/
inductive Parsed (A : Nat) where
  | returned (ok : Bool) (args : SysArgs A)
  | exited
  | outside
  deriving DecidableEq

/-- The loop, over the values of `getopt_long`.  The switch has no case for `'?'`. -/
def argsLoop : List (Call HelpFlag OptVal) → SysArgs A → Parsed A
  | [], args => .returned true args
  | .flag .help :: _, _ => .exited
  | .arg k optarg :: cs, args =>
      match optCase m args k optarg with
      | some args' => argsLoop cs args'
      | none => .returned false args
  | .unknown :: cs, args => argsLoop cs args
  | .outside :: _, _ => .outside

/-- `nb_parse_args`, for the arguments after the program's name. -/
def nbParseArgs (argv : List CString) : Parsed A :=
  argsLoop m (calls shortOptions longOptions argv) defaultArgs

end NetBench

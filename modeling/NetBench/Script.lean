/-
# `NetBench.Script` — `network_latency_analysis.py` on files

The script with the methods of `LatencyHandle`, from the texts of the record files to
the texts of its reports.  A directory is a dictionary from names to texts, a row is
what `csv.DictReader` makes of a record, and an exception is `none`: a missing column,
a missing value or a text that is no integer where `int` is called, a field beyond the
limit of the `csv` module, an index outside of a list.

The floating-point functions of a report are a parameter, `Statistics`.
-/
import NetBench.Lib.Csv
import NetBench.Lib.Decimal
import NetBench.Latency

namespace NetBench.Script

open Lib Lib.Csv

/-! ## `LatencyHandle` -/

/-- The options that `getopt` finds. -/
inductive Opt where
  | help
  | input (arg : Text)
  | output (arg : Text)
  deriving DecidableEq, Repr

/-- `parse_args`: the input and the output directory. -/
def parseArgs (opts : List Opt) : Option (Text × Text) := do
  let (input, output) ← opts.foldlM (fun dirs opt =>
    match opt with
    | .help => none
    | .input arg => some (arg, dirs.2)
    | .output arg => some (dirs.1, arg)) ([], [])
  some (input, if output.length = 0 then input else output)

/-- `csv.field_size_limit()`. -/
def fieldSizeLimit : Nat := 131072

/-- `int(row[name])`. -/
def intField (row : DictRow) (name : Text) : Option Int := do
  Decimal.toInt (← (← row.get? name))

/-- The body of the loop of `load_record_list_dict`. -/
def addRecord (d : Dict Int (List DictRow)) (row : DictRow) : Option (Dict Int (List DictRow)) := do
  let k ← intField row "size".toList
  some (d.set k ((d.get? k).getD [] ++ [row]))

/-- The rows of a file. -/
def rowsOf (file : Text) : Option (List DictRow) := do
  some (dictReader (← records fieldSizeLimit (universalNewlines file)))

/-- `load_record_list_dict`. -/
def loadRecordListDict (d : Dict Int (List DictRow)) (file : Text) :
    Option (Dict Int (List DictRow)) := do
  (← rowsOf file).foldlM addRecord d

/-- The times of one message, by action. -/
abbrev Times := Dict (Option Text) Timespec

/-- The body of the loop of `cal_latency`. -/
def calItem (fst snd : Text) (v : Times) : Option Int := do
  some (elapsed (← v.get? (some fst)) (← v.get? (some snd)))

/-- `cal_latency`. -/
def calLatency (d : Dict Text Times) (fst snd : Text) : List Int :=
  d.items.filterMap fun x => calItem fst snd x.2

/-- `",".join(texts)`, and a newline. -/
def joined (texts : List Text) : Text := List.intercalate [','] texts ++ ['\n']

/-- The text that `open_file` writes. -/
def reportHead : Text :=
  joined (["size", "iter", "mean", "stdev"].map String.toList ++
    (List.range 10).map (fun p => "quantile_".toList ++ dec (p * 10)) ++
    ["quantile_".toList ++ dec 100])

/-- What is computed with floating-point numbers: `int(statistics.mean(ls))`,
`int(statistics.pstdev(ls))`, and `int(round(quantile_k * (n / 100)))`. -/
structure Statistics where
  mean : List Int → Int
  pstdev : List Int → Int
  index : Nat → Nat → Nat

/-- The columns that `dump_statistics_result` writes. -/
def dumpStatisticsResult (st : Statistics) (msgSize : Int) (latencyList : List Int) :
    Option (List Int) := do
  let ls := latencyList.mergeSort
  let n := ls.length
  let quantiles ← (List.range 10).mapM fun p => ls[st.index (p * 10) n]?
  let last ← ls.getLast?
  some ([msgSize, n, st.mean ls, st.pstdev ls] ++ quantiles ++ [last])

/-! ## The main program -/

/-- `"{}".format(v)`, for a value of a row. -/
def format : Option Text → Text
  | some t => t
  | none => "None".toList

/-- `"{}_{}".format(uid, id)`. -/
def keyText (uid id : Option Text) : Text := format uid ++ '_' :: format id

/-- The body of the loop that fills `record_data_dict`. -/
def addRow (d : Dict Text Times) (row : DictRow) : Option (Dict Text Times) := do
  let k := keyText (← row.get? "uid".toList) (← row.get? "id".toList)
  let action ← row.get? "action".toList
  let ts := Timespec.mk (← intField row "sec".toList) (← intField row "nsec".toList)
  some (d.set k (((d.get? k).getD ∅).set action ts))

/-- `record_data_dict`. -/
def recordDataDict (records : List DictRow) : Option (Dict Text Times) := records.foldlM addRow ∅

/-- An entry of `target`. -/
structure Target where
  filename : Text
  fst : Text
  snd : Text
  deriving DecidableEq, Repr

def target : List Target :=
  [⟨"report_send.csv".toList, "client.snd_begin".toList, "client.snd_end".toList⟩,
    ⟨"report_throughout.csv".toList, "client.snd_begin".toList, "upstream.rcv".toList⟩]

/-- `"records_{}_{}".format(msg_size, filename)`. -/
def recordsFilename (msgSize : Int) (filename : Text) : Text :=
  "records_".toList ++ decInt msgSize ++ '_' :: filename

/-- The text of such a file. -/
def recordsText (ls : List Int) : Text := (ls.map fun ℓ => decInt ℓ ++ ['\n']).flatten

/-- The texts of the files of a directory, by name. -/
abbrev Directory := Dict Text Text

/-- The output directory, and the reports that have been opened. -/
structure Output where
  dir : Directory
  opened : List Text

/-- The body of the loop over `target`. -/
def dumpTarget (st : Statistics) (msgSize : Int) (data : Dict Text Times) (out : Output)
    (t : Target) : Option Output := do
  let out :=
    if t.filename ∈ out.opened then out
    else ⟨out.dir.set t.filename reportHead, t.filename :: out.opened⟩
  let ls := calLatency data t.fst t.snd
  let dir := out.dir.set (recordsFilename msgSize t.filename) (recordsText ls)
  let result ← dumpStatisticsResult st msgSize ls
  let report := (dir.get? t.filename).getD [] ++ joined (result.map decInt)
  some ⟨dir.set t.filename report, out.opened⟩

/-- The body of the loop over the sizes. -/
def handleSize (st : Statistics) (out : Output) (x : Int × List DictRow) : Option Output := do
  let data ← recordDataDict x.2
  target.foldlM (dumpTarget st x.1 data) out

/-- A name that the loop over the files skips. -/
def isReport (name : Text) : Bool := "report_".toList.isPrefixOf name

/-- The files that are read, of a directory listed as `names`. -/
def considered (names : List Text) : List Text := names.filter fun name => !isReport name

/-- `record_list_dict`, after all files. -/
def recordListDict (dir : Directory) (names : List Text) : Option (Dict Int (List DictRow)) :=
  (considered names).foldlM (fun d name => do loadRecordListDict d (← dir.get? name)) ∅

/-- The directories, by path; where there is none, `os.listdir` and `open` raise an exception. -/
abbrev Directories := Text → Option Directory

/-- The loop over the sizes, with the body `handle`.  A missing output directory is not made:
`os.makedirs` is called when the path exists.  The first report that is opened in it raises. -/
def dumpInto (handle : Output → Int × List DictRow → Option Output)
    (d : Dict Int (List DictRow)) (fs : Directories) (output : Text) : Option Directories :=
  match fs output with
  | some dir => do
    let out ← d.items.foldlM handle ⟨dir, []⟩
    some (Function.update fs output (some out.dir))
  | none => if d.items.isEmpty then some fs else none

/-- The script, with the input directory listed as `names`: what it leaves in the
directories. -/
def main (st : Statistics) (opts : List Opt) (names : List Text) (fs : Directories) :
    Option Directories := do
  let (input, output) ← parseArgs opts
  if input.length = 0 then none
  else
    let d ← recordListDict (← fs input) names
    dumpInto (handleSize st) d fs output

/-- The text of a file. -/
def fileAt (fs : Directories) (path name : Text) : Option Text := do (← fs path).get? name

end NetBench.Script

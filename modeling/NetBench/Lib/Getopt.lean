/-
# `NetBench.Lib.Getopt` — the values returned by `getopt_long`

A program calls `getopt_long` until it returns -1.  What the calls return depends on the
arguments only, so they are one list, `calls`:

    --name value, --name=value     an option that requires an argument
    --name                         an option without argument
    -xyz                           short options, none of which has an argument
    --                             the end of the options
    anything else                  no option: skipped

A missing argument, an unwanted one and an unknown short option make the call return '?'.
The name of a long option is compared with the entries of the table one by one, until an
entry has that name or has no name.  The table of `calls` is one without such a last entry:
a name that it does not have is looked for beyond its end, where nothing is known of what
the call returns.
-/
import NetBench.Lib.CString

namespace NetBench.Lib.Getopt

/-! ## Options -/

/-- An option without argument that stands for `f`, or one with an argument, for `k`. -/
inductive Kind (φ κ : Type) where
  | noArgument (f : φ)
  | requiredArgument (k : κ)
  deriving DecidableEq

/-- `struct option`. -/
structure LongOption (φ κ : Type) where
  name : CString
  kind : Kind φ κ

/-- What a call gives the program. -/
inductive Call (φ κ : Type) where
  | flag (f : φ)
  | arg (k : κ) (optarg : CString)
  /-- `'?'` -/
  | unknown
  /-- the end of the table was passed -/
  | outside
  deriving DecidableEq

variable {φ κ : Type}

/-- `'-'` -/
def dash : UInt8 := 45

/-- `'='` -/
def equals : UInt8 := 61

/-- The first entry with the name. -/
def lookup (table : List (LongOption φ κ)) (name : List UInt8) : Option (LongOption φ κ) :=
  table.find? fun o => o.name.bytes = name

/-- The letters of one element that is `-` and letters. -/
def shortCalls (shorts : List (UInt8 × φ)) (letters : List UInt8) : List (Call φ κ) :=
  letters.map fun x =>
    match shorts.lookup x with
    | some f => .flag f
    | none => .unknown

/-- What follows the name of a long option: an argument, if there is an equals sign. -/
def inlineArg (body : List UInt8) : Option CString :=
  match body.dropWhile (· ≠ equals) with
  | [] => none
  | _ :: v => some (CString.ofBytes v)

/-- The name of a long option. -/
def inlineName (body : List UInt8) : List UInt8 := body.takeWhile (· ≠ equals)

/-- What one argument does: it ends the options, is no option, makes calls return, or is an
option whose argument comes next. -/
inductive Element (φ κ : Type) where
  | stop
  | operand
  | calls (cs : List (Call φ κ))
  | outside
  | expects (k : κ)
  deriving DecidableEq

/-- A long option, `--` before it. -/
def longElement (table : List (LongOption φ κ)) (body : List UInt8) : Element φ κ :=
  match lookup table (inlineName body) with
  | none => .outside
  | some o =>
      match o.kind, inlineArg body with
      | .requiredArgument k, some v => .calls [.arg k v]
      | .requiredArgument k, none => .expects k
      | .noArgument f, none => .calls [.flag f]
      | .noArgument _, some _ => .calls [.unknown]

/-- One argument. -/
def element (shorts : List (UInt8 × φ)) (table : List (LongOption φ κ)) (a : CString) :
    Element φ κ :=
  match a.bytes with
  | [] => .operand
  | x :: l =>
      if x ≠ dash then .operand
      else
        match l with
        | [] => .operand
        | y :: body =>
            if y ≠ dash then .calls (shortCalls shorts (y :: body))
            else if body = [] then .stop
            else longElement table body

/-- The calls for the arguments after the program's name; `pending` is an option whose
argument comes next. -/
def callsFrom (shorts : List (UInt8 × φ)) (table : List (LongOption φ κ)) :
    Option κ → List CString → List (Call φ κ)
  | none, [] => []
  | some _, [] => [.unknown]
  | some k, a :: argv => .arg k a :: callsFrom shorts table none argv
  | none, a :: argv =>
      match element shorts table a with
      | .stop => []
      | .operand => callsFrom shorts table none argv
      | .calls cs => cs ++ callsFrom shorts table none argv
      | .outside => [.outside]
      | .expects k => callsFrom shorts table (some k) argv

def calls (shorts : List (UInt8 × φ)) (table : List (LongOption φ κ)) (argv : List CString) :
    List (Call φ κ) :=
  callsFrom shorts table none argv

/-! ## Options as they are given -/

section Given

variable {shorts : List (UInt8 × φ)} {table : List (LongOption φ κ)} {argv : List CString}

/-- `--name` -/
def longName (name : CString) : CString := ((CString.lit "--").append name)

/-- `--name=value` -/
def longWith (name value : CString) : CString :=
  ((longName name).append (CString.lit "=")).append value

/-- A name that an entry of the table has. -/
structure Named (table : List (LongOption φ κ)) (name : CString) (k : κ) : Prop where
  found : lookup table name.bytes = some ⟨name, .requiredArgument k⟩
  nonempty : name.bytes ≠ []
  noEquals : equals ∉ name.bytes

theorem bytes_longName (name : CString) : (longName name).bytes = dash :: dash :: name.bytes := rfl

theorem bytes_longWith (name value : CString) :
    (longWith name value).bytes = dash :: dash :: (name.bytes ++ equals :: value.bytes) := by
  show ((CString.lit "--").bytes ++ name.bytes ++ (CString.lit "=").bytes) ++ value.bytes = _
  rw [List.append_assoc]
  rfl

theorem element_long {a : CString} {body : List UInt8} (ha : a.bytes = dash :: dash :: body)
    (hbody : body ≠ []) : element shorts table a = longElement table body := by
  simp only [element, ha, ne_eq, not_true_eq_false, if_false, hbody]

theorem ne_equals {name : List UInt8} (h : equals ∉ name) :
    ∀ x ∈ name, decide (x ≠ equals) = true := fun _ hx =>
  decide_eq_true (ne_of_mem_of_not_mem hx h)

theorem inlineName_self {name : List UInt8} (h : equals ∉ name) : inlineName name = name :=
  List.takeWhile_eq_self_iff.mpr (ne_equals h)

theorem inlineName_append {name : List UInt8} (h : equals ∉ name) (v : List UInt8) :
    inlineName (name ++ equals :: v) = name := by
  rw [inlineName, List.takeWhile_append_of_pos (ne_equals h)]
  simp

theorem inlineArg_self {name : List UInt8} (h : equals ∉ name) : inlineArg name = none := by
  rw [inlineArg, List.dropWhile_eq_nil_iff.mpr (ne_equals h)]

theorem inlineArg_append {name : List UInt8} (h : equals ∉ name) (value : CString) :
    inlineArg (name ++ equals :: value.bytes) = some value := by
  rw [inlineArg, List.dropWhile_append_of_pos (ne_equals h)]
  simp

/-- `--name value` makes one call return the option with its argument. -/
theorem calls_longName {name : CString} {k : κ} (h : Named table name k) (value : CString) :
    calls shorts table (longName name :: value :: argv) =
      .arg k value :: calls shorts table argv := by
  have hel : element shorts table (longName name) = .expects k := by
    rw [element_long (bytes_longName name) h.nonempty, longElement,
      inlineName_self h.noEquals, h.found]
    simp only [inlineArg_self h.noEquals]
  simp only [calls, callsFrom, hel]

/-- So does `--name=value`. -/
theorem calls_longWith {name : CString} {k : κ} (h : Named table name k) (value : CString) :
    calls shorts table (longWith name value :: argv) =
      .arg k value :: calls shorts table argv := by
  have hel : element shorts table (longWith name value) = .calls [.arg k value] := by
    rw [element_long (bytes_longWith name value) (by simp), longElement,
      inlineName_append h.noEquals, h.found]
    simp only [inlineArg_append h.noEquals]
  simp only [calls, callsFrom, hel]
  rfl

end Given

end NetBench.Lib.Getopt

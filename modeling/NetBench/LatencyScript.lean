/-
# `NetBench.LatencyScript` — the two readings of the script

`NetBench.Latency` has the loops of the script over rows that are typed already,
`NetBench.Script` has the whole script over the texts of a directory.  They are the same
computation: where the files that are read hold the rows of some records,

    the script comes to its end   ⟺   each size has five latencies for each report
                                                                  (`isSome_main_iff`)
    and the latencies that it writes are those of the typed rows  (`fileAt_throughout`)
-/
import NetBench.Rerun

namespace NetBench

open Lib Lib.Csv

/-! ## Records in a file -/

/-- A record with what the callback writes beside it. -/
structure Stamped where
  tid : Text
  sec : Nat
  nsec : Nat
  record : Record

namespace Stamped

/-- The typed row. -/
def row (x : Stamped) : Row := x.record.row ⟨x.sec, x.nsec⟩

/-- The row of the record file. -/
def entry (x : Stamped) : Script.Entry where
  tid := x.tid
  sec := x.sec
  nsec := x.nsec
  uid := x.record.userId.toNat
  id := x.record.id.toNat
  size := x.record.msgSize.toNat
  action := x.record.action.text.toList

theorem key_entry (x : Stamped) : x.entry.key = x.row.key.toList := by
  rw [Row.key, String.toList_append, String.toList_append, List.append_assoc]
  show dec _ ++ '_' :: dec _ = (Nat.repr _).toList ++ (['_'] ++ (Nat.repr _).toList)
  rw [Nat.toList_repr, Nat.toList_repr]
  rfl

end Stamped

/-! ## What the callback writes -/

/-- A time that `timespec_get` can give. -/
structure Timespec.Clocked (t : Timespec) : Prop where
  sec_nonneg : 0 ≤ t.tvSec
  sec_lt : t.tvSec < 2 ^ 63
  nsec_nonneg : 0 ≤ t.tvNsec
  nsec_lt : t.tvNsec < 1000000000

/-- The record in the ring, made by the thread `tid` at `ts`. -/
def Record.tsEntry (r : Record) (tid : UInt64) (ts : Timespec) : TsEntry :=
  ⟨tid, Int64.ofInt ts.tvSec, Int64.ofInt ts.tvNsec, r.userId, r.id, r.msgSize, r.action.text.toList⟩

/-- What is read of it. -/
def Record.stamped (r : Record) (tid : UInt64) (ts : Timespec) : Stamped :=
  ⟨dec tid.toNat, ts.tvSec.toNat, ts.tvNsec.toNat, r⟩

section Clocked

variable {r : Record} {tid : UInt64} {ts : Timespec}

theorem toInt_ofInt {z : Int} (hnonneg : 0 ≤ z) (hlt : z < 2 ^ 63) : (Int64.ofInt z).toInt = z :=
  Int64.toInt_ofInt_of_le (by omega) hlt

theorem toNat_ofInt {z : Int} (hnonneg : 0 ≤ z) (hlt : z < 2 ^ 63) :
    (Int64.ofInt z).toUInt64.toNat = z.toNat := by
  have h := toNat_of_nonneg (x := Int64.ofInt z) (by rw [toInt_ofInt hnonneg hlt]; exact hnonneg)
  rw [toInt_ofInt hnonneg hlt] at h
  omega

theorem Record.row_stamped (h : ts.Clocked) : (r.stamped tid ts).row = r.row ts := by
  rw [Stamped.row, stamped]
  congr 1
  exact congrArg₂ Timespec.mk (Int.toNat_of_nonneg h.sec_nonneg) (Int.toNat_of_nonneg h.nsec_nonneg)

theorem Record.entry_tsEntry (h : ts.Clocked) : (r.tsEntry tid ts).entry = (r.stamped tid ts).entry := by
  have hnsec := h.nsec_lt
  rw [TsEntry.entry, Stamped.entry, tsEntry, stamped]
  dsimp only
  rw [toNat_ofInt h.sec_nonneg h.sec_lt, toNat_ofInt h.nsec_nonneg (by omega)]

theorem Record.printable_tsEntry (h : ts.Clocked) : (r.tsEntry tid ts).record.Printable := by
  have hnsec := h.nsec_lt
  have hplain : ∀ x : Action, x.text.toList.all fun c =>
      decide (c ≠ ',' ∧ c ≠ '"' ∧ c ≠ '\n' ∧ c ≠ '\r') := by
    intro x
    cases x <;> rfl
  refine ⟨?_, ?_, ?_, fun c hc => of_decide_eq_true (List.all_eq_true.mp (hplain r.action) c hc)⟩
  · exact (toInt_ofInt h.sec_nonneg h.sec_lt).symm ▸ h.sec_nonneg
  · exact (toInt_ofInt h.nsec_nonneg (by omega)).symm ▸ h.nsec_nonneg
  · exact (toInt_ofInt h.nsec_nonneg (by omega)).symm ▸ hnsec

theorem Record.length_tsEntry : (r.tsEntry tid ts).record.action.length ≤ Script.fieldSizeLimit := by
  have hlength : ∀ x : Action, x.text.toList.length ≤ Script.fieldSizeLimit := by
    intro x
    cases x <;> decide
  exact hlength r.action

end Clocked

/-- A file with records that were made at `ts`, one after the other. -/
theorem fileHolds_tsEntries {dir : Script.Directory} {name : Text} {tid : UInt64}
    {xs : List (Timespec × Record)} (hclock : ∀ x ∈ xs, x.1.Clocked)
    (hdir : dir.get? name = some (recordFile (xs.map fun x => x.2.tsEntry tid x.1))) :
    Script.FileHolds dir name ((xs.map fun x => x.2.stamped tid x.1).map Stamped.entry) := by
  refine ⟨_, hdir, ?_⟩
  rw [rowsOf_recordFile, List.map_map, List.map_map]
  · rw [List.map_map]
    refine congrArg some (List.map_congr_left fun x hx => ?_)
    exact congrArg Script.Entry.row (Record.entry_tsEntry (hclock x hx))
  · intro e he
    obtain ⟨x, hx, rfl⟩ := List.mem_map.mp he
    exact Record.printable_tsEntry (hclock x hx)
  · intro e he
    obtain ⟨x, _, rfl⟩ := List.mem_map.mp he
    exact Record.length_tsEntry

/-! ## Names -/

theorem Action.text_injective : Function.Injective Action.text := by
  intro x y h
  cases x <;> cases y <;> first | rfl | exact absurd h (by decide)

/-- The column of an action in a dictionary of the script. -/
def Action.column (x : Action) : Option Text := some x.text.toList

theorem Action.column_injective : Function.Injective Action.column := fun _ _ h =>
  text_injective (String.toList_injective (Option.some.inj h))

theorem toList_injective : Function.Injective String.toList := fun _ _ h =>
  String.toList_injective h

/-! ## The loops -/

/-- `record_data_dict` over typed rows, with the texts of the script. -/
def Times.named (v : Times) : Script.Times := v.rename Action.column_injective id

theorem calItem_named (fst snd : Action) (v : Times) :
    Script.calItem fst.text.toList snd.text.toList v.named = calItem fst snd v := by
  have hget : ∀ x : Action, v.named.get? (some x.text.toList) = v.get? x := fun x =>
    (Dict.get?_rename Action.column_injective id v x).trans Option.map_id_apply
  rw [Script.calItem, hget, hget]
  rfl

theorem calLatency_named (d : Dict String Times) (fst snd : Action) :
    Script.calLatency (d.rename toList_injective Times.named) fst.text.toList snd.text.toList =
      calLatency d fst snd := by
  show (d.items.map _).filterMap _ = d.items.filterMap _
  rw [List.filterMap_map]
  congr 1
  funext x
  exact calItem_named fst snd x.2

theorem recordDataDict_named (xs : List Stamped) :
    Script.recordDataDict (xs.map fun x => x.entry.row) =
      some ((recordDataDict (xs.map Stamped.row)).rename toList_injective Times.named) := by
  have hentries : (xs.map fun x => x.entry.row) = (xs.map Stamped.entry).map Script.Entry.row := by
    rw [List.map_map]
    rfl
  rw [hentries, Script.recordDataDict_map, Dict.table, List.foldl_map, recordDataDict,
    List.foldl_map]
  exact congrArg some (Dict.table_rename toList_injective Action.column_injective
    (fun x _ => x.key_entry) fun _ _ => rfl)

/-! ## The latencies -/

/-- The latencies of a size are those of the typed rows. -/
theorem calLatency_tableOf (files : List (List Stamped)) (n : Nat) (fst snd : Action) :
    Script.calLatency
        (Script.tableOf (Script.ofSize (files.flatten.map Stamped.entry) n))
        fst.text.toList snd.text.toList =
      latencyList (files.map (List.map Stamped.row)) n fst snd := by
  generalize hxs : (files.flatten.filter fun x => x.record.msgSize.toNat = n) = xs
  have hentries : Script.ofSize (files.flatten.map Stamped.entry) n = xs.map Stamped.entry := by
    rw [Script.ofSize, List.filter_map, ← hxs]
    congr 2
    funext x
    exact decide_eq_decide.mpr Int.ofNat_inj
  have hrows : ((recordListDict (files.map (List.map Stamped.row))).get? n).getD [] =
      xs.map Stamped.row := by
    rw [recordListDict_eq_group, Dict.getD_group, ← List.map_flatten, List.filter_map, ← hxs]
    rfl
  have hdata := recordDataDict_named xs
  have htexts : (xs.map fun x => x.entry.row) = (xs.map Stamped.entry).map Script.Entry.row := by
    rw [List.map_map]
    rfl
  rw [htexts, Script.recordDataDict_map, Option.some.injEq] at hdata
  rw [hentries, Script.tableOf, hdata, calLatency_named, latencyList, hrows]

end NetBench

namespace NetBench.Script

open Lib Lib.Csv

/-! ## The files of the output directory -/

theorem underscore_notMem_decInt (z : Int) : '_' ∉ decInt z := fun hz =>
  absurd (Decimal.mem_decInt hz) (by decide)

/-- What stands before the first separator, and what behind it. -/
theorem append_cons_inj {α : Type} {a : α} {xs ys zs ws : List α} (hx : a ∉ xs) (hy : a ∉ ys)
    (h : xs ++ a :: zs = ys ++ a :: ws) : xs = ys ∧ zs = ws := by
  induction xs generalizing ys with
  | nil =>
      cases ys with
      | nil => exact ⟨rfl, (List.cons.inj h).2⟩
      | cons y ys => exact absurd (List.cons.inj h).1 fun heq => hy (heq ▸ List.mem_cons_self)
  | cons x xs ih =>
      cases ys with
      | nil => exact absurd (List.cons.inj h).1 fun heq => hx (heq ▸ List.mem_cons_self)
      | cons y ys =>
          obtain ⟨rfl, htail⟩ := List.cons.inj h
          obtain ⟨rfl, hrest⟩ := ih (fun hmem => hx (List.mem_cons_of_mem _ hmem))
            (fun hmem => hy (List.mem_cons_of_mem _ hmem)) htail
          exact ⟨rfl, hrest⟩

theorem recordsFilename_inj {n n' : Int} {filename filename' : Text}
    (h : recordsFilename n filename = recordsFilename n' filename') :
    n = n' ∧ filename = filename' := by
  -- without `records_`
  have h : decInt n ++ '_' :: filename = decInt n' ++ '_' :: filename' :=
    congrArg (List.drop 8) h
  obtain ⟨hn, hname⟩ := append_cons_inj (underscore_notMem_decInt n) (underscore_notMem_decInt n') h
  exact ⟨Decimal.decInt_injective hn, hname⟩

theorem filename_inj {t t' : Target} (ht : t ∈ target) (ht' : t' ∈ target)
    (h : t.filename = t'.filename) : t = t' := by
  simp only [target, List.mem_cons, List.not_mem_nil, or_false] at ht ht'
  rcases ht with rfl | rfl <;> rcases ht' with rfl | rfl
  · rfl
  · exact absurd h (by decide)
  · exact absurd h (by decide)
  · rfl

/-- The file with the latencies of a size and a target is there. -/
def HasLatencies (n : Int) (t : Target) (ls : List Int) (dir : Directory) : Prop :=
  dir.get? (recordsFilename n t.filename) = some (recordsText ls)

/-- Another size, or the same one once more. -/
theorem HasLatencies.handleSize {st : Statistics} {n : Int} {t : Target} (ht : t ∈ target)
    {ls : List Int} {out out' : Output} {x : Int × List DictRow}
    (hx : x.1 = n → ∀ data, recordDataDict x.2 = some data → calLatency data t.fst t.snd = ls)
    (h : handleSize st out x = some out') (hls : HasLatencies n t ls out.dir) :
    HasLatencies n t ls out'.dir := by
  simp only [Script.handleSize, Option.bind_eq_bind, Option.bind_eq_some_iff] at h
  obtain ⟨data, hdata, hfold⟩ := h
  refine foldlM_invariant (P := fun out => HasLatencies n t ls out.dir) ?_ hls hfold
  intro t' ht' out out' hls hstep
  have hget := get?_dumpTarget ht' (isReport_recordsFilename n t.filename) hstep
  by_cases heq : recordsFilename n t.filename = recordsFilename x.1 t'.filename
  · obtain ⟨hn, hname⟩ := recordsFilename_inj heq
    obtain rfl := filename_inj ht ht' hname
    rw [if_pos heq, hx hn.symm data hdata] at hget
    exact hget
  · rw [if_neg heq] at hget
    exact hget.trans hls

/-- Each size writes its latencies. -/
theorem hasLatencies_handleSize {st : Statistics} {x : Int × List DictRow} {out out' : Output}
    {t : Target} (ht : t ∈ target) {data : Dict Text Times} (hdata : recordDataDict x.2 = some data)
    (h : handleSize st out x = some out') :
    HasLatencies x.1 t (calLatency data t.fst t.snd) out'.dir := by
  rw [handleSize, hdata] at h
  refine foldlM_reaches
    (P := fun out => HasLatencies x.1 t (calLatency data t.fst t.snd) out.dir) ?_ ht ?_ h
  · intro t' ht' out out' hls hstep
    have hget := get?_dumpTarget ht' (isReport_recordsFilename x.1 t.filename) hstep
    by_cases heq : recordsFilename x.1 t.filename = recordsFilename x.1 t'.filename
    · obtain rfl := filename_inj ht ht' (recordsFilename_inj heq).2
      rw [if_pos rfl] at hget
      exact hget
    · rw [if_neg heq] at hget
      exact hget.trans hls
  · intro out out' hstep
    exact (get?_dumpTarget ht (isReport_recordsFilename x.1 t.filename) hstep).trans (if_pos rfl)

/-! ## The script on a directory of record files -/

section Directory

variable {st : Statistics} {opts : List Opt} {input output : Text} {names : List Text}
variable {fs fs' : Directories} {dir : Directory} {files : List (List Entry)}

theorem main_of_holding (hopts : parseArgs opts = some (input, output)) (hne : input ≠ [])
    (hinput : fs input = some dir) (hdir : Holding dir names files) : main st opts names fs =
      dumpInto (handleSize st) (Dict.group rowSize ∅ (files.flatten.map Entry.row)) fs output := by
  have hlen : input.length ≠ 0 := fun h => hne (List.length_eq_zero_iff.mp h)
  rw [main, hopts]
  simp only [Option.bind_eq_bind, Option.bind_some, if_neg hlen, hinput, recordListDict_holding hdir]

/-- The rows of a size make the table of its entries. -/
theorem recordDataDict_group {xs : List Entry} {x : Int × List DictRow}
    (hx : x ∈ (Dict.group rowSize ∅ (xs.map Entry.row)).items) :
    recordDataDict x.2 = some (tableOf (ofSize xs x.1)) := by
  obtain ⟨_, hrecords⟩ := Dict.of_mem_group hx
  rw [hrecords, filter_rowSize_map]
  exact recordDataDict_map _

theorem exists_mem_group {xs : List Entry} {x : Entry} (hx : x ∈ xs) :
    ∃ rows, ((x.size : Int), rows) ∈ (Dict.group rowSize ∅ (xs.map Entry.row)).items := by
  rcases hget : (Dict.group rowSize ∅ (xs.map Entry.row)).get? (x.size : Int) with _ | rows
  · exact absurd (rowSize_row x)
      ((Dict.get?_group_eq_none _ _ _).mp hget _ (List.mem_map_of_mem hx))
  · exact ⟨rows, Dict.mem_items.mpr hget⟩

/-- The script comes to its end just when each size has five latencies for each report, and
there is a directory for the reports if there are any. -/
theorem main_isSome_iff (hst : st.Indexes) (hmiss : st.Misses)
    (hopts : parseArgs opts = some (input, output)) (hne : input ≠ [])
    (hinput : fs input = some dir) (hdir : Holding dir names files) :
    (main st opts names fs).isSome ↔
      (∀ x ∈ files.flatten, ∀ t ∈ target,
        5 ≤ (calLatency (tableOf (ofSize files.flatten x.size)) t.fst t.snd).length) ∧
      (files.flatten = [] ∨ (fs output).isSome) := by
  rw [main_of_holding hopts hne hinput hdir, dumpInto_isSome_iff fun x hx out =>
    handleSize_isSome_iff hst hmiss (recordDataDict_group hx) out]
  refine and_congr ?_ (or_congr_left ?_)
  · constructor
    · intro h x hx
      obtain ⟨rows, hrows⟩ := exists_mem_group hx
      exact h _ hrows
    · intro h y hy
      obtain ⟨⟨row, hrow, hn⟩, _⟩ := Dict.of_mem_group hy
      obtain ⟨x, hx, rfl⟩ := List.mem_map.mp hrow
      rw [← hn, rowSize_row]
      exact h x hx
  · constructor
    · intro hnil
      by_contra hsome
      exact items_ne_nil hsome hnil
    · intro hnil
      rw [hnil]
      rfl

/-- What it leaves for a size, beside the reports. -/
theorem fileAt_of_main (hopts : parseArgs opts = some (input, output)) (hne : input ≠ [])
    (hinput : fs input = some dir) (hdir : Holding dir names files)
    (h : main st opts names fs = some fs') {x : Entry} (hx : x ∈ files.flatten) {t : Target}
    (ht : t ∈ target) :
    fileAt fs' output (recordsFilename x.size t.filename) =
      some (recordsText (calLatency (tableOf (ofSize files.flatten x.size)) t.fst t.snd)) := by
  rw [main_of_holding hopts hne hinput hdir] at h
  obtain ⟨rows, hrows⟩ := exists_mem_group hx
  cases hout : fs output with
  | none =>
      rw [dumpInto_of_none hout, if_neg] at h
      · exact nomatch h
      · rw [List.isEmpty_iff]
        exact List.ne_nil_of_mem hrows
  | some dir' =>
      rw [dumpInto_of_some hout] at h
      obtain ⟨out, hfold, rfl⟩ := Option.map_eq_some_iff.mp h
      rw [fileAt, Function.update_self]
      refine foldlM_reaches (P := fun out => HasLatencies x.size t _ out.dir) ?_ hrows ?_ hfold
      · intro y hy out out' hls hstep
        refine hls.handleSize ht ?_ hstep
        rintro hn data hdata
        rw [recordDataDict_group hy, hn] at hdata
        rw [Option.some.inj hdata]
      · intro out out' hstep
        exact hasLatencies_handleSize ht (recordDataDict_group hrows) hstep

end Directory

/-! ## Typed rows -/

section Rows

variable {st : Statistics} {opts : List Opt} {input output : Text} {names : List Text}
variable {fs fs' : Directories} {dir : Directory} {files : List (List Stamped)}

/-- The rows of the files. -/
abbrev rowsOfFiles (files : List (List Stamped)) : List (List Row) :=
  files.map (List.map Stamped.row)

theorem exists_size_iff {n : Nat} : (∃ r ∈ (rowsOfFiles files).flatten, r.size = n) ↔
    ∃ x ∈ (files.map (List.map Stamped.entry)).flatten, x.size = n := by
  rw [rowsOfFiles, ← List.map_flatten, ← List.map_flatten]
  simp only [List.mem_map, exists_exists_and_eq_and]
  exact Iff.rfl

/-- The script comes to its end just when each size has five latencies for each report. -/
theorem isSome_main_iff (hst : st.Indexes) (hmiss : st.Misses)
    (hopts : parseArgs opts = some (input, output)) (hne : input ≠ [])
    (hinput : fs input = some dir) (hdir : Holding dir names (files.map (List.map Stamped.entry)))
    (hout : (fs output).isSome) :
    (main st opts names fs).isSome ↔ ∀ n, (∃ r ∈ (rowsOfFiles files).flatten, r.size = n) →
      5 ≤ (latencyList (rowsOfFiles files) n .clientSndBegin .clientSndEnd).length ∧
      5 ≤ (latencyList (rowsOfFiles files) n .clientSndBegin .upstreamRcv).length := by
  rw [main_isSome_iff hst hmiss hopts hne hinput hdir, and_iff_left (Or.inr hout)]
  have htwo : ∀ n : Nat, (∀ t ∈ target, 5 ≤ (calLatency (tableOf (ofSize
      (files.map (List.map Stamped.entry)).flatten n)) t.fst t.snd).length) ↔
      5 ≤ (latencyList (rowsOfFiles files) n .clientSndBegin .clientSndEnd).length ∧
      5 ≤ (latencyList (rowsOfFiles files) n .clientSndBegin .upstreamRcv).length := by
    intro n
    rw [← List.map_flatten, ← calLatency_tableOf, ← calLatency_tableOf, target,
      List.forall_mem_cons, List.forall_mem_singleton]
    rfl
  constructor
  · intro h n hn
    obtain ⟨x, hx, rfl⟩ := exists_size_iff.mp hn
    exact (htwo x.size).mp (h x hx)
  · intro h x hx
    exact (htwo x.size).mpr (h x.size (exists_size_iff.mpr ⟨x, hx, rfl⟩))

/-- The throughput latencies that it writes are those of the rows. -/
theorem fileAt_throughout (hopts : parseArgs opts = some (input, output)) (hne : input ≠ [])
    (hinput : fs input = some dir) (hdir : Holding dir names (files.map (List.map Stamped.entry)))
    (h : main st opts names fs = some fs') {n : Nat}
    (hn : ∃ r ∈ (rowsOfFiles files).flatten, r.size = n) :
    fileAt fs' output (recordsFilename n "report_throughout.csv".toList) =
      some (recordsText (latencyList (rowsOfFiles files) n .clientSndBegin .upstreamRcv)) := by
  obtain ⟨x, hx, rfl⟩ := exists_size_iff.mp hn
  have hfile := fileAt_of_main hopts hne hinput hdir h hx
    (List.mem_cons_of_mem _ List.mem_cons_self)
  rw [← calLatency_tableOf, List.map_flatten]
  exact hfile

end Rows

end NetBench.Script

/-
# `NetBench.LatencyOrder` — the analysis does not depend on the order of the rows

The rows of some entries are spread over the files of a directory in any way, the files
are listed in any order and each file has its rows in any order.  As long as no size,
message and action occur twice, what is computed for a size and a pair of actions is
fixed by the entries:

    the latencies are those of the pairs of entries of one message, each
    message taken once                                  (`calLatency_table`)
    the columns of a report are the same                (`latencies_of_directory`)
-/
import NetBench.RecordRoundTrip
import Mathlib.Data.List.ProdSigma
import Mathlib.Data.List.Sort

namespace NetBench.Script

open Lib Lib.Csv

/-! ## Pairs of entries -/

/-- What may occur once. -/
def Entry.ident (x : Entry) : Nat × Nat × Nat × Text := (x.size, x.uid, x.id, x.action)

/-- Two entries of one message of size `n`, with the two actions. -/
def Matched (n : Int) (fst snd : Text) (p : Entry × Entry) : Prop :=
  (p.1.size = n ∧ p.1.action = fst) ∧ (p.2.size = n ∧ p.2.action = snd) ∧
    p.1.uid = p.2.uid ∧ p.1.id = p.2.id

instance (n : Int) (fst snd : Text) : DecidablePred (Matched n fst snd) :=
  fun _ => inferInstanceAs (Decidable (_ ∧ _))

def pairs (es : List Entry) (n : Int) (fst snd : Text) : List (Entry × Entry) :=
  (es ×ˢ es).filter fun p => Matched n fst snd p

def latencies (es : List Entry) (n : Int) (fst snd : Text) : List Int :=
  (pairs es n fst snd).map fun p => elapsed p.1.ts p.2.ts

theorem mem_pairs {es : List Entry} {n : Int} {fst snd : Text} {p : Entry × Entry} :
    p ∈ pairs es n fst snd ↔ (p.1 ∈ es ∧ p.2 ∈ es) ∧ Matched n fst snd p := by
  rw [pairs, List.mem_filter, List.mem_product, decide_eq_true_iff]

theorem eq_of_ident {es : List Entry} (hes : (es.map Entry.ident).Nodup) {x y : Entry}
    (hx : x ∈ es) (hy : y ∈ es) (hsize : x.size = y.size) (huid : x.uid = y.uid)
    (hid : x.id = y.id) (haction : x.action = y.action) : x = y := by
  refine List.inj_on_of_nodup_map hes hx hy ?_
  rw [Entry.ident, Entry.ident, hsize, huid, hid, haction]

/-- No message is taken twice. -/
theorem nodup_pairs {es : List Entry} (hes : (es.map Entry.ident).Nodup) (n : Int)
    (fst snd : Text) :
    ((pairs es n fst snd).map fun p => (p.1.uid, p.1.id)).Nodup := by
  have hnodup : (pairs es n fst snd).Nodup :=
    ((hes.of_map _).product (hes.of_map _)).filter _
  refine hnodup.map_on ?_
  intro p hp q hq hpq
  obtain ⟨⟨hp₁, hp₂⟩, ⟨hpn₁, hpa₁⟩, ⟨hpn₂, hpa₂⟩, hpuid, hpid⟩ := mem_pairs.mp hp
  obtain ⟨⟨hq₁, hq₂⟩, ⟨hqn₁, hqa₁⟩, ⟨hqn₂, hqa₂⟩, hquid, hqid⟩ := mem_pairs.mp hq
  obtain ⟨huid, hid⟩ := Prod.mk.inj hpq
  refine Prod.ext ?_ ?_
  · exact eq_of_ident hes hp₁ hq₁ (by omega) huid hid (hpa₁.trans hqa₁.symm)
  · exact eq_of_ident hes hp₂ hq₂ (by omega) (by omega) (by omega) (hpa₂.trans hqa₂.symm)

/-! ## What the table holds -/

/-- The table of some entries: what `record_data_dict` is for their rows. -/
abbrev tableOf (xs : List Entry) : Dict Text Times :=
  Dict.table Entry.key (fun x => some x.action) Entry.ts xs

/-- The time of a message and an action is that of the entry. -/
theorem get?_tableOf {xs : List Entry}
    (hxs : ∀ x ∈ xs, ∀ y ∈ xs, x.key = y.key → x.action = y.action → x = y)
    {k a : Text} {t : Timespec} :
    (((tableOf xs).get? k).getD ∅).get? (some a) = some t ↔
      ∃ x ∈ xs, x.key = k ∧ x.action = a ∧ x.ts = t := by
  rw [Dict.getD_table, Option.map_eq_some_iff]
  constructor
  · rintro ⟨x, hx, rfl⟩
    obtain ⟨hmem, hdec⟩ := List.mem_filter.mp (List.mem_of_getLast? hx)
    obtain ⟨hk, ha⟩ := of_decide_eq_true hdec
    exact ⟨x, hmem, hk, Option.some.inj ha, rfl⟩
  · rintro ⟨x, hx, hk, ha, rfl⟩
    have hmem : x ∈ xs.filter fun y => y.key = k ∧ some y.action = some a :=
      List.mem_filter.mpr ⟨hx, decide_eq_true ⟨hk, congrArg some ha⟩⟩
    -- all entries that are looked for are the same, so the last one is `x`
    rcases hlast : (xs.filter fun y => y.key = k ∧ some y.action = some a).getLast? with _ | y
    · rw [List.getLast?_eq_none_iff] at hlast
      rw [hlast] at hmem
      exact absurd hmem List.not_mem_nil
    · obtain ⟨hy, hdec⟩ := List.mem_filter.mp (List.mem_of_getLast? hlast)
      obtain ⟨hyk, hya⟩ := of_decide_eq_true hdec
      obtain rfl := hxs x hx y hy (hk.trans hyk.symm) (ha.trans (Option.some.inj hya).symm)
      exact ⟨x, hlast, rfl⟩

theorem calItem_iff {fst snd : Text} {v : Times} {ℓ : Int} :
    calItem fst snd v = some ℓ ↔
      ∃ b e, v.get? (some fst) = some b ∧ v.get? (some snd) = some e ∧ elapsed b e = ℓ := by
  simp only [calItem, Option.bind_eq_bind, Option.bind_eq_some_iff, Option.some.injEq]
  constructor
  · rintro ⟨b, hb, e, he, hℓ⟩
    exact ⟨b, e, hb, he, hℓ⟩
  · rintro ⟨b, e, hb, he, hℓ⟩
    exact ⟨b, hb, e, he, hℓ⟩

/-- Each latency with the key of its message. -/
def keyed (d : Dict Text Times) (fst snd : Text) : List (Text × Int) :=
  d.items.filterMap fun x => (calItem fst snd x.2).map (x.1, ·)

theorem map_snd_keyed (d : Dict Text Times) (fst snd : Text) :
    (keyed d fst snd).map Prod.snd = calLatency d fst snd := by
  rw [keyed, List.map_filterMap, calLatency]
  congr 1
  funext x
  rw [Option.map_map]
  exact Option.map_id' ..

theorem nodup_keyed (d : Dict Text Times) (fst snd : Text) : (keyed d fst snd).Nodup := by
  have hkeys : d.items.Pairwise fun x y => x.1 ≠ y.1 := List.pairwise_map.mp d.nodup
  rw [keyed, List.Nodup, List.pairwise_filterMap]
  refine hkeys.imp ?_
  intro x y hne b hb c hc hbc
  obtain ⟨_, _, rfl⟩ := Option.map_eq_some_iff.mp hb
  obtain ⟨_, _, rfl⟩ := Option.map_eq_some_iff.mp hc
  exact hne (Prod.mk.inj hbc).1

theorem mem_keyed {d : Dict Text Times} {fst snd : Text} {k : Text} {ℓ : Int} :
    (k, ℓ) ∈ keyed d fst snd ↔ calItem fst snd ((d.get? k).getD ∅) = some ℓ := by
  rw [keyed, List.mem_filterMap]
  constructor
  · rintro ⟨⟨k', v⟩, hv, hcal⟩
    obtain ⟨ℓ', hℓ', heq⟩ := Option.map_eq_some_iff.mp hcal
    obtain ⟨rfl, rfl⟩ := Prod.mk.inj heq
    rw [Dict.mem_items.mp hv]
    exact hℓ'
  · intro h
    rcases hv : d.get? k with _ | v
    · rw [hv] at h
      exact nomatch h
    · rw [hv] at h
      have h : calItem fst snd v = some ℓ := h
      exact ⟨(k, v), Dict.mem_items.mpr hv, by rw [h]; rfl⟩

/-! ## One size of a directory -/

/-- The entries of a size. -/
def ofSize (es : List Entry) (n : Int) : List Entry := es.filter fun x => (x.size : Int) = n

theorem mem_ofSize {es : List Entry} {n : Int} {x : Entry} :
    x ∈ ofSize es n ↔ x ∈ es ∧ (x.size : Int) = n := by
  rw [ofSize, List.mem_filter, decide_eq_true_iff]

theorem unique_ofSize {es xs : List Entry} (hes : (es.map Entry.ident).Nodup)
    (hperm : xs.Perm es) (n : Int) :
    ∀ x ∈ ofSize xs n, ∀ y ∈ ofSize xs n, x.key = y.key → x.action = y.action → x = y := by
  intro x hx y hy hkey haction
  obtain ⟨hx, hxn⟩ := mem_ofSize.mp hx
  obtain ⟨hy, hyn⟩ := mem_ofSize.mp hy
  obtain ⟨huid, hid⟩ := Entry.key_inj.mp hkey
  exact eq_of_ident hes (hperm.mem_iff.mp hx) (hperm.mem_iff.mp hy) (by omega) huid hid haction

/-- Different messages have different keys. -/
theorem nodup_keyed_pairs {es : List Entry} (hes : (es.map Entry.ident).Nodup) (n : Int)
    (fst snd : Text) :
    ((pairs es n fst snd).map fun p => (p.1.key, elapsed p.1.ts p.2.ts)).Nodup := by
  have hnodup := nodup_pairs hes n fst snd
  rw [List.Nodup, List.pairwise_map] at hnodup ⊢
  refine hnodup.imp ?_
  intro p q hne heq
  obtain ⟨huid, hid⟩ := Entry.key_inj.mp (Prod.mk.inj heq).1
  exact hne (Prod.ext huid hid)

/-- A key and a latency: once in the table's items, once among the pairs. -/
theorem keyed_table {es xs : List Entry} (hes : (es.map Entry.ident).Nodup)
    (hperm : xs.Perm es) (n : Int) (fst snd : Text) :
    (keyed (tableOf (ofSize xs n)) fst snd).Perm
      ((pairs es n fst snd).map fun p => (p.1.key, elapsed p.1.ts p.2.ts)) := by
  have hone := unique_ofSize hes hperm n
  have hmem : ∀ {x : Entry}, x ∈ ofSize xs n ↔ x ∈ es ∧ (x.size : Int) = n := by
    intro x
    rw [mem_ofSize, hperm.mem_iff]
  rw [List.perm_ext_iff_of_nodup (nodup_keyed _ fst snd) (nodup_keyed_pairs hes n fst snd)]
  rintro ⟨k, ℓ⟩
  rw [mem_keyed, calItem_iff, List.mem_map]
  constructor
  · rintro ⟨b, e, hb, he, hℓ⟩
    obtain ⟨x, hx, hxk, hxa, rfl⟩ := (get?_tableOf hone).mp hb
    obtain ⟨y, hy, hyk, hya, rfl⟩ := (get?_tableOf hone).mp he
    obtain ⟨hx, hxn⟩ := hmem.mp hx
    obtain ⟨hy, hyn⟩ := hmem.mp hy
    obtain ⟨huid, hid⟩ := Entry.key_inj.mp (hxk.trans hyk.symm)
    refine ⟨(x, y), mem_pairs.mpr ⟨⟨hx, hy⟩, ⟨hxn, hxa⟩, ⟨hyn, hya⟩, huid, hid⟩, ?_⟩
    rw [hxk, hℓ]
  · rintro ⟨p, hp, heq⟩
    obtain ⟨⟨hx, hy⟩, ⟨hxn, hxa⟩, ⟨hyn, hya⟩, huid, hid⟩ := mem_pairs.mp hp
    obtain ⟨hk, hℓ⟩ := Prod.mk.inj heq
    refine ⟨p.1.ts, p.2.ts, (get?_tableOf hone).mpr ?_, (get?_tableOf hone).mpr ?_, hℓ⟩
    · exact ⟨p.1, hmem.mpr ⟨hx, hxn⟩, hk, hxa, rfl⟩
    · exact ⟨p.2, hmem.mpr ⟨hy, hyn⟩, (Entry.key_inj.mpr ⟨huid, hid⟩).symm.trans hk, hya, rfl⟩

/-- The latencies of a size are those of the pairs of entries. -/
theorem calLatency_table {es xs : List Entry} (hes : (es.map Entry.ident).Nodup)
    (hperm : xs.Perm es) (n : Int) (fst snd : Text) :
    (calLatency (tableOf (ofSize xs n)) fst snd).Perm (latencies es n fst snd) := by
  have hsame := (keyed_table hes hperm n fst snd).map Prod.snd
  rw [map_snd_keyed, List.map_map] at hsame
  exact hsame

/-- The columns are computed from the sorted list. -/
theorem dumpStatisticsResult_perm {st : Statistics} {n : Int} {ls ls' : List Int}
    (h : ls.Perm ls') : dumpStatisticsResult st n ls = dumpStatisticsResult st n ls' := by
  have hsorted : ls.mergeSort = ls'.mergeSort := by
    refine List.Perm.eq_of_pairwise' (List.pairwise_mergeSort' (· ≤ ·) ls)
      (List.pairwise_mergeSort' (· ≤ ·) ls') ?_
    exact ((List.mergeSort_perm ls _).trans h).trans (List.mergeSort_perm ls' _).symm
  rw [dumpStatisticsResult, dumpStatisticsResult, hsorted]

/-! ## Directories -/

/-- The file has the rows of some entries. -/
def FileHolds (dir : Directory) (name : Text) (es : List Entry) : Prop :=
  ∃ t, dir.get? name = some t ∧ rowsOf t = some (es.map Entry.row)

/-- The files that are read of a directory have the rows of some entries. -/
def Holding (dir : Directory) (names : List Text) (files : List (List Entry)) : Prop :=
  List.Forall₂ (FileHolds dir) (considered names) files

theorem foldlM_files {dir : Directory} {names : List Text} {files : List (List Entry)}
    (h : List.Forall₂ (FileHolds dir) names files) (d : Dict Int (List DictRow)) :
    names.foldlM (fun d name => do loadRecordListDict d (← dir.get? name)) d =
      some (Dict.group rowSize d (files.flatten.map Entry.row)) := by
  induction h generalizing d with
  | nil => rfl
  | @cons name es names files hfile _ ih =>
      obtain ⟨t, ht, hrows⟩ := hfile
      have hload : (do loadRecordListDict d (← dir.get? name)) =
          some (Dict.group rowSize d (es.map Entry.row)) := by
        rw [ht]
        exact loadRecordListDict_rows hrows d
      rw [List.foldlM_cons, hload, List.flatten_cons, List.map_append, Dict.group_append]
      exact ih _

theorem recordListDict_holding {dir : Directory} {names : List Text} {files : List (List Entry)}
    (h : Holding dir names files) :
    recordListDict dir names = some (Dict.group rowSize ∅ (files.flatten.map Entry.row)) :=
  foldlM_files h ∅

/-- What is reported for a size, however the rows are spread over the files. -/
theorem latencies_of_directory {es : List Entry} (hes : (es.map Entry.ident).Nodup)
    {dir : Directory} {names : List Text} {files : List (List Entry)}
    (hdir : Holding dir names files) (hperm : files.flatten.Perm es) :
    ∃ d, recordListDict dir names = some d ∧
      ∀ n : Int, (d.get? n = none ↔ ∀ x ∈ es, (x.size : Int) ≠ n) ∧
        ∀ records, d.get? n = some records → ∃ data, recordDataDict records = some data ∧
          ∀ fst snd : Text,
            (calLatency data fst snd).Perm (latencies es n fst snd) ∧
            ((pairs es n fst snd).map fun p => (p.1.uid, p.1.id)).Nodup ∧
            ∀ st : Statistics, dumpStatisticsResult st n (calLatency data fst snd) =
              dumpStatisticsResult st n (latencies es n fst snd) := by
  refine ⟨_, recordListDict_holding hdir, ?_⟩
  intro n
  constructor
  · rw [Dict.get?_group_eq_none, List.forall_mem_map]
    constructor
    · intro h x hx
      have hrow := h x (hperm.mem_iff.mpr hx)
      rwa [rowSize_row] at hrow
    · intro h x hx
      rw [rowSize_row]
      exact h x (hperm.mem_iff.mp hx)
  · intro records hrecords
    have hof : records = (ofSize files.flatten n).map Entry.row := by
      rw [ofSize, ← filter_rowSize_map, ← Dict.getD_group, hrecords, Option.getD_some]
    refine ⟨_, hof ▸ recordDataDict_map (ofSize files.flatten n), ?_⟩
    intro fst snd
    have hlat := calLatency_table hes hperm n fst snd
    exact ⟨hlat, nodup_pairs hes n fst snd, fun st => dumpStatisticsResult_perm hlat⟩

/-- The records of two programs, the later one listed first. -/
def sampleDirectory : Directory :=
  ((∅ : Directory).set "client.csv".toList
    (recordFile [sampleEntry 5 "client.snd_begin", sampleEntry 9 "client.snd_end"])).set
      "upstream.csv".toList (recordFile [sampleEntry 17 "upstream.rcv"])

def sampleNames : List Text := ["upstream.csv".toList, "client.csv".toList]

def sampleEntries : List Entry :=
  [(sampleEntry 5 "client.snd_begin").entry, (sampleEntry 9 "client.snd_end").entry,
    (sampleEntry 17 "upstream.rcv").entry]

theorem rowsOf_sampleFile {es : List TsEntry} (h : es ⊆ allEntries sampleRuns) :
    rowsOf (recordFile es) = some (es.map fun e => e.entry.row) :=
  rowsOf_recordFile (fun e he => (sampleRuns_printable e (h he)).1)
    (fun e he => (sampleRuns_printable e (h he)).2)

theorem latencies_of_sampleDirectory :
    ∃ d, recordListDict sampleDirectory sampleNames = some d ∧
      ∀ records, d.get? 64 = some records → ∃ data, recordDataDict records = some data ∧
        (calLatency data "client.snd_begin".toList "upstream.rcv".toList).Perm
          (latencies sampleEntries 64 "client.snd_begin".toList "upstream.rcv".toList) := by
  have hholding : Holding sampleDirectory sampleNames
      [[(sampleEntry 17 "upstream.rcv").entry],
        [(sampleEntry 5 "client.snd_begin").entry, (sampleEntry 9 "client.snd_end").entry]] := by
    refine List.Forall₂.cons ⟨_, rfl, rowsOf_sampleFile ?_⟩
      (List.Forall₂.cons ⟨_, rfl, rowsOf_sampleFile ?_⟩ List.Forall₂.nil)
    · decide
    · decide
  have hperm : ([[(sampleEntry 17 "upstream.rcv").entry],
      [(sampleEntry 5 "client.snd_begin").entry,
        (sampleEntry 9 "client.snd_end").entry]] : List (List Entry)).flatten.Perm sampleEntries := by
    decide
  obtain ⟨d, hd, hsizes⟩ := latencies_of_directory (by decide) hholding hperm
  refine ⟨d, hd, fun records hrecords => ?_⟩
  obtain ⟨data, hdata, hlat⟩ := (hsizes 64).2 records hrecords
  exact ⟨data, hdata, (hlat _ _).1⟩

end NetBench.Script

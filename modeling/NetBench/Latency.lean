/-
# `NetBench.Latency` — the latency script

`network_latency_analysis.py` with the methods of `LatencyHandle` that it calls, up to
`cal_latency`, over rows that are typed already.  The rows of all record files are put into
lists by size; for each size a dictionary keeps, for the text `uid_id` of a message and an
action, the time of the last row.  What becomes of the lists of latencies, and when the
script comes so far, is in `NetBench.Script`.

    what is reported for a key is the difference of the times of two rows, each
    the last with this size, key and action                     (`reported_last`)

The script calls the ends of a latency `begin` and `end`; they are `fst` and `snd` here.
-/
import NetBench.Lib.Dict
import NetBench.Received
import NetBench.TcpClient

namespace NetBench

open Lib

/-! ## Rows -/

/-- A row of a record file: the texts of `uid` and `id`, and what `int` makes of the
texts of `sec`, `nsec` and `size`. -/
structure Row where
  ts : Timespec
  uid : String
  id : String
  size : Nat
  action : Action
  deriving DecidableEq

/-- `nb_ts_record_callback`: the row of a record made at `ts`. -/
def Record.row (r : Record) (ts : Timespec) : Row :=
  ⟨ts, r.userId.toNat.repr, r.id.toNat.repr, r.msgSize.toNat, r.action⟩

/-- `"{}_{}".format(row["uid"], row["id"])`. -/
def Row.key (row : Row) : String := row.uid ++ "_" ++ row.id

/-! ## The script -/

/-- The times of one message, by action. -/
abbrev Times := Dict Action Timespec

/-- `load_record_list_dict`, for a file with the given rows. -/
def loadRecordListDict (d : Dict Nat (List Row)) (rows : List Row) : Dict Nat (List Row) :=
  rows.foldl (fun d row => d.set row.size ((d.get? row.size).getD [] ++ [row])) d

/-- The body of the loop that fills `record_data_dict`. -/
def addRow (d : Dict String Times) (row : Row) : Dict String Times :=
  d.set row.key (((d.get? row.key).getD ∅).set row.action row.ts)

/-- `record_data_dict`. -/
def recordDataDict (records : List Row) : Dict String Times := records.foldl addRow ∅

/-- `elapsed`, in nanoseconds. -/
def elapsed (fst snd : Timespec) : Int :=
  (snd.tvSec - fst.tvSec) * 1000000000 + snd.tvNsec - fst.tvNsec

/-- The body of the loop of `cal_latency`. -/
def calItem (fst snd : Action) (v : Times) : Option Int := do
  let b ← v.get? fst
  let e ← v.get? snd
  some (elapsed b e)

/-- `cal_latency`. -/
def calLatency (d : Dict String Times) (fst snd : Action) : List Int :=
  d.items.filterMap fun x => calItem fst snd x.2

/-- `record_list_dict`, after all files. -/
def recordListDict (files : List (List Row)) : Dict Nat (List Row) :=
  files.foldl loadRecordListDict ∅

/-- What `cal_latency` returns for a size.  It is reported if all lists are long enough for
`dump_statistics_result` (`NetBench.LatencyScript`). -/
def latencyList (files : List (List Row)) (n : Nat) (fst snd : Action) : List Int :=
  calLatency (recordDataDict (((recordListDict files).get? n).getD [])) fst snd

/-- `cal_latency` has the latency `ℓ` for the key `k` and the size `n`. -/
def Reported (files : List (List Row)) (n : Nat) (k : String) (ℓ : Int) : Prop :=
  ∃ records v, (n, records) ∈ (recordListDict files).items ∧
    (k, v) ∈ (recordDataDict records).items ∧ calItem .clientSndBegin .upstreamRcv v = some ℓ

/-- Whatever is reported for a size is reported for some key. -/
theorem mem_latencyList {files : List (List Row)} {n : Nat} {ℓ : Int} :
    ℓ ∈ latencyList files n .clientSndBegin .upstreamRcv ↔ ∃ k, Reported files n k ℓ := by
  rw [latencyList]
  constructor
  · intro h
    obtain ⟨⟨k, v⟩, hv, hcal⟩ := List.mem_filterMap.mp h
    cases hget : (recordListDict files).get? n with
    | none =>
        rw [hget] at hv
        cases hv
    | some records =>
        rw [hget] at hv
        exact ⟨k, records, v, Dict.mem_items.mpr hget, hv, hcal⟩
  · rintro ⟨k, records, v, hmem, hv, hcal⟩
    rw [Dict.mem_items.mp hmem]
    exact List.mem_filterMap.mpr ⟨_, hv, hcal⟩

/-! ## The last row of an action -/

/-- The last row with this size, key and action. -/
def lastRow (rows : List Row) (n : Nat) (k : String) (x : Action) : Option Row :=
  (rows.filter fun r => r.size = n ∧ r.key = k ∧ r.action = x).getLast?

/-- The rows of all files are grouped in one go. -/
theorem recordListDict_eq_group (files : List (List Row)) :
    recordListDict files = Dict.group Row.size ∅ files.flatten := by
  rw [Dict.group, List.foldl_flatten]
  rfl

theorem get?_recordListDict {files : List (List Row)} {n : Nat} {records : List Row}
    (h : (recordListDict files).get? n = some records) :
    records = files.flatten.filter fun r => r.size = n := by
  rw [← Dict.getD_group, ← recordListDict_eq_group, h]
  rfl

/-- The time kept for a key and an action. -/
theorem get?_recordDataDict (records : List Row) (k : String) (x : Action) :
    (((recordDataDict records).get? k).getD ∅).get? x =
      ((records.filter fun r => r.key = k ∧ r.action = x).getLast?).map Row.ts :=
  Dict.getD_table Row.key Row.action Row.ts records k x

theorem calItem_eq_some {fst snd : Action} {v : Times} {ℓ : Int}
    (h : calItem fst snd v = some ℓ) :
    ∃ b e, v.get? fst = some b ∧ v.get? snd = some e ∧ ℓ = elapsed b e := by
  simp only [calItem, Option.bind_eq_bind, Option.bind_eq_some_iff, Option.some.injEq] at h
  obtain ⟨b, hb, e, he, rfl⟩ := h
  exact ⟨b, e, hb, he, rfl⟩

/-- What is reported for a key lies between the last rows of the two actions. -/
theorem reported_last {files : List (List Row)} {n : Nat} {k : String} {ℓ : Int}
    (h : Reported files n k ℓ) :
    ∃ b e, lastRow files.flatten n k .clientSndBegin = some b ∧
      lastRow files.flatten n k .upstreamRcv = some e ∧ ℓ = elapsed b.ts e.ts := by
  obtain ⟨records, v, hrec, hv, hcal⟩ := h
  have hrecords := get?_recordListDict (Dict.mem_items.mp hrec)
  have hlast : ∀ {x : Action} {t : Timespec}, v.get? x = some t →
      ∃ r, lastRow files.flatten n k x = some r ∧ t = r.ts := by
    intro x t ht
    have hget := get?_recordDataDict records k x
    rw [Dict.mem_items.mp hv, Option.getD_some, ht, hrecords, List.filter_filter] at hget
    obtain ⟨r, hr, hts⟩ := Option.map_eq_some_iff.mp hget.symm
    refine ⟨r, ?_, hts.symm⟩
    rw [lastRow, ← hr]
    congr 2
    funext r
    simp only [Bool.decide_and, Bool.and_comm]
  obtain ⟨b, e, hb, he, rfl⟩ := calItem_eq_some hcal
  obtain ⟨rb, hrb, rfl⟩ := hlast hb
  obtain ⟨re, hre, rfl⟩ := hlast he
  exact ⟨rb, re, hrb, hre, rfl⟩

/-! ## Keys of messages -/

/-- The text that stands for a message. -/
def MsgKey.text (k : MsgKey) : String := k.userId.toNat.repr ++ "_" ++ k.id.toNat.repr

/-- No decimal numeral has an underscore in it, so the text determines the numbers. -/
theorem MsgKey.text_inj {k k' : MsgKey} (h : k.text = k'.text) :
    k.userId = k'.userId ∧ k.id = k'.id := by
  have hlist := congrArg String.toList h
  simp only [MsgKey.text, String.toList_append, Nat.toList_repr] at hlist
  have hsep : "_".toList = ['_'] := rfl
  rw [hsep, List.append_assoc, List.append_assoc, List.singleton_append, List.singleton_append,
    List.append_cons_inj_of_notMem Nat.underscore_not_in_toDigits
      Nat.underscore_not_in_toDigits] at hlist
  obtain ⟨huid, _, hid⟩ := hlist
  constructor
  · rw [← UInt32.toNat_inj, ← Nat.ofDigitChars_ten_toDigits (n := k.userId.toNat), huid,
      Nat.ofDigitChars_ten_toDigits]
  · rw [← UInt32.toNat_inj, ← Nat.ofDigitChars_ten_toDigits (n := k.id.toNat), hid,
      Nat.ofDigitChars_ten_toDigits]

end NetBench

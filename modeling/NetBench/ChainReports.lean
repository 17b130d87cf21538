/-
# `NetBench.ChainReports` — which messages have a latency in the report

`NetBench.ChainLatency` says what a reported latency means.  Here is for which messages
there is one.  The script has a latency for a key and a size if and only if it has read a
record of both actions with them (`exists_latency_iff`).  Where nothing is under way any more
and the server has relayed all,

    a message has an end-to-end latency   ⟺   its client has written it in full

The script raises an exception if a size has fewer than five latencies for one of its two
reports.  So it comes to its end just when five messages of each size were written in full,
and then its file for a size has one latency for each of these (`report_complete_of_run`).
-/
import NetBench.ChainCounts
import NetBench.ChainLatency
import Mathlib.Algebra.BigOperators.Group.Finset.Basic
import Mathlib.Algebra.BigOperators.Group.Finset.Sigma
import Mathlib.Data.Fintype.Basic

namespace NetBench

open Lib
open Lib.Csv (Text)

/-! ## Which keys are reported -/

section Rows

variable {files : List (List Row)} {records : List Row} {n : Nat} {k : String}

theorem get?_recordDataDict_of_mem {x : Action}
    (h : ∃ r ∈ records, r.key = k ∧ r.action = x) :
    ∃ v t, (recordDataDict records).get? k = some v ∧ v.get? x = some t := by
  have hget := get?_recordDataDict records k x
  obtain ⟨r, hr, hkey⟩ := h
  have hne : (records.filter fun r => r.key = k ∧ r.action = x) ≠ [] :=
    List.ne_nil_of_mem (List.mem_filter.mpr ⟨hr, decide_eq_true hkey⟩)
  rw [List.getLast?_eq_some_getLast hne, Option.map_some] at hget
  cases hv : (recordDataDict records).get? k with
  | none =>
      rw [hv] at hget
      cases hget
  | some v =>
      rw [hv] at hget
      exact ⟨v, _, rfl, hget⟩

theorem getD_recordListDict (files : List (List Row)) (n : Nat) :
    ((recordListDict files).get? n).getD [] = files.flatten.filter fun r => r.size = n := by
  rw [recordListDict_eq_group, Dict.getD_group]

/-- The latencies of a size, with their keys. -/
def latencyItems (files : List (List Row)) (n : Nat) (fst snd : Action) : List (String × Int) :=
  (recordDataDict (((recordListDict files).get? n).getD [])).items.filterMap fun x =>
    (calItem fst snd x.2).map (x.1, ·)

theorem map_snd_latencyItems (files : List (List Row)) (n : Nat) (fst snd : Action) :
    (latencyItems files n fst snd).map Prod.snd = latencyList files n fst snd := by
  rw [latencyItems, List.map_filterMap, latencyList, calLatency]
  congr 1
  funext x
  rw [Option.map_map]
  exact Option.map_id' ..

/-- No key has two latencies. -/
theorem nodup_latencyItems (files : List (List Row)) (n : Nat) (fst snd : Action) :
    ((latencyItems files n fst snd).map Prod.fst).Nodup := by
  have hsub : ∀ l : List (String × Times),
      ((l.filterMap fun x => (calItem fst snd x.2).map (x.1, ·)).map Prod.fst).Sublist
        (l.map Prod.fst) := by
    intro l
    induction l with
    | nil => exact List.Sublist.slnil
    | cons x l ih =>
        rw [List.filterMap_cons, List.map_cons]
        cases calItem fst snd x.2 with
        | none => exact ih.cons _
        | some ℓ => exact ih.cons_cons _
  exact (Dict.nodup _).sublist (hsub _)

theorem mem_latencyItems {fst snd : Action} {ℓ : Int} : (k, ℓ) ∈ latencyItems files n fst snd ↔
    ∃ v, (k, v) ∈ (recordDataDict (((recordListDict files).get? n).getD [])).items ∧
      calItem fst snd v = some ℓ := by
  rw [latencyItems, List.mem_filterMap]
  constructor
  · rintro ⟨⟨k', v⟩, hv, hcal⟩
    obtain ⟨ℓ', hℓ', heq⟩ := Option.map_eq_some_iff.mp hcal
    obtain ⟨rfl, rfl⟩ := Prod.mk.inj heq
    exact ⟨v, hv, hℓ'⟩
  · rintro ⟨v, hv, hcal⟩
    exact ⟨(k, v), hv, Option.map_eq_some_iff.mpr ⟨ℓ, hcal, rfl⟩⟩

theorem mem_latencyItems_iff_reported {ℓ : Int} :
    (k, ℓ) ∈ latencyItems files n .clientSndBegin .upstreamRcv ↔ Reported files n k ℓ := by
  rw [mem_latencyItems]
  constructor
  · rintro ⟨v, hv, hcal⟩
    cases hget : (recordListDict files).get? n with
    | none =>
        rw [hget] at hv
        cases hv
    | some records =>
        rw [hget] at hv
        exact ⟨records, v, Dict.mem_items.mpr hget, hv, hcal⟩
  · rintro ⟨records, v, hrec, hv, hcal⟩
    rw [Dict.mem_items.mp hrec]
    exact ⟨v, hv, hcal⟩

/-- There is a latency for what has a row of each of the two actions. -/
theorem exists_latency_iff {fst snd : Action} : (∃ ℓ, (k, ℓ) ∈ latencyItems files n fst snd) ↔
    (∃ r ∈ files.flatten, r.size = n ∧ r.key = k ∧ r.action = fst) ∧
      ∃ r ∈ files.flatten, r.size = n ∧ r.key = k ∧ r.action = snd := by
  simp only [mem_latencyItems, getD_recordListDict]
  have hmem : ∀ {x : Action}, (∃ r ∈ files.flatten.filter fun r => r.size = n,
      r.key = k ∧ r.action = x) ↔ ∃ r ∈ files.flatten, r.size = n ∧ r.key = k ∧ r.action = x := by
    intro x
    simp only [List.mem_filter, decide_eq_true_eq, and_assoc]
  rw [← hmem, ← hmem]
  constructor
  · rintro ⟨ℓ, v, hv, hcal⟩
    obtain ⟨b, e, hb, he, _⟩ := calItem_eq_some hcal
    have hrow : ∀ {x : Action} {t : Timespec}, v.get? x = some t →
        ∃ r ∈ files.flatten.filter fun r => r.size = n, r.key = k ∧ r.action = x := by
      intro x t ht
      have hget := get?_recordDataDict (files.flatten.filter fun r => r.size = n) k x
      rw [Dict.mem_items.mp hv, Option.getD_some, ht] at hget
      obtain ⟨r, hr, _⟩ := Option.map_eq_some_iff.mp hget.symm
      obtain ⟨hr, hprop⟩ := List.mem_filter.mp (List.mem_of_getLast? hr)
      exact ⟨r, hr, of_decide_eq_true hprop⟩
    exact ⟨hrow hb, hrow he⟩
  · rintro ⟨hb, he⟩
    obtain ⟨v, t, hv, ht⟩ := get?_recordDataDict_of_mem hb
    obtain ⟨v', t', hv', ht'⟩ := get?_recordDataDict_of_mem he
    obtain rfl : v = v' := Option.some.inj (hv.symm.trans hv')
    refine ⟨elapsed t t', v, Dict.mem_items.mpr hv, ?_⟩
    rw [calItem, ht, ht']
    rfl

end Rows

namespace Chain

variable {ι β : Type} [DecidableEq ι] {a : ι → NbSysArgs} {B : BytesBuffer β} {b₀ : β}
  {T : ι → Bytes} {contents : β → Bytes} {cap : Nat} {σ : Chain ι β}
  {H : List TcpServer.Handled} {F : Nat → List Bytes} {tr : List (Proc ι × Ev)}

/-! ## The rows of a run -/

theorem exists_row_iff {clock : Nat → Timespec} {files : List (Proc ι)} {n : Nat} {text : String}
    {x : Action} :
    (∃ r ∈ (files.map (fileOf clock tr)).flatten, r.size = n ∧ r.key = text ∧ r.action = x) ↔
      ∃ p ∈ files, ∃ (b c : Nat) (k : MsgKey), tr[b]? = some (p, Ev.record c (k.record x)) ∧
        n = k.msgSize.toNat ∧ text = k.text := by
  constructor
  · rintro ⟨row, hrow, rfl, rfl, rfl⟩
    rw [← List.flatMap_def, List.mem_flatMap] at hrow
    obtain ⟨p, hp, hrow⟩ := hrow
    obtain ⟨⟨b, r⟩, hmem, rfl⟩ := List.mem_map.mp hrow
    obtain ⟨c, hb⟩ := mem_records.mp hmem
    exact ⟨p, hp, b, c, r.key, hb, rfl, rfl⟩
  · rintro ⟨p, hp, b, c, k, hb, rfl, rfl⟩
    refine ⟨(k.record x).row (clock b), ?_, rfl, rfl, rfl⟩
    rw [← List.flatMap_def, List.mem_flatMap]
    exact ⟨p, hp, List.mem_map.mpr ⟨(b, k.record x), mem_records.mpr ⟨c, hb⟩, rfl⟩⟩

/-- The messages that clients have written in full. -/
theorem mem_clientKeys_iff (ha : ∀ i, (a i).Fits) (hT : ∀ i, (a i).Prepared (T i))
    (ht : Traced σ)
    (hslices : ∀ i c buf acc, .write c buf acc ∈ (σ.client i).log →
      ∃ q < (a i).total, buf = (a i).slice (T i) q) {k : MsgKey} :
    k ∈ clientKeys σ.trace ↔ ∃ i, ∃ j < (a i).total,
      (j, true) ∈ sends (σ.client i).log ∧ k = TcpClient.msgKey (a i) j := by
  have hlane : ∀ i, lane i (clientItems σ.trace) = writtenKeys (σ.client i).log := by
    intro i
    rw [lane_clientItems, ht]
    rfl
  have hcount : ∀ i, ∀ j < (a i).total, TcpClient.msgKey (a i) j ∈ writtenKeys (σ.client i).log ↔
      (j, true) ∈ sends (σ.client i).log := by
    intro i j hj
    rw [← List.count_pos_iff, ← List.count_pos_iff,
      TcpClient.count_writtenKeys (ha i) (hT i) hj (hslices i)]
  rw [← map_snd_clientItems]
  constructor
  · intro hk
    obtain ⟨⟨i, k'⟩, hmem, rfl⟩ := List.mem_map.mp hk
    rw [← mem_lane, hlane] at hmem
    obtain ⟨j, hj, hkey⟩ := TcpClient.exists_msgKey (hT i) (hslices i) hmem
    refine ⟨i, j, hj, (hcount i j hj).mp (hkey ▸ hmem), hkey⟩
  · rintro ⟨i, j, hj, hsend, rfl⟩
    have hmem := (hcount i j hj).mpr hsend
    rw [← hlane] at hmem
    exact List.mem_map.mpr ⟨_, mem_lane.mp hmem, rfl⟩

omit [DecidableEq ι] in
theorem mem_records_iff {x : Action} {log : List Ev} {k : MsgKey} :
    k ∈ records x log ↔ ∃ c, .record c (k.record x) ∈ log := by
  rw [records, List.mem_filterMap]
  constructor
  · rintro ⟨e, he, hk⟩
    cases e with
    | record c r =>
        by_cases hact : r.action = x
        · obtain rfl : r.key = k := by simpa [hact] using hk
          refine ⟨c, ?_⟩
          rw [← hact]
          exact he
        · simp [hact] at hk
    | write | assertFailed | exit => cases hk
  · rintro ⟨c, he⟩
    exact ⟨_, he, if_pos rfl⟩

theorem local_of_run (hB : B.Fifo contents cap) (h₀ : contents b₀ = []) (ha : ∀ i, (a i).Fits)
    (hT : ∀ i, (a i).Prepared (T i)) {ts : ι → Timespec} {es : List (ChainEvent ι)}
    (hrun : Run (Step a B b₀) (start ts T) es σ) : Local a σ.trace := by
  have h := hrun.invariant
    (I := fun σ => (∃ H F, Linked a T contents H F σ) ∧ Transmits a σ) ?_
    ⟨⟨_, _, linked_start ts⟩, transmits_start ts⟩
  · exact h.2.seen
  rintro σ e σ' ⟨⟨H, F, h⟩, ht⟩ hs
  obtain ⟨H', F', p, l, h', hm, hadds⟩ := h.step hB h₀ ha hT hs
  exact ⟨⟨H', F', h'⟩, ht.step ha hT h h' hs hm hadds⟩

/-- All that the clients have written in full has arrived. -/
structure Complete (σ : Chain ι β) : Prop where
  server : ServerCaughtUp σ
  upstream : UpstreamCaughtUp σ
  relayed : (writtenKeys σ.server.log).length = (records .serverRcv σ.server.log).length

/-- The upstream has recorded the messages that the clients have written in full. -/
theorem Complete.records_perm (hall : Complete σ) (ha : ∀ i, (a i).Fits)
    (hT : ∀ i, (a i).Prepared (T i)) (h : Linked a T contents H F σ) (hset : Settled σ) :
    (records .upstreamRcv σ.upstream.log).Perm (clientKeys σ.trace) := by
  have hrelay := (h.relay_sublist ha hT).eq_of_length hall.relayed
  exact (h.upstream_perm ha hT hset hall.upstream).trans
    (hrelay ▸ h.server_perm ha hT hset hall.server)

/-- Around a full send there are a `client.snd_begin` and a `client.snd_end` of its message. -/
theorem records_of_send (ha : ∀ i, (a i).Fits) (hT : ∀ i, (a i).Prepared (T i))
    (h : Linked a T contents H F σ) {i : ι} {j : Nat} (hsend : (j, true) ∈ sends (σ.client i).log) :
    ∃ c, .record c ((TcpClient.msgKey (a i) j).record .clientSndBegin) ∈ (σ.client i).log ∧
      .record c ((TcpClient.msgKey (a i) j).record .clientSndEnd) ∈ (σ.client i).log := by
  obtain ⟨e, he, hej⟩ := List.mem_filterMap.mp hsend
  cases e with
  | write c buf acc =>
      obtain ⟨q, hq, rfl, hrecords⟩ := (h.sent i).slices c buf acc he
      obtain ⟨hseq, _⟩ := Prod.mk.inj (Option.some.inj hej)
      rw [sequenceOf_slice (ha i).sized (hT i) hq] at hseq
      exact ⟨c, hseq ▸ hrecords⟩
  | record | assertFailed | exit => cases hej

/-- A record is in the file of its process. -/
theorem exists_row_of_log (ht : Traced σ) (clock : Nat → Timespec) {files : List (Proc ι)}
    (hfiles : ∀ p, p ∈ files) {p : Proc ι} {c : Nat} {k : MsgKey} {x : Action}
    (hrec : .record c (k.record x) ∈ σ.logOf p) :
    ∃ r ∈ (files.map (fileOf clock σ.trace)).flatten,
      r.size = k.msgSize.toNat ∧ r.key = k.text ∧ r.action = x := by
  obtain ⟨b, _, hb⟩ := ht.mem hrec
  exact exists_row_iff.mpr ⟨p, hfiles p, b, c, k, hb, rfl, rfl⟩

/-- Where the files of all processes are read, a message has a throughput latency exactly if its
client has written it in full. -/
theorem Complete.latency_iff (hall : Complete σ) (ha : ∀ i, (a i).Fits)
    (hT : ∀ i, (a i).Prepared (T i)) (h : Linked a T contents H F σ) (hset : Settled σ)
    (hlocal : Local a σ.trace) (clock : Nat → Timespec) {files : List (Proc ι)}
    (hfiles : ∀ p, p ∈ files) (n : Nat) (text : String) :
    (∃ ℓ, (text, ℓ) ∈ latencyItems (files.map (fileOf clock σ.trace)) n .clientSndBegin
      .upstreamRcv) ↔
      ∃ i, ∃ j < (a i).total, (j, true) ∈ sends (σ.client i).log ∧
        n = (a i).msgSize.toNat ∧ text = (TcpClient.msgKey (a i) j).text := by
  have hslices : ∀ i c buf acc, .write c buf acc ∈ (σ.client i).log →
      ∃ q < (a i).total, buf = (a i).slice (T i) q := by
    intro i c buf acc hw
    obtain ⟨q, hq, hbuf, _⟩ := (h.sent i).slices c buf acc hw
    exact ⟨q, hq, hbuf⟩
  have hkeys : ∀ {k : MsgKey}, k ∈ records .upstreamRcv σ.upstream.log ↔
      ∃ i, ∃ j < (a i).total, (j, true) ∈ sends (σ.client i).log ∧
        k = TcpClient.msgKey (a i) j := fun {k} =>
    (hall.records_perm ha hT h hset).mem_iff.trans (mem_clientKeys_iff ha hT h.traced hslices)
  rw [exists_latency_iff]
  constructor
  · rintro ⟨-, hrow⟩
    obtain ⟨p, -, b, c, k, hb, rfl, rfl⟩ := exists_row_iff.mp hrow
    obtain rfl := hlocal.upstream hb
    obtain ⟨i, j, hj, hsend, rfl⟩ := hkeys.mp (mem_records_iff.mpr ⟨c, h.traced.log_mem hb⟩)
    exact ⟨i, j, hj, hsend, rfl, rfl⟩
  · rintro ⟨i, j, hj, hsend, rfl, rfl⟩
    obtain ⟨c, hbegin, _⟩ := records_of_send ha hT h hsend
    obtain ⟨c', hrcv⟩ := mem_records_iff.mp (hkeys.mpr ⟨i, j, hj, hsend, rfl⟩)
    exact ⟨exists_row_of_log (p := .client i) h.traced clock hfiles hbegin,
      exists_row_of_log (p := .upstream) h.traced clock hfiles hrcv⟩

/-- And then it has a latency of its send. -/
theorem send_latency (ha : ∀ i, (a i).Fits) (hT : ∀ i, (a i).Prepared (T i))
    (h : Linked a T contents H F σ) (clock : Nat → Timespec) {files : List (Proc ι)}
    (hfiles : ∀ p, p ∈ files) {i : ι} {j : Nat} (hsend : (j, true) ∈ sends (σ.client i).log) :
    ∃ ℓ, ((TcpClient.msgKey (a i) j).text, ℓ) ∈
      latencyItems (files.map (fileOf clock σ.trace)) (a i).msgSize.toNat .clientSndBegin
        .clientSndEnd := by
  obtain ⟨c, hbegin, hend⟩ := records_of_send ha hT h hsend
  exact exists_latency_iff.mpr ⟨exists_row_of_log (p := .client i) h.traced clock hfiles hbegin,
    exists_row_of_log (p := .client i) h.traced clock hfiles hend⟩

/-! ## How many -/

/-- The messages of size `n` that are written in full, with their clients. -/
def sentOf [Fintype ι] (a : ι → NbSysArgs) (σ : Chain ι β) (n : Nat) : Finset (Σ _ : ι, Nat) :=
  (Finset.univ.filter fun i => (a i).msgSize.toNat = n).sigma fun i =>
    (Finset.range (a i).total).filter fun j => (j, true) ∈ sends (σ.client i).log

omit [DecidableEq ι] in
theorem mem_sentOf [Fintype ι] {n : Nat} {x : Σ _ : ι, Nat} : x ∈ sentOf a σ n ↔
    (a x.1).msgSize.toNat = n ∧ x.2 < (a x.1).total ∧ (x.2, true) ∈ sends (σ.client x.1).log := by
  simp [sentOf]

omit [DecidableEq ι] in
/-- Their texts are different. -/
theorem text_injOn [Fintype ι] (ha : ∀ i, (a i).Fits) (hid : Distinct a) (n : Nat) :
    Set.InjOn (fun x : Σ _ : ι, Nat => (TcpClient.msgKey (a x.1) x.2).text) (sentOf a σ n) := by
  rintro ⟨i, j⟩ hx ⟨i', j'⟩ hx' htext
  obtain ⟨hsize, hj, _⟩ := mem_sentOf.mp hx
  obtain ⟨hsize', hj', _⟩ := mem_sentOf.mp hx'
  obtain ⟨huid, hseq⟩ := MsgKey.text_inj htext
  have heq : (a i).msgSize = (a i').msgSize := UInt32.toNat_inj.mp (hsize.trans hsize'.symm)
  obtain rfl : i = i' := hid i i' huid heq
  obtain rfl : j = j' := TcpClient.msgKey_inj (ha i) hj hj' (by
    rw [TcpClient.msgKey, TcpClient.msgKey]
    exact congrArg (MsgKey.mk _ · _) hseq)
  rfl

/-- The latencies `ls` are those of the messages `ms`: each message of size `n` that was
written in full, once, with the time from its last `client.snd_begin` to its last
`upstream.rcv`. -/
structure LatenciesOf [Fintype ι] (a : ι → NbSysArgs) (σ : Chain ι β) (clock : Nat → Timespec)
    (n : Nat) (ms : List (Σ _ : ι, Nat)) (ls : List Int) : Prop where
  nodup : ms.Nodup
  mem : ∀ x, x ∈ ms ↔ x ∈ sentOf a σ n
  times : List.Forall₂ (fun x ℓ => ∃ b q,
    IsLast σ.trace .clientSndBegin (TcpClient.msgKey (a x.1) x.2) b ∧
    IsLast σ.trace .upstreamRcv (TcpClient.msgKey (a x.1) x.2) q ∧
    ℓ = elapsed (clock b) (clock q)) ms ls

omit [DecidableEq ι] in
theorem LatenciesOf.length_eq [Fintype ι] {clock : Nat → Timespec} {n : Nat}
    {ms : List (Σ _ : ι, Nat)} {ls : List Int} (h : LatenciesOf a σ clock n ms ls) :
    ls.length = (sentOf a σ n).card := by
  classical
  have hset : ms.toFinset = sentOf a σ n := by
    ext x
    rw [List.mem_toFinset, h.mem]
  rw [← hset, List.toFinset_card_of_nodup h.nodup, h.times.length_eq]

/-- The size occurs in a record. -/
def Recorded (σ : Chain ι β) (n : Nat) : Prop :=
  ∃ p c r, Ev.record c r ∈ σ.logOf p ∧ r.msgSize.toNat = n

theorem recorded_iff (ht : Traced σ) (clock : Nat → Timespec) {files : List (Proc ι)}
    (hfiles : ∀ p, p ∈ files) {n : Nat} :
    (∃ r ∈ (files.map (fileOf clock σ.trace)).flatten, r.size = n) ↔ Recorded σ n := by
  constructor
  · rintro ⟨row, hrow, hn⟩
    obtain ⟨p, _, b, c, k, hb, hsize, _⟩ := exists_row_iff.mp ⟨row, hrow, hn, rfl, rfl⟩
    exact ⟨p, c, _, ht.log_mem hb, hsize.symm⟩
  · rintro ⟨p, c, r, hrec, rfl⟩
    obtain ⟨row, hrow, hsize, _⟩ :=
      exists_row_of_log ht clock hfiles (k := r.key) (x := r.action) hrec
    exact ⟨row, hrow, hsize⟩

/-- A list of what belongs to the elements of a list. -/
theorem exists_forall₂ {α γ : Type} {R : α → γ → Prop} {l : List γ} (h : ∀ y ∈ l, ∃ x, R x y) :
    ∃ l', List.Forall₂ R l' l := by
  induction l with
  | nil => exact ⟨[], .nil⟩
  | cons y l ih =>
      obtain ⟨x, hx⟩ := h y List.mem_cons_self
      obtain ⟨l', hl'⟩ := ih fun z hz => h z (List.mem_cons_of_mem _ hz)
      exact ⟨x :: l', .cons hx hl'⟩

/-- The latencies of a size are those of the messages that were written in full. -/
theorem Complete.exists_latenciesOf [Fintype ι] (hall : Complete σ) (ha : ∀ i, (a i).Fits)
    (hid : Distinct a) (hT : ∀ i, (a i).Prepared (T i)) (h : Linked a T contents H F σ)
    (hset : Settled σ) (hlocal : Local a σ.trace) {clock : Nat → Timespec} {files : List (Proc ι)}
    (hfiles : ∀ p, p ∈ files) (n : Nat) : ∃ ms, LatenciesOf a σ clock n ms
      (latencyList (files.map (fileOf clock σ.trace)) n .clientSndBegin .upstreamRcv) := by
  have hiff := hall.latency_iff ha hT h hset hlocal clock hfiles n
  -- the message of each key
  have hitem : ∀ y ∈ latencyItems (files.map (fileOf clock σ.trace)) n .clientSndBegin .upstreamRcv,
      ∃ x : Σ _ : ι, Nat, (x ∈ sentOf a σ n ∧ (TcpClient.msgKey (a x.1) x.2).text = y.1) ∧
        ∃ b q, IsLast σ.trace .clientSndBegin (TcpClient.msgKey (a x.1) x.2) b ∧
          IsLast σ.trace .upstreamRcv (TcpClient.msgKey (a x.1) x.2) q ∧
          y.2 = elapsed (clock b) (clock q) := by
    rintro ⟨text, ℓ⟩ hy
    obtain ⟨i, j, hj, hsend, rfl, rfl⟩ := (hiff text).mp ⟨ℓ, hy⟩
    obtain ⟨k, b, q, htext, hsize, hb, hq, hℓ⟩ :=
      used_of_reported hid hlocal (mem_latencyItems_iff_reported.mp hy)
    obtain rfl : k = TcpClient.msgKey (a i) j := by
      obtain ⟨huid, hseq⟩ := MsgKey.text_inj htext
      obtain ⟨uid, id, size⟩ := k
      rw [TcpClient.msgKey, MsgKey.mk.injEq]
      exact ⟨huid.symm, hseq.symm, UInt32.toNat_inj.mp hsize.symm⟩
    exact ⟨⟨i, j⟩, ⟨mem_sentOf.mpr ⟨rfl, hj, hsend⟩, rfl⟩, b, q, hb, hq, hℓ⟩
  obtain ⟨ms, hms⟩ := exists_forall₂ hitem
  have htexts : ms.map (fun x => (TcpClient.msgKey (a x.1) x.2).text) =
      (latencyItems (files.map (fileOf clock σ.trace)) n .clientSndBegin .upstreamRcv).map
        Prod.fst := by
    rw [← List.forall₂_eq_eq_eq, List.forall₂_map_left_iff, List.forall₂_map_right_iff]
    exact hms.imp fun _ _ hxy => hxy.1.2
  have hsent : ∀ x ∈ ms, x ∈ sentOf a σ n :=
    ((List.forall₂_and_left _ _).mp (hms.imp fun _ _ hxy => ⟨hxy.1.1, hxy.2⟩)).1
  refine ⟨ms, ?_, fun x => ⟨hsent x, fun hx => ?_⟩, ?_⟩
  · have hnodup := nodup_latencyItems (files.map (fileOf clock σ.trace)) n .clientSndBegin
      .upstreamRcv
    rw [← htexts] at hnodup
    exact hnodup.of_map _
  · obtain ⟨hn, hj, hsend⟩ := mem_sentOf.mp hx
    obtain ⟨ℓ, hℓ⟩ := (hiff _).mpr ⟨x.1, x.2, hj, hsend, hn.symm, rfl⟩
    have hmem := List.mem_map_of_mem (f := Prod.fst) hℓ
    rw [← htexts] at hmem
    obtain ⟨y, hy, htext⟩ := List.mem_map.mp hmem
    exact text_injOn ha hid n (hsent y hy) hx htext ▸ hy
  · rw [← map_snd_latencyItems, List.forall₂_map_right_iff]
    exact hms.imp fun _ _ hxy => hxy.2

/-- A size has at least as many latencies of sends as messages written in full. -/
theorem card_sentOf_le [Fintype ι] (ha : ∀ i, (a i).Fits) (hid : Distinct a)
    (hT : ∀ i, (a i).Prepared (T i)) (h : Linked a T contents H F σ) (clock : Nat → Timespec)
    {files : List (Proc ι)} (hfiles : ∀ p, p ∈ files) (n : Nat) : (sentOf a σ n).card ≤
      (latencyList (files.map (fileOf clock σ.trace)) n .clientSndBegin .clientSndEnd).length := by
  rw [← map_snd_latencyItems, List.length_map, ← List.length_map (f := Prod.fst),
    ← List.toFinset_card_of_nodup (nodup_latencyItems _ _ _ _),
    ← Finset.card_image_of_injOn (text_injOn ha hid n)]
  refine Finset.card_le_card fun text htext => ?_
  obtain ⟨x, hx, rfl⟩ := Finset.mem_image.mp htext
  obtain ⟨rfl, _, hsend⟩ := mem_sentOf.mp hx
  obtain ⟨ℓ, hℓ⟩ := send_latency ha hT h clock hfiles hsend
  exact List.mem_toFinset.mpr (List.mem_map_of_mem hℓ)

/-- In every run with prepared tables, where no two clients share a user id and a message size,
all that was written has arrived, and the files of all processes are in the input directory:
the script comes to its end just when five messages of each size that occurs were written in
full, and then its file for a size has one latency for each of them. -/
theorem report_complete_of_run [Fintype ι] (hB : B.Fifo contents cap) (h₀ : contents b₀ = [])
    (ha : ∀ i, (a i).Fits) (hid : Distinct a)
    (hT : ∀ i, ∃ m, m.length = (a i).tableBytes.toNat ∧ (a i).prepare m = some (T i))
    {ts : ι → Timespec} {es : List (ChainEvent ι)}
    (hrun : Run (Step a B b₀) (start ts T) es σ) (hall : Complete σ) {clock : Nat → Timespec}
    (hclock : ∀ n < σ.trace.length, (clock n).Clocked) {tid : Proc ι → UInt64}
    {st : Script.Statistics} (hst : st.Indexes) (hmiss : st.Misses)
    {opts : List Script.Opt} {input output : Text}
    (hopts : Script.parseArgs opts = some (input, output)) (hne : input ≠ [])
    {fs : Script.Directories} {dir : Script.Directory} (hinput : fs input = some dir)
    (hout : (fs output).isSome) {names : List Text} {files : List (Proc ι)}
    (hfiles : ∀ p, p ∈ files) (hdir : RecordFiles clock tid σ.trace dir names files) :
    ((Script.main st opts names fs).isSome ↔ ∀ n, Recorded σ n → 5 ≤ (sentOf a σ n).card) ∧
    ∀ fs', Script.main st opts names fs = some fs' → ∀ n, Recorded σ n →
      ∃ ms ls, Script.fileAt fs' output
          (Script.recordsFilename n "report_throughout.csv".toList) =
            some (Script.recordsText ls) ∧
        LatenciesOf a σ clock n ms ls ∧
        ls.length = ∑ i with (a i).msgSize.toNat = n,
          ((Finset.range (a i).total).filter fun j => (j, true) ∈ sends (σ.client i).log).card := by
  have hT' : ∀ i, (a i).Prepared (T i) := by
    intro i
    obtain ⟨m, hm, hprep⟩ := hT i
    exact NbSysArgs.prepared_of_prepare (ha i).sized hm hprep
  obtain ⟨⟨H, F, h⟩, hset⟩ := settled_of_run hB h₀ ha hT' hrun
  have hlocal := local_of_run hB h₀ ha hT' hrun
  have hlist : ∀ n, ∃ ms, LatenciesOf a σ clock n ms
      (latencyList (files.map (fileOf clock σ.trace)) n .clientSndBegin .upstreamRcv) :=
    hall.exists_latenciesOf ha hid hT' h hset hlocal hfiles
  obtain ⟨xs, hholding, hrows⟩ := holding_of_recordFiles hclock hdir
  constructor
  · rw [Script.isSome_main_iff hst hmiss hopts hne hinput hholding hout, hrows]
    refine forall_congr' fun n => imp_congr (recorded_iff h.traced clock hfiles) ?_
    obtain ⟨ms, hms⟩ := hlist n
    rw [hms.length_eq]
    exact and_iff_right_of_imp fun hfive =>
      hfive.trans (card_sentOf_le ha hid hT' h clock hfiles n)
  · intro fs' hmain n hn
    have hrow := (recorded_iff h.traced clock hfiles).mpr hn
    have hfile := Script.fileAt_throughout hopts hne hinput hholding hmain (hrows ▸ hrow)
    rw [hrows] at hfile
    obtain ⟨ms, hms⟩ := hlist n
    refine ⟨ms, _, hfile, hms, hms.length_eq.trans ?_⟩
    rw [sentOf, Finset.card_sigma]

/-- A round of six messages goes through the chain. -/
def sixThrough : List (ChainEvent Unit) :=
  [.client () (.add 0 ⟨0, 0⟩ true), .client () (.timer ⟨0, 0⟩), .client () (.send (.accept 16)),
    .client () (.send (.accept 16)), .client () (.send (.accept 16)),
    .client () (.send (.accept 16)), .client () (.send (.accept 16)),
    .client () (.send (.accept 16)), .client () .roundDone, .serverAccepts true () 0,
    .upstreamAccepts true 1, .server (.add 1 true), .server (.message 2),
    .server (.read (some ⟨sixMessagesTable, by decide, by decide⟩)), .server (.read none),
    .server (.parse (.accept 16)), .server (.parse (.accept 16)), .server (.parse (.accept 16)),
    .server (.parse (.accept 16)), .server (.parse (.accept 16)), .server (.parse (.accept 16)),
    .server (.parse (.accept 0)), .upstream (.message 1),
    .upstream (.read (some ⟨sixMessagesTable, by decide, by decide⟩)), .upstream (.read none),
    .upstream .parse, .upstream .parse, .upstream .parse, .upstream .parse, .upstream .parse,
    .upstream .parse, .upstream .parse]

theorem six_through : ∃ σ, Run (Step (fun _ : Unit => sixMessages) (ringBuffer netBenchTcpBufSize)
      (emptyRing netBenchTcpBufSize fun _ => 0))
      (start (fun _ => ⟨0, 0⟩) fun _ => sixMessagesTable) sixThrough σ ∧
    ServerCaughtUp σ ∧ UpstreamCaughtUp σ ∧
    (writtenKeys σ.server.log).length = (records .serverRcv σ.server.log).length ∧
    σ.trace.length < 2 ^ 63 ∧
    (∀ r ∈ (chainProcs.map (fileOf seconds σ.trace)).flatten, r.size = 16) ∧
    .record 0 ⟨1, 0, 16, .clientSndBegin⟩ ∈ (σ.client ()).log ∧
    sends (σ.client ()).log =
      [(0, true), (1, true), (2, true), (3, true), (4, true), (5, true)] := by
  refine ⟨_, .cons (.client (.add rfl List.mem_cons_self))
    (.cons (.client (.timer rfl))
    (.cons (.client (.send rfl (by decide) rfl
      (sixMessages_send 0 (by decide) rfl rfl rfl (by decide))))
    (.cons (.client (.send rfl (by decide) rfl
      (sixMessages_send 1 (by decide) rfl rfl rfl (by decide))))
    (.cons (.client (.send rfl (by decide) rfl
      (sixMessages_send 2 (by decide) rfl rfl rfl (by decide))))
    (.cons (.client (.send rfl (by decide) rfl
      (sixMessages_send 3 (by decide) rfl rfl rfl (by decide))))
    (.cons (.client (.send rfl (by decide) rfl
      (sixMessages_send 4 (by decide) rfl rfl rfl (by decide))))
    (.cons (.client (.send rfl (by decide) rfl
      (sixMessages_send 5 (by decide) rfl rfl rfl (by decide))))
    (.cons (.client (.roundDone rfl (by decide)))
    (.cons (.serverAccepts (.connect rfl) fun _ h => nomatch h)
    (.cons (.upstreamAccepts (.connect rfl) fun _ h => nomatch h)
    (.cons (.server (.add rfl (by decide)) (fun _ h => nomatch h)
      (.of_links rfl rfl (by decide) (by decide)))
    (.cons (.server (.message rfl (by decide) rfl) (fun _ h => nomatch h)
      (.of_links rfl rfl (by decide) (by decide)))
    (.cons (.server (.read rfl rfl) (fun _ h => nomatch h)
      (.of_links rfl rfl (by decide) (by decide)))
    (.cons (.server (.read rfl rfl) (fun _ h => nomatch h)
      (.of_links rfl rfl (by decide) (by decide)))
    (.cons (.server (.parse rfl rfl) (fun _ h => nomatch h)
      (.of_links rfl rfl (by decide) (by decide)))
    (.cons (.server (.parse rfl rfl) (fun _ h => nomatch h)
      (.of_links rfl rfl (by decide) (by decide)))
    (.cons (.server (.parse rfl rfl) (fun _ h => nomatch h)
      (.of_links rfl rfl (by decide) (by decide)))
    (.cons (.server (.parse rfl rfl) (fun _ h => nomatch h)
      (.of_links rfl rfl (by decide) (by decide)))
    (.cons (.server (.parse rfl rfl) (fun _ h => nomatch h)
      (.of_links rfl rfl (by decide) (by decide)))
    (.cons (.server (.parse rfl rfl) (fun _ h => nomatch h)
      (.of_links rfl rfl (by decide) (by decide)))
    (.cons (.server (.parse rfl rfl) (fun _ h => nomatch h)
      (.of_links rfl rfl (by decide) (by decide)))
    (.cons (.upstream (.message rfl (by decide) rfl) (fun _ h => nomatch h)
      (.of_links rfl rfl (by decide) (by decide)))
    (.cons (.upstream (.read rfl rfl) (fun _ h => nomatch h)
      (.of_links rfl rfl (by decide) (by decide)))
    (.cons (.upstream (.read rfl rfl) (fun _ h => nomatch h)
      (.of_links rfl rfl (by decide) (by decide)))
    (.cons (.upstream (.parse rfl rfl) (fun _ h => nomatch h)
      (.of_links rfl rfl (by decide) (by decide)))
    (.cons (.upstream (.parse rfl rfl) (fun _ h => nomatch h)
      (.of_links rfl rfl (by decide) (by decide)))
    (.cons (.upstream (.parse rfl rfl) (fun _ h => nomatch h)
      (.of_links rfl rfl (by decide) (by decide)))
    (.cons (.upstream (.parse rfl rfl) (fun _ h => nomatch h)
      (.of_links rfl rfl (by decide) (by decide)))
    (.cons (.upstream (.parse rfl rfl) (fun _ h => nomatch h)
      (.of_links rfl rfl (by decide) (by decide)))
    (.cons (.upstream (.parse rfl rfl) (fun _ h => nomatch h)
      (.of_links rfl rfl (by decide) (by decide)))
    (.cons (.upstream (.parse rfl rfl) (fun _ h => nomatch h)
      (.of_links rfl rfl (by decide) (by decide)))
    (.nil _)))))))))))))))))))))))))))))))),
    .of_links rfl [(2, 0)] (by decide) (by decide), .of_links rfl [(1, 1)] (by decide) (by decide), ?_⟩
  decide +kernel

/-- The script reports its six messages, each once. -/
theorem report_complete_of_run_six_messages : ∃ σ, Run (Step (fun _ : Unit => sixMessages)
      (ringBuffer netBenchTcpBufSize) (emptyRing netBenchTcpBufSize fun _ => 0))
      (start (fun _ => ⟨0, 0⟩) fun _ => sixMessagesTable) sixThrough σ ∧
    ∃ fs', Script.main Script.exactStatistics [.input Script.recordsPath] chainNames
        (chainSystem seconds σ.trace) = some fs' ∧
      ∃ ls : List Int, Script.fileAt fs' Script.recordsPath
          (Script.recordsFilename 16 "report_throughout.csv".toList) =
            some (Script.recordsText ls) ∧ ls.length = 6 := by
  obtain ⟨σ, hrun, hserver, hupstream, hlen, hlength, hsize, hbegin, hsends⟩ :=
    six_through
  have hprocs : ∀ p : Proc Unit, p ∈ chainProcs := by
    intro p
    cases p with
    | client i => exact List.mem_cons_self
    | server => exact List.mem_cons_of_mem _ List.mem_cons_self
    | upstream => exact List.mem_cons_of_mem _ (List.mem_cons_of_mem _ List.mem_cons_self)
  have hsum : ∑ i : Unit with sixMessages.msgSize.toNat = 16,
      ((Finset.range sixMessages.total).filter fun j => (j, true) ∈ sends (σ.client i).log).card =
        6 := by
    rw [Finset.sum_filter, Finset.univ_unique, Finset.sum_singleton, if_pos (by decide), hsends]
    rfl
  have hcard : (sentOf (fun _ : Unit => sixMessages) σ 16).card = 6 := by
    rw [sentOf, Finset.card_sigma, ← hsum]
  have hsize' : ∀ n, Recorded σ n → n = 16 := by
    obtain ⟨⟨_, _, h⟩, _⟩ := settled_of_run (ringBuffer_fifo (c := netBenchTcpBufSize) (by decide))
      rfl (fun _ => sixMessages_fits) (fun _ => sixMessages_prepared) hrun
    intro n hn
    obtain ⟨r, hr, rfl⟩ := (recorded_iff h.traced seconds hprocs).mpr hn
    exact hsize r hr
  obtain ⟨hiff, hreport⟩ := report_complete_of_run
    (ringBuffer_fifo (c := netBenchTcpBufSize) (by decide)) rfl (fun _ => sixMessages_fits)
    (fun _ _ _ _ => rfl) (fun _ => ⟨List.replicate 96 0, by decide, sixMessages_prepare⟩) hrun
    ⟨hserver, hupstream, hlen⟩ (fun n hn => clocked_seconds (hn.trans hlength))
    Script.exactStatistics_indexes Script.misses_exact parseArgs_recordsPath (List.cons_ne_nil _ _)
    (chainSystem_recordsPath seconds σ.trace) rfl hprocs (recordFiles_chainDirectory seconds σ.trace)
  have hsome := hiff.mpr fun n hn => by
    rw [hsize' n hn, hcard]
    decide
  obtain ⟨fs', hmain⟩ := Option.isSome_iff_exists.mp hsome
  obtain ⟨ms, ls, hfile, _, hcount⟩ := hreport fs' hmain 16 ⟨.client (), 0, _, hbegin, rfl⟩
  exact ⟨σ, hrun, fs', hmain, ls, hfile, hcount.trans hsum⟩

end Chain

end NetBench

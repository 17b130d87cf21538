/-
# `NetBench.ChainLatency` — what the reported latencies mean

The script reads the record files of the processes, in any order.  Where it reports a
latency for a message, it has used the last `client.snd_begin` and the last
`upstream.rcv` with the fields of the message (`used_of_reported`).

While no client sends a message again that a connection has accepted in full, there is
no `client.snd_begin` behind a full write of its message, so the two are the ends of
one transmission (`latency_pairs_of_run`).  A client that resends a round leaves a
second `client.snd_begin`, perhaps later than the only `upstream.rcv`.
-/
import NetBench.LatencyScript
import NetBench.Transmission

namespace NetBench

open Lib
open Lib.Csv (Text)

/-! ## Record files -/

/-- A time in nanoseconds. -/
def Timespec.ns (t : Timespec) : Int := t.tvSec * 1000000000 + t.tvNsec

/-- The clock, read at the events of a trace, never goes back. -/
def Steady (clock : Nat → Timespec) : Prop := ∀ m n, m ≤ n → (clock m).ns ≤ (clock n).ns

theorem elapsed_eq (b e : Timespec) : elapsed b e = e.ns - b.ns := by
  simp only [elapsed, Timespec.ns]
  omega

namespace Chain

variable {ι β : Type} [DecidableEq ι] {a : ι → NbSysArgs} {B : BytesBuffer β} {b₀ : β}
  {T : ι → Bytes} {contents : β → Bytes} {cap : Nat} {σ σ' : Chain ι β}
  {H : List TcpServer.Handled} {F : Nat → List Bytes} {tr : List (Proc ι × Ev)}

/-- The record file of `p`, when the `n`-th event of the trace happens at `clock n`. -/
def fileOf (clock : Nat → Timespec) (tr : List (Proc ι × Ev)) (p : Proc ι) : List Row :=
  (positions (ofProc p Ev.record?) tr).map fun x => x.2.row (clock x.1)

/-- Its text, when the thread `tid p` makes the records of `p`. -/
def fileText (clock : Nat → Timespec) (tid : Proc ι → UInt64) (tr : List (Proc ι × Ev))
    (p : Proc ι) : Text :=
  recordFile ((positions (ofProc p Ev.record?) tr).map fun x => x.2.tsEntry (tid p) (clock x.1))

/-- The files of the directory that the script reads are those of the processes `files`. -/
def RecordFiles (clock : Nat → Timespec) (tid : Proc ι → UInt64) (tr : List (Proc ι × Ev))
    (dir : Script.Directory) (names : List Text) (files : List (Proc ι)) : Prop :=
  List.Forall₂ (fun name p => dir.get? name = some (fileText clock tid tr p))
    (Script.considered names) files

/-- The rows that the script reads of them. -/
theorem holding_of_recordFiles {clock : Nat → Timespec} {tid : Proc ι → UInt64}
    (hclock : ∀ n < tr.length, (clock n).Clocked) {dir : Script.Directory} {names : List Text}
    {files : List (Proc ι)} (h : RecordFiles clock tid tr dir names files) :
    ∃ xs : List (List Stamped), Script.Holding dir names (xs.map (List.map Stamped.entry)) ∧
      Script.rowsOfFiles xs = files.map (fileOf clock tr) := by
  have hclocked : ∀ p, ∀ x ∈ positions (ofProc p Ev.record?) tr, (clock x.1).Clocked := by
    rintro p ⟨n, r⟩ hx
    obtain ⟨y, hy, _⟩ := mem_positions.mp hx
    exact hclock n (List.getElem?_eq_some_iff.mp hy).1
  refine ⟨files.map fun p => (positions (ofProc p Ev.record?) tr).map fun x =>
    x.2.stamped (tid p) (clock x.1), ?_, ?_⟩
  · rw [Script.Holding, List.map_map, List.forall₂_map_right_iff]
    refine h.imp fun name p hfile => ?_
    have hrows : (positions (ofProc p Ev.record?) tr).map (fun x =>
        x.2.stamped (tid p) (clock x.1)) = ((positions (ofProc p Ev.record?) tr).map fun x =>
          (clock x.1, x.2)).map fun x => x.2.stamped (tid p) x.1 := by
      rw [List.map_map]
      rfl
    rw [Function.comp_apply, hrows]
    refine fileHolds_tsEntries ?_ ?_
    · intro x hx
      obtain ⟨y, hy, rfl⟩ := List.mem_map.mp hx
      exact hclocked p y hy
    · rw [hfile, fileText, List.map_map]
      rfl
  · rw [Script.rowsOfFiles, List.map_map]
    refine List.map_congr_left fun p _ => ?_
    rw [Function.comp_apply, List.map_map, fileOf]
    exact List.map_congr_left fun x hx => Record.row_stamped (hclocked p x hx)

/-- At `b` is the last record of the message `k` with the action `x`. -/
def IsLast (tr : List (Proc ι × Ev)) (x : Action) (k : MsgKey) (b : Nat) : Prop :=
  (∃ p c, tr[b]? = some (p, Ev.record c (k.record x))) ∧
    ∀ (b' : Nat) (p : Proc ι) (c : Nat),
      tr[b']? = some (p, Ev.record c (k.record x)) → b' ≤ b

theorem mem_records {p : Proc ι} {n : Nat} {r : Record} :
    (n, r) ∈ positions (ofProc p Ev.record?) tr ↔ ∃ c, tr[n]? = some (p, Ev.record c r) := by
  rw [mem_positions]
  constructor
  · rintro ⟨⟨q, e⟩, hx, hr⟩
    by_cases hq : q = p
    · subst hq
      cases e with
      | record c r' =>
          simp only [ofProc, Ev.record?, if_pos, Option.some.injEq] at hr
          subst hr
          exact ⟨c, hx⟩
      | write | assertFailed | exit => simp [ofProc, Ev.record?] at hr
    · simp [ofProc, hq] at hr
  · rintro ⟨c, hx⟩
    exact ⟨_, hx, by simp [ofProc, Ev.record?]⟩

/-- The last row for a message and an action is the last such record of one process. -/
theorem lastRow_files {clock : Nat → Timespec} {files : List (Proc ι)} {n : Nat} {text : String}
    {x : Action} {row : Row}
    (h : lastRow (files.map (fileOf clock tr)).flatten n text x = some row) :
    ∃ (p : Proc ι) (k : MsgKey) (b c : Nat), text = k.text ∧ n = k.msgSize.toNat ∧
      row.ts = clock b ∧ tr[b]? = some (p, Ev.record c (k.record x)) ∧
      ∀ b' c', tr[b']? = some (p, Ev.record c' (k.record x)) → b' ≤ b := by
  rw [lastRow, ← List.flatMap_def, List.filter_flatMap, List.getLast?_flatMap] at h
  obtain ⟨p, _, hp⟩ := List.exists_of_findSome?_eq_some h
  rw [fileOf, List.filter_map, List.getLast?_map] at hp
  obtain ⟨⟨b, r⟩, hlast, rfl⟩ := Option.map_eq_some_iff.mp hp
  obtain ⟨hmem, hr⟩ := List.mem_filter.mp (List.mem_of_getLast? hlast)
  obtain ⟨c, hb⟩ := mem_records.mp hmem
  obtain ⟨rfl, rfl, rfl⟩ : (r.row (clock b)).size = n ∧ (r.row (clock b)).key = text ∧
      (r.row (clock b)).action = x := of_decide_eq_true hr
  refine ⟨p, r.key, b, c, rfl, rfl, rfl, hb, fun b' c' hb' => ?_⟩
  refine fst_le_of_getLast? ((pairwise_positions _ _).filter _) hlast (y := (b', r)) ?_
  exact List.mem_filter.mpr ⟨mem_records.mpr ⟨c', hb'⟩, hr⟩

/-! ## The records used -/

/-- Clients with the same user id and the same message size are the same one. -/
def Distinct (a : ι → NbSysArgs) : Prop :=
  ∀ i j, (a i).userId = (a j).userId → (a i).msgSize = (a j).msgSize → i = j

omit [DecidableEq ι] in
/-- All `client.snd_begin` of a message are made by one client. -/
theorem Local.client (h : Local a tr) {b d : Nat} {p : Proc ι} {k : MsgKey}
    (hb : tr[b]? = some (p, Ev.record d (k.record .clientSndBegin))) :
    ∃ i, p = .client i ∧ ∃ j < (a i).total, k = TcpClient.msgKey (a i) j := by
  have hown := h.owned _ (List.mem_of_getElem? hb)
  cases p with
  | client i => exact ⟨i, rfl, hown.2⟩
  | server =>
      rcases hown with hown | hown
      · cases hown
      · cases hown
  | upstream => cases (show Action.clientSndBegin = Action.upstreamRcv from hown)

omit [DecidableEq ι] in
/-- All `upstream.rcv` are made by the upstream. -/
theorem Local.upstream (h : Local a tr) {q x : Nat} {p : Proc ι} {k : MsgKey}
    (hq : tr[q]? = some (p, Ev.record x (k.record .upstreamRcv))) : p = .upstream := by
  have hown := h.owned _ (List.mem_of_getElem? hq)
  cases p with
  | client i =>
      rcases hown.1 with hown | hown
      · cases hown
      · cases hown
  | server =>
      rcases hown with hown | hown
      · cases hown
      · cases hown
  | upstream => rfl

/-- What is reported for a message lies between its last `client.snd_begin` and its last
`upstream.rcv`. -/
theorem used_of_reported (hid : Distinct a) (h : Local a tr) {clock : Nat → Timespec}
    {files : List (Proc ι)} {n : Nat} {text : String} {ℓ : Int}
    (hrep : Reported (files.map (fileOf clock tr)) n text ℓ) :
    ∃ (k : MsgKey) (b q : Nat), text = k.text ∧ n = k.msgSize.toNat ∧
      IsLast tr .clientSndBegin k b ∧ IsLast tr .upstreamRcv k q ∧
      ℓ = elapsed (clock b) (clock q) := by
  obtain ⟨rb, re, hrb, hre, rfl⟩ := reported_last hrep
  obtain ⟨p, k, b, d, rfl, rfl, hts, hb, hblast⟩ := lastRow_files hrb
  obtain ⟨p', k', q, x, htext, hsize, hts', hq, hqlast⟩ := lastRow_files hre
  obtain rfl : k = k' := by
    obtain ⟨huid, hid⟩ := MsgKey.text_inj htext
    obtain ⟨uid, id, size⟩ := k
    obtain ⟨uid', id', size'⟩ := k'
    rw [MsgKey.mk.injEq]
    exact ⟨huid, hid, UInt32.toNat_inj.mp hsize⟩
  refine ⟨k, b, q, rfl, rfl, ⟨⟨p, d, hb⟩, fun b' p₁ c hb' => ?_⟩,
    ⟨⟨p', x, hq⟩, fun q' p₁ c hq' => ?_⟩, by rw [hts, hts']⟩
  · obtain ⟨i, rfl, j, _, hk⟩ := h.client hb
    obtain ⟨i', rfl, j', _, hk'⟩ := h.client hb'
    obtain rfl : i = i' := hid i i' (congrArg MsgKey.userId (hk.symm.trans hk'))
      (congrArg MsgKey.msgSize (hk.symm.trans hk'))
    exact hblast b' c hb'
  · rw [h.upstream hq] at hqlast
    rw [h.upstream hq'] at hq'
    exact hqlast q' c hq'

/-! ## No message is sent twice -/

/-- Where the step is a send of a client, no connection has accepted this message in full
before. -/
def Fresh (a : ι → NbSysArgs) (T : ι → Bytes) (σ : Chain ι β) (e : ChainEvent ι) : Prop :=
  ∀ i w, e = .client i (.send w) → ∀ d,
    (a i).slice (T i) (TcpClient.done (a i) (σ.client i)) ∉ fullWrites (σ.client i).log d

/-- The steps in which no client sends a message again. -/
def FreshStep (a : ι → NbSysArgs) (T : ι → Bytes) (B : BytesBuffer β) (b₀ : β) (σ : Chain ι β)
    (e : ChainEvent ι) (σ' : Chain ι β) : Prop :=
  Step a B b₀ σ e σ' ∧ Fresh a T σ e

/-- No `client.snd_begin` of a message stands behind a full write of it. -/
def Once (tr : List (Proc ι × Ev)) : Prop :=
  ∀ (i : ι) (w b d d' : Nat) (f : Bytes), tr[w]? = some (Proc.client i, Ev.write d f f) →
    tr[b]? = some (Proc.client i, Ev.record d' ((keyOf f).record .clientSndBegin)) → b < w

/-- An event of the trace is in the log of its process. -/
theorem Traced.log_mem (h : Traced σ) {n : Nat} {p : Proc ι} {e : Ev}
    (hn : σ.trace[n]? = some (p, e)) : e ∈ σ.logOf p := by
  rw [← h p]
  exact List.mem_filterMap.mpr ⟨_, List.mem_of_getElem? hn, if_pos rfl⟩

omit [DecidableEq ι] in
/-- Events of other processes, or without a record and a write, change nothing. -/
theorem Once.append (h : Once tr) {tr' : List (Proc ι × Ev)}
    (hw : ∀ i d f, (Proc.client i, Ev.write d f f) ∉ tr')
    (hr : ∀ i d r, (Proc.client i, Ev.record d r) ∉ tr') : Once (tr ++ tr') := by
  intro i w b d d' f hwe hbe
  have hold : ∀ {n : Nat} {x : Proc ι × Ev}, (tr ++ tr')[n]? = some x → x ∉ tr' →
      tr[n]? = some x := by
    intro n x hx hnot
    by_cases hn : n < tr.length
    · rwa [List.getElem?_append_left hn] at hx
    · rw [List.getElem?_append_right (Nat.le_of_not_lt hn)] at hx
      exact absurd (List.mem_of_getElem? hx) hnot
  exact h i w b d d' f (hold hwe (hw i d f)) (hold hbe (hr i d' _))

/-- Nor does a message that no connection has accepted before. -/
theorem Once.message (ha : ∀ i, (a i).Fits) (hT : ∀ i, (a i).Prepared (T i)) (ho : Once σ.trace)
    (h : Linked a T contents H F σ) {i : ι} {j d : Nat} (hj : j < (a i).total) {acc : Bytes}
    (hfresh : ∀ d, (a i).slice (T i) j ∉ fullWrites (σ.client i).log d) :
    Once (σ.trace ++
      (TcpClient.msgEvents (a i) (T i) d j acc).map (Prod.mk (Proc.client i))) := by
  intro i' w b d₁ d₂ f hw hb
  by_cases hwn : w < σ.trace.length
  · rw [List.getElem?_append_left hwn] at hw
    by_cases hbn : b < σ.trace.length
    · rw [List.getElem?_append_left hbn] at hb
      exact ho i' w b d₁ d₂ f hw hb
    · -- the new `client.snd_begin` is of another message than the old write
      exfalso
      rw [List.getElem?_append_right (Nat.le_of_not_lt hbn)] at hb
      obtain ⟨e, he, heq⟩ := List.mem_map.mp (List.mem_of_getElem? hb)
      obtain ⟨hi, rfl⟩ := Prod.mk.inj heq
      obtain rfl := Proc.client.inj hi
      have hlog := h.traced.log_mem hw
      obtain ⟨j', hj', rfl, _⟩ := (h.sent i).slices d₁ f f hlog
      simp only [TcpClient.msgEvents, List.mem_cons, Ev.record.injEq, reduceCtorEq,
        List.not_mem_nil, or_false, false_or] at he
      have hkey : keyOf ((a i).slice (T i) j') = TcpClient.msgKey (a i) j := by
        rcases he with ⟨_, he⟩ | ⟨_, he⟩
        · exact congrArg Record.key he
        · cases congrArg Record.action he
      rw [TcpClient.keyOf_slice (hT i) hj'] at hkey
      obtain rfl := TcpClient.msgKey_inj (ha i) hj' hj hkey
      exact hfresh d₁ (mem_fullWrites.mpr hlog)
  · -- a new write, which is the second of the new events
    have hwn := Nat.le_of_not_lt hwn
    rw [List.getElem?_append_right hwn] at hw
    have hw1 : w = σ.trace.length + 1 := by
      rcases hn : w - σ.trace.length with _ | _ | _ | n
      · rw [hn] at hw
        cases hw
      · omega
      · rw [hn] at hw
        cases hw
      · rw [hn] at hw
        cases hw
    by_cases hbn : b < σ.trace.length
    · omega
    · have hbn := Nat.le_of_not_lt hbn
      rw [List.getElem?_append_right hbn] at hb
      rcases hn : b - σ.trace.length with _ | _ | _ | n
      · omega
      · rw [hn] at hb
        cases hb
      · rw [hn] at hb
        simp [TcpClient.msgEvents, NbSysArgs.record, MsgKey.record] at hb
      · rw [hn] at hb
        cases hb

theorem Once.step (ha : ∀ i, (a i).Fits) (hT : ∀ i, (a i).Prepared (T i)) (ho : Once σ.trace)
    (h : Linked a T contents H F σ) {e : ChainEvent ι} {p : Proc ι} {l : List Ev}
    (hm : Moves p l σ σ') (hadds : Adds a T σ σ' e p l) (hfresh : Fresh a T σ e) :
    Once σ'.trace := by
  rw [hm.trace]
  have hother : ∀ {q : Proc ι} {l : List Ev}, (∀ i, q ≠ .client i) →
      Once (σ.trace ++ l.map (Prod.mk q)) := by
    intro q l hq
    refine ho.append (fun i d f hx => ?_) (fun i d r hx => ?_)
    · obtain ⟨_, _, heq⟩ := List.mem_map.mp hx
      exact hq i (Prod.mk.inj heq).1
    · obtain ⟨_, _, heq⟩ := List.mem_map.mp hx
      exact hq i (Prod.mk.inj heq).1
  rcases hadds.cases hm with hl | ⟨i, w, d, acc, rfl, rfl, hd, rfl⟩ | ⟨l', x, rfl, hl, _, rfl⟩ |
    ⟨l', c, k, rfl, hl, rfl⟩
  · refine ho.append (fun i d f hx => ?_) (fun i d r hx => ?_)
    · obtain ⟨e, he, heq⟩ := List.mem_map.mp hx
      obtain ⟨_, rfl⟩ := Prod.mk.inj heq
      exact hl.noWrite _ _ _ he
    · obtain ⟨e, he, heq⟩ := List.mem_map.mp hx
      obtain ⟨_, rfl⟩ := Prod.mk.inj heq
      rcases hl _ he with ⟨_, _, heq⟩ | heq
      · cases heq
      · cases heq
  · exact ho.message ha hT h hd (hfresh i w rfl)
  · exact hother fun _ h => nomatch h
  · exact hother fun _ h => nomatch h

/-! ## Runs -/

theorem transmits_of_run (hB : B.Fifo contents cap) (h₀ : contents b₀ = [])
    (ha : ∀ i, (a i).Fits) (hT : ∀ i, (a i).Prepared (T i)) {ts : ι → Timespec}
    {es : List (ChainEvent ι)} (hrun : Run (FreshStep a T B b₀) (start ts T) es σ) :
    (∃ H F, Linked a T contents H F σ) ∧ Transmits a σ ∧ Once σ.trace := by
  refine hrun.invariant
    (I := fun σ => (∃ H F, Linked a T contents H F σ) ∧ Transmits a σ ∧ Once σ.trace) ?_
    ⟨⟨_, _, linked_start ts⟩, transmits_start ts, fun _ _ _ _ _ _ h => nomatch h⟩
  rintro σ e σ' ⟨⟨H, F, h⟩, ht, ho⟩ ⟨hs, hfresh⟩
  obtain ⟨H', F', p, l, h', hm, hadds⟩ := h.step hB h₀ ha hT hs
  exact ⟨⟨H', F', h'⟩, ht.step ha hT h h' hs hm hadds, ho.step ha hT h hm hadds hfresh⟩

/-- In every run in which no client sends a message again that a connection has accepted
in full: the `upstream.rcv` used for a reported latency was caused by the write that
follows the `client.snd_begin` used, so with clocks that agree and never go back the
latency is not negative. -/
theorem latency_pairs_of_run (hB : B.Fifo contents cap) (h₀ : contents b₀ = [])
    (ha : ∀ i, (a i).Fits) (hid : Distinct a)
    (hT : ∀ i, ∃ m, m.length = (a i).tableBytes.toNat ∧ (a i).prepare m = some (T i))
    {ts : ι → Timespec} {es : List (ChainEvent ι)}
    (hrun : Run (FreshStep a T B b₀) (start ts T) es σ) {clock : Nat → Timespec}
    (hclock : Steady clock) {files : List (Proc ι)} {n : Nat} {text : String}
    {ℓ : Int} (hrep : Reported (files.map (fileOf clock σ.trace)) n text ℓ) :
    ∃ (k : MsgKey) (b q : Nat), text = k.text ∧ n = k.msgSize.toNat ∧
      IsLast σ.trace .clientSndBegin k b ∧ IsLast σ.trace .upstreamRcv k q ∧
      Caused σ (b + 1) q ∧ ℓ = elapsed (clock b) (clock q) ∧ 0 ≤ ℓ := by
  have hT' : ∀ i, (a i).Prepared (T i) := by
    intro i
    obtain ⟨m, hm, hprep⟩ := hT i
    exact NbSysArgs.prepared_of_prepare (ha i).sized hm hprep
  obtain ⟨⟨H, F, h⟩, ht, ho⟩ := transmits_of_run hB h₀ ha hT' hrun
  obtain ⟨k, b, q, htext, hn, hbegin, hrcv, hℓ⟩ := used_of_reported hid ht.seen hrep
  obtain ⟨p, x, hq⟩ := hrcv.1
  obtain rfl := ht.seen.upstream hq
  obtain ⟨i, b', d, f, hcaused, hlt, hf, hb', hw⟩ := ht.caused ha hT' h hq
  -- the `client.snd_begin` of the cause is the last one
  obtain rfl : b = b' := by
    obtain ⟨⟨p, c, hb⟩, hlast⟩ := hbegin
    have hge := hlast b' _ d hb'
    obtain ⟨i₁, rfl, j₁, _, hk₁⟩ := ht.seen.client hb
    obtain ⟨i₂, hi₂, j₂, _, hk₂⟩ := ht.seen.client hb'
    obtain rfl := Proc.client.inj hi₂
    obtain rfl : i₁ = i := hid i₁ i (congrArg MsgKey.userId (hk₁.symm.trans hk₂))
      (congrArg MsgKey.msgSize (hk₁.symm.trans hk₂))
    have hle := ho i₁ (b' + 1) b d c f hw (hf ▸ hb)
    omega
  refine ⟨k, b, q, htext, hn, hbegin, hrcv, hcaused, hℓ, ?_⟩
  have hmono : (clock b).ns ≤ (clock q).ns := hclock b q (by omega)
  rw [hℓ, elapsed_eq]
  omega

/-- One event in each second. -/
def seconds (n : Nat) : Timespec := ⟨n, 0⟩

theorem steady_seconds : Steady seconds := by
  intro m n h
  simp only [Timespec.ns, seconds]
  omega

/-- A client of one round of six messages of 16 bytes. -/
def sixMessages : NbSysArgs := ⟨1, 1, 6, 0, 16, 0⟩

/-- Its table. -/
def sixMessagesTable : Bytes :=
  (List.range 6).flatMap fun i =>
    sixMessages.msgHdr.encode ++ (sixMessages.msgData (UInt32.ofNat i)).encode

theorem sixMessages_fits : sixMessages.Fits := ⟨by decide, by decide, by decide⟩

theorem sixMessages_prepare :
    sixMessages.prepare (List.replicate 96 0) = some sixMessagesTable := by decide +kernel

theorem sixMessages_prepared : sixMessages.Prepared sixMessagesTable :=
  NbSysArgs.prepared_of_prepare sixMessages_fits.sized (by decide) sixMessages_prepare

/-- A message of the round, accepted in full. -/
theorem sixMessages_send {β : Type} {s : TcpClient β} {c : Nat} {l : Sending} (d : Nat)
    (hd : d < sixMessages.total) (hseq : l.seq = UInt32.ofNat d) (hp : l.p = d * 16)
    (htable : s.datas = sixMessagesTable) (hopen : c ∉ s.shut) :
    TcpClient.sendOne sixMessages c l (.accept 16) s = some { s with
      log := s.log ++ TcpClient.msgEvents sixMessages sixMessagesTable c d
        (sixMessages.slice sixMessagesTable d)
      sending := some ⟨l.i + 1, l.seq + 1, l.p + 16⟩ } :=
  TcpClient.sendOne_full sixMessages_fits sixMessages_prepared hd hseq hp htable hopen (by decide)

/-- The first five messages go through the chain, the write of the sixth is short; the client
connects again and sends the first message again, which nobody reads. -/
def resent : List (ChainEvent Unit) :=
  [.serverAccepts true () 0, .upstreamAccepts true 1, .server (.add 1 true),
    .client () (.add 0 ⟨0, 0⟩ true), .client () (.timer ⟨0, 0⟩), .client () (.send (.accept 16)),
    .client () (.send (.accept 16)), .client () (.send (.accept 16)),
    .client () (.send (.accept 16)), .client () (.send (.accept 16)),
    .client () (.send (.accept 3)), .server (.message 2),
    .server (.read (some ⟨sixMessagesTable.take 80, by decide, by decide⟩)), .server (.read none),
    .server (.parse (.accept 16)), .server (.parse (.accept 16)), .server (.parse (.accept 16)),
    .server (.parse (.accept 16)), .server (.parse (.accept 16)), .upstream (.message 1),
    .upstream (.read (some ⟨sixMessagesTable.take 80, by decide, by decide⟩)),
    .upstream (.read none), .upstream .parse, .upstream .parse, .upstream .parse,
    .upstream .parse, .upstream .parse, .client () (.close 0), .client () .connected,
    .client () (.add 1 ⟨0, 0⟩ true), .client () (.timer ⟨0, 0⟩), .client () (.send (.accept 16))]

/-- The files of the three processes of the chain. -/
def chainNames : List Text := ["client.csv".toList, "server.csv".toList, "upstream.csv".toList]

def chainProcs : List (Proc Unit) := [.client (), .server, .upstream]

/-- The directory with these files. -/
def chainDirectory (clock : Nat → Timespec) (tr : List (Proc Unit × Ev)) : Script.Directory :=
  (((∅ : Script.Directory).set "client.csv".toList
    (fileText clock (fun _ => 7) tr (.client ()))).set "server.csv".toList
      (fileText clock (fun _ => 7) tr .server)).set "upstream.csv".toList
        (fileText clock (fun _ => 7) tr .upstream)

def chainSystem (clock : Nat → Timespec) (tr : List (Proc Unit × Ev)) : Script.Directories :=
  fun _ => some (chainDirectory clock tr)

theorem chainSystem_recordsPath (clock : Nat → Timespec) (tr : List (Proc Unit × Ev)) :
    chainSystem clock tr Script.recordsPath = some (chainDirectory clock tr) := rfl

theorem parseArgs_recordsPath : Script.parseArgs [.input Script.recordsPath] =
    some (Script.recordsPath, Script.recordsPath) := rfl

theorem recordFiles_chainDirectory (clock : Nat → Timespec) (tr : List (Proc Unit × Ev)) :
    RecordFiles clock (fun _ => 7) tr (chainDirectory clock tr) chainNames chainProcs :=
  .cons rfl (.cons rfl (.cons rfl .nil))

theorem clocked_seconds {n : Nat} (h : n < 2 ^ 63) : (seconds n).Clocked where
  sec_nonneg := Int.natCast_nonneg n
  sec_lt := by
    show (n : Int) < 2 ^ 63
    omega
  nsec_nonneg := Int.le_refl 0
  nsec_lt := (by decide : (0 : Int) < 1000000000)

/-- The latencies of both reports: six of the sends, five from end to end, one of these
negative. -/
theorem latencies_after_resend : ∃ σ,
    Run (Step (fun _ : Unit => sixMessages) (ringBuffer netBenchTcpBufSize)
      (emptyRing netBenchTcpBufSize fun _ => 0))
      (start (fun _ => ⟨0, 0⟩) fun _ => sixMessagesTable) resent σ ∧
    σ.trace.length < 2 ^ 63 ∧
    (∀ r ∈ (chainProcs.map (fileOf seconds σ.trace)).flatten, r.size = 16) ∧
    (latencyList (chainProcs.map (fileOf seconds σ.trace)) 16 .clientSndBegin
      .clientSndEnd).length = 6 ∧
    latencyList (chainProcs.map (fileOf seconds σ.trace)) 16 .clientSndBegin .upstreamRcv =
      [-5000000000, 31000000000, 29000000000, 27000000000, 25000000000] := by
  refine ⟨_, .cons (.serverAccepts (.connect rfl) fun _ h => nomatch h)
    (.cons (.upstreamAccepts (.connect rfl) fun _ h => nomatch h)
    (.cons (.server (.add rfl (by decide)) (fun _ h => nomatch h)
      (.of_links rfl rfl (by decide) (by decide)))
    (.cons (.client (.add rfl List.mem_cons_self))
    (.cons (.client (.timer rfl))
    (.cons (.client (.send rfl (by decide) rfl
      (sixMessages_send 0 (by decide) rfl rfl rfl (by decide))))
    (.cons (.client (.send rfl (by decide) rfl
      (sixMessages_send 1 (by decide) rfl rfl rfl (by decide))))
    (.cons (.client (.send rfl (by decide) rfl
      (sixMessages_send 2 (by decide) rfl rfl rfl (by decide))))
    (.cons (.client (.send rfl (by decide) rfl
      (sixMessages_send 3 (by decide) rfl rfl rfl (by decide))))
    (.cons (.client (.send rfl (by decide) rfl
      (sixMessages_send 4 (by decide) rfl rfl rfl (by decide))))
    (.cons (.client (.send rfl (by decide) rfl rfl))
    (.cons (.server (.message rfl (by decide) rfl) (fun _ h => nomatch h)
      (.of_links rfl rfl (by decide) (by decide)))
    (.cons (.server (.read rfl rfl) (fun _ h => nomatch h)
      (.of_links rfl rfl (by decide) (by decide)))
    (.cons (.server (.read rfl rfl) (fun _ h => nomatch h)
      (.of_links rfl rfl (by decide) (by decide)))
    (.cons (.server (.parse rfl rfl) (fun _ h => nomatch h)
      (.of_links rfl rfl (by decide) (by decide)))
    (.cons (.server (.parse rfl rfl) (fun _ h => nomatch h)
      (.of_links rfl rfl (by decide) (by decide)))
    (.cons (.server (.parse rfl rfl) (fun _ h => nomatch h)
      (.of_links rfl rfl (by decide) (by decide)))
    (.cons (.server (.parse rfl rfl) (fun _ h => nomatch h)
      (.of_links rfl rfl (by decide) (by decide)))
    (.cons (.server (.parse rfl rfl) (fun _ h => nomatch h)
      (.of_links rfl rfl (by decide) (by decide)))
    (.cons (.upstream (.message rfl (by decide) rfl) (fun _ h => nomatch h)
      (.of_links rfl rfl (by decide) (by decide)))
    (.cons (.upstream (.read rfl rfl) (fun _ h => nomatch h)
      (.of_links rfl rfl (by decide) (by decide)))
    (.cons (.upstream (.read rfl rfl) (fun _ h => nomatch h)
      (.of_links rfl rfl (by decide) (by decide)))
    (.cons (.upstream (.parse rfl rfl) (fun _ h => nomatch h)
      (.of_links rfl rfl (by decide) (by decide)))
    (.cons (.upstream (.parse rfl rfl) (fun _ h => nomatch h)
      (.of_links rfl rfl (by decide) (by decide)))
    (.cons (.upstream (.parse rfl rfl) (fun _ h => nomatch h)
      (.of_links rfl rfl (by decide) (by decide)))
    (.cons (.upstream (.parse rfl rfl) (fun _ h => nomatch h)
      (.of_links rfl rfl (by decide) (by decide)))
    (.cons (.upstream (.parse rfl rfl) (fun _ h => nomatch h)
      (.of_links rfl rfl (by decide) (by decide)))
    (.cons (.client (.close rfl List.mem_cons_self))
    (.cons (.client (.connected (by decide)))
    (.cons (.client (.add rfl List.mem_cons_self))
    (.cons (.client (.timer rfl))
    (.cons (.client (.send rfl (by decide) rfl
      (sixMessages_send 0 (by decide) rfl rfl rfl (by decide))))
    (.nil _)))))))))))))))))))))))))))))))), ?_⟩
  decide +kernel

/-- The script comes to its end, and a latency in the file for size 16 is negative: that of the
first message, from the `client.snd_begin` of its second transmission to the `upstream.rcv` of
its first one. -/
theorem latency_negative_after_resend : Steady seconds ∧ ∃ σ,
    Run (Step (fun _ : Unit => sixMessages) (ringBuffer netBenchTcpBufSize)
      (emptyRing netBenchTcpBufSize fun _ => 0))
      (start (fun _ => ⟨0, 0⟩) fun _ => sixMessagesTable) resent σ ∧
    RecordFiles seconds (fun _ => 7) σ.trace (chainDirectory seconds σ.trace) chainNames
      chainProcs ∧
    ∃ fs', Script.main Script.exactStatistics [.input Script.recordsPath] chainNames
        (chainSystem seconds σ.trace) = some fs' ∧
      Script.fileAt fs' Script.recordsPath
          (Script.recordsFilename 16 "report_throughout.csv".toList) =
        some (Script.recordsText
          [-5000000000, 31000000000, 29000000000, 27000000000, 25000000000]) := by
  obtain ⟨σ, hrun, hlength, hsize, hsend, hthrough⟩ := latencies_after_resend
  have hfiles := recordFiles_chainDirectory seconds σ.trace
  obtain ⟨xs, hholding, hrows⟩ := holding_of_recordFiles
    (fun n hn => clocked_seconds (hn.trans hlength)) hfiles
  have hdir := chainSystem_recordsPath seconds σ.trace
  have hne : Script.recordsPath ≠ [] := List.cons_ne_nil _ _
  have hsome : (Script.main Script.exactStatistics [.input Script.recordsPath] chainNames
      (chainSystem seconds σ.trace)).isSome := by
    refine (Script.isSome_main_iff Script.exactStatistics_indexes Script.misses_exact
      parseArgs_recordsPath hne hdir hholding rfl).mpr ?_
    rintro n ⟨r, hr, rfl⟩
    rw [hrows] at hr ⊢
    rw [hsize r hr, hsend, hthrough]
    decide
  obtain ⟨fs', hmain⟩ := Option.isSome_iff_exists.mp hsome
  refine ⟨steady_seconds, σ, hrun, hfiles, fs', hmain, ?_⟩
  have hrow : ∃ r ∈ (chainProcs.map (fileOf seconds σ.trace)).flatten, r.size = 16 := by
    cases hall : (chainProcs.map (fileOf seconds σ.trace)).flatten with
    | nil =>
        rw [latencyList, recordListDict_eq_group, hall] at hsend
        cases hsend
    | cons r rs => exact ⟨r, List.mem_cons_self, hsize r (hall ▸ List.mem_cons_self)⟩
  have hfile := Script.fileAt_throughout parseArgs_recordsPath hne hdir hholding hmain (hrows.symm ▸ hrow)
  rw [hrows, hthrough] at hfile
  exact hfile

/-- A client of one round of two messages of 16 bytes. -/
def twoMessages : NbSysArgs := ⟨1, 1, 2, 0, 16, 0⟩

/-- Its table. -/
def twoMessagesTable : Bytes :=
  twoMessages.msgHdr.encode ++ (twoMessages.msgData 0).encode ++
    (twoMessages.msgHdr.encode ++ (twoMessages.msgData 1).encode)

theorem twoMessages_fits : twoMessages.Fits := ⟨by decide, by decide, by decide⟩

theorem twoMessages_prepare :
    twoMessages.prepare (List.replicate 32 0) = some twoMessagesTable := by decide

theorem twoMessages_prepared : twoMessages.Prepared twoMessagesTable :=
  NbSysArgs.prepared_of_prepare twoMessages_fits.sized (by decide) twoMessages_prepare

/-- Two messages; the write of the first one fails, and the message is sent on the
next connection, from where it goes through the chain. -/
def firstFails : List (ChainEvent Unit) :=
  [.client () (.add 0 ⟨0, 0⟩ true), .client () (.timer ⟨0, 0⟩), .client () (.send .error),
    .client () (.close 0), .client () .connected, .client () (.add 1 ⟨0, 0⟩ true),
    .client () (.timer ⟨0, 0⟩), .client () (.send (.accept 16)), .serverAccepts true () 1,
    .upstreamAccepts true 1, .server (.add 1 true), .server (.message 2),
    .server (.read (some ⟨twoMessagesTable.take 16, by decide, by decide⟩)), .server (.read none),
    .server (.parse (.accept 16)), .upstream (.message 1),
    .upstream (.read (some ⟨twoMessagesTable.take 16, by decide, by decide⟩)),
    .upstream (.read none), .upstream .parse]

/-- Its latency is that of the message sent on the second connection. -/
theorem latency_pairs_after_failed_write : ∃ σ,
    Run (FreshStep (fun _ : Unit => twoMessages) (fun _ => twoMessagesTable)
      (ringBuffer netBenchTcpBufSize) (emptyRing netBenchTcpBufSize fun _ => 0))
      (start (fun _ => ⟨0, 0⟩) fun _ => twoMessagesTable) firstFails σ ∧
    latencyList (chainProcs.map (fileOf seconds σ.trace)) 16 .clientSndBegin .upstreamRcv =
      [6000000000] ∧
    ∃ (k : MsgKey) (b q : Nat), IsLast σ.trace .clientSndBegin k b ∧ Caused σ (b + 1) q := by
  obtain ⟨σ, hrun, hrep⟩ : ∃ σ,
      Run (FreshStep (fun _ : Unit => twoMessages) (fun _ => twoMessagesTable)
        (ringBuffer netBenchTcpBufSize) (emptyRing netBenchTcpBufSize fun _ => 0))
        (start (fun _ => ⟨0, 0⟩) fun _ => twoMessagesTable) firstFails σ ∧
      latencyList (chainProcs.map (fileOf seconds σ.trace)) 16 .clientSndBegin .upstreamRcv =
        [6000000000] := by
    refine ⟨_, .cons ⟨.client (.add rfl List.mem_cons_self), fun _ _ h => nomatch h⟩
      (.cons ⟨.client (.timer rfl), fun _ _ h => nomatch h⟩
      (.cons ⟨.client (.send rfl (by decide) rfl rfl), ?_⟩
      (.cons ⟨.client (.close rfl List.mem_cons_self), fun _ _ h => nomatch h⟩
      (.cons ⟨.client (.connected (by decide)), fun _ _ h => nomatch h⟩
      (.cons ⟨.client (.add rfl List.mem_cons_self), fun _ _ h => nomatch h⟩
      (.cons ⟨.client (.timer rfl), fun _ _ h => nomatch h⟩
      (.cons ⟨.client (.send rfl (by decide) rfl
        (TcpClient.sendOne_full twoMessages_fits twoMessages_prepared (d := 0) (by decide) rfl rfl rfl
          (by decide) (by decide))), ?_⟩
      (.cons ⟨.serverAccepts (.connect rfl) (fun _ h => nomatch h), fun _ _ h => nomatch h⟩
      (.cons ⟨.upstreamAccepts (.connect rfl) (fun _ h => nomatch h), fun _ _ h => nomatch h⟩
      (.cons ⟨.server (.add rfl (by decide)) (fun _ h => nomatch h)
        (.of_links rfl rfl (by decide) (by decide)), fun _ _ h => nomatch h⟩
      (.cons ⟨.server (.message rfl (by decide) rfl) (fun _ h => nomatch h)
        (.of_links rfl rfl (by decide) (by decide)), fun _ _ h => nomatch h⟩
      (.cons ⟨.server (.read rfl rfl) (fun _ h => nomatch h)
        (.of_links rfl rfl (by decide) (by decide)), fun _ _ h => nomatch h⟩
      (.cons ⟨.server (.read rfl rfl) (fun _ h => nomatch h)
        (.of_links rfl rfl (by decide) (by decide)), fun _ _ h => nomatch h⟩
      (.cons ⟨.server (.parse rfl rfl) (fun _ h => nomatch h)
        (.of_links rfl rfl (by decide) (by decide)), fun _ _ h => nomatch h⟩
      (.cons ⟨.upstream (.message rfl (by decide) rfl) (fun _ h => nomatch h)
        (.of_links rfl rfl (by decide) (by decide)), fun _ _ h => nomatch h⟩
      (.cons ⟨.upstream (.read rfl rfl) (fun _ h => nomatch h)
        (.of_links rfl rfl (by decide) (by decide)), fun _ _ h => nomatch h⟩
      (.cons ⟨.upstream (.read rfl rfl) (fun _ h => nomatch h)
        (.of_links rfl rfl (by decide) (by decide)), fun _ _ h => nomatch h⟩
      (.cons ⟨.upstream (.parse rfl rfl) (fun _ h => nomatch h)
        (.of_links rfl rfl (by decide) (by decide)), fun _ _ h => nomatch h⟩
        (.nil _))))))))))))))))))), ?_⟩
    · rintro i w _ d hmem
      cases mem_fullWrites.mp hmem
    · -- the failed write is the only one so far
      rintro i w _ d hmem
      have hmem : Ev.write d (twoMessages.slice twoMessagesTable 0)
          (twoMessages.slice twoMessagesTable 0) ∈
          TcpClient.msgEvents twoMessages twoMessagesTable 0 0 [] := mem_fullWrites.mp hmem
      simp only [TcpClient.msgEvents, List.mem_cons, reduceCtorEq, Ev.write.injEq, List.not_mem_nil,
        or_false, false_or] at hmem
      exact absurd hmem.2.2 (by decide)
    · decide
  obtain ⟨k, hk⟩ := mem_latencyList.mp (hrep ▸ List.mem_cons_self)
  obtain ⟨k, b, q, _, _, hlast, _, hcaused, _⟩ := latency_pairs_of_run
    (ringBuffer_fifo (c := netBenchTcpBufSize) (by decide)) rfl (fun _ => twoMessages_fits)
    (fun _ _ _ _ => rfl) (fun _ => ⟨_, by decide, twoMessages_prepare⟩) hrun steady_seconds hk
  exact ⟨σ, hrun, hrep, k, b, q, hlast, hcaused⟩

end Chain

end NetBench

/-
# `NetBench.ThreadLatency` — what is reported of the thread program

From the threads through the rings and the record file to the reports.  When the program
has returned and its records are written, the file has four records of each message, and
`thread_latency_analysis.py` reports for each message one latency of the push and one
latency from end to end.  With a clock that does not go back none of them is negative: the
clock is read for `producer.prepare` first                          (`reports_of_run`)
-/
import NetBench.ThreadRecords
import NetBench.ThreadScript

namespace NetBench

open Lib Lib.Csv

/-! ## All calls -/

theorem ThreadAction.text_injective : Function.Injective ThreadAction.text := by
  intro x y h
  cases x <;> cases y <;> first | rfl | exact absurd h (by decide)

namespace NbSysArgs

variable {a : NbSysArgs}

theorem call_inj {i j : Nat} {x y : ThreadAction} (hi : i < 2 ^ 32) (hj : j < 2 ^ 32)
    (h : a.call i x = a.call j y) : i = j ∧ x = y := by
  obtain ⟨_, hid, _, haction⟩ := RecordCall.mk.inj h
  constructor
  · have hnat := congrArg UInt32.toNat hid
    rwa [UInt32.toNat_ofNat_of_lt' hi, UInt32.toNat_ofNat_of_lt' hj] at hnat
  · exact ThreadAction.text_injective (String.toList_injective haction)

/-- The calls of a run from beginning to end. -/
def allCalls (a : NbSysArgs) : List RecordCall := a.pushed a.total ++ a.rcvd a.total

theorem mem_allCalls {x : RecordCall} :
    x ∈ a.allCalls ↔ ∃ i < a.total, ∃ action, x = a.call i action := by
  rw [allCalls, List.mem_append, pushed, List.mem_flatMap, rcvd, List.mem_map]
  constructor
  · rintro (⟨i, hi, hx⟩ | ⟨i, hi, rfl⟩)
    · refine ⟨i, List.mem_range.mp hi, ?_⟩
      simp only [List.mem_cons, List.not_mem_nil, or_false] at hx
      rcases hx with rfl | rfl | rfl
      · exact ⟨_, rfl⟩
      · exact ⟨_, rfl⟩
      · exact ⟨_, rfl⟩
    · exact ⟨i, List.mem_range.mp hi, _, rfl⟩
  · rintro ⟨i, hi, action, rfl⟩
    cases action with
    | producerPrepare => exact Or.inl ⟨i, List.mem_range.mpr hi, by simp⟩
    | producerPushBegin => exact Or.inl ⟨i, List.mem_range.mpr hi, by simp⟩
    | producerPushEnd => exact Or.inl ⟨i, List.mem_range.mpr hi, by simp⟩
    | consumerRcv => exact Or.inr ⟨i, List.mem_range.mpr hi, rfl⟩

/-- No call is made twice. -/
theorem nodup_allCalls (ha : a.Sized) : a.allCalls.Nodup := by
  have htotal := ha.total_lt
  have hinj : ∀ {i j : Nat} {x y : ThreadAction}, i < a.total → j < a.total →
      a.call i x = a.call j y → i = j ∧ x = y :=
    fun hi hj h => call_inj (by omega) (by omega) h
  rw [allCalls, List.nodup_append]
  refine ⟨?_, ?_, ?_⟩
  · rw [pushed, List.nodup_flatMap]
    constructor
    · intro i hi
      have hi := List.mem_range.mp hi
      have hne : ∀ {x y : ThreadAction}, x ≠ y → a.call i x ≠ a.call i y :=
        fun hxy h => hxy (hinj hi hi h).2
      simp [hne]
    · refine List.nodup_range.pairwise_of_forall_ne ?_
      intro i hi j hj hij x hx hy
      have hi := List.mem_range.mp hi
      have hj := List.mem_range.mp hj
      simp only [List.mem_cons, List.not_mem_nil, or_false] at hx hy
      rcases hx with rfl | rfl | rfl <;> rcases hy with h | h | h <;>
        exact hij (hinj hi hj h).1
  · refine List.nodup_range.map_on ?_
    intro i hi j hj h
    exact (hinj (List.mem_range.mp hi) (List.mem_range.mp hj) h).1
  · intro x hx y hy hxy
    obtain ⟨i, hi, hx⟩ := List.mem_flatMap.mp hx
    obtain ⟨j, hj, rfl⟩ := List.mem_map.mp hy
    subst hxy
    have hi := List.mem_range.mp hi
    have hj := List.mem_range.mp hj
    simp only [List.mem_cons, List.not_mem_nil, or_false] at hx
    rcases hx with h | h | h <;> exact absurd (hinj hj hi h).2 (by decide)

end NbSysArgs

/-! ## Times -/

/-- The time of a record, in nanoseconds. -/
def NbTsRecord.time (r : NbTsRecord) : Int := r.tvSec.toInt * 1000000000 + r.tvNsec.toInt

/-- The clock gave a time after the epoch. -/
structure NbTsRecord.Clocked (r : NbTsRecord) : Prop where
  sec_nonneg : 0 ≤ r.tvSec.toInt
  nsec_nonneg : 0 ≤ r.tvNsec.toInt
  nsec_lt : r.tvNsec.toInt < 1000000000

namespace RecordedApp

open ThreadApp RecordPipe Script

/-- The records of a run that is over, in the order of a clock that does not go back. -/
structure Complete (a : NbSysArgs) (xs : List (ThreadId × NbTsRecord)) : Prop where
  perm : (xs.map fun x => x.2.call).Perm a.allCalls
  headed : Headed (xs.map fun x => x.2.call)
  steady : xs.Pairwise fun x y => x.2.time ≤ y.2.time
  clocked : ∀ x ∈ xs, x.2.Clocked

variable {a : NbSysArgs} {xs : List (ThreadId × NbTsRecord)}

theorem Complete.nodup (h : Complete a xs) (ha : a.Sized) : (xs.map fun x => x.2.call).Nodup :=
  h.perm.nodup_iff.mpr (NbSysArgs.nodup_allCalls ha)

theorem Complete.of_mem (h : Complete a xs) {x : ThreadId × NbTsRecord} (hx : x ∈ xs) :
    ∃ i < a.total, ∃ action, x.2.call = a.call i action :=
  NbSysArgs.mem_allCalls.mp (h.perm.mem_iff.mp (List.mem_map.mpr ⟨x, hx, rfl⟩))

theorem Complete.exists_mem (h : Complete a xs) {i : Nat} (hi : i < a.total) (action : ThreadAction) :
    ∃ x ∈ xs, x.2.call = a.call i action :=
  List.mem_map.mp (h.perm.mem_iff.mpr (NbSysArgs.mem_allCalls.mpr ⟨i, hi, action, rfl⟩))

/-- The first record of a message is the earliest. -/
theorem Complete.time_le (h : Complete a xs) (ha : a.Sized) {i : Nat} {action : ThreadAction}
    {x y : ThreadId × NbTsRecord} (hx : x ∈ xs) (hy : y ∈ xs)
    (hxi : x.2.call = a.call i .producerPrepare) (hyi : y.2.call = a.call i action) :
    x.2.time ≤ y.2.time := by
  have hunique : ∀ z ∈ xs, z.2.call = x.2.call → z = x := fun z hz hcall =>
    List.inj_on_of_nodup_map (h.nodup ha) hz hx hcall
  have hfirst : y.2.call.first = x.2.call := by
    rw [hyi, hxi]
    rfl
  obtain ⟨pre, post, rfl⟩ := List.append_of_mem hy
  have hsplit : (pre ++ y :: post).map (fun x => x.2.call) =
      pre.map (fun x => x.2.call) ++ y.2.call :: post.map (fun x => x.2.call) := by
    rw [List.map_append, List.map_cons]
  rcases h.headed _ _ _ hsplit with hself | hbefore
  · obtain rfl := hunique y hy (hself.trans hfirst)
    exact Int.le_refl _
  · obtain ⟨z, hz, hcall⟩ := List.mem_map.mp hbefore
    obtain rfl := hunique z (List.mem_append_left _ hz) (hcall.trans hfirst)
    exact (List.pairwise_append.mp h.steady).2.2 z hz y List.mem_cons_self

/-! ## Rows -/

variable (tid : ThreadId → UInt64)

/-- The row of a record. -/
def entryOf (x : ThreadId × NbTsRecord) : Entry := (TsEntry.mk (tid x.1) x.2).entry

theorem map_entry (out : List (ThreadId × NbTsRecord)) :
    (tsEntries tid out).map TsEntry.entry = out.map (entryOf tid) := by
  rw [tsEntries, List.map_map]
  rfl

theorem call_of_ident {x y : ThreadId × NbTsRecord} (h : (entryOf tid x).ident = (entryOf tid y).ident) :
    x.2.call = y.2.call := by
  simp only [Entry.ident, Prod.mk.injEq] at h
  obtain ⟨hsize, huid, hid, haction⟩ := h
  rw [NbTsRecord.call, NbTsRecord.call, RecordCall.mk.injEq]
  exact ⟨UInt32.toNat_inj.mp huid, UInt32.toNat_inj.mp hid, UInt32.toNat_inj.mp hsize, haction⟩

theorem Complete.ident_nodup (h : Complete a xs) (ha : a.Sized) :
    ((xs.map (entryOf tid)).map Entry.ident).Nodup := by
  rw [List.map_map]
  refine (h.nodup ha).of_map _ |>.map_on ?_
  intro x hx y hy heq
  exact List.inj_on_of_nodup_map (h.nodup ha) hx hy (call_of_ident tid heq)

/-- The columns of a record. -/
theorem entryOf_call {x : ThreadId × NbTsRecord} {i : Nat} {action : ThreadAction}
    (h : x.2.call = a.call i action) :
    (entryOf tid x).size = a.msgSize.toNat ∧ (entryOf tid x).uid = a.userId.toNat ∧
      (entryOf tid x).id = (UInt32.ofNat i).toNat ∧
      (entryOf tid x).action = action.text.toList := by
  obtain ⟨huid, hid, hsize, haction⟩ := RecordCall.mk.inj h
  exact ⟨congrArg UInt32.toNat hsize, congrArg UInt32.toNat huid, congrArg UInt32.toNat hid, haction⟩

theorem elapsed_entryOf {x y : ThreadId × NbTsRecord} (hx : x.2.Clocked) (hy : y.2.Clocked) :
    elapsed (entryOf tid x).ts (entryOf tid y).ts = y.2.time - x.2.time := by
  have hxsec := toNat_of_nonneg hx.sec_nonneg
  have hxnsec := toNat_of_nonneg hx.nsec_nonneg
  have hysec := toNat_of_nonneg hy.sec_nonneg
  have hynsec := toNat_of_nonneg hy.nsec_nonneg
  show ((y.2.tvSec.toUInt64.toNat : Int) - (x.2.tvSec.toUInt64.toNat : Int)) * 1000000000 +
    (y.2.tvNsec.toUInt64.toNat : Int) - (x.2.tvNsec.toUInt64.toNat : Int) = _
  rw [hxsec, hxnsec, hysec, hynsec, NbTsRecord.time, NbTsRecord.time]
  omega

theorem toNat_id (ha : a.Sized) {i : Nat} (hi : i < a.total) : (UInt32.ofNat i).toNat = i := by
  have htotal := ha.total_lt
  exact UInt32.toNat_ofNat_of_lt' (by show i < 2 ^ 32; omega)

/-- A pair of rows for a report: the first record of a message, and one more of it. -/
theorem Complete.of_mem_pairs (h : Complete a xs) (ha : a.Sized) {action : ThreadAction}
    {p : Entry × Entry}
    (hp : p ∈ pairs (xs.map (entryOf tid)) a.msgSize.toNat
      ThreadAction.producerPrepare.text.toList action.text.toList) :
    ∃ i < a.total, ∃ x ∈ xs, ∃ y ∈ xs, x.2.call = a.call i .producerPrepare ∧
      y.2.call = a.call i action ∧ p = (entryOf tid x, entryOf tid y) := by
  obtain ⟨⟨hx, hy⟩, ⟨_, hfst⟩, ⟨_, hsnd⟩, _, hid⟩ := mem_pairs.mp hp
  obtain ⟨x, hx, hpx⟩ := List.mem_map.mp hx
  obtain ⟨y, hy, hpy⟩ := List.mem_map.mp hy
  obtain ⟨i, hi, actx, hxi⟩ := h.of_mem hx
  obtain ⟨j, hj, acty, hyj⟩ := h.of_mem hy
  rw [← hpx, (entryOf_call tid hxi).2.2.2] at hfst
  rw [← hpy, (entryOf_call tid hyj).2.2.2] at hsnd
  rw [← hpx, ← hpy, (entryOf_call tid hxi).2.2.1, (entryOf_call tid hyj).2.2.1, toNat_id ha hi,
    toNat_id ha hj] at hid
  obtain rfl := ThreadAction.text_injective (String.toList_injective hfst)
  obtain rfl := ThreadAction.text_injective (String.toList_injective hsnd)
  obtain rfl := hid
  exact ⟨i, hi, x, hx, y, hy, hxi, hyj, Prod.ext hpx.symm hpy.symm⟩

/-- Each message is reported once. -/
theorem Complete.length_latencies (h : Complete a xs) (ha : a.Sized) (action : ThreadAction) :
    (latencies (xs.map (entryOf tid)) a.msgSize.toNat ThreadAction.producerPrepare.text.toList
      action.text.toList).length = a.total := by
  have hnodup := nodup_pairs (h.ident_nodup tid ha) (a.msgSize.toNat : Int)
    ThreadAction.producerPrepare.text.toList action.text.toList
  have hperm : ((pairs (xs.map (entryOf tid)) a.msgSize.toNat
      ThreadAction.producerPrepare.text.toList action.text.toList).map
        fun p => (p.1.uid, p.1.id)).Perm
      ((List.range a.total).map fun i => (a.userId.toNat, i)) := by
    refine (List.perm_ext_iff_of_nodup hnodup ?_).mpr fun k => ?_
    · exact List.nodup_range.map fun i j hij => (Prod.mk.inj hij).2
    rw [List.mem_map, List.mem_map]
    constructor
    · rintro ⟨p, hp, rfl⟩
      obtain ⟨i, hi, x, hx, y, hy, hxi, _, rfl⟩ := h.of_mem_pairs tid ha hp
      refine ⟨i, List.mem_range.mpr hi, ?_⟩
      rw [(entryOf_call tid hxi).2.1, (entryOf_call tid hxi).2.2.1, toNat_id ha hi]
    · rintro ⟨i, hi, rfl⟩
      have hi := List.mem_range.mp hi
      obtain ⟨x, hx, hxi⟩ := h.exists_mem hi .producerPrepare
      obtain ⟨y, hy, hyi⟩ := h.exists_mem hi action
      obtain ⟨hxsize, hxuid, hxid, hxact⟩ := entryOf_call tid hxi
      obtain ⟨hysize, hyuid, hyid, hyact⟩ := entryOf_call tid hyi
      refine ⟨(entryOf tid x, entryOf tid y), mem_pairs.mpr ⟨⟨List.mem_map_of_mem hx,
        List.mem_map_of_mem hy⟩, ⟨?_, hxact⟩, ⟨?_, hyact⟩, ?_, ?_⟩, ?_⟩
      · rw [hxsize]
      · rw [hysize]
      · rw [hxuid, hyuid]
      · rw [hxid, hyid]
      · rw [hxuid, hxid, toNat_id ha hi]
  have hlength := hperm.length_eq
  rw [List.length_map, List.length_map, List.length_range] at hlength
  rw [latencies, List.length_map]
  exact hlength

/-- No latency is negative. -/
theorem Complete.of_mem_latencies (h : Complete a xs) (ha : a.Sized) {action : ThreadAction} {ℓ : Int}
    (hℓ : ℓ ∈ latencies (xs.map (entryOf tid)) a.msgSize.toNat
      ThreadAction.producerPrepare.text.toList action.text.toList) :
    0 ≤ ℓ ∧ ∃ i < a.total, ∃ x ∈ xs, ∃ y ∈ xs, x.2.call = a.call i .producerPrepare ∧
      y.2.call = a.call i action ∧ ℓ = y.2.time - x.2.time := by
  obtain ⟨p, hp, rfl⟩ := List.mem_map.mp hℓ
  obtain ⟨i, hi, x, hx, y, hy, hxi, hyi, rfl⟩ := h.of_mem_pairs tid ha hp
  have helapsed := elapsed_entryOf tid (h.clocked x hx) (h.clocked y hy)
  refine ⟨?_, i, hi, x, hx, y, hy, hxi, hyi, helapsed⟩
  have hle := h.time_le ha hx hy hxi hyi
  rw [helapsed]
  omega

/-! ## The reports -/

variable {β : Type} {cap : Nat} {T : Bytes} {filepath : Text} {M : MaRing NbTsRecord β}
variable {s : RecordedApp β} {es : List RecordedEvent}

/-- The clock does not go back. -/
def SteadyClock (es : List RecordedEvent) : Prop :=
  (timed es).Pairwise fun x y => x.2.time ≤ y.2.time

theorem Linked.complete (h : Linked a cap T es s) (hp : s.app.producer = .returned)
    (hthrough : ∀ k, s.waiting k = []) (hsteady : SteadyClock es)
    (hclock : ∀ x ∈ timed es, x.2.Clocked) : Complete a (timed es) := by
  obtain ⟨hmain, hcons⟩ := h.all_timed hp hthrough
  have htwo : ∀ x ∈ timed es, x.1 = .main ∨ x.1 = .consumer := by
    rintro ⟨k, r⟩ _
    cases k with
    | main => exact Or.inl rfl
    | consumer => exact Or.inr rfl
  have hperm := (perm_two_lanes (by decide) htwo).map NbTsRecord.call
  rw [List.map_map, List.map_append, hmain, hcons] at hperm
  exact ⟨hperm, h.headed, hsteady, hclock⟩

/-- No text of an action needs quotes. -/
theorem plain_text (action : ThreadAction) :
    ∀ c ∈ action.text.toList, c ≠ ',' ∧ c ≠ '"' ∧ c ≠ '\n' ∧ c ≠ '\r' := by
  have h : action.text.toList.all fun c =>
      decide (c ≠ ',' ∧ c ≠ '"' ∧ c ≠ '\n' ∧ c ≠ '\r') := by
    cases action <;> rfl
  exact fun c hc => of_decide_eq_true (List.all_eq_true.mp h c hc)

theorem Complete.printable (h : Complete a xs) {x : ThreadId × NbTsRecord} (hx : x ∈ xs) :
    x.2.Printable ∧ x.2.action.length ≤ fieldSizeLimit := by
  obtain ⟨i, _, action, hcall⟩ := h.of_mem hx
  obtain ⟨_, _, _, haction⟩ := RecordCall.mk.inj hcall
  have haction : x.2.action = action.text.toList := haction
  obtain ⟨hsec, hnsec, hlt⟩ := h.clocked x hx
  constructor
  · refine ⟨hsec, hnsec, hlt, ?_⟩
    rw [haction]
    exact plain_text action
  · rw [haction]
    cases action <;> decide

/-- The file of a run that is over has the rows of its records. -/
theorem Complete.holding (h : Complete a xs) {out : List (ThreadId × NbTsRecord)}
    (hperm : out.Perm xs) {dir : Directory} {name : Text} (hname : isReport name = false)
    (hdir : dir.get? name = some (recordFile (tsEntries tid out))) :
    Holding dir [name] [out.map (entryOf tid)] := by
  have hconsidered : considered [name] = [name] := by
    rw [considered, List.filter_cons, hname]
    rfl
  have hall : ∀ e ∈ tsEntries tid out, e.record.Printable ∧ e.record.action.length ≤ fieldSizeLimit := by
    intro e he
    obtain ⟨x, hx, rfl⟩ := List.mem_map.mp he
    exact h.printable (hperm.mem_iff.mp hx)
  rw [Holding, hconsidered]
  refine List.Forall₂.cons ⟨_, hdir, ?_⟩ List.Forall₂.nil
  rw [rowsOf_recordFile (fun e he => (hall e he).1) (fun e he => (hall e he).2), ← map_entry,
    List.map_map]
  rfl

/-- The two reports are about the same first record. -/
theorem target_texts {t : Target} (ht : t ∈ ThreadAnalysis.target) :
    t.fst = ThreadAction.producerPrepare.text.toList ∧
      ∃ action : ThreadAction, t.snd = action.text.toList := by
  simp only [ThreadAnalysis.target, List.mem_cons, List.not_mem_nil, or_false] at ht
  rcases ht with rfl | rfl
  · exact ⟨rfl, .producerPushEnd, rfl⟩
  · exact ⟨rfl, .consumerRcv, rfl⟩

/-- What the script makes of the file of a run that is over. -/
theorem Complete.reports (h : Complete a xs) (ha : a.Sized) (hfive : 5 ≤ a.total)
    {st : Statistics} (hst : st.Indexes) {out : List (ThreadId × NbTsRecord)} (hperm : out.Perm xs)
    {opts : List Opt} {input output name : Text} {dirs : Directories} {dir : Directory}
    (hopts : parseArgs opts = some (input, output)) (hne : input ≠ [])
    (hname : isReport name = false) (hinput : dirs input = some dir)
    (hdir : dir.get? name = some (recordFile (tsEntries tid out)))
    (hout : (dirs output).isSome) :
    ∃ dirs', ThreadAnalysis.main st opts [name] dirs = some dirs' ∧
      ∀ t ∈ ThreadAnalysis.target, ∃ result,
        dumpStatisticsResult st a.msgSize.toNat
          (latencies (xs.map (entryOf tid)) a.msgSize.toNat t.fst t.snd) = some result ∧
        fileAt dirs' output t.filename = some (reportHead ++ joined (result.map decInt)) := by
  have hident := h.ident_nodup tid ha
  have hholding := h.holding tid hperm hname hdir
  have hflat : ([out.map (entryOf tid)].flatten).Perm (xs.map (entryOf tid)) := by
    rw [List.flatten_singleton]
    exact hperm.map _
  have hsize : ∀ e ∈ xs.map (entryOf tid), e.size = a.msgSize.toNat := by
    intro e he
    obtain ⟨x, hx, rfl⟩ := List.mem_map.mp he
    obtain ⟨i, _, action, hcall⟩ := h.of_mem hx
    exact (entryOf_call tid hcall).1
  have hlength : ∀ t ∈ ThreadAnalysis.target,
      (latencies (xs.map (entryOf tid)) a.msgSize.toNat t.fst t.snd).length = a.total := by
    intro t ht
    obtain ⟨hfst, action, hsnd⟩ := target_texts ht
    rw [hfst, hsnd]
    exact h.length_latencies tid ha action
  obtain ⟨dirs', hmain⟩ := ThreadAnalysis.exists_main hst hopts hne hinput hident hholding hflat (by
    intro e he t ht
    rw [hsize e he, hlength t ht]
    exact hfive) (Or.inr hout)
  obtain ⟨sizes, hnodup, hmem, hreports, _⟩ :=
    ThreadAnalysis.reports_of_main hopts hinput hident hholding hflat hmain
  -- there are records, all of one size
  obtain ⟨x, hx, _⟩ := h.exists_mem (Nat.lt_of_lt_of_le (by decide : 0 < 5) hfive) .producerPrepare
  have hxmem : entryOf tid x ∈ xs.map (entryOf tid) := List.mem_map_of_mem hx
  have hsizes : sizes = [(a.msgSize.toNat : Int)] := by
    refine List.perm_singleton.mp ((List.perm_ext_iff_of_nodup hnodup
      (List.nodup_singleton _)).mpr fun n => ?_)
    rw [hmem, List.mem_singleton]
    constructor
    · rintro ⟨e, he, rfl⟩
      rw [hsize e he]
    · rintro rfl
      exact ⟨_, hxmem, by rw [hsize _ hxmem]⟩
  refine ⟨dirs', hmain, fun t ht => ?_⟩
  obtain ⟨rows, hrows, hget⟩ := hreports (List.ne_nil_of_mem hxmem) t ht
  rw [hsizes, List.mapM_cons, List.mapM_nil] at hrows
  obtain ⟨result, hresult, hrow⟩ := Option.bind_eq_some_iff.mp hrows
  obtain rfl := Option.some.inj hrow
  refine ⟨result, hresult, hget.trans ?_⟩
  rw [List.flatMap_cons, List.flatMap_nil, List.append_nil]

/-- From the threads to the reports.  After a run of the thread program from empty rings in which
each write found room in the channel, with a new record file, a clock that does not go back, and five
messages or more, the script on the file finds for each message exactly one latency of the
push and one from end to end, and none of them is negative. -/
theorem reports_of_run {contents : β → List NbTsRecord} {Owns : β → Nat → Prop} {capacity : Nat}
    (hM : M.Fifo contents Owns capacity) (ha : a.Sized) (hfive : 5 ≤ a.total) {m : Bytes}
    (hm : m.length = a.tableBytes.toNat) {st : Statistics} (hst : st.Indexes) :
    ∃ T, a.prepare m = some T ∧
      ∀ os fs₀ fs, nbRecordInit os filepath fs₀ = some fs → fs₀.has filepath = false →
      ∀ rings es s, (∀ k, contents (rings k) = []) →
        Run (Step a cap T M tid filepath) (start rings fs) es s →
        s.app.producer = .returned → (∀ k, s.due k = []) → s.pipe.Drained M →
        SteadyClock es → (∀ x ∈ timed es, x.2.Clocked) →
      ∃ file, s.pipe.fs.files filepath = some file ∧
        ∀ opts input output name dirs dir, parseArgs opts = some (input, output) → input ≠ [] →
          isReport name = false → dirs input = some dir → dir.get? name = some file →
          (dirs output).isSome →
          ∃ dirs', ThreadAnalysis.main st opts [name] dirs = some dirs' ∧
            ∀ t ∈ ThreadAnalysis.target, ∃ ls result,
              dumpStatisticsResult st a.msgSize.toNat ls = some result ∧
              fileAt dirs' output t.filename = some (reportHead ++ joined (result.map decInt)) ∧
              ls.length = a.total ∧
              ∀ ℓ ∈ ls, 0 ≤ ℓ ∧ ∃ i < a.total, ∃ x ∈ timed es, ∃ y ∈ timed es,
                x.2.call = a.call i .producerPrepare ∧
                y.2.call = { a.call i .producerPrepare with strAction := t.snd } ∧
                ℓ = y.2.time - x.2.time := by
  obtain ⟨T, hT, hprep⟩ := NbSysArgs.prepare_prepared ha hm
  refine ⟨T, hT, ?_⟩
  intro os fs₀ fs hinit hnew rings es s hrings hrun hreturned hdue hdrained hsteady hclock
  have hthrough : ∀ k, s.waiting k = [] := by
    intro k
    rw [waiting, RecordPipe.entered, (hdrained k).1, hdue]
    rfl
  have hcomplete := (linked_of_run ha hprep hrun).complete hreturned hthrough hsteady hclock
  obtain ⟨out, hexec, _, hperm⟩ :=
    drained_of_pipe hM ⟨rings, fs, hrings, hinit, pipe_run hrun⟩ hdrained
  have hruns : programRuns filepath [⟨os, tsEntries tid out⟩] fs₀ = some s.pipe.fs := by
    rw [programRuns, List.foldlM_cons, hexec]
    rfl
  have hfile := files_programRuns hruns hnew (List.cons_ne_nil _ _)
  rw [show allEntries [⟨os, tsEntries tid out⟩] = tsEntries tid out from List.append_nil _] at hfile
  refine ⟨_, hfile, ?_⟩
  intro opts input output name dirs dir hopts hne hname hinput hdir hout
  obtain ⟨dirs', hmain, hreports⟩ :=
    hcomplete.reports tid ha hfive hst hperm hopts hne hname hinput hdir hout
  refine ⟨dirs', hmain, fun t ht => ?_⟩
  obtain ⟨result, hresult, hget⟩ := hreports t ht
  obtain ⟨hfst, action, hsnd⟩ := target_texts ht
  refine ⟨_, result, hresult, hget, ?_, ?_⟩
  · rw [hfst, hsnd]
    exact hcomplete.length_latencies tid ha action
  · intro ℓ hℓ
    rw [hfst, hsnd] at hℓ
    obtain ⟨hnonneg, i, hi, x, hx, y, hy, hxi, hyi, heq⟩ := hcomplete.of_mem_latencies tid ha hℓ
    exact ⟨hnonneg, i, hi, x, hx, y, hy, hxi, by rw [hyi, hsnd]; rfl, heq⟩

/-- A directory with the record file of the thread program. -/
def threadDirectory (file : Text) : Directory := (∅ : Directory).set "thread.csv".toList file

theorem reports_of_run_five_rounds :
    ∃ s : RecordedApp (CellRing NbTsRecord 1), s.app.producer = .returned ∧ ∃ file, s.pipe.fs.files samplePath = some file ∧
      ∃ dirs', ThreadAnalysis.main exactStatistics [.input recordsPath]
          ["thread.csv".toList] (fun _ => some (threadDirectory file)) = some dirs' ∧
        ∀ t ∈ ThreadAnalysis.target, ∃ result : List Int,
          fileAt dirs' recordsPath t.filename =
            some (reportHead ++ joined (result.map decInt)) := by
  obtain ⟨fs, T, s, hfs, hT, hrun, hreturned, hdue, hdrained⟩ := fiveEvents_run
  have hlength : (List.replicate 80 (0 : UInt8)).length = fiveRounds.tableBytes.toNat :=
    List.length_replicate.trans (by decide)
  have hsteady : SteadyClock fiveEvents := by
    unfold SteadyClock
    decide +kernel
  have hclock : ∀ x ∈ timed fiveEvents, 0 ≤ x.2.tvSec.toInt ∧ 0 ≤ x.2.tvNsec.toInt ∧
      x.2.tvNsec.toInt < 1000000000 := by decide +kernel
  obtain ⟨T', hT', hreports⟩ := reports_of_run fiveTid (cellRing_fifo NbTsRecord 1)
    fiveRounds_sized (by decide) hlength exactStatistics_indexes
  obtain rfl := Option.some.inj (hT.symm.trans hT')
  obtain ⟨file, hfile, hscript⟩ := hreports sampleOs sampleSystem fs hfs rfl fiveRings fiveEvents s
    (fun _ => rfl) hrun hreturned hdue hdrained hsteady
    (fun x hx => ⟨(hclock x hx).1, (hclock x hx).2.1, (hclock x hx).2.2⟩)
  obtain ⟨dirs', hmain, hget⟩ := hscript [.input recordsPath] recordsPath recordsPath
    "thread.csv".toList (fun _ => some (threadDirectory file)) (threadDirectory file) rfl
    (List.cons_ne_nil _ _) (by decide) rfl ((Dict.get?_set ..).trans (if_pos rfl)) rfl
  refine ⟨s, hreturned, file, hfile, dirs', hmain, fun t ht => ?_⟩
  obtain ⟨_, result, _, htext, _⟩ := hget t ht
  exact ⟨result, htext⟩

end RecordedApp

end NetBench

/-
# `NetBench.ThreadRecords` — the records of the thread program

`app/thread/main.c` with the rings of its two threads.  A step of the program makes the
calls of `NETBENCH_RECORD` that stand behind it due, and a thread goes on when its calls
are through; in between, the other thread and the reading thread take any number of steps.
The clock is read inside of a call.

As long as each write finds room in the channel,

    the main thread calls for each message, in order, `producer.prepare`,
    `producer.push_begin` and `producer.push_end`, and the other one for the messages
    that it received, in order, `consumer.rcv`                        (`Records`)
    the clock is read for `producer.prepare` of a message before it is
    read for any other record of it                            (`records_of_run`)
-/
import NetBench.RecordPipe
import NetBench.ThreadDelivery

namespace NetBench

open Lib Lib.Csv

/-! ## Calls -/

/-- The two threads of the program. -/
inductive ThreadId where
  | main
  | consumer
  deriving DecidableEq, Repr

/-- The thread that makes a record. -/
def ThreadAction.thread : ThreadAction → ThreadId
  | .producerPrepare => .main
  | .producerPushBegin => .main
  | .producerPushEnd => .main
  | .consumerRcv => .consumer

/-- The call for message `i`. -/
def NbSysArgs.call (a : NbSysArgs) (i : Nat) (x : ThreadAction) : RecordCall :=
  ⟨a.userId, UInt32.ofNat i, a.msgSize, x.text.toList⟩

/-- The calls of the main thread for the first `k` messages. -/
def NbSysArgs.pushed (a : NbSysArgs) (k : Nat) : List RecordCall :=
  (List.range k).flatMap fun i =>
    [a.call i .producerPrepare, a.call i .producerPushBegin, a.call i .producerPushEnd]

/-- The calls of the other thread for the first `k` messages. -/
def NbSysArgs.rcvd (a : NbSysArgs) (k : Nat) : List RecordCall :=
  (List.range k).map fun i => a.call i .consumerRcv

/-- The calls for the message that the main thread is at. -/
def Producer.begun (a : NbSysArgs) : Producer → List RecordCall
  | .alloc r i => [a.call (a.position r i) .producerPrepare]
  | .copy r i _ => [a.call (a.position r i) .producerPrepare]
  | .write r i _ =>
      [a.call (a.position r i) .producerPrepare, a.call (a.position r i) .producerPushBegin]
  | _ => []

namespace ThreadApp

/-- The calls in a log, each with its thread. -/
def calls (log : List ThreadEv) : List (ThreadId × RecordCall) :=
  log.filterMap fun
    | .record userId id msgSize action =>
        some (action.thread, ⟨userId, id, msgSize, action.text.toList⟩)
    | _ => none

@[simp] theorem calls_append (l l' : List ThreadEv) : calls (l ++ l') = calls l ++ calls l' :=
  List.filterMap_append

/-- Which calls the threads have made. -/
structure Records (a : NbSysArgs) (s : ThreadApp) : Prop where
  main : lane .main (calls s.log) = a.pushed (s.producer.done a) ++ s.producer.begun a
  consumer : lane .consumer (calls s.log) = a.rcvd (consumed s.log).length
  asserted : .assertFailed ∉ s.log

variable {a : NbSysArgs} {cap : Nat} {T : Bytes} {s s' : ThreadApp} {e : ThreadEvent}

/-! ## The events of a message -/

theorem producerSeq_eq (ha : a.Sized) {r i : UInt32} (hr : r < a.roundNum) (hi : i < a.numPerRound) :
    a.producerSeq r i = UInt32.ofNat (a.position r i) := by
  have hlt := NbSysArgs.position_lt hr hi
  have htotal := ha.total_lt
  have hnat : (a.producerSeq r i).toNat = a.position r i := ha.producerSeq_toNat hr hi
  refine UInt32.toNat_inj.mp ?_
  rw [hnat, UInt32.toNat_ofNat_of_lt' (by show _ < 2 ^ 32; omega)]

/-- What the main thread reads of a message. -/
theorem data_slice (hT : a.Prepared T) {r i : UInt32} (hr : r < a.roundNum)
    (hi : i < a.numPerRound) :
    MsgData.decode ((a.slice T (a.position r i)).drop sizeofMsgHdr) =
      ⟨a.userId, UInt32.ofNat (a.position r i)⟩ :=
  (hT.message _ (NbSysArgs.position_lt hr hi)).data

theorem prepareEvents_slice (ha : a.Sized) (hT : a.Prepared T) {r i : UInt32} (hr : r < a.roundNum)
    (hi : i < a.numPerRound) :
    prepareEvents a r i (a.slice T (a.position r i)) =
      [.record a.userId (UInt32.ofNat (a.position r i)) a.msgSize .producerPrepare] := by
  rw [prepareEvents, data_slice hT hr hi, producerSeq_eq ha hr hi, if_pos ⟨rfl, rfl⟩]
  rfl

theorem pushEvent_slice (hT : a.Prepared T) {r i : UInt32} (hr : r < a.roundNum)
    (hi : i < a.numPerRound) (x : ThreadAction) :
    pushEvent a (a.slice T (a.position r i)) x =
      .record a.userId (UInt32.ofNat (a.position r i)) a.msgSize x := by
  rw [pushEvent, data_slice hT hr hi]

theorem rcvEvent_slice (hT : a.Prepared T) {i : Nat} (hi : i < a.total) :
    rcvEvent (a.slice T i) = .record a.userId (UInt32.ofNat i) a.msgSize .consumerRcv := by
  have hmsg := hT.message i hi
  have hdata : MsgData.decode ((a.slice T i).drop sizeofMsgHdr) = a.msgData (UInt32.ofNat i) :=
    hmsg.data
  rw [rcvEvent, hdata, hmsg.hdr]
  show ThreadEv.record a.userId (UInt32.ofNat i)
    (UInt32.ofNat sizeofMsgHdr + (a.msgSize - UInt32.ofNat sizeofMsgHdr)) .consumerRcv = _
  rw [UInt32.add_comm, UInt32.sub_add_cancel]

/-! ## One step -/

theorem pushed_succ (a : NbSysArgs) (k : Nat) :
    a.pushed (k + 1) = a.pushed k ++
      [a.call k .producerPrepare, a.call k .producerPushBegin, a.call k .producerPushEnd] := by
  rw [NbSysArgs.pushed, List.range_succ, List.flatMap_append]
  rfl

theorem rcvd_succ (a : NbSysArgs) (k : Nat) :
    a.rcvd (k + 1) = a.rcvd k ++ [a.call k .consumerRcv] := by
  rw [NbSysArgs.rcvd, List.range_succ, List.map_append]
  rfl

theorem records_start : Records a start where
  main := by
    rw [start, Producer.done, UInt32.toNat_zero, Nat.zero_mul]
    rfl
  consumer := rfl
  asserted := List.not_mem_nil

/-- A step of the main thread, or one without a record. -/
theorem Records.of_main (h : Records a s) {l : List ThreadEv} (hlog : s'.log = s.log ++ l)
    (hmain : a.pushed (s'.producer.done a) ++ s'.producer.begun a =
      a.pushed (s.producer.done a) ++ s.producer.begun a ++ lane .main (calls l))
    (hcons : lane .consumer (calls l) = []) (hconsumed : consumed l = [])
    (hassert : .assertFailed ∉ l) : Records a s' where
  main := by rw [hlog, calls_append, lane_append, h.main, hmain]
  consumer := by
    rw [hlog, calls_append, lane_append, hcons, consumed_append, hconsumed, List.append_nil,
      List.append_nil, h.consumer]
  asserted := by
    rw [hlog, List.mem_append]
    exact not_or.mpr ⟨h.asserted, hassert⟩

theorem Records.of_silent (h : Records a s) (hlog : s'.log = s.log)
    (hdone : s'.producer.done a = s.producer.done a)
    (hbegun : s'.producer.begun a = s.producer.begun a) : Records a s' :=
  h.of_main (l := []) (hlog.trans (List.append_nil _).symm)
    (by rw [hdone, hbegun]; exact (List.append_nil _).symm) rfl rfl List.not_mem_nil

/-- The consumer is not ahead of the producer. -/
theorem Flow.consumed_le (h : Flow a T s) : (consumed s.log).length ≤ s.producer.done a := by
  have hlength := congrArg List.length h.messages
  rw [List.length_append, NbSysArgs.slices, List.length_map (f := a.slice T), List.length_range']
    at hlength
  omega

/-- The message that the consumer looks at is the next one. -/
theorem Flow.next (h : Flow a T s) {p : Nat} (hc : s.consumer = .got p) :
    (consumed s.log).length < s.producer.done a ∧ s.mem p = a.slice T (consumed s.log).length := by
  have hmsgs := h.messages
  rw [hc] at hmsgs
  have hget := congrArg (·[(consumed s.log).length]?) hmsgs
  rw [List.getElem?_append_right (Nat.le_refl _), Nat.sub_self] at hget
  have hsome : (a.slices T 0 (s.producer.done a))[(consumed s.log).length]? = some (s.mem p) :=
    hget.symm
  rw [NbSysArgs.slices, List.getElem?_map, Option.map_eq_some_iff] at hsome
  obtain ⟨i, hi, hmem⟩ := hsome
  obtain ⟨hlt, rfl⟩ := List.getElem?_eq_some_iff.mp hi
  rw [List.length_range'] at hlt
  rw [List.getElem_range', Nat.one_mul, Nat.zero_add] at hmem
  exact ⟨hlt, hmem.symm⟩

/-- Between two messages, and after the last round. -/
theorem done_rounds {r : UInt32} (hle : r ≤ a.roundNum) (hr : ¬ r < a.roundNum) :
    Producer.done a .sentinel = Producer.done a (.outer r) := by
  have hge : a.roundNum.toNat ≤ r.toNat := Nat.not_lt.mp fun hlt =>
    hr (UInt32.lt_iff_toNat_lt.mpr hlt)
  show a.total = r.toNat * a.numPerRound.toNat
  rw [NbSysArgs.total, Nat.le_antisymm (UInt32.le_iff_toNat_le.mp hle) hge, Nat.mul_comm]

/-- A message is done when it is written. -/
theorem done_step (hc : Control a cap s) (hnull : e ≠ .alloc none) (hs : Step a cap T s e s') :
    s'.producer.done a = s.producer.done a ∨
      ∃ r i p, s.producer = .write r i p ∧ s'.producer.done a = a.position r i + 1 := by
  have hin := hc.inLoop
  cases hs with
  | round hp hr => exact Or.inl (by rw [hp]; rfl)
  | rounds hp hr =>
      rw [hp] at hin ⊢
      exact Or.inl (done_rounds hin hr)
  | prepare hp hi hm => exact Or.inl (by rw [hp]; rfl)
  | roundDone hp hi =>
      rw [hp] at hin ⊢
      exact Or.inl (NbSysArgs.position_end hin.1 hin.2 hi).symm
  | alloc hp hlt hfree => exact Or.inl (by rw [hp]; rfl)
  | allocNull hp hnone => exact absurd rfl hnull
  | copy hp hm => exact Or.inl (by rw [hp]; rfl)
  | crash hp =>
      rw [hp] at hin
      exact absurd rfl hin.2
  | write hp hm =>
      rw [hp] at hin
      exact Or.inr ⟨_, _, _, hp, NbSysArgs.position_succ hin.2⟩
  | sentinel hp => exact Or.inl (by rw [hp]; rfl)
  | join hp hcons => exact Or.inl (by rw [hp]; rfl)
  | read hcons hch => exact Or.inl rfl
  | readNull hcons hch => exact Or.inl rfl
  | consume hcons => exact Or.inl rfl
  | free hcons => exact Or.inl rfl

theorem Records.step (ha : a.Sized) (hT : a.Prepared T) (h : Records a s) (hg : Good a cap T s)
    (hk : Keeping a cap s e) (hs : exec a cap T s e = some s') : Records a s' := by
  have hstep := step_of_exec hs
  have hnull := hg.blocks.alloc_some hg.control hk hstep
  have hin := hg.control.inLoop
  cases hstep with
  | round hp hr => exact h.of_silent rfl (by rw [hp]; rfl) (by rw [hp]; rfl)
  | @rounds r hp hr =>
      refine h.of_silent rfl ?_ (by rw [hp]; rfl)
      rw [hp] at hin ⊢
      exact done_rounds hin hr
  | @prepare r i m hp hi hm =>
      rw [hp] at hin
      obtain rfl := Option.some.inj (hm.symm.trans (message_eq ha hT hin.1 hi))
      refine h.of_main rfl ?_ ?_ ?_ ?_
      · rw [prepareEvents_slice ha hT hin.1 hi, hp, List.append_assoc]
        rfl
      · rw [prepareEvents_slice ha hT hin.1 hi]
        rfl
      · rw [prepareEvents_slice ha hT hin.1 hi]
        rfl
      · rw [prepareEvents_slice ha hT hin.1 hi]
        exact fun hmem => nomatch List.mem_singleton.mp hmem
  | @roundDone r i hp hi =>
      refine h.of_silent rfl ?_ (by rw [hp]; rfl)
      rw [hp] at hin ⊢
      exact (NbSysArgs.position_end hin.1 hin.2 hi).symm
  | alloc hp hlt hfree =>
      refine h.of_main rfl ?_ rfl rfl (fun hmem => nomatch List.mem_singleton.mp hmem)
      rw [hp]
      exact (List.append_nil _).symm
  | allocNull hp hnone => exact absurd rfl hnull
  | @copy r i p m hp hm =>
      rw [hp] at hin
      obtain rfl := Option.some.inj (hm.symm.trans (message_eq ha hT hin.1.1 hin.1.2))
      rw [pushEvent_slice hT hin.1.1 hin.1.2]
      refine h.of_main rfl ?_ rfl rfl (fun hmem => nomatch List.mem_singleton.mp hmem)
      rw [hp, List.append_assoc]
      rfl
  | crash hp =>
      rw [hp] at hin
      exact absurd rfl hin.2
  | @write r i p m hp hm =>
      rw [hp] at hin
      obtain rfl := Option.some.inj (hm.symm.trans (message_eq ha hT hin.1 hin.2))
      have hdone : a.position r (i + 1) = a.position r i + 1 := NbSysArgs.position_succ hin.2
      rw [pushEvent_slice hT hin.1 hin.2]
      refine h.of_main rfl ?_ rfl rfl (fun hmem => nomatch List.mem_singleton.mp hmem)
      rw [hp, List.append_assoc]
      show a.pushed (a.position r (i + 1)) ++ [] = _
      rw [hdone, pushed_succ, List.append_nil]
      rfl
  | sentinel hp => exact h.of_silent rfl (by rw [hp]; rfl) (by rw [hp]; rfl)
  | join hp hc => exact h.of_silent rfl (by rw [hp]; rfl) (by rw [hp]; rfl)
  | read hc hch => exact h.of_silent rfl rfl rfl
  | readNull hc hch => exact h.of_silent rfl rfl rfl
  | @consume p hc =>
      obtain ⟨hlt, hmem⟩ := hg.flow.next hc
      rw [hmem, rcvEvent_slice hT (Nat.lt_of_lt_of_le hlt hg.control.done_le)]
      refine ⟨?_, ?_, ?_⟩
      · rw [calls_append, lane_append, h.main]
        exact List.append_nil _
      · rw [calls_append, lane_append, h.consumer, consumed_append]
        show _ = a.rcvd (consumed s.log ++ [_]).length
        rw [List.length_append, List.length_singleton, rcvd_succ]
        rfl
      · rw [List.mem_append]
        refine not_or.mpr ⟨h.asserted, ?_⟩
        simp
  | free hc => exact h.of_main rfl (List.append_nil _).symm rfl rfl (by simp)

end ThreadApp

/-! ## The program and its rings -/

/-- The thread that takes a step. -/
def ThreadEvent.thread : ThreadEvent → ThreadId
  | .read => .consumer
  | .consume => .consumer
  | .free => .consumer
  | _ => .main

structure RecordedApp (β : Type) where
  app : ThreadApp
  pipe : RecordPipe ThreadId β
  /-- the calls that a thread makes before it goes on -/
  due : ThreadId → List RecordCall

/-- A step of the program, or a step of its records. -/
inductive RecordedEvent where
  | app (e : ThreadEvent)
  | pipe (e : PipeEvent ThreadId)

namespace RecordedApp

open ThreadApp RecordPipe

variable {β : Type} (a : NbSysArgs) (cap : Nat) (T : Bytes)
variable (M : MaRing NbTsRecord β) (tid : ThreadId → UInt64) (filepath : Text)

def start (rings : ThreadId → β) (fs : FileSystem) : RecordedApp β where
  app := .start
  pipe := .start rings fs
  due _ := []

/-- One step, or `none` if it cannot happen. -/
def exec (s : RecordedApp β) : RecordedEvent → Option (RecordedApp β)
  | .app e =>
      if s.due e.thread = [] ∧ (s.pipe.recorder e.thread).pc = .idle then
        (s.app.exec a cap T e).map fun app =>
          { s with
            app := app
            due := Function.update s.due e.thread
              (lane e.thread (calls (app.log.drop s.app.log.length))) }
      else none
  | .pipe (.thread k (.prepare call)) =>
      match s.due k with
      | [] => none
      | next :: due =>
          if call = next then
            (s.pipe.exec M tid filepath (.thread k (.prepare call))).map fun pipe =>
              { s with pipe := pipe, due := Function.update s.due k due }
          else none
  | .pipe e => (s.pipe.exec M tid filepath e).map fun pipe => { s with pipe := pipe }

/-- A step at which the program can rely on its consumer. -/
def Step (s : RecordedApp β) (e : RecordedEvent) (t : RecordedApp β) : Prop :=
  exec a cap T M tid filepath s e = some t ∧ ∀ e', e = .app e' → Keeping a cap s.app e'

/-- The steps of the rings. -/
def pipeEvents (es : List RecordedEvent) : List (PipeEvent ThreadId) :=
  es.filterMap fun | .pipe e => some e | _ => none

variable {a cap T M tid filepath} {s t : RecordedApp β} {e : RecordedEvent}

theorem pipeEvents_app (es : List RecordedEvent) (e : ThreadEvent) :
    pipeEvents (es ++ [.app e]) = pipeEvents es := by
  rw [pipeEvents, List.filterMap_append]
  exact List.append_nil _

theorem pipeEvents_pipe (es : List RecordedEvent) (e : PipeEvent ThreadId) :
    pipeEvents (es ++ [.pipe e]) = pipeEvents es ++ [e] := by
  rw [pipeEvents, List.filterMap_append]
  rfl

/-- A step of the program, the beginning of a call, or another step of the rings. -/
theorem step_cases (h : Step a cap T M tid filepath s e t) :
    (∃ e' app, e = .app e' ∧ s.due e'.thread = [] ∧
      (s.pipe.recorder e'.thread).pc = .idle ∧ s.app.exec a cap T e' = some app ∧
      Keeping a cap s.app e' ∧
      t = { s with
            app := app
            due := Function.update s.due e'.thread
              (lane e'.thread (calls (app.log.drop s.app.log.length))) }) ∨
    (∃ k call due pipe, e = .pipe (.thread k (.prepare call)) ∧ s.due k = call :: due ∧
      RecordPipe.Step M tid filepath s.pipe (.thread k (.prepare call)) pipe ∧
      t = { s with pipe := pipe, due := Function.update s.due k due }) ∨
    (∃ e' pipe, e = .pipe e' ∧ (∀ k call, e' ≠ .thread k (.prepare call)) ∧
      RecordPipe.Step M tid filepath s.pipe e' pipe ∧ t = { s with pipe := pipe }) := by
  obtain ⟨h, hkeep⟩ := h
  cases e with
  | app e =>
      simp only [exec] at h
      split at h
      · rename_i hidle
        obtain ⟨app, happ, rfl⟩ := Option.map_eq_some_iff.mp h
        exact Or.inl ⟨e, app, rfl, hidle.1, hidle.2, happ, hkeep e rfl, rfl⟩
      · cases h
  | pipe e =>
      right
      cases e with
      | callback k =>
          obtain ⟨pipe, hpipe, rfl⟩ := Option.map_eq_some_iff.mp h
          refine Or.inr ⟨_, pipe, rfl, fun k call heq => ?_, hpipe, rfl⟩
          cases heq
      | thread k op =>
          cases op with
          | prepare call =>
              simp only [exec] at h
              split at h
              · cases h
              · rename_i next due hdue
                split at h
                · rename_i hcall
                  obtain ⟨pipe, hpipe, rfl⟩ := Option.map_eq_some_iff.mp h
                  exact Or.inl ⟨k, call, due, pipe, rfl, hcall ▸ hdue, hpipe, rfl⟩
                · cases h
          | timespecGet sec nsec =>
              obtain ⟨pipe, hpipe, rfl⟩ := Option.map_eq_some_iff.mp h
              refine Or.inr ⟨_, pipe, rfl, fun k call heq => ?_, hpipe, rfl⟩
              cases heq
          | assign =>
              obtain ⟨pipe, hpipe, rfl⟩ := Option.map_eq_some_iff.mp h
              refine Or.inr ⟨_, pipe, rfl, fun k call heq => ?_, hpipe, rfl⟩
              cases heq
          | commit =>
              obtain ⟨pipe, hpipe, rfl⟩ := Option.map_eq_some_iff.mp h
              refine Or.inr ⟨_, pipe, rfl, fun k call heq => ?_, hpipe, rfl⟩
              cases heq

theorem pipe_step {start : RecordPipe ThreadId β} {es : List RecordedEvent}
    (hrun : Run (RecordPipe.Step M tid filepath) start (pipeEvents es) s.pipe)
    (hs : Step a cap T M tid filepath s e t) :
    Run (RecordPipe.Step M tid filepath) start (pipeEvents (es ++ [e])) t.pipe := by
  rcases step_cases hs with ⟨e', app, rfl, _, _, _, _, rfl⟩ | ⟨k, call, due, pipe, rfl, _, hpipe, rfl⟩ |
    ⟨e', pipe, rfl, _, hpipe, rfl⟩
  · rw [pipeEvents_app]
    exact hrun
  · rw [pipeEvents_pipe]
    exact hrun.snoc hpipe
  · rw [pipeEvents_pipe]
    exact hrun.snoc hpipe

/-- The steps of the rings, taken for themselves, are a run of the rings. -/
theorem pipe_run {rings : ThreadId → β} {fs : FileSystem} {es : List RecordedEvent}
    (h : Run (Step a cap T M tid filepath) (start rings fs) es s) :
    Run (RecordPipe.Step M tid filepath) (.start rings fs) (pipeEvents es) s.pipe := by
  have hstart : Run (RecordPipe.Step M tid filepath) (.start rings fs) (pipeEvents [])
      (start rings fs).pipe := .nil _
  exact Run.history (I := fun es s =>
    Run (RecordPipe.Step M tid filepath) (.start rings fs) (pipeEvents es) s.pipe)
    (fun _ _ _ _ hrun hs => pipe_step hrun hs) h hstart

/-! ## What a thread called and what the clock was read for -/

/-- The calls for which a thread is still to read the clock. -/
def waiting (s : RecordedApp β) (k : ThreadId) : List RecordCall := s.pipe.entered k ++ s.due k

/-- The calls for which the clock was read. -/
def timed (es : List RecordedEvent) : List (ThreadId × NbTsRecord) := stamped (pipeEvents es)

end RecordedApp

/-- The call of a record. -/
def NbTsRecord.call (r : NbTsRecord) : RecordCall := ⟨r.userId, r.id, r.msgSize, r.action⟩

/-- The call with which the records of a message begin. -/
def RecordCall.first (x : RecordCall) : RecordCall :=
  { x with strAction := ThreadAction.producerPrepare.text.toList }

/-- Each call of a message stands behind its `producer.prepare`. -/
def Headed (xs : List RecordCall) : Prop :=
  ∀ pre x post, xs = pre ++ x :: post → x = x.first ∨ x.first ∈ pre

theorem headed_nil : Headed [] := fun _ _ _ h => absurd h.symm (List.append_ne_nil_of_right_ne_nil _ nofun)

theorem Headed.snoc {xs : List RecordCall} {x : RecordCall} (h : Headed xs)
    (hx : x = x.first ∨ x.first ∈ xs) : Headed (xs ++ [x]) := by
  intro pre y post heq
  rcases List.eq_nil_or_concat post with rfl | ⟨post, z, rfl⟩
  · obtain ⟨rfl, hy⟩ := List.append_inj' heq rfl
    obtain rfl := (List.cons.inj hy).1
    exact hx
  · rw [List.concat_eq_append, ← List.cons_append, ← List.append_assoc] at heq
    exact h pre y post (List.append_inj' heq rfl).1

namespace ThreadApp

variable {a : NbSysArgs} {cap : Nat} {T : Bytes} {s s' : ThreadApp} {e : ThreadEvent}

theorem Headed.message {xs : List RecordCall} (h : Headed xs) (k : Nat) :
    Headed (xs ++ [a.call k .producerPrepare]) ∧
    Headed (xs ++ [a.call k .producerPrepare, a.call k .producerPushBegin]) ∧
    Headed (xs ++ [a.call k .producerPrepare, a.call k .producerPushBegin,
      a.call k .producerPushEnd]) := by
  have hprepare : Headed (xs ++ [a.call k .producerPrepare]) := h.snoc (Or.inl rfl)
  have hbegin : Headed (xs ++ [a.call k .producerPrepare, a.call k .producerPushBegin]) := by
    have hsnoc := hprepare.snoc (x := a.call k .producerPushBegin)
      (Or.inr (List.mem_append_right _ (List.mem_singleton_self _)))
    rw [List.append_assoc] at hsnoc
    exact hsnoc
  refine ⟨hprepare, hbegin, ?_⟩
  have hsnoc := hbegin.snoc (x := a.call k .producerPushEnd)
    (Or.inr (List.mem_append_right _ List.mem_cons_self))
  rw [List.append_assoc] at hsnoc
  exact hsnoc

theorem headed_pushed (a : NbSysArgs) (k : Nat) : Headed (a.pushed k) := by
  induction k with
  | zero => exact headed_nil
  | succ k ih =>
      rw [pushed_succ]
      exact (Headed.message ih k).2.2

/-- What the main thread calls is headed at any time. -/
theorem headed_main (a : NbSysArgs) (p : Producer) : Headed (a.pushed (p.done a) ++ p.begun a) := by
  have hpushed := headed_pushed a (p.done a)
  have hbetween : p.begun a = [] → Headed (a.pushed (p.done a) ++ p.begun a) := by
    intro hnil
    rw [hnil, List.append_nil]
    exact hpushed
  cases p with
  | alloc r i => exact (Headed.message hpushed _).1
  | copy r i q => exact (Headed.message hpushed _).1
  | write r i q => exact (Headed.message hpushed _).2.1
  | outer r => exact hbetween rfl
  | inner r i => exact hbetween rfl
  | sentinel => exact hbetween rfl
  | join => exact hbetween rfl
  | returned => exact hbetween rfl
  | crashed => exact hbetween rfl

theorem mem_pushed {i k : Nat} (h : i < k) : a.call i .producerPrepare ∈ a.pushed k :=
  List.mem_flatMap.mpr ⟨i, List.mem_range.mpr h, List.mem_cons_self⟩

/-- A thread records for itself. -/
theorem log_step (hs : Step a cap T s e s') :
    ∃ l, s'.log = s.log ++ l ∧ ∀ k ≠ e.thread, lane k (calls l) = [] := by
  have hnil : ∀ k ≠ e.thread, lane k (calls []) = [] := fun _ _ => rfl
  have hmain : ∀ {userId id size : UInt32} {x : ThreadAction}, x.thread = .main →
      ∀ k ≠ .main, lane k (calls [.record userId id size x]) = [] := by
    intro userId id size x hx k hk
    show lane k [(x.thread, _)] = []
    rw [hx]
    exact lane_single_of_ne (Ne.symm hk) _
  cases hs with
  | prepare hp hi hm =>
      refine ⟨_, rfl, fun k hk => ?_⟩
      rw [prepareEvents]
      split
      · exact hmain rfl k hk
      · exact hmain rfl k hk
  | alloc hp hlt hfree => exact ⟨_, rfl, fun _ _ => rfl⟩
  | allocNull hp hnone => exact ⟨_, rfl, fun _ _ => rfl⟩
  | copy hp hm => exact ⟨_, rfl, fun k hk => hmain rfl k hk⟩
  | write hp hm => exact ⟨_, rfl, fun k hk => hmain rfl k hk⟩
  | consume hc =>
      refine ⟨_, rfl, fun k hk => ?_⟩
      exact lane_single_of_ne (Ne.symm hk) _
  | free hc => exact ⟨_, rfl, fun _ _ => rfl⟩
  | round hp hr => exact ⟨[], (List.append_nil _).symm, hnil⟩
  | rounds hp hr => exact ⟨[], (List.append_nil _).symm, hnil⟩
  | roundDone hp hi => exact ⟨[], (List.append_nil _).symm, hnil⟩
  | crash hp => exact ⟨[], (List.append_nil _).symm, hnil⟩
  | sentinel hp => exact ⟨[], (List.append_nil _).symm, hnil⟩
  | join hp hc => exact ⟨[], (List.append_nil _).symm, hnil⟩
  | read hc hch => exact ⟨[], (List.append_nil _).symm, hnil⟩
  | readNull hc hch => exact ⟨[], (List.append_nil _).symm, hnil⟩

end ThreadApp

/-! ## Whole runs -/

namespace RecordedApp

open ThreadApp RecordPipe

variable {β : Type} {a : NbSysArgs} {cap : Nat} {T : Bytes} {M : MaRing NbTsRecord β}
variable {tid : ThreadId → UInt64} {filepath : Text} {rings : ThreadId → β} {fs : FileSystem}
variable {s t : RecordedApp β} {e : RecordedEvent} {es : List RecordedEvent}

/-- The program and its rings agree. -/
structure Linked (a : NbSysArgs) (cap : Nat) (T : Bytes) (es : List RecordedEvent)
    (s : RecordedApp β) : Prop where
  good : Good a cap T s.app
  records : Records a s.app
  due : ∀ k, lane k (calls s.app.log) = (lane k (timed es)).map NbTsRecord.call ++ s.waiting k
  prepared : ∀ i < s.app.producer.done a,
    a.call i .producerPrepare ∈ (timed es).map fun x => x.2.call
  headed : Headed ((timed es).map fun x => x.2.call)

theorem linked_start : Linked a cap T [] (start rings fs) where
  good := good_start
  records := records_start
  due _ := rfl
  prepared i hi := by
    have hdone : (start rings fs).app.producer.done a = 0 := by
      rw [start, ThreadApp.start, Producer.done, UInt32.toNat_zero, Nat.zero_mul]
    omega
  headed := headed_nil

theorem map_lane_subset (xs : List (ThreadId × NbTsRecord)) (k : ThreadId) :
    (lane k xs).map NbTsRecord.call ⊆ xs.map fun x => x.2.call := by
  intro x hx
  obtain ⟨r, hr, rfl⟩ := List.mem_map.mp hx
  exact List.mem_map.mpr ⟨(k, r), mem_lane.mp hr, rfl⟩

/-- A step of the program. -/
theorem Linked.app (ha : a.Sized) (hT : a.Prepared T) (h : Linked a cap T es s) {e : ThreadEvent}
    {app : ThreadApp} (hdue : s.due e.thread = []) (hidle : (s.pipe.recorder e.thread).pc = .idle)
    (happ : s.app.exec a cap T e = some app) (hk : Keeping a cap s.app e) :
    Linked a cap T (es ++ [.app e])
      { s with
        app := app
        due := Function.update s.due e.thread
          (lane e.thread (calls (app.log.drop s.app.log.length))) } := by
  have hstep := step_of_exec happ
  have htimed : timed (es ++ [.app e]) = timed es := by rw [timed, pipeEvents_app]; rfl
  have hentered : s.pipe.entered e.thread = [] := by rw [RecordPipe.entered, hidle]
  obtain ⟨l, hlog, hother⟩ := log_step hstep
  have hwait : s.waiting e.thread = [] := by rw [waiting, hentered, hdue]; rfl
  refine ⟨(h.good.step ha hT hk happ).1, h.records.step ha hT h.good hk happ, ?_, ?_, ?_⟩
  · intro k
    rw [htimed, waiting]
    dsimp only
    rw [hlog, calls_append, lane_append, h.due, List.append_assoc, List.drop_left]
    refine congrArg _ ?_
    by_cases hke : k = e.thread
    · obtain rfl := hke
      rw [Function.update_self, hwait, hentered]
    · rw [Function.update_of_ne hke, hother k hke, List.append_nil]
      rfl
  · intro i hi
    rw [htimed]
    have hnull := h.good.blocks.alloc_some h.good.control hk hstep
    rcases done_step h.good.control hnull hstep with hdone | ⟨r, j, p, hp, hdone⟩
    · exact h.prepared i (hdone ▸ hi)
    · -- the message that was written had been prepared, and nothing waits
      have hthread : e.thread = .main := by
        cases hstep with
        | read hc hch => exact absurd hdone (by rw [hp]; exact (Nat.succ_ne_self _).symm)
        | readNull hc hch => exact absurd hdone (by rw [hp]; exact (Nat.succ_ne_self _).symm)
        | consume hc => exact absurd hdone (by rw [hp]; exact (Nat.succ_ne_self _).symm)
        | free hc => exact absurd hdone (by rw [hp]; exact (Nat.succ_ne_self _).symm)
        | _ => rfl
      have hmain := h.due .main
      rw [← hthread, hwait, List.append_nil, hthread, h.records.main, hp] at hmain
      refine map_lane_subset _ .main (hmain ▸ ?_)
      have hi : i < a.position r j + 1 := hdone ▸ hi
      rcases Nat.lt_succ_iff_lt_or_eq.mp hi with hlt | rfl
      · exact List.mem_append_left _ (mem_pushed hlt)
      · exact List.mem_append_right _ List.mem_cons_self
  · rw [htimed]
    exact h.headed

/-- The clock is read for a call. -/
theorem Linked.stamp (h : Linked a cap T es s) {k : ThreadId} {call : RecordCall}
    {due : List RecordCall} (hwait : s.waiting k = call :: due) :
    call = call.first ∨ call.first ∈ (timed es).map fun x => x.2.call := by
  have hlane := h.due k
  rw [hwait] at hlane
  cases k with
  | main =>
      rw [h.records.main] at hlane
      refine (headed_main a s.app.producer _ _ _ hlane).imp_right fun hmem => ?_
      exact map_lane_subset _ .main hmem
  | consumer =>
      rw [h.records.consumer] at hlane
      have hmem : call ∈ a.rcvd (consumed s.app.log).length :=
        hlane ▸ List.mem_append_right _ List.mem_cons_self
      obtain ⟨i, hi, rfl⟩ := List.mem_map.mp hmem
      have hle := h.good.flow.consumed_le
      exact Or.inr (h.prepared i (Nat.lt_of_lt_of_le (List.mem_range.mp hi) hle))

/-- A step of the rings that does not change what the clock was read for. -/
theorem Linked.of_timed (h : Linked a cap T es s) {e : PipeEvent ThreadId}
    (htimed : timed (es ++ [.pipe e]) = timed es) (happ : t.app = s.app)
    (hwait : ∀ k, t.waiting k = s.waiting k) : Linked a cap T (es ++ [.pipe e]) t where
  good := happ ▸ h.good
  records := happ ▸ h.records
  due k := by rw [happ, htimed, hwait]; exact h.due k
  prepared := by rw [happ, htimed]; exact h.prepared
  headed := by rw [htimed]; exact h.headed

/-- A step of the rings. -/
theorem Linked.pipe (h : Linked a cap T es s) (hcalled : Called (pipeEvents es) s.pipe)
    {e : PipeEvent ThreadId}
    (hs : Step a cap T M tid filepath s (.pipe e) t) :
    Linked a cap T (es ++ [.pipe e]) t := by
  have htimed : timed (es ++ [.pipe e]) = stamped (pipeEvents es ++ [e]) := by
    rw [timed, pipeEvents_pipe]
  rcases step_cases hs with ⟨_, _, he, _⟩ | ⟨k, call, due, pipe, he, hdue, hpipe, rfl⟩ |
    ⟨e', pipe, he, hother, hpipe, rfl⟩
  · exact nomatch he
  · -- a call that was due begins
    cases he
    rcases hcalled.stamped_cases hpipe with ⟨_, _, he, hnone, hsame, hent⟩ | ⟨_, _, _, _, he, _⟩ |
      ⟨hno, _⟩
    · cases he
      refine h.of_timed (htimed.trans hsame) rfl fun k' => ?_
      rw [waiting, waiting, hent]
      dsimp only
      by_cases hk : k' = k
      · obtain rfl := hk
        rw [if_pos rfl, Function.update_self, hnone, hdue]
        rfl
      · rw [if_neg hk, Function.update_of_ne hk]
    · exact nomatch he
    · exact absurd rfl (hno k call)
  · cases he
    rcases hcalled.stamped_cases hpipe with ⟨k, call, he, _⟩ | ⟨k, sec, nsec, call, rfl, hin, hlog, hent⟩ |
      ⟨_, hsame, hent⟩
    · exact absurd he (hother k call)
    · -- the clock is read
      have hwait : s.waiting k = call :: s.due k := by rw [waiting, hin]; rfl
      have hnew : timed (es ++ [.pipe (.thread k (.timespecGet sec nsec))]) =
          timed es ++ [(k, call.record sec nsec)] := htimed.trans hlog
      refine ⟨h.good, h.records, ?_, ?_, ?_⟩
      · intro k'
        have hold := h.due k'
        rw [hnew, lane_append, List.map_append, hold, List.append_assoc]
        refine congrArg _ ?_
        rw [waiting, waiting, hent]
        by_cases hk : k' = k
        · obtain rfl := hk
          rw [if_pos rfl, lane_single_self, hin]
          rfl
        · rw [if_neg hk, lane_single_of_ne (Ne.symm hk)]
          rfl
      · intro i hi
        rw [hnew, List.map_append]
        exact List.mem_append_left _ (h.prepared i hi)
      · rw [hnew, List.map_append]
        exact h.headed.snoc (h.stamp hwait)
    · refine h.of_timed (htimed.trans hsame) rfl fun k' => ?_
      rw [waiting, waiting, hent]

theorem linked_of_run (ha : a.Sized) (hT : a.Prepared T)
    (h : Run (Step a cap T M tid filepath) (start rings fs) es s) :
    Linked a cap T es s := by
  have hstart : Run (RecordPipe.Step M tid filepath) (.start rings fs) (pipeEvents [])
      (start rings fs).pipe ∧ Linked a cap T [] (start rings fs) := ⟨.nil _, linked_start⟩
  have hboth := Run.history (I := fun es s =>
    Run (RecordPipe.Step M tid filepath) (.start rings fs) (pipeEvents es) s.pipe ∧
      Linked a cap T es s) ?_ h hstart
  · exact hboth.2
  rintro es s e t ⟨hrun, hlinked⟩ hs
  refine ⟨pipe_step hrun hs, ?_⟩
  cases e with
  | app e =>
      rcases step_cases hs with ⟨e', app, he, hdue, hidle, happ, hk, rfl⟩ | ⟨_, _, _, _, he, _⟩ |
        ⟨_, _, he, _⟩
      · cases he
        exact hlinked.app ha hT hdue hidle happ hk
      · exact nomatch he
      · exact nomatch he
  | pipe e =>
      exact hlinked.pipe (called_of_run hrun) hs

theorem pushed_isPrefix (a : NbSysArgs) {k l : Nat} (h : k ≤ l) : a.pushed k <+: a.pushed l := by
  obtain ⟨d, rfl⟩ := Nat.exists_eq_add_of_le h
  induction d with
  | zero => exact List.prefix_rfl
  | succ d ih =>
      refine (ih (Nat.le_add_right k d)).trans ?_
      rw [← Nat.add_assoc, pushed_succ]
      exact List.prefix_append _ _

/-- The calls for the message that the main thread is at are those of the next message. -/
theorem main_isPrefix (p : Producer) (hin : p.InLoop a) (hdone : p.done a ≤ a.total) :
    a.pushed (p.done a) ++ p.begun a <+: a.pushed a.total := by
  have hnext : ∀ {k : Nat} {l : List RecordCall}, k < a.total →
      l <+: [a.call k .producerPrepare, a.call k .producerPushBegin, a.call k .producerPushEnd] →
      a.pushed k ++ l <+: a.pushed a.total := by
    intro k l hk hl
    refine List.IsPrefix.trans ?_ (pushed_isPrefix a hk)
    rw [pushed_succ]
    exact (List.prefix_append_right_inj _).mpr hl
  have hbetween : p.begun a = [] → a.pushed (p.done a) ++ p.begun a <+: a.pushed a.total := by
    intro hnil
    rw [hnil, List.append_nil]
    exact pushed_isPrefix a hdone
  cases p with
  | alloc r i => exact hnext (NbSysArgs.position_lt hin.1 hin.2) ⟨_, rfl⟩
  | copy r i q => exact hnext (NbSysArgs.position_lt hin.1.1 hin.1.2) ⟨_, rfl⟩
  | write r i q => exact hnext (NbSysArgs.position_lt hin.1 hin.2) ⟨_, rfl⟩
  | outer r => exact hbetween rfl
  | inner r i => exact hbetween rfl
  | sentinel => exact hbetween rfl
  | join => exact hbetween rfl
  | returned => exact hbetween rfl
  | crashed => exact hbetween rfl

theorem Linked.main_timed (h : Linked a cap T es s) :
    (lane .main (timed es)).map NbTsRecord.call <+: a.pushed a.total := by
  have hmain := h.due .main
  rw [h.records.main] at hmain
  have hcontrol := h.good.control
  refine List.IsPrefix.trans ?_ (main_isPrefix s.app.producer hcontrol.inLoop hcontrol.done_le)
  exact ⟨_, hmain.symm⟩

theorem rcvd_isPrefix (a : NbSysArgs) {k l : Nat} (h : k ≤ l) : a.rcvd k <+: a.rcvd l := by
  obtain ⟨d, rfl⟩ := Nat.exists_eq_add_of_le h
  rw [NbSysArgs.rcvd, NbSysArgs.rcvd, List.range_add, List.map_append]
  exact List.prefix_append _ _

theorem Linked.consumer_timed (h : Linked a cap T es s) :
    (lane .consumer (timed es)).map NbTsRecord.call <+: a.rcvd a.total := by
  have hcons := h.due .consumer
  rw [h.records.consumer] at hcons
  have hle := h.good.flow.consumed_le.trans h.good.control.done_le
  exact List.IsPrefix.trans ⟨_, hcons.symm⟩ (rcvd_isPrefix a hle)

/-- When the program has returned and its calls are through, the clock was read for all of
them. -/
theorem Linked.all_timed (h : Linked a cap T es s) (hp : s.app.producer = .returned)
    (hthrough : ∀ k, s.waiting k = []) :
    (lane .main (timed es)).map NbTsRecord.call = a.pushed a.total ∧
      (lane .consumer (timed es)).map NbTsRecord.call = a.rcvd a.total := by
  have hexited := h.good.control.returned hp
  obtain ⟨_, hch⟩ := h.good.control.exited hexited
  have hdelivered := h.good.delivered hp hexited hch
  have hmain := h.due .main
  have hcons := h.due .consumer
  rw [h.records.main, hp, hthrough, List.append_nil] at hmain
  rw [h.records.consumer, hdelivered.received, hthrough, List.append_nil, NbSysArgs.slices,
    List.length_map, List.length_range'] at hcons
  refine ⟨hmain.symm.trans ?_, hcons.symm⟩
  exact List.append_nil _

/-- The records of the program, as the clock is read for them. In every run in which each
write finds room in the channel, each thread makes the records of its messages in order, no
record of a message is made before its `producer.prepare`, and no assertion fails; at the
end, all records were made. -/
theorem records_of_run (ha : a.Sized) {m : Bytes} (hm : m.length = a.tableBytes.toNat) :
    ∃ T, a.prepare m = some T ∧
      ∀ es s, Run (Step a cap T M tid filepath) (start rings fs) es s →
        (lane .main (timed es)).map NbTsRecord.call <+: a.pushed a.total ∧
        (lane .consumer (timed es)).map NbTsRecord.call <+: a.rcvd a.total ∧
        (∀ pre x post, timed es = pre ++ x :: post →
          x.2.call = x.2.call.first ∨ ∃ y ∈ pre, y.2.call = x.2.call.first) ∧
        .assertFailed ∉ s.app.log ∧
        (s.app.producer = .returned → (∀ k, s.due k = [] ∧ (s.pipe.recorder k).pc = .idle) →
          (lane .main (timed es)).map NbTsRecord.call = a.pushed a.total ∧
            (lane .consumer (timed es)).map NbTsRecord.call = a.rcvd a.total) := by
  obtain ⟨T, hT, hprep⟩ := NbSysArgs.prepare_prepared ha hm
  refine ⟨T, hT, fun es s hrun => ?_⟩
  have hlinked := linked_of_run ha hprep hrun
  refine ⟨hlinked.main_timed, hlinked.consumer_timed, ?_, hlinked.records.asserted, ?_⟩
  · intro pre x post heq
    have hsplit : (timed es).map (fun x => x.2.call) =
        pre.map (fun x => x.2.call) ++ x.2.call :: post.map (fun x => x.2.call) := by
      rw [heq, List.map_append, List.map_cons]
    exact (hlinked.headed _ _ _ hsplit).imp_right List.mem_map.mp
  · intro hp hthrough
    refine hlinked.all_timed hp fun k => ?_
    obtain ⟨hdue, hidle⟩ := hthrough k
    rw [waiting, RecordPipe.entered, hidle, hdue]
    rfl

/-- Five rounds of one message. -/
def fiveRounds : NbSysArgs := ⟨7, 5, 1, 0, 16, 0⟩

theorem fiveRounds_sized : fiveRounds.Sized := ⟨by decide, by decide⟩

/-- A call from beginning to end, and the line of its record. -/
def recordEvents (k : ThreadId) (call : RecordCall) (nsec : Nat) : List RecordedEvent :=
  ([.prepare call, .timespecGet 1718755200 (Int64.ofNat nsec), .assign, .assign, .assign, .assign,
    .commit] : List RecordOp).map (fun op => .pipe (.thread k op)) ++ [.pipe (.callback k)]

/-- A message that is received before the push is over. -/
def messageEvents (i : Nat) : List RecordedEvent :=
  [.app .outer, .app .inner] ++ recordEvents .main (fiveRounds.call i .producerPrepare) (10 * i) ++
    [.app (.alloc (some 0)), .app .copy] ++
    recordEvents .main (fiveRounds.call i .producerPushBegin) (10 * i + 1) ++
    [.app .write, .app .read, .app .consume] ++
    recordEvents .consumer (fiveRounds.call i .consumerRcv) (10 * i + 2) ++
    recordEvents .main (fiveRounds.call i .producerPushEnd) (10 * i + 3) ++ [.app .free, .app .inner]

def fiveEvents : List RecordedEvent :=
  (List.range 5).flatMap messageEvents ++ [.app .outer, .app .sentinel, .app .read, .app .join]

def fiveRings (_ : ThreadId) : CellRing NbTsRecord 1 := .empty 1 fun _ => ⟨0, 0, 0, 0, 0, []⟩

def fiveTid (_ : ThreadId) : UInt64 := 7

/-- A step at which the channel has room. -/
def execRoom (T : Bytes) (s : RecordedApp (CellRing NbTsRecord 1)) (e : RecordedEvent) :
    Option (RecordedApp (CellRing NbTsRecord 1)) :=
  if s.app.chan.length < 8 then exec fiveRounds 8 T oneCell fiveTid samplePath s e else none

theorem step_of_execRoom {T : Bytes} {s t : RecordedApp (CellRing NbTsRecord 1)}
    {e : RecordedEvent}
    (h : execRoom T s e = some t) : Step fiveRounds 8 T oneCell fiveTid samplePath s e t := by
  rw [execRoom] at h
  split at h
  · rename_i hroom
    refine ⟨h, fun e' _ => ?_⟩
    cases e' with
    | write => exact hroom
    | sentinel => exact hroom
    | alloc p => exact Or.inl (by decide)
    | _ => trivial
  · exact nomatch h

theorem fiveEvents_run :
    ∃ fs T s, nbRecordInit sampleOs samplePath sampleSystem = some fs ∧
      fiveRounds.prepare (List.replicate 80 0) = some T ∧
      Run (Step fiveRounds 8 T oneCell fiveTid samplePath) (start fiveRings fs) fiveEvents s ∧
      s.app.producer = .returned ∧ (∀ k, s.due k = []) ∧ s.pipe.Drained oneCell := by
  have hobs : ((nbRecordInit sampleOs samplePath sampleSystem).bind fun fs =>
      (fiveRounds.prepare (List.replicate 80 0)).bind fun T =>
        (fiveEvents.foldlM (execRoom T) (start fiveRings fs)).map fun s =>
          decide (s.app.producer = .returned ∧ ∀ k ∈ [ThreadId.main, .consumer], s.due k = [] ∧
            (s.pipe.recorder k).pc = .idle ∧
              (oneCell.read (s.pipe.recorder k).ring).isNone)) = some true := by
    decide +kernel
  simp only [Option.bind_eq_some_iff, Option.map_eq_some_iff, decide_eq_true_eq] at hobs
  obtain ⟨fs, hfs, T, hT, s, hs, hreturned, hthreads⟩ := hobs
  have hall : ∀ k, s.due k = [] ∧ (s.pipe.recorder k).pc = .idle ∧
      (oneCell.read (s.pipe.recorder k).ring).isNone := by
    intro k
    cases k with
    | main => exact hthreads _ List.mem_cons_self
    | consumer => exact hthreads _ (List.mem_cons_of_mem _ List.mem_cons_self)
  exact ⟨fs, T, s, hfs, hT, (Run.of_foldlM hs).mono fun _ _ _ h => step_of_execRoom h, hreturned,
    fun k => (hall k).1, fun k => ⟨(hall k).2.1, Option.isNone_iff_eq_none.mp (hall k).2.2⟩⟩

/-- When it is over, the records of all five messages were made. -/
theorem records_of_run_five_rounds :
    ∃ T fs s, fiveRounds.prepare (List.replicate 80 0) = some T ∧
      Run (Step fiveRounds 8 T oneCell fiveTid samplePath) (start fiveRings fs) fiveEvents s ∧
      s.app.producer = .returned ∧
      (lane .main (timed fiveEvents)).map NbTsRecord.call = fiveRounds.pushed 5 ∧
      (lane .consumer (timed fiveEvents)).map NbTsRecord.call = fiveRounds.rcvd 5 := by
  obtain ⟨fs, T, s, _, hT, hrun, hreturned, hdue, hdrained⟩ := fiveEvents_run
  have hlength : (List.replicate 80 (0 : UInt8)).length = fiveRounds.tableBytes.toNat :=
    List.length_replicate.trans (by decide)
  obtain ⟨T', hT', hruns⟩ := records_of_run fiveRounds_sized hlength
  obtain rfl := Option.some.inj (hT.symm.trans hT')
  obtain ⟨_, _, _, _, hover⟩ := hruns fiveEvents s hrun
  obtain ⟨hmain, hcons⟩ := hover hreturned fun k => ⟨hdue k, (hdrained k).1⟩
  exact ⟨T, fs, s, hT, hrun, hreturned, hmain, hcons⟩

end RecordedApp

end NetBench

/-
# `NetBench.ThreadApp` — the producer and the consumer of the thread program

`app/thread/main.c`.  The main thread runs `producer`, writes the sentinel and joins the
other thread, which runs `consumer`; they share a channel of pointers and a pool of
blocks.  A step is taken by one of the threads, so that a run is any interleaving; reading
from an empty channel and joining wait.

The channel is a bounded queue: a write to a full channel enqueues nothing.  It returns
an error then, which neither call looks at.  The pool has `num_per_round * 16` blocks; an
allocation gives any free one, or `NULL` if there is none.
-/
import NetBench.TableSize
import NetBench.Socket
import Mathlib.Logic.Function.Basic

namespace NetBench

open Lib

/-! ## State -/

/-- Where the main thread stands. -/
inductive Producer where
  /-- before `round < args->round_num` -/
  | outer (r : UInt32)
  /-- before `i < args->num_per_round` -/
  | inner (r i : UInt32)
  /-- before `muggle_ts_memory_pool_alloc` -/
  | alloc (r i : UInt32)
  /-- before `memcpy`, with what the pool returned -/
  | copy (r i : UInt32) (p : Option Nat)
  /-- before `muggle_channel_write` of the block -/
  | write (r i : UInt32) (p : Nat)
  /-- before `muggle_channel_write` of `NULL` -/
  | sentinel
  /-- in `muggle_thread_join` -/
  | join
  | returned
  /-- after a `memcpy` to `NULL` -/
  | crashed
  deriving DecidableEq, Repr

/-- Where the other thread stands. -/
inductive Consumer where
  /-- in `muggle_channel_read` -/
  | read
  /-- with a block that it has not looked at -/
  | got (p : Nat)
  /-- before `muggle_ts_memory_pool_free` -/
  | freeing (p : Nat)
  | exited
  deriving DecidableEq, Repr

/-- The `action` strings of the program. -/
inductive ThreadAction where
  | producerPrepare
  | producerPushBegin
  | producerPushEnd
  | consumerRcv
  deriving DecidableEq, Repr

def ThreadAction.text : ThreadAction → String
  | .producerPrepare => "producer.prepare"
  | .producerPushBegin => "producer.push_begin"
  | .producerPushEnd => "producer.push_end"
  | .consumerRcv => "consumer.rcv"

/-- What the threads do, in the order in which they do it. -/
inductive ThreadEv where
  | record (userId id msgSize : UInt32) (action : ThreadAction)
  /-- a failed assertion on the user or on the sequence -/
  | assertFailed
  | alloc (p : Option Nat)
  /-- the consumer looks at a block with these bytes -/
  | consume (b : Bytes)
  | free (p : Nat)
  deriving DecidableEq, Repr

structure ThreadApp where
  producer : Producer
  consumer : Consumer
  /-- the elements of the channel; `none` is `NULL` -/
  chan : List (Option Nat)
  /-- the blocks in use -/
  used : List Nat
  /-- the contents of the blocks -/
  mem : Nat → Bytes
  log : List ThreadEv

/-- What happens next, and in which thread. -/
inductive ThreadEvent where
  | outer
  | inner
  | alloc (p : Option Nat)
  | copy
  | write
  | sentinel
  | join
  | read
  | consume
  | free
  deriving DecidableEq, Repr

namespace ThreadApp

variable (a : NbSysArgs) (cap : Nat) (T : Bytes)

/-! ## Steps -/

/-- The number of blocks of the pool. -/
def poolSize : Nat := (a.numPerRound * 16).toNat

/-- `muggle_channel_write`, for a channel with room for `cap` elements. -/
def channelWrite (ch : List (Option Nat)) (x : Option Nat) : List (Option Nat) :=
  if ch.length < cap then ch ++ [x] else ch

/-- After `muggle_thread_create`, with the messages in `T`. -/
def start : ThreadApp where
  producer := .outer 0
  consumer := .read
  chan := []
  used := []
  mem := fun _ => []
  log := []

/-- `hdr` and `data` of a message, as a block of bytes. -/
def message (r i : UInt32) : Option Bytes := Block.load T (a.producerOffset r i) a.msgSize.toNat

/-- The two assertions and the record at the head of the inner loop. -/
def prepareEvents (r i : UInt32) (m : Bytes) : List ThreadEv :=
  let data := MsgData.decode (m.drop sizeofMsgHdr)
  (if data.userId = a.userId ∧ data.sequence = a.producerSeq r i then [] else [.assertFailed]) ++
    [.record data.userId data.sequence a.msgSize .producerPrepare]

/-- The record around a write. -/
def pushEvent (m : Bytes) (action : ThreadAction) : ThreadEv :=
  let data := MsgData.decode (m.drop sizeofMsgHdr)
  .record data.userId data.sequence a.msgSize action

/-- What the consumer records of a block. -/
def rcvEvent (m : Bytes) : ThreadEv :=
  let hdr := MsgHdr.decode m
  let data := MsgData.decode (m.drop sizeofMsgHdr)
  .record data.userId data.sequence (UInt32.ofNat sizeofMsgHdr + hdr.payloadLen) .consumerRcv

/-- One step, or `none` if it cannot happen. -/
def exec (s : ThreadApp) : ThreadEvent → Option ThreadApp
  | .outer =>
      match s.producer with
      | .outer r =>
          some { s with producer := if r < a.roundNum then .inner r 0 else .sentinel }
      | _ => none
  | .inner =>
      match s.producer with
      | .inner r i =>
          if i < a.numPerRound then
            (message a T r i).map fun m =>
              { s with producer := .alloc r i, log := s.log ++ prepareEvents a r i m }
          else some { s with producer := .outer (r + 1) }
      | _ => none
  | .alloc (some p) =>
      match s.producer with
      | .alloc r i =>
          if p < poolSize a ∧ p ∉ s.used then
            some { s with
              producer := .copy r i (some p)
              used := s.used ++ [p]
              log := s.log ++ [.alloc (some p)] }
          else none
      | _ => none
  | .alloc none =>
      match s.producer with
      | .alloc r i =>
          if ∀ p < poolSize a, p ∈ s.used then
            some { s with producer := .copy r i none, log := s.log ++ [.alloc none] }
          else none
      | _ => none
  | .copy =>
      match s.producer with
      | .copy r i (some p) =>
          (message a T r i).map fun m =>
            { s with
              producer := .write r i p
              mem := Function.update s.mem p m
              log := s.log ++ [pushEvent a m .producerPushBegin] }
      | .copy _ _ none => some { s with producer := .crashed }
      | _ => none
  | .write =>
      match s.producer with
      | .write r i p =>
          (message a T r i).map fun m =>
            { s with
              producer := .inner r (i + 1)
              chan := channelWrite cap s.chan (some p)
              log := s.log ++ [pushEvent a m .producerPushEnd] }
      | _ => none
  | .sentinel =>
      match s.producer with
      | .sentinel => some { s with producer := .join, chan := channelWrite cap s.chan none }
      | _ => none
  | .join =>
      match s.producer, s.consumer with
      | .join, .exited => some { s with producer := .returned }
      | _, _ => none
  | .read =>
      match s.consumer, s.chan with
      | .read, some p :: ch => some { s with consumer := .got p, chan := ch }
      | .read, none :: ch => some { s with consumer := .exited, chan := ch }
      | _, _ => none
  | .consume =>
      match s.consumer with
      | .got p =>
          some { s with
            consumer := .freeing p
            log := s.log ++ [rcvEvent (s.mem p), .consume (s.mem p)] }
      | _ => none
  | .free =>
      match s.consumer with
      | .freeing p =>
          some { s with consumer := .read, used := s.used.erase p, log := s.log ++ [.free p] }
      | _ => none

/-! ## The cases of a step -/

/-- The step relation that `exec` computes. -/
inductive Step (s : ThreadApp) : ThreadEvent → ThreadApp → Prop
  | round {r} (hp : s.producer = .outer r) (hr : r < a.roundNum) :
      Step s .outer { s with producer := .inner r 0 }
  | rounds {r} (hp : s.producer = .outer r) (hr : ¬ r < a.roundNum) :
      Step s .outer { s with producer := .sentinel }
  | prepare {r i m} (hp : s.producer = .inner r i) (hi : i < a.numPerRound)
      (hm : message a T r i = some m) :
      Step s .inner { s with producer := .alloc r i, log := s.log ++ prepareEvents a r i m }
  | roundDone {r i} (hp : s.producer = .inner r i) (hi : ¬ i < a.numPerRound) :
      Step s .inner { s with producer := .outer (r + 1) }
  | alloc {r i p} (hp : s.producer = .alloc r i) (hlt : p < poolSize a) (hfree : p ∉ s.used) :
      Step s (.alloc (some p)) { s with
        producer := .copy r i (some p)
        used := s.used ++ [p]
        log := s.log ++ [.alloc (some p)] }
  | allocNull {r i} (hp : s.producer = .alloc r i) (hnone : ∀ p < poolSize a, p ∈ s.used) :
      Step s (.alloc none) { s with producer := .copy r i none, log := s.log ++ [.alloc none] }
  | copy {r i p m} (hp : s.producer = .copy r i (some p)) (hm : message a T r i = some m) :
      Step s .copy { s with
        producer := .write r i p
        mem := Function.update s.mem p m
        log := s.log ++ [pushEvent a m .producerPushBegin] }
  | crash {r i} (hp : s.producer = .copy r i none) : Step s .copy { s with producer := .crashed }
  | write {r i p m} (hp : s.producer = .write r i p) (hm : message a T r i = some m) :
      Step s .write { s with
        producer := .inner r (i + 1)
        chan := channelWrite cap s.chan (some p)
        log := s.log ++ [pushEvent a m .producerPushEnd] }
  | sentinel (hp : s.producer = .sentinel) :
      Step s .sentinel { s with producer := .join, chan := channelWrite cap s.chan none }
  | join (hp : s.producer = .join) (hc : s.consumer = .exited) :
      Step s .join { s with producer := .returned }
  | read {p ch} (hc : s.consumer = .read) (hch : s.chan = some p :: ch) :
      Step s .read { s with consumer := .got p, chan := ch }
  | readNull {ch} (hc : s.consumer = .read) (hch : s.chan = none :: ch) :
      Step s .read { s with consumer := .exited, chan := ch }
  | consume {p} (hc : s.consumer = .got p) :
      Step s .consume { s with
        consumer := .freeing p
        log := s.log ++ [rcvEvent (s.mem p), .consume (s.mem p)] }
  | free {p} (hc : s.consumer = .freeing p) :
      Step s .free { s with consumer := .read, used := s.used.erase p, log := s.log ++ [.free p] }

variable {a cap T} {s s' : ThreadApp} {e : ThreadEvent}

theorem step_of_exec (h : exec a cap T s e = some s') : Step a cap T s e s' := by
  cases e with
  | outer =>
      simp only [exec] at h
      split at h
      · rename_i r hp
        by_cases hr : r < a.roundNum
        · rw [if_pos hr] at h
          exact Option.some.inj h ▸ .round hp hr
        · rw [if_neg hr] at h
          exact Option.some.inj h ▸ .rounds hp hr
      · exact nomatch h
  | inner =>
      simp only [exec] at h
      split at h
      · rename_i r i hp
        by_cases hi : i < a.numPerRound
        · rw [if_pos hi, Option.map_eq_some_iff] at h
          obtain ⟨m, hm, rfl⟩ := h
          exact .prepare hp hi hm
        · rw [if_neg hi] at h
          exact Option.some.inj h ▸ .roundDone hp hi
      · exact nomatch h
  | alloc p =>
      cases p with
      | some p =>
          simp only [exec] at h
          split at h
          · rename_i r i hp
            split at h
            · rename_i hfree
              exact Option.some.inj h ▸ .alloc hp hfree.1 hfree.2
            · exact nomatch h
          · exact nomatch h
      | none =>
          simp only [exec] at h
          split at h
          · rename_i r i hp
            split at h
            · rename_i hnone
              exact Option.some.inj h ▸ .allocNull hp hnone
            · exact nomatch h
          · exact nomatch h
  | copy =>
      simp only [exec] at h
      split at h
      · rename_i r i p hp
        obtain ⟨m, hm, rfl⟩ := Option.map_eq_some_iff.mp h
        exact .copy hp hm
      · rename_i r i hp
        exact Option.some.inj h ▸ .crash hp
      · exact nomatch h
  | write =>
      simp only [exec] at h
      split at h
      · rename_i r i p hp
        obtain ⟨m, hm, rfl⟩ := Option.map_eq_some_iff.mp h
        exact .write hp hm
      · exact nomatch h
  | sentinel =>
      simp only [exec] at h
      split at h
      · rename_i hp
        exact Option.some.inj h ▸ .sentinel hp
      · exact nomatch h
  | join =>
      simp only [exec] at h
      split at h
      · rename_i hp hc
        exact Option.some.inj h ▸ .join hp hc
      · exact nomatch h
  | read =>
      simp only [exec] at h
      split at h
      · rename_i p ch hc hch
        exact Option.some.inj h ▸ .read hc hch
      · rename_i ch hc hch
        exact Option.some.inj h ▸ .readNull hc hch
      · exact nomatch h
  | consume =>
      simp only [exec] at h
      split at h
      · rename_i p hc
        exact Option.some.inj h ▸ .consume hc
      · exact nomatch h
  | free =>
      simp only [exec] at h
      split at h
      · rename_i p hc
        exact Option.some.inj h ▸ .free hc
      · exact nomatch h

theorem exec_of_step (h : Step a cap T s e s') : exec a cap T s e = some s' := by
  cases h with
  | round hp hr => simp only [exec, hp, if_pos hr]
  | rounds hp hr => simp only [exec, hp, if_neg hr]
  | prepare hp hi hm => simp only [exec, hp, if_pos hi, hm, Option.map_some]
  | roundDone hp hi => simp only [exec, hp, if_neg hi]
  | alloc hp hlt hfree => simp only [exec, hp, if_pos (And.intro hlt hfree)]
  | allocNull hp hnone => simp only [exec, hp, if_pos hnone]
  | copy hp hm => simp only [exec, hp, hm, Option.map_some]
  | crash hp => simp only [exec, hp]
  | write hp hm => simp only [exec, hp, hm, Option.map_some]
  | sentinel hp => simp only [exec, hp]
  | join hp hc => simp only [exec, hp, hc]
  | read hc hch => simp only [exec, hc, hch]
  | readNull hc hch => simp only [exec, hc, hch]
  | consume hc => simp only [exec, hc]
  | free hc => simp only [exec, hc]

end ThreadApp

end NetBench

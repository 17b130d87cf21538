/-
# `NetBench.UdpClient` — the UDP client

`udp_client_handle.c` and the part of `run` that starts the loop, in the form of
`NetBench.TcpClient`.  `run` registers the add and the timer callback only, so
the housekeeping of the loop, which closes a context that was shut down and then
frees it, runs no code of the program.
-/
import NetBench.TcpClient

namespace NetBench

open Lib

/-- `elapsed_ms` of the UDP client, which is a `uint32_t`. -/
def udpElapsedMs (ts last : Timespec) : UInt32 := UInt32.ofInt (elapsedMs ts last)

/-- The value of `muggle_socket_ctx_sendto` for a buffer of `n` bytes. -/
def sendtoResult (w : WriteOutcome) (n : Nat) : Int :=
  match w with
  | .accept k => castInt (min k n)
  | .error => -1

/-- `muggle_socket_ctx_sendto`: the value returned and the bytes accepted. -/
def ctxSendto (w : WriteOutcome) (buf : Bytes) : Int × Bytes :=
  (sendtoResult w buf.length,
    match w with
    | .accept k => buf.take k
    | .error => [])

/-- `udp_client_evloop_data_t` with the event loop and what happened to its contexts. -/
structure UdpClient where
  /-- `evloop_data->ctx` -/
  ctx : Option Nat
  lastTs : Timespec
  roundIndex : UInt32
  datas : Bytes
  loop : EventLoop
  /-- the contexts that were shut down -/
  shut : List Nat
  /-- the contexts that the loop has freed -/
  freed : List Nat
  sending : Option Sending
  log : List Ev
  /-- the calls of `sendto` and `shutdown` on a context after it was freed -/
  deadUses : List Nat

/-- What can happen: a callback of the loop runs, the running timer callback goes
on, or the loop does its housekeeping. -/
inductive UdpEvent where
  | add (c : Nat)
  | timer (ts : Timespec)
  | send (w : WriteOutcome)
  | roundDone
  | close (c : Nat)
  | release (c : Nat)

/-- The events of the loop's own housekeeping. -/
def UdpEvent.IsHousekeeping : UdpEvent → Prop
  | .close _ | .release _ => True
  | _ => False

namespace UdpClient

variable (a : NbSysArgs)

/-- The state in which `run` starts the loop: the bound context was handed over,
the table is `T`. -/
def start (ts : Timespec) (T : Bytes) : UdpClient where
  ctx := none
  lastTs := ts
  roundIndex := 0
  datas := T
  loop := .one
  shut := []
  freed := []
  sending := none
  log := []
  deadUses := []

/-- A call that takes the context `c`. -/
def useCtx (c : Nat) (s : UdpClient) : UdpClient :=
  { s with deadUses := if c ∈ s.freed then c :: s.deadUses else s.deadUses }

/-- `muggle_socket_ctx_shutdown`. -/
def shutdown (c : Nat) (s : UdpClient) : UdpClient :=
  { useCtx c s with shut := c :: s.shut }

/-- `udp_client_on_add_ctx`. -/
def onAddCtx (c : Nat) (s : UdpClient) : UdpClient := { s with ctx := some c }

/-- `udp_client_on_timer` up to its loop. -/
def onTimer (ts : Timespec) (s : UdpClient) : UdpClient :=
  if a.roundNum ≤ s.roundIndex then { s with log := s.log ++ [.exit] }
  else if s.ctx = none then s
  else if udpElapsedMs ts s.lastTs < a.roundIntervalMs then s
  else
    { s with
      lastTs := ts
      sending := some ⟨0, s.roundIndex * a.numPerRound,
        (s.roundIndex * a.numPerRound * a.msgSize).toNat⟩ }

/-- What one iteration of the loop leaves in the trace; `full` says whether the
send returned the size of the message. -/
def sendEvents (c : Nat) (l : Sending) (m buf acc : Bytes) (full : Bool) : List Ev :=
  nbAssert c .msgId (decide ((MsgHdr.decode m).msgId = 1)) ++
    (nbAssert c .sequence (decide ((MsgData.decode (m.drop sizeofMsgHdr)).sequence = l.seq)) ++
      ([.record c (a.record l.seq .clientSndBegin), .write c buf acc] ++
        if full then [.record c (a.record l.seq .clientSndEnd)] else []))

/-- One iteration of the loop of `udp_client_on_timer`, on the context `c`. -/
def sendOne (c : Nat) (l : Sending) (w : WriteOutcome) (s : UdpClient) : Option UdpClient := do
  let m ← Block.load s.datas l.p (sizeofMsgHdr + sizeofMsgData)
  let datas ← Block.store s.datas (l.p + 12) (u32Bytes l.seq)
  let buf ← Block.load datas l.p a.msgSize.toNat
  let r := ctxSendto w buf
  let full := decide (r.1 = castInt a.msgSize.toNat)
  let s' : UdpClient := useCtx c
    { s with datas := datas, log := s.log ++ sendEvents a c l m buf r.2 full }
  if full then
    some { s' with sending := some ⟨l.i + 1, l.seq + 1, l.p + a.msgSize.toNat⟩ }
  else
    some { shutdown c s' with sending := none }

/-- The steps of the client.  A callback or the housekeeping runs only while no
other callback does. -/
inductive Step : UdpClient → UdpEvent → UdpClient → Prop
  | add {s : UdpClient} {c : Nat} (hs : s.sending = none) (hc : c ∈ s.loop.queue) :
      Step s (.add c) (onAddCtx c { s with loop := s.loop.add c hc })
  | timer {s : UdpClient} {ts : Timespec} (hs : s.sending = none) :
      Step s (.timer ts) (onTimer a ts s)
  | send {s s' : UdpClient} {l : Sending} {c : Nat} {w : WriteOutcome}
      (hl : s.sending = some l) (hi : l.i < a.numPerRound) (hc : s.ctx = some c)
      (h : sendOne a c l w s = some s') : Step s (.send w) s'
  | roundDone {s : UdpClient} {l : Sending}
      (hl : s.sending = some l) (hi : ¬ l.i < a.numPerRound) :
      Step s .roundDone { s with sending := none, roundIndex := s.roundIndex + 1 }
  | close {s : UdpClient} {c : Nat} (hs : s.sending = none) (hc : c ∈ s.loop.live)
      (hshut : c ∈ s.shut) :
      Step s (.close c) { s with loop := s.loop.close c hc }
  | release {s : UdpClient} {c : Nat} (hs : s.sending = none) (hc : c ∈ s.loop.closed) :
      Step s (.release c) { s with loop := s.loop.release c, freed := c :: s.freed }

/-! ## What a callback can do -/

section Cases

variable {a}

/-- The length alone decides what a send returns. -/
theorem ctxSendto_fst {w : WriteOutcome} {buf : Bytes} {n : Nat} (h : buf.length = n) :
    (ctxSendto w buf).1 = sendtoResult w n := by
  rw [← h]
  rfl

/-- A timer call ends the loop, returns, or starts a round. -/
theorem onTimer_cases (a : NbSysArgs) (ts : Timespec) (s : UdpClient) :
    (a.roundNum ≤ s.roundIndex ∧ onTimer a ts s = { s with log := s.log ++ [.exit] }) ∨
    onTimer a ts s = s ∨
    (s.roundIndex < a.roundNum ∧ s.ctx ≠ none ∧
      a.roundIntervalMs ≤ udpElapsedMs ts s.lastTs ∧
      onTimer a ts s =
        { s with
          lastTs := ts
          sending := some ⟨0, s.roundIndex * a.numPerRound,
            (s.roundIndex * a.numPerRound * a.msgSize).toNat⟩ }) := by
  unfold onTimer
  by_cases hr : a.roundNum ≤ s.roundIndex
  · exact Or.inl ⟨hr, if_pos hr⟩
  · rw [if_neg hr]
    refine Or.inr ?_
    by_cases hc : s.ctx = none
    · exact Or.inl (if_pos hc)
    · rw [if_neg hc]
      by_cases he : udpElapsedMs ts s.lastTs < a.roundIntervalMs
      · exact Or.inl (if_pos he)
      · exact Or.inr ⟨UInt32.not_le.mp hr, hc, UInt32.not_lt.mp he, if_neg he⟩

/-- The timer changes the loop variables and the trace only. -/
structure SameCtx (s s' : UdpClient) : Prop where
  ctx : s'.ctx = s.ctx
  loop : s'.loop = s.loop
  shut : s'.shut = s.shut
  freed : s'.freed = s.freed
  deadUses : s'.deadUses = s.deadUses

theorem sameCtx_onTimer (a : NbSysArgs) (ts : Timespec) (s : UdpClient) :
    SameCtx s (onTimer a ts s) := by
  rcases onTimer_cases a ts s with ⟨_, h⟩ | h | ⟨_, _, _, h⟩
  · rw [h]
    exact ⟨rfl, rfl, rfl, rfl, rfl⟩
  · rw [h]
    exact ⟨rfl, rfl, rfl, rfl, rfl⟩
  · rw [h]
    exact ⟨rfl, rfl, rfl, rfl, rfl⟩

/-- An iteration reads its slice, writes the sequence back, and sends the message;
it goes on if the send returned `(int)msg_size`, and shuts the context down otherwise. -/
theorem sendOne_inv {c : Nat} {l : Sending} {w : WriteOutcome} {s s' : UdpClient}
    (h : sendOne a c l w s = some s') :
    ∃ m datas buf, Block.load s.datas l.p 16 = some m ∧
      Block.store s.datas (l.p + 12) (u32Bytes l.seq) = some datas ∧
      Block.load datas l.p a.msgSize.toNat = some buf ∧
      ((sendtoResult w a.msgSize.toNat = castInt a.msgSize.toNat ∧
        s' = { useCtx c { s with
            datas := datas, log := s.log ++ sendEvents a c l m buf (ctxSendto w buf).2 true } with
          sending := some ⟨l.i + 1, l.seq + 1, l.p + a.msgSize.toNat⟩ }) ∨
       (sendtoResult w a.msgSize.toNat ≠ castInt a.msgSize.toNat ∧
        s' = { shutdown c (useCtx c { s with
            datas := datas, log := s.log ++ sendEvents a c l m buf (ctxSendto w buf).2 false }) with
          sending := none })) := by
  simp only [sendOne, Option.bind_eq_bind, Option.bind_eq_some_iff] at h
  obtain ⟨m, hm, datas, hd, buf, hb, h⟩ := h
  rw [ctxSendto_fst (Block.length_of_load hb)] at h
  refine ⟨m, datas, buf, hm, hd, hb, ?_⟩
  by_cases hr : sendtoResult w a.msgSize.toNat = castInt a.msgSize.toNat
  · rw [decide_eq_true hr, if_pos rfl] at h
    exact Or.inl ⟨hr, (Option.some.inj h).symm⟩
  · rw [decide_eq_false hr, if_neg Bool.false_ne_true] at h
    exact Or.inr ⟨hr, (Option.some.inj h).symm⟩

/-- What an iteration does to its context: it uses it, and shuts it down unless the send
returned `(int)msg_size`. -/
theorem sendOne_cases {c : Nat} {l : Sending} {w : WriteOutcome} {s s' : UdpClient}
    (h : sendOne a c l w s = some s') :
    s'.ctx = s.ctx ∧ s'.loop = s.loop ∧ s'.freed = s.freed ∧
    (c ∉ s.freed → s'.deadUses = s.deadUses) ∧
    ((sendtoResult w a.msgSize.toNat = castInt a.msgSize.toNat ∧ s'.shut = s.shut) ∨
     (sendtoResult w a.msgSize.toNat ≠ castInt a.msgSize.toNat ∧ s'.shut = c :: s.shut ∧
        s'.sending = none)) := by
  obtain ⟨m, datas, buf, _, _, _, ⟨hr, rfl⟩ | ⟨hr, rfl⟩⟩ := sendOne_inv h
  · exact ⟨rfl, rfl, rfl, fun hc => if_neg hc, Or.inl ⟨hr, rfl⟩⟩
  · exact ⟨rfl, rfl, rfl, fun hc => (if_neg hc).trans (if_neg hc), Or.inr ⟨hr, rfl, rfl⟩⟩

end Cases

end UdpClient

end NetBench

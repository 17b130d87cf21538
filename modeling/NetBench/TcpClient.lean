/-
# `NetBench.TcpClient` — the TCP client

`tcp_client_handle.c` and the part of `run` that starts the loop.  A state is
`tcp_client_evloop_data_t` with the event loop, the contexts' sessions and what
has happened so far.  The callbacks run one at a time; connect threads run
beside them.

A call of `tcp_client_on_timer` is several steps, so that threads and other
processes can move between two messages of a round: `onTimer` is the function up
to its loop, `sendOne` one iteration, `roundDone` what follows the loop.
`sending` holds the variables of the loop while the call is in it.
-/
import NetBench.Session
import NetBench.Socket
import NetBench.Table
import NetBench.Lib.Run

namespace NetBench

open Lib

/-- `struct timespec`. -/
structure Timespec where
  tvSec : Int
  tvNsec : Int
  deriving DecidableEq, Repr

/-- `elapsed_ms` of the TCP client; division truncates. -/
def elapsedMs (ts last : Timespec) : Int :=
  (ts.tvSec - last.tvSec) * 1000 + ts.tvNsec.tdiv 1000000 - last.tvNsec.tdiv 1000000

/-- The variables of the loop in `tcp_client_on_timer`; `p` is an offset into `datas`. -/
structure Sending where
  i : UInt32
  seq : UInt32
  p : Nat
  deriving DecidableEq

/-- The state of the client during one `run`. -/
structure TcpClient (β : Type) where
  /-- `evloop_data->ctx` -/
  ctx : Option Nat
  lastTs : Timespec
  roundIndex : UInt32
  datas : Bytes
  loop : EventLoop
  /-- the contexts that were shut down -/
  shut : List Nat
  /-- `muggle_socket_ctx_get_data` -/
  session : Nat → Option (NbTcpSession β)
  sending : Option Sending
  log : List Ev

/-- What can happen: a connect thread finishes; a callback of the loop runs; the
running timer callback goes on. -/
inductive ClientEvent where
  | connected
  | add (c : Nat) (ts : Timespec) (nodelay : Bool)
  | timer (ts : Timespec)
  | send (w : WriteOutcome)
  | roundDone
  | message (c : Nat) (fuel : Nat) (cks : List Chunk)
  | close (c : Nat)
  | release (c : Nat)

/-- The record of message `seq`. -/
def NbSysArgs.record (a : NbSysArgs) (seq : UInt32) (x : Action) : Record :=
  ⟨a.userId, seq, a.msgSize, x⟩

namespace TcpClient

variable {β : Type} (a : NbSysArgs) (B : BytesBuffer β) (b₀ : β)

/-- The state in which `run` starts the loop: one context was connected and
handed over, the table is `T`. -/
def start (ts : Timespec) (T : Bytes) : TcpClient β where
  ctx := none
  lastTs := ts
  roundIndex := 0
  datas := T
  loop := .one
  shut := []
  session _ := none
  sending := none
  log := []

/-- `tcp_client_on_add_ctx`; `nodelay` says whether `muggle_setsockopt` succeeds. -/
def onAddCtx (c : Nat) (ts : Timespec) (nodelay : Bool) (s : TcpClient β) : TcpClient β :=
  if nodelay then
    { s with
      session := Function.update s.session c (some (nbTcpSessionNew b₀))
      ctx := some c
      lastTs := ⟨ts.tvSec + a.cliWait.toNat, ts.tvNsec⟩ }
  else { s with shut := c :: s.shut }

/-- `tcp_client_on_close`. -/
def onClose (c : Nat) (s : TcpClient β) : TcpClient β :=
  { s with
    log := s.log ++ nbAssert c .slot (decide (s.ctx = some c))
    ctx := none
    loop := s.loop.asyncConnect }

/-- `tcp_client_on_release`. -/
def onRelease (c : Nat) (s : TcpClient β) : TcpClient β :=
  { s with session := Function.update s.session c none }

/-- `tcp_client_on_message`; `tcp_client_handle_message` does nothing. -/
def onMessage (c fuel : Nat) (cks : List Chunk) (s : TcpClient β) : Option (TcpClient β) :=
  match s.session c with
  | none => some s
  | some ses =>
      (nbTcpSessionOnMsg B (fun s _ => s) fuel ses cks ()).map fun r =>
        { s with
          session := Function.update s.session c (some r.session)
          shut := if r.shut then c :: s.shut else s.shut }

/-- `tcp_client_on_timer` up to its loop. -/
def onTimer (ts : Timespec) (s : TcpClient β) : TcpClient β :=
  if a.roundNum ≤ s.roundIndex then { s with log := s.log ++ [.exit] }
  else if s.ctx = none then s
  else if elapsedMs ts s.lastTs < a.roundIntervalMs.toNat then s
  else
    { s with
      lastTs := ts
      sending := some ⟨0, s.roundIndex * a.numPerRound,
        (s.roundIndex * a.numPerRound * a.msgSize).toNat⟩ }

/-- What one iteration of the loop leaves in the trace: `m` is the start of the
slice as it was read, `buf` the message written, `acc` what was accepted. -/
def sendEvents (c : Nat) (l : Sending) (m buf acc : Bytes) : List Ev :=
  nbAssert c .msgId (decide ((MsgHdr.decode m).msgId = 1)) ++
    (nbAssert c .sequence (decide ((MsgData.decode (m.drop sizeofMsgHdr)).sequence = l.seq)) ++
      [.record c (a.record l.seq .clientSndBegin), .write c buf acc,
        .record c (a.record l.seq .clientSndEnd)])

/-- One iteration of the loop of `tcp_client_on_timer`, on the context `c`.  It
fails where the program would leave the table. -/
def sendOne (c : Nat) (l : Sending) (w : WriteOutcome) (s : TcpClient β) :
    Option (TcpClient β) := do
  let m ← Block.load s.datas l.p (sizeofMsgHdr + sizeofMsgData)
  let datas ← Block.store s.datas (l.p + 12) (u32Bytes l.seq)
  let buf ← Block.load datas l.p a.msgSize.toNat
  let r := ctxWrite (decide (c ∈ s.shut)) w buf
  let log := s.log ++ sendEvents a c l m buf r.2
  if r.1 = castInt a.msgSize.toNat then
    some { s with
      datas := datas
      log := log
      sending := some ⟨l.i + 1, l.seq + 1, l.p + a.msgSize.toNat⟩ }
  else
    some { s with datas := datas, log := log, sending := none, shut := c :: s.shut }

/-- The steps of the client.  A callback runs only while no other one does. -/
inductive Step : TcpClient β → ClientEvent → TcpClient β → Prop
  | connected {s : TcpClient β} (ht : 0 < s.loop.threads) :
      Step s .connected { s with loop := s.loop.connected }
  | add {s : TcpClient β} {c : Nat} {ts : Timespec} {nodelay : Bool}
      (hs : s.sending = none) (hc : c ∈ s.loop.queue) :
      Step s (.add c ts nodelay) (onAddCtx a b₀ c ts nodelay { s with loop := s.loop.add c hc })
  | timer {s : TcpClient β} {ts : Timespec} (hs : s.sending = none) :
      Step s (.timer ts) (onTimer a ts s)
  | send {s s' : TcpClient β} {l : Sending} {c : Nat} {w : WriteOutcome}
      (hl : s.sending = some l) (hi : l.i < a.numPerRound) (hc : s.ctx = some c)
      (h : sendOne a c l w s = some s') : Step s (.send w) s'
  | roundDone {s : TcpClient β} {l : Sending}
      (hl : s.sending = some l) (hi : ¬ l.i < a.numPerRound) :
      Step s .roundDone { s with sending := none, roundIndex := s.roundIndex + 1 }
  | message {s s' : TcpClient β} {c fuel : Nat} {cks : List Chunk}
      (hs : s.sending = none) (hc : c ∈ s.loop.live) (h : onMessage B c fuel cks s = some s') :
      Step s (.message c fuel cks) s'
  | close {s : TcpClient β} {c : Nat} (hs : s.sending = none) (hc : c ∈ s.loop.live) :
      Step s (.close c) (onClose c { s with loop := s.loop.close c hc })
  | release {s : TcpClient β} {c : Nat} (hs : s.sending = none) (hc : c ∈ s.loop.closed) :
      Step s (.release c) (onRelease c { s with loop := s.loop.release c })

/-! ## What a callback can do -/

section Cases

variable {a B b₀}

/-- A message changes the session of its context and perhaps shuts it down. -/
theorem onMessage_cases {c fuel : Nat} {cks : List Chunk} {s s' : TcpClient β}
    (h : onMessage B c fuel cks s = some s') :
    s' = s ∨ ∃ ses ses' shut, s.session c = some ses ∧
      (shut = s.shut ∨ shut = c :: s.shut) ∧
      s' = { s with session := Function.update s.session c (some ses'), shut := shut } := by
  unfold onMessage at h
  cases hses : s.session c with
  | none =>
      rw [hses] at h
      cases h
      exact Or.inl rfl
  | some ses =>
      rw [hses] at h
      obtain ⟨r, _, rfl⟩ := Option.map_eq_some_iff.mp h
      refine Or.inr ⟨ses, r.session, _, rfl, ?_, rfl⟩
      cases r.shut with
      | true => exact Or.inr rfl
      | false => exact Or.inl rfl

/-- A timer call ends the loop, returns, or starts a round. -/
theorem onTimer_cases (a : NbSysArgs) (ts : Timespec) (s : TcpClient β) :
    (a.roundNum ≤ s.roundIndex ∧ onTimer a ts s = { s with log := s.log ++ [.exit] }) ∨
    onTimer a ts s = s ∨
    (∃ c, s.roundIndex < a.roundNum ∧ s.ctx = some c ∧
      (a.roundIntervalMs.toNat : Int) ≤ elapsedMs ts s.lastTs ∧
      onTimer a ts s =
        { s with
          lastTs := ts
          sending := some ⟨0, s.roundIndex * a.numPerRound,
            (s.roundIndex * a.numPerRound * a.msgSize).toNat⟩ }) := by
  unfold onTimer
  by_cases hr : a.roundNum ≤ s.roundIndex
  · exact Or.inl ⟨hr, by rw [if_pos hr]⟩
  · rw [if_neg hr]
    refine Or.inr ?_
    cases hc : s.ctx with
    | none => exact Or.inl (if_pos rfl)
    | some c =>
        rw [if_neg (fun h => nomatch h)]
        by_cases he : elapsedMs ts s.lastTs < a.roundIntervalMs.toNat
        · exact Or.inl (if_pos he)
        · exact Or.inr ⟨c, UInt32.not_le.mp hr, rfl, Int.not_lt.mp he, if_neg he⟩

/-- An iteration reads its slice, writes the sequence back, and writes the
message; it goes on if all of it was accepted, and shuts the context down
otherwise. -/
theorem sendOne_cases {c : Nat} {l : Sending} {w : WriteOutcome} {s s' : TcpClient β}
    (h : sendOne a c l w s = some s') :
    ∃ m datas buf, Block.load s.datas l.p 16 = some m ∧
      Block.store s.datas (l.p + 12) (u32Bytes l.seq) = some datas ∧
      Block.load datas l.p a.msgSize.toNat = some buf ∧
      (((ctxWrite (decide (c ∈ s.shut)) w buf).1 = castInt a.msgSize.toNat ∧
        s' = { s with
          datas := datas
          log := s.log ++ sendEvents a c l m buf (ctxWrite (decide (c ∈ s.shut)) w buf).2
          sending := some ⟨l.i + 1, l.seq + 1, l.p + a.msgSize.toNat⟩ }) ∨
       ((ctxWrite (decide (c ∈ s.shut)) w buf).1 ≠ castInt a.msgSize.toNat ∧
        s' = { s with
          datas := datas
          log := s.log ++ sendEvents a c l m buf (ctxWrite (decide (c ∈ s.shut)) w buf).2
          sending := none
          shut := c :: s.shut })) := by
  simp only [sendOne, Option.bind_eq_bind, Option.bind_eq_some_iff] at h
  obtain ⟨m, hm, datas, hd, buf, hb, h⟩ := h
  refine ⟨m, datas, buf, hm, hd, hb, ?_⟩
  split at h
  · rename_i hr
    exact Or.inl ⟨hr, (Option.some.inj h).symm⟩
  · rename_i hr
    exact Or.inr ⟨hr, (Option.some.inj h).symm⟩

end Cases

end TcpClient

end NetBench

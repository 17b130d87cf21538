/-
# `NetBench.TcpServer` — the relay

`tcp_server_handle.c` and the part of `run` that starts the loop.  The server
accepts clients, keeps one connection to the upstream and writes every message
of a client to it.

A call of `nb_tcp_session_on_msg` is several steps, so that threads and other
processes can move in between: `phase` says in which of its two loops it is, and
`read` and `parse` are one iteration each.  The loop's thread runs one callback
at a time.
-/
import NetBench.Received
import NetBench.Wire

namespace NetBench

open Lib

/-- `MUGGLE_SOCKET_CTX_TYPE_*`, of the contexts that the server gives to its loop. -/
inductive CtxType where
  | tcpListen
  | tcpClient
  deriving DecidableEq

/-- `muggle_socket_ctx_type`: context `0` is the one of `nb_tcp_listen`, all others
that are added come from `nb_tcp_connect`. -/
def ctxType (c : Nat) : CtxType := if c = 0 then .tcpListen else .tcpClient

/-- The state of the server. -/
structure TcpServer (β : Type) where
  /-- `evloop_data->listen_ctx` -/
  listenCtx : Option Nat
  /-- `evloop_data->conn_ctx` -/
  connCtx : Option Nat
  loop : EventLoop
  /-- the contexts that were shut down -/
  shut : List Nat
  /-- `muggle_socket_ctx_get_data` -/
  session : Nat → Option (NbTcpSession β)
  phase : Phase
  log : List Ev
  /-- the contexts that the listener has accepted -/
  accepted : List Nat
  /-- the bytes read from each context -/
  got : Nat → Bytes

/-- What can happen to the server: a connect thread finishes; a callback of the
loop runs; the running `nb_tcp_session_on_msg` makes an iteration. -/
inductive ServerEvent where
  | connected
  | add (c : Nat) (nodelay : Bool)
  | connect (nodelay : Bool)
  | message (c : Nat)
  | read (r : Option Chunk)
  | parse (w : WriteOutcome)
  | close (c : Nat)
  | release (c : Nat)

namespace TcpServer

variable {β : Type} (B : BytesBuffer β) (b₀ : β)

/-- The contexts that `run` has handed over when it starts the loop: the listener
and the first connection to the upstream. -/
def startLoop : EventLoop := ⟨2, 0, [0, 1], [], [], by decide, by decide⟩

/-- The state in which `run` starts the loop. -/
def start : TcpServer β where
  listenCtx := none
  connCtx := none
  loop := startLoop
  shut := []
  session _ := none
  phase := .idle
  log := []
  accepted := []
  got _ := []

/-- `muggle_socket_ctx_shutdown`. -/
def shutdown (c : Nat) (s : TcpServer β) : TcpServer β := { s with shut := c :: s.shut }

/-- `nb_tcp_session_new` with a role, stored in the context `c`. -/
def newSession (c : Nat) (role : SessionRole) (s : TcpServer β) : TcpServer β :=
  { s with
    session := Function.update s.session c (some { nbTcpSessionNew b₀ with role := role }) }

/-- `tcp_server_on_add_ctx`.  After a failed `setsockopt` it goes on. -/
def onAddCtx (c : Nat) (nodelay : Bool) (s : TcpServer β) : TcpServer β :=
  match ctxType c with
  | .tcpListen => { s with listenCtx := some c }
  | .tcpClient =>
      let s : TcpServer β := { s with connCtx := some c }
      newSession b₀ c .upstream (if nodelay then s else shutdown c s)

/-- `tcp_server_on_connect`.  After a failed `setsockopt` it returns. -/
def onConnect (c : Nat) (nodelay : Bool) (s : TcpServer β) : TcpServer β :=
  if nodelay then newSession b₀ c .client s else shutdown c s

/-- `tcp_server_on_close`. -/
def onClose (c : Nat) (s : TcpServer β) : TcpServer β :=
  match s.session c with
  | none => s
  | some ses =>
      match ses.role with
      | .upstream => { s with loop := s.loop.asyncConnect, connCtx := none }
      | .client => s
      | .null => s

/-- `tcp_server_on_release`. -/
def onRelease (c : Nat) (s : TcpServer β) : TcpServer β :=
  { s with session := Function.update s.session c none }

/-- What `tcp_server_handle_message` does with a message of a client: it records
it and writes it to the upstream, if there is one. -/
def relay (c : Nat) (m : Callback) (w : WriteOutcome) (s : TcpServer β) : TcpServer β :=
  let s : TcpServer β := { s with log := s.log ++ [.record c (m.key.record .serverRcv)] }
  match s.connCtx with
  | none => s
  | some u =>
      let buf := m.mem.take m.msgSize.toNat
      let r := ctxWrite (decide (u ∈ s.shut)) w buf
      let s : TcpServer β := { s with
        log := s.log ++ [.record c (m.key.record .serverSndBegin), .write u buf r.2] }
      if r.1 = castInt (m.datalen.toNat + sizeofMsgHdr) then s else shutdown u s

/-- `tcp_server_handle_message`. -/
def handleMessage (c : Nat) (m : Callback) (w : WriteOutcome) (s : TcpServer β) : TcpServer β :=
  let s : TcpServer β := { s with log := s.log ++ nbAssert c .msgId (decide (m.hdr.msgId = 1)) }
  match s.session c with
  | none => s
  | some ses =>
      match ses.role with
      | .client => relay c m w s
      | .upstream => s
      | .null => s

/-- The session of `c` has a new buffer. -/
def setBuf (c : Nat) (ses : NbTcpSession β) (b : β) (s : TcpServer β) : TcpServer β :=
  { s with session := Function.update s.session c (some { ses with bytesBuf := b }) }

/-- An iteration of the read loop on `c`. -/
def readOne (c : Nat) (ses : NbTcpSession β) (r : Option Chunk) (s : TcpServer β) : TcpServer β :=
  match readIter B ses.bytesBuf r with
  | .next b =>
      { setBuf c ses b s with
        got := Function.update s.got c (s.got c ++ (r.map Chunk.bytes).getD []) }
  | .stop b .fault => { shutdown c (setBuf c ses b s) with phase := .idle }
  | .stop b _ => { setBuf c ses b s with phase := .parsing c }

/-- The part of the state that the read loop works on. -/
def readState (s : TcpServer β) : ReadState β := ⟨s.session, s.phase, s.got⟩

theorem readState_readOne (s : TcpServer β) (c : Nat) (ses : NbTcpSession β) (r : Option Chunk) :
    (readOne B c ses r s).readState = s.readState.readOne B c ses r := by
  unfold readOne ReadState.readOne
  cases readIter B ses.bytesBuf r with
  | next b => rfl
  | stop b e =>
      cases e with
      | drained => rfl
      | full => rfl
      | fault => rfl

/-- An iteration of the parse loop on `c`. -/
def parseOne (c : Nat) (ses : NbTcpSession β) (w : WriteOutcome) (s : TcpServer β) : TcpServer β :=
  match parseIter B ses.msgLenLimit ses.bytesBuf with
  | .stop b shut =>
      let s : TcpServer β := { setBuf c ses b s with phase := .idle }
      if shut then shutdown c s else s
  | .deliver m b => setBuf c ses b (handleMessage c m w s)
  | .deliverStop m b => { shutdown c (setBuf c ses b (handleMessage c m w s)) with phase := .idle }

/-- The steps of the server. -/
inductive Step : TcpServer β → ServerEvent → TcpServer β → Prop
  | connected {s : TcpServer β} (ht : 0 < s.loop.threads) :
      Step s .connected { s with loop := s.loop.connected }
  | add {s : TcpServer β} {c : Nat} {nodelay : Bool}
      (hp : s.phase = .idle) (hc : c ∈ s.loop.queue) :
      Step s (.add c nodelay) (onAddCtx b₀ c nodelay { s with loop := s.loop.add c hc })
  | connect {s : TcpServer β} {nodelay : Bool} (hp : s.phase = .idle) :
      Step s (.connect nodelay) (onConnect b₀ s.loop.next nodelay
        { s with loop := s.loop.accept, accepted := s.loop.next :: s.accepted })
  | messageNone {s : TcpServer β} {c : Nat} (hp : s.phase = .idle) (hc : c ∈ s.loop.live)
      (hses : s.session c = none) : Step s (.message c) s
  | message {s : TcpServer β} {c : Nat} {ses : NbTcpSession β} (hp : s.phase = .idle)
      (hc : c ∈ s.loop.live) (hses : s.session c = some ses) :
      Step s (.message c) { s with phase := .reading c }
  | read {s : TcpServer β} {c : Nat} {ses : NbTcpSession β} {r : Option Chunk}
      (hp : s.phase = .reading c) (hses : s.session c = some ses) :
      Step s (.read r) (readOne B c ses r s)
  | parse {s : TcpServer β} {c : Nat} {ses : NbTcpSession β} {w : WriteOutcome}
      (hp : s.phase = .parsing c) (hses : s.session c = some ses) :
      Step s (.parse w) (parseOne B c ses w s)
  | close {s : TcpServer β} {c : Nat} (hp : s.phase = .idle) (hc : c ∈ s.loop.live) :
      Step s (.close c) (onClose c { s with loop := s.loop.close c hc })
  | release {s : TcpServer β} {c : Nat} (hp : s.phase = .idle) (hc : c ∈ s.loop.closed) :
      Step s (.release c) (onRelease c { s with loop := s.loop.release c })

/-! ## What a message can do -/

section Cases

variable {B b₀} {s : TcpServer β} {c u : Nat} {m : Callback} {w : WriteOutcome}

/-- Without an upstream the message is recorded and dropped. -/
theorem relay_none (h : s.connCtx = none) : relay c m w s =
    { s with log := s.log ++ [.record c (m.key.record .serverRcv)] } := by
  obtain ⟨listenCtx, connCtx, loop, shut, session, phase, log, accepted, got⟩ := s
  cases h
  rfl

/-- With one it is recorded twice and written; a write that is not full shuts the
upstream down. -/
theorem relay_some (h : s.connCtx = some u) : relay c m w s =
    { s with
      log := s.log ++ [.record c (m.key.record .serverRcv), .record c (m.key.record .serverSndBegin),
        .write u (m.mem.take m.msgSize.toNat)
          (ctxWrite (decide (u ∈ s.shut)) w (m.mem.take m.msgSize.toNat)).2]
      shut :=
        if (ctxWrite (decide (u ∈ s.shut)) w (m.mem.take m.msgSize.toNat)).1 =
          castInt (m.datalen.toNat + sizeofMsgHdr) then s.shut else u :: s.shut } := by
  obtain ⟨listenCtx, connCtx, loop, shut, session, phase, log, accepted, got⟩ := s
  cases h
  simp only [relay, shutdown, List.append_assoc, List.singleton_append]
  by_cases hfull : (ctxWrite (decide (u ∈ shut)) w (m.mem.take m.msgSize.toNat)).1 =
      castInt (m.datalen.toNat + sizeofMsgHdr)
  · simp only [hfull, if_true]
  · simp only [hfull, if_false]

/-- The state after the assertion of `tcp_server_handle_message`. -/
def asserted (c : Nat) (m : Callback) (s : TcpServer β) : TcpServer β :=
  { s with log := s.log ++ nbAssert c .msgId (decide (m.hdr.msgId = 1)) }

/-- A message of a client is relayed. -/
theorem handleMessage_client {ses : NbTcpSession β} (hses : s.session c = some ses)
    (hrole : ses.role = .client) : handleMessage c m w s = relay c m w (asserted c m s) := by
  simp only [handleMessage, hses, hrole, asserted]

/-- Any other message leaves nothing but the assertion. -/
theorem handleMessage_other {ses : NbTcpSession β} (hses : s.session c = some ses)
    (hrole : ses.role ≠ .client) : handleMessage c m w s = asserted c m s := by
  simp only [handleMessage, hses, asserted]
  cases hr : ses.role with
  | client => exact absurd hr hrole
  | upstream => rfl
  | null => rfl

end Cases

end TcpServer

end NetBench

/-
# `NetBench.UdpReceive` — the two receivers of the UDP chain

`udp_server_handle.c` and `udp_upstream_handle.c`.  Each message callback reads one
datagram into a buffer of 1024 bytes on its stack; what the datagram has beyond them is
discarded by the read.  The bytes that the read does not write are those that were on the
stack before.

Of a datagram of at least 16 bytes a callback leaves the record of its first 1024 bytes,
and hands on nothing but these (`Received`).
-/
import NetBench.UdpClient

namespace NetBench

open Lib

/-! ## Addresses -/

/-- `struct sockaddr`, as far as `nb_sockaddr_equal` looks into it. -/
inductive SockAddr where
  | inet (port : UInt16) (addr : UInt32)
  | inet6 (port : UInt16) (addr : BitVec 128)
  | other (family : UInt16)
  deriving DecidableEq, Repr

/-- `nb_sockaddr_equal`: addresses of another family than the two are never equal. -/
def nbSockaddrEqual : SockAddr → SockAddr → Bool
  | .inet p x, .inet q y => p == q && x == y
  | .inet6 p x, .inet6 q y => p == q && x == y
  | _, _ => false

/-! ## What a callback leaves -/

/-- The asserted conditions of the receivers. -/
inductive RecvAssertion where
  /-- `hdr->msg_id == 1` -/
  | msgId
  /-- `(int)(sizeof(nb_msg_hdr_t) + hdr->payload_len) == num_bytes` -/
  | numBytes
  deriving DecidableEq, Repr

/-- What happens on the event-loop thread of a receiver. -/
inductive RecvEv where
  /-- `NETBENCH_RECORD` -/
  | record (r : Record)
  /-- a failed `NB_ASSERT`; execution goes on -/
  | assertFailed (x : RecvAssertion)
  /-- `muggle_socket_ctx_sendto` of `buf` to `dst`, of which `acc` was accepted -/
  | sendto (c : Nat) (dst : SockAddr) (buf acc : Bytes)
  deriving DecidableEq

/-- `NB_ASSERT`. -/
def recvAssert (x : RecvAssertion) (ok : Bool) : List RecvEv :=
  if ok then [] else [.assertFailed x]

/-- The record of an event, if it has the action `act`. -/
def RecvEv.recordOf (act : Action) : RecvEv → Option Record
  | .record r => if r.action = act then some r else none
  | _ => none

/-- The records with the action `act`, in order. -/
def recvRecords (act : Action) (evs : List RecvEv) : List Record :=
  evs.filterMap (RecvEv.recordOf act)

@[simp] theorem recvRecords_append (act : Action) (l l' : List RecvEv) :
    recvRecords act (l ++ l') = recvRecords act l ++ recvRecords act l' :=
  List.filterMap_append

@[simp] theorem recvRecords_recvAssert (act : Action) (x : RecvAssertion) (ok : Bool) :
    recvRecords act (recvAssert x ok) = [] := by
  cases ok with
  | true => rfl
  | false => rfl

theorem mem_recvAssert {x : RecvAssertion} {ok : Bool} {e : RecvEv} :
    e ∈ recvAssert x ok ↔ ok = false ∧ e = .assertFailed x := by
  cases ok with
  | true => exact iff_of_false (fun h => nomatch h) (fun h => nomatch h.1)
  | false => simp [recvAssert]

/-! ## Reading -/

/-- The size of `char buf[1024]`. -/
def sizeofBuf : Nat := 1024

/-- `muggle_socket_ctx_recvfrom` and `muggle_socket_ctx_read` on a datagram socket, into
`buf`: the value returned and the buffer after the call. -/
def recvInto (buf : Bytes) : Option Bytes → Int × Bytes
  | none => (-1, buf)
  | some d => (castInt (min buf.length d.length), d.take buf.length ++ buf.drop d.length)

/-- The assertions on the `numBytes` bytes in `buf`, and their record. -/
def recvEvents (act : Action) (buf : Bytes) (numBytes : Int) : List RecvEv :=
  let hdr := MsgHdr.decode buf
  let msg := MsgData.decode (buf.drop sizeofMsgHdr)
  recvAssert .msgId (decide (hdr.msgId = 1)) ++
    (recvAssert .numBytes (decide (castInt (sizeofMsgHdr + hdr.payloadLen.toNat) = numBytes)) ++
      [.record ⟨msg.userId, msg.sequence, UInt32.ofInt numBytes, act⟩])

/-! ## The server -/

/-- `udp_server_evloop_data_t` with the event loop. -/
structure UdpServer where
  /-- `evloop_data->ctx` -/
  ctx : Option Nat
  upstreamSa : SockAddr
  loop : EventLoop
  log : List RecvEv

/-- What can happen to the server: a callback of the loop runs, or the loop does its
housekeeping. -/
inductive UdpServerEvent where
  | add (c : Nat)
  /-- the read gives the datagram `r` from `src`, or fails -/
  | message (c : Nat) (src : SockAddr) (r : Option Bytes) (stack : Bytes) (w : WriteOutcome)
  | close (c : Nat)
  | release (c : Nat)

/-- The datagram that an event takes off the socket. -/
def UdpServerEvent.datagram : UdpServerEvent → Option Bytes
  | .message _ _ r _ _ => r
  | _ => none

namespace UdpServer

/-- The state in which `run` starts the loop: the bound context was handed over. -/
def start (upstreamSa : SockAddr) : UdpServer := ⟨none, upstreamSa, .one, []⟩

/-- `udp_server_on_add_ctx`. -/
def onAddCtx (c : Nat) (s : UdpServer) : UdpServer := { s with ctx := some c }

/-- What forwarding the `numBytes` bytes in `buf` on `c` leaves. -/
def sendEvents (c : Nat) (sa : SockAddr) (w : WriteOutcome) (buf : Bytes) (numBytes : Int) :
    List RecvEv :=
  let msg := MsgData.decode (buf.drop sizeofMsgHdr)
  let out := buf.take numBytes.toNat
  [.record ⟨msg.userId, msg.sequence, UInt32.ofInt numBytes, .serverSndBegin⟩,
    .sendto c sa out (ctxSendto w out).2]

/-- `udp_upstream_on_message` of the server; it fails if it sends while
`evloop_data->ctx` is null. -/
def onMessage (src : SockAddr) (r : Option Bytes) (stack : Bytes) (w : WriteOutcome)
    (s : UdpServer) : Option UdpServer :=
  match recvInto stack r with
  | (numBytes, buf) =>
    if numBytes ≤ 0 then some s
    else
      let rcv := recvEvents .serverRcv buf numBytes
      if nbSockaddrEqual s.upstreamSa src then some { s with log := s.log ++ rcv }
      else
        s.ctx.map fun c =>
          { s with log := s.log ++ (rcv ++ sendEvents c s.upstreamSa w buf numBytes) }

/-- The steps of the server. -/
inductive Step : UdpServer → UdpServerEvent → UdpServer → Prop
  | add {s : UdpServer} {c : Nat} (hc : c ∈ s.loop.queue) :
      Step s (.add c) (onAddCtx c { s with loop := s.loop.add c hc })
  | message {s s' : UdpServer} {c : Nat} {src : SockAddr} {r : Option Bytes} {stack : Bytes}
      {w : WriteOutcome} (hc : c ∈ s.loop.live) (hstack : stack.length = sizeofBuf)
      (h : onMessage src r stack w s = some s') : Step s (.message c src r stack w) s'
  | close {s : UdpServer} {c : Nat} (hc : c ∈ s.loop.live) :
      Step s (.close c) { s with loop := s.loop.close c hc }
  | release {s : UdpServer} {c : Nat} (hc : c ∈ s.loop.closed) :
      Step s (.release c) { s with loop := s.loop.release c }

end UdpServer

/-! ## The upstream -/

/-- The state of the upstream; its event loop has no data. -/
structure UdpUpstream where
  loop : EventLoop
  log : List RecvEv

/-- What can happen to the upstream; no callback is registered for `add`. -/
inductive UdpUpstreamEvent where
  | add (c : Nat)
  | message (c : Nat) (r : Option Bytes) (stack : Bytes)
  | close (c : Nat)
  | release (c : Nat)

/-- The datagram that an event takes off the socket. -/
def UdpUpstreamEvent.datagram : UdpUpstreamEvent → Option Bytes
  | .message _ r _ => r
  | _ => none

namespace UdpUpstream

def start : UdpUpstream := ⟨.one, []⟩

/-- `udp_upstream_on_message` of the upstream. -/
def onMessage (r : Option Bytes) (stack : Bytes) (s : UdpUpstream) : UdpUpstream :=
  match recvInto stack r with
  | (numBytes, buf) =>
    if numBytes ≤ 0 then s else { s with log := s.log ++ recvEvents .upstreamRcv buf numBytes }

/-- The steps of the upstream. -/
inductive Step : UdpUpstream → UdpUpstreamEvent → UdpUpstream → Prop
  | add {s : UdpUpstream} {c : Nat} (hc : c ∈ s.loop.queue) :
      Step s (.add c) { s with loop := s.loop.add c hc }
  | message {s : UdpUpstream} {c : Nat} {r : Option Bytes} {stack : Bytes}
      (hc : c ∈ s.loop.live) (hstack : stack.length = sizeofBuf) :
      Step s (.message c r stack) (onMessage r stack s)
  | close {s : UdpUpstream} {c : Nat} (hc : c ∈ s.loop.live) :
      Step s (.close c) { s with loop := s.loop.close c hc }
  | release {s : UdpUpstream} {c : Nat} (hc : c ∈ s.loop.closed) :
      Step s (.release c) { s with loop := s.loop.release c }

end UdpUpstream

/-! ## One datagram -/

/-- The part of a datagram that fits the buffer. -/
def fitting (d : Bytes) : Bytes := d.take sizeofBuf

/-- The record of the bytes `b` with the action `act`. -/
def recordOfBytes (act : Action) (b : Bytes) : Record :=
  ⟨(MsgData.decode (b.drop sizeofMsgHdr)).userId, (MsgData.decode (b.drop sizeofMsgHdr)).sequence,
    UInt32.ofNat b.length, act⟩

/-- What a callback leaves that has read the datagram `d`: its record is that of the bytes
that fit the buffer, the assertion on the length is about these bytes, and no others are
sent. -/
structure Received (act : Action) (d : Bytes) (evs : List RecvEv) : Prop where
  records : recvRecords act evs = [recordOfBytes act (fitting d)]
  numBytes : .assertFailed .numBytes ∈ evs ↔
    castInt (sizeofMsgHdr + (MsgHdr.decode d).payloadLen.toNat) ≠ (fitting d).length
  sent : ∀ {c dst buf acc}, .sendto c dst buf acc ∈ evs → buf = fitting d

/-- A length that an `int` holds is recorded as it is. -/
theorem ofInt_natCast {n : Nat} (h : n < 2 ^ 32) : UInt32.ofInt n = UInt32.ofNat n := by
  have hmod : (n : Int) % 2 ^ 32 = n := Int.emod_eq_of_lt (by omega) (by omega)
  rw [UInt32.ofInt, hmod, Int.toNat_natCast]

theorem length_fitting (d : Bytes) : (fitting d).length = min 1024 d.length := List.length_take

theorem fitting_of_le {d : Bytes} (h : d.length ≤ 1024) : fitting d = d := List.take_of_length_le h

/-- The buffer after the read starts with the bytes that fit it. -/
theorem recvInto_some {stack : Bytes} (hstack : stack.length = sizeofBuf) (d : Bytes) :
    recvInto stack (some d) = (((fitting d).length : Int), fitting d ++ stack.drop d.length) := by
  have hlen : min stack.length d.length = (fitting d).length := by
    rw [hstack, length_fitting]
    rfl
  have hlt : (fitting d).length < 2 ^ 31 := by
    rw [length_fitting]
    exact Nat.lt_of_le_of_lt (Nat.min_le_left _ _) (by decide)
  rw [recvInto, hlen, castInt_of_lt hlt, hstack]
  rfl

section Spec

variable {act : Action} {d rest : Bytes}

theorem le_length_fitting (hd : 16 ≤ d.length) : 16 ≤ (fitting d).length := by
  rw [length_fitting]
  exact Nat.le_min.mpr ⟨by decide, hd⟩

/-- The structures lie in the bytes that were read. -/
theorem hdr_of_fitting (hd : 16 ≤ d.length) :
    MsgHdr.decode (fitting d ++ rest) = MsgHdr.decode d := by
  have h := le_length_fitting hd
  rw [MsgHdr.decode_append (by omega)]
  exact MsgHdr.decode_take (by omega) (by decide)

theorem data_of_fitting (hd : 16 ≤ d.length) :
    MsgData.decode ((fitting d ++ rest).drop sizeofMsgHdr) =
      MsgData.decode ((fitting d).drop sizeofMsgHdr) := by
  have h := le_length_fitting hd
  have hrest : 8 ≤ ((fitting d).drop 8).length := by
    rw [List.length_drop]
    omega
  rw [List.drop_append_of_le_length (show 8 ≤ (fitting d).length by omega)]
  exact MsgData.decode_append hrest _

/-- The common part of the two callbacks. -/
theorem received_recvEvents (hd : 16 ≤ d.length) :
    Received act d (recvEvents act (fitting d ++ rest) (fitting d).length) := by
  have hrecord : recvEvents act (fitting d ++ rest) (fitting d).length =
      recvAssert .msgId (decide ((MsgHdr.decode d).msgId = 1)) ++
        (recvAssert .numBytes (decide (castInt (sizeofMsgHdr + (MsgHdr.decode d).payloadLen.toNat) =
          (fitting d).length)) ++ [.record (recordOfBytes act (fitting d))]) := by
    have hlen : (fitting d).length < 2 ^ 32 := by
      rw [length_fitting]
      exact Nat.lt_of_le_of_lt (Nat.min_le_left _ _) (by decide)
    rw [recvEvents, hdr_of_fitting hd, data_of_fitting hd, ofInt_natCast hlen]
    rfl
  rw [hrecord]
  refine ⟨?_, ?_, ?_⟩
  · rw [recvRecords_append, recvRecords_append, recvRecords_recvAssert, recvRecords_recvAssert]
    exact List.filterMap_cons_some (if_pos rfl)
  · simp [mem_recvAssert]
  · intro c dst buf acc h
    simp [mem_recvAssert] at h

end Spec

/-- The callback of the server at the datagram `d`. -/
theorem UdpServer.onMessage_some {stack : Bytes} (hstack : stack.length = sizeofBuf) {d : Bytes}
    (hd : 16 ≤ d.length) (src : SockAddr) (w : WriteOutcome) (s : UdpServer) :
    ∃ (rcv : List RecvEv) (snd : Nat → List RecvEv), Received .serverRcv d rcv ∧
      (∀ c, Received .serverRcv d (rcv ++ snd c)) ∧
      (∀ c, .sendto c s.upstreamSa (fitting d) (ctxSendto w (fitting d)).2 ∈ snd c) ∧
      UdpServer.onMessage src (some d) stack w s =
        if nbSockaddrEqual s.upstreamSa src then some { s with log := s.log ++ rcv }
        else s.ctx.map fun c => { s with log := s.log ++ (rcv ++ snd c) } := by
  have hpos : ¬ ((fitting d).length : Int) ≤ 0 := by
    have := le_length_fitting hd
    omega
  have hrcv : Received .serverRcv d (recvEvents .serverRcv (fitting d ++ stack.drop d.length)
      (fitting d).length) := received_recvEvents hd
  have hout : (fitting d ++ stack.drop d.length).take ((fitting d).length : Int).toNat = fitting d :=
    List.take_left
  refine ⟨_, fun c => UdpServer.sendEvents c s.upstreamSa w (fitting d ++ stack.drop d.length)
    (fitting d).length, hrcv, fun c => ⟨?_, ?_, ?_⟩, fun c => ?_, ?_⟩
  · rw [recvRecords_append, hrcv.records]
    exact List.append_nil _
  · rw [List.mem_append, hrcv.numBytes]
    exact or_iff_left (fun h => by simp [UdpServer.sendEvents] at h)
  · intro c₁ dst buf acc hmem
    rcases List.mem_append.mp hmem with hmem | hmem
    · exact hrcv.sent hmem
    · simp only [UdpServer.sendEvents, hout, List.mem_cons, List.not_mem_nil, or_false,
        reduceCtorEq, false_or, RecvEv.sendto.injEq] at hmem
      exact hmem.2.2.1
  · simp [UdpServer.sendEvents]
  · rw [onMessage, recvInto_some hstack]
    exact if_neg hpos

/-- The server leaves the datagram as `Received`, whatever the send returns. -/
theorem UdpServer.Step.received {s s' : UdpServer} {e : UdpServerEvent} {d : Bytes}
    (h : UdpServer.Step s e s') (he : e.datagram = some d) (hd : 16 ≤ d.length) :
    ∃ evs, s'.log = s.log ++ evs ∧ Received .serverRcv d evs := by
  cases h with
  | @message _ c src r stack w hc hstack h =>
      obtain rfl : r = some d := he
      obtain ⟨rcv, snd, hrcv, hsnd, -, heq⟩ := UdpServer.onMessage_some hstack hd src w s
      rw [heq] at h
      split at h
      · obtain rfl := Option.some.inj h
        exact ⟨rcv, rfl, hrcv⟩
      · obtain ⟨c', _, rfl⟩ := Option.map_eq_some_iff.mp h
        exact ⟨rcv ++ snd c', rfl, hsnd c'⟩
  | add | close | release => exact nomatch he

/-- So does the upstream, which sends nothing. -/
theorem UdpUpstream.Step.received {s s' : UdpUpstream} {e : UdpUpstreamEvent} {d : Bytes}
    (h : UdpUpstream.Step s e s') (he : e.datagram = some d) (hd : 16 ≤ d.length) :
    ∃ evs, s'.log = s.log ++ evs ∧ Received .upstreamRcv d evs := by
  cases h with
  | @message c r stack hc hstack =>
      obtain rfl : r = some d := he
      have hpos : ¬ ((fitting d).length : Int) ≤ 0 := by
        have := le_length_fitting hd
        omega
      rw [onMessage, recvInto_some hstack]
      simp only [if_neg hpos]
      exact ⟨_, rfl, received_recvEvents hd⟩
  | add | close | release => exact nomatch he

/-- A step that takes no datagram leaves nothing. -/
theorem UdpServer.Step.silent {s s' : UdpServer} {e : UdpServerEvent} (h : UdpServer.Step s e s')
    (he : e.datagram = none) : s'.log = s.log := by
  cases h with
  | @message _ c src r stack w hc hstack h =>
      obtain rfl : r = none := he
      have hnone : UdpServer.onMessage src none stack w s = some s := rfl
      obtain rfl := Option.some.inj (hnone.symm.trans h)
      rfl
  | add | close | release => rfl

/-! ## The server always has its context -/

/-- A context is in the loop only after its callback has run. -/
def UdpServer.Ready (s : UdpServer) : Prop := s.ctx = none → s.loop.live = []

theorem UdpServer.Ready.step {s s' : UdpServer} (hready : s.Ready) {e : UdpServerEvent}
    (h : UdpServer.Step s e s') : s'.Ready := by
  cases h with
  | add hc => exact fun hnone => nomatch hnone
  | message hc hstack h =>
      rw [onMessage] at h
      split at h
      split at h
      · obtain rfl := Option.some.inj h
        exact hready
      · split at h
        · obtain rfl := Option.some.inj h
          exact hready
        · obtain ⟨c', _, rfl⟩ := Option.map_eq_some_iff.mp h
          exact hready
  | close hc =>
      intro hnone
      have hlive := hready hnone
      rw [hlive] at hc
      exact nomatch hc
  | release hc => exact hready

/-- In every run the callback handles whatever it reads: it never sends on a null context. -/
theorem UdpServer.onMessage_isSome_of_run {sa : SockAddr} {es : List UdpServerEvent} {s : UdpServer}
    (hrun : Run UdpServer.Step (UdpServer.start sa) es s) {c : Nat} (hc : c ∈ s.loop.live)
    (src : SockAddr) (r : Option Bytes) (stack : Bytes) (w : WriteOutcome) :
    (UdpServer.onMessage src r stack w s).isSome := by
  have hready : s.Ready :=
    hrun.invariant (I := UdpServer.Ready) (fun _ _ _ h hs => h.step hs) fun _ => rfl
  have hctx : s.ctx.isSome := by
    cases hs : s.ctx with
    | none => rw [hready hs] at hc; exact nomatch hc
    | some c' => rfl
  rw [onMessage]
  split
  split
  · rfl
  · split
    · rfl
    · rw [Option.isSome_map]
      exact hctx

end NetBench

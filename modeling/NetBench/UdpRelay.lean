/-
# `NetBench.UdpRelay` — what the UDP server does with a stream of datagrams

`NetBench.UdpReceive` has one callback, `NetBench.UdpSafe` says which datagrams it treats
safely.  Over a whole run, whatever arrives and whatever the socket takes of it,

    server.rcv         one for each datagram that is not empty, in order
    server.snd_begin   one for each of those that did not come from the upstream
    sends              the first 1024 bytes of these, to the upstream, on the context that
                       `run` has bound

and what comes from the upstream goes nowhere (`relayed_of_run`).
-/
import NetBench.UdpSafe
import NetBench.UdpChain

namespace NetBench

open Lib

/-! ## The law of the relay -/

/-- The send of an event: the context, the address and the bytes. -/
def RecvEv.sendOf : RecvEv → Option (Nat × SockAddr × Bytes)
  | .sendto c dst buf _ => some (c, dst, buf)
  | _ => none

def sendsOf (evs : List RecvEv) : List (Nat × SockAddr × Bytes) := evs.filterMap RecvEv.sendOf

theorem sendsOf_append (l l' : List RecvEv) : sendsOf (l ++ l') = sendsOf l ++ sendsOf l' :=
  List.filterMap_append

theorem sendsOf_recvAssert (x : RecvAssertion) (ok : Bool) : sendsOf (recvAssert x ok) = [] := by
  cases ok with
  | true => rfl
  | false => rfl

/-- A datagram and the address that it came from. -/
abbrev Incoming : Type := SockAddr × Bytes

/-- The datagrams that do not come from `sa`. -/
def foreign (sa : SockAddr) (xs : List Incoming) : List Incoming :=
  xs.filter fun x => !nbSockaddrEqual sa x.1

theorem foreign_append (sa : SockAddr) (xs ys : List Incoming) :
    foreign sa (xs ++ ys) = foreign sa xs ++ foreign sa ys := List.filter_append ..

/-- The record of a datagram: its size is that of what fits the buffer, and all of it is
determined if both structures were read. -/
structure Shows (act : Action) (x : Incoming) (r : Record) : Prop where
  msgSize : r.msgSize.toNat = (fitting x.2).length
  fields : 16 ≤ x.2.length → r = recordOfBytes act (fitting x.2)

/-- What the server leaves of the datagrams `xs`, with the upstream at `sa`. -/
structure Relayed (sa : SockAddr) (xs : List Incoming) (evs : List RecvEv) : Prop where
  rcv : List.Forall₂ (Shows .serverRcv) xs (recvRecords .serverRcv evs)
  begun : List.Forall₂ (Shows .serverSndBegin) (foreign sa xs) (recvRecords .serverSndBegin evs)
  sent : sendsOf evs = (foreign sa xs).map fun x => (0, sa, fitting x.2)

theorem relayed_nil (sa : SockAddr) : Relayed sa [] [] where
  rcv := .nil
  begun := .nil
  sent := rfl

theorem Relayed.append {sa : SockAddr} {xs ys : List Incoming} {l l' : List RecvEv}
    (h : Relayed sa xs l) (h' : Relayed sa ys l') : Relayed sa (xs ++ ys) (l ++ l') where
  rcv := by
    rw [recvRecords_append]
    exact List.rel_append h.rcv h'.rcv
  begun := by
    rw [foreign_append, recvRecords_append]
    exact List.rel_append h.begun h'.begun
  sent := by
    rw [foreign_append, sendsOf_append, h.sent, h'.sent, List.map_append]

/-! ## One datagram -/

/-- A record of the fields that were read into the buffer. -/
theorem shows_recordOfBuf (act : Action) (x : Incoming) (rest : Bytes) :
    Shows act x (recordOfBuf act (fitting x.2 ++ rest) (fitting x.2).length) := by
  have hlt : (fitting x.2).length < 2 ^ 32 := by
    rw [length_fitting]
    exact Nat.lt_of_le_of_lt (Nat.min_le_left _ _) (by decide)
  refine ⟨?_, fun h => ?_⟩
  · rw [recordOfBuf, ofInt_natCast hlt]
    exact UInt32.toNat_ofNat_of_lt' hlt
  · rw [recordOfBuf, usedFields, data_of_fitting h, ofInt_natCast hlt]
    rfl

theorem recvRecords_recvEvents (act x : Action) (buf : Bytes) (n : Int) :
    recvRecords x (recvEvents act buf n) = if act = x then [recordOfBuf act buf n] else [] := by
  rw [recvEvents, recvRecords_append, recvRecords_append, recvRecords_recvAssert,
    recvRecords_recvAssert]
  by_cases h : act = x
  · rw [if_pos h]
    exact List.filterMap_cons_some (if_pos h)
  · rw [if_neg h]
    exact List.filterMap_cons_none (if_neg h)

theorem sendsOf_recvEvents (act : Action) (buf : Bytes) (n : Int) :
    sendsOf (recvEvents act buf n) = [] := by
  rw [recvEvents, sendsOf_append, sendsOf_append, sendsOf_recvAssert, sendsOf_recvAssert]
  rfl

namespace UdpServer

variable {s t : UdpServer} {sa : SockAddr}

/-- The callback at a datagram that is not empty. -/
theorem relayed_onMessage {src : SockAddr} {d stack : Bytes} {w : WriteOutcome}
    (hstack : stack.length = sizeofBuf) (hd : d ≠ []) (hctx : ∀ c, s.ctx = some c → c = 0)
    (h : onMessage src (some d) stack w s = some t) :
    ∃ evs, t = { s with log := s.log ++ evs } ∧ Relayed s.upstreamSa [(src, d)] evs := by
  have hpos := recvInto_pos hstack hd
  rw [onMessage_eq, recvInto_some hstack] at h
  rw [recvInto_some hstack] at hpos
  obtain ⟨evs, hevs, rfl⟩ := Option.map_eq_some_iff.mp h
  refine ⟨evs, rfl, ?_⟩
  have hshows := fun act => shows_recordOfBuf act (src, d) (stack.drop d.length)
  have hout : (fitting d ++ stack.drop d.length).take ((fitting d).length : Int).toNat = fitting d :=
    List.take_left
  unfold added at hevs
  rw [if_neg (Int.not_le.mpr hpos)] at hevs
  cases hsa : nbSockaddrEqual s.upstreamSa src with
  | true =>
      -- it came from the upstream
      have hnil : foreign s.upstreamSa [(src, d)] = [] := by simp [foreign, hsa]
      rw [hsa, if_pos rfl] at hevs
      obtain rfl := Option.some.inj hevs
      refine ⟨?_, ?_, ?_⟩
      · rw [recvRecords_recvEvents, if_pos rfl]
        exact .cons (hshows _) .nil
      · rw [hnil, recvRecords_recvEvents, if_neg fun h => nomatch h]
        exact .nil
      · rw [hnil, sendsOf_recvEvents]
        rfl
  | false =>
      have hone : foreign s.upstreamSa [(src, d)] = [(src, d)] := by simp [foreign, hsa]
      rw [hsa, if_neg Bool.false_ne_true] at hevs
      obtain ⟨c, hc, rfl⟩ := Option.map_eq_some_iff.mp hevs
      obtain rfl := hctx c hc
      refine ⟨?_, ?_, ?_⟩
      · rw [recvRecords_append, recvRecords_recvEvents, if_pos rfl]
        exact .cons (hshows _) .nil
      · rw [hone, recvRecords_append, recvRecords_recvEvents, if_neg fun h => nomatch h]
        exact .cons (hshows _) .nil
      · rw [hone, sendsOf_append, sendsOf_recvEvents]
        show [(0, s.upstreamSa, List.take _ _)] = _
        rw [hout]
        rfl

/-! ## Runs -/

/-- The datagram that an event takes off the socket, if it is not empty. -/
def incoming : UdpServerEvent → Option Incoming
  | .message _ src (some d) _ _ => if d = [] then none else some (src, d)
  | _ => none

/-- There is no other context than the one that was bound. -/
structure Bound (s : UdpServer) : Prop where
  queue : ∀ c ∈ s.loop.queue, c = 0
  ctx : ∀ c, s.ctx = some c → c = 0

theorem bound_start (sa : SockAddr) : Bound (start sa) where
  queue _ h := List.mem_singleton.mp h
  ctx _ h := nomatch h

/-- An empty datagram, or a read that fails, leaves nothing. -/
theorem onMessage_of_empty {src : SockAddr} {r : Option Bytes} {stack : Bytes} {w : WriteOutcome}
    (hstack : stack.length = sizeofBuf) (hr : r = none ∨ r = some []) :
    onMessage src r stack w s = some s := by
  rcases hr with rfl | rfl
  · rfl
  · rw [onMessage, recvInto_some hstack]
    rfl

/-- What one step leaves. -/
theorem Step.relays {e : UdpServerEvent} (hb : Bound s) (h : Step s e t) :
    Bound t ∧ t.upstreamSa = s.upstreamSa ∧
      ∃ evs, t.log = s.log ++ evs ∧ Relayed s.upstreamSa (incoming e).toList evs := by
  have hnone : ∃ evs, s.log = s.log ++ evs ∧ Relayed s.upstreamSa [] evs :=
    ⟨[], (List.append_nil _).symm, relayed_nil _⟩
  cases h with
  | add hc =>
      refine ⟨⟨fun d hd => hb.queue d (List.mem_of_mem_erase hd), fun d hd => ?_⟩, rfl, hnone⟩
      exact Option.some.inj hd ▸ hb.queue _ hc
  | @message _ c src r stack w hc hstack h =>
      rcases Option.eq_none_or_eq_some r with rfl | ⟨d, rfl⟩
      · rw [onMessage_of_empty hstack (Or.inl rfl)] at h
        obtain rfl := Option.some.inj h
        exact ⟨hb, rfl, hnone⟩
      · by_cases hd : d = []
        · rw [onMessage_of_empty hstack (Or.inr (congrArg some hd))] at h
          obtain rfl := Option.some.inj h
          rw [incoming, if_pos hd]
          exact ⟨hb, rfl, hnone⟩
        · obtain ⟨evs, rfl, hevs⟩ := relayed_onMessage hstack hd hb.ctx h
          rw [incoming, if_neg hd]
          exact ⟨⟨hb.queue, hb.ctx⟩, rfl, evs, rfl, hevs⟩
  | close hc => exact ⟨⟨hb.queue, hb.ctx⟩, rfl, hnone⟩
  | release hc => exact ⟨⟨hb.queue, hb.ctx⟩, rfl, hnone⟩

/-- What the server has done after the events `es`. -/
structure Relaying (sa : SockAddr) (es : List UdpServerEvent) (s : UdpServer) : Prop where
  bound : Bound s
  upstreamSa : s.upstreamSa = sa
  relayed : Relayed sa (es.filterMap incoming) s.log

theorem relaying_start (sa : SockAddr) : Relaying sa [] (start sa) where
  bound := bound_start sa
  upstreamSa := rfl
  relayed := relayed_nil sa

/-- Every step keeps it. -/
theorem Relaying.step {es : List UdpServerEvent} (h : Relaying sa es s) {e : UdpServerEvent}
    (hs : Step s e t) : Relaying sa (es ++ [e]) t := by
  obtain ⟨hb, hsa, evs, hlog, hevs⟩ := hs.relays h.bound
  refine ⟨hb, hsa.trans h.upstreamSa, ?_⟩
  have hone : [e].filterMap incoming = (incoming e).toList := by
    rw [List.filterMap_cons]
    cases incoming e with
    | none => rfl
    | some x => rfl
  rw [hlog, List.filterMap_append, hone]
  exact h.relayed.append (h.upstreamSa ▸ hevs)

/-- In every run the server relays what it is sent: it records every datagram that is not
empty, and sends the first 1024 bytes of those that did not come from the upstream, once
each and in the order of arrival, to the upstream and nowhere else. -/
theorem relayed_of_run {es : List UdpServerEvent} (hrun : Run Step (start sa) es s) :
    Relayed sa (es.filterMap incoming) s.log := by
  have h : Relaying sa es s :=
    hrun.history (I := Relaying sa) (fun _ _ _ _ h hs => h.step hs) (relaying_start sa)
  exact h.relayed

open UdpChain (upstreamAddr clientAddr oneMessageOf)

/-- A message of 16 bytes. -/
def shortMessage : Bytes := (oneMessageOf 16).msgHdr.encode ++ ((oneMessageOf 16).msgData 0).encode

/-- The server is bound, a client sends a message, and the upstream sends it back. -/
def sentBack (stack : Bytes) : List UdpServerEvent :=
  [.add 0, .message 0 clientAddr (some shortMessage) stack .error,
    .message 0 upstreamAddr (some shortMessage) stack .error]

/-- The message is sent once, though the socket takes nothing of it. -/
theorem relayed_of_run_sent_back : ∃ stack s, Run Step (start upstreamAddr) (sentBack stack) s ∧
    sendsOf s.log = [(0, upstreamAddr, shortMessage)] ∧
    (recvRecords .serverRcv s.log).length = 2 := by
  have hstack : (List.replicate sizeofBuf (0 : UInt8)).length = sizeofBuf := List.length_replicate
  have hd : 16 ≤ shortMessage.length := by decide
  obtain ⟨s, hs, hctx, hlive, hsa⟩ : ∃ s, Step (start upstreamAddr) (.add 0) s ∧ s.ctx = some 0 ∧
      0 ∈ s.loop.live ∧ s.upstreamSa = upstreamAddr :=
    ⟨_, .add List.mem_cons_self, rfl, List.mem_cons_self, rfl⟩
  -- the client is not at the address of the upstream
  obtain ⟨rcv, snd, -, -, -, hmsg⟩ := onMessage_some hstack hd clientAddr .error s
  rw [hsa, if_neg (by decide), hctx, Option.map_some] at hmsg
  obtain ⟨s₂, hs₂, hlive₂, hsa₂⟩ : ∃ s₂, Step s (.message 0 clientAddr _ _ .error) s₂ ∧
      0 ∈ s₂.loop.live ∧ s₂.upstreamSa = upstreamAddr := ⟨_, .message hlive hstack hmsg, hlive, rfl⟩
  obtain ⟨rcv₂, snd₂, -, -, -, hmsg₂⟩ := onMessage_some hstack hd upstreamAddr .error s₂
  rw [hsa₂, if_pos (by decide)] at hmsg₂
  have hrun := Run.cons hs (.cons hs₂ (.single (.message hlive₂ hstack hmsg₂)))
  have h := relayed_of_run hrun
  refine ⟨_, _, hrun, h.sent, ?_⟩
  rw [← h.rcv.length_eq]
  rfl

end UdpServer

end NetBench

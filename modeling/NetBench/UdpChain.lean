/-
# `NetBench.UdpChain` — clients, server and upstream over datagrams

Any number of clients, one server, one upstream.  A step of the chain is a step of one
process.  What a socket has taken in one piece may be delivered at any later time, in any
order, any number of times, or never; a delivery is a step of the receiver with that
datagram.  `atServer` and `atUpstream` are the deliveries so far, each with the client
that its message comes from and with what its receiver did.

    datagram at the server    =  a message of its client
    datagram at the upstream  =  its first 1024 bytes

So the chain keeps the messages exactly if those that are delivered have at most 1024
bytes (`intact_iff_of_run`).
-/
import NetBench.UdpReceive
import NetBench.UdpSend

namespace NetBench

open Lib

/-! ## The messages of a client -/

namespace UdpClient

variable {a : NbSysArgs} {s s' : UdpClient} {T d : Bytes}

/-- The socket has taken the datagram `d`. -/
def Emitted (s : UdpClient) (d : Bytes) : Prop := ∃ c, .write c d d ∈ s.log

/-- Every buffer that was handed to the socket is a message. -/
def Emits (a : NbSysArgs) (s : UdpClient) : Prop :=
  ∀ {c d acc}, .write c d acc ∈ s.log → ∃ k < a.total, a.IsMessage k d

/-- What a step adds to the log. -/
theorem Aimed.logged (hT : a.Prepared T) (h : Aimed a T s) {e : UdpEvent} (hs : Step a s e s') :
    ∃ l, s'.log = s.log ++ l ∧
      ∀ c d acc, .write c d acc ∈ l → ∃ k < a.total, a.IsMessage k d := by
  have hsame : ∀ {t : UdpClient}, t.log = s.log → ∃ l, t.log = s.log ++ l ∧
      ∀ c d acc, .write c d acc ∈ l → ∃ k < a.total, a.IsMessage k d := fun ht =>
    ⟨[], ht.trans (List.append_nil _).symm, fun _ _ _ hw => nomatch hw⟩
  cases hs with
  | add hsend hc => exact hsame rfl
  | timer hsend =>
      unfold onTimer
      split
      · refine ⟨[.exit], rfl, fun c d acc hw => ?_⟩
        exact nomatch List.mem_singleton.mp hw
      · split
        · exact hsame rfl
        · split
          · exact hsame rfl
          · exact hsame rfl
  | @send _ l c w hl hi hc hsend =>
      obtain ⟨hr, hseq, hp⟩ := h.sending l hl
      have hlt := NbSysArgs.position_lt hr hi
      obtain ⟨t, r, ht, hlog, hor, -⟩ := sendOne_spec (c := c) hT hlt hseq hp h.table w
      obtain rfl : t = s' := Option.some.inj (ht.symm.trans hsend)
      refine ⟨_, hlog, fun c' d acc hw => ⟨_, hlt, ?_⟩⟩
      have hd : d = a.slice T (a.position s.roundIndex l.i) := by
        rcases hor with rfl | rfl
        · simp at hw
          exact hw.2.1
        · simp at hw
          exact hw.2.1
      rw [hd]
      exact hT.message _ hlt
  | roundDone => exact hsame rfl
  | close hsend hc hshut => exact hsame rfl
  | release hsend hc => exact hsame rfl

theorem Aimed.emits_step (hT : a.Prepared T) (h : Aimed a T s) (hemits : Emits a s) {e : UdpEvent}
    (hs : Step a s e s') : Emits a s' := by
  intro c d acc hw
  obtain ⟨l, hlog, hl⟩ := h.logged hT hs
  rw [hlog] at hw
  rcases List.mem_append.mp hw with hw | hw
  · exact hemits hw
  · exact hl c d acc hw

/-- What was sent stays sent. -/
theorem Aimed.emitted_step (hT : a.Prepared T) (h : Aimed a T s) {e : UdpEvent}
    (hs : Step a s e s') (hd : Emitted s d) : Emitted s' d := by
  obtain ⟨c, hw⟩ := hd
  obtain ⟨l, hlog, _⟩ := h.logged hT hs
  exact ⟨c, hlog ▸ List.mem_append_left _ hw⟩

/-- The loop starts with the prepared table, if `run` gets there. -/
theorem loop_of_run (ha : a.Sized) {u : Setup} {ts : Timespec} {m : Bytes} {s₀ : UdpClient}
    (hm : m.length = a.tableBytes.toNat) (h : run u a ts m = .loop s₀) :
    ∃ T, a.Prepared T ∧ s₀ = start ts T := by
  obtain ⟨T, hT, hprep⟩ := NbSysArgs.prepare_prepared ha hm
  refine ⟨T, hprep, ?_⟩
  rw [run, hT] at h
  split at h
  · injection h with h
    exact h.symm
  · cases h

end UdpClient

/-! ## The chain -/

/-- A delivered datagram: the client that its message comes from, and what the receiver
did with it. -/
structure Arrival (ι : Type) where
  origin : ι
  datagram : Bytes
  events : List RecvEv

/-- The state of the chain; the clients are numbered by `ι`. -/
structure UdpChain (ι : Type) where
  client : ι → UdpClient
  server : UdpServer
  upstream : UdpUpstream
  atServer : List (Arrival ι)
  atUpstream : List (Arrival ι)

/-- A process moves, with a datagram or without. -/
inductive UdpChainEvent (ι : Type) where
  | client (i : ι) (e : UdpEvent)
  | server (e : UdpServerEvent)
  | serverReceives (i : ι) (e : UdpServerEvent)
  | upstream (e : UdpUpstreamEvent)
  | upstreamReceives (i : ι) (e : UdpUpstreamEvent)

/-- The socket has taken the datagram `d`, which goes to `sa`, while `x` was handled. -/
def Arrival.Forwarded {ι : Type} (sa : SockAddr) (x : Arrival ι) (d : Bytes) : Prop :=
  ∃ c, .sendto c sa d d ∈ x.events

namespace UdpChain

variable {ι : Type}

/-- The processes start; the clients are in the states `s₀`. -/
def start (s₀ : ι → UdpClient) (upstreamSa : SockAddr) : UdpChain ι where
  client := s₀
  server := .start upstreamSa
  upstream := .start
  atServer := []
  atUpstream := []

variable (a : ι → NbSysArgs)

/-- The steps of the chain. -/
inductive Step [DecidableEq ι] : UdpChain ι → UdpChainEvent ι → UdpChain ι → Prop
  | client {σ : UdpChain ι} {i : ι} {e : UdpEvent} {s : UdpClient}
      (h : UdpClient.Step (a i) (σ.client i) e s) :
      Step σ (.client i e) { σ with client := Function.update σ.client i s }
  | server {σ : UdpChain ι} {e : UdpServerEvent} {s : UdpServer} (he : e.datagram = none)
      (h : UdpServer.Step σ.server e s) : Step σ (.server e) { σ with server := s }
  | serverReceives {σ : UdpChain ι} {i : ι} {e : UdpServerEvent} {s : UdpServer} {d : Bytes}
      {evs : List RecvEv} (he : e.datagram = some d) (hd : (σ.client i).Emitted d)
      (h : UdpServer.Step σ.server e s) (hlog : s.log = σ.server.log ++ evs) :
      Step σ (.serverReceives i e)
        { σ with server := s, atServer := σ.atServer ++ [⟨i, d, evs⟩] }
  | upstream {σ : UdpChain ι} {e : UdpUpstreamEvent} {s : UdpUpstream} (he : e.datagram = none)
      (h : UdpUpstream.Step σ.upstream e s) : Step σ (.upstream e) { σ with upstream := s }
  | upstreamReceives {σ : UdpChain ι} {x : Arrival ι} {e : UdpUpstreamEvent} {s : UdpUpstream}
      {d : Bytes} {evs : List RecvEv} (he : e.datagram = some d) (hx : x ∈ σ.atServer)
      (hd : x.Forwarded σ.server.upstreamSa d) (h : UdpUpstream.Step σ.upstream e s)
      (hlog : s.log = σ.upstream.log ++ evs) :
      Step σ (.upstreamReceives x.origin e)
        { σ with upstream := s, atUpstream := σ.atUpstream ++ [⟨x.origin, d, evs⟩] }

/-! ## What the chain should keep -/

/-- The datagram is recorded once, with the size of the client's messages, and the
assertion on its length holds. -/
structure SizeKept (a : NbSysArgs) (act : Action) (x : Arrival ι) : Prop where
  record : ∃ r, recvRecords act x.events = [r] ∧ r.msgSize = a.msgSize
  asserted : .assertFailed .numBytes ∉ x.events

/-- The server sends nothing but copies of what a client has sent, and both receivers record
the size of every message that is delivered. -/
structure Intact (σ : UdpChain ι) : Prop where
  copies : ∀ {c dst buf acc}, .sendto c dst buf acc ∈ σ.server.log →
    ∃ i, (σ.client i).Emitted buf
  atServer : ∀ x ∈ σ.atServer, SizeKept (a x.origin) .serverRcv x
  atUpstream : ∀ x ∈ σ.atUpstream, SizeKept (a x.origin) .upstreamRcv x

/-! ## The invariant -/

/-- The logs of the receivers are what they did with the arrivals; each came from a client,
the second time with what fits the buffer. -/
structure Linked (T : ι → Bytes) (σ : UdpChain ι) : Prop where
  aimed : ∀ i, (σ.client i).Aimed (a i) (T i)
  emits : ∀ i, (σ.client i).Emits (a i)
  log : σ.server.log = σ.atServer.flatMap Arrival.events
  atServer : ∀ x ∈ σ.atServer, (σ.client x.origin).Emitted x.datagram ∧
    Received .serverRcv x.datagram x.events
  atUpstream : ∀ y ∈ σ.atUpstream, ∃ x ∈ σ.atServer, x.origin = y.origin ∧
    y.datagram = fitting x.datagram ∧ Received .upstreamRcv y.datagram y.events

section Linked

variable {a} {T : ι → Bytes} {σ σ' : UdpChain ι}

theorem linked_start {s₀ : ι → UdpClient} (ts : ι → Timespec)
    (hs₀ : ∀ i, s₀ i = UdpClient.start (ts i) (T i)) (sa : SockAddr) :
    Linked a T (start s₀ sa) where
  aimed i := by
    show UdpClient.Aimed (a i) (T i) (s₀ i)
    rw [hs₀ i]
    exact UdpClient.aimed_start (ts i) (T i)
  emits i := by
    show UdpClient.Emits (a i) (s₀ i)
    rw [hs₀ i]
    exact fun hw => nomatch hw
  log := rfl
  atServer _ hx := nomatch hx
  atUpstream _ hy := nomatch hy

/-- What arrives at the server is a message of its client. -/
theorem Linked.message (h : Linked a T σ) {i : ι} {d : Bytes} (hd : (σ.client i).Emitted d) :
    ∃ k, (a i).IsMessage k d := by
  obtain ⟨c, hw⟩ := hd
  obtain ⟨k, _, hk⟩ := h.emits i hw
  exact ⟨k, hk⟩

/-- A client moves. -/
theorem Linked.setClient [DecidableEq ι] (ha : ∀ i, (a i).Sized)
    (hT : ∀ i, (a i).Prepared (T i)) (h : Linked a T σ) {i : ι} {e : UdpEvent}
    {s : UdpClient} (hs : UdpClient.Step (a i) (σ.client i) e s) :
    Linked a T { σ with client := Function.update σ.client i s } where
  aimed := (Function.forall_update_iff σ.client fun j t => t.Aimed (a j) (T j)).mpr
    ⟨(h.aimed i).step (ha i).prod (hT i) hs, fun j _ => h.aimed j⟩
  emits := (Function.forall_update_iff σ.client fun j t => t.Emits (a j)).mpr
    ⟨(h.aimed i).emits_step (hT i) (h.emits i) hs, fun j _ => h.emits j⟩
  log := h.log
  atServer := by
    have hsent : ∀ j d, (σ.client j).Emitted d → (Function.update σ.client i s j).Emitted d :=
      (Function.forall_update_iff σ.client
        fun j t => ∀ d, (σ.client j).Emitted d → t.Emitted d).mpr
        ⟨fun _ hd => (h.aimed i).emitted_step (hT i) hs hd, fun _ _ _ hd => hd⟩
    intro x hx
    obtain ⟨hd, hrcv⟩ := h.atServer x hx
    exact ⟨hsent _ _ hd, hrcv⟩
  atUpstream := h.atUpstream

/-- A datagram of a client arrives at the server. -/
theorem Linked.serverReceives (h : Linked a T σ) {i : ι} {e : UdpServerEvent} {s : UdpServer}
    {d : Bytes} {evs : List RecvEv} (he : e.datagram = some d) (hd : (σ.client i).Emitted d)
    (hs : UdpServer.Step σ.server e s) (hlog : s.log = σ.server.log ++ evs) :
    Linked a T { σ with server := s, atServer := σ.atServer ++ [⟨i, d, evs⟩] } where
  aimed := h.aimed
  emits := h.emits
  log := by
    rw [List.flatMap_append, List.flatMap_singleton, ← h.log]
    exact hlog
  atServer x hx := by
    rcases List.mem_append.mp hx with hx | hx
    · exact h.atServer x hx
    · obtain rfl := List.mem_singleton.mp hx
      obtain ⟨k, hk⟩ := h.message hd
      have hlen : 16 ≤ d.length := hk.1.symm ▸ hk.ge
      obtain ⟨evs', hlog', hrcv⟩ := hs.received he hlen
      obtain rfl : evs' = evs := List.append_cancel_left (hlog'.symm.trans hlog)
      exact ⟨hd, hrcv⟩
  atUpstream y hy := by
    obtain ⟨x, hx, hrest⟩ := h.atUpstream y hy
    exact ⟨x, List.mem_append_left _ hx, hrest⟩

/-- A datagram of the server arrives at the upstream. -/
theorem Linked.upstreamReceives (h : Linked a T σ) {x : Arrival ι} {e : UdpUpstreamEvent}
    {s : UdpUpstream} {d : Bytes} {evs : List RecvEv} (he : e.datagram = some d)
    (hx : x ∈ σ.atServer) (hd : x.Forwarded σ.server.upstreamSa d)
    (hs : UdpUpstream.Step σ.upstream e s) (hlog : s.log = σ.upstream.log ++ evs) :
    Linked a T { σ with upstream := s, atUpstream := σ.atUpstream ++ [⟨x.origin, d, evs⟩] } where
  aimed := h.aimed
  emits := h.emits
  log := h.log
  atServer := h.atServer
  atUpstream y hy := by
    rcases List.mem_append.mp hy with hy | hy
    · exact h.atUpstream y hy
    · obtain rfl := List.mem_singleton.mp hy
      obtain ⟨hsent, hrcv⟩ := h.atServer x hx
      obtain ⟨c, hmem⟩ := hd
      have hfit : d = fitting x.datagram := hrcv.sent hmem
      obtain ⟨k, hk⟩ := h.message hsent
      have hlen : 16 ≤ d.length := hfit ▸ le_length_fitting (hk.1.symm ▸ hk.ge)
      obtain ⟨evs', hlog', hrcv'⟩ := hs.received he hlen
      obtain rfl : evs' = evs := List.append_cancel_left (hlog'.symm.trans hlog)
      exact ⟨x, hx, rfl, hfit, hrcv'⟩

theorem Linked.step [DecidableEq ι] (ha : ∀ i, (a i).Sized) (hT : ∀ i, (a i).Prepared (T i))
    (h : Linked a T σ) {e : UdpChainEvent ι} (hs : Step a σ e σ') : Linked a T σ' := by
  cases hs with
  | client hs => exact h.setClient ha hT hs
  | server he hs => exact ⟨h.aimed, h.emits, (hs.silent he).trans h.log, h.atServer, h.atUpstream⟩
  | serverReceives he hd hs hlog => exact h.serverReceives he hd hs hlog
  | upstream he hs => exact ⟨h.aimed, h.emits, h.log, h.atServer, h.atUpstream⟩
  | upstreamReceives he hx hd hs hlog => exact h.upstreamReceives he hx hd hs hlog

/-- Every run from clients that `run` has started is linked. -/
theorem linked_of_run [DecidableEq ι] {u : ι → UdpClient.Setup} {ts : ι → Timespec}
    {m : ι → Bytes} {s₀ : ι → UdpClient} {sa : SockAddr} {es : List (UdpChainEvent ι)}
    (ha : ∀ i, (a i).Sized)
    (hm : ∀ i, (m i).length = (a i).tableBytes.toNat)
    (hstart : ∀ i, UdpClient.run (u i) (a i) (ts i) (m i) = .loop (s₀ i))
    (hrun : Run (Step a) (start s₀ sa) es σ) : ∃ T, Linked a T σ := by
  choose T hT hs₀ using fun i => UdpClient.loop_of_run (ha i) (hm i) (hstart i)
  exact ⟨T, hrun.invariant (I := Linked a T)
    (fun _ _ _ h hs => h.step ha hT hs) (linked_start ts hs₀ sa)⟩

/-! ## When the chain keeps the messages -/

/-- With the header of a message of `b`, the assertion compares `msg_size` and what was
read. -/
theorem assertFailed_iff {b : NbSysArgs} {act : Action} {d : Bytes} {evs : List RecvEv}
    (h : Received act d evs) (hhdr : MsgHdr.decode d = b.msgHdr) (hge : 16 ≤ b.msgSize.toNat)
    (hlt : b.msgSize.toNat < 2 ^ 31) :
    .assertFailed .numBytes ∈ evs ↔ b.msgSize.toNat ≠ (fitting d).length := by
  have hlen : sizeofMsgHdr + (b.msgSize.toNat - 8) = b.msgSize.toNat :=
    Nat.add_sub_of_le (show 8 ≤ b.msgSize.toNat by omega)
  rw [h.numBytes, hhdr, NbSysArgs.msgHdr_payloadLen hge, hlen, castInt_of_lt hlt]
  exact not_congr Int.ofNat_inj

/-- The record of a message shows its size exactly if all of it fits the buffer. -/
theorem sizeKept_iff {b : NbSysArgs} {act : Action} {k : Nat} {x : Arrival ι}
    (hmsg : b.IsMessage k x.datagram) (h : Received act x.datagram x.events) :
    SizeKept b act x ↔ b.msgSize.toNat ≤ 1024 := by
  constructor
  · rintro ⟨⟨r, hr, hsize⟩, -⟩
    obtain rfl := (List.singleton_inj.mp (h.records.symm.trans hr)).symm
    have hle := length_fitting x.datagram
    have heq : (fitting x.datagram).length = b.msgSize.toNat := by
      rw [← hsize]
      exact (UInt32.toNat_ofNat_of_lt' (Nat.lt_of_le_of_lt
        (hle ▸ Nat.min_le_left _ _) (by decide))).symm
    omega
  · intro hle
    have hfit : fitting x.datagram = x.datagram := fitting_of_le (hmsg.1.symm ▸ hle)
    refine ⟨⟨_, h.records, ?_⟩, ?_⟩
    · rw [hfit]
      show UInt32.ofNat x.datagram.length = _
      rw [hmsg.1]
      exact UInt32.ofNat_toNat
    · rw [assertFailed_iff h hmsg.hdr hmsg.ge (by omega), hfit, hmsg.1]
      exact fun hne => hne rfl

/-- With messages of at most 1024 bytes, everything that was delivered is intact. -/
theorem Linked.intact (h : Linked a T σ)
    (hle : ∀ x ∈ σ.atServer, (a x.origin).msgSize.toNat ≤ 1024) : Intact a σ where
  copies := by
    intro c dst buf acc hmem
    rw [h.log] at hmem
    obtain ⟨x, hx, hmem⟩ := List.mem_flatMap.mp hmem
    obtain ⟨hsent, hrcv⟩ := h.atServer x hx
    obtain ⟨k, hk⟩ := h.message hsent
    have hbuf : buf = x.datagram := (hrcv.sent hmem).trans (fitting_of_le (hk.1.symm ▸ hle x hx))
    exact ⟨x.origin, hbuf ▸ hsent⟩
  atServer x hx := by
    obtain ⟨hsent, hrcv⟩ := h.atServer x hx
    obtain ⟨k, hk⟩ := h.message hsent
    exact (sizeKept_iff hk hrcv).mpr (hle x hx)
  atUpstream y hy := by
    obtain ⟨x, hx, hxy, hfit, hrcv⟩ := h.atUpstream y hy
    obtain ⟨k, hk⟩ := h.message (h.atServer x hx).1
    have hk : (a y.origin).IsMessage k y.datagram := by
      rw [hfit, fitting_of_le (hk.1.symm ▸ hle x hx), ← hxy]
      exact hk
    exact (sizeKept_iff hk hrcv).mpr (hxy ▸ hle x hx)

/-- A message that does not fit is recorded with another size. -/
theorem Linked.le_of_intact (h : Linked a T σ) (hintact : Intact a σ) :
    ∀ x ∈ σ.atServer, (a x.origin).msgSize.toNat ≤ 1024 := by
  intro x hx
  obtain ⟨hsent, hrcv⟩ := h.atServer x hx
  obtain ⟨k, hk⟩ := h.message hsent
  exact (sizeKept_iff hk hrcv).mp (hintact.atServer x hx)

/-- In every run, the chain has kept every message exactly if each client of which a
datagram was delivered to the server has messages of at most 1024 bytes. -/
theorem intact_iff_of_run [DecidableEq ι] {u : ι → UdpClient.Setup} {ts : ι → Timespec}
    {m : ι → Bytes} {s₀ : ι → UdpClient} {sa : SockAddr} {es : List (UdpChainEvent ι)}
    (ha : ∀ i, (a i).Sized)
    (hm : ∀ i, (m i).length = (a i).tableBytes.toNat)
    (hstart : ∀ i, UdpClient.run (u i) (a i) (ts i) (m i) = .loop (s₀ i))
    (hrun : Run (Step a) (start s₀ sa) es σ) :
    Intact a σ ↔ ∀ x ∈ σ.atServer, (a x.origin).msgSize.toNat ≤ 1024 := by
  obtain ⟨T, h⟩ := linked_of_run ha hm hstart hrun
  exact ⟨h.le_of_intact, h.intact⟩

end Linked

/-! ## One message through the chain -/

section Forwarded

variable [DecidableEq ι] {a : ι → NbSysArgs}

/-- The steps of a client are steps of the chain. -/
theorem run_client {i : ι} {es : List UdpEvent} {s t : UdpClient}
    (h : Run (UdpClient.Step (a i)) s es t) : ∀ {σ : UdpChain ι}, σ.client i = s →
      ∃ σ', Run (Step a) σ (es.map (.client i)) σ' ∧ σ'.client i = t ∧ σ'.server = σ.server ∧
        σ'.upstream = σ.upstream ∧ σ'.atServer = σ.atServer ∧ σ'.atUpstream = σ.atUpstream := by
  induction h with
  | nil => exact fun hs => ⟨_, .nil _, hs, rfl, rfl, rfl, rfl⟩
  | cons hs _ ih =>
      rintro σ rfl
      obtain ⟨σ', hrun, ht, hrest⟩ := @ih { σ with client := Function.update σ.client i _ }
        (Function.update_self _ _ _)
      exact ⟨σ', .cons (.client hs) hrun, ht, hrest⟩

omit [DecidableEq ι] in
/-- The timer starts a round. -/
theorem onTimer_round {b : NbSysArgs} {s : UdpClient} {ts : Timespec} {c : Nat}
    (hr : s.roundIndex < b.roundNum) (hc : s.ctx = some c)
    (helapsed : ¬ udpElapsedMs ts s.lastTs < b.roundIntervalMs) :
    UdpClient.onTimer b ts s = { s with
      lastTs := ts
      sending := some ⟨0, s.roundIndex * b.numPerRound,
        (s.roundIndex * b.numPerRound * b.msgSize).toNat⟩ } := by
  have hctx : s.ctx ≠ none := by
    rw [hc]
    exact fun h => nomatch h
  unfold UdpClient.onTimer
  rw [if_neg (UInt32.not_le.mpr hr), if_neg hctx, if_neg helapsed]

omit [DecidableEq ι] in
/-- The client sends its first message. -/
theorem exists_run_emitted {b : NbSysArgs} {T : Bytes} (hT : b.Prepared T)
    (hn : 0 < b.numPerRound) (hr : 0 < b.roundNum) (hi : b.roundIntervalMs = 0) (ts : Timespec) :
    ∃ es s, Run (UdpClient.Step b) (UdpClient.start ts T) es s ∧ s.Emitted (b.slice T 0) := by
  have hpos : 0 < b.total :=
    Nat.mul_pos (UInt32.lt_iff_toNat_lt.mp hn) (UInt32.lt_iff_toNat_lt.mp hr)
  obtain ⟨s₁, hadd, hsending, hctx, hround, hdatas⟩ : ∃ s₁,
      UdpClient.Step b (UdpClient.start ts T) (.add 0) s₁ ∧ s₁.sending = none ∧
        s₁.ctx = some 0 ∧ s₁.roundIndex = 0 ∧ s₁.datas = T :=
    ⟨_, .add rfl List.mem_cons_self, rfl, rfl, rfl, rfl⟩
  -- the first round
  have helapsed : ¬ udpElapsedMs ts s₁.lastTs < b.roundIntervalMs := by
    rw [hi]
    exact UInt32.not_lt_zero
  obtain ⟨s₂, htimer, hsending₂, hctx₂, hdatas₂⟩ : ∃ s₂, UdpClient.Step b s₁ (.timer ts) s₂ ∧
      s₂.sending = some ⟨0, 0, 0⟩ ∧ s₂.ctx = some 0 ∧ s₂.datas = T := by
    refine ⟨_, .timer hsending, ?_⟩
    rw [onTimer_round (hround ▸ hr) hctx helapsed, hround, UInt32.zero_mul, UInt32.zero_mul]
    exact ⟨rfl, hctx, hdatas⟩
  -- its first message
  have hp : 0 = 0 * b.msgSize.toNat := (Nat.zero_mul _).symm
  obtain ⟨s', r, hs', hlog, -⟩ := UdpClient.sendOne_spec (c := 0) (d := 0) (l := ⟨0, 0, 0⟩)
    hT hpos rfl hp hdatas₂ (.accept b.msgSize.toNat)
  have hsend : UdpClient.Step b s₂ (.send (.accept b.msgSize.toNat)) s' :=
    .send hsending₂ hn hctx₂ hs'
  have hacc : (ctxSendto (.accept b.msgSize.toNat) (b.slice T 0)).2 = b.slice T 0 :=
    List.take_of_length_le (Nat.le_of_eq (hT.message 0 hpos).1)
  rw [hacc] at hlog
  refine ⟨_, s', .cons hadd (.cons htimer (.single hsend)), 0, ?_⟩
  rw [hlog]
  exact List.mem_append_right _ (List.mem_cons_of_mem _ List.mem_cons_self)

/-- The server handles a datagram `d` and forwards it. -/
theorem exists_serverReceives {σ : UdpChain ι} {sa src : SockAddr} {i : ι} {d : Bytes}
    (hd : (σ.client i).Emitted d) (hlen : 16 ≤ d.length) (hserver : σ.server = .start sa)
    (hsa : nbSockaddrEqual sa src = false) :
    ∃ es σ' x, Run (Step a) σ es σ' ∧ σ'.atServer = σ.atServer ++ [x] ∧ x.origin = i ∧
      x.Forwarded σ'.server.upstreamSa (fitting d) ∧ σ'.upstream = σ.upstream ∧
      σ'.atUpstream = σ.atUpstream := by
  obtain ⟨s₁, hadd, hctx, hlive, hsa₁⟩ : ∃ s₁, UdpServer.Step σ.server (.add 0) s₁ ∧
      s₁.ctx = some 0 ∧ 0 ∈ s₁.loop.live ∧ s₁.upstreamSa = sa := by
    rw [hserver]
    exact ⟨_, .add List.mem_cons_self, rfl, List.mem_cons_self, rfl⟩
  have hstack : (List.replicate sizeofBuf (0 : UInt8)).length = sizeofBuf := List.length_replicate
  obtain ⟨rcv, snd, -, -, hsnd, heq⟩ := UdpServer.onMessage_some hstack hlen src (.accept sizeofBuf) s₁
  rw [hsa₁, hsa, if_neg Bool.false_ne_true, hctx, Option.map_some] at heq
  have hacc : (ctxSendto (.accept sizeofBuf) (fitting d)).2 = fitting d :=
    List.take_of_length_le (length_fitting d ▸ Nat.min_le_left _ _)
  have hfwd : .sendto 0 sa (fitting d) (fitting d) ∈ snd 0 := by
    have h := hsnd 0
    rwa [hacc, hsa₁] at h
  refine ⟨_, _, ⟨i, d, rcv ++ snd 0⟩, .cons (.server rfl hadd)
    (.single (.serverReceives rfl hd (.message hlive hstack heq) rfl)), rfl, rfl, ?_, rfl, rfl⟩
  exact ⟨0, List.mem_append_right _ (hsa₁ ▸ hfwd)⟩

/-- The upstream handles a datagram `d` that the server has forwarded. -/
theorem exists_upstreamReceives {σ : UdpChain ι} {x : Arrival ι} {d : Bytes}
    (hx : x ∈ σ.atServer) (hd : x.Forwarded σ.server.upstreamSa d) (hlen : 16 ≤ d.length)
    (hupstream : σ.upstream = .start) :
    ∃ es σ' y, Run (Step a) σ es σ' ∧ σ'.atServer = σ.atServer ∧
      σ'.atUpstream = σ.atUpstream ++ [y] ∧ y.origin = x.origin ∧ y.datagram = d := by
  obtain ⟨s₁, hadd, hlive⟩ : ∃ s₁, UdpUpstream.Step σ.upstream (.add 0) s₁ ∧ 0 ∈ s₁.loop.live := by
    rw [hupstream]
    exact ⟨_, .add List.mem_cons_self, List.mem_cons_self⟩
  have hstack : (List.replicate sizeofBuf (0 : UInt8)).length = sizeofBuf := List.length_replicate
  have hmsg : UdpUpstream.Step s₁ (.message 0 (some d) _) _ := .message hlive hstack
  obtain ⟨evs, hlog, _⟩ := hmsg.received rfl hlen
  exact ⟨_, _, ⟨x.origin, d, evs⟩, .cons (.upstream rfl hadd)
    (.single (.upstreamReceives rfl hx hd hmsg hlog)), rfl, rfl, rfl, rfl⟩

/-- A client sends its first message, the server forwards it, and the upstream has it. -/
theorem exists_run_forwarded {i : ι} {s₀ : ι → UdpClient} {ts : Timespec} {T : Bytes}
    (hs₀ : s₀ i = UdpClient.start ts T) (hT : (a i).Prepared T) (hn : 0 < (a i).numPerRound)
    (hr : 0 < (a i).roundNum) (hi : (a i).roundIntervalMs = 0) {sa src : SockAddr}
    (hsa : nbSockaddrEqual sa src = false) :
    ∃ es σ x y, Run (Step a) (start s₀ sa) es σ ∧ σ.atServer = [x] ∧ σ.atUpstream = [y] ∧
      x.origin = i ∧ y.origin = i := by
  have hpos : 0 < (a i).total :=
    Nat.mul_pos (UInt32.lt_iff_toNat_lt.mp hn) (UInt32.lt_iff_toNat_lt.mp hr)
  have hmsg := hT.message 0 hpos
  have hlen : 16 ≤ ((a i).slice T 0).length := hmsg.1.symm ▸ hmsg.ge
  obtain ⟨es, s, hemit, hd⟩ := exists_run_emitted hT hn hr hi ts
  obtain ⟨σ₁, hrun₁, hc₁, hs₁, hu₁, has₁, hau₁⟩ := run_client hemit
    (show (start s₀ sa).client i = _ from hs₀)
  obtain ⟨es₂, σ₂, x, hrun₂, has₂, hxi, hfwd, hu₂, hau₂⟩ :=
    exists_serverReceives (a := a) (hc₁ ▸ hd) hlen hs₁ hsa
  rw [has₁] at has₂
  rw [hau₁] at hau₂
  obtain ⟨es₃, σ₃, y, hrun₃, has₃, hau₃, hyx, _⟩ := exists_upstreamReceives (a := a)
    (has₂ ▸ List.mem_append_right _ List.mem_cons_self) hfwd (le_length_fitting hlen)
    (hu₂.trans hu₁)
  refine ⟨_, σ₃, x, y, hrun₁.append (hrun₂.append hrun₃), has₃.trans has₂, ?_, hxi, hyx.trans hxi⟩
  rw [hau₃, hau₂]
  rfl

end Forwarded

/-- A client with one message of `n` bytes. -/
def oneMessageOf (n : UInt32) : NbSysArgs := ⟨7, 1, 1, 0, n, 0⟩

/-- The addresses of the upstream and of the client. -/
def upstreamAddr : SockAddr := .inet 10103 16777343

def clientAddr : SockAddr := .inet 10101 16777343

/-- The chain with this client has handled its message. -/
theorem exists_run_oneMessageOf {n : UInt32} (hn : 16 ≤ n.toNat) {m : Bytes}
    (hm : m.length = (oneMessageOf n).tableBytes.toNat) : ∃ s₀ es σ x y,
      UdpClient.run UdpClient.localSetup (oneMessageOf n) ⟨0, 0⟩ m = .loop s₀ ∧
      Run (Step fun _ : Unit => oneMessageOf n) (start (fun _ => s₀) upstreamAddr) es σ ∧
      σ.atServer = [x] ∧ σ.atUpstream = [y] ∧ x.origin = () ∧ y.origin = () := by
  have ha : (oneMessageOf n).Sized := by
    refine ⟨hn, ?_⟩
    show n.toNat * 1 * 1 < 2 ^ 32
    rw [Nat.mul_one, Nat.mul_one]
    exact n.toNat_lt
  obtain ⟨T, hprep, hT⟩ := NbSysArgs.prepare_prepared ha hm
  have hadm : UdpClient.localSetup.admitted = true := by decide
  have hstart : UdpClient.run UdpClient.localSetup (oneMessageOf n) ⟨0, 0⟩ m =
      .loop (UdpClient.start ⟨0, 0⟩ T) := by
    rw [UdpClient.run, if_pos hadm, hprep]
  have hsa : nbSockaddrEqual upstreamAddr clientAddr = false := by decide
  obtain ⟨es, σ, x, y, hrun⟩ : ∃ es σ x y, Run (Step fun _ : Unit => oneMessageOf n)
      (start (fun _ => UdpClient.start ⟨0, 0⟩ T) upstreamAddr) es σ ∧ σ.atServer = [x] ∧
      σ.atUpstream = [y] ∧ x.origin = () ∧ y.origin = () :=
    exists_run_forwarded (i := ()) rfl hT (show (0 : UInt32) < 1 by decide)
      (show (0 : UInt32) < 1 by decide) rfl hsa
  exact ⟨_, es, σ, x, y, hstart, hrun⟩

/-- A message of 1024 bytes. -/
theorem intact_of_kilobyte : ∃ s₀ es σ x y,
    UdpClient.run UdpClient.localSetup (oneMessageOf 1024) ⟨0, 0⟩ (List.replicate 1024 0) =
      .loop s₀ ∧
    Run (Step fun _ : Unit => oneMessageOf 1024) (start (fun _ => s₀) upstreamAddr) es σ ∧
    σ.atServer = [x] ∧ σ.atUpstream = [y] ∧ Intact (fun _ => oneMessageOf 1024) σ := by
  have hm : (List.replicate 1024 (0 : UInt8)).length = (oneMessageOf 1024).tableBytes.toNat :=
    List.length_replicate
  obtain ⟨s₀, es, σ, x, y, hstart, hrun, hx, hy, -⟩ := exists_run_oneMessageOf (by decide) hm
  refine ⟨s₀, es, σ, x, y, hstart, hrun, hx, hy, ?_⟩
  exact (intact_iff_of_run (fun _ => ⟨by decide, by decide⟩) (fun _ => hm) (fun _ => hstart) hrun).mpr
    fun _ _ => Nat.le_refl _

/-- Of a message of 2000 bytes both receivers record 1024, both assertions fail, and what
the upstream gets no client has sent. -/
theorem long_message_truncated : ∃ s₀ es σ x y,
    UdpClient.run UdpClient.localSetup (oneMessageOf 2000) ⟨0, 0⟩ (List.replicate 2000 0) =
      .loop s₀ ∧
    Run (Step fun _ : Unit => oneMessageOf 2000) (start (fun _ => s₀) upstreamAddr) es σ ∧
    σ.atServer = [x] ∧ σ.atUpstream = [y] ∧
    (recvRecords .serverRcv x.events).map Record.msgSize = [1024] ∧
    (recvRecords .upstreamRcv y.events).map Record.msgSize = [1024] ∧
    .assertFailed .numBytes ∈ x.events ∧ .assertFailed .numBytes ∈ y.events ∧
    ¬ (σ.client ()).Emitted y.datagram ∧ ¬ Intact (fun _ => oneMessageOf 2000) σ := by
  have hm : (List.replicate 2000 (0 : UInt8)).length = (oneMessageOf 2000).tableBytes.toNat :=
    List.length_replicate
  obtain ⟨s₀, es, σ, x, y, hstart, hrun, hx, hy, -⟩ := exists_run_oneMessageOf (by decide) hm
  obtain ⟨T, h⟩ := linked_of_run (fun _ => ⟨by decide, by decide⟩) (fun _ => hm)
    (fun _ => hstart) hrun
  have hxmem : x ∈ σ.atServer := hx ▸ List.mem_cons_self
  obtain ⟨hsent, hrcv⟩ := h.atServer x hxmem
  obtain ⟨k, hk⟩ := h.message hsent
  have hlen : x.datagram.length = 2000 := hk.1
  have hfit : (fitting x.datagram).length = 1024 := by
    rw [length_fitting, hlen]
    rfl
  -- the copy at the upstream
  obtain ⟨x', hx', -, hcopy, hrcv'⟩ := h.atUpstream y (hy ▸ List.mem_cons_self)
  obtain rfl : x' = x := by
    rw [hx] at hx'
    exact List.mem_singleton.mp hx'
  have hlen' : y.datagram.length = 1024 := hcopy ▸ hfit
  have hfit' : (fitting y.datagram).length = 1024 := by
    rw [length_fitting, hlen']
    rfl
  have hhdr' : MsgHdr.decode y.datagram = (oneMessageOf 2000).msgHdr := by
    rw [hcopy, ← hk.hdr]
    exact MsgHdr.decode_take (by omega) (by decide)
  refine ⟨s₀, es, σ, x', y, hstart, hrun, hx, hy, ?_, ?_, ?_, ?_, ?_, ?_⟩
  · rw [hrcv.records, List.map_singleton, recordOfBytes, hfit]
    rfl
  · rw [hrcv'.records, List.map_singleton, recordOfBytes, hfit']
    rfl
  · rw [assertFailed_iff hrcv hk.hdr (by decide) (by decide), hfit]
    decide
  · rw [assertFailed_iff hrcv' hhdr' (by decide) (by decide), hfit']
    decide
  · intro hsent'
    obtain ⟨k', hk'⟩ := h.message hsent'
    exact absurd (hlen'.symm.trans hk'.1) (by decide)
  · intro hintact
    exact absurd (h.le_of_intact hintact x' hxmem) (by decide)

end UdpChain

end NetBench

/-
# `NetBench.UdpCounts` — how often each message arrives over datagrams

`NetBench.ChainCounts` for the UDP chain.  The network may lose and reorder datagrams; if it
does not duplicate them (`Unduplicated`), the messages have at most 1024 bytes and no two
clients share a user id, the upstream has for message `j` of a client

    at most   the short and failed sends of later messages of its round
              + 1 if the client is past message j

records, and that many if nothing was lost (`udp_counted_of_run`).
-/
import NetBench.ChainCounts
import NetBench.UdpRelay

namespace NetBench

open Lib

/-! ## Datagrams -/

/-- The datagram that the socket has taken in an event. -/
def Ev.fullDatagram : Ev → Option Bytes
  | .write _ buf acc => if acc = buf then some buf else none
  | _ => none

/-- The datagrams that a client's sockets have taken, in order. -/
def fullDatagrams (log : List Ev) : List Bytes := log.filterMap Ev.fullDatagram

theorem map_keyOf_fullDatagrams (log : List Ev) : (fullDatagrams log).map keyOf = writtenKeys log := by
  rw [fullDatagrams, writtenKeys, List.map_filterMap, List.map_filterMap]
  refine List.filterMap_congr fun e _ => ?_
  cases e with
  | write c buf acc =>
      by_cases hfull : acc = buf
      · simp [Ev.fullDatagram, Ev.writeLane, hfull]
      · simp [Ev.fullDatagram, Ev.writeLane, hfull]
  | record | assertFailed | exit => rfl

/-- A message that fits the buffer is recorded with its key. -/
theorem key_recordOfBytes (act : Action) (d : Bytes) : (recordOfBytes act d).key = keyOf d := rfl

namespace Arrival

variable {ι : Type} (x : Arrival ι)

/-- The datagram, with the client that it comes from. -/
def tagged : ι × Bytes := (x.origin, x.datagram)

/-- The datagram that the socket has taken in an event of the server. -/
def taken : RecvEv → Option Bytes
  | .sendto _ _ buf acc => if acc = buf then some buf else none
  | _ => none

/-- The datagrams that were sent on when `x` was handled. -/
def forwards : List (ι × Bytes) := (x.events.filterMap taken).map (x.origin, ·)

variable {x}

theorem taken_sublist (evs : List RecvEv) :
    (evs.filterMap taken).Sublist ((sendsOf evs).map fun y => y.2.2) := by
  induction evs with
  | nil => exact List.Sublist.slnil
  | cons e evs ih =>
      rw [List.filterMap_cons, sendsOf, List.filterMap_cons]
      cases e with
      | sendto c dst buf acc =>
          by_cases hfull : acc = buf
          · simp only [taken, if_pos hfull, RecvEv.sendOf, List.map_cons]
            exact ih.cons_cons _
          · simp only [taken, if_neg hfull, RecvEv.sendOf, List.map_cons]
            exact ih.cons _
      | record | assertFailed => exact ih

/-- The server sends a datagram on at most once. -/
theorem forwards_sublist {sa : SockAddr} {src : SockAddr}
    (h : Relayed sa [(src, x.datagram)] x.events) (hle : x.datagram.length ≤ 1024) :
    x.forwards.Sublist [x.tagged] := by
  have hsub := (taken_sublist x.events).map (x.origin, ·)
  rw [h.sent, List.map_map, List.map_map, foreign, List.filter_singleton] at hsub
  refine hsub.trans ?_
  cases nbSockaddrEqual sa src with
  | true => exact List.nil_sublist _
  | false =>
      show [(x.origin, fitting x.datagram)].Sublist _
      rw [fitting_of_le hle]
      exact List.Sublist.refl _

/-- It has done so if the socket has taken the datagram. -/
theorem forwards_eq {sa src : SockAddr} (h : Relayed sa [(src, x.datagram)] x.events)
    (hle : x.datagram.length ≤ 1024) (hx : x.Forwarded sa x.datagram) :
    x.forwards = [x.tagged] := by
  obtain ⟨c, hmem⟩ := hx
  have hmem : x.tagged ∈ x.forwards :=
    List.mem_map.mpr ⟨_, List.mem_filterMap.mpr ⟨_, hmem, if_pos rfl⟩, rfl⟩
  rcases List.sublist_singleton.mp (forwards_sublist h hle) with hnil | hone
  · rw [hnil] at hmem
    cases hmem
  · exact hone

end Arrival

/-- Without a datagram the upstream leaves nothing. -/
theorem UdpUpstream.Step.silent {s s' : UdpUpstream} {e : UdpUpstreamEvent}
    (h : UdpUpstream.Step s e s') (he : e.datagram = none) : s'.log = s.log := by
  cases h with
  | @message c r stack hc hstack =>
      obtain rfl : r = none := he
      rfl
  | add | close | release => rfl

namespace UdpChain

variable {ι : Type} [DecidableEq ι] {a : ι → NbSysArgs} {T : ι → Bytes} {σ σ' : UdpChain ι}

/-! ## The invariant -/

/-- The datagrams that the server has sent on. -/
def forwards (σ : UdpChain ι) : List (ι × Bytes) := σ.atServer.flatMap Arrival.forwards

/-- What the clients have sent, what the server has done with each arrival, and that the log
of the upstream is what it has done with its own. -/
structure Counted (a : ι → NbSysArgs) (T : ι → Bytes) (σ : UdpChain ι) : Prop where
  linked : Linked a T σ
  retried : ∀ i, UdpClient.Retried (a i) (T i) (σ.client i)
  bound : UdpServer.Bound σ.server
  relayed : ∀ x ∈ σ.atServer, ∃ src, Relayed σ.server.upstreamSa [(src, x.datagram)] x.events
  log : σ.upstream.log = σ.atUpstream.flatMap Arrival.events

omit [DecidableEq ι] in
theorem counted_start {s₀ : ι → UdpClient} (ts : ι → Timespec)
    (hs₀ : ∀ i, s₀ i = UdpClient.start (ts i) (T i)) (sa : SockAddr) :
    Counted a T (start s₀ sa) where
  linked := linked_start ts hs₀ sa
  retried i := by
    show UdpClient.Retried (a i) (T i) (s₀ i)
    rw [hs₀ i]
    exact UdpClient.retried_start (ts i)
  bound := UdpServer.bound_start sa
  relayed _ hx := nomatch hx
  log := rfl

theorem Counted.step (ha : ∀ i, (a i).Fits) (hT : ∀ i, (a i).Prepared (T i)) (h : Counted a T σ)
    {e : UdpChainEvent ι} (hs : Step a σ e σ') : Counted a T σ' := by
  have hlinked := h.linked.step (fun i => (ha i).sized) hT hs
  cases hs with
  | @client i e s hs =>
      refine ⟨hlinked, ?_, h.bound, h.relayed, h.log⟩
      exact (Function.forall_update_iff σ.client fun j t => t.Retried (a j) (T j)).mpr
        ⟨(h.retried i).step (ha i) (hT i) hs, fun j _ => h.retried j⟩
  | @server e s he hs =>
      obtain ⟨hb, hsa, _⟩ := hs.relays h.bound
      exact ⟨hlinked, h.retried, hb, hsa ▸ h.relayed, h.log⟩
  | @serverReceives i e s d evs he hd hs hlog =>
      obtain ⟨hb, hsa, evs', hlog', hrel⟩ := hs.relays h.bound
      refine ⟨hlinked, h.retried, hb, fun x hx => ?_, h.log⟩
      show ∃ src, Relayed s.upstreamSa _ _
      rw [hsa]
      rcases List.mem_append.mp hx with hx | hx
      · exact h.relayed x hx
      · obtain rfl := List.mem_singleton.mp hx
        obtain rfl : evs' = evs := List.append_cancel_left (hlog'.symm.trans hlog)
        -- a datagram of a client is not empty
        obtain ⟨k, hk⟩ := h.linked.message hd
        have hne : d ≠ [] := by
          rintro rfl
          exact absurd (hk.1.symm ▸ hk.ge) (by decide)
        cases e with
        | message c src r stack w =>
            obtain rfl : r = some d := he
            rw [UdpServer.incoming, if_neg hne] at hrel
            exact ⟨src, hrel⟩
        | add | close | release => cases he
  | upstream he hs =>
      exact ⟨hlinked, h.retried, h.bound, h.relayed, (hs.silent he).trans h.log⟩
  | @upstreamReceives x e s d evs he hx hd hs hlog =>
      refine ⟨hlinked, h.retried, h.bound, h.relayed, ?_⟩
      rw [List.flatMap_append, List.flatMap_singleton, ← h.log]
      exact hlog

/-! ## The network -/

/-- No datagram is delivered more often than it was taken. -/
structure Unduplicated (σ : UdpChain ι) : Prop where
  server : ∀ i, (lane i (σ.atServer.map Arrival.tagged)).Subperm (fullDatagrams (σ.client i).log)
  upstream : (σ.atUpstream.map Arrival.tagged).Subperm (forwards σ)

/-- Every datagram is delivered as often as it was taken, and every one that has reached the
server was sent on. -/
structure Lossless (σ : UdpChain ι) : Prop where
  server : ∀ i, (lane i (σ.atServer.map Arrival.tagged)).Perm (fullDatagrams (σ.client i).log)
  relayed : (forwards σ).length = σ.atServer.length
  upstream : (σ.atUpstream.map Arrival.tagged).Perm (forwards σ)

/-- The messages that have arrived at the upstream, with their clients. -/
def arrivedKeys (σ : UdpChain ι) : List (ι × MsgKey) :=
  σ.atUpstream.map fun y => (y.origin, keyOf y.datagram)

theorem lane_arrivedKeys (σ : UdpChain ι) (i : ι) :
    lane i (arrivedKeys σ) = (lane i (σ.atUpstream.map Arrival.tagged)).map keyOf := by
  rw [lane, lane, arrivedKeys, List.filterMap_map, List.filterMap_map, List.map_filterMap]
  refine List.filterMap_congr fun y _ => ?_
  by_cases hi : y.origin = i
  · simp [Arrival.tagged, hi]
  · simp [Arrival.tagged, hi]

/-- A part of the items is a part of those of each writer. -/
theorem lane_subperm {xs ys : List (ι × Bytes)} (h : xs.Subperm ys) (i : ι) :
    (lane i xs).Subperm (lane i ys) := by
  obtain ⟨zs, hzs, hsub⟩ := h
  exact ⟨lane i zs, hzs.filterMap _, hsub.filterMap _⟩

omit [DecidableEq ι] in
/-- With messages that fit the buffer, what is sent on has arrived. -/
theorem Counted.forwards_sublist (ha : ∀ i, (a i).msgSize.toNat ≤ 1024) (h : Counted a T σ) :
    (forwards σ).Sublist (σ.atServer.map Arrival.tagged) := by
  have hall : ∀ xs ⊆ σ.atServer,
      (xs.flatMap Arrival.forwards).Sublist (xs.map Arrival.tagged) := by
    intro xs hxs
    induction xs with
    | nil => exact List.Sublist.slnil
    | cons x xs ih =>
        obtain ⟨hx, hrest⟩ := List.cons_subset.mp hxs
        obtain ⟨src, hrel⟩ := h.relayed x hx
        obtain ⟨k, hk⟩ := h.linked.message (h.linked.atServer x hx).1
        rw [List.flatMap_cons, List.map_cons, ← List.singleton_append (l := xs.map _)]
        exact (Arrival.forwards_sublist hrel (hk.1.symm ▸ ha x.origin)).append (ih hrest)
  exact hall σ.atServer (List.Subset.refl _)

omit [DecidableEq ι] in
/-- The upstream has one record for each arrival. -/
theorem Counted.map_key_records (ha : ∀ i, (a i).msgSize.toNat ≤ 1024) (h : Counted a T σ) :
    (recvRecords .upstreamRcv σ.upstream.log).map Record.key = (arrivedKeys σ).map Prod.snd := by
  have hall : ∀ ys ⊆ σ.atUpstream,
      (recvRecords .upstreamRcv (ys.flatMap Arrival.events)).map Record.key =
        ys.map fun y => keyOf y.datagram := by
    intro ys hys
    induction ys with
    | nil => rfl
    | cons y ys ih =>
        obtain ⟨hy, hrest⟩ := List.cons_subset.mp hys
        obtain ⟨x, hx, _, hfit, hrcv⟩ := h.linked.atUpstream y hy
        obtain ⟨k, hk⟩ := h.linked.message (h.linked.atServer x hx).1
        have hle : y.datagram.length ≤ 1024 := by
          rw [hfit, fitting_of_le (hk.1.symm ▸ ha x.origin), hk.1]
          exact ha x.origin
        rw [List.flatMap_cons, recvRecords_append, List.map_append, ih hrest, hrcv.records,
          List.map_singleton, key_recordOfBytes, fitting_of_le hle]
        rfl
  rw [h.log, hall σ.atUpstream (List.Subset.refl _), arrivedKeys, List.map_map]
  rfl

/-- The messages of a client that have arrived are among those that it has sent. -/
theorem Counted.lane_subperm_sent (ha : ∀ i, (a i).msgSize.toNat ≤ 1024) (h : Counted a T σ)
    (hnet : Unduplicated σ) (i : ι) :
    (lane i (arrivedKeys σ)).Subperm (writtenKeys (σ.client i).log) := by
  have hsub : (lane i (σ.atUpstream.map Arrival.tagged)).Subperm
      (fullDatagrams (σ.client i).log) :=
    (lane_subperm (hnet.upstream.trans (h.forwards_sublist ha).subperm) i).trans (hnet.server i)
  obtain ⟨zs, hzs, hsub⟩ := hsub
  rw [lane_arrivedKeys, ← map_keyOf_fullDatagrams]
  exact ⟨zs.map keyOf, hzs.map keyOf, hsub.map keyOf⟩

/-- Without losses all of them have arrived. -/
theorem Counted.lane_perm_sent (ha : ∀ i, (a i).msgSize.toNat ≤ 1024) (h : Counted a T σ)
    (hnet : Lossless σ) (i : ι) :
    (lane i (arrivedKeys σ)).Perm (writtenKeys (σ.client i).log) := by
  have hrelay := (h.forwards_sublist ha).eq_of_length
    (hnet.relayed.trans (List.length_map ..).symm)
  have hperm : (lane i (σ.atUpstream.map Arrival.tagged)).Perm (fullDatagrams (σ.client i).log) :=
    ((hrelay ▸ hnet.upstream).filterMap _).trans (hnet.server i)
  rw [lane_arrivedKeys, ← map_keyOf_fullDatagrams]
  exact hperm.map keyOf

/-- In every run of clients that `run` has started, with messages that fit the buffer and
different user ids: over a network that duplicates nothing, the upstream has at most as many
records of message `j` of a client as there were short or failed sends of later messages of
its round, and one more if the client is past it; where nothing was lost, it has exactly so
many. -/
theorem udp_counted_of_run {u : ι → UdpClient.Setup} {ts : ι → Timespec} {m : ι → Bytes}
    {s₀ : ι → UdpClient} {sa : SockAddr} {es : List (UdpChainEvent ι)}
    (ha : ∀ i, (a i).Fits) (hle : ∀ i, (a i).msgSize.toNat ≤ 1024)
    (hid : Function.Injective fun i => (a i).userId)
    (hm : ∀ i, (m i).length = (a i).tableBytes.toNat)
    (hstart : ∀ i, UdpClient.run (u i) (a i) (ts i) (m i) = .loop (s₀ i))
    (hrun : Run (Step a) (start s₀ sa) es σ) (i : ι) {j : Nat} (hj : j < (a i).total) :
    (Unduplicated σ → ((recvRecords .upstreamRcv σ.upstream.log).map Record.key).count
        (TcpClient.msgKey (a i) j) ≤
      Retry.failuresBehind (a i).numPerRound.toNat j (sends (σ.client i).log) +
        if j < UdpClient.done (a i) (σ.client i) then 1 else 0) ∧
    (Lossless σ → ((recvRecords .upstreamRcv σ.upstream.log).map Record.key).count
        (TcpClient.msgKey (a i) j) =
      Retry.failuresBehind (a i).numPerRound.toNat j (sends (σ.client i).log) +
        if j < UdpClient.done (a i) (σ.client i) then 1 else 0) := by
  choose T hT hs₀ using fun i => UdpClient.loop_of_run (ha i).sized (hm i) (hstart i)
  have h : Counted a T σ := hrun.invariant (I := Counted a T)
    (fun _ _ _ h hs => h.step ha hT hs) (counted_start ts hs₀ sa)
  have hsent : (writtenKeys (σ.client i).log).count (TcpClient.msgKey (a i) j) =
      Retry.failuresBehind (a i).numPerRound.toNat j (sends (σ.client i).log) +
        if j < UdpClient.done (a i) (σ.client i) then 1 else 0 := by
    rw [TcpClient.count_writtenKeys (ha i) (hT i) hj (h.retried i).resends.slices,
      (h.retried i).resends.count hj]
  -- a key belongs to one client
  have howner : ∀ x ∈ arrivedKeys σ, x.2 = TcpClient.msgKey (a i) j → x.1 = i := by
    intro x hx hkey
    obtain ⟨y, hy, rfl⟩ := List.mem_map.mp hx
    obtain ⟨x', hx', horigin, hfit, _⟩ := h.linked.atUpstream y hy
    obtain ⟨⟨c, hw⟩, _⟩ := h.linked.atServer x' hx'
    obtain ⟨q, hq, hslice⟩ := (h.retried x'.origin).resends.slices c _ _ hw
    have hd : y.datagram = (a x'.origin).slice (T x'.origin) q := by
      rw [hfit, hslice, fitting_of_le (((hT x'.origin).message q hq).1.symm ▸ hle x'.origin)]
    rw [hd, TcpClient.keyOf_slice (hT x'.origin) hq] at hkey
    exact horigin ▸ hid (congrArg MsgKey.userId hkey)
  rw [h.map_key_records hle, count_map_snd howner, ← hsent]
  exact ⟨fun hnet => (h.lane_subperm_sent hle hnet i).count_le _,
    fun hnet => (h.lane_perm_sent hle hnet i).count_eq _⟩

open UdpServer (shortMessage)

/-- A client of one message of 16 bytes has sent it. -/
theorem exists_run_sent : ∃ es s, Run (UdpClient.Step (oneMessageOf 16))
      (UdpClient.start ⟨0, 0⟩ shortMessage) es s ∧ s.Emitted shortMessage ∧
    fullDatagrams s.log = [shortMessage] ∧ sends s.log = [(0, true)] ∧
    UdpClient.done (oneMessageOf 16) s = 1 := by
  have hT : (oneMessageOf 16).Prepared shortMessage :=
    NbSysArgs.prepared_of_prepare (m := List.replicate 16 0) ⟨by decide, by decide⟩ (by decide)
      (by decide)
  refine ⟨[.add 0, .timer ⟨0, 0⟩, .send _], _, .cons (.add rfl List.mem_cons_self) (.cons (.timer rfl)
    (.single (.send rfl (by decide) rfl
      (UdpClient.sendOne_full (k := 16) hT (d := 0) (by decide) rfl rfl rfl (by decide))))),
    ⟨0, ?_⟩, ?_, ?_, ?_⟩
  · decide
  · decide
  · decide
  · decide

/-- Nothing is lost, and the message arrives once. -/
theorem udp_counted_of_run_one_message : ∃ s₀ es σ,
    UdpClient.run UdpClient.localSetup (oneMessageOf 16) ⟨0, 0⟩ (List.replicate 16 0) = .loop s₀ ∧
    Run (Step fun _ : Unit => oneMessageOf 16) (start (fun _ => s₀) upstreamAddr) es σ ∧
    Lossless σ ∧ ((recvRecords .upstreamRcv σ.upstream.log).map Record.key).count
      (TcpClient.msgKey (oneMessageOf 16) 0) = 0 + 1 := by
  have hstart : UdpClient.run UdpClient.localSetup (oneMessageOf 16) ⟨0, 0⟩ (List.replicate 16 0) =
      .loop (UdpClient.start ⟨0, 0⟩ shortMessage) := by
    have hprep : (oneMessageOf 16).prepare (List.replicate 16 0) = some shortMessage := by decide
    rw [UdpClient.run, if_pos (by decide), hprep]
  have hstack : (List.replicate sizeofBuf (0 : UInt8)).length = sizeofBuf := List.length_replicate
  have hlen : 16 ≤ shortMessage.length := by decide
  have hle : shortMessage.length ≤ 1024 := by decide
  have hfit : fitting shortMessage = shortMessage := fitting_of_le hle
  -- the client sends its message
  obtain ⟨es, s, hsent, hemit, hfull, hsends, hdone⟩ := exists_run_sent
  obtain ⟨⟨client, _, _, _, _⟩, hrun, hclient, rfl, rfl, rfl, rfl⟩ :=
    run_client (a := fun _ : Unit => oneMessageOf 16) (i := ()) hsent
      (σ := start (fun _ => UdpClient.start ⟨0, 0⟩ shortMessage) upstreamAddr) rfl
  obtain rfl : client () = s := hclient
  -- the server sends it on
  obtain ⟨t, ht, hctx, hlive, hsa⟩ : ∃ t, UdpServer.Step (.start upstreamAddr) (.add 0) t ∧
      t.ctx = some 0 ∧ 0 ∈ t.loop.live ∧ t.upstreamSa = upstreamAddr :=
    ⟨_, .add List.mem_cons_self, rfl, List.mem_cons_self, rfl⟩
  obtain ⟨rcv, snd, -, -, hsnd, hmsg⟩ :=
    UdpServer.onMessage_some hstack hlen clientAddr (.accept 16) t
  have hacc : (ctxSendto (.accept 16) (fitting shortMessage)).2 = shortMessage := by
    rw [hfit]
    decide
  have hfwd := hsnd 0
  rw [hacc, hfit, hsa] at hfwd
  rw [hsa, if_neg (by decide), hctx, Option.map_some] at hmsg
  have hmsg : UdpServer.Step t (.message 0 clientAddr (some shortMessage) _ (.accept 16)) _ :=
    .message hlive hstack hmsg
  have hbound : UdpServer.Bound t := (ht.relays (UdpServer.bound_start _)).1
  obtain ⟨-, -, evs, hlog, hrel⟩ := hmsg.relays hbound
  obtain rfl : rcv ++ snd 0 = evs := List.append_cancel_left hlog
  rw [hsa] at hrel
  -- the upstream has it
  obtain ⟨v, hv, hlive'⟩ : ∃ v, UdpUpstream.Step .start (.add 0) v ∧ 0 ∈ v.loop.live :=
    ⟨_, .add List.mem_cons_self, List.mem_cons_self⟩
  have hrcv : UdpUpstream.Step v (.message 0 (some shortMessage) _) _ := .message hlive' hstack
  obtain ⟨evs', hlog', -⟩ := hrcv.received rfl hlen
  have hx : Arrival.Forwarded upstreamAddr ⟨(), shortMessage, rcv ++ snd 0⟩ shortMessage :=
    ⟨0, List.mem_append_right _ hfwd⟩
  obtain ⟨es, σ, hrun, hc, hs, hu⟩ : ∃ es σ, Run (Step fun _ : Unit => oneMessageOf 16)
      (start (fun _ => UdpClient.start ⟨0, 0⟩ shortMessage) upstreamAddr) es σ ∧
      σ.client = client ∧ σ.atServer = [⟨(), shortMessage, rcv ++ snd 0⟩] ∧
      σ.atUpstream = [⟨(), shortMessage, evs'⟩] :=
    ⟨_, _, hrun.append (.cons (.server rfl ht) (.cons (.serverReceives rfl hemit hmsg rfl)
      (.cons (.upstream rfl hv)
        (.single (.upstreamReceives rfl List.mem_cons_self hx hrcv hlog'))))), rfl, rfl, rfl⟩
  have hforwards : forwards σ = [((), shortMessage)] := by
    rw [forwards, hs, List.flatMap_singleton]
    exact Arrival.forwards_eq hrel hle hx
  have hnet : Lossless σ := by
    refine ⟨fun i => ?_, ?_, ?_⟩
    · rw [hs, hc, hfull]
      exact .refl _
    · rw [hforwards, hs]
      rfl
    · rw [hforwards, hu]
      exact .refl _
  have hcount := (udp_counted_of_run (fun _ => ⟨by decide, by decide, by decide⟩)
    (fun _ => by decide) (Function.injective_of_subsingleton _) (fun _ => List.length_replicate)
    (fun _ => hstart) hrun () (j := 0) (by decide)).2 hnet
  rw [hc, hsends, hdone] at hcount
  exact ⟨_, es, σ, hstart, hrun, hnet, hcount⟩

end UdpChain

end NetBench

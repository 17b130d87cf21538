/-
# `NetBench.ChainRecords` — no message is made up, reordered or resized

The records of the two receivers against the full writes of the hop before.

    server.rcv on `c`     ⊑  what the client wrote in full at its other end
    upstream.rcv on `x`   ⊑  what the server wrote in full at its other end,
                             in the order of server.rcv
    upstream.rcv          has an earlier client.snd_begin with the same fields
-/
import NetBench.Chain

namespace NetBench

open Lib

/-- The keys of all records with the action `x`, on whatever context. -/
def records (x : Action) (log : List Ev) : List MsgKey :=
  log.filterMap fun
    | .record _ r => if r.action = x then some r.key else none
    | _ => none

namespace TcpServer

/-! ## The records of handled frames -/

theorem records_withoutAsserts (x : Action) (log : List Ev) :
    records x (withoutAsserts log) = records x log := by
  induction log with
  | nil => rfl
  | cons e log ih =>
      cases e with
      | assertFailed d y => exact ih
      | exit => exact ih
      | write d buf acc => exact ih
      | record d r =>
          show records x (.record d r :: withoutAsserts log) = _
          unfold records at ih ⊢
          rw [List.filterMap_cons, List.filterMap_cons, ih]

theorem records_events (h : Handled) : records .serverRcv h.events = [h.key] := by
  obtain ⟨src, frame, key, out⟩ := h
  cases out with
  | none => rfl
  | some p => rfl

/-- The records of a client are those of its frames. -/
theorem recordsOn_flatMap (c : Nat) : ∀ {H : List Handled},
    (∀ h ∈ H, h.key = keyOf h.frame) →
      recordsOn .serverRcv (H.flatMap Handled.events) c = (framesFrom c H).map keyOf
  | [], _ => rfl
  | h :: H, hkey => by
      have ih := recordsOn_flatMap c fun x hx => hkey x (List.mem_cons_of_mem _ hx)
      rw [List.flatMap_cons, recordsOn_append, recordsOn_events, ih, framesFrom, framesFrom,
        List.filterMap_cons, hkey h List.mem_cons_self]
      by_cases hc : h.src = c
      · rw [if_pos hc, if_pos hc]
        rfl
      · rw [if_neg hc, if_neg hc]
        rfl

/-- What a connection has accepted in full is recorded in this order. -/
theorem sent_sublist (u : Nat) : ∀ {H : List Handled}, (∀ h ∈ H, h.key = keyOf h.frame) →
    ((H.filterMap (Handled.sentTo u)).map keyOf).Sublist
      (records .serverRcv (H.flatMap Handled.events))
  | [], _ => List.Sublist.slnil
  | h :: H, hkey => by
      have ih := sent_sublist u fun x hx => hkey x (List.mem_cons_of_mem _ hx)
      have hrec : records .serverRcv ((h :: H).flatMap Handled.events) =
          h.key :: records .serverRcv (H.flatMap Handled.events) := by
        rw [List.flatMap_cons, records, List.filterMap_append]
        exact congrArg (· ++ _) (records_events h)
      rw [hrec, List.filterMap_cons]
      cases hsent : h.sentTo u with
      | none => exact ih.cons _
      | some f =>
          have hf : f = h.frame := by
            unfold Handled.sentTo at hsent
            split at hsent
            · cases hsent
            · split at hsent
              · exact (Option.some.inj hsent).symm
              · cases hsent
          rw [List.map_cons, hf, ← hkey h List.mem_cons_self]
          exact ih.cons_cons _

end TcpServer

namespace Chain

variable {ι β : Type} [DecidableEq ι] {a : ι → NbSysArgs} {B : BytesBuffer β} {b₀ : β}
  {T : ι → Bytes} {contents : β → Bytes} {cap : Nat} {σ σ' : Chain ι β}
  {H : List TcpServer.Handled} {F : Nat → List Bytes}

/-! ## The records of a state -/

theorem Linked.keys (ha : ∀ i, (a i).Fits) (hT : ∀ i, (a i).Prepared (T i))
    (h : Linked a T contents H F σ) : ∀ x ∈ H, x.key = keyOf x.frame :=
  fun x hx => (h.relay.src x hx).2.key (h.handled ha hT hx).1.ge

theorem Linked.recordsOn_server (ha : ∀ i, (a i).Fits) (hT : ∀ i, (a i).Prepared (T i))
    (h : Linked a T contents H F σ) (c : Nat) :
    recordsOn .serverRcv σ.server.log c = (TcpServer.framesFrom c H).map keyOf := by
  rw [← TcpServer.recordsOn_withoutAsserts, h.relay.log,
    TcpServer.recordsOn_flatMap c (h.keys ha hT)]

theorem Linked.server_prefix (ha : ∀ i, (a i).Fits) (hT : ∀ i, (a i).Prepared (T i))
    (h : Linked a T contents H F σ) {c d : Nat} {i : ι} (hp : σ.peerOfServer c = some (i, d)) :
    recordsOn .serverRcv σ.server.log c <+: (fullWrites (σ.client i).log d).map keyOf := by
  rw [h.recordsOn_server ha hT]
  by_cases hc : c ∈ σ.server.accepted
  · exact (h.fromClient hc hp).map keyOf
  · -- nothing comes from a context that was not accepted
    have hnil : TcpServer.framesFrom c H = [] := by
      refine List.filterMap_eq_nil_iff.mpr fun x hx => ?_
      rw [if_neg]
      rintro rfl
      exact hc (h.relay.src x hx).1
    rw [hnil]
    exact List.nil_prefix

theorem Linked.recordsOn_upstream (ha : ∀ i, (a i).Fits) (hT : ∀ i, (a i).Prepared (T i))
    (h : Linked a T contents H F σ) {x d : Nat} (hp : σ.peerOfUpstream x = some d) :
    recordsOn .upstreamRcv σ.upstream.log x = (F x).map keyOf :=
  (h.takes x).records.eq_map fun _ hf =>
    ((h.onlyMsgs ha hT).fullWrites ((h.fromServer hp).subset hf)).ge

theorem Linked.upstream_prefix (ha : ∀ i, (a i).Fits) (hT : ∀ i, (a i).Prepared (T i))
    (h : Linked a T contents H F σ) {x d : Nat} (hp : σ.peerOfUpstream x = some d) :
    recordsOn .upstreamRcv σ.upstream.log x <+: (fullWrites σ.server.log d).map keyOf := by
  rw [h.recordsOn_upstream ha hT hp]
  exact (h.fromServer hp).map keyOf

/-- A record is only made on a context whose other end is known. -/
theorem Linked.server_linked (ha : ∀ i, (a i).Fits) (hT : ∀ i, (a i).Prepared (T i))
    (h : Linked a T contents H F σ) {c : Nat} {k : MsgKey}
    (hk : k ∈ recordsOn .serverRcv σ.server.log c) : ∃ p, σ.peerOfServer c = some p := by
  rw [h.recordsOn_server ha hT] at hk
  obtain ⟨f, hf, _⟩ := List.mem_map.mp hk
  obtain ⟨x, hx, hxf⟩ := List.mem_filterMap.mp hf
  by_cases hsrc : x.src = c
  · exact Option.isSome_iff_exists.mp (h.accepted c (hsrc ▸ (h.relay.src x hx).1))
  · rw [if_neg hsrc] at hxf
    cases hxf

theorem Linked.upstream_linked (h : Linked a T contents H F σ) {x : Nat} {k : MsgKey}
    (hk : k ∈ recordsOn .upstreamRcv σ.upstream.log x) : ∃ d, σ.peerOfUpstream x = some d := by
  rcases Option.eq_none_or_eq_some (σ.peerOfUpstream x) with hp | hp
  · -- no byte was read there, so no frame was taken
    obtain ⟨t, ht, _⟩ := (h.takes x).cut
    rw [(h.unlinked x hp).2] at ht
    have hrec := (h.takes x).records
    rw [(ht.of_short Framing.short_nil).1] at hrec
    cases hr : recordsOn .upstreamRcv σ.upstream.log x with
    | nil =>
        rw [hr] at hk
        cases hk
    | cons k' ks =>
        rw [hr] at hrec
        cases hrec
  · exact hp

/-- Behind every record of the upstream there is a handled frame with this key, that
some client has written. -/
theorem Linked.origin (ha : ∀ i, (a i).Fits) (hT : ∀ i, (a i).Prepared (T i))
    (h : Linked a T contents H F σ) {x : Nat} {k : MsgKey}
    (hk : k ∈ recordsOn .upstreamRcv σ.upstream.log x) :
    ∃ i d, .record d (k.record .clientSndBegin) ∈ (σ.client i).log := by
  obtain ⟨d, hp⟩ := h.upstream_linked hk
  obtain ⟨f, hf, rfl⟩ := List.mem_map.mp ((h.upstream_prefix ha hT hp).subset hk)
  obtain ⟨y, hy, _, rfl⟩ := h.written (mem_fullWrites.mp hf)
  obtain ⟨_, i, e, _, hfull⟩ := h.handled ha hT hy
  obtain ⟨j, hj, hslice, hbegin, _⟩ := (h.sent i).slices e _ _ (mem_fullWrites.mp hfull)
  refine ⟨i, e, ?_⟩
  rw [hslice, TcpClient.keyOf_slice (hT i) hj]
  exact hbegin

/-! ## The order of events -/

/-- An event of the log stands in the trace. -/
theorem Traced.mem (h : Traced σ) {p : Proc ι} {e : Ev} (he : e ∈ σ.logOf p) :
    ∃ b < σ.trace.length, σ.trace[b]? = some (p, e) := by
  rw [← h p] at he
  obtain ⟨⟨q, e'⟩, hmem, heq⟩ := List.mem_filterMap.mp he
  by_cases hq : q = p
  · rw [if_pos hq, Option.some.injEq] at heq
    subst hq heq
    obtain ⟨b, hb⟩ := List.mem_iff_getElem?.mp hmem
    exact ⟨b, (List.getElem?_eq_some_iff.mp hb).1, hb⟩
  · rw [if_neg hq] at heq
    cases heq

/-- Every `upstream.rcv` has an earlier `client.snd_begin` with the same fields. -/
def Announced (tr : List (Proc ι × Ev)) : Prop :=
  ∀ (q x : Nat) (k : MsgKey), tr[q]? = some (Proc.upstream, Ev.record x (k.record .upstreamRcv)) →
    ∃ b < q, ∃ i d, tr[b]? = some (Proc.client i, Ev.record d (k.record .clientSndBegin))

theorem Announced.step (ha : ∀ i, (a i).Fits) (hT : ∀ i, (a i).Prepared (T i))
    (h : Announced σ.trace) (ht : Traced σ) (h' : Linked a T contents H F σ') {p : Proc ι}
    {l : List Ev} (hm : Moves p l σ σ') : Announced σ'.trace := by
  intro q x k hq
  rw [hm.trace] at hq ⊢
  by_cases hlt : q < σ.trace.length
  · rw [List.getElem?_append_left hlt] at hq
    obtain ⟨b, hb, i, d, hbe⟩ := h q x k hq
    refine ⟨b, hb, i, d, ?_⟩
    rw [List.getElem?_append_left (Nat.lt_trans hb hlt)]
    exact hbe
  · -- a new record: its `client.snd_begin` is in the log of a process that did not move
    rw [List.getElem?_append_right (Nat.le_of_not_lt hlt)] at hq
    obtain ⟨e, he, heq⟩ := List.mem_map.mp (List.mem_of_getElem? hq)
    obtain ⟨rfl, rfl⟩ := Prod.mk.inj heq
    have hmem : k ∈ recordsOn .upstreamRcv σ'.upstream.log x := by
      refine List.mem_filterMap.mpr ⟨.record x (k.record .upstreamRcv), ?_, if_pos ⟨rfl, rfl⟩⟩
      have hlog : σ'.upstream.log = σ.upstream.log ++ l := hm.log
      rw [hlog]
      exact List.mem_append_right _ he
    obtain ⟨i, d, hbegin⟩ := h'.origin ha hT hmem
    have hsame : (σ'.client i).log = (σ.client i).log := hm.other (.client i) fun h => nomatch h
    rw [hsame] at hbegin
    obtain ⟨b, hb, hbe⟩ := ht.mem (p := .client i) hbegin
    refine ⟨b, Nat.lt_of_lt_of_le hb (Nat.le_of_not_lt hlt), i, d, ?_⟩
    rw [List.getElem?_append_left hb]
    exact hbe

/-! ## Runs -/

theorem linked_of_run (hB : B.Fifo contents cap) (h₀ : contents b₀ = []) (ha : ∀ i, (a i).Fits)
    (hT : ∀ i, (a i).Prepared (T i)) {ts : ι → Timespec} {es : List (ChainEvent ι)}
    (hrun : Run (Step a B b₀) (start ts T) es σ) :
    (∃ H F, Linked a T contents H F σ) ∧ Announced σ.trace := by
  refine hrun.invariant
    (I := fun σ => (∃ H F, Linked a T contents H F σ) ∧ Announced σ.trace) ?_
    ⟨⟨_, _, linked_start ts⟩, fun _ _ _ h => nomatch h⟩
  rintro σ e σ' ⟨⟨H, F, h⟩, hann⟩ hs
  obtain ⟨H', F', p, l, h', hm, _⟩ := h.step hB h₀ ha hT hs
  exact ⟨⟨H', F', h'⟩, hann.step ha hT h.traced h' hm⟩

/-- The chain makes up, reorders and resizes no message.  In every run with prepared tables:

* what a client writes in full are messages of its table, with its user id, their sequence
  and its message size;
* the `server.rcv` records of a context are, in order, the first of the messages that the
  client wrote in full at its other end, and no two contexts have the same other end;
* the `upstream.rcv` records of a context are, in order, the first of the messages that the
  server wrote in full at its other end, and those are in the order of `server.rcv`;
* every `upstream.rcv` comes after a `client.snd_begin` with the same fields. -/
theorem chain_records_of_run (hB : B.Fifo contents cap) (h₀ : contents b₀ = [])
    (ha : ∀ i, (a i).Fits)
    (hT : ∀ i, ∃ m, m.length = (a i).tableBytes.toNat ∧ (a i).prepare m = some (T i))
    {ts : ι → Timespec} {es : List (ChainEvent ι)}
    (hrun : Run (Step a B b₀) (start ts T) es σ) :
    (∀ i d, ∀ f ∈ fullWrites (σ.client i).log d, ∃ j < (a i).total,
      f = (a i).slice (T i) j ∧ keyOf f = ⟨(a i).userId, UInt32.ofNat j, (a i).msgSize⟩) ∧
    ((∀ c i d, σ.peerOfServer c = some (i, d) →
        recordsOn .serverRcv σ.server.log c <+: (fullWrites (σ.client i).log d).map keyOf) ∧
      (∀ c k, k ∈ recordsOn .serverRcv σ.server.log c → ∃ p, σ.peerOfServer c = some p) ∧
      ∀ c c' p, σ.peerOfServer c = some p → σ.peerOfServer c' = some p → c = c') ∧
    ((∀ x d, σ.peerOfUpstream x = some d →
        recordsOn .upstreamRcv σ.upstream.log x <+: (fullWrites σ.server.log d).map keyOf ∧
        ((fullWrites σ.server.log d).map keyOf).Sublist (records .serverRcv σ.server.log)) ∧
      (∀ x k, k ∈ recordsOn .upstreamRcv σ.upstream.log x → ∃ d, σ.peerOfUpstream x = some d) ∧
      ∀ x x' d, σ.peerOfUpstream x = some d → σ.peerOfUpstream x' = some d → x = x') ∧
    ∀ (q x : Nat) (k : MsgKey), σ.trace[q]? = some (Proc.upstream, Ev.record x (k.record .upstreamRcv)) →
      ∃ b < q, ∃ i d, σ.trace[b]? = some (Proc.client i, Ev.record d (k.record .clientSndBegin)) := by
  have hT' : ∀ i, (a i).Prepared (T i) := by
    intro i
    obtain ⟨m, hm, hprep⟩ := hT i
    exact NbSysArgs.prepared_of_prepare (ha i).sized hm hprep
  obtain ⟨⟨H, F, h⟩, hann⟩ := linked_of_run hB h₀ ha hT' hrun
  refine ⟨?_, ⟨?_, ?_, h.serverOnce⟩, ⟨?_, ?_, h.upstreamOnce⟩, hann⟩
  · intro i d f hf
    obtain ⟨j, hj, rfl, _⟩ := (h.sent i).slices d f f (mem_fullWrites.mp hf)
    exact ⟨j, hj, rfl, TcpClient.keyOf_slice (hT' i) hj⟩
  · intro c i d hp
    exact h.server_prefix ha hT' hp
  · intro c k hk
    exact h.server_linked ha hT' hk
  · intro x d hp
    refine ⟨h.upstream_prefix ha hT' hp, ?_⟩
    rw [← fullWrites_withoutAsserts, ← TcpServer.records_withoutAsserts, h.relay.log,
      TcpServer.fullWrites_flatMap]
    exact TcpServer.sent_sublist d (h.keys ha hT')
  · intro x k hk
    exact h.upstream_linked hk

/-- The assumption about the network where each hop has one connection. -/
theorem Delivers.of_links {σ : Chain Unit β} {c d x u : Nat}
    (hs : σ.peerOfServer = Function.update (fun _ => none) c (some ((), d)))
    (hu : σ.peerOfUpstream = Function.update (fun _ => none) x (some u))
    (hserver : σ.server.got c <+: wire (σ.client ()).log d)
    (hupstream : σ.upstream.got x <+: wire σ.server.log u) : σ.Delivers where
  server c' i d' hp := by
    rw [hs] at hp
    by_cases hc : c' = c
    · subst hc
      rw [Function.update_self, Option.some.injEq] at hp
      cases hp
      exact hserver
    · rw [Function.update_of_ne hc] at hp
      cases hp
  upstream x' u' hp := by
    rw [hu] at hp
    by_cases hx : x' = x
    · subst hx
      rw [Function.update_self, Option.some.injEq] at hp
      cases hp
      exact hupstream
    · rw [Function.update_of_ne hx] at hp
      cases hp

/-- One message goes through the chain. -/
def oneThrough : List (ChainEvent Unit) :=
  [.serverAccepts true () 0, .upstreamAccepts true 1, .server (.add 1 true),
    .client () (.add 0 ⟨0, 0⟩ true), .client () (.timer ⟨0, 0⟩), .client () (.send (.accept 16)),
    .server (.message 2), .server (.read (some ⟨TcpClient.oneMessageTable, by decide, by decide⟩)),
    .server (.read none), .server (.parse (.accept 16)), .upstream (.message 1),
    .upstream (.read (some ⟨TcpClient.oneMessageTable, by decide, by decide⟩)),
    .upstream (.read none), .upstream .parse]

/-- Its record at the upstream is that of a full write of the server, and of an earlier
`client.snd_begin`. -/
theorem chain_records_of_one_message : ∃ σ, Run (Step (fun _ : Unit => TcpClient.oneMessage)
      (ringBuffer netBenchTcpBufSize) (emptyRing netBenchTcpBufSize fun _ => 0))
      (start (fun _ => ⟨0, 0⟩) fun _ => TcpClient.oneMessageTable) oneThrough σ ∧
    recordsOn .upstreamRcv σ.upstream.log 1 = [⟨1, 0, 16⟩] ∧
    [⟨1, 0, 16⟩] <+: (fullWrites σ.server.log 1).map keyOf ∧
    ∃ b < 6, ∃ i d, σ.trace[b]? =
      some (Proc.client i, Ev.record d ((MsgKey.mk 1 0 16).record .clientSndBegin)) := by
  obtain ⟨σ, hrun, hrec, hpeer, hlast⟩ : ∃ σ, Run (Step (fun _ : Unit => TcpClient.oneMessage)
      (ringBuffer netBenchTcpBufSize) (emptyRing netBenchTcpBufSize fun _ => 0))
      (start (fun _ => ⟨0, 0⟩) fun _ => TcpClient.oneMessageTable) oneThrough σ ∧
      recordsOn .upstreamRcv σ.upstream.log 1 = [⟨1, 0, 16⟩] ∧ σ.peerOfUpstream 1 = some 1 ∧
      σ.trace[6]? =
        some (Proc.upstream, Ev.record 1 ((MsgKey.mk 1 0 16).record .upstreamRcv)) := by
    refine ⟨_, .cons (.serverAccepts (.connect rfl) fun _ h => nomatch h)
      (.cons (.upstreamAccepts (.connect rfl) fun _ h => nomatch h)
      (.cons (.server (.add rfl (by decide)) (fun _ h => nomatch h)
        (.of_links rfl rfl (by decide) (by decide)))
      (.cons (.client (.add rfl List.mem_cons_self))
      (.cons (.client (.timer rfl))
      (.cons (.client (.send rfl (by decide) rfl rfl))
      (.cons (.server (.message rfl (by decide) rfl) (fun _ h => nomatch h)
        (.of_links rfl rfl (by decide) (by decide)))
      (.cons (.server (.read rfl rfl) (fun _ h => nomatch h)
        (.of_links rfl rfl (by decide) (by decide)))
      (.cons (.server (.read rfl rfl) (fun _ h => nomatch h)
        (.of_links rfl rfl (by decide) (by decide)))
      (.cons (.server (.parse rfl rfl) (fun _ h => nomatch h)
        (.of_links rfl rfl (by decide) (by decide)))
      (.cons (.upstream (.message rfl (by decide) rfl) (fun _ h => nomatch h)
        (.of_links rfl rfl (by decide) (by decide)))
      (.cons (.upstream (.read rfl rfl) (fun _ h => nomatch h)
        (.of_links rfl rfl (by decide) (by decide)))
      (.cons (.upstream (.read rfl rfl) (fun _ h => nomatch h)
        (.of_links rfl rfl (by decide) (by decide)))
      (.cons (.upstream (.parse rfl rfl) (fun _ h => nomatch h)
        (.of_links rfl rfl (by decide) (by decide)))
        (.nil _)))))))))))))), ?_, ?_, ?_⟩
    · decide
    · rfl
    · decide
  obtain ⟨_, _, ⟨hpre, _, _⟩, hann⟩ := chain_records_of_run
    (ringBuffer_fifo (c := netBenchTcpBufSize) (by decide)) rfl
    (fun _ => ⟨by decide, by decide, by decide⟩)
    (fun _ => ⟨List.replicate 16 0, by decide, by decide⟩) hrun
  exact ⟨σ, hrun, hrec, hrec ▸ (hpre 1 1 hpeer).1, hann 6 1 _ hlast⟩

end Chain

end NetBench

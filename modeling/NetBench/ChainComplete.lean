/-
# `NetBench.ChainComplete` — what the chain loses

`NetBench.ChainRecords` says that the chain makes nothing up.  Here is the other direction.
A receiver that is not in a callback of a connection has taken every whole frame off the
bytes that it has read from it (`Settled`).  So

    upstream.rcv   ⊆  full writes of the server   ⊆  server.rcv  ⊆  full writes of the clients

as lists up to order, each message as often as it occurs, and where all bytes have arrived
and no callback runs, the first and the last inclusion are equalities
(`conserved_of_run`).
-/
import NetBench.ChainRecords
import NetBench.Retries
import NetBench.Lib.Lanes

namespace NetBench

open Lib

/-! ## The server between two callbacks -/

namespace TcpServer

variable {β : Type} {B : BytesBuffer β} {b₀ : β} {contents : β → Bytes} {cap : Nat}
  {s s' : TcpServer β} {H : List Handled}

theorem handleMessage_phase (c : Nat) (m : Callback) (w : WriteOutcome) (s : TcpServer β) :
    (handleMessage c m w s).phase = s.phase := by
  cases hses : s.session c with
  | none => simp only [handleMessage, hses]
  | some ses =>
      by_cases hrole : ses.role = .client
      · rw [handleMessage_client hses hrole]
        cases hconn : (asserted c m s).connCtx with
        | none =>
            rw [relay_none hconn]
            rfl
        | some u =>
            rw [relay_some hconn]
            rfl
      · rw [handleMessage_other hses hrole]
        rfl

/-- After a step the thread is not in a callback of `c`: it was not before, and `c` has been
left alone; or the parse loop on `c` has just ended, with no frame left. -/
theorem Step.settles (hB : B.Fifo contents cap) (h : Relay contents H s)
    (hok : ClientsOk s) {e : ServerEvent} (hs : Step B b₀ s e s') {c : Nat} (hc : c ∈ s.accepted)
    (hoff : s'.phase.Off c) :
    s'.got c = s.got c ∧ (s.phase.Off c ∨
      framesFrom c H = nbFraming.frames (s.got c)) := by
  cases hs with
  | connected => exact ⟨rfl, Or.inl hoff⟩
  | @add d nodelay hp hd =>
      refine ⟨?_, Or.inl (hp ▸ Phase.off_idle c)⟩
      unfold onAddCtx
      split
      · rfl
      · cases nodelay with
        | true => rfl
        | false => rfl
  | @connect nodelay hp =>
      refine ⟨?_, Or.inl (hp ▸ Phase.off_idle c)⟩
      cases nodelay with
      | true => rfl
      | false => rfl
  | messageNone hp => exact ⟨rfl, Or.inl (hp ▸ Phase.off_idle c)⟩
  | message hp => exact ⟨rfl, Or.inl (hp ▸ Phase.off_idle c)⟩
  | @read d ses r hp hses =>
      have hview := readState_readOne B s d ses r
      have hoff' : (readOne B d ses r s).readState.phase.Off c := hoff
      rw [hview] at hoff'
      obtain ⟨hgot, hbefore⟩ := ReadState.readOne_settles (x := s.readState) hB hp
        (fun hdc => hses ▸ (h.ctx d).cut (hdc ▸ hc)) hoff'
      exact ⟨(congrArg (fun x => x.got c) hview).trans hgot, Or.inl hbefore⟩
  | @parse d ses w hp hses =>
      refine ⟨congrFun (parseOne_got hses w) c, ?_⟩
      by_cases hdc : d = c
      · subst hdc
        have hcut := (h.ctx d).cut hc
        rw [hses] at hcut
        rcases hcut.deliver_or_all hB (hok d hc) with ⟨m, b', hit⟩ | hall
        · unfold parseOne at hoff
          rw [hit] at hoff
          refine absurd ?_ hoff.2
          show (handleMessage d m w s).phase = _
          rw [handleMessage_phase, hp]
        · exact Or.inr hall
      · exact Or.inl (hp ▸ Phase.off_parsing hdc)
  | @close d hp hd =>
      refine ⟨?_, Or.inl (hp ▸ Phase.off_idle c)⟩
      unfold onClose
      split
      · rfl
      · split
        · rfl
        · rfl
        · rfl
  | release hp => exact ⟨rfl, Or.inl (hp ▸ Phase.off_idle c)⟩

end TcpServer

/-! ## The upstream -/

namespace TcpUpstream

variable {β : Type} {B : BytesBuffer β} {b₀ : β} {contents : β → Bytes} {cap : Nat}
  {s s' : TcpUpstream β} {F : Nat → List Bytes}

theorem parseOne_got (c : Nat) (ses : NbTcpSession β) (s : TcpUpstream β) :
    (parseOne B c ses s).got = s.got := by
  unfold parseOne
  split
  · split
    · rfl
    · rfl
  · rfl
  · rfl

/-- The same at the upstream. -/
theorem Step.settles (hB : B.Fifo contents cap) (h : Takes contents F s)
    (hok : ∀ c, HeadersOk (s.got c)) {e : UpstreamEvent} (hs : Step B b₀ s e s') {c : Nat}
    (hoff : s'.phase.Off c) :
    s'.got c = s.got c ∧ (s.phase.Off c ∨ F c = nbFraming.frames (s.got c)) := by
  cases hs with
  | add hp => exact ⟨rfl, Or.inl (hp ▸ Phase.off_idle c)⟩
  | @connect nodelay hp =>
      refine ⟨?_, Or.inl (hp ▸ Phase.off_idle c)⟩
      cases nodelay with
      | true => rfl
      | false => rfl
  | messageNone hp => exact ⟨rfl, Or.inl (hp ▸ Phase.off_idle c)⟩
  | message hp => exact ⟨rfl, Or.inl (hp ▸ Phase.off_idle c)⟩
  | @read d ses r hp hses =>
      have hview := readState_readOne B s d ses r
      have hoff' : (readOne B d ses r s).readState.phase.Off c := hoff
      rw [hview] at hoff'
      obtain ⟨hgot, hbefore⟩ := ReadState.readOne_settles (x := s.readState) hB hp
        (fun _ => hses ▸ (h d).cut) hoff'
      exact ⟨(congrArg (fun x => x.got c) hview).trans hgot, Or.inl hbefore⟩
  | @parse d ses hp hses =>
      refine ⟨congrFun (parseOne_got d ses s) c, ?_⟩
      by_cases hdc : d = c
      · subst hdc
        have hcut := (h d).cut
        rw [hses] at hcut
        rcases hcut.deliver_or_all hB (hok d) with ⟨m, b', hit⟩ | hall
        · unfold parseOne at hoff
          rw [hit] at hoff
          exact absurd hp hoff.2
        · exact Or.inr hall
      · exact Or.inl (hp ▸ Phase.off_parsing hdc)
  | close hp => exact ⟨rfl, Or.inl (hp ▸ Phase.off_idle c)⟩
  | release hp => exact ⟨rfl, Or.inl (hp ▸ Phase.off_idle c)⟩

end TcpUpstream

/-! ## Both receivers -/

namespace Chain

variable {ι β : Type} [DecidableEq ι] {a : ι → NbSysArgs} {B : BytesBuffer β} {b₀ : β}
  {T : ι → Bytes} {contents : β → Bytes} {cap : Nat} {σ σ' : Chain ι β}
  {H : List TcpServer.Handled} {F : Nat → List Bytes}

/-- A receiver has recorded every whole frame that it has read from a connection, unless it
is in a callback of it; and every linked context was accepted. -/
structure Settled (σ : Chain ι β) : Prop where
  server : ∀ c, (σ.peerOfServer c).isSome → σ.server.phase.Off c →
    recordsOn .serverRcv σ.server.log c = (nbFraming.frames (σ.server.got c)).map keyOf
  upstream : ∀ x, (σ.peerOfUpstream x).isSome → σ.upstream.phase.Off x →
    recordsOn .upstreamRcv σ.upstream.log x = (nbFraming.frames (σ.upstream.got x)).map keyOf
  accepted : ∀ c, (σ.peerOfServer c).isSome → c ∈ σ.server.accepted

omit [DecidableEq ι] in
theorem settled_start (ts : ι → Timespec) : Settled (start ts T : Chain ι β) where
  server _ h := nomatch h
  upstream _ h := nomatch h
  accepted _ h := nomatch h

/-- At most the frames of what was read are recorded. -/
theorem Linked.server_le (ha : ∀ i, (a i).Fits) (hT : ∀ i, (a i).Prepared (T i))
    (h : Linked a T contents H F σ) {c : Nat} (hc : c ∈ σ.server.accepted) :
    (recordsOn .serverRcv σ.server.log c).length ≤
      (nbFraming.frames (σ.server.got c)).length := by
  rw [h.recordsOn_server ha hT, List.length_map]
  exact (((h.relay.ctx c).cut hc).isPrefix).length_le

theorem Linked.upstream_le (ha : ∀ i, (a i).Fits) (hT : ∀ i, (a i).Prepared (T i))
    (h : Linked a T contents H F σ) {x d : Nat} (hp : σ.peerOfUpstream x = some d) :
    (recordsOn .upstreamRcv σ.upstream.log x).length ≤
      (nbFraming.frames (σ.upstream.got x)).length := by
  rw [h.recordsOn_upstream ha hT hp, List.length_map]
  exact ((h.takes x).cut.isPrefix).length_le

omit [DecidableEq ι] in
/-- A process that moves keeps its records. -/
theorem Moves.recordsOn {p : Proc ι} {l : List Ev} (hm : Moves p l σ σ') (q : Proc ι) (x : Action)
    (c : Nat) : recordsOn x (σ.logOf q) c <+: recordsOn x (σ'.logOf q) c := by
  by_cases hq : q = p
  · subst hq
    rw [hm.log, recordsOn_append]
    exact List.prefix_append _ _
  · exact (hm.other q hq) ▸ List.prefix_rfl

/-- Records that cover all frames stay as they are while no byte is read. -/
theorem Linked.server_settled (ha : ∀ i, (a i).Fits) (hT : ∀ i, (a i).Prepared (T i))
    (h' : Linked a T contents H F σ') {p : Proc ι} {l : List Ev} (hm : Moves p l σ σ') {c : Nat}
    (hc : c ∈ σ'.server.accepted) (hgot : σ'.server.got c = σ.server.got c)
    (hold : recordsOn .serverRcv σ.server.log c = (nbFraming.frames (σ.server.got c)).map keyOf) :
    recordsOn .serverRcv σ'.server.log c = (nbFraming.frames (σ'.server.got c)).map keyOf := by
  have hpre := hm.recordsOn .server .serverRcv c
  have hle := h'.server_le ha hT hc
  have hlen := congrArg List.length hold
  rw [List.length_map] at hlen
  rw [hgot] at hle ⊢
  rw [← hold]
  exact (hpre.eq_of_length (Nat.le_antisymm hpre.length_le (hlen ▸ hle))).symm

theorem Linked.upstream_settled (ha : ∀ i, (a i).Fits) (hT : ∀ i, (a i).Prepared (T i))
    (h' : Linked a T contents H F σ') {p : Proc ι} {l : List Ev} (hm : Moves p l σ σ') {x d : Nat}
    (hp : σ'.peerOfUpstream x = some d) (hgot : σ'.upstream.got x = σ.upstream.got x)
    (hold : recordsOn .upstreamRcv σ.upstream.log x =
      (nbFraming.frames (σ.upstream.got x)).map keyOf) :
    recordsOn .upstreamRcv σ'.upstream.log x =
      (nbFraming.frames (σ'.upstream.got x)).map keyOf := by
  have hpre := hm.recordsOn .upstream .upstreamRcv x
  have hle := h'.upstream_le ha hT hp
  have hlen := congrArg List.length hold
  rw [List.length_map] at hlen
  rw [hgot] at hle ⊢
  rw [← hold]
  exact (hpre.eq_of_length (Nat.le_antisymm hpre.length_le (hlen ▸ hle))).symm

theorem frames_nil : nbFraming.frames [] = [] :=
  (Framing.Splits.split_eq { Framing.Reaches.nil [] with short := Framing.short_nil }).1

/-- Where nothing was read, nothing is recorded. -/
theorem keys_of_nothing_read {g : Bytes} {xs : List MsgKey} (hg : g = [])
    (hle : xs.length ≤ (nbFraming.frames g).length) : xs = (nbFraming.frames g).map keyOf := by
  rw [hg, frames_nil] at hle ⊢
  exact List.eq_nil_of_length_eq_zero (Nat.le_zero.mp hle)

/-- A step of the server leaves the records of `c` complete, if its thread is off `c`. -/
theorem Settled.server_step (hB : B.Fifo contents cap) (ha : ∀ i, (a i).Fits)
    (hT : ∀ i, (a i).Prepared (T i)) (hset : Settled σ) (h : Linked a T contents H F σ)
    {H' : List TcpServer.Handled} {F' : Nat → List Bytes} (h' : Linked a T contents H' F' σ')
    {p : Proc ι} {l : List Ev} (hm : Moves p l σ σ') {e : ServerEvent}
    (hs : TcpServer.Step B b₀ σ.server e σ'.server) {c : Nat} (hp : (σ.peerOfServer c).isSome)
    (hc' : c ∈ σ'.server.accepted) (hoff : σ'.server.phase.Off c) :
    recordsOn .serverRcv σ'.server.log c = (nbFraming.frames (σ'.server.got c)).map keyOf := by
  obtain ⟨hgot, hor⟩ := hs.settles hB h.relay (h.clientsOk ha hT) (hset.accepted c hp) hoff
  refine h'.server_settled ha hT hm hc' hgot ?_
  rcases hor with hoff | hframes
  · exact hset.server c hp hoff
  · rw [h.recordsOn_server ha hT, hframes]

theorem Settled.upstream_step (hB : B.Fifo contents cap) (ha : ∀ i, (a i).Fits)
    (hT : ∀ i, (a i).Prepared (T i)) (hset : Settled σ) (h : Linked a T contents H F σ)
    {H' : List TcpServer.Handled} {F' : Nat → List Bytes} (h' : Linked a T contents H' F' σ')
    {p : Proc ι} {l : List Ev} (hm : Moves p l σ σ') {e : UpstreamEvent}
    (hs : TcpUpstream.Step B b₀ σ.upstream e σ'.upstream) {x d : Nat}
    (hp : σ.peerOfUpstream x = some d) (hp' : σ'.peerOfUpstream x = some d)
    (hoff : σ'.upstream.phase.Off x) :
    recordsOn .upstreamRcv σ'.upstream.log x =
      (nbFraming.frames (σ'.upstream.got x)).map keyOf := by
  obtain ⟨hgot, hor⟩ := hs.settles hB h.takes (h.upstreamOk ha hT) hoff
  refine h'.upstream_settled ha hT hm hp' hgot ?_
  rcases hor with hoff | hframes
  · exact hset.upstream x (hp ▸ rfl) hoff
  · rw [h.recordsOn_upstream ha hT hp, hframes]

theorem Settled.step (hB : B.Fifo contents cap) (ha : ∀ i, (a i).Fits)
    (hT : ∀ i, (a i).Prepared (T i)) (hset : Settled σ) (h : Linked a T contents H F σ)
    {H' : List TcpServer.Handled} {F' : Nat → List Bytes} (h' : Linked a T contents H' F' σ')
    {p : Proc ι} {l : List Ev} (hm : Moves p l σ σ') {e : ChainEvent ι}
    (hs : Step a B b₀ σ e σ') : Settled σ' := by
  cases hs with
  | client hs => exact ⟨hset.server, hset.upstream, hset.accepted⟩
  | @server e s hs he hnet =>
      have hacc : s.accepted = σ.server.accepted := by
        rcases hs.grows.2.2 with ⟨_, hacc⟩ | ⟨n, hn, _⟩
        · exact hacc
        · exact absurd hn (he n)
      have hacc' : ∀ c, (σ.peerOfServer c).isSome → c ∈ s.accepted := fun c hp =>
        hacc ▸ hset.accepted c hp
      refine ⟨fun c hp hoff => ?_, hset.upstream, hacc'⟩
      exact hset.server_step hB ha hT h h' hm hs hp (hacc' c hp) hoff
  | @serverAccepts nodelay i d s hs hfree =>
      obtain ⟨_, _, hacc⟩ := hs.grows
      obtain ⟨_, _, hacc, _, hgot⟩ := hacc.resolve_left fun hne => hne.1 _ rfl
      have hacc' : ∀ c, (Function.update σ.peerOfServer σ.server.loop.next (some (i, d)) c).isSome →
          c ∈ s.accepted := by
        intro c hp
        obtain ⟨q, hq⟩ := Option.isSome_iff_exists.mp hp
        rw [hacc]
        rcases link_cases hq with ⟨rfl, _⟩ | hq
        · exact List.mem_cons_self
        · exact List.mem_cons_of_mem _ (hset.accepted c (hq ▸ rfl))
      refine ⟨fun c hp hoff => ?_, hset.upstream, hacc'⟩
      obtain ⟨q, hq⟩ := Option.isSome_iff_exists.mp hp
      rcases link_cases hq with ⟨rfl, _⟩ | hq
      · have hnil : s.got σ.server.loop.next = [] := by
          rw [hgot]
          exact ((h.relay.ctx _).fresh (Nat.le_refl _)).2.1
        exact keys_of_nothing_read hnil (h'.server_le ha hT (hacc' _ hp))
      · exact hset.server_step hB ha hT h h' hm hs (hq ▸ rfl) (hacc' c hp) hoff
  | @upstream e s hs he hnet =>
      refine ⟨hset.server, fun x hp hoff => ?_, hset.accepted⟩
      obtain ⟨d, hd⟩ := Option.isSome_iff_exists.mp hp
      exact hset.upstream_step hB ha hT h h' hm hs hd hd hoff
  | @upstreamAccepts nodelay d s hs hfree =>
      refine ⟨hset.server, fun x hp hoff => ?_, hset.accepted⟩
      obtain ⟨q, hq⟩ := Option.isSome_iff_exists.mp hp
      rcases link_cases hq with ⟨rfl, _⟩ | hq'
      · have hgot : s.got = σ.upstream.got := by
          rcases hs.grows.2 with ⟨hne, _⟩ | ⟨_, _, _, hgot, _⟩
          · exact absurd rfl (hne nodelay)
          · exact hgot
        have hnil : s.got σ.upstream.loop.next = [] := by
          rw [hgot]
          exact ((h.takes _).fresh (Nat.le_refl _)).2.1
        exact keys_of_nothing_read hnil (h'.upstream_le ha hT hq)
      · exact hset.upstream_step hB ha hT h h' hm hs hq' hq hoff

theorem settled_of_run (hB : B.Fifo contents cap) (h₀ : contents b₀ = []) (ha : ∀ i, (a i).Fits)
    (hT : ∀ i, (a i).Prepared (T i)) {ts : ι → Timespec} {es : List (ChainEvent ι)}
    (hrun : Run (Step a B b₀) (start ts T) es σ) :
    (∃ H F, Linked a T contents H F σ) ∧ Settled σ := by
  refine hrun.invariant (I := fun σ => (∃ H F, Linked a T contents H F σ) ∧ Settled σ) ?_
    ⟨⟨_, _, linked_start ts⟩, settled_start ts⟩
  rintro σ e σ' ⟨⟨H, F, h⟩, hset⟩ hs
  obtain ⟨H', F', p, l, h', hm, _⟩ := h.step hB h₀ ha hT hs
  exact ⟨⟨H', F', h'⟩, hset.step hB ha hT h h' hm hs⟩

end Chain

/-! ## All contexts at once -/

/-- The frames of all that a connection has accepted. -/
theorem Whole.frames_wire {log : List Ev} {shut : List Nat} {c : Nat} (h : Whole log shut c) :
    nbFraming.frames (wire log c) = fullWrites log c := by
  obtain ⟨hframes, p, hwire, hp⟩ := h
  exact (Framing.Splits.split_eq { eq := hwire, frames := hframes, short := hp.short }).1

/-- The record that an event makes with the action `x`, and its context. -/
def Ev.recordLane (x : Action) : Ev → Option (Nat × MsgKey)
  | .record c r => if r.action = x then some (c, r.key) else none
  | _ => none

/-- The message that an event has written in full, and its context. -/
def Ev.writeLane : Ev → Option (Nat × MsgKey)
  | .write c buf acc => if acc = buf then some (c, keyOf buf) else none
  | _ => none

/-- The messages that were written in full, on whatever context, in order. -/
def writtenKeys (log : List Ev) : List MsgKey := (log.filterMap Ev.writeLane).map Prod.snd

theorem map_recordLane (x : Action) (log : List Ev) :
    (log.filterMap (Ev.recordLane x)).map Prod.snd = records x log := by
  rw [List.map_filterMap]
  refine List.filterMap_congr fun e _ => ?_
  cases e with
  | record c r =>
      by_cases hx : r.action = x
      · simp [Ev.recordLane, hx]
      · simp [Ev.recordLane, hx]
  | write | assertFailed | exit => rfl

theorem lane_recordLane (x : Action) (log : List Ev) (c : Nat) :
    lane c (log.filterMap (Ev.recordLane x)) = recordsOn x log c := by
  rw [lane, List.filterMap_filterMap]
  refine List.filterMap_congr fun e _ => ?_
  cases e with
  | record d r =>
      by_cases hx : r.action = x
      · simp [Ev.recordLane, Ev.recordOn, hx]
      · simp [Ev.recordLane, Ev.recordOn, hx]
  | write | assertFailed | exit => rfl

theorem lane_writeLane (log : List Ev) (c : Nat) :
    lane c (log.filterMap Ev.writeLane) = (fullWrites log c).map keyOf := by
  rw [lane, List.filterMap_filterMap, fullWrites, List.map_filterMap]
  refine List.filterMap_congr fun e _ => ?_
  cases e with
  | write d buf acc =>
      by_cases hd : d = c
      · by_cases hfull : acc = buf
        · simp [Ev.writeLane, Ev.fullWrite, hd, hfull]
        · simp [Ev.writeLane, Ev.fullWrite, hfull]
      · by_cases hfull : acc = buf
        · simp [Ev.writeLane, Ev.fullWrite, hd, hfull]
        · simp [Ev.writeLane, Ev.fullWrite, hfull]
  | record | assertFailed | exit => rfl

theorem writtenKeys_withoutAsserts (log : List Ev) :
    writtenKeys (withoutAsserts log) = writtenKeys log := by
  rw [writtenKeys, writtenKeys, withoutAsserts, List.filterMap_filter]
  refine congrArg (List.map Prod.snd) (List.filterMap_congr fun e _ => ?_)
  cases e with
  | record | write | assertFailed | exit => rfl

namespace TcpServer

/-- What is relayed in full is recorded before, in the same order. -/
theorem writtenKeys_sublist : ∀ {H : List Handled}, (∀ h ∈ H, h.key = keyOf h.frame) →
    (writtenKeys (H.flatMap Handled.events)).Sublist (records .serverRcv (H.flatMap Handled.events))
  | [], _ => List.Sublist.slnil
  | h :: H, hkey => by
      have ih := writtenKeys_sublist fun x hx => hkey x (List.mem_cons_of_mem _ hx)
      have hrec : records .serverRcv ((h :: H).flatMap Handled.events) =
          h.key :: records .serverRcv (H.flatMap Handled.events) := by
        rw [List.flatMap_cons, records, List.filterMap_append]
        exact congrArg (· ++ _) (records_events h)
      have hwrite : (writtenKeys h.events).Sublist [h.key] := by
        obtain ⟨src, frame, key, out⟩ := h
        obtain rfl : key = keyOf frame := hkey _ List.mem_cons_self
        cases out with
        | none => exact List.nil_sublist _
        | some p =>
            by_cases hfull : p.2 = frame
            · simp [writtenKeys, Handled.events, Ev.writeLane, hfull, List.filterMap_cons]
            · simp [writtenKeys, Handled.events, Ev.writeLane, hfull, List.filterMap_cons]
      rw [hrec, List.flatMap_cons, writtenKeys, List.filterMap_append, List.map_append]
      exact hwrite.append ih

end TcpServer

namespace Chain

variable {ι β : Type} [DecidableEq ι] {a : ι → NbSysArgs} {B : BytesBuffer β} {b₀ : β}
  {T : ι → Bytes} {contents : β → Bytes} {cap : Nat} {σ σ' : Chain ι β}
  {H : List TcpServer.Handled} {F : Nat → List Bytes}

/-- The message that a client has written in full, with the client and its context. -/
def clientLane : Proc ι × Ev → Option ((ι × Nat) × MsgKey)
  | (.client i, e) => e.writeLane.map fun x => ((i, x.1), x.2)
  | _ => none

/-- The messages that the clients have written in full, in the order of the trace. -/
def clientKeys (tr : List (Proc ι × Ev)) : List MsgKey := (tr.filterMap clientLane).map Prod.snd

theorem lane_clientLane (tr : List (Proc ι × Ev)) (i : ι) (d : Nat) :
    lane (i, d) (tr.filterMap clientLane) =
      lane d ((eventsOf (.client i) tr).filterMap Ev.writeLane) := by
  rw [lane, lane, eventsOf, List.filterMap_filterMap, List.filterMap_filterMap,
    List.filterMap_filterMap]
  refine List.filterMap_congr fun x _ => ?_
  obtain ⟨p, e⟩ := x
  cases p with
  | client i' =>
      by_cases hi : i' = i
      · subst hi
        cases hw : e.writeLane with
        | none => simp [clientLane, hw]
        | some y => simp [clientLane, hw]
      · cases hw : e.writeLane with
        | none => simp [clientLane, hw, hi]
        | some y => simp [clientLane, hw, hi]
  | server => rfl
  | upstream => rfl

/-- The server is in no callback, and has read all that the clients' connections have
accepted. -/
structure ServerCaughtUp (σ : Chain ι β) : Prop where
  idle : σ.server.phase = .idle
  read : ∀ i d, fullWrites (σ.client i).log d ≠ [] → ∃ c, σ.peerOfServer c = some (i, d) ∧
    σ.server.got c = wire (σ.client i).log d

/-- The upstream likewise. -/
structure UpstreamCaughtUp (σ : Chain ι β) : Prop where
  idle : σ.upstream.phase = .idle
  read : ∀ d, fullWrites σ.server.log d ≠ [] → ∃ x, σ.peerOfUpstream x = some d ∧
    σ.upstream.got x = wire σ.server.log d

theorem Linked.server_subperm (ha : ∀ i, (a i).Fits) (hT : ∀ i, (a i).Prepared (T i))
    (h : Linked a T contents H F σ) :
    (records .serverRcv σ.server.log).Subperm (clientKeys σ.trace) := by
  rw [← map_recordLane]
  refine subperm_of_lanes (f := σ.peerOfServer) h.serverOnce ?_ ?_
  · rintro ⟨c, k⟩ hk
    rw [← mem_lane, lane_recordLane] at hk
    exact Option.isSome_iff_exists.mpr (h.server_linked ha hT hk)
  · rintro c ⟨i, d⟩ hp
    rw [lane_recordLane, lane_clientLane, h.traced, lane_writeLane]
    exact (h.server_prefix ha hT hp).sublist

theorem Linked.upstream_subperm (ha : ∀ i, (a i).Fits) (hT : ∀ i, (a i).Prepared (T i))
    (h : Linked a T contents H F σ) :
    (records .upstreamRcv σ.upstream.log).Subperm (writtenKeys σ.server.log) := by
  rw [← map_recordLane]
  refine subperm_of_lanes (f := σ.peerOfUpstream) h.upstreamOnce ?_ ?_
  · rintro ⟨x, k⟩ hk
    rw [← mem_lane, lane_recordLane] at hk
    exact Option.isSome_iff_exists.mpr (h.upstream_linked hk)
  · intro x d hp
    rw [lane_recordLane, lane_writeLane]
    exact (h.upstream_prefix ha hT hp).sublist

/-- Where the server has caught up, a context has a record for every full write at its other
end. -/
theorem Linked.server_lane (ha : ∀ i, (a i).Fits) (hT : ∀ i, (a i).Prepared (T i))
    (h : Linked a T contents H F σ) (hset : Settled σ) (hup : ServerCaughtUp σ) {c d : Nat} {i : ι}
    (hp : σ.peerOfServer c = some (i, d)) :
    recordsOn .serverRcv σ.server.log c = (fullWrites (σ.client i).log d).map keyOf := by
  by_cases hnil : fullWrites (σ.client i).log d = []
  · have hpre := h.server_prefix ha hT hp
    rw [hnil] at hpre ⊢
    exact List.prefix_nil.mp hpre
  · obtain ⟨c', hp', hgot⟩ := hup.read i d hnil
    obtain rfl := h.serverOnce c c' _ hp hp'
    rw [hset.server c (hp ▸ rfl) (hup.idle ▸ Phase.off_idle c), hgot,
      ((h.sent i).whole d).frames_wire]

theorem Linked.upstream_lane (ha : ∀ i, (a i).Fits) (hT : ∀ i, (a i).Prepared (T i))
    (h : Linked a T contents H F σ) (hset : Settled σ) (hup : UpstreamCaughtUp σ) {x d : Nat}
    (hp : σ.peerOfUpstream x = some d) :
    recordsOn .upstreamRcv σ.upstream.log x = (fullWrites σ.server.log d).map keyOf := by
  by_cases hnil : fullWrites σ.server.log d = []
  · have hpre := h.upstream_prefix ha hT hp
    rw [hnil] at hpre ⊢
    exact List.prefix_nil.mp hpre
  · obtain ⟨x', hp', hgot⟩ := hup.read d hnil
    obtain rfl := h.upstreamOnce x x' _ hp hp'
    rw [hset.upstream x (hp ▸ rfl) (hup.idle ▸ Phase.off_idle x), hgot,
      (h.relay.whole d).frames_wire]

theorem Linked.server_perm (ha : ∀ i, (a i).Fits) (hT : ∀ i, (a i).Prepared (T i))
    (h : Linked a T contents H F σ) (hset : Settled σ) (hup : ServerCaughtUp σ) :
    (records .serverRcv σ.server.log).Perm (clientKeys σ.trace) := by
  rw [← map_recordLane]
  refine perm_of_lanes (f := σ.peerOfServer) h.serverOnce ?_ ?_ ?_
  · rintro ⟨c, k⟩ hk
    rw [← mem_lane, lane_recordLane] at hk
    exact Option.isSome_iff_exists.mpr (h.server_linked ha hT hk)
  · rintro c ⟨i, d⟩ hp
    rw [lane_recordLane, lane_clientLane, h.traced, lane_writeLane]
    exact h.server_lane ha hT hset hup hp
  · rintro ⟨i, d⟩ hne
    rw [lane_clientLane, h.traced, lane_writeLane] at hne
    obtain ⟨c, hp, _⟩ := hup.read i d fun hnil => hne (congrArg (List.map keyOf) hnil)
    exact ⟨c, hp⟩

theorem Linked.upstream_perm (ha : ∀ i, (a i).Fits) (hT : ∀ i, (a i).Prepared (T i))
    (h : Linked a T contents H F σ) (hset : Settled σ) (hup : UpstreamCaughtUp σ) :
    (records .upstreamRcv σ.upstream.log).Perm (writtenKeys σ.server.log) := by
  rw [← map_recordLane]
  refine perm_of_lanes (f := σ.peerOfUpstream) h.upstreamOnce ?_ ?_ ?_
  · rintro ⟨x, k⟩ hk
    rw [← mem_lane, lane_recordLane] at hk
    exact Option.isSome_iff_exists.mpr (h.upstream_linked hk)
  · intro x d hp
    rw [lane_recordLane, lane_writeLane]
    exact h.upstream_lane ha hT hset hup hp
  · intro d hne
    rw [lane_writeLane] at hne
    obtain ⟨x, hp, _⟩ := hup.read d fun hnil => hne (congrArg (List.map keyOf) hnil)
    exact ⟨x, hp⟩

theorem Linked.relay_sublist (ha : ∀ i, (a i).Fits) (hT : ∀ i, (a i).Prepared (T i))
    (h : Linked a T contents H F σ) :
    (writtenKeys σ.server.log).Sublist (records .serverRcv σ.server.log) := by
  rw [← writtenKeys_withoutAsserts, ← TcpServer.records_withoutAsserts, h.relay.log]
  exact TcpServer.writtenKeys_sublist (h.keys ha hT)

/-- In every run with prepared tables, over all connections, each message counted as often as
it occurs:

* the `server.rcv` records are messages that the clients have written in full;
* what the server has written in full are, in their order, some of its `server.rcv` records;
* the `upstream.rcv` records are messages that the server has written in full;
* a receiver that has read all and is in no callback has recorded all of them. -/
theorem conserved_of_run (hB : B.Fifo contents cap) (h₀ : contents b₀ = []) (ha : ∀ i, (a i).Fits)
    (hT : ∀ i, ∃ m, m.length = (a i).tableBytes.toNat ∧ (a i).prepare m = some (T i))
    {ts : ι → Timespec} {es : List (ChainEvent ι)}
    (hrun : Run (Step a B b₀) (start ts T) es σ) :
    (records .serverRcv σ.server.log).Subperm (clientKeys σ.trace) ∧
    (writtenKeys σ.server.log).Sublist (records .serverRcv σ.server.log) ∧
    (records .upstreamRcv σ.upstream.log).Subperm (writtenKeys σ.server.log) ∧
    (ServerCaughtUp σ → (records .serverRcv σ.server.log).Perm (clientKeys σ.trace)) ∧
    (UpstreamCaughtUp σ →
      (records .upstreamRcv σ.upstream.log).Perm (writtenKeys σ.server.log)) := by
  have hT' : ∀ i, (a i).Prepared (T i) := by
    intro i
    obtain ⟨m, hm, hprep⟩ := hT i
    exact NbSysArgs.prepared_of_prepare (ha i).sized hm hprep
  obtain ⟨⟨H, F, h⟩, hset⟩ := settled_of_run hB h₀ ha hT' hrun
  exact ⟨h.server_subperm ha hT', h.relay_sublist ha hT', h.upstream_subperm ha hT',
    h.server_perm ha hT' hset, h.upstream_perm ha hT' hset⟩

/-- A connection on which nothing was written in full. -/
theorem fullWrites_nil_of_lanes {log : List Ev} {ds : List Nat}
    (h : ∀ w ∈ log.filterMap Ev.writeLane, w.1 ∈ ds) {d : Nat} (hd : d ∉ ds) :
    fullWrites log d = [] := by
  cases hf : fullWrites log d with
  | nil => rfl
  | cons f fs =>
      have hmem : keyOf f ∈ lane d (log.filterMap Ev.writeLane) := by
        rw [lane_writeLane, hf]
        exact List.mem_cons_self
      exact absurd (h _ (mem_lane.mp hmem)) hd

/-- The links of the contexts that were written on. -/
theorem ServerCaughtUp.of_links {σ : Chain Unit β} (hidle : σ.server.phase = .idle)
    (cs : List (Nat × Nat))
    (h : ∀ w ∈ (σ.client ()).log.filterMap Ev.writeLane, w.1 ∈ cs.map Prod.snd)
    (hread : ∀ q ∈ cs, σ.peerOfServer q.1 = some ((), q.2) ∧
      σ.server.got q.1 = wire (σ.client ()).log q.2) : ServerCaughtUp σ where
  idle := hidle
  read _ d hne := by
    have hd : d ∈ cs.map Prod.snd := not_not.mp fun hd => hne (fullWrites_nil_of_lanes h hd)
    obtain ⟨q, hq, rfl⟩ := List.mem_map.mp hd
    exact ⟨q.1, hread q hq⟩

omit [DecidableEq ι] in
theorem UpstreamCaughtUp.of_links {σ : Chain ι β} (hidle : σ.upstream.phase = .idle)
    (xs : List (Nat × Nat)) (h : ∀ w ∈ σ.server.log.filterMap Ev.writeLane, w.1 ∈ xs.map Prod.snd)
    (hread : ∀ q ∈ xs, σ.peerOfUpstream q.1 = some q.2 ∧
      σ.upstream.got q.1 = wire σ.server.log q.2) : UpstreamCaughtUp σ where
  idle := hidle
  read d hne := by
    have hd : d ∈ xs.map Prod.snd := not_not.mp fun hd => hne (fullWrites_nil_of_lanes h hd)
    obtain ⟨q, hq, rfl⟩ := List.mem_map.mp hd
    exact ⟨q.1, hread q hq⟩

/-- The assumption about the network where the upstream has one connection and the server
two. -/
theorem Delivers.of_two_links {σ : Chain Unit β} {c c' d d' x u : Nat}
    (hs : σ.peerOfServer =
      Function.update (Function.update (fun _ => none) c (some ((), d))) c' (some ((), d')))
    (hu : σ.peerOfUpstream = Function.update (fun _ => none) x (some u))
    (hfst : σ.server.got c <+: wire (σ.client ()).log d)
    (hsnd : σ.server.got c' <+: wire (σ.client ()).log d')
    (hupstream : σ.upstream.got x <+: wire σ.server.log u) : σ.Delivers where
  server e i f hp := by
    rw [hs] at hp
    rcases link_cases hp with ⟨rfl, heq⟩ | hp
    · cases heq
      exact hsnd
    · rcases link_cases hp with ⟨rfl, heq⟩ | hp
      · cases heq
        exact hfst
      · cases hp
  upstream e f hp := by
    rw [hu] at hp
    rcases link_cases hp with ⟨rfl, heq⟩ | hp
    · cases heq
      exact hupstream
    · cases hp

/-- The second message of a round is accepted in part only.  The round is sent again on the
next connection, and goes through. -/
def roundTwiceThrough : List (ChainEvent Unit) :=
  [.client () (.add 0 ⟨0, 0⟩ true), .client () (.timer ⟨0, 0⟩), .client () (.send (.accept 16)),
    .client () (.send (.accept 3)), .client () (.close 0), .client () .connected,
    .client () (.add 1 ⟨0, 0⟩ true), .client () (.timer ⟨0, 0⟩), .client () (.send (.accept 16)),
    .client () (.send (.accept 16)), .client () .roundDone,
    .serverAccepts true () 0, .serverAccepts true () 1, .upstreamAccepts true 1,
    .server (.add 1 true), .server (.message 2),
    .server (.read (some ⟨roundOfTwoTable.take 19, by decide, by decide⟩)), .server (.read none),
    .server (.parse (.accept 16)), .server (.parse (.accept 0)), .server (.message 3),
    .server (.read (some ⟨roundOfTwoTable, by decide, by decide⟩)), .server (.read none),
    .server (.parse (.accept 16)), .server (.parse (.accept 16)), .server (.parse (.accept 0)),
    .upstream (.message 1),
    .upstream (.read (some ⟨roundOfTwoTable.take 16 ++ roundOfTwoTable, by decide, by decide⟩)),
    .upstream (.read none), .upstream .parse, .upstream .parse, .upstream .parse,
    .upstream .parse]

/-- Nothing is lost, and the first message arrives twice. -/
theorem round_twice_through : ∃ σ, Run (Step (fun _ : Unit => roundOfTwo)
      (ringBuffer netBenchTcpBufSize) (emptyRing netBenchTcpBufSize fun _ => 0))
      (start (fun _ => ⟨0, 0⟩) fun _ => roundOfTwoTable) roundTwiceThrough σ ∧
    ServerCaughtUp σ ∧ UpstreamCaughtUp σ ∧
    (writtenKeys σ.server.log).length = (records .serverRcv σ.server.log).length ∧
    records .upstreamRcv σ.upstream.log = [⟨7, 0, 16⟩, ⟨7, 0, 16⟩, ⟨7, 1, 16⟩] ∧
    sends (σ.client ()).log = [(0, true), (1, false), (0, true), (1, true)] ∧
    TcpClient.done roundOfTwo (σ.client ()) = 2 := by
  refine ⟨_, .cons (.client (.add rfl List.mem_cons_self))
    (.cons (.client (.timer rfl))
    (.cons (.client (.send rfl (by decide) rfl
      (TcpClient.sendOne_full roundOfTwo_fits roundOfTwo_prepared (d := 0) (by decide) rfl rfl rfl
        (by decide) (by decide))))
    (.cons (.client (.send rfl (by decide) rfl rfl))
    (.cons (.client (.close rfl List.mem_cons_self))
    (.cons (.client (.connected (by decide)))
    (.cons (.client (.add rfl List.mem_cons_self))
    (.cons (.client (.timer rfl))
    (.cons (.client (.send rfl (by decide) rfl
      (TcpClient.sendOne_full roundOfTwo_fits roundOfTwo_prepared (d := 0) (by decide) rfl rfl rfl
        (by decide) (by decide))))
    (.cons (.client (.send rfl (by decide) rfl
      (TcpClient.sendOne_full roundOfTwo_fits roundOfTwo_prepared (d := 1) (by decide) rfl rfl rfl
        (by decide) (by decide))))
    (.cons (.client (.roundDone rfl (by decide)))
    (.cons (.serverAccepts (.connect rfl) fun _ h => nomatch h)
    (.cons (.serverAccepts (.connect rfl) fun c h => by
      rcases link_cases h with ⟨_, heq⟩ | h
      · cases heq
      · cases h)
    (.cons (.upstreamAccepts (.connect rfl) fun _ h => nomatch h)
    (.cons (.server (.add rfl (by decide)) (fun _ h => nomatch h)
      (.of_two_links rfl rfl (by decide) (by decide) (by decide)))
    (.cons (.server (.message rfl (by decide) rfl) (fun _ h => nomatch h)
      (.of_two_links rfl rfl (by decide) (by decide) (by decide)))
    (.cons (.server (.read rfl rfl) (fun _ h => nomatch h)
      (.of_two_links rfl rfl (by decide) (by decide) (by decide)))
    (.cons (.server (.read rfl rfl) (fun _ h => nomatch h)
      (.of_two_links rfl rfl (by decide) (by decide) (by decide)))
    (.cons (.server (.parse rfl rfl) (fun _ h => nomatch h)
      (.of_two_links rfl rfl (by decide) (by decide) (by decide)))
    (.cons (.server (.parse rfl rfl) (fun _ h => nomatch h)
      (.of_two_links rfl rfl (by decide) (by decide) (by decide)))
    (.cons (.server (.message rfl (by decide) rfl) (fun _ h => nomatch h)
      (.of_two_links rfl rfl (by decide) (by decide) (by decide)))
    (.cons (.server (.read rfl rfl) (fun _ h => nomatch h)
      (.of_two_links rfl rfl (by decide) (by decide) (by decide)))
    (.cons (.server (.read rfl rfl) (fun _ h => nomatch h)
      (.of_two_links rfl rfl (by decide) (by decide) (by decide)))
    (.cons (.server (.parse rfl rfl) (fun _ h => nomatch h)
      (.of_two_links rfl rfl (by decide) (by decide) (by decide)))
    (.cons (.server (.parse rfl rfl) (fun _ h => nomatch h)
      (.of_two_links rfl rfl (by decide) (by decide) (by decide)))
    (.cons (.server (.parse rfl rfl) (fun _ h => nomatch h)
      (.of_two_links rfl rfl (by decide) (by decide) (by decide)))
    (.cons (.upstream (.message rfl (by decide) rfl) (fun _ h => nomatch h)
      (.of_two_links rfl rfl (by decide) (by decide) (by decide)))
    (.cons (.upstream (.read rfl rfl) (fun _ h => nomatch h)
      (.of_two_links rfl rfl (by decide) (by decide) (by decide)))
    (.cons (.upstream (.read rfl rfl) (fun _ h => nomatch h)
      (.of_two_links rfl rfl (by decide) (by decide) (by decide)))
    (.cons (.upstream (.parse rfl rfl) (fun _ h => nomatch h)
      (.of_two_links rfl rfl (by decide) (by decide) (by decide)))
    (.cons (.upstream (.parse rfl rfl) (fun _ h => nomatch h)
      (.of_two_links rfl rfl (by decide) (by decide) (by decide)))
    (.cons (.upstream (.parse rfl rfl) (fun _ h => nomatch h)
      (.of_two_links rfl rfl (by decide) (by decide) (by decide)))
    (.cons (.upstream (.parse rfl rfl) (fun _ h => nomatch h)
      (.of_two_links rfl rfl (by decide) (by decide) (by decide)))
    (.nil _))))))))))))))))))))))))))))))))), ?_, ?_, ?_, ?_, ?_, ?_⟩
  · exact .of_links rfl [(2, 0), (3, 1)] (by decide) (by decide)
  · exact .of_links rfl [(1, 1)] (by decide) (by decide)
  · decide
  · decide
  · decide
  · decide

/-- The upstream has three records, as the server has written three messages in full, as the
client has. -/
theorem conserved_of_run_round_twice : ∃ σ, Run (Step (fun _ : Unit => roundOfTwo)
      (ringBuffer netBenchTcpBufSize) (emptyRing netBenchTcpBufSize fun _ => 0))
      (start (fun _ => ⟨0, 0⟩) fun _ => roundOfTwoTable) roundTwiceThrough σ ∧
    records .upstreamRcv σ.upstream.log = [⟨7, 0, 16⟩, ⟨7, 0, 16⟩, ⟨7, 1, 16⟩] ∧
    (records .upstreamRcv σ.upstream.log).Perm (writtenKeys σ.server.log) ∧
    (records .serverRcv σ.server.log).Perm (clientKeys σ.trace) := by
  obtain ⟨σ, hrun, hserver, hupstream, _, hrec, _, _⟩ := round_twice_through
  obtain ⟨_, _, _, hfst, hsnd⟩ := conserved_of_run
    (ringBuffer_fifo (c := netBenchTcpBufSize) (by decide)) rfl (fun _ => roundOfTwo_fits)
    (fun _ => ⟨List.replicate 32 0, by decide, roundOfTwo_prepare⟩) hrun
  exact ⟨σ, hrun, hrec, hsnd hupstream, hfst hserver⟩

end Chain

end NetBench

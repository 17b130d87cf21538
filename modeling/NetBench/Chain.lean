/-
# `NetBench.Chain` — clients, server and upstream together

Any number of clients, one server, one upstream.  A step of the chain is a step of
one process.  A context that the server has accepted is the other end of a client's
context (`peerOfServer`), one that the upstream has accepted the other end of a context
of the server (`peerOfUpstream`); no end is accepted twice.  Of the network it is
assumed that what was read from a connection is a prefix of what its writer had accepted
(`Chain.Delivers`).  Nothing is assumed of the bytes that flow back, against the
direction of the messages.  `trace` is the order in which the events of all logs happened.

    frames taken by the server off `c`    ⊑  full writes of the client at its other end
    frames taken by the upstream off `x`  ⊑  full writes of the server at its other end

`Linked` has the invariants of the three programs and of the links between them, and
`Linked.step` says that every step keeps them.
-/
import NetBench.ClientWire
import NetBench.ServerRelay
import NetBench.TcpUpstream

namespace NetBench

open Lib

inductive Proc (ι : Type) where
  | client (i : ι)
  | server
  | upstream
  deriving DecidableEq

/-- The state of the chain; the clients are numbered by `ι`. -/
structure Chain (ι β : Type) where
  client : ι → TcpClient β
  server : TcpServer β
  upstream : TcpUpstream β
  /-- the client and its context at the other end of an accepted context of the server -/
  peerOfServer : Nat → Option (ι × Nat)
  /-- the server's context at the other end of an accepted context of the upstream -/
  peerOfUpstream : Nat → Option Nat
  /-- the events of all logs in the order in which they happened -/
  trace : List (Proc ι × Ev)

/-- A process moves; an accepting one also gets to know the other end. -/
inductive ChainEvent (ι : Type) where
  | client (i : ι) (e : ClientEvent)
  | server (e : ServerEvent)
  | serverAccepts (nodelay : Bool) (i : ι) (d : Nat)
  | upstream (e : UpstreamEvent)
  | upstreamAccepts (nodelay : Bool) (d : Nat)

namespace Chain

variable {ι β : Type}

def logOf (σ : Chain ι β) : Proc ι → List Ev
  | .client i => (σ.client i).log
  | .server => σ.server.log
  | .upstream => σ.upstream.log

/-- The processes start with the tables `T`. -/
def start (ts : ι → Timespec) (T : ι → Bytes) : Chain ι β where
  client i := TcpClient.start (ts i) (T i)
  server := TcpServer.start
  upstream := TcpUpstream.start
  peerOfServer _ := none
  peerOfUpstream _ := none
  trace := []

/-- What was read from a connection is a prefix of what its writer had accepted. -/
structure Delivers (σ : Chain ι β) : Prop where
  server : ∀ c i d, σ.peerOfServer c = some (i, d) →
    σ.server.got c <+: wire (σ.client i).log d
  upstream : ∀ x d, σ.peerOfUpstream x = some d → σ.upstream.got x <+: wire σ.server.log d

/-- The new events of a log, as events of the process `p`. -/
def news (p : Proc ι) (old new : List Ev) : List (Proc ι × Ev) :=
  (new.drop old.length).map (Prod.mk p)

variable [DecidableEq ι] (a : ι → NbSysArgs) (B : BytesBuffer β) (b₀ : β)

/-- The client `i` is in the state `s`. -/
def setClient (i : ι) (s : TcpClient β) (σ : Chain ι β) : Chain ι β :=
  { σ with
    client := Function.update σ.client i s
    trace := σ.trace ++ news (.client i) (σ.client i).log s.log }

def setServer (s : TcpServer β) (σ : Chain ι β) : Chain ι β :=
  { σ with server := s, trace := σ.trace ++ news .server σ.server.log s.log }

def setUpstream (s : TcpUpstream β) (σ : Chain ι β) : Chain ι β :=
  { σ with upstream := s, trace := σ.trace ++ news .upstream σ.upstream.log s.log }

/-- The steps of the chain. -/
inductive Step : Chain ι β → ChainEvent ι → Chain ι β → Prop
  | client {σ : Chain ι β} {i : ι} {e : ClientEvent} {s : TcpClient β}
      (h : TcpClient.Step (a i) B b₀ (σ.client i) e s) : Step σ (.client i e) (setClient i s σ)
  | server {σ : Chain ι β} {e : ServerEvent} {s : TcpServer β}
      (h : TcpServer.Step B b₀ σ.server e s) (he : ∀ n, e ≠ .connect n)
      (hnet : (setServer s σ).Delivers) : Step σ (.server e) (setServer s σ)
  | serverAccepts {σ : Chain ι β} {nodelay : Bool} {i : ι} {d : Nat} {s : TcpServer β}
      (h : TcpServer.Step B b₀ σ.server (.connect nodelay) s)
      (hfree : ∀ c, σ.peerOfServer c ≠ some (i, d)) :
      Step σ (.serverAccepts nodelay i d)
        { setServer s σ with
          peerOfServer := Function.update σ.peerOfServer σ.server.loop.next (some (i, d)) }
  | upstream {σ : Chain ι β} {e : UpstreamEvent} {s : TcpUpstream β}
      (h : TcpUpstream.Step B b₀ σ.upstream e s) (he : ∀ n, e ≠ .connect n)
      (hnet : (setUpstream s σ).Delivers) : Step σ (.upstream e) (setUpstream s σ)
  | upstreamAccepts {σ : Chain ι β} {nodelay : Bool} {d : Nat} {s : TcpUpstream β}
      (h : TcpUpstream.Step B b₀ σ.upstream (.connect nodelay) s)
      (hfree : ∀ x, σ.peerOfUpstream x ≠ some d) :
      Step σ (.upstreamAccepts nodelay d)
        { setUpstream s σ with
          peerOfUpstream := Function.update σ.peerOfUpstream σ.upstream.loop.next (some d) }

/-! ## One step of the trace -/

/-- The process `p` adds `l` to its log. -/
structure Moves (p : Proc ι) (l : List Ev) (σ σ' : Chain ι β) : Prop where
  trace : σ'.trace = σ.trace ++ l.map (Prod.mk p)
  log : σ'.logOf p = σ.logOf p ++ l
  other : ∀ q, q ≠ p → σ'.logOf q = σ.logOf q

omit [DecidableEq ι] in
theorem news_append (p : Proc ι) (l l' : List Ev) : news p l (l ++ l') = l'.map (Prod.mk p) := by
  rw [news, List.drop_left]

theorem moves_setClient {i : ι} {s : TcpClient β} {σ : Chain ι β} {l : List Ev}
    (h : s.log = (σ.client i).log ++ l) : Moves (.client i) l σ (setClient i s σ) := by
  refine ⟨?_, ?_, fun q hq => ?_⟩
  · rw [setClient, h, news_append]
  · simpa [logOf, setClient] using h
  · cases q with
    | client j =>
        have hij : j ≠ i := fun hij => hq (hij ▸ rfl)
        simp [logOf, setClient, hij]
    | server => rfl
    | upstream => rfl

omit [DecidableEq ι] in
theorem moves_setServer {s : TcpServer β} {σ : Chain ι β} {l : List Ev}
    (h : s.log = σ.server.log ++ l) : Moves .server l σ (setServer s σ) := by
  refine ⟨?_, h, fun q hq => ?_⟩
  · rw [setServer, h, news_append]
  · cases q with
    | client j => rfl
    | server => exact absurd rfl hq
    | upstream => rfl

omit [DecidableEq ι] in
theorem moves_setUpstream {s : TcpUpstream β} {σ : Chain ι β} {l : List Ev}
    (h : s.log = σ.upstream.log ++ l) : Moves .upstream l σ (setUpstream s σ) := by
  refine ⟨?_, h, fun q hq => ?_⟩
  · rw [setUpstream, h, news_append]
  · cases q with
    | client j => rfl
    | server => rfl
    | upstream => exact absurd rfl hq

/-- The events of the process `p` in the trace. -/
def eventsOf (p : Proc ι) (tr : List (Proc ι × Ev)) : List Ev :=
  tr.filterMap fun x => if x.1 = p then some x.2 else none

theorem eventsOf_append (p : Proc ι) (tr tr' : List (Proc ι × Ev)) :
    eventsOf p (tr ++ tr') = eventsOf p tr ++ eventsOf p tr' :=
  List.filterMap_append

theorem eventsOf_map (p q : Proc ι) (l : List Ev) :
    eventsOf p (l.map (Prod.mk q)) = if q = p then l else [] := by
  rw [eventsOf, List.filterMap_map]
  by_cases hqp : q = p
  · rw [if_pos hqp]
    have hid : ((fun x : Proc ι × Ev => if x.1 = p then some x.2 else none) ∘ Prod.mk q) = some := by
      funext e
      simp [hqp]
    rw [hid, List.filterMap_some]
  · rw [if_neg hqp]
    refine List.filterMap_eq_nil_iff.mpr fun e _ => ?_
    simp [hqp]

/-- The trace is an interleaving of the logs. -/
def Traced (σ : Chain ι β) : Prop := ∀ p, eventsOf p σ.trace = σ.logOf p

theorem Traced.moves {σ σ' : Chain ι β} (h : Traced σ) {p : Proc ι} {l : List Ev}
    (hm : Moves p l σ σ') : Traced σ' := by
  intro q
  rw [hm.trace, eventsOf_append, eventsOf_map, h q]
  by_cases hpq : p = q
  · subst hpq
    rw [if_pos rfl, hm.log]
  · rw [if_neg hpq, List.append_nil, hm.other q (Ne.symm hpq)]

theorem Moves.wire {σ σ' : Chain ι β} {p : Proc ι} {l : List Ev} (hm : Moves p l σ σ')
    (q : Proc ι) (c : Nat) : wire (σ.logOf q) c <+: wire (σ'.logOf q) c := by
  by_cases hq : q = p
  · subst hq
    rw [hm.log, wire_append]
    exact List.prefix_append _ _
  · exact ⟨[], (List.append_nil _).trans (congrArg (NetBench.wire · c) (hm.other q hq).symm)⟩

/-! ## The invariant -/

variable {a B b₀} {T : ι → Bytes} {contents : β → Bytes} {cap : Nat} {σ σ' : Chain ι β}
  {H : List TcpServer.Handled} {F : Nat → List Bytes}

/-- The invariants of the processes, and of the links between them. -/
structure Linked (a : ι → NbSysArgs) (T : ι → Bytes) (contents : β → Bytes)
    (H : List TcpServer.Handled) (F : Nat → List Bytes) (σ : Chain ι β) : Prop where
  slot : ∀ i, TcpClient.Slot (σ.client i)
  sends : ∀ i, TcpClient.Sends (a i) (T i) (σ.client i)
  sent : ∀ i, TcpClient.Sent (a i) (T i) (σ.client i)
  relay : TcpServer.Relay contents H σ.server
  takes : TcpUpstream.Takes contents F σ.upstream
  net : σ.Delivers
  accepted : ∀ c ∈ σ.server.accepted, (σ.peerOfServer c).isSome
  serverOld : ∀ c, (σ.peerOfServer c).isSome → c < σ.server.loop.next
  serverOnce : ∀ c c' p, σ.peerOfServer c = some p → σ.peerOfServer c' = some p → c = c'
  unlinked : ∀ x, σ.peerOfUpstream x = none → σ.upstream.session x = none ∧ σ.upstream.got x = []
  upstreamOld : ∀ x, (σ.peerOfUpstream x).isSome → x < σ.upstream.loop.next
  upstreamOnce : ∀ x x' d, σ.peerOfUpstream x = some d → σ.peerOfUpstream x' = some d → x = x'
  traced : Traced σ

theorem linked_start (ts : ι → Timespec) :
    Linked a T contents [] (fun _ => []) (start ts T : Chain ι β) where
  slot i := TcpClient.slot_start (ts i) (T i)
  sends i := TcpClient.sends_start (ts i)
  sent i := TcpClient.sent_start (ts i)
  relay := TcpServer.relay_start
  takes := TcpUpstream.takes_start
  net := ⟨fun _ _ _ h => (nomatch h), fun _ _ h => (nomatch h)⟩
  accepted _ h := nomatch h
  serverOld _ h := nomatch h
  serverOnce _ _ _ h := nomatch h
  unlinked _ _ := ⟨rfl, rfl⟩
  upstreamOld _ h := nomatch h
  upstreamOnce _ _ _ h := nomatch h
  traced p := by
    cases p with
    | client i => rfl
    | server => rfl
    | upstream => rfl

/-- The frames of a client's context are full writes at its other end. -/
theorem Linked.fromClient (h : Linked a T contents H F σ) {c d : Nat} {i : ι}
    (hc : c ∈ σ.server.accepted) (hp : σ.peerOfServer c = some (i, d)) :
    TcpServer.framesFrom c H <+: fullWrites (σ.client i).log d := by
  obtain ⟨t, ht, _⟩ := (h.relay.ctx c).cut hc
  exact ((h.sent i).whole d).received (h.net.server c i d hp) ht

/-- Every handled frame is a message that some client has written in full. -/
theorem Linked.handled (ha : ∀ i, (a i).Fits) (hT : ∀ i, (a i).Prepared (T i))
    (h : Linked a T contents H F σ) {x : TcpServer.Handled} (hx : x ∈ H) :
    IsMsg x.frame ∧ ∃ i d, σ.peerOfServer x.src = some (i, d) ∧
      x.frame ∈ fullWrites (σ.client i).log d := by
  obtain ⟨hsrc, _⟩ := h.relay.src x hx
  obtain ⟨⟨i, d⟩, hp⟩ := Option.isSome_iff_exists.mp (h.accepted x.src hsrc)
  have hmem : x.frame ∈ TcpServer.framesFrom x.src H :=
    List.mem_filterMap.mpr ⟨x, hx, if_pos rfl⟩
  have hfull := (h.fromClient hsrc hp).subset hmem
  exact ⟨((h.sent i).onlyMsgs (ha i) (hT i)).fullWrites hfull, i, d, hp, hfull⟩

/-- A write of the server is that of a handled frame. -/
theorem Linked.written (h : Linked a T contents H F σ) {u : Nat} {f acc : Bytes}
    (hw : .write u f acc ∈ σ.server.log) : ∃ x ∈ H, x.out = some (u, acc) ∧ x.frame = f := by
  have hkept : .write u f acc ∈ withoutAsserts σ.server.log := List.mem_filter.mpr ⟨hw, rfl⟩
  rw [h.relay.log] at hkept
  obtain ⟨x, hx, hmem⟩ := List.mem_flatMap.mp hkept
  refine ⟨x, hx, ?_⟩
  obtain ⟨src, frame, key, out⟩ := x
  cases out with
  | none => simp [TcpServer.Handled.events] at hmem
  | some p =>
      simp only [TcpServer.Handled.events, List.mem_cons, reduceCtorEq, Ev.write.injEq,
        List.not_mem_nil, or_false, false_or] at hmem
      obtain ⟨rfl, rfl, rfl⟩ := hmem
      exact ⟨rfl, rfl⟩

theorem Linked.onlyMsgs (ha : ∀ i, (a i).Fits) (hT : ∀ i, (a i).Prepared (T i))
    (h : Linked a T contents H F σ) : OnlyMsgs σ.server.log := by
  intro u f acc hw
  obtain ⟨x, hx, _, rfl⟩ := h.written hw
  exact (h.handled ha hT hx).1

/-- The server meets no header that wraps on a client's connection. -/
theorem Linked.clientsOk (ha : ∀ i, (a i).Fits) (hT : ∀ i, (a i).Prepared (T i))
    (h : Linked a T contents H F σ) : TcpServer.ClientsOk σ.server := by
  intro c hc
  obtain ⟨⟨i, d⟩, hp⟩ := Option.isSome_iff_exists.mp (h.accepted c hc)
  have hok := ((h.sent i).whole d).headersOk ((h.sent i).onlyMsgs (ha i) (hT i))
  exact hok.of_isPrefix (h.net.server c i d hp)

/-- Nor does the upstream. -/
theorem Linked.upstreamOk (ha : ∀ i, (a i).Fits) (hT : ∀ i, (a i).Prepared (T i))
    (h : Linked a T contents H F σ) (x : Nat) : HeadersOk (σ.upstream.got x) := by
  rcases Option.eq_none_or_eq_some (σ.peerOfUpstream x) with hp | ⟨d, hp⟩
  · rw [(h.unlinked x hp).2]
    exact Framing.headersIn_nil
  · have hok := (h.relay.whole d).headersOk (h.onlyMsgs ha hT)
    exact hok.of_isPrefix (h.net.upstream x d hp)

/-- The frames of a context of the upstream are full writes at its other end. -/
theorem Linked.fromServer (h : Linked a T contents H F σ) {x d : Nat}
    (hp : σ.peerOfUpstream x = some d) : F x <+: fullWrites σ.server.log d := by
  obtain ⟨t, ht, _⟩ := (h.takes x).cut
  exact (h.relay.whole d).received (h.net.upstream x d hp) ht

/-! ## A new link -/

section Links

variable {α : Type} {peer : Nat → Option α} {n : Nat} {p : α}

/-- With a link added for `n`, what is linked is `n` or was linked before. -/
theorem link_cases {c : Nat} {q : α} (h : Function.update peer n (some p) c = some q) :
    c = n ∧ q = p ∨ peer c = some q := by
  by_cases hc : c = n
  · rw [hc, Function.update_self, Option.some.injEq] at h
    exact Or.inl ⟨hc, h.symm⟩
  · rw [Function.update_of_ne hc] at h
    exact Or.inr h

theorem link_old (hold : ∀ c, (peer c).isSome → c < n) {c : Nat}
    (h : (Function.update peer n (some p) c).isSome) : c < n + 1 := by
  obtain ⟨q, hq⟩ := Option.isSome_iff_exists.mp h
  rcases link_cases hq with ⟨rfl, _⟩ | hq
  · exact Nat.lt_succ_self _
  · exact Nat.lt_succ_of_lt (hold c (hq ▸ rfl))

/-- An end that was free is linked once. -/
theorem link_once (honce : ∀ c c' q, peer c = some q → peer c' = some q → c = c')
    (hfree : ∀ c, peer c ≠ some p) {c c' : Nat} {q : α}
    (h : Function.update peer n (some p) c = some q)
    (h' : Function.update peer n (some p) c' = some q) : c = c' := by
  rcases link_cases h with ⟨hc, hqp⟩ | hq
  · rcases link_cases h' with ⟨hc', _⟩ | hq'
    · rw [hc, hc']
    · exact absurd (hqp ▸ hq') (hfree c')
  · rcases link_cases h' with ⟨_, hqp⟩ | hq'
    · exact absurd (hqp ▸ hq) (hfree c)
    · exact honce c c' q hq hq'

end Links

/-! ## Every step -/

/-- What a step adds to the log of its process. -/
inductive Adds (a : ι → NbSysArgs) (T : ι → Bytes) (σ σ' : Chain ι β) :
    ChainEvent ι → Proc ι → List Ev → Prop
  | client {i : ι} {e : ClientEvent} {l : List Ev}
      (h : TcpClient.Logged (a i) (T i) (σ.client i) (σ'.client i) e) :
      Adds a T σ σ' (.client i e) (.client i) l
  | server {e : ChainEvent ι} {l : List Ev} {xs : List TcpServer.Handled} (hl : Quiet l)
      (hone : xs.length ≤ 1) (hok : ∀ x ∈ xs, x.key = keyOf x.frame) :
      Adds a T σ σ' e .server (l ++ xs.flatMap TcpServer.Handled.events)
  | upstream {e : ChainEvent ι} {l : List Ev} {r : Option (Nat × MsgKey)} (hl : Quiet l) :
      Adds a T σ σ' e .upstream
        (l ++ (r.map fun p => Ev.record p.1 (p.2.record .upstreamRcv)).toList)

/-- What was delivered stays delivered while no receiver reads. -/
theorem Delivers.moves (h : σ.Delivers) {p : Proc ι} {l : List Ev} (hm : Moves p l σ σ')
    (hserver : ∀ c i d, σ'.peerOfServer c = some (i, d) →
      σ.peerOfServer c = some (i, d) ∧ σ'.server.got c = σ.server.got c ∨ σ'.server.got c = [])
    (hupstream : ∀ x d, σ'.peerOfUpstream x = some d →
      σ.peerOfUpstream x = some d ∧ σ'.upstream.got x = σ.upstream.got x ∨
        σ'.upstream.got x = []) : σ'.Delivers where
  server c i d hp := by
    rcases hserver c i d hp with ⟨hp, hgot⟩ | hgot
    · rw [hgot]
      exact (h.server c i d hp).trans (hm.wire (.client i) d)
    · rw [hgot]
      exact List.nil_prefix
  upstream x d hp := by
    rcases hupstream x d hp with ⟨hp, hgot⟩ | hgot
    · rw [hgot]
      exact (h.upstream x d hp).trans (hm.wire .server d)
    · rw [hgot]
      exact List.nil_prefix

/-- A step of a client. -/
theorem Linked.setClient (ha : ∀ i, (a i).Fits) (hT : ∀ i, (a i).Prepared (T i))
    (h : Linked a T contents H F σ) {i : ι} {e : ClientEvent} {s : TcpClient β}
    (hs : TcpClient.Step (a i) B b₀ (σ.client i) e s) :
    ∃ l, Linked a T contents H F (setClient i s σ) ∧ Moves (.client i) l σ (setClient i s σ) ∧
      Adds a T σ (setClient i s σ) (.client i e) (.client i) l := by
  obtain ⟨hlogged, _⟩ := hs.logged (ha i) (hT i) (h.sends i)
  obtain ⟨l, hl⟩ : ∃ l, s.log = (σ.client i).log ++ l := by
    cases hlogged with
    | quiet hlog => exact ⟨_, hlog⟩
    | full _ _ hlog => exact ⟨_, hlog⟩
    | part _ _ _ hlog => exact ⟨_, hlog⟩
  have hm := moves_setClient hl
  have hself : (Chain.setClient i s σ).client i = s := Function.update_self ..
  have hall : ∀ {P : ι → TcpClient β → Prop}, (∀ j, P j (σ.client j)) → P i s →
      ∀ j, P j ((Chain.setClient i s σ).client j) := by
    intro P hP hPs j
    by_cases hj : j = i
    · subst hj
      rwa [hself]
    · have : (Chain.setClient i s σ).client j = σ.client j := Function.update_of_ne hj _ _
      rw [this]
      exact hP j
  refine ⟨l, ⟨?_, ?_, ?_, h.relay, h.takes, ?_, h.accepted, h.serverOld, h.serverOnce, h.unlinked,
    h.upstreamOld, h.upstreamOnce, h.traced.moves hm⟩, hm, .client (by rwa [hself])⟩
  · exact hall (P := fun _ t => TcpClient.Slot t) h.slot ((h.slot i).step hs)
  · exact hall (P := fun j t => TcpClient.Sends (a j) (T j) t) h.sends
      ((h.sends i).step (ha i) (hT i) (h.slot i) hs)
  · exact hall (P := fun j t => TcpClient.Sent (a j) (T j) t) h.sent
      ((h.sent i).step (ha i) (hT i) (h.sends i) hs)
  · exact h.net.moves hm (fun _ _ _ hp => Or.inl ⟨hp, rfl⟩) (fun _ _ hp => Or.inl ⟨hp, rfl⟩)

/-- A step of the server, whatever becomes of the links. -/
theorem Linked.server_step (hB : B.Fifo contents cap) (h₀ : contents b₀ = [])
    (ha : ∀ i, (a i).Fits) (hT : ∀ i, (a i).Prepared (T i)) (h : Linked a T contents H F σ)
    {e : ServerEvent} {s : TcpServer β} (hs : TcpServer.Step B b₀ σ.server e s) :
    ∃ l xs, Quiet l ∧ xs.length ≤ 1 ∧ TcpServer.Relay contents (H ++ xs) s ∧
      s.log = σ.server.log ++ (l ++ xs.flatMap TcpServer.Handled.events) := by
  obtain ⟨l, xs, hl, hone, hlog, hrelay⟩ := h.relay.step hB h₀ (h.clientsOk ha hT) hs
  refine ⟨l, xs, fun e he => ?_, hone, hrelay, hlog⟩
  cases e with
  | assertFailed c x => exact Or.inl ⟨c, x, rfl⟩
  | exit => exact Or.inr rfl
  | record c r =>
      have : Ev.record c r ∈ withoutAsserts l := List.mem_filter.mpr ⟨he, rfl⟩
      rw [hl] at this
      cases this
  | write c buf acc => exact absurd he (noWrite_of_asserts hl c buf acc)

/-- The invariant after a step of the server, once the links are known. -/
theorem Linked.of_server (ha : ∀ i, (a i).Fits) (hT : ∀ i, (a i).Prepared (T i))
    (h : Linked a T contents H F σ) {l : List Ev} {xs : List TcpServer.Handled}
    {e : ChainEvent ι} (hm : Moves .server (l ++ xs.flatMap TcpServer.Handled.events) σ σ')
    (hclient : σ'.client = σ.client) (hupstream : σ'.upstream = σ.upstream)
    (hpeer : σ'.peerOfUpstream = σ.peerOfUpstream)
    (hrelay : TcpServer.Relay contents (H ++ xs) σ'.server) (hnet : σ'.Delivers)
    (hacc : ∀ c ∈ σ'.server.accepted, (σ'.peerOfServer c).isSome)
    (hold : ∀ c, (σ'.peerOfServer c).isSome → c < σ'.server.loop.next)
    (honce : ∀ c c' p, σ'.peerOfServer c = some p → σ'.peerOfServer c' = some p → c = c')
    (hl : Quiet l) (hone : xs.length ≤ 1) :
    Linked a T contents (H ++ xs) F σ' ∧
      Adds a T σ σ' e .server (l ++ xs.flatMap TcpServer.Handled.events) := by
  have hlinked : Linked a T contents (H ++ xs) F σ' := by
    refine ⟨?_, ?_, ?_, hrelay, ?_, hnet, hacc, hold, honce, ?_, ?_, ?_, h.traced.moves hm⟩
    · rw [hclient]
      exact h.slot
    · rw [hclient]
      exact h.sends
    · rw [hclient]
      exact h.sent
    · rw [hupstream]
      exact h.takes
    · rw [hpeer, hupstream]
      exact h.unlinked
    · rw [hpeer, hupstream]
      exact h.upstreamOld
    · rw [hpeer]
      exact h.upstreamOnce
  refine ⟨hlinked, .server hl hone fun x hx => ?_⟩
  have hmem : x ∈ H ++ xs := List.mem_append_right _ hx
  exact (hrelay.src x hmem).2.key (hlinked.handled ha hT hmem).1.ge

/-- The server accepts a connection: the new context is linked to its client. -/
theorem Linked.serverAccepts (hB : B.Fifo contents cap) (h₀ : contents b₀ = [])
    (ha : ∀ i, (a i).Fits) (hT : ∀ i, (a i).Prepared (T i)) (h : Linked a T contents H F σ)
    {nodelay : Bool} {i : ι} {d : Nat} {s : TcpServer β}
    (hs : TcpServer.Step B b₀ σ.server (.connect nodelay) s)
    (hfree : ∀ c, σ.peerOfServer c ≠ some (i, d))
    (hσ' : σ' = { setServer s σ with
      peerOfServer := Function.update σ.peerOfServer σ.server.loop.next (some (i, d)) }) :
    ∃ H' l, Linked a T contents H' F σ' ∧ Moves .server l σ σ' ∧
      Adds a T σ σ' (.serverAccepts nodelay i d) .server l := by
  subst hσ'
  obtain ⟨l, xs, hl, hone, hrelay, hlog⟩ := h.server_step hB h₀ ha hT hs
  obtain ⟨_, _, hacc⟩ := hs.grows
  obtain ⟨_, _, hacc, hnext, hgot⟩ := hacc.resolve_left fun hne => hne.1 _ rfl
  have hm : Moves .server (l ++ xs.flatMap TcpServer.Handled.events) σ
      { setServer s σ with
        peerOfServer := Function.update σ.peerOfServer σ.server.loop.next (some (i, d)) } :=
    ⟨(moves_setServer hlog).trace, (moves_setServer hlog).log, (moves_setServer hlog).other⟩
  have hfresh : σ.server.got σ.server.loop.next = [] :=
    ((h.relay.ctx _).fresh (Nat.le_refl _)).2.1
  have hlinked := h.of_server ha hT (e := .serverAccepts nodelay i d) hm rfl rfl rfl hrelay
    ?_ ?_ ?_ ?_ hl hone
  · exact ⟨H ++ xs, _, hlinked.1, hm, hlinked.2⟩
  · refine h.net.moves hm (fun c j d' hp => ?_) (fun _ _ hp => Or.inl ⟨hp, rfl⟩)
    show _ ∧ s.got c = _ ∨ s.got c = []
    rw [hgot]
    rcases link_cases hp with ⟨rfl, _⟩ | hp
    · exact Or.inr hfresh
    · exact Or.inl ⟨hp, rfl⟩
  · intro c hc
    have hc : c ∈ σ.server.loop.next :: σ.server.accepted := hacc ▸ hc
    show (Function.update σ.peerOfServer _ _ c).isSome
    by_cases hcn : c = σ.server.loop.next
    · rw [hcn, Function.update_self]
      rfl
    · rw [Function.update_of_ne hcn]
      exact h.accepted c ((List.mem_cons.mp hc).resolve_left hcn)
  · intro c hc
    show c < s.loop.next
    rw [hnext]
    exact link_old h.serverOld hc
  · intro c c' p hp hp'
    exact link_once h.serverOnce hfree hp hp'

/-- A step of the upstream that accepts nothing. -/
theorem Linked.setUpstream (hB : B.Fifo contents cap) (h₀ : contents b₀ = [])
    (ha : ∀ i, (a i).Fits) (hT : ∀ i, (a i).Prepared (T i)) (h : Linked a T contents H F σ)
    {e : UpstreamEvent} {s : TcpUpstream β} (hs : TcpUpstream.Step B b₀ σ.upstream e s)
    (he : ∀ n, e ≠ .connect n) (hnet : (setUpstream s σ).Delivers) :
    ∃ F' l, Linked a T contents H F' (setUpstream s σ) ∧
      Moves .upstream l σ (setUpstream s σ) ∧
      Adds a T σ (setUpstream s σ) (.upstream e) .upstream l := by
  obtain ⟨hnext, hses⟩ := hs.grows
  have hses : ∀ c, σ.upstream.session c = none →
      s.session c = none ∧ s.got c = σ.upstream.got c := by
    rcases hses with ⟨_, hses⟩ | ⟨n, hn, _⟩
    · exact hses
    · exact absurd hn (he n)
  have hlinked : ∀ {F' l}, TcpUpstream.Takes contents F' s →
      Moves .upstream l σ (Chain.setUpstream s σ) →
      Linked a T contents H F' (Chain.setUpstream s σ) := by
    intro F' l htakes hm
    refine ⟨h.slot, h.sends, h.sent, h.relay, htakes, hnet, h.accepted, h.serverOld, h.serverOnce,
      fun x hx => ?_, fun x hx => Nat.lt_of_lt_of_le (h.upstreamOld x hx) hnext,
      h.upstreamOnce, h.traced.moves hm⟩
    obtain ⟨hnone, hgot⟩ := h.unlinked x hx
    obtain ⟨hnone', hgot'⟩ := hses x hnone
    exact ⟨hnone', hgot'.trans hgot⟩
  rcases h.takes.step hB h₀ (h.upstreamOk ha hT) hs with ⟨htakes, hlog⟩ |
    ⟨c, f, l, k, htakes, hl, hlog⟩
  · have hm : Moves .upstream [] σ (Chain.setUpstream s σ) :=
      moves_setUpstream (hlog.trans (List.append_nil _).symm)
    exact ⟨_, _, hlinked htakes hm, hm, .upstream (r := none) quiet_nil⟩
  · have hm := moves_setUpstream hlog
    exact ⟨_, _, hlinked htakes hm, hm, .upstream (r := some (c, k)) hl⟩

/-- The upstream accepts a connection: the new context is linked to one of the server. -/
theorem Linked.upstreamAccepts (hB : B.Fifo contents cap) (h₀ : contents b₀ = [])
    (ha : ∀ i, (a i).Fits) (hT : ∀ i, (a i).Prepared (T i)) (h : Linked a T contents H F σ)
    {nodelay : Bool} {d : Nat} {s : TcpUpstream β}
    (hs : TcpUpstream.Step B b₀ σ.upstream (.connect nodelay) s)
    (hfree : ∀ x, σ.peerOfUpstream x ≠ some d)
    (hσ' : σ' = { Chain.setUpstream s σ with
      peerOfUpstream := Function.update σ.peerOfUpstream σ.upstream.loop.next (some d) }) :
    ∃ F' l, Linked a T contents H F' σ' ∧ Moves .upstream l σ σ' ∧
      Adds a T σ σ' (.upstreamAccepts nodelay d) .upstream l := by
  obtain ⟨_, hses⟩ := hs.grows
  obtain ⟨_, _, hnext, hgot, hses⟩ := hses.resolve_left fun hne => hne.1 _ rfl
  have hfresh : σ.upstream.got σ.upstream.loop.next = [] :=
    ((h.takes _).fresh (Nat.le_refl _)).2.1
  have hlinked : ∀ {F' l}, TcpUpstream.Takes contents F' s → s.log = σ.upstream.log ++ l →
      Linked a T contents H F' σ' ∧ Moves .upstream l σ σ' := by
    intro F' l htakes hlog
    have hset := moves_setUpstream hlog
    have hm : Moves .upstream l σ σ' := by
      rw [hσ']
      exact ⟨hset.trace, hset.log, hset.other⟩
    refine ⟨?_, hm⟩
    have htraced := h.traced.moves hm
    have hdelivers : σ'.Delivers := by
      subst hσ'
      refine h.net.moves hm (fun _ _ _ hp => Or.inl ⟨hp, rfl⟩) (fun x d' hp => ?_)
      show _ ∧ s.got x = _ ∨ s.got x = []
      rw [hgot]
      rcases link_cases hp with ⟨rfl, _⟩ | hp
      · exact Or.inr hfresh
      · exact Or.inl ⟨hp, rfl⟩
    subst hσ'
    refine ⟨h.slot, h.sends, h.sent, h.relay, htakes, hdelivers, h.accepted, h.serverOld,
      h.serverOnce, fun x hx => ?_, fun x hx => ?_, fun x x' p hp hp' => ?_, htraced⟩
    · have hx : Function.update σ.peerOfUpstream σ.upstream.loop.next (some d) x = none := hx
      have hxn : x ≠ σ.upstream.loop.next := by
        rintro rfl
        rw [Function.update_self] at hx
        cases hx
      rw [Function.update_of_ne hxn] at hx
      show s.session x = none ∧ s.got x = []
      rw [hses x hxn, hgot]
      exact h.unlinked x hx
    · show x < s.loop.next
      rw [hnext]
      exact link_old h.upstreamOld hx
    · exact link_once h.upstreamOnce hfree hp hp'
  rcases h.takes.step hB h₀ (h.upstreamOk ha hT) hs with ⟨htakes, hlog⟩ |
    ⟨c, f, l, k, htakes, hl, hlog⟩
  · obtain ⟨hl, hm⟩ := hlinked htakes (hlog.trans (List.append_nil _).symm)
    exact ⟨_, _, hl, hm, .upstream (r := none) quiet_nil⟩
  · obtain ⟨hl', hm⟩ := hlinked htakes hlog
    exact ⟨_, _, hl', hm, .upstream (r := some (c, k)) hl⟩

/-- Every step keeps the invariant. -/
theorem Linked.step (hB : B.Fifo contents cap) (h₀ : contents b₀ = [])
    (ha : ∀ i, (a i).Fits) (hT : ∀ i, (a i).Prepared (T i)) (h : Linked a T contents H F σ)
    {e : ChainEvent ι} (hs : Step a B b₀ σ e σ') :
    ∃ H' F' p l, Linked a T contents H' F' σ' ∧ Moves p l σ σ' ∧ Adds a T σ σ' e p l := by
  cases hs with
  | @client i e s hs =>
      obtain ⟨l, hlinked, hm, hadds⟩ := h.setClient ha hT hs
      exact ⟨H, F, _, l, hlinked, hm, hadds⟩
  | @server e s hs he hnet =>
      obtain ⟨l, xs, hl, hone, hrelay, hlog⟩ := h.server_step hB h₀ ha hT hs
      obtain ⟨hnext, _, hacc⟩ := hs.grows
      have hm := moves_setServer hlog
      have hacc : s.accepted = σ.server.accepted := by
        rcases hacc with ⟨_, hacc⟩ | ⟨n, hn, _⟩
        · exact hacc
        · exact absurd hn (he n)
      obtain ⟨hlinked, hadds⟩ := h.of_server ha hT (e := .server e) hm rfl rfl rfl hrelay hnet
        (hacc ▸ h.accepted) (fun c hc => Nat.lt_of_lt_of_le (h.serverOld c hc) hnext)
        h.serverOnce hl hone
      exact ⟨_, F, _, _, hlinked, hm, hadds⟩
  | serverAccepts hs hfree =>
      obtain ⟨H', l, hlinked, hm, hadds⟩ := h.serverAccepts hB h₀ ha hT hs hfree rfl
      exact ⟨H', F, _, l, hlinked, hm, hadds⟩
  | upstream hs he hnet =>
      obtain ⟨F', l, hlinked, hm, hadds⟩ := h.setUpstream hB h₀ ha hT hs he hnet
      exact ⟨H, F', _, l, hlinked, hm, hadds⟩
  | upstreamAccepts hs hfree =>
      obtain ⟨F', l, hlinked, hm, hadds⟩ := h.upstreamAccepts hB h₀ ha hT hs hfree rfl
      exact ⟨H, F', _, l, hlinked, hm, hadds⟩

end Chain

end NetBench

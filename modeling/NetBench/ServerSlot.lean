/-
# `NetBench.ServerSlot` — the upstream slot of the server

`evloop_data->conn_ctx` is set when a connection to the upstream is added and
cleared when a context whose session has the role `UPSTREAM` is closed, which is
also where the next connect thread is started.

    the slot is empty or a live context with an upstream session       (`ServerSlot.slot`)
    a full slot and an attempt to connect exclude each other, and
    one of them is there                                               (`ServerSlot.one`)
    a step writes only to the context in the slot                       (`Step.writes`)
-/
import NetBench.TcpServer

namespace NetBench.TcpServer

open Lib

variable {β : Type} {B : BytesBuffer β} {b₀ : β} {s s' : TcpServer β}

/-- The role of the session of `c`, if it has one. -/
def roleOf (s : TcpServer β) (c : Nat) : Option SessionRole :=
  (s.session c).map NbTcpSession.role

/-- The attempts to connect to the upstream: threads that run, contexts in the queue. -/
def attempts (s : TcpServer β) : Nat :=
  s.loop.threads + s.loop.queue.countP fun c => decide (ctxType c = .tcpClient)

/-! ## Steps that leave the slot alone -/

/-- `s'` differs from `s` in nothing that concerns the slot. -/
structure SameConn (s s' : TcpServer β) : Prop where
  connCtx : s'.connCtx = s.connCtx
  loop : s'.loop = s.loop
  accepted : s'.accepted = s.accepted
  role : ∀ c, roleOf s' c = roleOf s c

/-- A change of other fields only. -/
theorem SameConn.of_eq (hconn : s'.connCtx = s.connCtx) (hloop : s'.loop = s.loop)
    (hacc : s'.accepted = s.accepted) (hses : s'.session = s.session) : SameConn s s' :=
  ⟨hconn, hloop, hacc, fun c => by rw [roleOf, roleOf, hses]⟩

theorem SameConn.trans {t : TcpServer β} (h : SameConn s s') (h' : SameConn s' t) :
    SameConn s t :=
  ⟨h'.connCtx.trans h.connCtx, h'.loop.trans h.loop, h'.accepted.trans h.accepted,
    fun c => (h'.role c).trans (h.role c)⟩

theorem sameConn_setBuf {c : Nat} {ses : NbTcpSession β} (hses : s.session c = some ses) (b : β) :
    SameConn s (setBuf c ses b s) := by
  refine ⟨rfl, rfl, rfl, fun d => ?_⟩
  by_cases hdc : d = c
  · subst hdc
    simp [roleOf, setBuf, hses]
  · simp [roleOf, setBuf, Function.update_of_ne hdc]

/-- The events `evs` write only to the context in the slot, and nothing is accepted
there if it was shut down. -/
def Writes (s : TcpServer β) (evs : List Ev) : Prop :=
  ∀ u buf acc, .write u buf acc ∈ evs → s.connCtx = some u ∧ (u ∈ s.shut → acc = [])

theorem NoWrite.writes {evs : List Ev} (h : NoWrite evs) (s : TcpServer β) : Writes s evs :=
  fun u buf acc hw => absurd hw (h u buf acc)

/-- A message changes nothing of the slot, and writes to the context in it. -/
theorem relay_spec (c : Nat) (m : Callback) (w : WriteOutcome) (s : TcpServer β) :
    SameConn s (relay c m w s) ∧ s.shut ⊆ (relay c m w s).shut ∧
      ∃ evs, (relay c m w s).log = s.log ++ evs ∧ Writes s evs := by
  cases hconn : s.connCtx with
  | none =>
      rw [relay_none hconn]
      refine ⟨.of_eq rfl rfl rfl rfl, List.Subset.refl _, _, rfl, ?_⟩
      intro u buf acc h
      simp at h
  | some v =>
      rw [relay_some hconn]
      refine ⟨.of_eq rfl rfl rfl rfl, ?_, _, rfl, ?_⟩
      · dsimp only
        split
        · exact List.Subset.refl _
        · exact List.subset_cons_self _ _
      · intro u buf acc h
        simp only [List.mem_cons, List.not_mem_nil, or_false, reduceCtorEq, false_or,
          Ev.write.injEq] at h
        obtain ⟨rfl, _, rfl⟩ := h
        refine ⟨hconn, fun hshut => ?_⟩
        rw [decide_eq_true hshut, ctxWrite_shut]

theorem handleMessage_spec {c : Nat} {ses : NbTcpSession β} (hses : s.session c = some ses)
    (m : Callback) (w : WriteOutcome) :
    SameConn s (handleMessage c m w s) ∧ s.shut ⊆ (handleMessage c m w s).shut ∧
      ∃ evs, (handleMessage c m w s).log = s.log ++ evs ∧ Writes s evs := by
  have hass : Writes s (nbAssert c .msgId (decide (m.hdr.msgId = 1))) :=
    NoWrite.writes (noWrite_nbAssert _ _ _) s
  by_cases hrole : ses.role = .client
  · rw [handleMessage_client hses hrole]
    obtain ⟨hsame, hshut, evs, hlog, hevs⟩ := relay_spec c m w (asserted c m s)
    refine ⟨(SameConn.of_eq rfl rfl rfl rfl : SameConn s (asserted c m s)).trans hsame, hshut, _,
      hlog.trans (List.append_assoc _ _ _), ?_⟩
    intro u buf acc h
    rcases List.mem_append.mp h with h | h
    · exact hass u buf acc h
    · exact hevs u buf acc h
  · rw [handleMessage_other hses hrole]
    exact ⟨.of_eq rfl rfl rfl rfl, List.Subset.refl _, _, rfl, hass⟩

theorem readOne_spec {c : Nat} {ses : NbTcpSession β} (hses : s.session c = some ses)
    (r : Option Chunk) : SameConn s (readOne B c ses r s) ∧ s.shut ⊆ (readOne B c ses r s).shut ∧
      (readOne B c ses r s).log = s.log := by
  unfold readOne
  split
  · exact ⟨(sameConn_setBuf hses _).trans (.of_eq rfl rfl rfl rfl), List.Subset.refl _, rfl⟩
  · exact ⟨(sameConn_setBuf hses _).trans (.of_eq rfl rfl rfl rfl), List.subset_cons_self _ _, rfl⟩
  · exact ⟨(sameConn_setBuf hses _).trans (.of_eq rfl rfl rfl rfl), List.Subset.refl _, rfl⟩

/-- A message leaves all sessions as they are. -/
theorem handleMessage_session {c : Nat} {ses : NbTcpSession β} (hses : s.session c = some ses)
    (m : Callback) (w : WriteOutcome) : (handleMessage c m w s).session = s.session := by
  by_cases hrole : ses.role = .client
  · rw [handleMessage_client hses hrole]
    cases hconn : (asserted c m s).connCtx with
    | none =>
        rw [relay_none hconn]
        rfl
    | some v =>
        rw [relay_some hconn]
        rfl
  · rw [handleMessage_other hses hrole]
    rfl

theorem parseOne_spec {c : Nat} {ses : NbTcpSession β} (hses : s.session c = some ses)
    (w : WriteOutcome) : SameConn s (parseOne B c ses w s) ∧ s.shut ⊆ (parseOne B c ses w s).shut ∧
      ∃ evs, (parseOne B c ses w s).log = s.log ++ evs ∧ Writes s evs := by
  have hmsg : ∀ m b, SameConn s (setBuf c ses b (handleMessage c m w s)) := by
    intro m b
    refine (handleMessage_spec hses m w).1.trans (sameConn_setBuf ?_ b)
    rw [handleMessage_session hses, hses]
  have hnone : ∃ evs, s.log = s.log ++ evs ∧ Writes s evs :=
    ⟨[], (List.append_nil _).symm, NoWrite.writes noWrite_nil s⟩
  unfold parseOne
  split
  · rename_i b shut hit
    have hsame : SameConn s { setBuf c ses b s with phase := .idle } :=
      (sameConn_setBuf hses b).trans (.of_eq rfl rfl rfl rfl)
    cases shut with
    | true => exact ⟨hsame.trans (.of_eq rfl rfl rfl rfl), List.subset_cons_self _ _, hnone⟩
    | false => exact ⟨hsame, List.Subset.refl _, hnone⟩
  · exact ⟨hmsg _ _, (handleMessage_spec hses _ w).2⟩
  · obtain ⟨_, hshut, hlog⟩ := handleMessage_spec hses _ w
    exact ⟨(hmsg _ _).trans (.of_eq rfl rfl rfl rfl),
      List.Subset.trans hshut (List.subset_cons_self _ _), hlog⟩

/-! ## The invariant -/

/-- The slot invariant of the server.  Among the live contexts the slot holds exactly
those whose session has the role `UPSTREAM`. -/
structure ServerSlot (s : TcpServer β) : Prop where
  one : (s.connCtx ≠ none ∧ attempts s = 0) ∨ (s.connCtx = none ∧ attempts s = 1)
  slot : ∀ c, s.connCtx = some c → c ∈ s.loop.live ∧ roleOf s c = some .upstream
  upstream : ∀ c ∈ s.loop.live, roleOf s c = some .upstream → s.connCtx = some c
  owner : ∀ c ∈ s.loop.live, c = 0 ∨ c ∈ s.accepted ∨ roleOf s c = some .upstream
  added : ∀ c, roleOf s c ≠ none → c ∈ s.loop.live ∨ c ∈ s.loop.closed
  next_pos : 0 < s.loop.next

/-- Steps that leave the slot alone keep the invariant. -/
theorem ServerSlot.of_same (h : ServerSlot s) (hq : SameConn s s') : ServerSlot s' := by
  have hatt : attempts s' = attempts s := by rw [attempts, attempts, hq.loop]
  refine ⟨?_, ?_, ?_, ?_, ?_, ?_⟩
  · rw [hq.connCtx, hatt]
    exact h.one
  · intro c hc
    rw [hq.role, hq.loop]
    exact h.slot c (hq.connCtx ▸ hc)
  · intro c hc hr
    rw [hq.connCtx]
    exact h.upstream c (hq.loop ▸ hc) (hq.role c ▸ hr)
  · intro c hc
    rw [hq.role, hq.accepted]
    exact h.owner c (hq.loop ▸ hc)
  · intro c hr
    rw [hq.loop]
    exact h.added c (hq.role c ▸ hr)
  · rw [hq.loop]
    exact h.next_pos

theorem serverSlot_start : ServerSlot (start : TcpServer β) where
  one := Or.inr ⟨rfl, rfl⟩
  slot _ h := nomatch h
  upstream _ h := nomatch h
  owner _ h := nomatch h
  added _ h := absurd rfl h
  next_pos := Nat.zero_lt_two

/-- A context that the loop does not know yet has no session. -/
theorem ServerSlot.no_session (h : ServerSlot s) {c : Nat} (hl : c ∉ s.loop.live)
    (hd : c ∉ s.loop.closed) : roleOf s c = none := by
  by_contra hr
  exact (h.added c hr).elim hl hd

/-- While an attempt is outstanding the slot is empty, and no live context is an upstream. -/
theorem ServerSlot.of_attempt (h : ServerSlot s) (hatt : 0 < attempts s) :
    s.connCtx = none ∧ attempts s = 1 ∧ ∀ c ∈ s.loop.live, roleOf s c ≠ some .upstream := by
  rcases h.one with ⟨_, hzero⟩ | ⟨hnone, hone⟩
  · omega
  · refine ⟨hnone, hone, fun c hc hr => ?_⟩
    have := h.upstream c hc hr
    rw [hnone] at this
    cases this

theorem roleOf_newSession (c : Nat) (role : SessionRole) (s : TcpServer β) (d : Nat) :
    roleOf (newSession b₀ c role s) d = if d = c then some role else roleOf s d := by
  by_cases hdc : d = c
  · subst hdc
    simp [roleOf, newSession]
  · simp [roleOf, newSession, hdc]

/-- Taking a context from the queue ends an attempt if it is one of `nb_tcp_connect`. -/
theorem attempts_add {c : Nat} (hc : c ∈ s.loop.queue) : attempts s =
    s.loop.threads + (s.loop.queue.erase c).countP (fun c => decide (ctxType c = .tcpClient)) +
      if ctxType c = .tcpClient then 1 else 0 := by
  rw [attempts, (List.perm_cons_erase hc).countP_eq, List.countP_cons, Nat.add_assoc]
  simp only [decide_eq_true_eq]

/-- A connect thread hands its context over: the attempt is now in the queue. -/
theorem ServerSlot.connected (h : ServerSlot s) (ht : 0 < s.loop.threads) :
    ServerSlot { s with loop := s.loop.connected } := by
  have hatt : attempts { s with loop := s.loop.connected } = attempts s := by
    have htype : ctxType s.loop.next = .tcpClient := if_neg (Nat.ne_of_gt h.next_pos)
    simp only [attempts, EventLoop.connected, List.countP_cons, htype, decide_true, if_true]
    omega
  refine ⟨?_, h.slot, h.upstream, h.owner, h.added, Nat.succ_pos _⟩
  rw [hatt]
  exact h.one

/-- The loop adds the listener. -/
theorem ServerSlot.addListen (h : ServerSlot s) {c : Nat} (hc : c ∈ s.loop.queue)
    (ht : ctxType c = .tcpListen) :
    ServerSlot { s with loop := s.loop.add c hc, listenCtx := some c } := by
  have hzero : c = 0 := by
    by_contra hne
    rw [ctxType, if_neg hne] at ht
    cases ht
  have hrole : roleOf s c = none :=
    h.no_session (EventLoop.not_live_of_queue hc) (EventLoop.not_closed_of_queue hc)
  have hatt : attempts { s with loop := s.loop.add c hc, listenCtx := some c } = attempts s := by
    rw [attempts_add hc, ht]
    rfl
  have hlive : ∀ d, d ∈ (s.loop.add c hc).live ↔ d ∈ s.loop.live ∨ d = c := by
    simp [EventLoop.add]
  refine ⟨?_, ?_, ?_, ?_, ?_, h.next_pos⟩
  · rw [hatt]
    exact h.one
  · intro d hd
    obtain ⟨hl, hr⟩ := h.slot d hd
    exact ⟨(hlive d).mpr (Or.inl hl), hr⟩
  · intro d hd hr
    rcases (hlive d).mp hd with hd | rfl
    · exact h.upstream d hd hr
    · exact nomatch hrole.symm.trans hr
  · intro d hd
    rcases (hlive d).mp hd with hd | rfl
    · exact h.owner d hd
    · exact Or.inl hzero
  · intro d hr
    exact (h.added d hr).imp (fun hl => (hlive d).mpr (Or.inl hl)) id

/-- The loop adds a connection to the upstream: the slot was empty, and this was
the one attempt. -/
theorem ServerSlot.addClient (h : ServerSlot s) {c : Nat} (hc : c ∈ s.loop.queue)
    (ht : ctxType c = .tcpClient) (hq : s'.connCtx = some c ∧ s'.loop = s.loop.add c hc ∧
      s'.accepted = s.accepted ∧
      ∀ d, roleOf s' d = if d = c then some .upstream else roleOf s d) : ServerSlot s' := by
  obtain ⟨hconn, hloop, hacc, hrole⟩ := hq
  have hcount := attempts_add hc
  rw [if_pos ht] at hcount
  obtain ⟨hnone, hone, hother⟩ := h.of_attempt (hcount ▸ Nat.succ_pos _)
  have hatt : attempts s' = 0 := by
    rw [attempts, hloop]
    show s.loop.threads + (s.loop.queue.erase c).countP _ = 0
    omega
  have hlive : ∀ d, d ∈ s'.loop.live ↔ d ∈ s.loop.live ∨ d = c := by
    simp [hloop, EventLoop.add]
  refine ⟨Or.inl ⟨by simp [hconn], hatt⟩, ?_, ?_, ?_, ?_, by rw [hloop]; exact h.next_pos⟩
  · intro d hd
    have hdc : d = c := Option.some.inj (hd.symm.trans hconn)
    exact ⟨(hlive d).mpr (Or.inr hdc), by rw [hrole, if_pos hdc]⟩
  · intro d hd hr
    rcases (hlive d).mp hd with hd | rfl
    · have hdc : d ≠ c := fun hdc => EventLoop.not_live_of_queue hc (hdc ▸ hd)
      rw [hrole, if_neg hdc] at hr
      exact absurd hr (hother d hd)
    · exact hconn
  · intro d hd
    rw [hrole, hacc]
    rcases (hlive d).mp hd with hd | rfl
    · rcases h.owner d hd with h0 | ha | hr
      · exact Or.inl h0
      · exact Or.inr (Or.inl ha)
      · exact absurd hr (hother d hd)
    · exact Or.inr (Or.inr (if_pos rfl))
  · intro d hr
    rw [hrole] at hr
    by_cases hdc : d = c
    · exact Or.inl ((hlive d).mpr (Or.inr hdc))
    · rw [if_neg hdc] at hr
      rcases h.added d hr with hl | hcl
      · exact Or.inl ((hlive d).mpr (Or.inl hl))
      · exact Or.inr (by rw [hloop]; exact hcl)

/-- The listener accepts a client: a fresh context, with the role of a client or without
a session. -/
theorem ServerSlot.connect (h : ServerSlot s) (hq : s'.connCtx = s.connCtx ∧
      s'.loop = s.loop.accept ∧ s'.accepted = s.loop.next :: s.accepted ∧
      roleOf s' s.loop.next ≠ some .upstream ∧
      ∀ d, d ≠ s.loop.next → roleOf s' d = roleOf s d) : ServerSlot s' := by
  obtain ⟨hconn, hloop, hacc, hnew, hrole⟩ := hq
  have hlive : ∀ d, d ∈ s'.loop.live ↔ d = s.loop.next ∨ d ∈ s.loop.live := by
    simp [hloop, EventLoop.accept]
  have hne : ∀ {d}, d ∈ s.loop.live → d ≠ s.loop.next := fun hd =>
    Nat.ne_of_lt (EventLoop.lt_of_live hd)
  refine ⟨?_, ?_, ?_, ?_, ?_, by rw [hloop]; exact Nat.succ_pos _⟩
  · rw [hconn, attempts, hloop]
    exact h.one
  · intro d hd
    obtain ⟨hl, hr⟩ := h.slot d (hconn ▸ hd)
    exact ⟨(hlive d).mpr (Or.inr hl), by rw [hrole d (hne hl), hr]⟩
  · intro d hd hr
    rcases (hlive d).mp hd with rfl | hd
    · exact absurd hr hnew
    · rw [hconn]
      exact h.upstream d hd (hrole d (hne hd) ▸ hr)
  · intro d hd
    rw [hacc]
    rcases (hlive d).mp hd with rfl | hd
    · exact Or.inr (Or.inl List.mem_cons_self)
    · rw [hrole d (hne hd)]
      exact (h.owner d hd).imp id (Or.imp (List.mem_cons_of_mem _) id)
  · intro d hr
    by_cases hd : d = s.loop.next
    · exact Or.inl ((hlive d).mpr (Or.inl hd))
    · rcases h.added d (hrole d hd ▸ hr) with hl | hcl
      · exact Or.inl ((hlive d).mpr (Or.inr hl))
      · exact Or.inr (by rw [hloop]; exact hcl)

theorem mem_close {L : EventLoop} {c d : Nat} (hc : c ∈ L.live) :
    d ∈ (L.close c hc).live ↔ d ≠ c ∧ d ∈ L.live := by
  rw [EventLoop.close]
  exact L.nodup_live.mem_erase_iff

/-- A context with a role is still known after a context was closed. -/
theorem ServerSlot.added_close (h : ServerSlot s) {c : Nat} (hc : c ∈ s.loop.live) {d : Nat}
    (hrd : roleOf s d ≠ none) : d ∈ (s.loop.close c hc).live ∨ d ∈ (s.loop.close c hc).closed := by
  by_cases hdc : d = c
  · exact Or.inr (hdc ▸ List.mem_cons_self)
  · exact (h.added d hrd).imp (fun hl => (mem_close hc).mpr ⟨hdc, hl⟩) (List.mem_cons_of_mem _)

/-- The upstream is closed: the slot is cleared and a thread is started. -/
theorem ServerSlot.closeUpstream (h : ServerSlot s) {c : Nat} (hc : c ∈ s.loop.live)
    (hr : roleOf s c = some .upstream) :
    ServerSlot { s with loop := (s.loop.close c hc).asyncConnect, connCtx := none } := by
  have hconn : s.connCtx = some c := h.upstream c hc hr
  have hzero : attempts s = 0 := by
    rcases h.one with ⟨_, hzero⟩ | ⟨hnone, _⟩
    · exact hzero
    · rw [hconn] at hnone
      cases hnone
  refine ⟨Or.inr ⟨rfl, ?_⟩, ?_, ?_, ?_, ?_, h.next_pos⟩
  · simp only [attempts, EventLoop.asyncConnect, EventLoop.close] at hzero ⊢
    omega
  · intro d hd
    cases hd
  · intro d hd hrd
    obtain ⟨hdc, hd⟩ := (mem_close hc).mp hd
    have := h.upstream d hd hrd
    exact absurd (Option.some.inj (this.symm.trans hconn)) hdc
  · intro d hd
    exact h.owner d ((mem_close hc).mp hd).2
  · intro d hrd
    exact h.added_close hc hrd

/-- Any other context is closed: the slot stays. -/
theorem ServerSlot.closeOther (h : ServerSlot s) {c : Nat} (hc : c ∈ s.loop.live)
    (hr : roleOf s c ≠ some .upstream) : ServerSlot { s with loop := s.loop.close c hc } := by
  refine ⟨h.one, ?_, ?_, ?_, ?_, h.next_pos⟩
  · intro d hd
    obtain ⟨hl, hrd⟩ := h.slot d hd
    have hdc : d ≠ c := by
      rintro rfl
      exact hr hrd
    exact ⟨(mem_close hc).mpr ⟨hdc, hl⟩, hrd⟩
  · intro d hd hrd
    exact h.upstream d ((mem_close hc).mp hd).2 hrd
  · intro d hd
    exact h.owner d ((mem_close hc).mp hd).2
  · intro d hrd
    exact h.added_close hc hrd

/-- A closed context is released: it was in no slot. -/
theorem ServerSlot.release (h : ServerSlot s) {c : Nat} (hc : c ∈ s.loop.closed) :
    ServerSlot (onRelease c { s with loop := s.loop.release c }) := by
  have hne : ∀ {d}, d ∈ s.loop.live → d ≠ c := fun hd hdc =>
    EventLoop.not_live_of_closed hc (hdc ▸ hd)
  have hrole : ∀ d, d ≠ c →
      roleOf (onRelease c { s with loop := s.loop.release c }) d = roleOf s d := by
    intro d hdc
    simp [roleOf, onRelease, hdc]
  have hnone : roleOf (onRelease c { s with loop := s.loop.release c }) c = none := by
    simp [roleOf, onRelease]
  refine ⟨h.one, ?_, ?_, ?_, ?_, h.next_pos⟩
  · intro d hd
    obtain ⟨hl, hr⟩ := h.slot d hd
    exact ⟨hl, by rw [hrole d (hne hl), hr]⟩
  · intro d hd hr
    exact h.upstream d hd (hrole d (hne hd) ▸ hr)
  · intro d hd
    rw [hrole d (hne hd)]
    exact h.owner d hd
  · intro d hr
    have hdc : d ≠ c := by
      rintro rfl
      exact hr hnone
    refine (h.added d (hrole d hdc ▸ hr)).imp id fun hcl => ?_
    exact (List.mem_erase_of_ne hdc).mpr hcl

/-- Every step keeps the invariant. -/
theorem ServerSlot.step (h : ServerSlot s) {e : ServerEvent} (hs : Step B b₀ s e s') :
    ServerSlot s' := by
  cases hs with
  | connected ht => exact h.connected ht
  | @add c nodelay hp hc =>
      cases ht : ctxType c with
      | tcpListen =>
          simp only [onAddCtx, ht]
          exact h.addListen hc ht
      | tcpClient =>
          simp only [onAddCtx, ht]
          refine h.addClient hc ht ⟨?_, ?_, ?_, fun d => ?_⟩
          · cases nodelay with
            | true => rfl
            | false => rfl
          · cases nodelay with
            | true => rfl
            | false => rfl
          · cases nodelay with
            | true => rfl
            | false => rfl
          · rw [roleOf_newSession]
            cases nodelay with
            | true => rfl
            | false => rfl
  | @connect nodelay hp =>
      have hfresh : roleOf s s.loop.next = none :=
        h.no_session (fun hl => Nat.lt_irrefl _ (EventLoop.lt_of_live hl))
          (fun hd => Nat.lt_irrefl _ (EventLoop.lt_of_closed hd))
      cases nodelay with
      | true =>
          refine h.connect ⟨rfl, rfl, rfl, ?_, fun d hd => ?_⟩
          · simp only [onConnect, if_true, roleOf_newSession]
            exact fun hr => nomatch hr
          · simp only [onConnect, if_true, roleOf_newSession, if_neg hd]
            rfl
      | false =>
          refine h.connect ⟨rfl, rfl, rfl, fun hr => ?_, fun d _ => rfl⟩
          exact nomatch hfresh.symm.trans hr
  | messageNone => exact h
  | message => exact h.of_same (.of_eq rfl rfl rfl rfl)
  | read hp hses => exact h.of_same (readOne_spec hses _).1
  | parse hp hses => exact h.of_same (parseOne_spec hses _).1
  | @close c hp hc =>
      cases hses : s.session c with
      | none =>
          have hr : roleOf s c ≠ some .upstream := by simp [roleOf, hses]
          simpa [onClose, hses] using h.closeOther hc hr
      | some ses =>
          have hrole : roleOf s c = some ses.role := by simp [roleOf, hses]
          cases hr : ses.role with
          | upstream =>
              simpa [onClose, hses, hr] using h.closeUpstream hc (hrole.trans (by rw [hr]))
          | client => simpa [onClose, hses, hr] using h.closeOther hc (by simp [hrole, hr])
          | null => simpa [onClose, hses, hr] using h.closeOther hc (by simp [hrole, hr])
  | release hp hc => exact h.release hc

/-- A step writes only to the context in the slot, and opens no context again. -/
theorem Step.writes {e : ServerEvent} (hs : Step B b₀ s e s') :
    s.shut ⊆ s'.shut ∧ ∃ evs, s'.log = s.log ++ evs ∧ Writes s evs := by
  have hnone : ∃ evs, s.log = s.log ++ evs ∧ Writes s evs :=
    ⟨[], (List.append_nil _).symm, NoWrite.writes noWrite_nil s⟩
  cases hs with
  | connected => exact ⟨List.Subset.refl _, hnone⟩
  | @add c nodelay hp hc =>
      cases ht : ctxType c with
      | tcpListen =>
          simp only [onAddCtx, ht]
          exact ⟨List.Subset.refl _, hnone⟩
      | tcpClient =>
          simp only [onAddCtx, ht]
          cases nodelay with
          | true => exact ⟨List.Subset.refl _, hnone⟩
          | false => exact ⟨List.subset_cons_self _ _, hnone⟩
  | @connect nodelay hp =>
      cases nodelay with
      | true => exact ⟨List.Subset.refl _, hnone⟩
      | false => exact ⟨List.subset_cons_self _ _, hnone⟩
  | messageNone => exact ⟨List.Subset.refl _, hnone⟩
  | message => exact ⟨List.Subset.refl _, hnone⟩
  | read hp hses =>
      obtain ⟨_, hshut, hlog⟩ := readOne_spec hses _
      rw [hlog]
      exact ⟨hshut, hnone⟩
  | parse hp hses => exact (parseOne_spec hses _).2
  | @close c hp hc =>
      have hsame : (onClose c { s with loop := s.loop.close c hc }).log = s.log ∧
          (onClose c { s with loop := s.loop.close c hc }).shut = s.shut := by
        unfold onClose
        split
        · exact ⟨rfl, rfl⟩
        · split
          · exact ⟨rfl, rfl⟩
          · exact ⟨rfl, rfl⟩
          · exact ⟨rfl, rfl⟩
      rw [hsame.1, hsame.2]
      exact ⟨List.Subset.refl _, hnone⟩
  | release => exact ⟨List.Subset.refl _, hnone⟩

theorem serverSlot_of_run {es : List ServerEvent} (hrun : Run (Step B b₀) start es s) :
    ServerSlot s :=
  hrun.invariant (fun _ _ _ h hs => h.step hs) serverSlot_start

/-- In every state of a run the slot is empty or a context that was added, is neither
closed nor released and has a session with the role `UPSTREAM`; it is empty exactly if
one attempt to connect is outstanding, and else there is none; no other live context is
a connection to the upstream; and what the next step writes goes to the slot. -/
theorem upstream_slot_of_run {es : List ServerEvent} (hrun : Run (Step B b₀) start es s) :
    (∀ c, s.connCtx = some c → c ∈ s.loop.live ∧ c ∉ s.loop.queue ∧ c ∉ s.loop.closed ∧
      ∃ ses, s.session c = some ses ∧ ses.role = .upstream) ∧
    ((s.connCtx ≠ none ∧ attempts s = 0) ∨ (s.connCtx = none ∧ attempts s = 1)) ∧
    (∀ c ∈ s.loop.live, c = 0 ∨ c ∈ s.accepted ∨ s.connCtx = some c) ∧
    ∀ e s', Step B b₀ s e s' → ∃ evs, s'.log = s.log ++ evs ∧
      ∀ u buf acc, .write u buf acc ∈ evs → s.connCtx = some u ∧ u ∈ s.loop.live := by
  have h := serverSlot_of_run hrun
  refine ⟨fun c hc => ?_, h.one, fun c hc => ?_, fun e s' hs => ?_⟩
  · obtain ⟨hl, hr⟩ := h.slot c hc
    obtain ⟨ses, hses, hrole⟩ := Option.map_eq_some_iff.mp hr
    exact ⟨hl, fun hq => EventLoop.not_live_of_queue hq hl,
      fun hd => EventLoop.not_live_of_closed hd hl, ses, hses, hrole⟩
  · exact (h.owner c hc).imp id (Or.imp id (h.upstream c hc))
  · obtain ⟨_, evs, hlog, hevs⟩ := hs.writes
    refine ⟨evs, hlog, fun u buf acc hw => ?_⟩
    have hu := (hevs u buf acc hw).1
    exact ⟨hu, (h.slot u hu).1⟩

/-- The server starts, accepts a client, loses its upstream and finds it again. -/
def upstreamLost : List ServerEvent :=
  [.add 0 true, .add 1 true, .connect true, .close 1, .connected, .add 3 true]

/-- The slot holds the second connection, and nothing is outstanding. -/
theorem upstream_slot_after_reconnect : ∃ s, Run (Step (ringBuffer netBenchTcpBufSize)
      (emptyRing netBenchTcpBufSize fun _ => 0)) start upstreamLost s ∧
    s.connCtx = some 3 ∧ 3 ∈ s.loop.live ∧ attempts s = 0 := by
  obtain ⟨s, hrun, hconn⟩ : ∃ s, Run (Step (ringBuffer netBenchTcpBufSize)
      (emptyRing netBenchTcpBufSize fun _ => 0)) start upstreamLost s ∧ s.connCtx = some 3 :=
    ⟨_, .cons (.add rfl (by decide)) (.cons (.add rfl (by decide)) (.cons (.connect rfl)
      (.cons (.close rfl (by decide)) (.cons (.connected (by decide))
        (.cons (.add rfl (by decide)) (.nil _)))))), rfl⟩
  obtain ⟨hslot, hone, -, -⟩ := upstream_slot_of_run hrun
  refine ⟨s, hrun, hconn, (hslot 3 hconn).1, ?_⟩
  rcases hone with ⟨_, hzero⟩ | ⟨hnone, _⟩
  · exact hzero
  · exact nomatch hconn.symm.trans hnone

end NetBench.TcpServer

/-
# `NetBench.Transmission` — which write caused which record

A connection keeps the order of messages, so the `n`-th record made on it is of the
`n`-th message that its writer wrote in full (`Carries`).  The server writes a message
in the handling that recorded it, two places behind the record.  A client's write
caused an upstream's record when the two are joined by these links (`Caused`).

    client.snd_begin   write        server.rcv  server.snd_begin  write      upstream.rcv
          b            b + 1   ⇝        r            r + 1        r + 2   ⇝        q

`Transmits` holds of every state; by it every `upstream.rcv` has such a history
(`Transmits.caused`).
-/
import NetBench.ChainRecords
import NetBench.Lib.Positions

namespace NetBench.Chain

open Lib NbSysArgs

variable {ι β : Type} [DecidableEq ι] {a : ι → NbSysArgs} {B : BytesBuffer β} {b₀ : β}
  {T : ι → Bytes} {contents : β → Bytes} {cap : Nat} {σ σ' : Chain ι β}
  {H H' : List TcpServer.Handled} {F F' : Nat → List Bytes} {tr : List (Proc ι × Ev)}

/-! ## Positions in the trace -/

/-- `f` on the events of the process `p`. -/
def ofProc {γ : Type} (p : Proc ι) (f : Ev → Option γ) (x : Proc ι × Ev) : Option γ :=
  if x.1 = p then f x.2 else none

theorem filterMap_ofProc {γ : Type} (p : Proc ι) (f : Ev → Option γ) (tr : List (Proc ι × Ev)) :
    tr.filterMap (ofProc p f) = (eventsOf p tr).filterMap f := by
  rw [eventsOf, List.filterMap_filterMap]
  congr 1
  funext x
  by_cases hx : x.1 = p
  · simp [ofProc, hx]
  · simp [ofProc, hx]

/-- The full writes of `p` on `d`. -/
def writesAt (p : Proc ι) (d : Nat) (tr : List (Proc ι × Ev)) : List (Nat × Bytes) :=
  positions (ofProc p (Ev.fullWrite d)) tr

/-- The records that `p` makes on `c` with the action `x`. -/
def recordsAt (p : Proc ι) (x : Action) (c : Nat) (tr : List (Proc ι × Ev)) :
    List (Nat × MsgKey) :=
  positions (ofProc p (Ev.recordOn x c)) tr

theorem mem_writesAt {p : Proc ι} {d w : Nat} {f : Bytes} :
    (w, f) ∈ writesAt p d tr ↔ tr[w]? = some (p, .write d f f) := by
  rw [writesAt, mem_positions]
  constructor
  · rintro ⟨⟨q, e⟩, hx, hf⟩
    by_cases hq : q = p
    · subst hq
      cases e with
      | write d' buf acc =>
          simp only [ofProc, Ev.fullWrite, if_pos] at hf
          split at hf
          · rename_i hfull
            obtain ⟨rfl, rfl⟩ := hfull
            cases hf
            exact hx
          · cases hf
      | record | assertFailed | exit => simp [ofProc, Ev.fullWrite] at hf
    · simp [ofProc, hq] at hf
  · intro hx
    exact ⟨_, hx, by simp [ofProc, Ev.fullWrite]⟩

theorem mem_recordsAt {p : Proc ι} {x : Action} {c r : Nat} {k : MsgKey} :
    (r, k) ∈ recordsAt p x c tr ↔ tr[r]? = some (p, Ev.record c (k.record x)) := by
  rw [recordsAt, mem_positions]
  constructor
  · rintro ⟨⟨q, e⟩, hx, hk⟩
    by_cases hq : q = p
    · subst hq
      cases e with
      | record d rec =>
          simp only [ofProc, Ev.recordOn, if_pos] at hk
          split at hk
          · rename_i hrec
            obtain ⟨rfl, rfl⟩ := hrec
            cases hk
            exact hx
          · cases hk
      | write | assertFailed | exit => simp [ofProc, Ev.recordOn] at hk
    · simp [ofProc, hq] at hk
  · intro hx
    exact ⟨_, hx, by simp [ofProc, Ev.recordOn]⟩

/-! ## Causes -/

/-- The record at `r`, by `q` on `c`, is of the message that `p` wrote at `w` on `d`: each
is the `n`-th of its kind. -/
def Carries (tr : List (Proc ι × Ev)) (p : Proc ι) (d : Nat) (q : Proc ι) (x : Action)
    (c w r : Nat) : Prop :=
  ∃ (n : Nat) (f : Bytes) (k : MsgKey),
    (writesAt p d tr)[n]? = some (w, f) ∧ (recordsAt q x c tr)[n]? = some (r, k)

/-- The client's write at `w` caused the upstream's record at `q`: the server received
the message at `r` and wrote it at `r + 2`. -/
def Caused (σ : Chain ι β) (w q : Nat) : Prop :=
  ∃ i d c r u x, σ.peerOfServer c = some (i, d) ∧
    Carries σ.trace (.client i) d .server .serverRcv c w r ∧
    σ.peerOfUpstream x = some u ∧
    Carries σ.trace .server u .upstream .upstreamRcv x (r + 2) q

/-- Every record on `c` is of a message written before on `d`, with the same fields. -/
def Arrives (tr : List (Proc ι × Ev)) (p : Proc ι) (d : Nat) (q : Proc ι) (x : Action)
    (c : Nat) : Prop :=
  ∀ (n r : Nat) (k : MsgKey), (recordsAt q x c tr)[n]? = some (r, k) →
    ∃ w f, (writesAt p d tr)[n]? = some (w, f) ∧ keyOf f = k ∧ w < r

theorem recordsAt_getElem? (ht : Traced σ) {p : Proc ι} {x : Action} {c n r : Nat} {k : MsgKey}
    (h : (recordsAt p x c σ.trace)[n]? = some (r, k)) :
    (recordsOn x (σ.logOf p) c)[n]? = some k := by
  have := getElem?_positions h
  rwa [filterMap_ofProc, ht p] at this

theorem exists_writesAt_getElem? (ht : Traced σ) {p : Proc ι} {d n : Nat} {f : Bytes}
    (h : (fullWrites (σ.logOf p) d)[n]? = some f) :
    ∃ w, (writesAt p d σ.trace)[n]? = some (w, f) := by
  refine exists_getElem?_positions ?_
  rw [filterMap_ofProc, ht p]
  exact h

/-- The positions after a step of another process. -/
theorem filterMap_of_ne {γ : Type} {p r : Proc ι} (h : r ≠ p) (f : Ev → Option γ) (l : List Ev) :
    (l.map (Prod.mk r)).filterMap (ofProc p f) = [] := by
  rw [filterMap_ofProc, eventsOf_map, if_neg h]
  rfl

/-- A record that is new is of a message that is in the trace already. -/
theorem arrives_step {p q r : Proc ι} {l : List Ev} {d c : Nat} {x : Action} (hpq : q ≠ p)
    (ht : Traced σ) (ht' : Traced σ') (hm : Moves r l σ σ')
    (hpre : recordsOn x (σ'.logOf q) c <+: (fullWrites (σ'.logOf p) d).map keyOf)
    (hold : ∀ k ∈ recordsOn x (σ.logOf q) c, Arrives σ.trace p d q x c) :
    Arrives σ'.trace p d q x c := by
  intro n t k hk
  have hkey := recordsAt_getElem? ht' hk
  obtain ⟨rs, hrs, hrpos, hrnil⟩ :=
    positions_append (ofProc q (Ev.recordOn x c)) σ.trace (l.map (Prod.mk r))
  obtain ⟨ws, hws, _, hwnil⟩ :=
    positions_append (ofProc p (Ev.fullWrite d)) σ.trace (l.map (Prod.mk r))
  rw [recordsAt, hm.trace, hrs] at hk
  by_cases hn : n < (positions (ofProc q (Ev.recordOn x c)) σ.trace).length
  · rw [List.getElem?_append_left hn] at hk
    have hmem := List.mem_of_getElem? (recordsAt_getElem? ht hk)
    obtain ⟨w, f, hw, hf, hlt⟩ := hold k hmem n t k hk
    rw [writesAt] at hw
    refine ⟨w, f, ?_, hf, hlt⟩
    rw [writesAt, hm.trace, hws,
      List.getElem?_append_left (List.getElem?_eq_some_iff.mp hw).1, hw]
  · rw [List.getElem?_append_right (Nat.le_of_not_lt hn)] at hk
    have hr : r = q := by
      by_contra hne
      rw [hrnil (filterMap_of_ne hne _ l)] at hk
      exact nomatch hk
    have hwrites : ws = [] := hwnil (filterMap_of_ne (hr ▸ hpq) _ l)
    -- the write is older than the step
    obtain ⟨rest, hrest⟩ := hpre
    have hwrite : ((fullWrites (σ'.logOf p) d).map keyOf)[n]? = some k := by
      rw [← hrest, List.getElem?_append_left (List.getElem?_eq_some_iff.mp hkey).1]
      exact hkey
    rw [List.getElem?_map] at hwrite
    obtain ⟨f, hf, hfk⟩ := Option.map_eq_some_iff.mp hwrite
    obtain ⟨w, hw⟩ := exists_writesAt_getElem? ht' hf
    have hw' := hw
    rw [writesAt, hm.trace, hws, hwrites, List.append_nil] at hw'
    have hlt := lt_of_mem_positions (List.mem_of_getElem? hw')
    have hge := hrpos _ (List.mem_of_getElem? hk)
    exact ⟨w, f, hw, hfk, Nat.lt_of_lt_of_le hlt hge⟩

/-! ## One step -/

omit [DecidableEq ι] in
/-- The events of a step, by process. -/
theorem Adds.cases {e : ChainEvent ι} {p : Proc ι} {l : List Ev} (h : Adds a T σ σ' e p l)
    (hm : Moves p l σ σ') :
    Quiet l ∨
    (∃ i w d acc, p = .client i ∧ e = .client i (.send w) ∧
      TcpClient.done (a i) (σ.client i) < (a i).total ∧
      l = TcpClient.msgEvents (a i) (T i) d (TcpClient.done (a i) (σ.client i)) acc) ∨
    (∃ l' x, p = .server ∧ Quiet l' ∧ x.key = keyOf x.frame ∧
      l = l' ++ TcpServer.Handled.events x) ∨
    (∃ (l' : List Ev) (c : Nat) (k : MsgKey), p = .upstream ∧ Quiet l' ∧
      l = l' ++ [.record c (k.record .upstreamRcv)]) := by
  cases h with
  | @client i e l h =>
      have hlog : (σ'.client i).log = (σ.client i).log ++ l := hm.log
      cases h with
      | quiet hlog' hl hdone =>
          rw [hlog, List.append_cancel_left_eq] at hlog'
          exact Or.inl (hlog' ▸ hl)
      | @full w c hd hopen hlog' hdone =>
          rw [hlog, List.append_cancel_left_eq] at hlog'
          exact Or.inr (Or.inl ⟨i, w, c, _, rfl, rfl, hd, hlog'⟩)
      | @part w l' c acc hd hl hc hlog' hacc hne hshut hdone =>
          rw [hlog, List.append_cancel_left_eq] at hlog'
          exact Or.inr (Or.inl ⟨i, w, c, acc, rfl, rfl, hd, hlog'⟩)
  | @server e l xs hl hone hok =>
      match xs, hone with
      | [], _ =>
          rw [List.flatMap_nil, List.append_nil]
          exact Or.inl hl
      | [x], _ =>
          rw [List.flatMap_singleton]
          exact Or.inr (Or.inr (Or.inl ⟨l, x, rfl, hl, hok x List.mem_cons_self, rfl⟩))
  | @upstream e l r hl =>
      cases r with
      | none =>
          rw [Option.map_none, Option.toList_none, List.append_nil]
          exact Or.inl hl
      | some p => exact Or.inr (Or.inr (Or.inr ⟨l, p.1, p.2, rfl, hl, rfl⟩))

/-- Who makes which records. -/
def Owned (a : ι → NbSysArgs) : Proc ι × Ev → Prop
  | (.client i, .record _ r) => (r.action = .clientSndBegin ∨ r.action = .clientSndEnd) ∧
      ∃ j < (a i).total, r.key = TcpClient.msgKey (a i) j
  | (.server, .record _ r) => r.action = .serverRcv ∨ r.action = .serverSndBegin
  | (.upstream, .record _ r) => r.action = .upstreamRcv
  | _ => True

/-- A write of the server has the record of its message two places before it. -/
def Relayed (y x : Proc ι × Ev) : Prop :=
  ∃ u f acc c, x = (.server, .write u f acc) ∧
    y = (.server, Ev.record c ((keyOf f).record .serverRcv))

/-- A write of a client has its `client.snd_begin` just before it. -/
def Begun (y x : Proc ι × Ev) : Prop :=
  ∃ i d f acc, x = (.client i, .write d f acc) ∧
    y = (.client i, Ev.record d ((keyOf f).record .clientSndBegin))

def IsServerWrite (x : Proc ι × Ev) : Prop := ∃ u f acc, x = (.server, .write u f acc)

def IsClientWrite (x : Proc ι × Ev) : Prop := ∃ i d f acc, x = (.client i, .write d f acc)

/-- What can be seen of the trace from place to place. -/
structure Local (a : ι → NbSysArgs) (tr : List (Proc ι × Ev)) : Prop where
  relayed : Follows 2 IsServerWrite Relayed tr
  begun : Follows 1 IsClientWrite Begun tr
  owned : ∀ x ∈ tr, Owned a x

omit [DecidableEq ι] in
theorem Local.append {tr' : List (Proc ι × Ev)} (h : Local a tr) (h' : Local a tr') :
    Local a (tr ++ tr') := by
  refine ⟨h.relayed.append h'.relayed, h.begun.append h'.begun, fun x hx => ?_⟩
  rcases List.mem_append.mp hx with hx | hx
  · exact h.owned x hx
  · exact h'.owned x hx

omit [DecidableEq ι] in
/-- Events without a write need only be owned. -/
theorem local_of_noWrite {l : List Ev} (hl : NoWrite l) {p : Proc ι}
    (h : ∀ e ∈ l, Owned a (p, e)) : Local a (l.map (Prod.mk p)) := by
  refine ⟨follows_of_not ?_, follows_of_not ?_, ?_⟩
  · rintro _ hx ⟨u, f, acc, rfl⟩
    obtain ⟨e, he, heq⟩ := List.mem_map.mp hx
    cases heq
    exact hl _ _ _ he
  · rintro _ hx ⟨i, d, f, acc, rfl⟩
    obtain ⟨e, he, heq⟩ := List.mem_map.mp hx
    cases heq
    exact hl _ _ _ he
  · intro x hx
    obtain ⟨e, he, rfl⟩ := List.mem_map.mp hx
    exact h e he

omit [DecidableEq ι] in
theorem local_quiet {l : List Ev} (hl : Quiet l) (p : Proc ι) : Local a (l.map (Prod.mk p)) := by
  refine local_of_noWrite hl.noWrite fun e he => ?_
  rcases hl e he with ⟨c, y, rfl⟩ | rfl
  · cases p with
    | client | server | upstream => exact trivial
  · cases p with
    | client | server | upstream => exact trivial

omit [DecidableEq ι] in
theorem local_message (hT : ∀ i, (a i).Prepared (T i)) {i : ι} {j : Nat} (hj : j < (a i).total)
    (d : Nat) (acc : Bytes) :
    Local a ((TcpClient.msgEvents (a i) (T i) d j acc).map (Prod.mk (Proc.client i))) := by
  refine ⟨follows_of_not ?_, ?_, ?_⟩
  · rintro _ hx ⟨u, f, acc, rfl⟩
    obtain ⟨e, _, heq⟩ := List.mem_map.mp hx
    cases heq
  · rintro n _ hx ⟨i', d', f, acc', rfl⟩
    match n, hx with
    | 0, hx => cases hx
    | 1, hx =>
        cases hx
        refine ⟨0, _, rfl, rfl, i, d, _, acc, rfl, ?_⟩
        rw [TcpClient.keyOf_slice (hT i) hj]
        rfl
    | 2, hx => cases hx
  · intro x hx
    simp only [TcpClient.msgEvents, List.map_cons, List.map_nil, List.mem_cons,
      List.not_mem_nil, or_false] at hx
    rcases hx with rfl | rfl | rfl
    · exact ⟨Or.inl rfl, j, hj, rfl⟩
    · exact trivial
    · exact ⟨Or.inr rfl, j, hj, rfl⟩

omit [DecidableEq ι] in
theorem local_handled {x : TcpServer.Handled} (hkey : x.key = keyOf x.frame) :
    Local a (x.events.map (Prod.mk (Proc.server (ι := ι)))) := by
  obtain ⟨src, frame, key, out⟩ := x
  obtain rfl : key = keyOf frame := hkey
  cases out with
  | none =>
      refine local_of_noWrite ?_ fun e he => ?_
      · intro c buf acc he
        cases List.mem_singleton.mp he
      · obtain rfl := List.mem_singleton.mp he
        exact Or.inl rfl
  | some o =>
      refine ⟨?_, follows_of_not ?_, ?_⟩
      · rintro n _ hx ⟨u, f, acc, rfl⟩
        match n, hx with
        | 0, hx => cases hx
        | 1, hx => cases hx
        | 2, hx =>
            cases hx
            exact ⟨0, _, rfl, rfl, _, _, _, src, rfl, rfl⟩
      · rintro _ hx ⟨i, d, f, acc, rfl⟩
        obtain ⟨e, _, heq⟩ := List.mem_map.mp hx
        cases heq
      · intro x hx
        simp only [TcpServer.Handled.events, List.map_cons, List.map_nil, List.mem_cons,
          List.not_mem_nil, or_false] at hx
        rcases hx with rfl | rfl | rfl
        · exact Or.inl rfl
        · exact Or.inr rfl
        · exact trivial

omit [DecidableEq ι] in
theorem local_received (c : Nat) (k : MsgKey) :
    Local a ([Ev.record c (k.record .upstreamRcv)].map (Prod.mk (Proc.upstream (ι := ι)))) := by
  refine local_of_noWrite ?_ fun e he => ?_
  · intro c buf acc he
    cases List.mem_singleton.mp he
  · obtain rfl := List.mem_singleton.mp he
    exact rfl

omit [DecidableEq ι] in
/-- Every step adds such events. -/
theorem Adds.seen (hT : ∀ i, (a i).Prepared (T i)) {e : ChainEvent ι} {p : Proc ι} {l : List Ev}
    (h : Adds a T σ σ' e p l) (hm : Moves p l σ σ') : Local a (l.map (Prod.mk p)) := by
  rcases h.cases hm with hl | ⟨i, w, d, acc, rfl, _, hd, rfl⟩ | ⟨l', x, rfl, hl, hkey, rfl⟩ |
    ⟨l', c, k, rfl, hl, rfl⟩
  · exact local_quiet hl p
  · exact local_message hT hd d acc
  · rw [List.map_append]
    exact (local_quiet hl _).append (local_handled hkey)
  · rw [List.map_append]
    exact (local_quiet hl _).append (local_received c k)

/-! ## Every state -/

/-- A link stays once it is there. -/
theorem Step.links (h : Linked a T contents H F σ) {e : ChainEvent ι} (hs : Step a B b₀ σ e σ') :
    (∀ c p, σ.peerOfServer c = some p → σ'.peerOfServer c = some p) ∧
    ∀ x u, σ.peerOfUpstream x = some u → σ'.peerOfUpstream x = some u := by
  cases hs with
  | client | server | upstream => exact ⟨fun _ _ => id, fun _ _ => id⟩
  | @serverAccepts nodelay i d s hs hfree =>
      refine ⟨fun c p hp => ?_, fun _ _ => id⟩
      have hlt := h.serverOld c (hp ▸ rfl)
      show Function.update σ.peerOfServer _ _ c = some p
      rw [Function.update_of_ne (Nat.ne_of_lt hlt)]
      exact hp
  | @upstreamAccepts nodelay d s hs hfree =>
      refine ⟨fun _ _ => id, fun x u hp => ?_⟩
      have hlt := h.upstreamOld x (hp ▸ rfl)
      show Function.update σ.peerOfUpstream _ _ x = some u
      rw [Function.update_of_ne (Nat.ne_of_lt hlt)]
      exact hp

/-- What the trace says about the messages under way. -/
structure Transmits (a : ι → NbSysArgs) (σ : Chain ι β) : Prop where
  toServer : ∀ c i d, σ.peerOfServer c = some (i, d) →
    Arrives σ.trace (.client i) d .server .serverRcv c
  toUpstream : ∀ x u, σ.peerOfUpstream x = some u →
    Arrives σ.trace .server u .upstream .upstreamRcv x
  seen : Local a σ.trace

theorem transmits_start (ts : ι → Timespec) : Transmits a (start ts T : Chain ι β) where
  toServer _ _ _ h := nomatch h
  toUpstream _ _ h := nomatch h
  seen := ⟨follows_nil, follows_nil, fun _ h => (nomatch h)⟩

theorem Transmits.step (ha : ∀ i, (a i).Fits) (hT : ∀ i, (a i).Prepared (T i))
    (ht : Transmits a σ) (h : Linked a T contents H F σ) (h' : Linked a T contents H' F' σ')
    {e : ChainEvent ι} (hs : Step a B b₀ σ e σ') {p : Proc ι} {l : List Ev}
    (hm : Moves p l σ σ') (hadds : Adds a T σ σ' e p l) : Transmits a σ' := by
  obtain ⟨hserver, hupstream⟩ := hs.links h
  refine ⟨fun c i d hp => ?_, fun x u hp => ?_, ?_⟩
  · refine arrives_step (fun h => nomatch h) h.traced h'.traced hm
      (h'.server_prefix ha hT hp) fun k hk => ?_
    obtain ⟨q, hq⟩ := h.server_linked ha hT hk
    obtain rfl : q = (i, d) := Option.some.inj ((hserver c q hq).symm.trans hp)
    exact ht.toServer c i d hq
  · refine arrives_step (fun h => nomatch h) h.traced h'.traced hm
      (h'.upstream_prefix ha hT hp) fun k hk => ?_
    obtain ⟨v, hv⟩ := h.upstream_linked hk
    obtain rfl : v = u := Option.some.inj ((hupstream x v hv).symm.trans hp)
    exact ht.toUpstream x v hv
  · rw [hm.trace]
    exact ht.seen.append (hadds.seen hT hm)

/-- Every `upstream.rcv` was caused by a full write of a client, just behind a
`client.snd_begin` with the same fields. -/
theorem Transmits.caused (ht : Transmits a σ) (ha : ∀ i, (a i).Fits)
    (hT : ∀ i, (a i).Prepared (T i)) (h : Linked a T contents H F σ) {q x : Nat} {k : MsgKey}
    (hq : σ.trace[q]? = some (Proc.upstream, Ev.record x (k.record .upstreamRcv))) :
    ∃ (i : ι) (b d : Nat) (f : Bytes), Caused σ (b + 1) q ∧ b + 1 < q ∧ keyOf f = k ∧
      σ.trace[b]? = some (Proc.client i, Ev.record d (k.record .clientSndBegin)) ∧
      σ.trace[b + 1]? = some (Proc.client i, Ev.write d f f) := by
  -- back from the upstream to the server
  obtain ⟨n, hn⟩ := List.mem_iff_getElem?.mp (mem_recordsAt.mpr hq)
  have hk := List.mem_of_getElem? (recordsAt_getElem? h.traced hn)
  obtain ⟨u, hu⟩ := h.upstream_linked hk
  obtain ⟨w, f, hw, hf, hwq⟩ := ht.toUpstream x u hu n q k hn
  have hwrite := mem_writesAt.mp (List.mem_of_getElem? hw)
  obtain ⟨r, _, rfl, hr, u', f', acc, c, heq, rfl⟩ := ht.seen.relayed w _ hwrite ⟨u, f, f, rfl⟩
  cases heq
  rw [hf] at hr
  -- back from the server to the client
  obtain ⟨m, hmr⟩ := List.mem_iff_getElem?.mp (mem_recordsAt.mpr hr)
  have hkr := List.mem_of_getElem? (recordsAt_getElem? h.traced hmr)
  obtain ⟨⟨i, d⟩, hd⟩ := h.server_linked ha hT hkr
  obtain ⟨v, g, hv, hg, hvr⟩ := ht.toServer c i d hd m r k hmr
  have hsent := mem_writesAt.mp (List.mem_of_getElem? hv)
  obtain ⟨b, _, rfl, hb, i', d', g', acc', heq, rfl⟩ := ht.seen.begun v _ hsent ⟨i, d, g, g, rfl⟩
  cases heq
  rw [hg] at hb
  exact ⟨i, b, d, g, ⟨i, d, c, r, u, x, hd, ⟨m, g, k, hv, hmr⟩, hu, ⟨n, f, k, hw, hn⟩⟩,
    by omega, hg, hb, hsent⟩

end NetBench.Chain

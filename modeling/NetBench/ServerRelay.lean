/-
# `NetBench.ServerRelay` — what the server writes to its upstreams

Every frame that the server takes from a client is one `Handled`: where it came
from, its record, and at most one write.  `Relay` says that the whole log, failed
assertions apart, is the events of the frames handled so far, in order; that the
frames of each client are those cut off its bytes; and that each connection has
accepted whole frames and then at most a part of one (`Whole`).

    a step handles at most one frame and keeps `Relay`     (`Relay.step`)
    nothing is accepted after a context was shut down       (`Step.frozen`)

The clients' headers must not wrap; nothing is assumed of the bytes that come from
an upstream.
-/
import NetBench.ServerSlot

namespace NetBench

open Lib

/-! ## Logs without failed assertions -/

def Ev.isAssert : Ev → Bool
  | .assertFailed _ _ => true
  | _ => false

/-- The records and writes of a log. -/
def withoutAsserts (log : List Ev) : List Ev := log.filter fun e => !e.isAssert

@[simp] theorem withoutAsserts_append (l l' : List Ev) :
    withoutAsserts (l ++ l') = withoutAsserts l ++ withoutAsserts l' :=
  List.filter_append ..

@[simp] theorem withoutAsserts_nil : withoutAsserts [] = [] := rfl

theorem withoutAsserts_nbAssert (c : Nat) (x : Assertion) (ok : Bool) :
    withoutAsserts (nbAssert c x ok) = [] := by
  cases ok with
  | true => rfl
  | false => rfl

/-- A log of failed assertions writes nothing. -/
theorem noWrite_of_asserts {l : List Ev} (h : withoutAsserts l = []) : NoWrite l := by
  intro c buf acc hmem
  have hkept : .write c buf acc ∈ withoutAsserts l := List.mem_filter.mpr ⟨hmem, rfl⟩
  rw [h] at hkept
  cases hkept

theorem fullWrites_withoutAsserts (log : List Ev) (u : Nat) :
    fullWrites (withoutAsserts log) u = fullWrites log u := by
  induction log with
  | nil => rfl
  | cons e log ih =>
      cases e with
      | assertFailed c x => exact ih
      | record c r => exact ih
      | exit => exact ih
      | write c buf acc =>
          show fullWrites (.write c buf acc :: withoutAsserts log) u = _
          unfold fullWrites at ih ⊢
          rw [List.filterMap_cons, List.filterMap_cons, ih]

namespace TcpServer

/-! ## Handled frames -/

/-- A frame taken from the client `src`: what was recorded about it, and the upstream
it was written to with the bytes that were accepted, if there was one. -/
structure Handled where
  src : Nat
  frame : Bytes
  key : MsgKey
  out : Option (Nat × Bytes)

/-- What handling it leaves in the log. -/
def Handled.events (h : Handled) : List Ev :=
  .record h.src (h.key.record .serverRcv) ::
    match h.out with
    | none => []
    | some (u, acc) => [.record h.src (h.key.record .serverSndBegin), .write u h.frame acc]

/-- The frame, if `u` has accepted it in full. -/
def Handled.sentTo (u : Nat) (h : Handled) : Option Bytes :=
  match h.out with
  | none => none
  | some (v, acc) => if v = u ∧ acc = h.frame then some h.frame else none

/-- Its size is the length of the frame; a frame with room for the data has its fields. -/
structure Handled.Ok (h : Handled) : Prop where
  isFrame : nbFraming.IsFrame h.frame
  size : h.key.msgSize.toNat = h.frame.length
  key : 16 ≤ h.frame.length → h.key = keyOf h.frame

/-- The frames of the client `c`. -/
def framesFrom (c : Nat) (H : List Handled) : List Bytes :=
  H.filterMap fun h => if h.src = c then some h.frame else none

theorem framesFrom_append (c : Nat) (H H' : List Handled) :
    framesFrom c (H ++ H') = framesFrom c H ++ framesFrom c H' :=
  List.filterMap_append

theorem fullWrites_events (h : Handled) (u : Nat) :
    fullWrites h.events u = (h.sentTo u).toList := by
  obtain ⟨src, frame, key, out⟩ := h
  cases out with
  | none => rfl
  | some p =>
      by_cases hp : p.1 = u ∧ p.2 = frame
      · simp [fullWrites, Handled.events, Handled.sentTo, Ev.fullWrite, List.filterMap_cons, hp]
      · simp [fullWrites, Handled.events, Handled.sentTo, Ev.fullWrite, hp]

theorem fullWrites_flatMap (H : List Handled) (u : Nat) :
    fullWrites (H.flatMap Handled.events) u = H.filterMap (Handled.sentTo u) := by
  induction H with
  | nil => rfl
  | cons h H ih =>
      rw [List.flatMap_cons, fullWrites_append, ih, fullWrites_events, List.filterMap_cons]
      cases h.sentTo u with
      | none => rfl
      | some f => rfl

theorem recordsOn_withoutAsserts (x : Action) (log : List Ev) (c : Nat) :
    recordsOn x (withoutAsserts log) c = recordsOn x log c := by
  induction log with
  | nil => rfl
  | cons e log ih =>
      cases e with
      | assertFailed d y => exact ih
      | exit => exact ih
      | write d buf acc => exact ih
      | record d r =>
          show recordsOn x (.record d r :: withoutAsserts log) c = _
          unfold recordsOn at ih ⊢
          rw [List.filterMap_cons, List.filterMap_cons, ih]

theorem recordsOn_events (h : Handled) (c : Nat) :
    recordsOn .serverRcv h.events c = if h.src = c then [h.key] else [] := by
  obtain ⟨src, frame, key, out⟩ := h
  by_cases hc : src = c
  · cases out with
    | none => simp [recordsOn, Handled.events, Ev.recordOn, hc]
    | some p => simp [recordsOn, Handled.events, Ev.recordOn, hc]
  · cases out with
    | none => simp [recordsOn, Handled.events, Ev.recordOn, hc]
    | some p => simp [recordsOn, Handled.events, Ev.recordOn, hc]

/-! ## The invariant -/

variable {β : Type} {B : BytesBuffer β} {b₀ : β} {contents : β → Bytes} {cap : Nat}
  {s s' : TcpServer β} {H : List Handled}

/-- A context while the frames `H` have been handled: those of an accepted one were cut
off its bytes. -/
structure CtxOk (contents : β → Bytes) (H : List Handled) (s : TcpServer β) (c : Nat) :
    Prop where
  cut : c ∈ s.accepted → Cut contents (s.got c) (s.session c) (framesFrom c H)
  role : ∀ ses, s.session c = some ses → (ses.role = .client ↔ c ∈ s.accepted)
  accepted : c ∈ s.accepted → c ∉ s.loop.queue
  fresh : s.loop.next ≤ c → c ∉ s.accepted ∧ s.got c = [] ∧ s.session c = none

/-- The frames `H` were handled, in this order. -/
structure Relay (contents : β → Bytes) (H : List Handled) (s : TcpServer β) : Prop where
  log : withoutAsserts s.log = H.flatMap Handled.events
  src : ∀ h ∈ H, h.src ∈ s.accepted ∧ h.Ok
  ctx : ∀ c, CtxOk contents H s c
  whole : ∀ u, Whole s.log s.shut u

theorem relay_start : Relay contents [] (start : TcpServer β) where
  log := rfl
  src _ h := nomatch h
  ctx _ :=
    { cut := fun h => nomatch h
      role := fun _ h => nomatch h
      accepted := fun h => nomatch h
      fresh := fun _ => ⟨List.not_mem_nil, rfl, rfl⟩ }
  whole u := whole_nil [] u

/-- No frame is handled between `s` and `s'`, and only contexts in `P` change. -/
structure SameBut (P : Nat → Prop) (s s' : TcpServer β) : Prop where
  log : ∃ l, withoutAsserts l = [] ∧ s'.log = s.log ++ l
  shut : s.shut ⊆ s'.shut
  next : s.loop.next ≤ s'.loop.next
  queue : ∀ c < s.loop.next, c ∈ s'.loop.queue → c ∈ s.loop.queue
  grows : s.accepted ⊆ s'.accepted
  accepted : ∀ c, ¬ P c → c ∈ s'.accepted → c ∈ s.accepted
  session : ∀ c, ¬ P c → s'.session c = s.session c
  got : ∀ c, ¬ P c → s'.got c = s.got c

/-- The changed contexts are what remains to be shown. -/
theorem Relay.of_sameBut {P : Nat → Prop} (h : Relay contents H s) (hb : SameBut P s s')
    (hctx : ∀ c, P c → CtxOk contents H s' c) : Relay contents H s' := by
  obtain ⟨l, hl, hlog⟩ := hb.log
  refine ⟨?_, ?_, ?_, ?_⟩
  · rw [hlog, withoutAsserts_append, hl, List.append_nil]
    exact h.log
  · intro x hx
    obtain ⟨hsrc, hok⟩ := h.src x hx
    exact ⟨hb.grows hsrc, hok⟩
  · intro c
    by_cases hc : P c
    · exact hctx c hc
    · have hacc : c ∈ s'.accepted ↔ c ∈ s.accepted :=
        ⟨hb.accepted c hc, fun hmem => hb.grows hmem⟩
      obtain ⟨hcut, hrole, hqueue, hfresh⟩ := h.ctx c
      refine ⟨?_, ?_, ?_, ?_⟩
      · rw [hacc, hb.got c hc, hb.session c hc]
        exact hcut
      · rw [hacc, hb.session c hc]
        exact hrole
      · intro hmem hq
        have hlt : c < s.loop.next := by
          by_contra hge
          exact (hfresh (Nat.le_of_not_lt hge)).1 (hacc.mp hmem)
        exact hqueue (hacc.mp hmem) (hb.queue c hlt hq)
      · rw [hacc, hb.got c hc, hb.session c hc]
        exact fun hle => hfresh (Nat.le_trans hb.next hle)
  · intro u
    rw [hlog]
    exact (h.whole u).of_noWrite (noWrite_of_asserts hl) hb.shut

/-- Only the loop and the sessions of contexts in `P` change. -/
theorem SameBut.of_sessions {P : Nat → Prop} (hlog : s'.log = s.log) (hshut : s.shut ⊆ s'.shut)
    (hnext : s.loop.next ≤ s'.loop.next)
    (hqueue : ∀ c < s.loop.next, c ∈ s'.loop.queue → c ∈ s.loop.queue)
    (hacc : s'.accepted = s.accepted) (hgot : s'.got = s.got)
    (hses : ∀ c, ¬ P c → s'.session c = s.session c) : SameBut P s s' where
  log := ⟨[], rfl, hlog.trans (List.append_nil _).symm⟩
  shut := hshut
  next := hnext
  queue := hqueue
  grows := hacc ▸ List.Subset.refl _
  accepted _ _ hmem := hacc ▸ hmem
  session := hses
  got c _ := congrFun hgot c

/-- Only the loop changes. -/
theorem Relay.of_loop (h : Relay contents H s) (hlog : s'.log = s.log) (hshut : s'.shut = s.shut)
    (hnext : s.loop.next ≤ s'.loop.next)
    (hqueue : ∀ c < s.loop.next, c ∈ s'.loop.queue → c ∈ s.loop.queue)
    (hacc : s'.accepted = s.accepted) (hgot : s'.got = s.got) (hses : s'.session = s.session) :
    Relay contents H s' :=
  h.of_sameBut (P := fun _ => False) (.of_sessions hlog (hshut ▸ List.Subset.refl _) hnext
    hqueue hacc hgot fun c _ => congrFun hses c) fun _ hf => hf.elim

/-- A context with a session was made before. -/
theorem Relay.lt_next (h : Relay contents H s) {c : Nat} {ses : NbTcpSession β}
    (hses : s.session c = some ses) : c < s.loop.next := by
  by_contra hge
  exact nomatch hses.symm.trans ((h.ctx c).fresh (Nat.le_of_not_lt hge)).2.2

/-! ## One message -/

/-- What `relay` does with a frame is a `Handled`. -/
theorem relay_handled {f : Bytes} {m : Callback} (hd : Delivered f m) (c : Nat) (w : WriteOutcome)
    (s : TcpServer β) : ∃ out shut,
      relay c m w s =
        { s with log := s.log ++ (Handled.mk c f m.key out).events, shut := shut } ∧
      s.shut ⊆ shut ∧ ∀ u, Whole s.log s.shut u →
        Whole (s.log ++ (Handled.mk c f m.key out).events) shut u := by
  rcases Option.eq_none_or_eq_some s.connCtx with hconn | ⟨v, hconn⟩
  · refine ⟨none, s.shut, relay_none hconn, List.Subset.refl _, fun u hu => ?_⟩
    refine hu.of_noWrite ?_ (List.Subset.refl _)
    intro d buf acc hmem
    simp [Handled.events] at hmem
  · have hpos : 0 < f.length := List.length_pos_of_ne_nil hd.isFrame.ne_nil
    have hfull := ctxWrite_full_iff (decide (v ∈ s.shut)) w hd.lt hpos
    rw [relay_some hconn, hd.take, hd.datalen]
    refine ⟨some (v, (ctxWrite (decide (v ∈ s.shut)) w f).2), _, rfl, ?_, fun u hu => ?_⟩
    · split
      · exact List.Subset.refl _
      · exact List.subset_cons_self _ _
    · -- two records, then the write
      have hrec : Whole (s.log ++ [.record c (m.key.record .serverRcv),
          .record c (m.key.record .serverSndBegin)]) s.shut u := by
        refine hu.of_noWrite ?_ (List.Subset.refl _)
        intro d buf acc hmem
        simp at hmem
      have hlog : s.log ++ (Handled.mk c f m.key
          (some (v, (ctxWrite (decide (v ∈ s.shut)) w f).2))).events =
          s.log ++ [.record c (m.key.record .serverRcv),
            .record c (m.key.record .serverSndBegin)] ++
            [.write v f (ctxWrite (decide (v ∈ s.shut)) w f).2] := by
        rw [List.append_assoc]
        rfl
      rw [hlog]
      refine hrec.write hd.isFrame (ctxWrite_isPrefix _ _ _) (fun hv => ?_) ?_ fun hne => ?_
      · rw [decide_eq_true hv, ctxWrite_shut]
      · split
        · exact List.Subset.refl _
        · exact List.subset_cons_self _ _
      · rw [if_neg (fun heq => hne (hfull.mp heq))]
        exact List.mem_cons_self

/-- A frame of a client is handled. -/
theorem Relay.deliver (h : Relay contents H s) {c : Nat} {ses : NbTcpSession β}
    (hses : s.session c = some ses) (hrole : ses.role = .client) {f : Bytes} {m : Callback}
    {b : β} (hd : Delivered f m)
    (hcut : Cut contents (s.got c) (some { ses with bytesBuf := b }) (framesFrom c H ++ [f]))
    (w : WriteOutcome) : ∃ l x, withoutAsserts l = [] ∧
      (setBuf c ses b (handleMessage c m w s)).log = s.log ++ (l ++ Handled.events x) ∧
      Relay contents (H ++ [x]) (setBuf c ses b (handleMessage c m w s)) := by
  have hacc : c ∈ s.accepted := ((h.ctx c).role ses hses).mp hrole
  rw [handleMessage_client hses hrole]
  obtain ⟨out, shut, heq, hsub, hwhole⟩ := relay_handled hd c w (asserted c m s)
  have hassert := withoutAsserts_nbAssert c .msgId (decide (m.hdr.msgId = 1))
  have hfrom : ∀ d, framesFrom d (H ++ [⟨c, f, m.key, out⟩]) =
      framesFrom d H ++ if c = d then [f] else [] := by
    intro d
    rw [framesFrom_append]
    by_cases hcd : c = d
    · simp [framesFrom, hcd]
    · simp [framesFrom, hcd]
  rw [heq]
  refine ⟨_, ⟨c, f, m.key, out⟩, hassert, List.append_assoc _ _ _, ?_⟩
  refine ⟨?_, ?_, ?_, ?_⟩
  · show withoutAsserts (s.log ++ nbAssert c .msgId _ ++ _) = _
    rw [withoutAsserts_append, withoutAsserts_append, hassert, List.append_nil, h.log,
      List.flatMap_append, List.flatMap_singleton]
    congr 1
    cases out with
    | none => rfl
    | some p => rfl
  · intro x hx
    rcases List.mem_append.mp hx with hx | hx
    · exact h.src x hx
    · rw [List.mem_singleton.mp hx]
      exact ⟨hacc, hd.isFrame, hd.msgSize_toNat, hd.key⟩
  · intro d
    by_cases hdc : d = c
    · subst hdc
      refine ⟨fun _ => ?_, ?_, (h.ctx d).accepted, fun hle => ?_⟩
      · rw [hfrom, if_pos rfl]
        show Cut contents (s.got d) (Function.update s.session d _ d) _
        rw [Function.update_self]
        exact hcut
      · intro ses' hses'
        simp only [setBuf, Function.update_self, Option.some.injEq] at hses'
        subst hses'
        exact iff_of_true hrole hacc
      · exact absurd (h.lt_next hses) (Nat.not_lt_of_le hle)
    · have hsame : (setBuf c ses b { asserted c m s with
          log := (asserted c m s).log ++ (Handled.mk c f m.key out).events, shut := shut }).session d
          = s.session d := Function.update_of_ne hdc _ _
      obtain ⟨hcutd, hroled, hqueued, hfreshd⟩ := h.ctx d
      refine ⟨?_, ?_, hqueued, ?_⟩
      · rw [hfrom, if_neg (Ne.symm hdc), List.append_nil, hsame]
        exact hcutd
      · rw [hsame]
        exact hroled
      · rw [hsame]
        exact hfreshd
  · intro u
    exact hwhole u ((h.whole u).of_noWrite (noWrite_of_asserts hassert) (List.Subset.refl _))

/-! ## Every step -/

/-- An iteration of the read loop. -/
theorem Relay.readOne (hB : B.Fifo contents cap) (h : Relay contents H s) {c : Nat}
    {ses : NbTcpSession β} (hses : s.session c = some ses) (r : Option Chunk) :
    Relay contents H (readOne B c ses r s) := by
  have hlt := h.lt_next hses
  have hrole := (h.ctx c).role ses hses
  have hcut : c ∈ s.accepted → Cut contents (s.got c) (some ses) (framesFrom c H) := by
    rw [← hses]
    exact (h.ctx c).cut
  have hupd : ∀ {x : Option (NbTcpSession β)} {d : Nat}, d ≠ c →
      Function.update s.session c x d = s.session d := fun hdc => Function.update_of_ne hdc _ _
  refine h.of_sameBut (P := (· = c)) ?_ ?_
  · unfold TcpServer.readOne
    split
    · refine ⟨⟨[], rfl, (List.append_nil _).symm⟩, List.Subset.refl _, Nat.le_refl _,
        fun _ _ => id, List.Subset.refl _, fun _ _ => id, fun d hd => hupd hd, fun d hd => ?_⟩
      exact Function.update_of_ne hd _ _
    · exact .of_sessions rfl (List.subset_cons_self _ _) (Nat.le_refl _) (fun _ _ => id) rfl rfl
        fun d hd => hupd hd
    · exact .of_sessions rfl (List.Subset.refl _) (Nat.le_refl _) (fun _ _ => id) rfl rfl
        fun d hd => hupd hd
  · rintro d rfl
    obtain ⟨hsame, _, _⟩ := readOne_spec (B := B) hses r
    have hloop : (TcpServer.readOne B d ses r s).loop = s.loop := hsame.loop
    have hacc : (TcpServer.readOne B d ses r s).accepted = s.accepted := hsame.accepted
    have hrole' : ∀ ses', (TcpServer.readOne B d ses r s).session d = some ses' →
        ses'.role = ses.role := by
      intro ses' hses'
      have := hsame.role d
      rw [roleOf, roleOf, hses', hses] at this
      exact Option.some.inj this
    refine ⟨?_, ?_, ?_, ?_⟩
    · rw [hacc]
      intro hmem
      unfold TcpServer.readOne
      rcases (hcut hmem).read hB r with ⟨ck, b', rfl, hit, hcut'⟩ | ⟨e, he, hit⟩
      · simpa [hit, setBuf] using hcut'
      · cases e with
        | fault => exact absurd rfl he
        | drained => simpa [hit, setBuf] using hcut hmem
        | full => simpa [hit, setBuf] using hcut hmem
    · rw [hacc]
      intro ses' hses'
      rw [hrole' ses' hses']
      exact hrole
    · rw [hacc, hloop]
      exact (h.ctx d).accepted
    · rw [hloop]
      exact fun hle => absurd hlt (Nat.not_lt_of_le hle)

/-- An iteration of the parse loop on a context that is no client's: whatever its bytes
are, nothing but failed assertions can come of it. -/
theorem Relay.parseOther (h : Relay contents H s) {c : Nat} {ses : NbTcpSession β}
    (hses : s.session c = some ses) (hrole : ses.role ≠ .client) (w : WriteOutcome) :
    Relay contents H (parseOne B c ses w s) ∧
      ∃ l, withoutAsserts l = [] ∧ (parseOne B c ses w s).log = s.log ++ l := by
  have hno : c ∉ s.accepted := fun hmem => hrole (((h.ctx c).role ses hses).mpr hmem)
  have hlt := h.lt_next hses
  -- the ways in which an iteration can end differ in the buffer, the phase and `shut` only
  have hcase : ∀ (b : β) (s' : TcpServer β), (∃ l, withoutAsserts l = [] ∧ s'.log = s.log ++ l) →
      s.shut ⊆ s'.shut → s'.loop = s.loop → s'.accepted = s.accepted → s'.got = s.got →
      s'.session = Function.update s.session c (some { ses with bytesBuf := b }) →
      Relay contents H s' := by
    intro b s' hlog hshut hloop hacc hgot hsession
    refine h.of_sameBut (P := (· = c)) ⟨hlog, hshut, ?_, ?_, ?_, ?_, fun d hd => ?_, ?_⟩ ?_
    · rw [hloop]
    · rw [hloop]
      exact fun _ _ => id
    · rw [hacc]
      exact List.Subset.refl _
    · rw [hacc]
      exact fun _ _ => id
    · rw [hsession]
      exact Function.update_of_ne hd _ _
    · rw [hgot]
      exact fun _ _ => rfl
    · rintro d rfl
      refine ⟨?_, fun ses' hses' => ?_, ?_, ?_⟩
      · rw [hacc]
        exact fun hmem => absurd hmem hno
      · rw [hsession, Function.update_self, Option.some.injEq] at hses'
        subst hses'
        rw [hacc]
        exact iff_of_false hrole hno
      · rw [hacc]
        exact fun hmem => absurd hmem hno
      · rw [hloop]
        exact fun hle => absurd hlt (Nat.not_lt_of_le hle)
  have hnil : ∃ l, withoutAsserts l = [] ∧ s.log = s.log ++ l :=
    ⟨[], rfl, (List.append_nil _).symm⟩
  have hass : ∀ m : Callback, ∃ l, withoutAsserts l = [] ∧
      (handleMessage c m w s).log = s.log ++ l := by
    intro m
    rw [handleMessage_other hses hrole]
    exact ⟨_, withoutAsserts_nbAssert _ _ _, rfl⟩
  unfold parseOne
  split
  · rename_i b shut hit
    cases shut with
    | true => exact ⟨hcase b _ hnil (List.subset_cons_self _ _) rfl rfl rfl rfl, hnil⟩
    | false => exact ⟨hcase b _ hnil (List.Subset.refl _) rfl rfl rfl rfl, hnil⟩
  · rename_i m b hit
    refine ⟨hcase b _ (hass m) ?_ ?_ ?_ ?_ ?_, hass m⟩ <;> rw [handleMessage_other hses hrole]
    · exact List.Subset.refl _
    · rfl
    · rfl
    · rfl
    · rfl
  · rename_i m b hit
    refine ⟨hcase b _ (hass m) ?_ ?_ ?_ ?_ ?_, hass m⟩ <;> rw [handleMessage_other hses hrole]
    · exact List.subset_cons_self _ _
    · rfl
    · rfl
    · rfl
    · rfl

/-- An iteration on a client's context, whose headers do not wrap: a frame is handled,
or the loop ends. -/
theorem Relay.parseClient (hB : B.Fifo contents cap) (h : Relay contents H s) {c : Nat}
    {ses : NbTcpSession β} (hses : s.session c = some ses) (hrole : ses.role = .client)
    (hok : HeadersOk (s.got c)) (w : WriteOutcome) :
    ∃ l xs, withoutAsserts l = [] ∧ xs.length ≤ 1 ∧
      (parseOne B c ses w s).log = s.log ++ (l ++ xs.flatMap Handled.events) ∧
      Relay contents (H ++ xs) (parseOne B c ses w s) := by
  have hacc : c ∈ s.accepted := ((h.ctx c).role ses hses).mp hrole
  have hcut : Cut contents (s.got c) (some ses) (framesFrom c H) := by
    rw [← hses]
    exact (h.ctx c).cut hacc
  unfold parseOne
  rcases hcut.parse hB hok with hit | ⟨f, m, b', hit, hd, hcut'⟩
  · rw [hit]
    refine ⟨[], [], rfl, Nat.zero_le _, (List.append_nil _).symm, ?_⟩
    rw [List.append_nil]
    have hsame : Function.update s.session c (some ses) = s.session := by
      rw [← hses]
      exact Function.update_eq_self c s.session
    exact h.of_loop rfl rfl (Nat.le_refl _) (fun _ _ => id) rfl rfl hsame
  · rw [hit]
    obtain ⟨l, x, hl, hlog, hrelay⟩ := h.deliver hses hrole hd hcut' w
    exact ⟨l, [x], hl, Nat.le_refl _, by rw [List.flatMap_singleton]; exact hlog, hrelay⟩

/-- A context of the queue is added: if it is no listener, it gets the session of an upstream. -/
theorem Relay.add (h : Relay contents H s) {c : Nat} (hc : c ∈ s.loop.queue) (nodelay : Bool) :
    (onAddCtx b₀ c nodelay { s with loop := s.loop.add c hc }).log = s.log ∧
      Relay contents H (onAddCtx b₀ c nodelay { s with loop := s.loop.add c hc }) := by
  have hno : c ∉ s.accepted := fun hmem => (h.ctx c).accepted hmem hc
  have hlt : c < s.loop.next := EventLoop.lt_of_queue hc
  have hq : ∀ d < s.loop.next, d ∈ s.loop.queue.erase c → d ∈ s.loop.queue :=
    fun _ _ => List.mem_of_mem_erase
  cases ht : ctxType c with
  | tcpListen =>
      unfold onAddCtx
      rw [ht]
      exact ⟨rfl, h.of_loop rfl rfl (Nat.le_refl _) hq rfl rfl rfl⟩
  | tcpClient =>
      have hctx : ∀ s'' : TcpServer β, s''.accepted = s.accepted →
          s''.loop = s.loop.add c hc → CtxOk contents H (newSession b₀ c .upstream s'') c := by
        intro s'' hacc hloop
        refine ⟨fun hmem => absurd (hacc ▸ hmem) hno, fun ses hses => ?_,
          fun hmem => absurd (hacc ▸ hmem) hno, fun hle => ?_⟩
        · simp only [newSession, Function.update_self, Option.some.injEq] at hses
          subst hses
          exact iff_of_false (by rintro ⟨⟩) (hacc ▸ hno)
        · exact absurd hlt (Nat.not_lt_of_le (Nat.le_trans (Nat.le_of_eq (by
            show s.loop.next = s''.loop.next
            rw [hloop]
            rfl)) hle))
      unfold onAddCtx
      rw [ht]
      cases nodelay with
      | true =>
          refine ⟨rfl, h.of_sameBut (P := (· = c)) (.of_sessions rfl (List.Subset.refl _)
            (Nat.le_refl _) hq rfl rfl fun d hd => Function.update_of_ne hd _ _) ?_⟩
          rintro d rfl
          exact hctx _ rfl rfl
      | false =>
          refine ⟨rfl, h.of_sameBut (P := (· = c)) (.of_sessions rfl (List.subset_cons_self _ _)
            (Nat.le_refl _) hq rfl rfl fun d hd => Function.update_of_ne hd _ _) ?_⟩
          rintro d rfl
          exact hctx _ rfl rfl

/-- A connection is accepted: nothing was read from it. -/
theorem Relay.accept (h₀ : contents b₀ = []) (h : Relay contents H s) (nodelay : Bool) :
    (onConnect b₀ s.loop.next nodelay
      { s with loop := s.loop.accept, accepted := s.loop.next :: s.accepted }).log = s.log ∧
    Relay contents H (onConnect b₀ s.loop.next nodelay
      { s with loop := s.loop.accept, accepted := s.loop.next :: s.accepted }) := by
  obtain ⟨hno, hgot, hses⟩ := (h.ctx s.loop.next).fresh (Nat.le_refl _)
  have hfrom : framesFrom s.loop.next H = [] := by
    refine List.filterMap_eq_nil_iff.mpr fun x hx => ?_
    rw [if_neg]
    rintro heq
    exact hno (heq ▸ (h.src x hx).1)
  have hacc : ∀ d, d ≠ s.loop.next → d ∈ s.loop.next :: s.accepted → d ∈ s.accepted :=
    fun d hd hmem => (List.mem_cons.mp hmem).resolve_left hd
  have hq : s.loop.next ∉ s.loop.queue := fun hmem =>
    Nat.lt_irrefl _ (EventLoop.lt_of_queue hmem)
  have hnil : ∃ l, withoutAsserts l = [] ∧ s.log = s.log ++ l :=
    ⟨[], rfl, (List.append_nil _).symm⟩
  cases nodelay with
  | true =>
      refine ⟨rfl, h.of_sameBut (P := (· = s.loop.next)) ⟨hnil, List.Subset.refl _,
        Nat.le_succ _, fun _ _ => id, List.subset_cons_self _ _, hacc,
        fun d hd => Function.update_of_ne hd _ _, fun _ _ => rfl⟩ ?_⟩
      rintro d rfl
      refine ⟨fun _ => ?_, fun ses hses' => ?_, fun _ => hq,
        fun hle => absurd (Nat.lt_succ_self _) (Nat.not_lt_of_le hle)⟩
      · rw [hfrom]
        show Cut contents (s.got _) (Function.update s.session _ _ _) []
        rw [hgot, Function.update_self]
        exact cut_new h₀ rfl
      · simp only [onConnect, if_true, newSession, Function.update_self,
          Option.some.injEq] at hses'
        subst hses'
        exact iff_of_true rfl List.mem_cons_self
  | false =>
      refine ⟨rfl, h.of_sameBut (P := (· = s.loop.next)) ⟨hnil,
        List.subset_cons_self _ _, Nat.le_succ _, fun _ _ => id, List.subset_cons_self _ _, hacc,
        fun _ _ => rfl, fun _ _ => rfl⟩ ?_⟩
      rintro d rfl
      refine ⟨fun _ => ?_, fun ses hses' => (by cases hses.symm.trans hses'), fun _ => hq,
        fun hle => absurd (Nat.lt_succ_self _) (Nat.not_lt_of_le hle)⟩
      rw [hfrom]
      show Cut contents (s.got _) (s.session _) []
      rw [hgot, hses]
      exact cut_none contents

/-- A context is closed: its session stays. -/
theorem Relay.close (h : Relay contents H s) {c : Nat} (hc : c ∈ s.loop.live) :
    (onClose c { s with loop := s.loop.close c hc }).log = s.log ∧
      Relay contents H (onClose c { s with loop := s.loop.close c hc }) := by
  have hclosed : Relay contents H { s with loop := s.loop.close c hc } :=
    h.of_loop rfl rfl (Nat.le_refl _) (fun _ _ => id) rfl rfl rfl
  unfold onClose
  split
  · exact ⟨rfl, hclosed⟩
  · split
    · exact ⟨rfl, hclosed.of_loop rfl rfl (Nat.le_refl _) (fun _ _ => id) rfl rfl rfl⟩
    · exact ⟨rfl, hclosed⟩
    · exact ⟨rfl, hclosed⟩

/-- A context is released: its session is deleted. -/
theorem Relay.release (h : Relay contents H s) {c : Nat} (hc : c ∈ s.loop.closed) :
    (onRelease c { s with loop := s.loop.release c }).log = s.log ∧
      Relay contents H (onRelease c { s with loop := s.loop.release c }) := by
  refine ⟨rfl, h.of_sameBut (P := (· = c)) (.of_sessions rfl (List.Subset.refl _) (Nat.le_refl _)
    (fun _ _ => id) rfl rfl fun d hd => Function.update_of_ne hd _ _) ?_⟩
  rintro d rfl
  obtain ⟨hcut, _, hqueue, hfresh⟩ := h.ctx d
  refine ⟨fun hmem => ?_, fun ses hses => ?_, hqueue, fun hle => ?_⟩
  · show Cut contents (s.got d) (Function.update s.session d none d) _
    rw [Function.update_self]
    exact (hcut hmem).delete
  · simp only [onRelease, Function.update_self] at hses
    cases hses
  · obtain ⟨hno, hgot, _⟩ := hfresh hle
    exact ⟨hno, hgot, Function.update_self ..⟩

/-- Every step handles at most one frame; what it adds to the log is that frame's events. -/
theorem Relay.step (hB : B.Fifo contents cap) (h₀ : contents b₀ = []) (h : Relay contents H s)
    (hok : ∀ c ∈ s.accepted, HeadersOk (s.got c)) {e : ServerEvent} (hs : Step B b₀ s e s') :
    ∃ l xs, withoutAsserts l = [] ∧ xs.length ≤ 1 ∧
      s'.log = s.log ++ (l ++ xs.flatMap Handled.events) ∧ Relay contents (H ++ xs) s' := by
  -- most steps handle none and log nothing
  have hquiet : s'.log = s.log ∧ Relay contents H s' → ∃ l xs, withoutAsserts l = [] ∧
      xs.length ≤ 1 ∧ s'.log = s.log ++ (l ++ xs.flatMap Handled.events) ∧
      Relay contents (H ++ xs) s' := by
    rintro ⟨hlog, hrel⟩
    exact ⟨[], [], rfl, Nat.zero_le _, hlog.trans (List.append_nil _).symm,
      (List.append_nil H).symm ▸ hrel⟩
  cases hs with
  | connected ht =>
      refine hquiet ⟨rfl, h.of_loop rfl rfl (Nat.le_succ _) (fun d hd hq => ?_) rfl rfl rfl⟩
      rcases List.mem_cons.mp hq with rfl | hq
      · exact absurd hd (Nat.lt_irrefl _)
      · exact hq
  | add hp hc => exact hquiet (h.add hc _)
  | connect hp => exact hquiet (h.accept h₀ _)
  | messageNone => exact hquiet ⟨rfl, h⟩
  | message =>
      exact hquiet ⟨rfl, h.of_loop rfl rfl (Nat.le_refl _) (fun _ _ => id) rfl rfl rfl⟩
  | @read c ses r hp hses => exact hquiet ⟨(readOne_spec hses r).2.2, h.readOne hB hses r⟩
  | @parse c ses w hp hses =>
      by_cases hrole : ses.role = .client
      · exact h.parseClient hB hses hrole (hok c (((h.ctx c).role ses hses).mp hrole)) w
      · obtain ⟨hrel, l, hl, hlog⟩ := h.parseOther (B := B) hses hrole w
        exact ⟨l, [], hl, Nat.zero_le _, by rw [hlog]; simp, by rwa [List.append_nil]⟩
  | close hp hc => exact hquiet (h.close hc)
  | release hp hc => exact hquiet (h.release hc)

/-! ## Runs -/

/-- The headers that the clients have sent do not wrap. -/
def ClientsOk (s : TcpServer β) : Prop := ∀ c ∈ s.accepted, HeadersOk (s.got c)

/-- An iteration of the parse loop reads nothing. -/
theorem parseOne_got {c : Nat} {ses : NbTcpSession β} (hses : s.session c = some ses)
    (w : WriteOutcome) : (parseOne B c ses w s).got = s.got := by
  have hmsg : ∀ m, (handleMessage c m w s).got = s.got := by
    intro m
    by_cases hrole : ses.role = .client
    · rw [handleMessage_client hses hrole]
      rcases Option.eq_none_or_eq_some (asserted c m s).connCtx with hconn | ⟨u, hconn⟩
      · rw [relay_none hconn]
        rfl
      · rw [relay_some hconn]
        rfl
    · rw [handleMessage_other hses hrole]
      rfl
  unfold parseOne
  split
  · split
    · rfl
    · rfl
  · exact hmsg _
  · exact hmsg _

/-- The bytes read only grow, and a connect is the one step that accepts a context. -/
theorem Step.grows {e : ServerEvent} (hs : Step B b₀ s e s') :
    s.loop.next ≤ s'.loop.next ∧ (∀ c, s.got c <+: s'.got c) ∧
      ((∀ n, e ≠ .connect n) ∧ s'.accepted = s.accepted ∨
        ∃ n, e = .connect n ∧ s'.accepted = s.loop.next :: s.accepted ∧
          s'.loop.next = s.loop.next + 1 ∧ s'.got = s.got) := by
  have hsame : s.loop.next ≤ s.loop.next ∧ (∀ c, s.got c <+: s.got c) ∧
      s.accepted = s.accepted := ⟨Nat.le_refl _, fun _ => List.prefix_rfl, rfl⟩
  have hquiet : ∀ {e : ServerEvent}, (∀ n, e ≠ .connect n) →
      (s.loop.next ≤ s'.loop.next ∧ (∀ c, s.got c <+: s'.got c) ∧ s'.accepted = s.accepted) →
      s.loop.next ≤ s'.loop.next ∧ (∀ c, s.got c <+: s'.got c) ∧
        ((∀ n, e ≠ .connect n) ∧ s'.accepted = s.accepted ∨
          ∃ n, e = .connect n ∧ s'.accepted = s.loop.next :: s.accepted ∧
            s'.loop.next = s.loop.next + 1 ∧ s'.got = s.got) :=
    fun he ⟨hnext, hgot, hacc⟩ => ⟨hnext, hgot, Or.inl ⟨he, hacc⟩⟩
  cases hs with
  | connected => exact hquiet (by rintro _ ⟨⟩) ⟨Nat.le_succ _, hsame.2⟩
  | @add c nodelay hp hc =>
      refine hquiet (by rintro _ ⟨⟩) ?_
      cases ht : ctxType c with
      | tcpListen =>
          simp only [onAddCtx, ht]
          exact ⟨hsame.1, hsame.2.1, trivial⟩
      | tcpClient =>
          simp only [onAddCtx, ht]
          cases nodelay with
          | true => exact hsame
          | false => exact hsame
  | @connect nodelay hp =>
      cases nodelay with
      | true => exact ⟨Nat.le_succ _, hsame.2.1, Or.inr ⟨_, rfl, rfl, rfl, rfl⟩⟩
      | false => exact ⟨Nat.le_succ _, hsame.2.1, Or.inr ⟨_, rfl, rfl, rfl, rfl⟩⟩
  | messageNone => exact hquiet (by rintro _ ⟨⟩) hsame
  | message => exact hquiet (by rintro _ ⟨⟩) hsame
  | @read c ses r hp hses =>
      refine hquiet (by rintro _ ⟨⟩) ?_
      unfold readOne
      split
      · refine ⟨Nat.le_refl _, fun d => ?_, rfl⟩
        by_cases hdc : d = c
        · subst hdc
          show s.got d <+: Function.update s.got d _ d
          rw [Function.update_self]
          exact List.prefix_append _ _
        · exact ⟨[], (List.append_nil _).trans (Function.update_of_ne hdc _ _).symm⟩
      · exact hsame
      · exact hsame
  | @parse c ses w hp hses =>
      refine hquiet (by rintro _ ⟨⟩) ?_
      obtain ⟨hconn, _, _⟩ := parseOne_spec (B := B) hses w
      rw [hconn.loop, hconn.accepted, parseOne_got hses w]
      exact hsame
  | @close c hp hc =>
      refine hquiet (by rintro _ ⟨⟩) ?_
      unfold onClose
      split
      · exact hsame
      · split
        · exact hsame
        · exact hsame
        · exact hsame
  | release => exact hquiet (by rintro _ ⟨⟩) hsame

theorem ClientsOk.of_step (h : ClientsOk s') {e : ServerEvent} (hs : Step B b₀ s e s') :
    ClientsOk s := by
  obtain ⟨_, hgot, hacc⟩ := hs.grows
  have hsub : s.accepted ⊆ s'.accepted := by
    rcases hacc with ⟨_, hacc⟩ | ⟨_, _, hacc, _⟩
    · exact hacc ▸ List.Subset.refl _
    · exact hacc ▸ List.subset_cons_self _ _
  exact fun c hc => (h c (hsub hc)).of_isPrefix (hgot c)

theorem relay_of_run (hB : B.Fifo contents cap) (h₀ : contents b₀ = []) {es : List ServerEvent}
    (hrun : Run (Step B b₀) start es s) (hok : ClientsOk s) : ∃ H, Relay contents H s := by
  have h := hrun.invariant (I := fun s => ClientsOk s → ∃ H, Relay contents H s) ?_
    (fun _ => ⟨[], relay_start⟩)
  · exact h hok
  · intro s e s' ih hs hok'
    obtain ⟨H, hrel⟩ := ih (hok'.of_step hs)
    obtain ⟨_, xs, _, _, _, hrel'⟩ := hrel.step hB h₀ (hok'.of_step hs) hs
    exact ⟨H ++ xs, hrel'⟩

/-- Nothing is accepted on a context after it was shut down. -/
theorem Step.frozen {e : ServerEvent} (hs : Step B b₀ s e s') {u : Nat} (hu : u ∈ s.shut) :
    u ∈ s'.shut ∧ wire s'.log u = wire s.log u := by
  obtain ⟨hshut, evs, hlog, hevs⟩ := hs.writes
  refine ⟨hshut hu, ?_⟩
  have hnone : wire evs u = [] := by
    refine List.flatMap_eq_nil_iff.mpr fun x hx => ?_
    cases x with
    | write v buf acc =>
        by_cases hvu : v = u
        · subst hvu
          simp [Ev.acceptedOn, (hevs v buf acc hx).2 hu]
        · simp [Ev.acceptedOn, hvu]
    | record | assertFailed | exit => rfl
  rw [hlog, wire_append, hnone, List.append_nil]

theorem frozen_of_run {es : List ServerEvent} (hrun : Run (Step B b₀) s es s') {u : Nat}
    (hu : u ∈ s.shut) : wire s'.log u = wire s.log u := by
  have h := hrun.invariant (I := fun t => u ∈ t.shut ∧ wire t.log u = wire s.log u) ?_ ⟨hu, rfl⟩
  · exact h.2
  · rintro t e t' ⟨htu, hwire⟩ hs
    obtain ⟨htu', hwire'⟩ := hs.frozen htu
    exact ⟨htu', hwire'.trans hwire⟩

/-- A frame that comes from an upstream causes no write. -/
theorem Step.no_echo {w : WriteOutcome} (hs : Step B b₀ s (.parse w) s') {c : Nat}
    {ses : NbTcpSession β} (hp : s.phase = .parsing c) (hses : s.session c = some ses)
    (hrole : ses.role = .upstream) : ∃ l, s'.log = s.log ++ l ∧ NoWrite l := by
  cases hs with
  | @parse d ses' w hp' hses' =>
      obtain rfl : d = c := Phase.parsing.inj (hp'.symm.trans hp)
      obtain rfl : ses' = ses := Option.some.inj (hses'.symm.trans hses)
      have hother : ses'.role ≠ .client := by
        rw [hrole]
        exact fun h => nomatch h
      have hmsg : ∀ m, ∃ l, (handleMessage d m w s).log = s.log ++ l ∧ NoWrite l := by
        intro m
        rw [handleMessage_other hses hother]
        exact ⟨_, rfl, noWrite_nbAssert _ _ _⟩
      unfold parseOne
      split
      · split
        · exact ⟨[], (List.append_nil _).symm, noWrite_nil⟩
        · exact ⟨[], (List.append_nil _).symm, noWrite_nil⟩
      · exact hmsg _
      · exact hmsg _

/-- The server keeps the framing of its upstreams.  After every run in which the clients'
headers do not wrap there is a list of handled frames, such that

* the log is their events in order, failed assertions apart: each frame has its
  `server.rcv` and is written at most once, to at most one connection;
* they come from clients; those of a client are the first frames of its bytes;
* each connection has accepted, in this order and in full, frames of the list and then
  at most a proper prefix of a frame written to it, which shuts it down;
* nothing more is accepted there, however the run goes on;
* a frame that comes from an upstream causes no write. -/
theorem upstream_framing_of_run (hB : B.Fifo contents cap) (h₀ : contents b₀ = [])
    {es : List ServerEvent} (hrun : Run (Step B b₀) start es s) (hok : ClientsOk s) :
    ∃ H : List Handled,
      withoutAsserts s.log = H.flatMap Handled.events ∧
      (∀ h ∈ H, h.src ∈ s.accepted ∧ h.key.msgSize.toNat = h.frame.length) ∧
      (∀ c ∈ s.accepted, framesFrom c H <+: nbFraming.frames (s.got c)) ∧
      (∀ u, (∀ f ∈ H.filterMap (Handled.sentTo u), nbFraming.IsFrame f) ∧
        ∃ p, wire s.log u = (H.filterMap (Handled.sentTo u)).flatten ++ p ∧ Rest s.log s.shut u p) ∧
      (∀ u ∈ s.shut, ∀ es' s', Run (Step B b₀) s es' s' → wire s'.log u = wire s.log u) ∧
      ∀ c ses w s', s.phase = .parsing c → s.session c = some ses → ses.role = .upstream →
        Step B b₀ s (.parse w) s' → ∃ l, s'.log = s.log ++ l ∧ NoWrite l := by
  obtain ⟨H, h⟩ := relay_of_run hB h₀ hrun hok
  refine ⟨H, h.log, fun x hx => ⟨(h.src x hx).1, (h.src x hx).2.size⟩,
    fun c hc => ((h.ctx c).cut hc).isPrefix, fun u => ?_,
    fun u hu es' s' hrun' => frozen_of_run hrun' hu,
    fun c ses w s' hp hses hrole hs => hs.no_echo hp hses hrole⟩
  have hsent : H.filterMap (Handled.sentTo u) = fullWrites s.log u := by
    rw [← fullWrites_withoutAsserts, h.log, fullWrites_flatMap]
  rw [hsent]
  exact h.whole u

/-- A message of 16 bytes. -/
def clientMessage : Bytes := (MsgHdr.mk 1 8).encode ++ (MsgData.mk 7 0).encode

/-- It arrives, and the upstream accepts 3 bytes of it. -/
def shortRelay : List ServerEvent :=
  [.add 1 true, .connect true, .message 2, .read (some ⟨clientMessage, by decide, by decide⟩),
    .read none, .parse (.accept 3), .parse .error]

/-- Then these 3 bytes are all that the upstream has accepted, and it is shut down. -/
theorem upstream_framing_after_short_write : ∃ s, Run (Step (ringBuffer netBenchTcpBufSize)
      (emptyRing netBenchTcpBufSize fun _ => 0)) start shortRelay s ∧
    wire s.log 1 = clientMessage.take 3 ∧ 1 ∈ s.shut ∧
    ∀ es' s', Run (Step (ringBuffer netBenchTcpBufSize)
      (emptyRing netBenchTcpBufSize fun _ => 0)) s es' s' →
      wire s'.log 1 = clientMessage.take 3 := by
  obtain ⟨s, hrun, hacc, hgot, hwire, hshut⟩ : ∃ s, Run (Step (ringBuffer netBenchTcpBufSize)
      (emptyRing netBenchTcpBufSize fun _ => 0)) start shortRelay s ∧ s.accepted = [2] ∧
      s.got 2 = clientMessage ∧ wire s.log 1 = clientMessage.take 3 ∧ s.shut = [1] := by
    refine ⟨_, .cons (.add rfl (by decide)) (.cons (.connect rfl) (.cons (.message rfl (by decide) rfl)
      (.cons (.read rfl rfl) (.cons (.read rfl rfl) (.cons (.parse rfl rfl)
        (.cons (.parse rfl rfl) (.nil _))))))), ?_, ?_, ?_, ?_⟩
    · rfl
    · rfl
    · rfl
    · rfl
  have hok : ClientsOk s := by
    intro c hc
    rw [hacc, List.mem_singleton] at hc
    rw [hc, hgot]
    decide
  obtain ⟨_, _, _, _, _, hfrozen, _⟩ :=
    upstream_framing_of_run (ringBuffer_fifo (c := netBenchTcpBufSize) (by decide)) rfl hrun hok
  have hmem : 1 ∈ s.shut := by rw [hshut]; exact List.mem_cons_self
  exact ⟨s, hrun, hwire, hmem, fun es' s' hrun' => (hfrozen 1 hmem es' s' hrun').trans hwire⟩

end TcpServer

end NetBench

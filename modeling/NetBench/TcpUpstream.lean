/-
# `NetBench.TcpUpstream` — the last hop

`tcp_upstream_handle.c`.  The upstream accepts connections and records every
message; it writes nothing.  As in the server, one iteration of the loops of
`nb_tcp_session_on_msg` is one step.

`Takes` says which frames were taken off each connection: the frames `F c` were cut
off the bytes read, and each has its `upstream.rcv`.  Every step keeps it
(`Takes.step`), if the headers do not wrap.
-/
import NetBench.Received
import NetBench.Wire

namespace NetBench

open Lib

/-- The state of the upstream. -/
structure TcpUpstream (β : Type) where
  loop : EventLoop
  /-- the contexts that were shut down -/
  shut : List Nat
  /-- `muggle_socket_ctx_get_data` -/
  session : Nat → Option (NbTcpSession β)
  phase : Phase
  log : List Ev
  /-- the bytes read from each context -/
  got : Nat → Bytes

/-- What can happen to the upstream; no callback is registered for `add`. -/
inductive UpstreamEvent where
  | add (c : Nat)
  | connect (nodelay : Bool)
  | message (c : Nat)
  | read (r : Option Chunk)
  | parse
  | close (c : Nat)
  | release (c : Nat)

namespace TcpUpstream

variable {β : Type} (B : BytesBuffer β) (b₀ : β)

/-- The state in which `run` starts the loop: the listener was handed over. -/
def start : TcpUpstream β := ⟨.one, [], fun _ => none, .idle, [], fun _ => []⟩

/-- `muggle_socket_ctx_shutdown`. -/
def shutdown (c : Nat) (s : TcpUpstream β) : TcpUpstream β := { s with shut := c :: s.shut }

/-- `tcp_upstream_on_connect`.  After a failed `setsockopt` it returns. -/
def onConnect (c : Nat) (nodelay : Bool) (s : TcpUpstream β) : TcpUpstream β :=
  if nodelay then
    { s with session := Function.update s.session c (some (nbTcpSessionNew b₀)) }
  else shutdown c s

/-- `tcp_upstream_on_release`; `tcp_upstream_on_close` only logs. -/
def onRelease (c : Nat) (s : TcpUpstream β) : TcpUpstream β :=
  { s with session := Function.update s.session c none }

/-- `tcp_upstream_handle_message`. -/
def handleMessage (c : Nat) (m : Callback) (s : TcpUpstream β) : TcpUpstream β :=
  { s with
    log := s.log ++ (nbAssert c .msgId (decide (m.hdr.msgId = 1)) ++
      [.record c (m.key.record .upstreamRcv)]) }

/-- The session of `c` has a new buffer. -/
def setBuf (c : Nat) (ses : NbTcpSession β) (b : β) (s : TcpUpstream β) : TcpUpstream β :=
  { s with session := Function.update s.session c (some { ses with bytesBuf := b }) }

/-- An iteration of the read loop on `c`. -/
def readOne (c : Nat) (ses : NbTcpSession β) (r : Option Chunk) (s : TcpUpstream β) :
    TcpUpstream β :=
  match readIter B ses.bytesBuf r with
  | .next b =>
      { setBuf c ses b s with
        got := Function.update s.got c (s.got c ++ (r.map Chunk.bytes).getD []) }
  | .stop b .fault => { shutdown c (setBuf c ses b s) with phase := .idle }
  | .stop b _ => { setBuf c ses b s with phase := .parsing c }

/-- The part of the state that the read loop works on. -/
def readState (s : TcpUpstream β) : ReadState β := ⟨s.session, s.phase, s.got⟩

theorem readState_readOne (s : TcpUpstream β) (c : Nat) (ses : NbTcpSession β) (r : Option Chunk) :
    (readOne B c ses r s).readState = s.readState.readOne B c ses r := by
  unfold readOne ReadState.readOne
  cases readIter B ses.bytesBuf r with
  | next b => rfl
  | stop b e =>
      cases e with
      | drained => rfl
      | full => rfl
      | fault => rfl

/-- An iteration of the parse loop on `c`. -/
def parseOne (c : Nat) (ses : NbTcpSession β) (s : TcpUpstream β) : TcpUpstream β :=
  match parseIter B ses.msgLenLimit ses.bytesBuf with
  | .stop b shut =>
      let s : TcpUpstream β := { setBuf c ses b s with phase := .idle }
      if shut then shutdown c s else s
  | .deliver m b => setBuf c ses b (handleMessage c m s)
  | .deliverStop m b => { shutdown c (setBuf c ses b (handleMessage c m s)) with phase := .idle }

/-- The steps of the upstream. -/
inductive Step : TcpUpstream β → UpstreamEvent → TcpUpstream β → Prop
  | add {s : TcpUpstream β} {c : Nat} (hp : s.phase = .idle) (hc : c ∈ s.loop.queue) :
      Step s (.add c) { s with loop := s.loop.add c hc }
  | connect {s : TcpUpstream β} {nodelay : Bool} (hp : s.phase = .idle) :
      Step s (.connect nodelay) (onConnect b₀ s.loop.next nodelay { s with loop := s.loop.accept })
  | messageNone {s : TcpUpstream β} {c : Nat} (hp : s.phase = .idle) (hc : c ∈ s.loop.live)
      (hses : s.session c = none) : Step s (.message c) s
  | message {s : TcpUpstream β} {c : Nat} {ses : NbTcpSession β} (hp : s.phase = .idle)
      (hc : c ∈ s.loop.live) (hses : s.session c = some ses) :
      Step s (.message c) { s with phase := .reading c }
  | read {s : TcpUpstream β} {c : Nat} {ses : NbTcpSession β} {r : Option Chunk}
      (hp : s.phase = .reading c) (hses : s.session c = some ses) :
      Step s (.read r) (readOne B c ses r s)
  | parse {s : TcpUpstream β} {c : Nat} {ses : NbTcpSession β}
      (hp : s.phase = .parsing c) (hses : s.session c = some ses) :
      Step s .parse (parseOne B c ses s)
  | close {s : TcpUpstream β} {c : Nat} (hp : s.phase = .idle) (hc : c ∈ s.loop.live) :
      Step s (.close c) { s with loop := s.loop.close c hc }
  | release {s : TcpUpstream β} {c : Nat} (hp : s.phase = .idle) (hc : c ∈ s.loop.closed) :
      Step s (.release c) (onRelease c { s with loop := s.loop.release c })

/-! ## The invariant -/

variable {B b₀} {contents : β → Bytes} {cap : Nat} {s s' : TcpUpstream β} {F : Nat → List Bytes}

/-- The frames `fs` were taken off `c` and recorded. -/
structure TakenOn (contents : β → Bytes) (s : TcpUpstream β) (c : Nat) (fs : List Bytes) :
    Prop where
  cut : Cut contents (s.got c) (s.session c) fs
  records : Recorded fs (recordsOn .upstreamRcv s.log c)
  fresh : s.loop.next ≤ c → fs = [] ∧ s.got c = [] ∧ s.session c = none

/-- The frames `F c` were taken off each `c`. -/
def Takes (contents : β → Bytes) (F : Nat → List Bytes) (s : TcpUpstream β) : Prop :=
  ∀ c, TakenOn contents s c (F c)

theorem takes_start : Takes contents (fun _ => []) (start : TcpUpstream β) := fun _ =>
  { cut := cut_none contents
    records := .nil
    fresh := fun _ => ⟨rfl, rfl, rfl⟩ }

/-- A context that a step leaves alone. -/
theorem TakenOn.of_same {c : Nat} {fs : List Bytes} (h : TakenOn contents s c fs)
    (hgot : s'.got c = s.got c) (hses : s'.session c = s.session c)
    (hrec : recordsOn .upstreamRcv s'.log c = recordsOn .upstreamRcv s.log c)
    (hnext : s.loop.next ≤ s'.loop.next) : TakenOn contents s' c fs := by
  refine ⟨?_, hrec ▸ h.records, ?_⟩
  · rw [hgot, hses]
    exact h.cut
  · rw [hgot, hses]
    exact fun hle => h.fresh (Nat.le_trans hnext hle)

theorem Takes.lt_next (h : Takes contents F s) {c : Nat} {ses : NbTcpSession β}
    (hses : s.session c = some ses) : c < s.loop.next := by
  by_contra hge
  exact nomatch hses.symm.trans ((h c).fresh (Nat.le_of_not_lt hge)).2.2

/-- An iteration of the parse loop: a frame is taken and recorded, or nothing changes. -/
theorem Takes.parseOne (hB : B.Fifo contents cap) (h : Takes contents F s) {c : Nat}
    {ses : NbTcpSession β} (hses : s.session c = some ses) (hok : HeadersOk (s.got c)) :
    (Takes contents F (parseOne B c ses s) ∧ (parseOne B c ses s).log = s.log) ∨
    ∃ (f : Bytes) (l : List Ev) (k : MsgKey),
      Takes contents (Function.update F c (F c ++ [f])) (parseOne B c ses s) ∧ Quiet l ∧
      (parseOne B c ses s).log = s.log ++ (l ++ [.record c (k.record .upstreamRcv)]) := by
  have hlt := h.lt_next hses
  have hcut : Cut contents (s.got c) (some ses) (F c) := by
    rw [← hses]
    exact (h c).cut
  unfold TcpUpstream.parseOne
  rcases hcut.parse hB hok with hit | ⟨f, m, b, hit, hd, hcut'⟩
  · rw [hit]
    refine Or.inl ⟨fun d => (h d).of_same rfl ?_ rfl (Nat.le_refl _), rfl⟩
    have hsame : Function.update s.session c (some ses) = s.session := by
      rw [← hses]
      exact Function.update_eq_self c s.session
    exact congrFun hsame d
  · rw [hit]
    refine Or.inr ⟨f, _, m.key, fun d => ?_, quiet_nbAssert _ _ _, rfl⟩
    have hrec : recordsOn .upstreamRcv (setBuf c ses b (handleMessage c m s)).log d =
        recordsOn .upstreamRcv s.log d ++ if d = c then [m.key] else [] := by
      show recordsOn .upstreamRcv (s.log ++ (nbAssert c .msgId _ ++ _)) d = _
      rw [recordsOn_append, recordsOn_append, recordsOn_nbAssert, List.nil_append]
      by_cases hdc : d = c
      · subst hdc
        simp [recordsOn, Ev.recordOn]
      · simp [recordsOn, Ev.recordOn, hdc, Ne.symm hdc]
    by_cases hdc : d = c
    · subst hdc
      rw [if_pos rfl] at hrec
      rw [Function.update_self]
      refine ⟨?_, ?_, fun hle => absurd hlt (Nat.not_lt_of_le hle)⟩
      · show Cut contents (s.got d) (Function.update s.session d _ d) _
        rw [Function.update_self]
        exact hcut'
      · rw [hrec]
        exact (h d).records.snoc hd
    · rw [if_neg hdc, List.append_nil] at hrec
      rw [Function.update_of_ne hdc]
      exact (h d).of_same rfl (Function.update_of_ne hdc _ _) hrec (Nat.le_refl _)

/-- An iteration of the read loop takes nothing. -/
theorem Takes.readOne (hB : B.Fifo contents cap) (h : Takes contents F s) {c : Nat}
    {ses : NbTcpSession β} (hses : s.session c = some ses) (r : Option Chunk) :
    Takes contents F (readOne B c ses r s) ∧ (readOne B c ses r s).log = s.log := by
  have hlt := h.lt_next hses
  have hcut : Cut contents (s.got c) (some ses) (F c) := by
    rw [← hses]
    exact (h c).cut
  have hsame : Function.update s.session c (some ses) = s.session := by
    rw [← hses]
    exact Function.update_eq_self c s.session
  unfold TcpUpstream.readOne
  rcases hcut.read hB r with ⟨ck, b, rfl, hit, hcut'⟩ | ⟨e, he, hit⟩
  · rw [hit]
    refine ⟨fun d => ?_, rfl⟩
    by_cases hdc : d = c
    · subst hdc
      refine ⟨?_, (h d).records, fun hle => absurd hlt (Nat.not_lt_of_le hle)⟩
      simpa [setBuf] using hcut'
    · exact (h d).of_same (Function.update_of_ne hdc _ _) (Function.update_of_ne hdc _ _) rfl
        (Nat.le_refl _)
  · rw [hit]
    cases e with
    | fault => exact absurd rfl he
    | drained => exact ⟨fun d => (h d).of_same rfl (congrFun hsame d) rfl (Nat.le_refl _), rfl⟩
    | full => exact ⟨fun d => (h d).of_same rfl (congrFun hsame d) rfl (Nat.le_refl _), rfl⟩

/-- Every step takes at most one frame, and its record is all that the step adds to the
log, failed assertions apart. -/
theorem Takes.step (hB : B.Fifo contents cap) (h₀ : contents b₀ = []) (h : Takes contents F s)
    (hok : ∀ c, HeadersOk (s.got c)) {e : UpstreamEvent} (hs : Step B b₀ s e s') :
    (Takes contents F s' ∧ s'.log = s.log) ∨
    ∃ (c : Nat) (f : Bytes) (l : List Ev) (k : MsgKey),
      Takes contents (Function.update F c (F c ++ [f])) s' ∧ Quiet l ∧
      s'.log = s.log ++ (l ++ [.record c (k.record .upstreamRcv)]) := by
  cases hs with
  | add => exact Or.inl ⟨fun d => (h d).of_same rfl rfl rfl (Nat.le_refl _), rfl⟩
  | @connect nodelay hp =>
      refine Or.inl ?_
      cases nodelay with
      | true =>
          refine ⟨fun d => ?_, rfl⟩
          by_cases hd : d = s.loop.next
          · subst hd
            obtain ⟨hF, hgot, _⟩ := (h s.loop.next).fresh (Nat.le_refl _)
            refine ⟨?_, (h _).records, fun hle => absurd (Nat.lt_succ_self _) (Nat.not_lt_of_le hle)⟩
            show Cut contents (s.got _) (Function.update s.session _ _ _) _
            rw [hgot, hF, Function.update_self]
            exact cut_new h₀ rfl
          · exact (h d).of_same rfl (Function.update_of_ne hd _ _) rfl (Nat.le_succ _)
      | false => exact ⟨fun d => (h d).of_same rfl rfl rfl (Nat.le_succ _), rfl⟩
  | messageNone => exact Or.inl ⟨h, rfl⟩
  | message => exact Or.inl ⟨fun d => (h d).of_same rfl rfl rfl (Nat.le_refl _), rfl⟩
  | read hp hses => exact Or.inl (h.readOne hB hses _)
  | @parse c ses hp hses =>
      rcases h.parseOne hB hses (hok c) with hnone | ⟨f, l, k, htakes, hl, hlog⟩
      · exact Or.inl hnone
      · exact Or.inr ⟨c, f, l, k, htakes, hl, hlog⟩
  | close => exact Or.inl ⟨fun d => (h d).of_same rfl rfl rfl (Nat.le_refl _), rfl⟩
  | @release c hp hc =>
      refine Or.inl ⟨fun d => ?_, rfl⟩
      by_cases hd : d = c
      · subst hd
        refine ⟨?_, (h d).records, fun hle => ?_⟩
        · show Cut contents (s.got d) (Function.update s.session d none d) _
          rw [Function.update_self]
          exact (h d).cut.delete
        · obtain ⟨hF, hgot, _⟩ := (h d).fresh hle
          exact ⟨hF, hgot, Function.update_self ..⟩
      · exact (h d).of_same rfl (Function.update_of_ne hd _ _) rfl (Nat.le_refl _)

theorem ne_of_session {c d : Nat} {ses : NbTcpSession β} (hses : s.session c = some ses)
    (hd : s.session d = none) : d ≠ c := by
  rintro rfl
  exact absurd (hd.symm.trans hses) (Option.some_ne_none _).symm

/-- An iteration leaves a context without session as it is. -/
theorem readOne_of_none {c d : Nat} {ses : NbTcpSession β} (hses : s.session c = some ses)
    (hd : s.session d = none) (r : Option Chunk) :
    (readOne B c ses r s).session d = none ∧ (readOne B c ses r s).got d = s.got d := by
  have hdc := ne_of_session hses hd
  have hsession : ∀ x, Function.update s.session c x d = none := fun _ =>
    (Function.update_of_ne hdc _ _).trans hd
  unfold TcpUpstream.readOne
  split
  · exact ⟨hsession _, Function.update_of_ne hdc _ _⟩
  · exact ⟨hsession _, rfl⟩
  · exact ⟨hsession _, rfl⟩

theorem parseOne_of_none {c d : Nat} {ses : NbTcpSession β} (hses : s.session c = some ses)
    (hd : s.session d = none) :
    (parseOne B c ses s).session d = none ∧ (parseOne B c ses s).got d = s.got d := by
  have hdc := ne_of_session hses hd
  have hsession : ∀ x, Function.update s.session c x d = none := fun _ =>
    (Function.update_of_ne hdc _ _).trans hd
  unfold TcpUpstream.parseOne
  split
  · split
    · exact ⟨hsession _, rfl⟩
    · exact ⟨hsession _, rfl⟩
  · exact ⟨hsession _, rfl⟩
  · exact ⟨hsession _, rfl⟩

theorem readOne_loop (c : Nat) (ses : NbTcpSession β) (r : Option Chunk) :
    (readOne B c ses r s).loop = s.loop := by
  unfold TcpUpstream.readOne
  split
  · rfl
  · rfl
  · rfl

theorem parseOne_loop (c : Nat) (ses : NbTcpSession β) : (parseOne B c ses s).loop = s.loop := by
  unfold TcpUpstream.parseOne
  split
  · split
    · rfl
    · rfl
  · rfl
  · rfl

/-- A connect is the one step that makes a session, on a fresh context; without one
nothing is read. -/
theorem Step.grows {e : UpstreamEvent} (hs : Step B b₀ s e s') :
    s.loop.next ≤ s'.loop.next ∧
      ((∀ n, e ≠ .connect n) ∧
          (∀ c, s.session c = none → s'.session c = none ∧ s'.got c = s.got c) ∨
        ∃ n, e = .connect n ∧ s'.loop.next = s.loop.next + 1 ∧ s'.got = s.got ∧
          ∀ c, c ≠ s.loop.next → s'.session c = s.session c) := by
  cases hs with
  | add => exact ⟨Nat.le_refl _, Or.inl ⟨fun _ h => (nomatch h), fun _ h => ⟨h, rfl⟩⟩⟩
  | @connect nodelay hp =>
      cases nodelay with
      | true =>
          exact ⟨Nat.le_succ _, Or.inr ⟨_, rfl, rfl, rfl, fun c hc => Function.update_of_ne hc _ _⟩⟩
      | false => exact ⟨Nat.le_succ _, Or.inr ⟨_, rfl, rfl, rfl, fun _ _ => rfl⟩⟩
  | messageNone => exact ⟨Nat.le_refl _, Or.inl ⟨fun _ h => (nomatch h), fun _ h => ⟨h, rfl⟩⟩⟩
  | message => exact ⟨Nat.le_refl _, Or.inl ⟨fun _ h => (nomatch h), fun _ h => ⟨h, rfl⟩⟩⟩
  | @read c ses r hp hses =>
      refine ⟨Nat.le_of_eq (congrArg EventLoop.next (readOne_loop c ses r)).symm, Or.inl ⟨?_, ?_⟩⟩
      · exact fun _ h => (nomatch h)
      · exact fun d hd => readOne_of_none hses hd r
  | @parse c ses hp hses =>
      refine ⟨Nat.le_of_eq (congrArg EventLoop.next (parseOne_loop c ses)).symm, Or.inl ⟨?_, ?_⟩⟩
      · exact fun _ h => (nomatch h)
      · exact fun d hd => parseOne_of_none hses hd
  | close => exact ⟨Nat.le_refl _, Or.inl ⟨fun _ h => (nomatch h), fun _ h => ⟨h, rfl⟩⟩⟩
  | @release c hp hc =>
      refine ⟨Nat.le_refl _, Or.inl ⟨fun _ h => (nomatch h), fun d hd => ⟨?_, rfl⟩⟩⟩
      show Function.update s.session c none d = none
      by_cases hdc : d = c
      · rw [hdc, Function.update_self]
      · rw [Function.update_of_ne hdc, hd]

end TcpUpstream

end NetBench

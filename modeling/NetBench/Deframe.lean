/-
# `NetBench.Deframe` — deframing does not depend on segmentation or layout

A session without a length limit, fed by any number of invocations of its
receive callback.  However the bytes are cut into reads and invocations, and
whichever of the two delivery paths each message takes, the callbacks made so
far are the complete frames of the bytes read so far, and the buffer holds
their incomplete tail.

The invariant is the splitting of the bytes read (`Framing.Splits`); the read
loop extends the tail (`readLoop_spec`), the parse loop splits it
(`parseLoop_sound`), and `Splits.append` puts the two together.
-/
import NetBench.Lib.Run
import NetBench.Session

namespace NetBench

open Lib

variable {β σ : Type} {B : BytesBuffer β} {contents : β → Bytes} {cap : Nat}

/-! ## What a callback sees -/

/-- Header, payload bytes and `datalen` of one callback. -/
structure Seen where
  hdr : MsgHdr
  payload : Bytes
  datalen : UInt32
  deriving DecidableEq, Repr

/-- The first `datalen` bytes at `data` are the payload. -/
def Callback.seen (m : Callback) : Seen := ⟨m.hdr, m.data.take m.datalen.toNat, m.datalen⟩

/-- The callback that a frame should cause. -/
def Seen.ofFrame (f : Bytes) : Seen :=
  ⟨MsgHdr.decode f, f.drop sizeofMsgHdr, (MsgHdr.decode f).payloadLen⟩

theorem Callback.seen_of {f mem : Bytes} (hf : nbFraming.IsFrame f) (hp : f <+: mem) :
    (Callback.of mem).seen = Seen.ofFrame f := by
  obtain ⟨h8, hlen⟩ := isFrame_iff.mp hf
  obtain ⟨r, rfl⟩ := hp
  simp only [Callback.seen, Callback.hdr, Callback.data, Callback.of, Seen.ofFrame,
    MsgHdr.decode_append h8]
  rw [List.drop_append_of_le_length h8, List.take_left' (by rw [List.length_drop]; omega)]

theorem Seen.length_payload {f : Bytes} (hf : nbFraming.IsFrame f) :
    (Seen.ofFrame f).payload.length = (Seen.ofFrame f).datalen.toNat := by
  obtain ⟨h8, hlen⟩ := isFrame_iff.mp hf
  simp only [Seen.ofFrame, List.length_drop, sizeofMsgHdr]
  omega

/-! ## The read loop -/

/-- The read loop appends what it reads, in order, and never fails. -/
theorem readLoop_spec (hB : B.Fifo contents cap) : ∀ (cks : List Chunk) (b : β),
    contents (readLoop B b cks).buf = contents b ++ (readLoop B b cks).got ∧
    (readLoop B b cks).got <+: chunkBytes cks ∧ (readLoop B b cks).stop ≠ .fault
  | [], b => by
      rcases readIter_cases hB b none with ⟨_, _, h, _⟩ | ⟨_, h⟩ | ⟨_, h⟩
      · cases h
      · simp [readLoop, h]
      · simp [readLoop, h]
  | ck :: cks, b => by
      rcases readIter_cases hB b (some ck) with ⟨ck', b', h, hit, hcont⟩ | ⟨h, _⟩ | ⟨_, h⟩
      · cases h
        obtain ⟨ih₁, ih₂, ih₃⟩ := readLoop_spec hB cks b'
        simp only [readLoop, hit]
        refine ⟨by rw [ih₁, hcont, List.append_assoc], ?_, ih₃⟩
        exact (List.prefix_append_right_inj ck.bytes).mpr ih₂
      · cases h
      · simp [readLoop, h]

/-! ## The parse loop -/

theorem msgLen_toNat (hdr : MsgHdr) :
    (msgLen hdr).toNat = (8 + hdr.payloadLen.toNat) % 2 ^ 32 := by
  rw [msgLen, UInt32.toNat_add, UInt32.toNat_ofNat']
  rfl

/-- Without wrap-around the checked sum is the announced length. -/
theorem msgLen_eq_announced {l : Bytes} (h8 : 8 ≤ l.length)
    (h : nbFraming.announced l < 2 ^ 32) :
    (msgLen (MsgHdr.decode l)).toNat = nbFraming.announced l := by
  rw [msgLen_toNat, ← announced_eq h8, Nat.mod_eq_of_lt h]

@[simp] theorem tooLong_zero (n : UInt32) : tooLong 0 n = false := by
  simp [tooLong]

/-- One iteration without a limit, at a header that does not wrap: it stops on
an incomplete frame and delivers a complete one. -/
theorem parseIter_of_headersOk (hB : B.Fifo contents cap) {b : β} (hok : HeadersOk (contents b)) :
    (nbFraming.Short (contents b) ∧ parseIter B 0 b = .stop b false) ∨
    ∃ f mem b', contents b = f ++ contents b' ∧ nbFraming.IsFrame f ∧ f <+: mem ∧
      parseIter B 0 b = .deliver (.of mem) b' := by
  have hann : 8 ≤ (contents b).length →
      (msgLen (MsgHdr.decode (contents b))).toNat = nbFraming.announced (contents b) :=
    fun h8 => msgLen_eq_announced h8 (hok [] _ (Framing.Reaches.nil _) h8)
  rcases parseIter_cases hB 0 b with ⟨h8, h⟩ | ⟨_, ht, _⟩ | ⟨h8, _, hn, h⟩ |
    ⟨h8, _, hn, mem, b', h, hpre, hcont⟩
  · exact Or.inl ⟨Or.inl h8, h⟩
  · rw [tooLong_zero] at ht; cases ht
  · rw [hann h8] at hn
    exact Or.inl ⟨Or.inr hn, h⟩
  · rw [hann h8] at hn hpre hcont
    have hns : ¬ nbFraming.Short (contents b) := by
      rintro (hs | hs)
      · exact absurd h8 (Nat.not_le_of_lt hs)
      · exact absurd hn (Nat.not_le_of_lt hs)
    refine Or.inr ⟨_, mem, b', ?_, Framing.isFrame_take hns, hpre, h⟩
    rw [hcont, List.take_append_drop]

/-- The parse loop, if it returns, has handed every complete frame to `cb`. -/
theorem parseLoop_sound (hB : B.Fifo contents cap) (cb : σ → Callback → σ) :
    ∀ (fuel : Nat) (b : β) (s : σ) {b' : β} {s' : σ} {shut : Bool}, HeadersOk (contents b) →
      parseLoop B 0 cb fuel b s = some (b', s', shut) →
      shut = false ∧ ∃ (fs : List Bytes) (ms : List Callback), nbFraming.Splits (contents b) fs (contents b') ∧
        ms.map Callback.seen = fs.map Seen.ofFrame ∧ s' = ms.foldl cb s
  | 0, _, _, _, _, _, _, h => nomatch h
  | fuel + 1, b, s, b', s', shut, hok, h => by
      rcases parseIter_of_headersOk hB hok with ⟨hs, hit⟩ | ⟨f, mem, b₁, heq, hf, hpre, hit⟩
      · simp only [parseLoop, hit, Option.some.injEq, Prod.mk.injEq] at h
        obtain ⟨rfl, rfl, rfl⟩ := h
        exact ⟨rfl, [], [], { Framing.Reaches.nil _ with short := hs }, rfl, rfl⟩
      · simp only [parseLoop, hit] at h
        have hcut : nbFraming.Reaches (contents b) [f] (contents b₁) :=
          ⟨by simpa using heq, by simpa using hf⟩
        obtain ⟨hshut, fs, ms, hsp, hseen, hs'⟩ :=
          parseLoop_sound hB cb fuel b₁ (cb s (.of mem)) (hok.rest hcut) h
        refine ⟨hshut, f :: fs, .of mem :: ms,
          { hcut.trans hsp.toReaches with short := hsp.short }, ?_, hs'⟩
        rw [List.map_cons, List.map_cons, hseen, Callback.seen_of hf hpre]

/-- With more fuel than unread bytes the parse loop returns. -/
theorem parseLoop_total (hB : B.Fifo contents cap) (cb : σ → Callback → σ) :
    ∀ (fuel : Nat) (b : β) (s : σ), HeadersOk (contents b) → (contents b).length < fuel →
      (parseLoop B 0 cb fuel b s).isSome
  | 0, _, _, _, h => absurd h (Nat.not_lt_zero _)
  | fuel + 1, b, s, hok, hlt => by
      rcases parseIter_of_headersOk hB hok with ⟨_, hit⟩ | ⟨f, mem, b₁, heq, hf, _, hit⟩
      · simp [parseLoop, hit]
      · simp only [parseLoop, hit]
        have hpos : 8 ≤ f.length := hf.hdrLen_le
        have hlen : (contents b).length = f.length + (contents b₁).length := by
          rw [heq, List.length_append]
        have hcut : nbFraming.Reaches (contents b) [f] (contents b₁) :=
          ⟨by simpa using heq, by simpa using hf⟩
        exact parseLoop_total hB cb fuel b₁ _ (hok.rest hcut) (by omega)

/-! ## Invocations -/

/-- A session over several invocations: the callbacks made, the bytes read,
whether the context was shut down. -/
structure Feed (β : Type) where
  session : NbTcpSession β
  calls : List Callback
  got : Bytes
  shut : Bool

/-- A new session on the buffer `b`. -/
def Feed.fresh (b : β) : Feed β := ⟨nbTcpSessionNew b, [], [], false⟩

/-- One invocation of `nb_tcp_session_on_msg` that returns; its callback notes its arguments. -/
def Invoke (B : BytesBuffer β) (f : Feed β) (cks : List Chunk) (f' : Feed β) : Prop :=
  ∃ fuel r, nbTcpSessionOnMsg B (fun calls m => calls ++ [m]) fuel f.session cks f.calls = some r ∧
    f' = ⟨r.session, r.app, f.got ++ r.got, f.shut || r.shut⟩

theorem foldl_snoc (ms calls : List Callback) :
    ms.foldl (fun calls m => calls ++ [m]) calls = calls ++ ms := by
  induction ms generalizing calls with
  | nil => simp
  | cons m ms ih => rw [List.foldl_cons, ih, List.append_assoc]; rfl

/-- The callbacks made are the complete frames of the bytes read, the buffer
holds their incomplete tail. -/
structure Feed.Deframed (contents : β → Bytes) (f : Feed β) (fs : List Bytes) : Prop where
  splits : nbFraming.Splits f.got fs (contents f.session.bytesBuf)
  calls : f.calls.map Callback.seen = fs.map Seen.ofFrame
  limit : f.session.msgLenLimit = 0
  open_ : f.shut = false

theorem Feed.deframed_fresh {b : β} (h : contents b = []) :
    (Feed.fresh b).Deframed contents [] where
  splits := by
    show nbFraming.Splits [] [] (contents b)
    rw [h]
    exact { Framing.Reaches.nil [] with short := Framing.short_nil }
  calls := rfl
  limit := rfl
  open_ := rfl

/-- An invocation that returns keeps `Deframed`. -/
theorem Invoke.deframed (hB : B.Fifo contents cap) {f f' : Feed β} {cks : List Chunk}
    {fs : List Bytes} (hd : f.Deframed contents fs) (h : Invoke B f cks f')
    (hok : HeadersOk f'.got) : ∃ gs, f'.Deframed contents gs := by
  obtain ⟨fuel, r, hr, rfl⟩ := h
  obtain ⟨hcont, -, hstop⟩ := readLoop_spec hB cks f.session.bytesBuf
  rw [nbTcpSessionOnMsg_eq B hstop, hd.limit, Option.map_eq_some_iff] at hr
  obtain ⟨⟨b', s', shut⟩, hp, rfl⟩ := hr
  -- the buffer before the parse loop: the old tail, then what was read
  have hbuf : HeadersOk (contents (readLoop B f.session.bytesBuf cks).buf) := by
    rw [hcont]
    exact Framing.HeadersIn.rest hok (hd.splits.toReaches.append_right _)
  obtain ⟨rfl, gs, ms, hsp, hseen, rfl⟩ := parseLoop_sound hB _ fuel _ _ hbuf hp
  rw [hcont] at hsp
  refine ⟨fs ++ gs, hd.splits.append hsp, ?_, rfl, by simp [hd.open_]⟩
  rw [foldl_snoc, List.map_append, List.map_append, hd.calls, hseen]

/-- An invocation whose bytes have good headers returns. -/
theorem Invoke.total (hB : B.Fifo contents cap) {f : Feed β} {cks : List Chunk}
    {fs : List Bytes} (hd : f.Deframed contents fs) (hok : HeadersOk (f.got ++ chunkBytes cks)) :
    ∃ f', Invoke B f cks f' := by
  obtain ⟨hcont, hgot, hstop⟩ := readLoop_spec hB cks f.session.bytesBuf
  have hbuf : HeadersOk (contents (readLoop B f.session.bytesBuf cks).buf) := by
    rw [hcont]
    refine Framing.HeadersIn.rest (hok.of_isPrefix ?_) (hd.splits.toReaches.append_right _)
    exact (List.prefix_append_right_inj _).mpr hgot
  have htot := parseLoop_total hB (fun (calls : List Callback) m => calls ++ [m]) _ _ f.calls hbuf
    (Nat.lt_succ_self _)
  obtain ⟨⟨b', s', shut⟩, hp⟩ := Option.isSome_iff_exists.mp htot
  have hr : ∃ r, nbTcpSessionOnMsg B (fun calls m => calls ++ [m])
      ((contents (readLoop B f.session.bytesBuf cks).buf).length + 1) f.session cks f.calls
        = some r := by
    rw [nbTcpSessionOnMsg_eq B hstop, hd.limit, hp]
    exact ⟨_, rfl⟩
  obtain ⟨r, hr⟩ := hr
  exact ⟨_, _, r, hr, rfl⟩

/-- The bytes read only grow. -/
theorem Invoke.got_mono {f f' : Feed β} {cks : List Chunk} (h : Invoke B f cks f') :
    f.got <+: f'.got := by
  obtain ⟨_, r, _, rfl⟩ := h
  exact List.prefix_append _ _

/-- After every sequence of invocations `Deframed` holds. -/
theorem deframed_of_run (hB : B.Fifo contents cap) : ∀ {invs : List (List Chunk)} {f f' : Feed β}
    {fs : List Bytes}, f.Deframed contents fs → Run (Invoke B) f invs f' → HeadersOk f'.got →
      ∃ gs, f'.Deframed contents gs := by
  intro invs f f' fs hd hrun
  induction hrun generalizing fs with
  | nil => intro _; exact ⟨fs, hd⟩
  | cons hs hr ih =>
      intro hok
      have hmono := hr.relate (I := fun _ => True) (R := fun f f' => f.got <+: f'.got)
        (fun _ => List.prefix_rfl) (fun _ _ _ => List.IsPrefix.trans) (fun _ _ _ _ _ => trivial)
        (fun _ _ _ _ => Invoke.got_mono) trivial
      obtain ⟨gs, hgs⟩ := hs.deframed hB hd (hok.of_isPrefix hmono)
      exact ih hgs hok

/-- Let `S` be a stream whose headers do not wrap.  After any sequence of
invocations that read a prefix of `S`, the callbacks made are the complete
frames of the bytes read, once each and in order, with
`datalen = payload_len =` length of the payload; the unread bytes are the
incomplete tail; the context was not shut down; and the next invocation returns. -/
theorem deframing_independent_of_segmentation (hB : B.Fifo contents cap) {b₀ : β}
    (h₀ : contents b₀ = []) {S : Bytes} (hS : HeadersOk S) {invs : List (List Chunk)} {f : Feed β}
    (hrun : Run (Invoke B) (Feed.fresh b₀) invs f) (hgot : f.got <+: S) :
    f.calls.map Callback.seen = (nbFraming.frames f.got).map Seen.ofFrame ∧
    (∀ m ∈ f.calls, m.seen.datalen = m.seen.hdr.payloadLen ∧
      m.seen.payload.length = m.seen.datalen.toNat) ∧
    contents f.session.bytesBuf = nbFraming.tail f.got ∧
    f.shut = false ∧
    ∀ cks, f.got ++ chunkBytes cks <+: S → ∃ f', Invoke B f cks f' := by
  obtain ⟨fs, hd⟩ := deframed_of_run hB (Feed.deframed_fresh h₀) hrun (hS.of_isPrefix hgot)
  obtain ⟨hframes, htail⟩ := hd.splits.split_eq
  refine ⟨by rw [hframes, hd.calls], ?_, htail.symm, hd.open_, ?_⟩
  · intro m hm
    obtain ⟨x, hx, hxm⟩ := List.mem_map.mp (hd.calls ▸ List.mem_map_of_mem hm)
    rw [← hxm]
    exact ⟨rfl, Seen.length_payload (hd.splits.frames x hx)⟩
  · intro cks hcks
    exact Invoke.total hB hd (hS.of_isPrefix hcks)

/-- A 16-byte message and the header of the next one. -/
def messageAndHeader : Bytes :=
  (MsgHdr.mk 1 8).encode ++ (MsgData.mk 7 0).encode ++ (MsgHdr.mk 1 8).encode

/-- Its arrival, cut inside the first message's data. -/
def twoInvocations : List (List Chunk) :=
  [[⟨messageAndHeader.take 10, by decide, by decide⟩],
   [⟨messageAndHeader.drop 10, by decide, by decide⟩]]

/-- On the ring the message arrives whole, and the header stays in the buffer. -/
theorem deframing_across_two_invocations :
    ∃ f, Run (Invoke (ringBuffer netBenchTcpBufSize))
        (Feed.fresh (emptyRing netBenchTcpBufSize fun _ => 0)) twoInvocations f ∧
      f.calls.map Callback.seen = [⟨⟨1, 8⟩, (MsgData.mk 7 0).encode, 8⟩] ∧
      f.session.bytesBuf.contents = (MsgHdr.mk 1 8).encode ∧ f.shut = false := by
  obtain ⟨f, hrun, hgot⟩ : ∃ f, Run (Invoke (ringBuffer netBenchTcpBufSize))
      (Feed.fresh (emptyRing netBenchTcpBufSize fun _ => 0)) twoInvocations f ∧
      f.got = messageAndHeader :=
    ⟨_, .cons ⟨3, _, rfl, rfl⟩ (.cons ⟨3, _, rfl, rfl⟩ (.nil _)), rfl⟩
  obtain ⟨hcalls, -, hrest, hshut, -⟩ := deframing_independent_of_segmentation
    (ringBuffer_fifo (c := netBenchTcpBufSize) (by decide)) rfl
    (S := messageAndHeader) (by decide) hrun (hgot ▸ List.prefix_rfl)
  rw [hgot] at hcalls hrest
  exact ⟨f, hrun, hcalls.trans (by decide), hrest.trans (by decide), hshut⟩

end NetBench

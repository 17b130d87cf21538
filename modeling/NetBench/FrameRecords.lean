/-
# `NetBench.FrameRecords` — what the records of a message depend on

The handlers of the server and of the upstream read `user_id` and `sequence` from the
eight bytes behind the header.  They do not look at `datalen`: for a frame of less than
16 bytes, part of what they read is whatever follows the frame in memory.

Two runs of a program are compared whose streams agree up to and including the frame `f`,
with any receive buffers.  The records made for it agree in all such runs if and only if `f`
holds the data (`records_of_frame_iff`).
-/
import NetBench.ServerRelay
import NetBench.TcpUpstream
import NetBench.Wedge

namespace NetBench

open Lib

/-- `R k got key` says that a run makes a record `key` for the message that follows `k`
others in the bytes `got`.  Streams that agree up to and including `f` then lead to
the same record for `f`. -/
def LocalTo (f : Bytes) (R : Nat → Bytes → MsgKey → Prop) : Prop :=
  ∀ (fs : List Bytes) (got₁ got₂ : Bytes) (key₁ key₂ : MsgKey), (∀ g ∈ fs, nbFraming.IsFrame g) →
    fs.flatten ++ f <+: got₁ → fs.flatten ++ f <+: got₂ →
    R fs.length got₁ key₁ → R fs.length got₂ key₂ → key₁ = key₂

/-- Two ways to cut the same number of frames off a stream. -/
theorem frames_unique {got t : Bytes} {gs fs : List Bytes} {g f : Bytes}
    (h : nbFraming.Reaches got (gs ++ [g]) t) (hfs : ∀ x ∈ fs, nbFraming.IsFrame x)
    (hf : nbFraming.IsFrame f) (hp : fs.flatten ++ f <+: got) (hlen : gs.length = fs.length) :
    g = f := by
  obtain ⟨r, rfl⟩ := hp
  have hsplit := Framing.split_spec (F := nbFraming) (fs.flatten ++ f ++ r)
  have h₁ := h.prefix_of_whole hsplit.short hsplit.frames (hsplit.eq ▸ List.prefix_rfl)
  have hcut : nbFraming.Reaches (fs.flatten ++ f ++ r) (fs ++ [f]) r := by
    refine ⟨by simp, fun x hx => ?_⟩
    rcases List.mem_append.mp hx with hx | hx
    · exact hfs x hx
    · rw [List.mem_singleton.mp hx]
      exact hf
  have h₂ := hcut.prefix_of_whole hsplit.short hsplit.frames (hsplit.eq ▸ List.prefix_rfl)
  have heq : gs ++ [g] = fs ++ [f] :=
    (List.prefix_of_prefix_length_le h₁ h₂ (by simp [hlen])).eq_of_length (by simp [hlen])
  have hlast := (List.append_inj heq hlen).2
  injection hlast

theorem of_recordOn {x y : Action} {c d : Nat} {k key : MsgKey}
    (h : Ev.recordOn x c (.record d (k.record y)) = some key) : d = c ∧ key = k := by
  by_cases hc : d = c ∧ (k.record y).action = x
  · rw [Ev.recordOn, if_pos hc] at h
    exact ⟨hc.1, (Option.some.inj h).symm⟩
  · rw [Ev.recordOn, if_neg hc] at h
    cases h

/-- What is neither a record nor a write is no record. -/
theorem Quiet.recordsOn {l : List Ev} (h : Quiet l) (x : Action) (c : Nat) :
    recordsOn x l c = [] := by
  refine List.filterMap_eq_nil_iff.mpr fun e he => ?_
  rcases h e he with ⟨_, _, rfl⟩ | rfl
  · rfl
  · rfl

/-! ## The records of the server -/

namespace TcpServer

/-- A record of a handled frame stands for the frame. -/
theorem Handled.of_mem_recordsOn {x : Action} {c : Nat} {key : MsgKey} {h : Handled}
    (hmem : key ∈ recordsOn x h.events c) : h.src = c ∧ key = h.key := by
  obtain ⟨e, he, hkey⟩ := List.mem_filterMap.mp hmem
  obtain ⟨src, frame, k, out⟩ := h
  cases out with
  | none =>
      rw [Handled.events, List.mem_singleton] at he
      exact of_recordOn (he ▸ hkey)
  | some p =>
      simp only [Handled.events, List.mem_cons, List.not_mem_nil, or_false] at he
      rcases he with rfl | rfl | rfl
      · exact of_recordOn hkey
      · exact of_recordOn hkey
      · cases hkey

theorem length_recordsOn_flatMap (c : Nat) (H : List Handled) :
    (recordsOn .serverRcv (H.flatMap Handled.events) c).length = (framesFrom c H).length := by
  induction H with
  | nil => rfl
  | cons h H ih =>
      rw [List.flatMap_cons, recordsOn_append, recordsOn_events, List.length_append, ih,
        framesFrom, framesFrom, List.filterMap_cons]
      by_cases hc : h.src = c
      · rw [if_pos hc, if_pos hc, List.length_cons]
        exact Nat.add_comm _ _
      · rw [if_neg hc, if_neg hc]
        exact Nat.zero_add _

/-- In a run on some receive buffer, in which the headers of the clients do not wrap, a
step makes a record `key` on a client's context: `got` are the bytes read from the
client, and `k` messages of it were recorded before. -/
def RecordsAt (k : Nat) (got : Bytes) (key : MsgKey) : Prop :=
  ∃ (β : Type) (B : BytesBuffer β) (contents : β → Bytes) (cap : Nat) (b₀ : β),
    B.Fifo contents cap ∧ contents b₀ = [] ∧
    ∃ es s e s' l c x, Run (Step B b₀) start es s ∧ ClientsOk s ∧ Step B b₀ s e s' ∧
      s'.log = s.log ++ l ∧ s.got c = got ∧ (recordsOn .serverRcv s.log c).length = k ∧
      key ∈ recordsOn x l c

/-- A frame with room for the data determines its records. -/
theorem RecordsAt.key_eq {fs : List Bytes} {f got : Bytes} {key : MsgKey}
    (h : RecordsAt fs.length got key) (hfs : ∀ g ∈ fs, nbFraming.IsFrame g)
    (hf : nbFraming.IsFrame f) (hp : fs.flatten ++ f <+: got) (h16 : 16 ≤ f.length) :
    key = keyOf f := by
  obtain ⟨β, B, contents, cap, b₀, hB, h₀, es, s, e, s', l, c, x, hrun, hok, hs, hlog, rfl, hlen,
    hkey⟩ := h
  obtain ⟨H, hrel⟩ := relay_of_run hB h₀ hrun hok
  obtain ⟨l', xs, hl', hxs, hlog', hrel'⟩ := hrel.step hB h₀ hok hs
  obtain rfl := List.append_cancel_left (hlog.symm.trans hlog')
  -- the record is that of a frame which this step handles
  have hquiet : recordsOn x l' c = [] := by
    rw [← recordsOn_withoutAsserts, hl']
    rfl
  rw [recordsOn_append, hquiet, List.nil_append] at hkey
  cases xs with
  | nil => cases hkey
  | cons h xs =>
      have hnil : xs = [] := List.eq_nil_of_length_eq_zero (by rw [List.length_cons] at hxs; omega)
      subst hnil
      rw [List.flatMap_singleton] at hkey
      obtain ⟨hsrc, rfl⟩ := Handled.of_mem_recordsOn hkey
      obtain ⟨hacc, hhok⟩ := hrel'.src h (List.mem_append_right _ List.mem_cons_self)
      obtain ⟨t, ht, _⟩ := (hrel'.ctx c).cut (hsrc ▸ hacc)
      have hframes : framesFrom c (H ++ [h]) = framesFrom c H ++ [h.frame] := by
        rw [framesFrom_append]
        simp [framesFrom, hsrc]
      have hcount : (framesFrom c H).length = fs.length := by
        rw [← length_recordsOn_flatMap, ← hrel.log, recordsOn_withoutAsserts, hlen]
      rw [hframes] at ht
      obtain rfl := frames_unique ht hfs hf (hp.trans (hs.grows.2.1 c)) hcount
      exact hhok.key h16

end TcpServer

/-! ## The records of the upstream -/

namespace TcpUpstream

variable {β : Type} {B : BytesBuffer β} {b₀ : β} {contents : β → Bytes} {cap : Nat}
  {s s' : TcpUpstream β}

/-- The bytes read from a context only grow. -/
theorem Step.got_mono {e : UpstreamEvent} (hs : Step B b₀ s e s') (c : Nat) :
    s.got c <+: s'.got c := by
  cases hs with
  | add => exact List.prefix_rfl
  | @connect nodelay hp =>
      cases nodelay with
      | true => exact List.prefix_rfl
      | false => exact List.prefix_rfl
  | messageNone => exact List.prefix_rfl
  | message => exact List.prefix_rfl
  | @read d ses r hp hses =>
      have hpre := s.readState.got_isPrefix_readOne B c d ses r
      rw [← readState_readOne] at hpre
      exact hpre
  | parse =>
      unfold parseOne
      split
      · split
        · exact List.prefix_rfl
        · exact List.prefix_rfl
      · exact List.prefix_rfl
      · exact List.prefix_rfl
  | close => exact List.prefix_rfl
  | release => exact List.prefix_rfl

theorem takes_of_run (hB : B.Fifo contents cap) (h₀ : contents b₀ = []) {es : List UpstreamEvent}
    (hrun : Run (Step B b₀) start es s) (hok : ∀ c, HeadersOk (s.got c)) :
    ∃ F, Takes contents F s := by
  have h := hrun.invariant (I := fun s => (∀ c, HeadersOk (s.got c)) → ∃ F, Takes contents F s) ?_
    (fun _ => ⟨_, takes_start⟩)
  · exact h hok
  · intro s e s' ih hs hok'
    have hok : ∀ c, HeadersOk (s.got c) := fun c => (hok' c).of_isPrefix (hs.got_mono c)
    obtain ⟨F, hF⟩ := ih hok
    rcases hF.step hB h₀ hok hs with ⟨hF', _⟩ | ⟨_, _, _, _, hF', _⟩
    · exact ⟨_, hF'⟩
    · exact ⟨_, hF'⟩

/-- As `TcpServer.RecordsAt`: `k` messages were recorded on the context before. -/
def RecordsAt (k : Nat) (got : Bytes) (key : MsgKey) : Prop :=
  ∃ (β : Type) (B : BytesBuffer β) (contents : β → Bytes) (cap : Nat) (b₀ : β),
    B.Fifo contents cap ∧ contents b₀ = [] ∧
    ∃ es s e s' l c x, Run (Step B b₀) start es s ∧ (∀ d, HeadersOk (s.got d)) ∧
      Step B b₀ s e s' ∧ s'.log = s.log ++ l ∧ s.got c = got ∧
      (recordsOn .upstreamRcv s.log c).length = k ∧ key ∈ recordsOn x l c

theorem RecordsAt.key_eq {fs : List Bytes} {f got : Bytes} {key : MsgKey}
    (h : RecordsAt fs.length got key) (hfs : ∀ g ∈ fs, nbFraming.IsFrame g)
    (hf : nbFraming.IsFrame f) (hp : fs.flatten ++ f <+: got) (h16 : 16 ≤ f.length) :
    key = keyOf f := by
  obtain ⟨β, B, contents, cap, b₀, hB, h₀, es, s, e, s', l, c, x, hrun, hok, hs, hlog, rfl, hlen,
    hkey⟩ := h
  obtain ⟨F, hF⟩ := takes_of_run hB h₀ hrun hok
  rcases hF.step hB h₀ hok hs with ⟨_, hsame⟩ | ⟨d, g, l', k, hF', hl', hlog'⟩
  · obtain rfl : l = [] := List.append_cancel_left (hlog.symm.trans (hsame.trans (List.append_nil _).symm))
    cases hkey
  · obtain rfl := List.append_cancel_left (hlog.symm.trans hlog')
    -- the step makes one record
    rw [recordsOn_append, hl'.recordsOn, List.nil_append] at hkey
    obtain ⟨hdc, rfl⟩ : d = c ∧ key = k := by
      obtain ⟨e, he, hrec⟩ := List.mem_filterMap.mp hkey
      exact of_recordOn (List.mem_singleton.mp he ▸ hrec)
    subst hdc
    have htaken := hF' d
    rw [Function.update_self] at htaken
    obtain ⟨t, ht, _⟩ := htaken.cut
    have hcount : (F d).length = fs.length := by
      rw [← hlen]
      exact (hF d).records.length_eq
    obtain rfl := frames_unique ht hfs hf (hp.trans (hs.got_mono d)) hcount
    have hrec := List.forall₂_drop (F d).length htaken.records
    rw [hlog', recordsOn_append, recordsOn_append, hl'.recordsOn, List.drop_left,
      List.drop_left' (hlen.trans hcount.symm)] at hrec
    have hone : recordsOn .upstreamRcv [.record d (key.record .upstreamRcv)] d = [key] := by
      simp [recordsOn, Ev.recordOn]
    rw [List.nil_append, hone] at hrec
    cases hrec with
    | cons hk _ => exact hk h16

end TcpUpstream

/-! ## A short frame -/

/-- What is read into an empty ring lies at its start. -/
theorem readIter_emptyRing (mem : Nat → UInt8) (ck : Chunk) :
    ∃ R, readIter sessionRing (emptyRing netBenchTcpBufSize mem) (some ck) = .next R ∧
      R.contents = ck.bytes ∧ R.r ≤ R.w := by
  have hp : (emptyRing netBenchTcpBufSize mem).writerFc netBenchTcpRecvUnitSize = some 0 := rfl
  obtain ⟨m, hm, hcont⟩ := Ring.contents_store hp ck.le
  have hpos : m.r = 0 := by
    have hroom : ck.bytes.length ≤ (emptyRing netBenchTcpBufSize mem).room :=
      Nat.le_trans ck.le (show _ ≤ (Marks.empty netBenchTcpBufSize).room by decide)
    rw [Marks.writerMove, dif_pos ⟨rfl, hroom⟩] at hm
    cases hm
    rfl
  refine ⟨⟨m, storeAt (emptyRing netBenchTcpBufSize mem).mem 0 ck.bytes⟩, ?_, hcont, ?_⟩
  · simp only [readIter, ringBuffer, hp, hm, Option.map_some]
  · show m.r ≤ m.w
    rw [hpos]
    exact Nat.zero_le _

/-- A frame at the front of a ring that has not wrapped is handed over in place: what
follows it in the ring follows it in memory. -/
theorem parseIter_in_place {c : Nat} (hc : c < 2 ^ 31) {R : Ring UInt8 c} (hw : R.r ≤ R.w) {f t : Bytes}
    (hR : R.contents = f ++ t) (hf : nbFraming.IsFrame f) :
    ∃ mem R', parseIter (ringBuffer c) 0 R = .deliver (.of mem) R' ∧ R.contents <+: mem := by
  have h8 : 8 ≤ f.length := hf.hdrLen_le
  have hlen : R.unread = f.length + t.length := by
    rw [← Ring.length_contents, hR, List.length_append]
  have hcontig : R.contig = R.unread := by
    rw [Marks.contig, Marks.unread, if_pos hw, if_pos hw]
  have hcap := R.unread_le
  have hn : (msgLen (MsgHdr.decode R.contents)).toNat = f.length := by
    have hlt : f.length < 2 ^ 32 := by
      omega
    rw [hR, MsgHdr.decode_append h8, msgLen_eq_announced h8 (by rw [hf]; exact hlt), hf]
  have hfetch : (ringBuffer c).fetch R sizeofMsgHdr = some (R.contents.take sizeofMsgHdr) :=
    if_pos (show 8 ≤ R.unread by omega)
  have hdec : MsgHdr.decode (R.contents.take sizeofMsgHdr) = MsgHdr.decode R.contents :=
    MsgHdr.decode_take (by rw [Ring.length_contents]; omega) (Nat.le_refl 8)
  have hle : f.length ≤ R.contig := by omega
  have hfc : (ringBuffer c).readerFc R f.length =
      some (segment R.mem R.r (c - R.r)) := if_pos hle
  obtain ⟨R', hmove⟩ : ∃ R', (ringBuffer c).readerMove R f.length = some R' := ⟨_, dif_pos hle⟩
  refine ⟨segment R.mem R.r (c - R.r), R', ?_, ?_⟩
  · have hread : ¬ UInt32.ofNat ((ringBuffer c).readable R) < msgLen (MsgHdr.decode R.contents) := by
      rw [readable_lt_iff (ringBuffer_fifo hc), hn, Ring.length_contents]
      omega
    unfold parseIter
    rw [hfetch]
    dsimp only
    rw [hdec, tooLong_zero, if_neg Bool.false_ne_true, if_neg hread, hn, hfc]
    dsimp only
    rw [hmove]
  · have hfit : R.contig ≤ c - R.r := by
      have := Ring.r_add_contig_le R.toMarks
      omega
    have htake := Ring.contents_take_of_contig R (Nat.le_refl R.contig)
    rw [hcontig, ← Ring.length_contents, List.take_length, Ring.length_contents, ← hcontig,
      ← take_segment R.mem R.r _ _ hfit] at htake
    rw [htake]
    exact List.take_prefix _ _

/-- The record of the frame `f` when `r` follows it in memory. -/
def keyFollowedBy (f r : Bytes) : MsgKey :=
  { keyOf (f ++ r) with msgSize := UInt32.ofNat f.length }

theorem key_of_mem {f r mem : Bytes} (hf : nbFraming.IsFrame f) (hlt : f.length < 2 ^ 31)
    (h16 : 16 ≤ (f ++ r).length) (hp : f ++ r <+: mem) :
    (Callback.of mem).key = keyFollowedBy f r := by
  have hd := delivered_of hf hlt ((List.prefix_append f r).trans hp)
  obtain ⟨t, rfl⟩ := hp
  have hdata : MsgData.decode (Callback.of (f ++ r ++ t)).data =
      MsgData.decode ((f ++ r).drop sizeofMsgHdr) := by
    rw [Callback.data, Callback.of, List.drop_append_of_le_length (show 8 ≤ (f ++ r).length by omega)]
    exact MsgData.decode_append (by rw [List.length_drop]; show 8 ≤ _ - 8; omega) t
  rw [Callback.key, keyFollowedBy, keyOf, hdata, hd.msgSize]

/-- A frame and what follows it in one read. -/
structure InOneRead (f r : Bytes) : Prop where
  isFrame : nbFraming.IsFrame f
  ge : 16 ≤ (f ++ r).length
  le : (f ++ r).length ≤ netBenchTcpRecvUnitSize
  headers : HeadersOk (f ++ r)

/-- The read of both. -/
def InOneRead.chunk {f r : Bytes} (h : InOneRead f r) : Chunk where
  bytes := f ++ r
  ne_nil hnil := absurd h.ge (by rw [hnil]; decide)
  le := h.le

/-- The loops of the session on it: the frame is handed over with `r` behind it. -/
theorem InOneRead.loops {f r : Bytes} (h : InOneRead f r) (mem : Nat → UInt8) :
    ∃ (R R' : Ring UInt8 netBenchTcpBufSize) (m : Callback) (e : ReadEnd),
      readIter sessionRing (emptyRing _ mem) (some h.chunk) = .next R ∧
      e ≠ .fault ∧ readIter sessionRing R none = .stop R e ∧
      parseIter sessionRing 0 R = .deliver m R' ∧ m.key = keyFollowedBy f r := by
  obtain ⟨R, hread, hR, hw⟩ := readIter_emptyRing mem h.chunk
  have hR : R.contents = f ++ r := hR
  obtain ⟨m, R', hit, hpre⟩ := parseIter_in_place (show netBenchTcpBufSize < 2 ^ 31 by decide)
    hw hR h.isFrame
  have hlt : f.length < 2 ^ 31 := by
    have hle := h.le
    have hunit : netBenchTcpRecvUnitSize < 2 ^ 31 := by decide
    rw [List.length_append] at hle
    omega
  have hkey := key_of_mem h.isFrame hlt h.ge (hR ▸ hpre)
  rcases readIter_cases sessionRing_fifo R none with ⟨_, _, hnone, _⟩ | ⟨_, hend⟩ | ⟨_, hend⟩
  · cases hnone
  · exact ⟨R, R', _, .drained, hread, (fun he => nomatch he), hend, hit, hkey⟩
  · exact ⟨R, R', _, .full, hread, (fun he => nomatch he), hend, hit, hkey⟩

/-- One read that succeeds, one that does not, and the read loop is left: in every program
whose steps work on the read loop's part `view` of the state and keep the part `keep`. -/
theorem run_read {β S E κ : Type} {B : BytesBuffer β} {Step : S → E → S → Prop}
    {view : S → ReadState β} {keep : S → κ} {read : Option Chunk → E}
    (hstep : ∀ {s : S} {c : Nat} {ses : NbTcpSession β} (r : Option Chunk),
      (view s).phase = .reading c → (view s).session c = some ses →
      ∃ s', Step s (read r) s' ∧ view s' = (view s).readOne B c ses r ∧ keep s' = keep s)
    {s : S} {c : Nat} {ses : NbTcpSession β} {b : β} (hp : (view s).phase = .reading c)
    (hses : (view s).session c = some ses) {ck : Chunk} {e : ReadEnd}
    (hread : readIter B ses.bytesBuf (some ck) = .next b) (he : e ≠ .fault)
    (hend : readIter B b none = .stop b e) :
    ∃ s', Run Step s [read (some ck), read none] s' ∧
      view s' = { (view s).setBuf c ses b with
        phase := .parsing c, got := Function.update (view s).got c ((view s).got c ++ ck.bytes) } ∧
      keep s' = keep s := by
  obtain ⟨s₁, h₁, hview₁, hkeep₁⟩ := hstep (some ck) hp hses
  rw [ReadState.readOne_next hread] at hview₁
  have hses₁ : (view s₁).session c = some { ses with bytesBuf := b } := by
    rw [hview₁]
    exact Function.update_self ..
  obtain ⟨s₂, h₂, hview₂, hkeep₂⟩ := hstep none (by rw [hview₁]; exact hp) hses₁
  rw [ReadState.readOne_stop he hend, hview₁] at hview₂
  simp only [ReadState.setBuf, Function.update_idem] at hview₂ ⊢
  exact ⟨s₂, .cons h₁ (.single h₂), hview₂, hkeep₂.trans hkeep₁⟩

/-- What a handler makes of the first message of a context. -/
def firstEvents (c : Nat) (m : Callback) (x : Action) : List Ev :=
  nbAssert c .msgId (decide (m.hdr.msgId = 1)) ++ [.record c (m.key.record x)]

theorem key_mem_firstEvents (c : Nat) (m : Callback) (x : Action) :
    m.key ∈ recordsOn x (firstEvents c m x) c := by
  rw [firstEvents, recordsOn_append, recordsOn_nbAssert, List.nil_append]
  simp [recordsOn, Ev.recordOn]

theorem TcpServer.step_read {β : Type} {B : BytesBuffer β} (b₀ : β) {s : TcpServer β} {c : Nat}
    {ses : NbTcpSession β} (r : Option Chunk) (hp : s.readState.phase = .reading c)
    (hses : s.readState.session c = some ses) :
    ∃ s', Step B b₀ s (.read r) s' ∧ s'.readState = s.readState.readOne B c ses r ∧
      (s'.log, s'.connCtx, s'.accepted) = (s.log, s.connCtx, s.accepted) := by
  refine ⟨_, .read hp hses, readState_readOne B s c ses r, ?_⟩
  unfold readOne
  split
  · rfl
  · rfl
  · rfl

theorem TcpServer.log_parseOne {β : Type} {B : BytesBuffer β} {s : TcpServer β} {c : Nat}
    {ses : NbTcpSession β} {m : Callback} {b : β} {w : WriteOutcome}
    (hit : parseIter B ses.msgLenLimit ses.bytesBuf = .deliver m b) :
    (parseOne B c ses w s).log = (handleMessage c m w s).log := by
  simp only [parseOne, hit]
  rfl

theorem TcpUpstream.step_read {β : Type} {B : BytesBuffer β} (b₀ : β) {s : TcpUpstream β}
    {c : Nat} {ses : NbTcpSession β} (r : Option Chunk) (hp : s.readState.phase = .reading c)
    (hses : s.readState.session c = some ses) :
    ∃ s', Step B b₀ s (.read r) s' ∧ s'.readState = s.readState.readOne B c ses r ∧
      s'.log = s.log := by
  refine ⟨_, .read hp hses, readState_readOne B s c ses r, ?_⟩
  unfold readOne
  split
  · rfl
  · rfl
  · rfl

theorem TcpUpstream.log_parseOne {β : Type} {B : BytesBuffer β} {s : TcpUpstream β} {c : Nat}
    {ses : NbTcpSession β} {m : Callback} {b : β}
    (hit : parseIter B ses.msgLenLimit ses.bytesBuf = .deliver m b) :
    (parseOne B c ses s).log = (handleMessage c m s).log := by
  simp only [parseOne, hit]
  rfl

/-- The server after a client has connected to it. -/
def TcpServer.oneClient {β : Type} (b₀ : β) : TcpServer β :=
  onConnect b₀ 2 true { start with loop := startLoop.accept, accepted := [2] }

/-- The server records such a frame when it is the first one of a client. -/
theorem InOneRead.server {f r : Bytes} (h : InOneRead f r) (mem : Nat → UInt8) :
    TcpServer.RecordsAt 0 (f ++ r) (keyFollowedBy f r) := by
  obtain ⟨R, R', m, e, hread, he, hend, hit, hkey⟩ := h.loops mem
  have h₁ : TcpServer.Step sessionRing (emptyRing _ mem) .start (.connect true)
      (.oneClient (emptyRing _ mem)) := .connect rfl
  have h₂ : TcpServer.Step sessionRing (emptyRing _ mem) (.oneClient (emptyRing _ mem)) (.message 2)
      { TcpServer.oneClient (emptyRing _ mem) with phase := .reading 2 } :=
    .message rfl (show 2 ∈ [2] from List.mem_cons_self) rfl
  obtain ⟨s, hrun, hview, hkeep⟩ := run_read (TcpServer.step_read (emptyRing _ mem))
    (s := { TcpServer.oneClient (emptyRing _ mem) with phase := .reading 2 }) (c := 2) rfl rfl
    hread he hend
  obtain ⟨hlog, hrest⟩ := Prod.mk.inj hkeep
  obtain ⟨hconn, hacc⟩ := Prod.mk.inj hrest
  have hacc : s.accepted = [2] := hacc
  have hp : s.phase = .parsing 2 := congrArg ReadState.phase hview
  have hses : s.session 2 = some { nbTcpSessionNew R with role := .client } :=
    congrArg (fun x => x.session 2) hview
  have hgot : s.got 2 = f ++ r := congrArg (fun x => x.got 2) hview
  have hlog' : (TcpServer.parseOne sessionRing 2 { nbTcpSessionNew R with role := .client } .error
      s).log = s.log ++ firstEvents 2 m .serverRcv := by
    rw [TcpServer.log_parseOne hit, TcpServer.handleMessage_client hses rfl,
      TcpServer.relay_none (s := TcpServer.asserted 2 m s) hconn]
    exact List.append_assoc ..
  refine ⟨_, sessionRing, Ring.contents, _, emptyRing _ mem, sessionRing_fifo, rfl, _, s,
    .parse .error, _, _, 2, .serverRcv, .cons h₁ (.cons h₂ hrun), ?_, .parse hp hses, hlog',
    hgot, ?_, hkey ▸ key_mem_firstEvents 2 m .serverRcv⟩
  · intro c hc
    obtain rfl : c = 2 := List.mem_singleton.mp (hacc ▸ hc)
    rw [hgot]
    exact h.headers
  · rw [show s.log = [] from hlog]
    rfl

/-- The upstream after the server has connected to it. -/
def TcpUpstream.oneServer {β : Type} (b₀ : β) : TcpUpstream β :=
  onConnect b₀ 1 true { start with loop := EventLoop.one.accept }

/-- So does the upstream. -/
theorem InOneRead.upstream {f r : Bytes} (h : InOneRead f r) (mem : Nat → UInt8) :
    TcpUpstream.RecordsAt 0 (f ++ r) (keyFollowedBy f r) := by
  obtain ⟨R, R', m, e, hread, he, hend, hit, hkey⟩ := h.loops mem
  have h₁ : TcpUpstream.Step sessionRing (emptyRing _ mem) .start (.connect true)
      (.oneServer (emptyRing _ mem)) := .connect rfl
  have h₂ : TcpUpstream.Step sessionRing (emptyRing _ mem) (.oneServer (emptyRing _ mem))
      (.message 1) { TcpUpstream.oneServer (emptyRing _ mem) with phase := .reading 1 } :=
    .message rfl (show 1 ∈ [1] from List.mem_cons_self) rfl
  obtain ⟨s, hrun, hview, hlog⟩ := run_read (TcpUpstream.step_read (emptyRing _ mem))
    (s := { TcpUpstream.oneServer (emptyRing _ mem) with phase := .reading 1 }) (c := 1) rfl rfl
    hread he hend
  have hp : s.phase = .parsing 1 := congrArg ReadState.phase hview
  have hses : s.session 1 = some (nbTcpSessionNew R) := congrArg (fun x => x.session 1) hview
  have hgot : s.got = Function.update (fun _ => []) 1 (f ++ r) := congrArg ReadState.got hview
  have hgotAt : ∀ c, s.got c = if c = 1 then f ++ r else [] := by
    intro c
    rw [hgot]
    by_cases hc : c = 1
    · rw [hc, Function.update_self, if_pos rfl]
    · rw [Function.update_of_ne hc, if_neg hc]
  have hlog' : (TcpUpstream.parseOne sessionRing 1 (nbTcpSessionNew R) s).log =
      s.log ++ firstEvents 1 m .upstreamRcv := TcpUpstream.log_parseOne hit
  refine ⟨_, sessionRing, Ring.contents, _, emptyRing _ mem, sessionRing_fifo, rfl, _, s,
    .parse, _, _, 1, .upstreamRcv, .cons h₁ (.cons h₂ hrun), ?_, .parse hp hses, hlog',
    (hgotAt 1).trans (if_pos rfl), ?_, hkey ▸ key_mem_firstEvents 1 m .upstreamRcv⟩
  · intro c
    rw [hgotAt]
    split
    · exact h.headers
    · exact Framing.headersIn_nil
  · rw [show s.log = [] from hlog]
    rfl

/-! ## Two runs -/

/-- Eight equal bytes. -/
def eightBytes (x : UInt8) : Bytes := List.replicate 8 x

/-- The last byte of the data is one of those behind a short frame. -/
theorem keyFollowedBy_ne {f : Bytes} (h8 : 8 ≤ f.length) (h16 : f.length < 16) :
    keyFollowedBy f (eightBytes 0) ≠ keyFollowedBy f (eightBytes 1) := by
  intro heq
  have hseq : leU32 ((f ++ eightBytes 0).drop 12) = leU32 ((f ++ eightBytes 1).drop 12) := by
    have := congrArg MsgKey.id heq
    simpa [keyFollowedBy, keyOf, MsgData.decode, List.drop_drop] using this
  have hlast : ∀ x : UInt8, ((f ++ eightBytes x).drop 12).getD 3 0 = x := by
    intro x
    rw [List.getD_eq_getElem?_getD, List.getElem?_drop, List.getElem?_append_right (by omega),
      eightBytes, List.getElem?_replicate, if_pos (by omega)]
    rfl
  simp only [leU32, hlast, ← UInt32.toNat_inj, UInt32.toNat_ofNat'] at hseq
  have hbyte : ∀ x : UInt8, x.toNat < 256 := fun x => x.toNat_lt
  have h₀ := hbyte (((f ++ eightBytes 0).drop 12).getD 0 0)
  have h₁ := hbyte (((f ++ eightBytes 0).drop 12).getD 1 0)
  have h₂ := hbyte (((f ++ eightBytes 0).drop 12).getD 2 0)
  have h₃ := hbyte (((f ++ eightBytes 1).drop 12).getD 0 0)
  have h₄ := hbyte (((f ++ eightBytes 1).drop 12).getD 1 0)
  have h₅ := hbyte (((f ++ eightBytes 1).drop 12).getD 2 0)
  have hzero : (0 : UInt8).toNat = 0 := rfl
  have hone : (1 : UInt8).toNat = 1 := rfl
  omega

/-- With eight equal bytes behind it a short frame is read at once. -/
theorem inOneRead_of_short {f : Bytes} (hf : nbFraming.IsFrame f) (h16 : f.length < 16) {x : UInt8}
    (hx : HeadersOk (eightBytes x)) : InOneRead f (eightBytes x) := by
  have h8 : 8 ≤ f.length := hf.hdrLen_le
  have hlen : (f ++ eightBytes x).length = f.length + 8 := by
    rw [List.length_append, eightBytes, List.length_replicate]
  have hunit : 24 ≤ netBenchTcpRecvUnitSize := by decide
  exact ⟨hf, by omega, by omega, Framing.HeadersIn.cons hf (by omega) hx⟩

/-- A frame with room for the data determines its records. -/
theorem localTo_of_key_eq {f : Bytes} {R : Nat → Bytes → MsgKey → Prop}
    (h : ∀ {fs : List Bytes} {got : Bytes} {key : MsgKey}, R fs.length got key →
      (∀ g ∈ fs, nbFraming.IsFrame g) → fs.flatten ++ f <+: got → key = keyOf f) :
    LocalTo f R := by
  intro fs got₁ got₂ key₁ key₂ hfs hp₁ hp₂ h₁ h₂
  exact (h h₁ hfs hp₁).trans (h h₂ hfs hp₂).symm

/-- The bytes behind a short frame show in its record. -/
theorem not_localTo {f : Bytes} {R : Nat → Bytes → MsgKey → Prop} (h8 : 8 ≤ f.length)
    (h16 : f.length < 16) (h₀ : R 0 (f ++ eightBytes 0) (keyFollowedBy f (eightBytes 0)))
    (h₁ : R 0 (f ++ eightBytes 1) (keyFollowedBy f (eightBytes 1))) : ¬ LocalTo f R := by
  intro h
  exact keyFollowedBy_ne h8 h16
    (h [] _ _ _ _ (fun _ hg => nomatch hg) (List.prefix_append _ _) (List.prefix_append _ _) h₀ h₁)

/-- The records that the server and the upstream make for a frame depend on nothing behind
it exactly if it has room for the data. -/
theorem records_of_frame_iff {f : Bytes} (hf : nbFraming.IsFrame f) :
    (LocalTo f TcpServer.RecordsAt ↔ 16 ≤ f.length) ∧
    (LocalTo f TcpUpstream.RecordsAt ↔ 16 ≤ f.length) := by
  have h8 : 8 ≤ f.length := hf.hdrLen_le
  constructor
  · constructor
    · intro h
      by_contra h16
      exact not_localTo h8 (by omega)
        ((inOneRead_of_short hf (by omega) (by decide)).server fun _ => 0)
        ((inOneRead_of_short hf (by omega) (by decide)).server fun _ => 0) h
    · intro h16
      exact localTo_of_key_eq fun h hfs hp => h.key_eq hfs hf hp h16
  · constructor
    · intro h
      by_contra h16
      exact not_localTo h8 (by omega)
        ((inOneRead_of_short hf (by omega) (by decide)).upstream fun _ => 0)
        ((inOneRead_of_short hf (by omega) (by decide)).upstream fun _ => 0) h
    · intro h16
      exact localTo_of_key_eq fun h hfs hp => h.key_eq hfs hf hp h16

/-- A header alone, the frame of an empty payload. -/
def emptyMessage : Bytes := (MsgHdr.mk 1 0).encode

/-- The record of it takes its fields from the next frame. -/
theorem records_of_empty_message :
    TcpServer.RecordsAt 0 (emptyMessage ++ eightBytes 0) ⟨0, 0, 8⟩ ∧
    TcpServer.RecordsAt 0 (emptyMessage ++ eightBytes 1) ⟨16843009, 16843009, 8⟩ ∧
    TcpUpstream.RecordsAt 0 (emptyMessage ++ eightBytes 0) ⟨0, 0, 8⟩ ∧
    TcpUpstream.RecordsAt 0 (emptyMessage ++ eightBytes 1) ⟨16843009, 16843009, 8⟩ := by
  have h₀ : InOneRead emptyMessage (eightBytes 0) :=
    inOneRead_of_short (by decide) (by decide) (by decide)
  have h₁ : InOneRead emptyMessage (eightBytes 1) :=
    inOneRead_of_short (by decide) (by decide) (by decide)
  have hk₀ : keyFollowedBy emptyMessage (eightBytes 0) = ⟨0, 0, 8⟩ := by decide
  have hk₁ : keyFollowedBy emptyMessage (eightBytes 1) = ⟨16843009, 16843009, 8⟩ := by decide
  exact ⟨hk₀ ▸ h₀.server fun _ => 0, hk₁ ▸ h₁.server fun _ => 0, hk₀ ▸ h₀.upstream fun _ => 0,
    hk₁ ▸ h₁.upstream fun _ => 0⟩

/-- A message of a client has room for the data. -/
theorem records_of_client_message :
    LocalTo TcpServer.clientMessage TcpServer.RecordsAt ∧
    LocalTo TcpServer.clientMessage TcpUpstream.RecordsAt := by
  obtain ⟨hserver, hupstream⟩ :=
    records_of_frame_iff (show nbFraming.IsFrame TcpServer.clientMessage by decide)
  exact ⟨hserver.mpr (by decide), hupstream.mpr (by decide)⟩

end NetBench

/-
# `NetBench.Wedge` — when a session gets stuck in a full buffer

`nb_tcp_session_new` installs no length limit.  A message that does not fit the
ring is then neither delivered nor rejected: the session waits for its rest,
`writer_fc` has no room for another unit, and every later invocation finds the
same buffer (`wedged_stays`).

With unit `U` and capacity `c`, no session is ever stuck as long as no header
announces more than `c - 2U + 1` bytes (`canTakeInput_of_headers`).  That holds
for every buffer that finds a unit in one piece whenever two are free.  The ring
is one: its writer jumps only when less than `U` bytes are left behind it, so at
most `U - 1` bytes at the end are lost, and as much must stay free in front of
the reader.  On the ring the bound is exact (`never_wedged_iff`).
-/
import NetBench.Deframe

namespace NetBench

open Lib

/-! ## Positions from which a unit can be written -/

section Marks

variable {c : Nat}

/-- The wrapped reader sees a truncation mark less than `k` away from the end. -/
def Lib.Marks.Tight (k : Nat) (m : Marks c) : Prop := m.w < m.r → c < m.t + k

theorem Lib.Marks.tight_empty (k : Nat) : (Marks.empty c).Tight k :=
  fun h => absurd h (Nat.lt_irrefl 0)

/-- The writer jumps only when fewer than `k` bytes are left behind it. -/
theorem Lib.Marks.Tight.writerMove {k p n : Nat} {m m' : Marks c} (h : m.Tight k)
    (hp : m.writerFc k = some p) (hm : m.writerMove p n = some m') : m'.Tight k := by
  have hok := m.ok
  unfold Marks.writerFc at hp
  unfold Marks.writerMove at hm
  split at hm
  · rename_i hat
    cases hm
    intro hlt
    exact h (by dsimp only at hlt; omega)
  · split at hm
    · rename_i hat hj
      cases hm
      intro _
      dsimp only
      split at hp
      · rename_i hroom
        cases hp
        omega
      · rename_i hroom
        simp only [Marks.room, if_pos hj.2.1] at hroom
        split at hroom <;> omega
    · cases hm

theorem Lib.Marks.Tight.skip {k n : Nat} {m : Marks c} (h : m.Tight k) (hn : n ≤ m.unread) :
    (m.skip n hn).Tight k := by
  have hok := m.ok
  have hn' := hn
  unfold Marks.skip
  split
  · -- still unwrapped
    rename_i hw
    intro hlt
    simp only [Marks.unread, if_pos hw] at hn'
    dsimp only at hlt
    omega
  · split
    · -- the reader went around: unwrapped again
      rename_i hw _
      intro hlt
      simp only [Marks.unread, if_neg hw] at hn'
      dsimp only at hlt
      omega
    · intro _
      exact h (by omega)

/-- With at least `2k` bytes of the ring free there is room for `k` in one piece. -/
theorem Lib.Marks.Tight.room {k : Nat} {m : Marks c} (h : m.Tight k) (hk : 0 < k)
    (hfree : m.unread + 2 * k ≤ c) : (m.writerFc k).isSome := by
  have hok := m.ok
  unfold Marks.writerFc
  by_cases hw : m.r ≤ m.w
  · simp only [Marks.unread, if_pos hw] at hfree
    by_cases hroom : k ≤ m.room
    · simp [hroom]
    · have hj : k < m.r := by
        simp only [Marks.room, if_pos hw] at hroom
        split at hroom <;> omega
      simp [hroom, hw, hj]
  · have := h (by omega)
    simp only [Marks.unread, if_neg hw] at hfree
    have hroom : k ≤ m.room := by
      simp only [Marks.room, if_neg hw]
      omega
    simp [hroom]

end Marks

/-- The session's ring stays tight for the unit it reads. -/
theorem ringBuffer_keeps_tight (c : Nat) :
    (ringBuffer c).Keeps fun R => R.toMarks.Tight netBenchTcpRecvUnitSize where
  write {R p R' data} hR hp hm := by
    simp only [ringBuffer, Option.map_eq_some_iff] at hp hm
    obtain ⟨m', hm', rfl⟩ := hm
    exact hR.writerMove hp hm'
  readerMove {R k R'} hR h := by
    by_cases hk : k ≤ R.contig
    · simp only [ringBuffer, dif_pos hk, Option.some.injEq] at h
      exact h ▸ hR.skip (Nat.le_trans hk R.contig_le_unread)
    · simp [ringBuffer, dif_neg hk] at h
  read {R k m R'} hR h := by
    by_cases hk : k ≤ R.unread
    · simp only [ringBuffer, dif_pos hk, Option.some.injEq, Prod.mk.injEq] at h
      exact h.2 ▸ hR.skip hk
    · simp [ringBuffer, dif_neg hk] at h

/-! ## The session's buffer -/

/-- Whenever at least two units are free, one of them is free in one piece: a buffer
whose writer jumps loses less than a unit at the end of its memory.  `I` are the
states that the session's operations reach. -/
structure BytesBuffer.Roomy {β : Type} (B : BytesBuffer β) (contents : β → Bytes) (cap : Nat)
    (I : β → Prop) : Prop where
  keeps : B.Keeps I
  room : ∀ {b}, I b → (contents b).length + 2 * netBenchTcpRecvUnitSize ≤ cap →
    (B.writerFc b netBenchTcpRecvUnitSize).isSome

theorem ringBuffer_roomy (c : Nat) :
    (ringBuffer c).Roomy Ring.contents c fun R => R.toMarks.Tight netBenchTcpRecvUnitSize where
  keeps := ringBuffer_keeps_tight c
  room {R} hR hfree := hR.room (by decide) (by rw [← Ring.length_contents]; exact hfree)

/-- The ring of `nb_tcp_session_new`. -/
abbrev sessionRing : BytesBuffer (Ring UInt8 netBenchTcpBufSize) := ringBuffer netBenchTcpBufSize

theorem sessionRing_fifo : sessionRing.Fifo Ring.contents netBenchTcpBufSize :=
  ringBuffer_fifo (by decide)

/-- The session can take input: `writer_fc` succeeds for one unit. -/
def CanTakeInput {β : Type} (B : BytesBuffer β) (f : Feed β) : Prop :=
  (B.writerFc f.session.bytesBuf netBenchTcpRecvUnitSize).isSome

/-- The largest announced length with which no session gets stuck. -/
def maxSafeLen : Nat := netBenchTcpBufSize - 2 * netBenchTcpRecvUnitSize + 1

/-- An invocation keeps what everything done to the buffer keeps. -/
theorem Invoke.keeps {β : Type} {B : BytesBuffer β} {contents : β → Bytes} {cap : Nat}
    {I : β → Prop} (hB : B.Fifo contents cap) (hI : B.Keeps I) {f f' : Feed β}
    {cks : List Chunk} (hf : I f.session.bytesBuf) (h : Invoke B f cks f') :
    I f'.session.bytesBuf := by
  obtain ⟨fuel, r, hr, rfl⟩ := h
  rw [nbTcpSessionOnMsg_eq B (readLoop_spec hB cks _).2.2, Option.map_eq_some_iff] at hr
  obtain ⟨⟨b', s', shut⟩, hp, rfl⟩ := hr
  exact parseLoop_keeps hB hI _ fuel (readLoop_keeps hB hI cks hf) hp

/-- What a session keeps is a proper part of one frame. -/
theorem Feed.Deframed.length_lt {β : Type} {contents : β → Bytes} {f : Feed β} {fs : List Bytes}
    (hd : f.Deframed contents fs) {n : Nat} (h8 : 8 ≤ n) (hlen : nbFraming.HeadersIn (· ≤ n) f.got) :
    (contents f.session.bytesBuf).length < n := by
  by_cases hhdr : (contents f.session.bytesBuf).length < 8
  · exact Nat.lt_of_lt_of_le hhdr h8
  · have hle : 8 ≤ (contents f.session.bytesBuf).length := Nat.le_of_not_lt hhdr
    have hann := hlen _ _ hd.splits.toReaches hle
    rcases hd.splits.short with hs | hs
    · exact absurd hs (Nat.not_lt_of_le hle)
    · exact Nat.lt_of_lt_of_le hs hann

/-- In any run that starts with a buffer as roomy as that ring, the session can take
input after every invocation as long as no header announces more than `maxSafeLen` bytes. -/
theorem canTakeInput_of_headers {β : Type} {B : BytesBuffer β} {contents : β → Bytes}
    {I : β → Prop} (hB : B.Fifo contents netBenchTcpBufSize)
    (hR : B.Roomy contents netBenchTcpBufSize I) {b₀ : β} (h₀ : contents b₀ = []) (hI : I b₀)
    {invs : List (List Chunk)} {f : Feed β} (hrun : Run (Invoke B) (Feed.fresh b₀) invs f)
    (hlen : nbFraming.HeadersIn (· ≤ maxSafeLen) f.got) : f.shut = false ∧ CanTakeInput B f := by
  have hok : HeadersOk f.got := fun fs t ht h8 =>
    Nat.lt_of_le_of_lt (hlen fs t ht h8) (by decide)
  have hIf : I f.session.bytesBuf :=
    hrun.invariant (I := fun f => I f.session.bytesBuf)
      (fun _ _ _ hf h => Invoke.keeps hB hR.keeps hf h) hI
  obtain ⟨fs, hd⟩ := deframed_of_run hB (Feed.deframed_fresh h₀) hrun hok
  have hshort := hd.length_lt (by decide) hlen
  refine ⟨hd.open_, hR.room hIf ?_⟩
  simp only [maxSafeLen, netBenchTcpBufSize, netBenchTcpRecvUnitSize] at hshort ⊢
  omega

/-! ## Getting stuck -/

/-- A read of one full unit. -/
def unitChunk (bytes : Bytes) (h : bytes.length = netBenchTcpRecvUnitSize) : Chunk where
  bytes := bytes
  ne_nil := by rintro rfl; cases h
  le := Nat.le_of_eq h

/-- A header and enough zero bytes to fill one unit. -/
def headerUnit (payloadLen : UInt32) : Chunk :=
  unitChunk ((MsgHdr.mk 1 payloadLen).encode ++ List.replicate (netBenchTcpRecvUnitSize - 8) 0)
    (by rw [List.length_append, MsgHdr.length_encode, List.length_replicate]; rfl)

/-- One unit of zero bytes. -/
def zeroUnit : Chunk :=
  unitChunk (List.replicate netBenchTcpRecvUnitSize 0) (List.length_replicate ..)

/-- Units are read one behind the other as long as another one fits. -/
theorem readLoop_units : ∀ (cks rest : List Chunk) (R : Ring UInt8 netBenchTcpBufSize),
    (∀ ck ∈ cks, ck.bytes.length = netBenchTcpRecvUnitSize) → R.r ≤ R.w →
    R.w + cks.length * netBenchTcpRecvUnitSize < netBenchTcpBufSize →
    ∃ R', readLoop sessionRing R (cks ++ rest) =
        ⟨(readLoop sessionRing R' rest).buf, chunkBytes cks ++ (readLoop sessionRing R' rest).got,
          (readLoop sessionRing R' rest).stop⟩ ∧
      R'.r = R.r ∧ R'.w = R.w + cks.length * netBenchTcpRecvUnitSize ∧
      R'.contents = R.contents ++ chunkBytes cks
  | [], rest, R, _, _, _ => ⟨R, rfl, rfl, by simp, by simp [chunkBytes]⟩
  | ck :: cks, rest, R, hlen, hw, hfit => by
      have hck : ck.bytes.length = netBenchTcpRecvUnitSize := hlen ck List.mem_cons_self
      simp only [List.length_cons, Nat.add_one_mul] at hfit
      have hroom : netBenchTcpRecvUnitSize ≤ R.room := by
        simp only [Marks.room, if_pos hw]
        split <;> omega
      have hp : R.writerFc netBenchTcpRecvUnitSize = some R.w := if_pos hroom
      obtain ⟨m', hm', hcont⟩ := Ring.contents_store hp ck.le
      have hpos : m'.r = R.r ∧ m'.w = R.w + netBenchTcpRecvUnitSize := by
        rw [Marks.writerMove, dif_pos ⟨rfl, Nat.le_trans ck.le hroom⟩] at hm'
        cases hm'
        exact ⟨rfl, congrArg (R.w + ·) hck⟩
      obtain ⟨R', hread, hr, hw', hcont'⟩ := readLoop_units cks rest
        ⟨m', storeAt R.mem R.w ck.bytes⟩ (fun x hx => hlen x (List.mem_cons_of_mem _ hx))
        (by dsimp only; omega) (by dsimp only; omega)
      have hit : readIter sessionRing R (some ck) =
          .next ⟨m', storeAt R.mem R.w ck.bytes⟩ := by
        simp only [readIter, ringBuffer, hp, hm', Option.map_some]
      refine ⟨R', ?_, hr.trans hpos.1, ?_, ?_⟩
      · simp only [List.cons_append, readLoop, hit, hread]
        simp [chunkBytes]
      · rw [hw', hpos.2, List.length_cons, Nat.add_one_mul]
        omega
      · rw [hcont', hcont]
        simp [chunkBytes]

/-- The parse loop leaves an incomplete frame alone. -/
theorem parseLoop_of_short {β σ : Type} {B : BytesBuffer β} {contents : β → Bytes} {cap : Nat}
    (hB : B.Fifo contents cap) (cb : σ → Callback → σ) {b : β} (hok : HeadersOk (contents b))
    (hs : nbFraming.Short (contents b)) (fuel : Nat) (s : σ) :
    parseLoop B 0 cb (fuel + 1) b s = some (b, s, false) := by
  rcases parseIter_of_headersOk hB hok with ⟨_, hit⟩ | ⟨f, mem, b', heq, hf, _, _⟩
  · simp [parseLoop, hit]
  · have hpre : f <+: contents b := ⟨_, heq.symm⟩
    exfalso
    have hann := Framing.announced_congr hf.hdrLen_le hpre
    have hle := hpre.length_le
    have := hf.hdrLen_le
    rcases hs with hs | hs
    · omega
    · rw [← hann, hf] at hs; omega

/-- An invocation, from what its two loops do. -/
theorem Invoke.of_loops {f : Feed (Ring UInt8 netBenchTcpBufSize)} {cks : List Chunk}
    {R R' : Ring UInt8 netBenchTcpBufSize} {got : Bytes} {stop : ReadEnd} {fuel : Nat}
    {calls : List Callback} {shut : Bool}
    (hread : readLoop sessionRing f.session.bytesBuf cks = ⟨R, got, stop⟩)
    (hp : parseLoop sessionRing f.session.msgLenLimit (fun calls m => calls ++ [m]) fuel R f.calls
      = some (R', calls, shut)) :
    Invoke sessionRing f cks
      ⟨{ f.session with bytesBuf := R' }, calls, f.got ++ got, f.shut || shut⟩ := by
  have hstop := (readLoop_spec sessionRing_fifo cks f.session.bytesBuf).2.2
  refine ⟨fuel, ⟨{ f.session with bytesBuf := R' }, calls, got, stop, shut⟩, ?_, rfl⟩
  rw [nbTcpSessionOnMsg_eq _ hstop, hread, hp]
  rfl

/-- An invocation that reads up to an incomplete frame stores what it read and
makes no callback. -/
theorem Invoke.of_short {f : Feed (Ring UInt8 netBenchTcpBufSize)} {cks : List Chunk}
    {R : Ring UInt8 netBenchTcpBufSize} {got : Bytes} {stop : ReadEnd}
    (hlim : f.session.msgLenLimit = 0)
    (hread : readLoop sessionRing f.session.bytesBuf cks = ⟨R, got, stop⟩)
    (hok : HeadersOk R.contents) (hs : nbFraming.Short R.contents) :
    Invoke sessionRing f cks
      ⟨{ f.session with bytesBuf := R }, f.calls, f.got ++ got, f.shut⟩ := by
  have hp := parseLoop_of_short sessionRing_fifo (fun (calls : List Callback) m => calls ++ [m])
    hok hs 0 f.calls
  rw [← hlim] at hp
  have h := Invoke.of_loops hread hp
  rwa [Bool.or_false] at h

/-- A header that announces more than is there. -/
theorem short_of_header {payloadLen : UInt32} {l rest : Bytes}
    (hl : l = (MsgHdr.mk 1 payloadLen).encode ++ rest)
    (hlt : l.length < 8 + payloadLen.toNat) :
    nbFraming.Short l ∧ nbFraming.announced l = 8 + payloadLen.toNat := by
  have h8 : 8 ≤ l.length := by rw [hl, List.length_append, MsgHdr.length_encode]; omega
  have hann : nbFraming.announced l = 8 + payloadLen.toNat := by
    rw [announced_eq h8, hl, MsgHdr.decode_encode]
  exact ⟨Or.inr (hann ▸ hlt), hann⟩

/-- `k` units, the first with a header. -/
def headerUnits (payloadLen : UInt32) (k : Nat) : List Chunk :=
  headerUnit payloadLen :: List.replicate k zeroUnit

theorem length_of_mem_headerUnits {payloadLen : UInt32} {k : Nat} {ck : Chunk}
    (h : ck ∈ headerUnits payloadLen k) : ck.bytes.length = netBenchTcpRecvUnitSize := by
  rcases List.mem_cons.mp h with rfl | h
  · show ((MsgHdr.mk 1 payloadLen).encode ++ List.replicate (netBenchTcpRecvUnitSize - 8) 0).length = _
    rw [List.length_append, MsgHdr.length_encode, List.length_replicate]
    rfl
  · rw [List.eq_of_mem_replicate h]
    exact List.length_replicate ..

theorem chunkBytes_headerUnits (payloadLen : UInt32) (k : Nat) :
    ∃ rest, chunkBytes (headerUnits payloadLen k) = (MsgHdr.mk 1 payloadLen).encode ++ rest := by
  refine ⟨List.replicate (netBenchTcpRecvUnitSize - 8) 0 ++
    chunkBytes (List.replicate k zeroUnit), ?_⟩
  rw [← List.append_assoc]
  rfl

theorem length_chunkBytes {cks : List Chunk} {n : Nat} (h : ∀ ck ∈ cks, ck.bytes.length = n) :
    (chunkBytes cks).length = cks.length * n := by
  induction cks with
  | nil => simp [chunkBytes]
  | cons ck cks ih =>
      have := ih fun x hx => h x (List.mem_cons_of_mem _ hx)
      simp only [chunkBytes, List.flatMap_cons, List.length_append, List.length_cons] at this ⊢
      rw [this, h ck List.mem_cons_self, Nat.add_one_mul, Nat.add_comm]

/-- A session that cannot take input and waits for the rest of a frame stays as it is. -/
theorem wedged_stays {f f' : Feed (Ring UInt8 netBenchTcpBufSize)} {cks : List Chunk}
    {fs : List Bytes} (hd : f.Deframed Ring.contents fs) (hok : HeadersOk f.got)
    (hw : ¬ CanTakeInput sessionRing f) (h : Invoke sessionRing f cks f') : f' = f := by
  obtain ⟨fuel, r, hr, rfl⟩ := h
  have hnone : sessionRing.writerFc f.session.bytesBuf netBenchTcpRecvUnitSize = none := by
    simpa [CanTakeInput] using hw
  have hread : readLoop sessionRing f.session.bytesBuf cks = ⟨f.session.bytesBuf, [], .full⟩ := by
    cases cks with
    | nil => simp only [readLoop, readIter, hnone]
    | cons ck cks => simp only [readLoop, readIter, hnone]
  have hpart : HeadersOk f.session.bytesBuf.contents :=
    Framing.HeadersIn.rest hok hd.splits.toReaches
  rw [nbTcpSessionOnMsg_eq _ (by rw [hread]; rintro ⟨⟩), hread, hd.limit,
    Option.map_eq_some_iff] at hr
  obtain ⟨⟨b', s', shut⟩, hp, rfl⟩ := hr
  cases fuel with
  | zero => cases hp
  | succ fuel =>
      rw [parseLoop_of_short sessionRing_fifo _ hpart hd.splits.short] at hp
      cases hp
      obtain ⟨⟨bytesBuf, limit, role⟩, calls, got, shut⟩ := f
      have hlim : limit = 0 := hd.limit
      simp [hlim]

/-- One message of 2 MiB, header included: 31 units arrive, then the session is stuck. -/
theorem wedged_by_large_message :
    ∃ f, Run (Invoke sessionRing) (Feed.fresh (emptyRing netBenchTcpBufSize fun _ => 0))
        [headerUnits 2097144 30] f ∧ f.shut = false ∧ ¬ CanTakeInput sessionRing f := by
  obtain ⟨R, hread, hr, hw, hcont⟩ := readLoop_units (headerUnits 2097144 30) []
    (emptyRing netBenchTcpBufSize fun _ => 0) (fun _ => length_of_mem_headerUnits)
    (Nat.le_refl 0) (by decide)
  have hr : R.r = 0 := hr
  have hw : R.w = 31 * netBenchTcpRecvUnitSize := hw.trans rfl
  have hnone : R.writerFc netBenchTcpRecvUnitSize = none := by
    simp only [Marks.writerFc, Marks.room, hr, hw]
    decide
  have hend : readLoop sessionRing R [] = ⟨R, [], .full⟩ := by
    simp only [readLoop, readIter, ringBuffer, hnone]
  rw [List.append_nil, hend] at hread
  obtain ⟨rest, hrest⟩ := chunkBytes_headerUnits 2097144 30
  have hlen : R.contents.length = 31 * netBenchTcpRecvUnitSize := by
    rw [hcont, contents_emptyRing, List.nil_append,
      length_chunkBytes fun _ => length_of_mem_headerUnits]
    rfl
  have hhdr : R.contents = (MsgHdr.mk 1 2097144).encode ++ rest := by
    rw [hcont, hrest, contents_emptyRing, List.nil_append]
  obtain ⟨hs, hann⟩ := short_of_header hhdr (by rw [hlen]; decide)
  have hok : HeadersOk R.contents := Framing.headersIn_of_short hs (by rw [hann]; decide)
  refine ⟨_, .single (Invoke.of_short rfl hread hok hs), rfl, ?_⟩
  simp [CanTakeInput, ringBuffer, hnone]

/-! ## The bound is exact -/

/-- On an unwrapped ring the parse loop consumes the one frame that it holds. -/
theorem parseLoop_ring_frame {σ : Type} (cb : σ → Callback → σ) {c : Nat} (hc : c < 2 ^ 31)
    {R : Ring UInt8 c} (hw : R.r ≤ R.w) (hf : nbFraming.IsFrame R.contents) (s : σ) :
    ∃ R' s', parseLoop (ringBuffer c) 0 cb 2 R s = some (R', s', false) ∧ R'.r = R.w ∧
      R'.w = R.w ∧ R'.contents = [] := by
  have hB := ringBuffer_fifo hc
  have hlen := Ring.length_contents R
  have h8 : 8 ≤ R.contents.length := hf.hdrLen_le
  have hfit : R.contents.length < 2 ^ 32 := by
    have := R.unread_le
    omega
  have hn : (msgLen (MsgHdr.decode R.contents)).toNat = R.contents.length := by
    rw [msgLen_eq_announced h8 (by rw [hf]; exact hfit), hf]
  have hcontig : R.contig = R.contents.length := by
    rw [hlen]
    simp only [Marks.contig, Marks.unread, if_pos hw]
  have hle : R.contents.length ≤ R.contig := Nat.le_of_eq hcontig.symm
  -- the in-place path, and a reader that catches up with the writer
  have hit : parseIter (ringBuffer c) 0 R = .deliver (.of (segment R.mem R.r (c - R.r)))
      ⟨R.skip R.contents.length (Nat.le_trans hle R.contig_le_unread), R.mem⟩ := by
    unfold parseIter
    simp only [hB.fetch_of_le h8, MsgHdr.decode_take h8 (Nat.le_refl 8), tooLong_zero,
      readable_lt_iff hB, hn, Nat.lt_irrefl, if_false, Bool.false_eq_true]
    simp only [ringBuffer, if_pos hle, dif_pos hle]
  have hnil : (⟨R.skip R.contents.length (Nat.le_trans hle R.contig_le_unread), R.mem⟩ :
      Ring UInt8 c).contents = [] := by
    rw [Ring.contents_skip, List.drop_length]
  have hstop := parseLoop_of_short hB cb (b := ⟨R.skip R.contents.length
    (Nat.le_trans hle R.contig_le_unread), R.mem⟩)
    (by rw [hnil]; exact Framing.headersIn_of_short Framing.short_nil (by decide))
    (by rw [hnil]; exact Framing.short_nil) 0 (cb s (.of (segment R.mem R.r (c - R.r))))
  refine ⟨_, _, by rw [parseLoop, hit]; exact hstop, ?_, ?_, hnil⟩
  · simp only [Marks.skip, dif_pos hw, hlen, Marks.unread, if_pos hw]
    omega
  · simp only [Marks.skip, dif_pos hw]

/-- A frame of exactly one unit moves the reader to the end of the first unit. -/
theorem invoke_unit_frame : ∃ f, Invoke sessionRing
      (Feed.fresh (emptyRing netBenchTcpBufSize fun _ => 0)) [headerUnit 65528] f ∧
    f.session.msgLenLimit = 0 ∧ f.shut = false ∧ nbFraming.IsFrame f.got ∧
    f.got.length = netBenchTcpRecvUnitSize ∧ f.session.bytesBuf.contents = [] ∧
    f.session.bytesBuf.r = netBenchTcpRecvUnitSize ∧
    f.session.bytesBuf.w = netBenchTcpRecvUnitSize := by
  obtain ⟨R, hread, hr, hw, hcont⟩ := readLoop_units [headerUnit 65528] []
    (emptyRing netBenchTcpBufSize fun _ => 0) (fun _ => length_of_mem_headerUnits (k := 0))
    (Nat.le_refl 0) (by decide)
  have hr : R.r = 0 := hr
  have hw : R.w = netBenchTcpRecvUnitSize := hw.trans rfl
  have hend : readLoop sessionRing R [] = ⟨R, [], .drained⟩ := by
    have hp : R.writerFc netBenchTcpRecvUnitSize = some R.w := by
      simp only [Marks.writerFc, Marks.room, hr, hw]
      decide
    simp only [readLoop, readIter, ringBuffer, hp]
  rw [hend] at hread
  have hgot : chunkBytes [headerUnit 65528] ++ [] = R.contents := by
    rw [List.append_nil, hcont, contents_emptyRing, List.nil_append]
  have hf : nbFraming.IsFrame R.contents := by
    rw [hcont, contents_emptyRing, List.nil_append]
    have hunit : chunkBytes [headerUnit 65528] =
        (MsgHdr.mk 1 65528).encode ++ List.replicate (netBenchTcpRecvUnitSize - 8) 0 := by
      simp only [chunkBytes, List.flatMap_cons, List.flatMap_nil, List.append_nil]
      rfl
    rw [hunit]
    exact isFrame_encode (by rw [List.length_replicate]; decide)
  have hlen : R.contents.length = netBenchTcpRecvUnitSize := by
    rw [Ring.length_contents]
    simp only [Marks.unread, hr, hw]
    rfl
  obtain ⟨R', calls, hp, hr', hw', hnil⟩ := parseLoop_ring_frame
    (fun (calls : List Callback) m => calls ++ [m]) (by decide) (by omega) hf []
  have hinv := Invoke.of_loops (f := Feed.fresh (emptyRing netBenchTcpBufSize fun _ => 0)) hread hp
  refine ⟨_, hinv, rfl, rfl, ?_, ?_, hnil, hr'.trans hw, hw'.trans hw⟩
  · rw [hgot]; exact hf
  · rw [hgot]; exact hlen

/-- After a frame of one unit the session on the ring can take the next one. -/
theorem canTakeInput_after_unit_frame : ∃ f, Invoke sessionRing
      (Feed.fresh (emptyRing netBenchTcpBufSize fun _ => 0)) [headerUnit 65528] f ∧
    f.shut = false ∧ CanTakeInput sessionRing f := by
  obtain ⟨f, hinv, -, -, hf, hlen, -⟩ := invoke_unit_frame
  refine ⟨f, hinv, canTakeInput_of_headers sessionRing_fifo (ringBuffer_roomy _) rfl
    (Marks.tight_empty _) (.single hinv) ?_⟩
  have hnil : nbFraming.HeadersIn (· ≤ maxSafeLen) [] :=
    Framing.headersIn_of_short Framing.short_nil (by decide)
  have h := hnil.cons hf (by rw [hlen]; decide)
  rwa [List.append_nil] at h

/-- A read of one byte. -/
def oneByte : Chunk := ⟨[0], by decide, by decide⟩

/-- One byte more than `maxSafeLen` is enough to get stuck: the reader is one unit
into the ring, and one byte less than a unit is free at its end. -/
theorem wedged_above_maxSafeLen : ∃ invs f,
    Run (Invoke sessionRing) (Feed.fresh (emptyRing netBenchTcpBufSize fun _ => 0)) invs f ∧
    nbFraming.HeadersIn (· ≤ maxSafeLen + 1) f.got ∧ f.shut = false ∧
    ¬ CanTakeInput sessionRing f := by
  obtain ⟨f, hinv, hlim, hshut, hf, hflen, hnil, hfr, hfw⟩ := invoke_unit_frame
  obtain ⟨R, hread, hr, hw, hcont⟩ := readLoop_units (headerUnits 1966074 29) [oneByte]
    f.session.bytesBuf (fun _ => length_of_mem_headerUnits) (by omega) (by rw [hfw]; decide)
  have hr : R.r = netBenchTcpRecvUnitSize := hr.trans hfr
  have hw : R.w = 31 * netBenchTcpRecvUnitSize := by rw [hw, hfw]; rfl
  have hp : R.writerFc netBenchTcpRecvUnitSize = some R.w := by
    simp only [Marks.writerFc, Marks.room, hr, hw]
    decide
  obtain ⟨m', hm', hcont'⟩ := Ring.contents_store hp oneByte.le
  have hpos : m'.r = netBenchTcpRecvUnitSize ∧ m'.w = 31 * netBenchTcpRecvUnitSize + 1 := by
    have hroom : R.w = R.w ∧ oneByte.bytes.length ≤ R.room := by
      refine ⟨rfl, ?_⟩
      simp only [Marks.room, hr, hw]
      decide
    rw [Marks.writerMove, dif_pos hroom] at hm'
    cases hm'
    exact ⟨hr, congrArg (· + 1) hw⟩
  have hnone : m'.writerFc netBenchTcpRecvUnitSize = none := by
    simp only [Marks.writerFc, Marks.room, hpos]
    decide
  have hend : readLoop sessionRing R [oneByte] =
      ⟨⟨m', storeAt R.mem R.w oneByte.bytes⟩, oneByte.bytes, .full⟩ := by
    simp only [readLoop, readIter, ringBuffer, hp, hm', Option.map_some, hnone, List.append_nil]
  rw [hend] at hread
  obtain ⟨rest, hrest⟩ := chunkBytes_headerUnits 1966074 29
  have hall : (⟨m', storeAt R.mem R.w oneByte.bytes⟩ : Ring UInt8 netBenchTcpBufSize).contents =
      (MsgHdr.mk 1 1966074).encode ++ (rest ++ oneByte.bytes) := by
    rw [hcont', hcont, hnil, hrest, List.nil_append, List.append_assoc]
  have hlen : ((MsgHdr.mk 1 1966074).encode ++ (rest ++ oneByte.bytes)).length =
      30 * netBenchTcpRecvUnitSize + 1 := by
    rw [← hall, Ring.length_contents]
    simp only [Marks.unread, hpos]
    rw [if_pos (by decide)]
    decide
  obtain ⟨hs, hann⟩ := @short_of_header 1966074 _ (rest ++ oneByte.bytes) rfl (by rw [hlen]; decide)
  have hhdr : nbFraming.HeadersIn (· ≤ maxSafeLen + 1)
      ((MsgHdr.mk 1 1966074).encode ++ (rest ++ oneByte.bytes)) :=
    Framing.headersIn_of_short hs (by rw [hann]; decide)
  refine ⟨_, _, .cons hinv (.single (Invoke.of_short hlim hread ?_ ?_)), ?_, hshut, ?_⟩
  · rw [hall]
    exact Framing.headersIn_of_short hs (by rw [hann]; decide)
  · rw [hall]; exact hs
  · have hgot : chunkBytes (headerUnits 1966074 29) ++ oneByte.bytes =
        (MsgHdr.mk 1 1966074).encode ++ (rest ++ oneByte.bytes) := by
      rw [hrest, List.append_assoc]
    simp only [hgot]
    exact hhdr.cons hf (by rw [hflen]; decide)
  · simp [CanTakeInput, ringBuffer, hnone]

/-- On the ring, no run whose headers announce at most `L` bytes gets stuck if and
only if `L` is at most `maxSafeLen`. -/
theorem never_wedged_iff (L : Nat) :
    (∀ mem invs f, Run (Invoke sessionRing) (Feed.fresh (emptyRing netBenchTcpBufSize mem)) invs f →
      nbFraming.HeadersIn (· ≤ L) f.got → CanTakeInput sessionRing f) ↔ L ≤ maxSafeLen := by
  constructor
  · intro h
    by_contra hL
    obtain ⟨invs, f, hrun, hhdr, _, hstuck⟩ := wedged_above_maxSafeLen
    exact hstuck (h _ invs f hrun fun fs t ht h8 => Nat.le_trans (hhdr fs t ht h8) (by omega))
  · intro hL mem invs f hrun hlen
    exact (canTakeInput_of_headers sessionRing_fifo (ringBuffer_roomy _) rfl (Marks.tight_empty _)
      hrun fun fs t ht h8 => Nat.le_trans (hlen fs t ht h8) hL).2

end NetBench

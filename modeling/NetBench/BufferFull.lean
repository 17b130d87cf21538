/-
# `NetBench.BufferFull` — what happens when the ring is full

The read loop of `nb_tcp_session_on_msg` has two exits.  Either a read returned a value
`≤ 0`, or `writer_fc` found no room for a unit; then the bytes that are still in the socket
stay there.

With unit `U` and capacity `c`, a ring without room for a unit holds more than `c - 2U`
bytes.  So while no frame is longer than that, the parse loop of the same invocation takes
one off, and the next invocation can read (`full_is_harmless`).

The socket was drained exactly if the reads of the invocation fit the ring
(`drains_iff_fits`): the loop does not go back to reading after it has made room.
-/
import NetBench.MsgLimit

namespace NetBench

open Lib

/-! ## The ends of the read loop -/

section ReadLoop

variable {β : Type} {B : BytesBuffer β} {contents : β → Bytes} {cap : Nat}

/-- After a read loop that ended at a full buffer, there is no room for a unit. -/
theorem writerFc_of_full (hB : B.Fifo contents cap) : ∀ (cks : List Chunk) (b : β),
    (readLoop B b cks).stop = .full →
      B.writerFc (readLoop B b cks).buf netBenchTcpRecvUnitSize = none
  | [], b, h => by
      rcases readIter_cases hB b none with ⟨_, _, hr, _⟩ | ⟨_, hit⟩ | ⟨hnone, hit⟩
      · cases hr
      · simp only [readLoop, hit] at h
        cases h
      · simp only [readLoop, hit]
        exact hnone
  | ck :: cks, b, h => by
      rcases readIter_cases hB b (some ck) with ⟨ck', b', hr, hit, _⟩ | ⟨hr, _⟩ | ⟨hnone, hit⟩
      · cases hr
        simp only [readLoop, hit] at h ⊢
        exact writerFc_of_full hB cks b' h
      · cases hr
      · simp only [readLoop, hit]
        exact hnone

/-- A read loop that drained the socket has read everything. -/
theorem got_of_drained (hB : B.Fifo contents cap) : ∀ (cks : List Chunk) (b : β),
    (readLoop B b cks).stop = .drained → (readLoop B b cks).got = chunkBytes cks
  | [], b, _ => by
      have hpre := (readLoop_spec hB [] b).2.1
      exact List.prefix_nil.mp hpre
  | ck :: cks, b, h => by
      rcases readIter_cases hB b (some ck) with ⟨ck', b', hr, hit, _⟩ | ⟨hr, _⟩ | ⟨_, hit⟩
      · cases hr
        simp only [readLoop, hit] at h ⊢
        rw [got_of_drained hB cks b' h]
        rfl
      · cases hr
      · simp only [readLoop, hit] at h
        cases h

end ReadLoop

/-! ## While every frame fits -/

/-- The longest frame for which a full buffer is harmless. -/
def maxFitLen : Nat := netBenchTcpBufSize - 2 * netBenchTcpRecvUnitSize

/-- In every run over a stream of frames that fit, an invocation reads without fault; if it
finds the buffer full, it hands over a frame; the session can take input again; and the next
invocation returns. -/
theorem full_is_harmless {fs : List Bytes}
    (hfs : ∀ x ∈ fs, nbFraming.IsFrame x ∧ x.length ≤ maxFitLen) {mem : Nat → UInt8}
    {invs : List (List Chunk)} {f f' : Feed (Ring UInt8 netBenchTcpBufSize)} {cks : List Chunk}
    (hrun : Run (Invoke sessionRing) (Feed.fresh (emptyRing netBenchTcpBufSize mem)) invs f)
    (hinv : Invoke sessionRing f cks f') (hgot : f'.got <+: fs.flatten) :
    (readLoop sessionRing f.session.bytesBuf cks).stop ≠ .fault ∧
    ((readLoop sessionRing f.session.bytesBuf cks).stop = .full →
      ∃ m ms, f'.calls = f.calls ++ m :: ms) ∧
    CanTakeInput sessionRing f' ∧
    ∀ cks', f'.got ++ chunkBytes cks' <+: fs.flatten → ∃ f'', Invoke sessionRing f' cks' f'' := by
  have hB := sessionRing_fifo
  have hlen : nbFraming.HeadersIn (· ≤ maxFitLen) f'.got := Framing.headersIn_of_frames hfs hgot
  have hsafe : nbFraming.HeadersIn (· ≤ maxSafeLen) f'.got := fun gs t ht h8 =>
    Nat.le_trans (hlen gs t ht h8) (Nat.le_succ _)
  have hok : ∀ {l}, l <+: fs.flatten → HeadersOk l := by
    intro l hl
    refine Framing.headersIn_of_frames (fun x hx => ⟨(hfs x hx).1, ?_⟩) hl
    exact Nat.lt_of_le_of_lt (hfs x hx).2 (by decide)
  have hrun' := hrun.snoc hinv
  obtain ⟨gs, hd⟩ := deframed_of_run hB (Feed.deframed_fresh rfl) hrun' (hok hgot)
  refine ⟨(readLoop_spec hB cks _).2.2, fun hfull => ?_, ?_, fun cks' hcks' => ?_⟩
  · -- more is in the ring than a frame can have, and less than a frame is left
    have htight : f.session.bytesBuf.toMarks.Tight netBenchTcpRecvUnitSize :=
      hrun.invariant (I := fun f => f.session.bytesBuf.toMarks.Tight netBenchTcpRecvUnitSize)
        (fun _ _ _ hf h => Invoke.keeps hB (ringBuffer_keeps_tight _) hf h) (Marks.tight_empty _)
    have hread := readLoop_keeps hB (ringBuffer_keeps_tight _) cks htight
    have hnone := writerFc_of_full hB cks _ hfull
    have hmany : maxFitLen < (readLoop sessionRing f.session.bytesBuf cks).buf.contents.length := by
      by_contra hle
      have hroom := (ringBuffer_roomy _).room hread
        (by rw [maxFitLen] at hle; simp only [netBenchTcpBufSize, netBenchTcpRecvUnitSize] at *; omega)
      rw [hnone] at hroom
      cases hroom
    have hfew := hd.length_lt (by decide) hlen
    obtain ⟨-, -, -, ms, _, hms, hcalls, -⟩ := hinv.iterations hB
    cases ms with
    | nil =>
        rw [hms.eq_of_nil] at hfew
        omega
    | cons m ms => exact ⟨m, ms, hcalls⟩
  · exact (canTakeInput_of_headers hB (ringBuffer_roomy _) rfl (Marks.tight_empty _) hrun' hsafe).2
  · exact Invoke.total hB hd (hok hcks')

/-! ## A burst of small messages -/

/-- A message of 1024 bytes. -/
def smallMessage : Bytes := (MsgHdr.mk 1 1016).encode ++ List.replicate 1016 0

theorem length_smallMessage : smallMessage.length = 1024 := by
  rw [smallMessage, List.length_append, MsgHdr.length_encode, List.length_replicate]

theorem isFrame_smallMessage : nbFraming.IsFrame smallMessage := by
  refine isFrame_iff.mpr ⟨by rw [length_smallMessage]; decide, ?_⟩
  rw [length_smallMessage, smallMessage, MsgHdr.decode_encode]
  rfl

theorem length_messages (n : Nat) : (List.replicate n smallMessage).flatten.length = n * 1024 := by
  induction n with
  | zero => rfl
  | succ n ih =>
      rw [List.replicate_succ, List.flatten_cons, List.length_append, length_smallMessage, ih,
        Nat.succ_mul, Nat.add_comm]

/-- A unit of 64 of them. -/
def messageUnit : Chunk :=
  unitChunk (List.replicate 64 smallMessage).flatten (length_messages 64)

/-- `k` units. -/
def burst (k : Nat) : List Chunk := List.replicate k messageUnit

theorem chunkBytes_burst (k : Nat) :
    chunkBytes (burst k) = (List.replicate (k * 64) smallMessage).flatten := by
  induction k with
  | zero => rfl
  | succ k ih =>
      rw [Nat.succ_mul, Nat.add_comm (k * 64), List.replicate_add, List.flatten_append, ← ih]
      rfl

theorem of_mem_burst {n : Nat} {x : Bytes} (h : x ∈ List.replicate n smallMessage) :
    nbFraming.IsFrame x ∧ x.length = 1024 := by
  rw [List.eq_of_mem_replicate h]
  exact ⟨isFrame_smallMessage, length_smallMessage⟩

theorem frames_burst (k : Nat) :
    nbFraming.frames (chunkBytes (burst k)) = List.replicate (k * 64) smallMessage := by
  rw [chunkBytes_burst]
  exact (Framing.splits_flatten fun x hx => (of_mem_burst hx).1).split_eq.1

/-- Of 32 units, 31 are read into an empty ring, which is full then. -/
theorem readLoop_burst (mem : Nat → UInt8) : ∃ R,
    readLoop sessionRing (emptyRing netBenchTcpBufSize mem) (burst 32) =
      ⟨R, chunkBytes (burst 31), .full⟩ := by
  have hunit : ∀ ck ∈ burst 31, ck.bytes.length = netBenchTcpRecvUnitSize := by
    intro ck hck
    rw [List.eq_of_mem_replicate hck]
    exact length_messages 64
  have hcount : (burst 31).length = 31 := List.length_replicate
  have hfit : 0 + (burst 31).length * netBenchTcpRecvUnitSize < netBenchTcpBufSize := by
    rw [hcount]
    decide
  obtain ⟨R, hread, hr, hw, -⟩ := readLoop_units (burst 31) [messageUnit]
    (emptyRing netBenchTcpBufSize mem) hunit (Nat.le_refl 0) hfit
  have hr : R.r = 0 := hr
  have hw : R.w = 0 + 31 * netBenchTcpRecvUnitSize := hcount ▸ hw
  have hnone : R.writerFc netBenchTcpRecvUnitSize = none := by
    simp only [Marks.writerFc, Marks.room, hr, hw]
    decide
  have hend : readLoop sessionRing R [messageUnit] = ⟨R, [], .full⟩ := by
    simp only [readLoop, readIter, ringBuffer, hnone]
  rw [hend, List.append_nil] at hread
  exact ⟨R, hread⟩

theorem got_fresh_append {β : Type} (b : β) (l : Bytes) : (Feed.fresh b).got ++ l = l :=
  List.nil_append l

/-- The first invocation, on a stream of frames. -/
theorem invoke_fresh {fs : List Bytes}
    (hfs : ∀ x ∈ fs, nbFraming.IsFrame x ∧ x.length < 2 ^ 32) {cks : List Chunk}
    (hcks : chunkBytes cks = fs.flatten) {mem : Nat → UInt8} {R : Ring UInt8 netBenchTcpBufSize}
    {got : Bytes} {stop : ReadEnd}
    (hread : readLoop sessionRing (emptyRing netBenchTcpBufSize mem) cks = ⟨R, got, stop⟩) :
    got <+: fs.flatten ∧
    ∃ f', Invoke sessionRing (Feed.fresh (emptyRing netBenchTcpBufSize mem)) cks f' ∧
      f'.got = got ∧ f'.shut = false ∧
      f'.calls.map Callback.seen = (nbFraming.frames got).map Seen.ofFrame := by
  have hB := sessionRing_fifo
  have hok : HeadersOk (chunkBytes cks) :=
    Framing.headersIn_of_frames hfs (hcks ▸ List.prefix_rfl)
  have hpre : got <+: chunkBytes cks := by
    have hpre := (readLoop_spec hB cks (emptyRing netBenchTcpBufSize mem)).2.1
    rwa [hread] at hpre
  have hfresh := Feed.deframed_fresh (contents_emptyRing netBenchTcpBufSize mem)
  have htotal : ∃ f', Invoke sessionRing (Feed.fresh (emptyRing netBenchTcpBufSize mem)) cks f' :=
    Invoke.total hB hfresh hok
  obtain ⟨f', hinv⟩ := htotal
  have hgot : f'.got = got := by
    rw [(hinv.iterations hB).2.1]
    exact congrArg ReadResult.got hread
  obtain ⟨gs, hd⟩ := hinv.deframed hB hfresh (hgot ▸ hok.of_isPrefix hpre)
  refine ⟨hcks ▸ hpre, f', hinv, hgot, hd.open_, ?_⟩
  rw [← hgot, hd.splits.split_eq.1]
  exact hd.calls

/-- The session that is full after the burst has handed over its messages, and can read
again. -/
theorem full_is_harmless_in_burst : ∃ f', Invoke sessionRing
      (Feed.fresh (emptyRing netBenchTcpBufSize fun _ => 0)) (burst 32) f' ∧
    (∃ m ms, f'.calls = m :: ms) ∧ CanTakeInput sessionRing f' := by
  have hfits : ∀ x ∈ List.replicate (32 * 64) smallMessage,
      nbFraming.IsFrame x ∧ x.length ≤ maxFitLen := by
    intro x hx
    obtain ⟨hx, hlen⟩ := of_mem_burst hx
    exact ⟨hx, by rw [hlen]; decide⟩
  obtain ⟨R, hread⟩ := readLoop_burst fun _ => 0
  obtain ⟨hpre, f', hinv, hgot, -⟩ := invoke_fresh (fun x hx => ⟨(hfits x hx).1,
    Nat.lt_of_le_of_lt (hfits x hx).2 (by decide)⟩) (chunkBytes_burst 32) hread
  obtain ⟨-, hfull, hroom, -⟩ := full_is_harmless hfits (.nil _) hinv (hgot ▸ hpre)
  exact ⟨f', hinv, hfull (congrArg ReadResult.stop hread), hroom⟩

/-! ## While the reads fit -/

/-- The read loop drains the socket if and only if all its reads find room. -/
theorem drained_iff_fits : ∀ (cks : List Chunk) (R : Ring UInt8 netBenchTcpBufSize),
    (readLoop sessionRing R cks).stop = .drained ↔
      R.toMarks.Fits netBenchTcpRecvUnitSize (cks.map fun ck => ck.bytes.length)
  | [], R => by
      rw [List.map_nil, Marks.fits_nil (by decide)]
      cases hp : R.writerFc netBenchTcpRecvUnitSize with
      | none =>
          have hit : readIter sessionRing R none = .stop R .full := by
            simp only [readIter, ringBuffer, hp]
          simp [readLoop, hit]
      | some p =>
          have hit : readIter sessionRing R none = .stop R .drained := by
            simp only [readIter, ringBuffer, hp]
          simp [readLoop, hit]
  | ck :: cks, R => by
      rw [List.map_cons]
      cases hp : R.writerFc netBenchTcpRecvUnitSize with
      | none =>
          have hit : readIter sessionRing R (some ck) = .stop R .full := by
            simp only [readIter, ringBuffer, hp]
          refine iff_of_false (by simp [readLoop, hit]) fun h => ?_
          have hroom := h.isSome (by decide)
          rw [hp] at hroom
          cases hroom
      | some p =>
          obtain ⟨m', hm', _⟩ := Ring.contents_store hp ck.le
          have hit : readIter sessionRing R (some ck) = .next ⟨m', storeAt R.mem p ck.bytes⟩ := by
            simp only [readIter, ringBuffer, hp, hm', Option.map_some]
          simp only [readLoop, hit]
          rw [drained_iff_fits cks, Marks.fits_cons hp ck.le hm']

/-- An invocation to which the socket has the reads `cks` to offer leaves nothing behind: it
returns, and unless it shuts the context down, its last read returned a value `≤ 0` and every
complete frame that had arrived was handed over. -/
structure LeavesNothing (f : Feed (Ring UInt8 netBenchTcpBufSize)) (cks : List Chunk) : Prop where
  returns : ∃ f', Invoke sessionRing f cks f'
  drained : ∀ fuel r, nbTcpSessionOnMsg sessionRing (fun calls m => calls ++ [m]) fuel f.session cks
    f.calls = some r → r.shut = false → r.stop = .drained
  delivered : ∀ f', Invoke sessionRing f cks f' → f'.shut = false →
    f'.calls.map Callback.seen = (nbFraming.frames (f.got ++ chunkBytes cks)).map Seen.ofFrame

/-- In every run over a stream of frames of at most 1024 bytes, an invocation leaves nothing
behind if and only if its reads fit the ring. -/
theorem drains_iff_fits {fs : List Bytes}
    (hfs : ∀ x ∈ fs, nbFraming.IsFrame x ∧ x.length ≤ 1024) {mem : Nat → UInt8}
    {invs : List (List Chunk)} {f : Feed (Ring UInt8 netBenchTcpBufSize)} {cks : List Chunk}
    (hrun : Run (Invoke sessionRing) (Feed.fresh (emptyRing netBenchTcpBufSize mem)) invs f)
    (hgot : f.got ++ chunkBytes cks <+: fs.flatten) :
    LeavesNothing f cks ↔ f.session.bytesBuf.toMarks.Fits netBenchTcpRecvUnitSize
      (cks.map fun ck => ck.bytes.length) := by
  have hB := sessionRing_fifo
  have hok : HeadersOk (f.got ++ chunkBytes cks) := by
    refine Framing.headersIn_of_frames (fun x hx => ⟨(hfs x hx).1, ?_⟩) hgot
    exact Nat.lt_of_le_of_lt (hfs x hx).2 (by decide)
  have hokf : HeadersOk f.got := hok.of_isPrefix (List.prefix_append _ _)
  obtain ⟨gs, hd⟩ := deframed_of_run hB (Feed.deframed_fresh rfl) hrun hokf
  obtain ⟨-, hpre, hstop⟩ := readLoop_spec hB cks f.session.bytesBuf
  have hokf' : ∀ {f'}, Invoke sessionRing f cks f' → HeadersOk f'.got := by
    intro f' h
    rw [(h.iterations hB).2.1]
    exact hok.of_isPrefix ((List.prefix_append_right_inj _).mpr hpre)
  rw [← drained_iff_fits]
  constructor
  · intro h
    obtain ⟨f', hinv⟩ := h.returns
    obtain ⟨hs, hd'⟩ := hinv.deframed hB hd (hokf' hinv)
    obtain ⟨fuel, r, hr, rfl⟩ := hinv
    have hshut : r.shut = false := (Bool.or_eq_false_iff.mp hd'.open_).2
    have hend := h.drained fuel r hr hshut
    rw [nbTcpSessionOnMsg_eq _ hstop, Option.map_eq_some_iff] at hr
    obtain ⟨p, _, rfl⟩ := hr
    exact hend
  · intro hdrained
    refine ⟨Invoke.total hB hd hok, fun fuel r hr _ => ?_, fun f' hinv _ => ?_⟩
    · rw [nbTcpSessionOnMsg_eq _ hstop, Option.map_eq_some_iff] at hr
      obtain ⟨p, _, rfl⟩ := hr
      exact hdrained
    · obtain ⟨hs, hd'⟩ := hinv.deframed hB hd (hokf' hinv)
      have hall : f'.got = f.got ++ chunkBytes cks := by
        rw [(hinv.iterations hB).2.1, got_of_drained hB cks _ hdrained]
      rw [← hall, hd'.splits.split_eq.1]
      exact hd'.calls

/-- One unit fits an empty ring. -/
theorem drains_one_unit :
    LeavesNothing (Feed.fresh (emptyRing netBenchTcpBufSize fun _ => 0)) (burst 1) := by
  have hsmall : ∀ x ∈ List.replicate (1 * 64) smallMessage,
      nbFraming.IsFrame x ∧ x.length ≤ 1024 := by
    intro x hx
    obtain ⟨hx, hlen⟩ := of_mem_burst hx
    exact ⟨hx, Nat.le_of_eq hlen⟩
  refine (drains_iff_fits hsmall (.nil _) (chunkBytes_burst 1 ▸ List.prefix_rfl)).mpr ?_
  show Marks.Fits _ _ [(List.replicate 64 smallMessage).flatten.length]
  rw [length_messages]
  decide

/-- Of 32 units the last one stays in the socket: 2048 messages have arrived, 1984 are handed
over, and the context is open. -/
theorem burst_leaves_messages : (∃ f', Invoke sessionRing
      (Feed.fresh (emptyRing netBenchTcpBufSize fun _ => 0)) (burst 32) f' ∧ f'.shut = false ∧
      f'.calls.length = 1984 ∧ (nbFraming.frames (chunkBytes (burst 32))).length = 2048) ∧
    ¬ LeavesNothing (Feed.fresh (emptyRing netBenchTcpBufSize fun _ => 0)) (burst 32) := by
  obtain ⟨R, hread⟩ := readLoop_burst fun _ => 0
  have hsmall : ∀ x ∈ List.replicate (32 * 64) smallMessage,
      nbFraming.IsFrame x ∧ x.length < 2 ^ 32 := by
    intro x hx
    obtain ⟨hx, hlen⟩ := of_mem_burst hx
    exact ⟨hx, by rw [hlen]; decide⟩
  obtain ⟨-, f', hinv, -, hshut, hseen⟩ := invoke_fresh hsmall (chunkBytes_burst 32) hread
  have hcalls : f'.calls.length = 1984 := by
    have hmap := congrArg List.length hseen
    rw [List.length_map, List.length_map, frames_burst, List.length_replicate] at hmap
    exact hmap
  have hall : (nbFraming.frames (chunkBytes (burst 32))).length = 2048 := by
    rw [frames_burst, List.length_replicate]
  refine ⟨⟨f', hinv, hshut, hcalls, hall⟩, fun h => ?_⟩
  have hmap := congrArg List.length (h.delivered f' hinv hshut)
  rw [List.length_map, List.length_map, hcalls, got_fresh_append, hall] at hmap
  exact absurd hmap (by decide)

end NetBench

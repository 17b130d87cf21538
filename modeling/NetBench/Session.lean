/-
# `NetBench.Session` — a TCP session and its receive callback

`session.c`: `nb_tcp_session_new` and `nb_tcp_session_on_msg`, over an arbitrary
receive buffer.  The callback has two loops.  The first reads from the socket
while the buffer has room for one unit and the socket has bytes; the second
takes whole messages off the front of the buffer and hands them to `cb`.  The
body of each loop is a function of its own (`readIter`, `parseIter`); the
servers' models take single iterations as their steps.

What the socket delivers is given as the list of the chunks that
`muggle_socket_ctx_read` returns before it returns a value `≤ 0`.

The parse loop need not end: `8 + payload_len` is a `uint32_t` sum and can be
`0`.  It is therefore run with fuel, and `none` says that the fuel ran out.
-/
import NetBench.BytesBuffer

namespace NetBench

open Lib

/-- `NET_BENCH_TCP_RECV_UNIT_SIZE`. -/
def netBenchTcpRecvUnitSize : Nat := 64 * 1024

/-- `NET_BENCH_TCP_BUF_SIZE`. -/
def netBenchTcpBufSize : Nat := 2 * 1024 * 1024

/-- `SERVER_SESSION_ROLE_*`. -/
inductive SessionRole where
  | null
  | client
  | upstream
  deriving DecidableEq, Repr

/-- `nb_tcp_session_t`; the callback is an argument of `onMsg`. -/
structure NbTcpSession (β : Type) where
  bytesBuf : β
  msgLenLimit : UInt32
  role : SessionRole

/-- `nb_tcp_session_new`, given the buffer it initialised.  It leaves `role` to its caller. -/
def nbTcpSessionNew {β : Type} (b : β) : NbTcpSession β := ⟨b, 0, .null⟩

/-- What one successful `muggle_socket_ctx_read` returns. -/
structure Chunk where
  bytes : Bytes
  ne_nil : bytes ≠ []
  le : bytes.length ≤ netBenchTcpRecvUnitSize

/-- The bytes of consecutive reads. -/
def chunkBytes (cks : List Chunk) : Bytes := cks.flatMap Chunk.bytes

/-- The arguments of `cb`: the memory at `hdr` and `datalen`. -/
structure Callback where
  mem : Bytes
  datalen : UInt32
  deriving DecidableEq, Repr

/-- The arguments that the session passes: `datalen` is `p_hdr->payload_len`. -/
def Callback.of (mem : Bytes) : Callback := ⟨mem, (MsgHdr.decode mem).payloadLen⟩

def Callback.hdr (m : Callback) : MsgHdr := MsgHdr.decode m.mem

/-- The memory at `data`, which is `p_hdr + 1`. -/
def Callback.data (m : Callback) : Bytes := m.mem.drop sizeofMsgHdr

variable {β σ : Type} (B : BytesBuffer β)

/-! ## The read loop -/

/-- Why the read loop ended: a read returned a value `≤ 0`; `writer_fc` returned
`NULL`; `writer_move_n` failed. -/
inductive ReadEnd where
  | drained
  | full
  | fault
  deriving DecidableEq, Repr

inductive ReadStep (β : Type) where
  | next (b : β)
  | stop (b : β) (e : ReadEnd)

/-- One iteration; `r` is what the socket returns if it is read. -/
def readIter (b : β) (r : Option Chunk) : ReadStep β :=
  match B.writerFc b netBenchTcpRecvUnitSize with
  | none => .stop b .full
  | some p =>
      match r with
      | none => .stop b .drained
      | some ck =>
          match B.writerMoveN (B.fill b p ck.bytes) p ck.bytes.length with
          | some b' => .next b'
          | none => .stop (B.fill b p ck.bytes) .fault

/-- The buffer after the read loop, the bytes read into it, and why it ended. -/
structure ReadResult (β : Type) where
  buf : β
  got : Bytes
  stop : ReadEnd

def readLoop : β → List Chunk → ReadResult β
  | b, [] =>
      match readIter B b none with
      | .next b' => ⟨b', [], .drained⟩
      | .stop b' e => ⟨b', [], e⟩
  | b, ck :: cks =>
      match readIter B b (some ck) with
      | .next b' =>
          let r := readLoop b' cks
          { r with got := ck.bytes ++ r.got }
      | .stop b' e => ⟨b', [], e⟩

/-! ## The parse loop -/

/-- `stop`: the loop breaks, with or without a shutdown of the context.
`deliver`: `cb` is called and the loop goes on.  `deliverStop`: `cb` is called,
then the buffer fails to move, and the loop breaks with a shutdown. -/
inductive ParseStep (β : Type) where
  | stop (b : β) (shut : Bool)
  | deliver (m : Callback) (b : β)
  | deliverStop (m : Callback) (b : β)

/-- The `uint32_t` sum `sizeof(nb_msg_hdr_t) + hdr.payload_len`. -/
def msgLen (hdr : MsgHdr) : UInt32 := UInt32.ofNat sizeofMsgHdr + hdr.payloadLen

/-- `limit > 0 && n > limit`. -/
def tooLong (limit n : UInt32) : Bool := decide (0 < limit ∧ limit < n)

/-- One iteration.  The casts of `n` to `int` keep its value: `n` is at most
`readable`, which is an `int`. -/
def parseIter (limit : UInt32) (b : β) : ParseStep β :=
  match B.fetch b sizeofMsgHdr with
  | none => .stop b false
  | some h =>
      let n := msgLen (MsgHdr.decode h)
      if tooLong limit n then .stop b true
      else if UInt32.ofNat (B.readable b) < n then .stop b false
      else
        match B.readerFc b n.toNat with
        | some mem =>
            match B.readerMove b n.toNat with
            | some b' => .deliver (.of mem) b'
            | none => .deliverStop (.of mem) b
        | none =>
            match B.read b n.toNat with
            | some (mem, b') => .deliver (.of mem) b'
            | none => .stop b true

/-- The buffer, the state of the callbacks, and whether the context was shut down. -/
def parseLoop (limit : UInt32) (cb : σ → Callback → σ) : Nat → β → σ → Option (β × σ × Bool)
  | 0, _, _ => none
  | fuel + 1, b, s =>
      match parseIter B limit b with
      | .stop b' shut => some (b', s, shut)
      | .deliver m b' => parseLoop limit cb fuel b' (cb s m)
      | .deliverStop m b' => some (b', cb s m, true)

/-! ## The callback -/

/-- What `nb_tcp_session_on_msg` leaves behind: the session, the state of the
callbacks, the bytes read, why reading ended, and whether it shut the context down. -/
structure OnMsgResult (β σ : Type) where
  session : NbTcpSession β
  app : σ
  got : Bytes
  stop : ReadEnd
  shut : Bool

/-- `nb_tcp_session_on_msg`. -/
def nbTcpSessionOnMsg (cb : σ → Callback → σ) (fuel : Nat) (ses : NbTcpSession β)
    (cks : List Chunk) (s : σ) : Option (OnMsgResult β σ) :=
  let r := readLoop B ses.bytesBuf cks
  match r.stop with
  | .fault => some ⟨{ ses with bytesBuf := r.buf }, s, r.got, r.stop, true⟩
  | _ =>
      (parseLoop B ses.msgLenLimit cb fuel r.buf s).map fun p =>
        ⟨{ ses with bytesBuf := p.1 }, p.2.1, r.got, r.stop, p.2.2⟩

/-- Unless the read loop fails, the result is that of the parse loop. -/
theorem nbTcpSessionOnMsg_eq {cb : σ → Callback → σ} {fuel : Nat} {ses : NbTcpSession β}
    {cks : List Chunk} {s : σ} (h : (readLoop B ses.bytesBuf cks).stop ≠ .fault) :
    nbTcpSessionOnMsg B cb fuel ses cks s =
      (parseLoop B ses.msgLenLimit cb fuel (readLoop B ses.bytesBuf cks).buf s).map fun p =>
        ⟨{ ses with bytesBuf := p.1 }, p.2.1, (readLoop B ses.bytesBuf cks).got,
          (readLoop B ses.bytesBuf cks).stop, p.2.2⟩ := by
  unfold nbTcpSessionOnMsg
  cases hstop : (readLoop B ses.bytesBuf cks).stop with
  | fault => exact absurd hstop h
  | drained => simp only [hstop]
  | full => simp only [hstop]

/-! ## What one iteration can do -/

section Fifo

variable {B} {contents : β → Bytes} {cap : Nat}

/-- A read iteration appends what it read, or stops with the buffer as it was;
it never fails to account for the bytes. -/
theorem readIter_cases (hB : B.Fifo contents cap) (b : β) (r : Option Chunk) :
    (∃ ck b', r = some ck ∧ readIter B b r = .next b' ∧ contents b' = contents b ++ ck.bytes) ∨
    (r = none ∧ readIter B b r = .stop b .drained) ∨
    (B.writerFc b netBenchTcpRecvUnitSize = none ∧ readIter B b r = .stop b .full) := by
  unfold readIter
  cases hp : B.writerFc b netBenchTcpRecvUnitSize with
  | none => exact Or.inr (Or.inr ⟨rfl, rfl⟩)
  | some p =>
      cases r with
      | none => exact Or.inr (Or.inl ⟨rfl, rfl⟩)
      | some ck =>
          obtain ⟨b', hmove, hcont⟩ := hB.write hp ck.le
          exact Or.inl ⟨ck, b', rfl, by simp [hmove], hcont⟩

/-- The cast of `readable` to `uint32_t` keeps its value. -/
theorem readable_lt_iff (hB : B.Fifo contents cap) (b : β) (n : UInt32) :
    UInt32.ofNat (B.readable b) < n ↔ (contents b).length < n.toNat := by
  have hlen := hB.length_le b
  have hcap := hB.cap_lt
  rw [UInt32.lt_iff_toNat_lt, UInt32.toNat_ofNat', hB.readable_eq, Nat.mod_eq_of_lt (by omega)]

/-- What a parse iteration can do: break on a header that is not there yet, on a
message that is too long, or on one that is not there yet, and otherwise deliver
the first `n` bytes and consume them. -/
theorem parseIter_cases (hB : B.Fifo contents cap) (limit : UInt32) (b : β) :
    ((contents b).length < 8 ∧ parseIter B limit b = .stop b false) ∨
    (8 ≤ (contents b).length ∧ tooLong limit (msgLen (MsgHdr.decode (contents b))) = true ∧
      parseIter B limit b = .stop b true) ∨
    (8 ≤ (contents b).length ∧ tooLong limit (msgLen (MsgHdr.decode (contents b))) = false ∧
      (contents b).length < (msgLen (MsgHdr.decode (contents b))).toNat ∧
      parseIter B limit b = .stop b false) ∨
    (8 ≤ (contents b).length ∧ tooLong limit (msgLen (MsgHdr.decode (contents b))) = false ∧
      (msgLen (MsgHdr.decode (contents b))).toNat ≤ (contents b).length ∧
      ∃ mem b', parseIter B limit b = .deliver (.of mem) b' ∧
        (contents b).take (msgLen (MsgHdr.decode (contents b))).toNat <+: mem ∧
        contents b' = (contents b).drop (msgLen (MsgHdr.decode (contents b))).toNat) := by
  unfold parseIter
  by_cases h8 : (contents b).length < 8
  · exact Or.inl ⟨h8, by rw [hB.fetch_of_lt h8]⟩
  · refine Or.inr ?_
    have h8' : 8 ≤ (contents b).length := Nat.le_of_not_lt h8
    rw [hB.fetch_of_le h8']
    simp only [MsgHdr.decode_take h8' (Nat.le_refl 8), readable_lt_iff hB]
    generalize msgLen (MsgHdr.decode (contents b)) = n
    cases htl : tooLong limit n with
    | true => exact Or.inl ⟨h8', rfl, rfl⟩
    | false =>
        refine Or.inr ?_
        by_cases hn : (contents b).length < n.toNat
        · exact Or.inl ⟨h8', rfl, hn, by simp [hn]⟩
        · refine Or.inr ⟨h8', rfl, Nat.le_of_not_lt hn, ?_⟩
          simp only [Bool.false_eq_true, if_false, if_neg hn]
          cases hfc : B.readerFc b n.toNat with
          | some mem =>
              obtain ⟨hpre, b', hmove, hcont⟩ := hB.readerFc_some hfc
              exact ⟨mem, b', by simp [hmove], hpre, hcont⟩
          | none =>
              obtain ⟨mem, b', hread, hpre, hcont⟩ := hB.read_of_le (Nat.le_of_not_lt hn)
              exact ⟨mem, b', by simp [hread], hpre, hcont⟩

end Fifo

/-! ## Invariants of the buffer -/

/-- `I` survives everything the session does to its buffer. -/
structure BytesBuffer.Keeps (B : BytesBuffer β) (I : β → Prop) : Prop where
  write : ∀ {b p b'} {data : Bytes}, I b → B.writerFc b netBenchTcpRecvUnitSize = some p →
    B.writerMoveN (B.fill b p data) p data.length = some b' → I b'
  readerMove : ∀ {b k b'}, I b → B.readerMove b k = some b' → I b'
  read : ∀ {b k m b'}, I b → B.read b k = some (m, b') → I b'

section Keeps

variable {B} {I : β → Prop} {contents : β → Bytes} {cap : Nat}

theorem readLoop_keeps (hB : B.Fifo contents cap) (hI : B.Keeps I) :
    ∀ (cks : List Chunk) {b : β}, I b → I (readLoop B b cks).buf
  | [], b, hb => by
      rcases readIter_cases hB b none with ⟨_, _, h, _⟩ | ⟨_, h⟩ | ⟨_, h⟩
      · cases h
      · simpa [readLoop, h] using hb
      · simpa [readLoop, h] using hb
  | ck :: cks, b, hb => by
      cases hp : B.writerFc b netBenchTcpRecvUnitSize with
      | none => simpa [readLoop, readIter, hp] using hb
      | some p =>
          obtain ⟨b', hmove, _⟩ := hB.write hp ck.le
          have hb' : I b' := hI.write hb hp hmove
          simpa [readLoop, readIter, hp, hmove] using readLoop_keeps hB hI cks hb'

theorem parseIter_keeps (hI : B.Keeps I) {limit : UInt32} {b b' : β} {m : Callback} (hb : I b)
    (h : parseIter B limit b = .deliver m b') : I b' := by
  unfold parseIter at h
  split at h
  · cases h
  · dsimp only at h
    split at h
    · cases h
    · split at h
      · cases h
      · split at h
        · split at h
          · rename_i hmove
            cases h
            exact hI.readerMove hb hmove
          · cases h
        · split at h
          · rename_i hread
            cases h
            exact hI.read hb hread
          · cases h

theorem parseLoop_keeps (hB : B.Fifo contents cap) (hI : B.Keeps I) {limit : UInt32}
    (cb : σ → Callback → σ) : ∀ (fuel : Nat) {b b' : β} {s s' : σ} {shut : Bool}, I b →
      parseLoop B limit cb fuel b s = some (b', s', shut) → I b'
  | 0, _, _, _, _, _, _, h => nomatch h
  | fuel + 1, b, b', s, s', shut, hb, h => by
      rcases parseIter_cases hB limit b with ⟨_, hit⟩ | ⟨_, _, hit⟩ | ⟨_, _, _, hit⟩ |
        ⟨_, _, _, mem, b₁, hit, _⟩
      · simp only [parseLoop, hit, Option.some.injEq, Prod.mk.injEq] at h
        exact h.1 ▸ hb
      · simp only [parseLoop, hit, Option.some.injEq, Prod.mk.injEq] at h
        exact h.1 ▸ hb
      · simp only [parseLoop, hit, Option.some.injEq, Prod.mk.injEq] at h
        exact h.1 ▸ hb
      · simp only [parseLoop, hit] at h
        exact parseLoop_keeps hB hI cb fuel (parseIter_keeps hI hb hit) h

end Keeps

end NetBench

/-
# `NetBench.Received` — received messages and their records

What `tcp_server_handle_message` and `tcp_upstream_handle_message` have in common:
the arguments of the callback, the record, and where the frames of a connection
stand between the socket and the session's buffer.

    bytes read from the socket  =  frames handed over  ++  contents of the buffer    (`Cut`)

One iteration of the read loop extends the right side at its end (`Cut.read`), one
iteration of the parse loop moves a frame to the left (`Cut.parse`).
-/
import NetBench.Deframe
import NetBench.Socket

namespace NetBench

open Lib

/-! ## The record of a message -/

/-- What a record says about its message. -/
structure MsgKey where
  userId : UInt32
  id : UInt32
  msgSize : UInt32
  deriving DecidableEq, Repr

def Record.key (r : Record) : MsgKey := ⟨r.userId, r.id, r.msgSize⟩

/-- The record of a message with the given action. -/
def MsgKey.record (k : MsgKey) (x : Action) : Record := ⟨k.userId, k.id, k.msgSize, x⟩

@[simp] theorem MsgKey.key_record (k : MsgKey) (x : Action) : (k.record x).key = k := rfl

@[simp] theorem MsgKey.action_record (k : MsgKey) (x : Action) : (k.record x).action = x := rfl

/-- `msg_size` of the handlers, a `uint32_t` sum. -/
def Callback.msgSize (m : Callback) : UInt32 := UInt32.ofNat sizeofMsgHdr + m.datalen

/-- What the handlers record: two fields behind `data` and `msg_size`. -/
def Callback.key (m : Callback) : MsgKey :=
  ⟨(MsgData.decode m.data).userId, (MsgData.decode m.data).sequence, m.msgSize⟩

/-- The fields of a frame and its length. -/
def keyOf (f : Bytes) : MsgKey :=
  ⟨(MsgData.decode (f.drop sizeofMsgHdr)).userId, (MsgData.decode (f.drop sizeofMsgHdr)).sequence,
    UInt32.ofNat f.length⟩

/-- The callback `m` is for the frame `f`, which fits an `int`. -/
structure Delivered (f : Bytes) (m : Callback) : Prop where
  isFrame : nbFraming.IsFrame f
  lt : f.length < 2 ^ 31
  mem : f <+: m.mem
  datalen : m.datalen.toNat + sizeofMsgHdr = f.length

theorem delivered_of {f mem : Bytes} (hf : nbFraming.IsFrame f) (hlt : f.length < 2 ^ 31)
    (hp : f <+: mem) : Delivered f (.of mem) := by
  obtain ⟨h8, hlen⟩ := isFrame_iff.mp hf
  refine ⟨hf, hlt, hp, ?_⟩
  show (MsgHdr.decode mem).payloadLen.toNat + 8 = f.length
  rw [MsgHdr.decode_congr h8 hp, hlen, Nat.add_comm]

theorem Delivered.msgSize {f : Bytes} {m : Callback} (h : Delivered f m) :
    m.msgSize = UInt32.ofNat f.length := by
  have hlt := h.lt
  have hlen := h.datalen
  rw [← UInt32.toNat_inj, Callback.msgSize, UInt32.toNat_add, UInt32.toNat_ofNat',
    UInt32.toNat_ofNat']
  omega

theorem Delivered.msgSize_toNat {f : Bytes} {m : Callback} (h : Delivered f m) :
    m.msgSize.toNat = f.length := by
  have hlt := h.lt
  rw [h.msgSize, UInt32.toNat_ofNat']
  exact Nat.mod_eq_of_lt (by omega)

/-- The bytes at `hdr`, `msg_size` of them, are the frame. -/
theorem Delivered.take {f : Bytes} {m : Callback} (h : Delivered f m) :
    m.mem.take m.msgSize.toNat = f := by
  obtain ⟨r, hr⟩ := h.mem
  rw [h.msgSize_toNat, ← hr, List.take_left]

/-- A frame with room for the data determines its record. -/
theorem Delivered.key {f : Bytes} {m : Callback} (h : Delivered f m) (h16 : 16 ≤ f.length) :
    m.key = keyOf f := by
  obtain ⟨r, hr⟩ := h.mem
  have hdata : MsgData.decode m.data = MsgData.decode (f.drop sizeofMsgHdr) := by
    rw [Callback.data, ← hr, List.drop_append_of_le_length (show 8 ≤ f.length by omega)]
    exact MsgData.decode_append (by rw [List.length_drop]; show 8 ≤ f.length - 8; omega) r
  rw [Callback.key, keyOf, hdata, h.msgSize]

/-- The record that an event makes on `c` with the given action. -/
def Ev.recordOn (x : Action) (c : Nat) : Ev → Option MsgKey
  | .record d r => if d = c ∧ r.action = x then some r.key else none
  | _ => none

/-- The records made on `c` with the given action, in order. -/
def recordsOn (x : Action) (log : List Ev) (c : Nat) : List MsgKey :=
  log.filterMap (Ev.recordOn x c)

theorem recordsOn_append (x : Action) (l l' : List Ev) (c : Nat) :
    recordsOn x (l ++ l') c = recordsOn x l c ++ recordsOn x l' c :=
  List.filterMap_append

theorem recordsOn_nbAssert (x : Action) (c d : Nat) (y : Assertion) (ok : Bool) :
    recordsOn x (nbAssert d y ok) c = [] := by
  cases ok with
  | true => rfl
  | false => rfl

/-- The keys recorded for some frames: those with room for the data have its fields. -/
def Recorded (fs : List Bytes) (ks : List MsgKey) : Prop :=
  List.Forall₂ (fun f k => 16 ≤ f.length → k = keyOf f) fs ks

theorem Recorded.snoc {fs : List Bytes} {ks : List MsgKey} (h : Recorded fs ks) {f : Bytes}
    {m : Callback} (hd : Delivered f m) : Recorded (fs ++ [f]) (ks ++ [m.key]) :=
  List.rel_append h (.cons hd.key .nil)

theorem Recorded.eq_map {fs : List Bytes} {ks : List MsgKey} (h : Recorded fs ks)
    (h16 : ∀ f ∈ fs, 16 ≤ f.length) : ks = fs.map keyOf := by
  induction h with
  | nil => rfl
  | cons hfk _ ih =>
      rw [List.map_cons, ← hfk (h16 _ List.mem_cons_self),
        ih fun f hf => h16 f (List.mem_cons_of_mem _ hf)]

/-! ## Between the socket and the buffer -/

/-- Where the loop's thread is: in no callback, or in the read or the parse loop of
`nb_tcp_session_on_msg` on a context. -/
inductive Phase where
  | idle
  | reading (c : Nat)
  | parsing (c : Nat)
  deriving DecidableEq

/-- The thread is not in a callback of `c`. -/
def Phase.Off (p : Phase) (c : Nat) : Prop := p ≠ .reading c ∧ p ≠ .parsing c

theorem Phase.off_idle (c : Nat) : Phase.idle.Off c := ⟨fun h => (nomatch h), fun h => (nomatch h)⟩

theorem Phase.off_reading {d c : Nat} (hdc : d ≠ c) : (Phase.reading d).Off c :=
  ⟨fun h => hdc (Phase.reading.inj h), fun h => (nomatch h)⟩

theorem Phase.off_parsing {d c : Nat} (hdc : d ≠ c) : (Phase.parsing d).Off c :=
  ⟨fun h => (nomatch h), fun h => hdc (Phase.parsing.inj h)⟩

variable {β : Type} {B : BytesBuffer β} {contents : β → Bytes} {cap : Nat}

/-- The frames `fs` were cut off `got`, the bytes read from a connection; its session,
if it is there, has no length limit and holds what is left. -/
def Cut (contents : β → Bytes) (got : Bytes) (ses : Option (NbTcpSession β))
    (fs : List Bytes) : Prop :=
  ∃ t, nbFraming.Reaches got fs t ∧
    ∀ s, ses = some s → contents s.bytesBuf = t ∧ s.msgLenLimit = 0

theorem cut_none (contents : β → Bytes) : Cut contents [] none [] :=
  ⟨[], Framing.Reaches.nil [], fun _ h => nomatch h⟩

theorem cut_new {ses : NbTcpSession β} (hbuf : contents ses.bytesBuf = [])
    (hlim : ses.msgLenLimit = 0) : Cut contents [] (some ses) [] := by
  refine ⟨[], Framing.Reaches.nil [], fun s hs => ?_⟩
  cases hs
  exact ⟨hbuf, hlim⟩

/-- Deleting the session leaves the frames cut off. -/
theorem Cut.delete {got : Bytes} {ses : Option (NbTcpSession β)} {fs : List Bytes}
    (h : Cut contents got ses fs) : Cut contents got none fs := by
  obtain ⟨t, ht, _⟩ := h
  exact ⟨t, ht, fun _ h => nomatch h⟩

/-- The frames cut off are frames of the bytes read. -/
theorem Cut.isPrefix {got : Bytes} {ses : Option (NbTcpSession β)} {fs : List Bytes}
    (h : Cut contents got ses fs) : fs <+: nbFraming.frames got := by
  obtain ⟨t, ht, _⟩ := h
  have hsplit := Framing.split_spec (F := nbFraming) got
  exact ht.prefix_of_whole hsplit.short hsplit.frames (hsplit.eq ▸ List.prefix_rfl)

/-- An iteration of the read loop: the chunk is in the buffer, or nothing changes. -/
theorem Cut.read (hB : B.Fifo contents cap) {got : Bytes} {ses : NbTcpSession β}
    {fs : List Bytes} (h : Cut contents got (some ses) fs) (r : Option Chunk) :
    (∃ ck b', r = some ck ∧ readIter B ses.bytesBuf r = .next b' ∧
      Cut contents (got ++ ck.bytes) (some { ses with bytesBuf := b' }) fs) ∨
    ∃ e, e ≠ .fault ∧ readIter B ses.bytesBuf r = .stop ses.bytesBuf e := by
  obtain ⟨t, ht, hses⟩ := h
  obtain ⟨hbuf, hlim⟩ := hses ses rfl
  rcases readIter_cases hB ses.bytesBuf r with ⟨ck, b', hr, hit, hcont⟩ | ⟨_, hit⟩ | ⟨_, hit⟩
  · refine Or.inl ⟨ck, b', hr, hit, t ++ ck.bytes, ht.append_right ck.bytes, fun s hs => ?_⟩
    cases hs
    exact ⟨by rw [hcont, hbuf], hlim⟩
  · exact Or.inr ⟨.drained, by decide, hit⟩
  · exact Or.inr ⟨.full, by decide, hit⟩

/-- An iteration of the parse loop on what is left of whole frames: it hands one over, or they
were all. -/
theorem Cut.deliver_or_all (hB : B.Fifo contents cap) {got : Bytes} {ses : NbTcpSession β}
    {fs : List Bytes} (h : Cut contents got (some ses) fs) (hok : HeadersOk got) :
    (∃ m b', parseIter B ses.msgLenLimit ses.bytesBuf = .deliver m b') ∨
      fs = nbFraming.frames got := by
  obtain ⟨t, ht, hses⟩ := h
  obtain ⟨rfl, hlim⟩ := hses ses rfl
  rw [hlim]
  rcases parseIter_of_headersOk hB (hok.rest ht) with ⟨hshort, _⟩ | ⟨f, mem, b', _, _, _, hit⟩
  · exact Or.inr (Framing.Splits.split_eq { ht with short := hshort }).1.symm
  · exact Or.inl ⟨_, b', hit⟩

/-- An iteration of the parse loop, when the headers do not wrap: a frame is handed
over, or nothing changes. -/
theorem Cut.parse (hB : B.Fifo contents cap) {got : Bytes} {ses : NbTcpSession β}
    {fs : List Bytes} (h : Cut contents got (some ses) fs) (hok : HeadersOk got) :
    parseIter B ses.msgLenLimit ses.bytesBuf = .stop ses.bytesBuf false ∨
    ∃ f m b', parseIter B ses.msgLenLimit ses.bytesBuf = .deliver m b' ∧ Delivered f m ∧
      Cut contents got (some { ses with bytesBuf := b' }) (fs ++ [f]) := by
  obtain ⟨t, ht, hses⟩ := h
  obtain ⟨rfl, hlim⟩ := hses ses rfl
  rw [hlim]
  rcases parseIter_of_headersOk hB (hok.rest ht) with ⟨_, hit⟩ | ⟨f, mem, b', heq, hf, hp, hit⟩
  · exact Or.inl hit
  · have hlt : f.length < 2 ^ 31 := by
      have hle := hB.length_le ses.bytesBuf
      have hcap := hB.cap_lt
      rw [heq, List.length_append] at hle
      omega
    refine Or.inr ⟨f, _, b', hit, delivered_of hf hlt hp, contents b', ?_, fun s hs => ?_⟩
    · rw [heq] at ht
      exact ht.snoc hf
    · cases hs
      exact ⟨rfl, rfl⟩

/-! ## The read loop -/

/-- What the read loop works on, in the server and in the upstream. -/
structure ReadState (β : Type) where
  session : Nat → Option (NbTcpSession β)
  phase : Phase
  got : Nat → Bytes

namespace ReadState

variable {x : ReadState β} {c : Nat} {ses : NbTcpSession β}

/-- The session of `c` has a new buffer. -/
def setBuf (x : ReadState β) (c : Nat) (ses : NbTcpSession β) (b : β) : ReadState β :=
  { x with session := Function.update x.session c (some { ses with bytesBuf := b }) }

/-- An iteration of the read loop on `c`. -/
def readOne (B : BytesBuffer β) (c : Nat) (ses : NbTcpSession β) (r : Option Chunk)
    (x : ReadState β) : ReadState β :=
  match readIter B ses.bytesBuf r with
  | .next b =>
      { x.setBuf c ses b with
        got := Function.update x.got c (x.got c ++ (r.map Chunk.bytes).getD []) }
  | .stop b .fault => { x.setBuf c ses b with phase := .idle }
  | .stop b _ => { x.setBuf c ses b with phase := .parsing c }

theorem got_readOne_of_ne {d : Nat} (hdc : d ≠ c) (r : Option Chunk) :
    (x.readOne B d ses r).got c = x.got c := by
  unfold readOne
  split
  · exact Function.update_of_ne (Ne.symm hdc) _ _
  · rfl
  · rfl

theorem got_isPrefix_readOne (x : ReadState β) (B : BytesBuffer β) (c d : Nat)
    (ses : NbTcpSession β) (r : Option Chunk) :
    x.got c <+: (x.readOne B d ses r).got c := by
  by_cases hdc : d = c
  · subst hdc
    unfold readOne
    split
    · show x.got d <+: Function.update x.got d _ d
      rw [Function.update_self]
      exact List.prefix_append _ _
    · exact List.prefix_rfl
    · exact List.prefix_rfl
  · exact ⟨[], (List.append_nil _).trans (got_readOne_of_ne hdc r).symm⟩

/-- The read loop goes on, or hands over to the parse loop: where the thread is in no callback
of `c` after an iteration, the iteration was one of another context. -/
theorem readOne_settles (hB : B.Fifo contents cap) {d : Nat} {fs : List Bytes} {r : Option Chunk}
    (hp : x.phase = .reading d) (hcut : d = c → Cut contents (x.got d) (some ses) fs)
    (hoff : (x.readOne B d ses r).phase.Off c) :
    (x.readOne B d ses r).got c = x.got c ∧ x.phase.Off c := by
  by_cases hdc : d = c
  · subst hdc
    refine absurd hoff fun hoff => ?_
    unfold readOne at hoff
    rcases (hcut rfl).read hB r with ⟨ck, b', _, hit, _⟩ | ⟨e, he, hit⟩
    · rw [hit] at hoff
      exact hoff.1 hp
    · rw [hit] at hoff
      cases e with
      | fault => exact he rfl
      | drained => exact hoff.2 rfl
      | full => exact hoff.2 rfl
  · exact ⟨got_readOne_of_ne hdc r, hp ▸ Phase.off_reading hdc⟩

theorem readOne_next {b : β} {ck : Chunk} (hread : readIter B ses.bytesBuf (some ck) = .next b) :
    x.readOne B c ses (some ck) =
      { x.setBuf c ses b with got := Function.update x.got c (x.got c ++ ck.bytes) } := by
  simp only [readOne, hread, Option.map_some, Option.getD_some]

theorem readOne_stop {b : β} {e : ReadEnd} (he : e ≠ .fault)
    (hend : readIter B ses.bytesBuf none = .stop b e) :
    x.readOne B c ses none = { x.setBuf c ses b with phase := .parsing c } := by
  unfold readOne
  rw [hend]
  cases e with
  | fault => exact absurd rfl he
  | drained => rfl
  | full => rfl

end ReadState

end NetBench

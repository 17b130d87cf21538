/-
# `NetBench.Msg` — the message structures on the wire

`msg_struct.h`: two packed structures of two `uint32_t` each.  A stored
`uint32_t` is its four bytes, least significant first; the programs of one
chain run on machines of one byte order and never convert.

A read through a pointer sees whatever memory follows, so decoding takes the
memory from the pointer on; bytes past the end of a list read as `0`.
-/
import NetBench.Lib.Framing
import Mathlib.Algebra.Group.Int.Defs
import Mathlib.Algebra.Group.Nat.Defs
import Mathlib.Data.List.GetD

namespace NetBench

open Lib

abbrev Bytes := List UInt8

/-! ## Stored 32-bit integers -/

/-- The four bytes of a stored `uint32_t`. -/
def u32Bytes (x : UInt32) : Bytes :=
  [UInt8.ofNat x.toNat, UInt8.ofNat (x.toNat / 2 ^ 8),
   UInt8.ofNat (x.toNat / 2 ^ 16), UInt8.ofNat (x.toNat / 2 ^ 24)]

/-- The `uint32_t` stored at the front of `m`. -/
def leU32 (m : Bytes) : UInt32 :=
  UInt32.ofNat ((m.getD 0 0).toNat + (m.getD 1 0).toNat * 2 ^ 8 +
    (m.getD 2 0).toNat * 2 ^ 16 + (m.getD 3 0).toNat * 2 ^ 24)

@[simp] theorem length_u32Bytes (x : UInt32) : (u32Bytes x).length = 4 := rfl

@[simp] theorem leU32_u32Bytes (x : UInt32) (r : Bytes) : leU32 (u32Bytes x ++ r) = x := by
  have hx := x.toNat_lt
  rw [← UInt32.toNat_inj]
  simp only [leU32, u32Bytes, List.cons_append, List.getD_cons_zero, List.getD_cons_succ,
    UInt8.toNat_ofNat', UInt32.toNat_ofNat']
  omega

theorem leU32_append {l : Bytes} (h : 4 ≤ l.length) (r : Bytes) : leU32 (l ++ r) = leU32 l := by
  simp only [leU32]
  rw [List.getD_append _ _ _ _ (by omega), List.getD_append _ _ _ _ (by omega),
    List.getD_append _ _ _ _ (by omega), List.getD_append _ _ _ _ (by omega)]

/-! ## The two structures -/

/-- `nb_msg_hdr_t`. -/
@[ext] structure MsgHdr where
  msgId : UInt32
  payloadLen : UInt32
  deriving DecidableEq, Repr

/-- `nb_msg_data_t`. -/
@[ext] structure MsgData where
  userId : UInt32
  sequence : UInt32
  deriving DecidableEq, Repr

/-- `sizeof(nb_msg_hdr_t)`. -/
abbrev sizeofMsgHdr : Nat := 8

/-- `sizeof(nb_msg_data_t)`. -/
abbrev sizeofMsgData : Nat := 8

def MsgHdr.encode (h : MsgHdr) : Bytes := u32Bytes h.msgId ++ u32Bytes h.payloadLen

def MsgHdr.decode (m : Bytes) : MsgHdr := ⟨leU32 m, leU32 (m.drop 4)⟩

def MsgData.encode (d : MsgData) : Bytes := u32Bytes d.userId ++ u32Bytes d.sequence

def MsgData.decode (m : Bytes) : MsgData := ⟨leU32 m, leU32 (m.drop 4)⟩

@[simp] theorem MsgHdr.length_encode (h : MsgHdr) : h.encode.length = 8 := rfl

@[simp] theorem MsgData.length_encode (d : MsgData) : d.encode.length = 8 := rfl

@[simp] theorem MsgHdr.decode_encode (h : MsgHdr) (r : Bytes) : decode (h.encode ++ r) = h := by
  simp [decode, encode, List.append_assoc, List.drop_left' (length_u32Bytes _)]

@[simp] theorem MsgData.decode_encode (d : MsgData) (r : Bytes) : decode (d.encode ++ r) = d := by
  simp [decode, encode, List.append_assoc, List.drop_left' (length_u32Bytes _)]

theorem MsgHdr.decode_append {l : Bytes} (h : 8 ≤ l.length) (r : Bytes) :
    decode (l ++ r) = decode l := by
  simp only [decode, leU32_append (show 4 ≤ l.length by omega)]
  rw [List.drop_append_of_le_length (by omega), leU32_append (by rw [List.length_drop]; omega)]

theorem MsgData.decode_append {l : Bytes} (h : 8 ≤ l.length) (r : Bytes) :
    decode (l ++ r) = decode l := by
  simp only [decode, leU32_append (show 4 ≤ l.length by omega)]
  rw [List.drop_append_of_le_length (by omega), leU32_append (by rw [List.length_drop]; omega)]

theorem MsgHdr.decode_congr {l m : Bytes} (h : 8 ≤ l.length) (hp : l <+: m) :
    decode m = decode l := by
  obtain ⟨r, rfl⟩ := hp
  exact decode_append h r

theorem MsgHdr.decode_take {l : Bytes} (h : 8 ≤ l.length) {k : Nat} (hk : 8 ≤ k) :
    decode (l.take k) = decode l :=
  (decode_congr (by rw [List.length_take]; omega) (List.take_prefix k l)).symm

/-! ## Frames

A message on a TCP connection is a header and the `payload_len` bytes it
announces; the lengths here are integers, not `uint32_t`. -/

/-- Header, then `payload_len` bytes of payload. -/
def nbFraming : Framing UInt8 where
  hdrLen := sizeofMsgHdr
  hdrLen_pos := by decide
  size h := sizeofMsgHdr + (MsgHdr.decode h).payloadLen.toNat
  size_ge _ := Nat.le_add_right _ _

@[simp] theorem nbFraming_hdrLen : nbFraming.hdrLen = 8 := rfl

theorem announced_eq {l : Bytes} (h : 8 ≤ l.length) :
    nbFraming.announced l = 8 + (MsgHdr.decode l).payloadLen.toNat := by
  rw [← MsgHdr.decode_take h (Nat.le_refl 8)]
  rfl

theorem isFrame_iff {f : Bytes} :
    nbFraming.IsFrame f ↔ 8 ≤ f.length ∧ f.length = 8 + (MsgHdr.decode f).payloadLen.toNat := by
  constructor
  · intro h
    have hle : 8 ≤ f.length := h.hdrLen_le
    exact ⟨hle, by rw [← announced_eq hle]; exact h.symm⟩
  · rintro ⟨hle, heq⟩
    exact (announced_eq hle).trans heq.symm

/-- A header followed by as many bytes as it announces is a frame. -/
theorem isFrame_encode {h : MsgHdr} {payload : Bytes} (hlen : payload.length = h.payloadLen.toNat) :
    nbFraming.IsFrame (h.encode ++ payload) := by
  rw [isFrame_iff]
  simp [hlen]

/-- Every header reached by splitting `l` greedily satisfies
`8 + payload_len < 2^32`. -/
def HeadersOk (l : Bytes) : Prop := nbFraming.HeadersIn (· < 2 ^ 32) l

instance (l : Bytes) : Decidable (HeadersOk l) :=
  inferInstanceAs (Decidable (nbFraming.HeadersIn (· < 2 ^ 32) l))

end NetBench

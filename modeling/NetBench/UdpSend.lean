/-
# `NetBench.UdpSend` — the datagrams of the UDP client

`run` of `udp_client` has no lower bound for `msg_size`; the 16 bytes of header and data
are written at a stride of `msg_size`.  With a stride of 16 or more every slice holds its
message, and every datagram is the message of its place in the round.  With a smaller one
the last slice goes past the end of the block, unless there is no slice at all
(`emits_own_iff`).
-/
import NetBench.TableSize
import NetBench.UdpClient

namespace NetBench.UdpClient

open Lib NbSysArgs

variable {a : NbSysArgs} {s s' : UdpClient} {T : Bytes}

/-! ## The start of `run` -/

/-- What `run` looks at before it prepares anything: three strings of `nb_sys_args_t`, and
whether `muggle_socket_getaddrinfo`, `muggle_evloop_new` and `nb_udp_bind` succeed. -/
structure Setup where
  bindHost : String
  connHost : String
  connPort : String
  addrInfo : Bool
  evloop : Bool
  bound : Bool
  deriving DecidableEq, Repr

/-- `run` does not return early. -/
def Setup.admitted (u : Setup) : Bool :=
  decide (u.bindHost ≠ "" ∧ u.connHost ≠ "" ∧ u.connPort ≠ "") && u.addrInfo && u.evloop && u.bound

/-- How `run` gets to the loop: it returns early, a store leaves the block, or the loop starts. -/
inductive Started where
  | refused
  | outside
  | loop (s : UdpClient)

/-- `run` up to the start of the loop, on a block with the contents `m`. -/
def run (u : Setup) (a : NbSysArgs) (ts : Timespec) (m : Bytes) : Started :=
  if u.admitted then
    match a.prepare m with
    | none => .outside
    | some T => .loop (start ts T)
  else .refused

/-! ## Messages -/

/-- The bytes decode to the message with sequence `i`. -/
structure DecodesTo (a : NbSysArgs) (i : Nat) (buf : Bytes) : Prop where
  length_eq : buf.length = a.msgSize.toNat
  msgId : (MsgHdr.decode buf).msgId = 1
  payloadLen : (MsgHdr.decode buf).payloadLen.toNat + sizeofMsgHdr = a.msgSize.toNat
  userId : (MsgData.decode (buf.drop sizeofMsgHdr)).userId = a.userId
  sequence : (MsgData.decode (buf.drop sizeofMsgHdr)).sequence.toNat = i

theorem decodesTo_of_isMessage {i : Nat} {b : Bytes} (h : a.IsMessage i b) (hi : i < 2 ^ 32) :
    DecodesTo a i b where
  length_eq := h.1
  msgId := by rw [h.hdr]; rfl
  payloadLen := by
    have hge := h.ge
    rw [h.hdr, msgHdr_payloadLen hge]
    show a.msgSize.toNat - 8 + 8 = _
    omega
  userId := by rw [h.data]; rfl
  sequence := by
    rw [h.data]
    exact UInt32.toNat_ofNat_of_lt' hi

/-! ## Where the loop stands -/

/-- The table is as it was prepared, and the loop stands at its message. -/
structure Aimed (a : NbSysArgs) (T : Bytes) (s : UdpClient) : Prop where
  table : s.datas = T
  sending : ∀ l, s.sending = some l → s.roundIndex < a.roundNum ∧
    l.seq = UInt32.ofNat (a.position s.roundIndex l.i) ∧
    l.p = a.position s.roundIndex l.i * a.msgSize.toNat

theorem aimed_start (ts : Timespec) (T : Bytes) : Aimed a T (start ts T) where
  table := rfl
  sending _ h := nomatch h

/-- A callback that sends nothing. -/
theorem Aimed.of_same (h : Aimed a T s) (hdatas : s'.datas = s.datas)
    (hround : s'.roundIndex = s.roundIndex) (hsending : s'.sending = s.sending) : Aimed a T s' := by
  refine ⟨hdatas.trans h.table, fun l hl => ?_⟩
  rw [hround]
  exact h.sending l (hsending.symm.trans hl)

/-- One iteration at message `d` of a prepared table: both assertions hold, the message
is sent, and the table stays as it is. -/
theorem sendOne_spec (hT : a.Prepared T) {d c : Nat} (hd : d < a.total) {l : Sending}
    (hseq : l.seq = UInt32.ofNat d) (hp : l.p = d * a.msgSize.toNat) (htable : s.datas = T)
    (w : WriteOutcome) : ∃ s' r, sendOne a c l w s = some s' ∧
      s'.log = s.log ++ (.record c (a.record l.seq .clientSndBegin) ::
        .write c (a.slice T d) (ctxSendto w (a.slice T d)).2 :: r) ∧
      (r = [] ∨ r = [.record c (a.record l.seq .clientSndEnd)]) ∧
      s'.datas = T ∧ s'.roundIndex = s.roundIndex ∧
      (s'.sending = none ∨ s'.sending = some ⟨l.i + 1, l.seq + 1, l.p + a.msgSize.toNat⟩) := by
  obtain ⟨m, hm, hhdr, hdata⟩ := hT.load_head hd
  have hm : Block.load T (d * a.msgSize.toNat) (sizeofMsgHdr + sizeofMsgData) = some m := hm
  have hst := hT.store_seq hd
  have hev : ∀ acc full, sendEvents a c l m (a.slice T d) acc full =
      .record c (a.record l.seq .clientSndBegin) :: .write c (a.slice T d) acc ::
        if full then [.record c (a.record l.seq .clientSndEnd)] else [] := by
    intro acc full
    have hid : decide ((MsgHdr.decode m).msgId = 1) = true := by rw [hhdr]; rfl
    have hsq : decide ((MsgData.decode (m.drop sizeofMsgHdr)).sequence = l.seq) = true := by
      rw [hdata, hseq]
      exact decide_eq_true rfl
    rw [sendEvents, hid, hsq]
    rfl
  unfold sendOne
  rw [htable, hp, hseq]
  simp only [hm, hst, load_slice hT.length_eq hd, Option.bind_eq_bind, Option.bind_some]
  rw [← hseq, ← hp]
  split
  · rename_i hfull
    refine ⟨_, _, rfl, ?_, Or.inr rfl, rfl, rfl, Or.inr rfl⟩
    show s.log ++ sendEvents a c l m (a.slice T d) _ _ = _
    rw [hev, if_pos hfull]
  · rename_i hfull
    refine ⟨_, _, rfl, ?_, Or.inl rfl, rfl, rfl, Or.inl rfl⟩
    show s.log ++ sendEvents a c l m (a.slice T d) _ _ = _
    rw [hev, if_neg hfull]

theorem Aimed.step (hprod : a.msgSize.toNat * a.numPerRound.toNat * a.roundNum.toNat < 2 ^ 32)
    (hT : a.Prepared T) (h : Aimed a T s) {e : UdpEvent} (hs : Step a s e s') : Aimed a T s' := by
  cases hs with
  | add hsend hc => exact h.of_same rfl rfl rfl
  | @timer ts hsend =>
      unfold onTimer
      split
      · exact h.of_same rfl rfl rfl
      · rename_i hr
        split
        · exact h
        · split
          · exact h
          · refine ⟨h.table, fun l hl => ?_⟩
            cases hl
            have hlt : s.roundIndex < a.roundNum := UInt32.not_le.mp hr
            refine ⟨hlt, ?_, ?_⟩
            · rw [seq_eq]
              rfl
            · exact offset_eq hprod (Nat.le_of_lt (UInt32.lt_iff_toNat_lt.mp hlt))
  | @send _ l c w hl hi hc hsend =>
      obtain ⟨hr, hseq, hp⟩ := h.sending l hl
      obtain ⟨t, r, ht, -, -, hdatas, hround, hor⟩ :=
        sendOne_spec (c := c) hT (position_lt hr hi) hseq hp h.table w
      obtain rfl : t = s' := Option.some.inj (ht.symm.trans hsend)
      refine ⟨hdatas, fun l' hl' => ?_⟩
      rcases hor with hnone | hsome
      · cases hnone.symm.trans hl'
      · obtain rfl := Option.some.inj (hsome.symm.trans hl')
        have hpos : a.position t.roundIndex (l.i + 1) = a.position s.roundIndex l.i + 1 := by
          rw [hround]
          exact position_succ hi
        rw [hpos, hround]
        refine ⟨hr, ?_, ?_⟩
        · show l.seq + 1 = _
          rw [hseq, UInt32.ofNat_add]
          rfl
        · show l.p + _ = _
          rw [hp, Nat.succ_mul]
  | roundDone =>
      refine ⟨h.table, fun l hl => ?_⟩
      cases hl
  | close hsend hc hshut => exact h.of_same rfl rfl rfl
  | release hsend hc => exact h.of_same rfl rfl rfl

/-! ## When the datagrams are messages -/

/-- The loop of `on_timer` at message `i` of round `r`, on the context `c`: whatever the
send returns, the iteration asserts nothing that is false and hands the message over. -/
def SendsOwn (a : NbSysArgs) (s : UdpClient) (c : Nat) (l : Sending) : Prop :=
  s.roundIndex < a.roundNum ∧ ∀ w, ∃ s' buf acc r, sendOne a c l w s = some s' ∧
    s'.log = s.log ++ (.record c (a.record l.seq .clientSndBegin) :: .write c buf acc :: r) ∧
    (r = [] ∨ r = [.record c (a.record l.seq .clientSndEnd)]) ∧
    DecodesTo a (a.position s.roundIndex l.i) buf

/-- `run` refuses the arguments, or every store stays inside of the block and every message
sent in every run is that of its place. -/
structure EmitsOwn (u : Setup) (a : NbSysArgs) : Prop where
  inside : ∀ ts m, m.length = a.tableBytes.toNat → run u a ts m ≠ .outside
  own : ∀ {ts m s₀ es s l c}, m.length = a.tableBytes.toNat → run u a ts m = .loop s₀ →
    Run (Step a) s₀ es s → s.sending = some l → l.i < a.numPerRound → s.ctx = some c →
    SendsOwn a s c l

/-- Without a message nothing is prepared. -/
theorem prepare_of_total_zero (h : a.total = 0) (m : Bytes) : a.prepare m = some m := by
  have hcount : a.tableCount.toNat = 0 := by
    rw [tableCount, UInt32.toNat_mul]
    exact (congrArg (· % 2 ^ 32) h).trans (Nat.zero_mod _)
  rw [prepare, hcount]
  rfl

theorem prepare_of_ok (hprod : a.msgSize.toNat * a.numPerRound.toNat * a.roundNum.toNat < 2 ^ 32)
    (h : 16 ≤ a.msgSize.toNat ∨ a.total = 0) {m : Bytes} (hm : m.length = a.tableBytes.toNat) :
    ∃ T, a.prepare m = some T ∧ a.Prepared T := by
  rcases h with h16 | hzero
  · exact prepare_prepared ⟨h16, hprod⟩ hm
  · refine ⟨m, prepare_of_total_zero hzero m, hm.trans (tableBytes_toNat hprod), fun i hi => ?_⟩
    rw [hzero] at hi
    exact absurd hi (Nat.not_lt_zero i)

/-- With a stride below 16 the data of the last message ends behind the block. -/
theorem prepare_eq_none (hprod : a.msgSize.toNat * a.numPerRound.toNat * a.roundNum.toNat < 2 ^ 32)
    (hpos : 1 ≤ a.msgSize.toNat) (hlt : a.msgSize.toNat < 16) (htotal : 0 < a.total) {m : Bytes}
    (hm : m.length = a.tableBytes.toNat) : a.prepare m = none := by
  have hlen := hm.trans (tableBytes_toNat hprod)
  have hcount : a.tableCount.toNat = a.total := by
    have hle : a.total ≤ a.msgSize.toNat * a.numPerRound.toNat * a.roundNum.toNat := by
      rw [Nat.mul_assoc]
      exact Nat.le_mul_of_pos_left _ hpos
    rw [tableCount, UInt32.toNat_mul]
    exact Nat.mod_eq_of_lt (show a.total < 2 ^ 32 by omega)
  obtain ⟨k, hk⟩ : ∃ k, a.total = k + 1 := ⟨a.total - 1, by omega⟩
  rw [prepare, hcount, hk]
  rcases Option.eq_none_or_eq_some (a.prepareUpTo m k) with hnone | ⟨m₁, hm₁⟩
  · simp [prepareUpTo, hnone]
  · -- the last iteration
    have hlen₁ := (length_prepareUpTo k hm₁).trans hlen
    rw [hk, Nat.succ_mul] at hlen₁
    have hst : ∀ m₂, Block.store m₁ (k * a.msgSize.toNat) a.msgHdr.encode = some m₂ →
        Block.store m₂ (k * a.msgSize.toNat + sizeofMsgHdr) (a.msgData (UInt32.ofNat k)).encode =
          none := by
      intro m₂ h₂
      have hlen₂ := Block.length_store h₂
      refine if_neg ?_
      rw [MsgData.length_encode, hlen₂, hlen₁]
      show ¬ k * a.msgSize.toNat + 8 + 8 ≤ k * a.msgSize.toNat + a.msgSize.toNat
      omega
    simp only [prepareUpTo, hm₁, Option.bind_eq_bind, Option.bind_some, prepareSlice]
    rcases Option.eq_none_or_eq_some
      (Block.store m₁ (k * a.msgSize.toNat) a.msgHdr.encode) with hnone | ⟨m₂, hm₂⟩
    · rw [hnone]
      rfl
    · rw [hm₂]
      exact hst m₂ hm₂

/-- The property holds exactly if `run` refuses the arguments, or `msg_size` has room for
header and data, or there is no message. -/
theorem emits_own_iff (u : Setup) (hpos : 1 ≤ a.msgSize.toNat)
    (hprod : a.msgSize.toNat * a.numPerRound.toNat * a.roundNum.toNat < 2 ^ 32) :
    EmitsOwn u a ↔ u.admitted = false ∨ 16 ≤ a.msgSize.toNat ∨ a.total = 0 := by
  constructor
  · intro h
    by_contra hno
    simp only [not_or, Bool.not_eq_false, Nat.not_le] at hno
    obtain ⟨hadm, hlt, htotal⟩ := hno
    refine h.inside ⟨0, 0⟩ (List.replicate a.tableBytes.toNat 0) List.length_replicate ?_
    rw [run, if_pos hadm, prepare_eq_none hprod hpos hlt (Nat.pos_of_ne_zero htotal)
      List.length_replicate]
  · intro hcond
    rcases hcond with hadm | hok
    · have hrun : ∀ ts m, run u a ts m = .refused := by
        intro ts m
        rw [run, hadm]
        rfl
      refine ⟨?_, ?_⟩
      · intro ts m _ hout
        exact nomatch (hrun ts m).symm.trans hout
      · intro ts m s₀ es s l c _ hstart
        exact nomatch (hrun ts m).symm.trans hstart
    · refine ⟨?_, ?_⟩
      · intro ts m hm
        obtain ⟨T, hT, _⟩ := prepare_of_ok hprod hok hm
        rw [run, hT]
        split
        · exact fun h => nomatch h
        · exact fun h => nomatch h
      · intro ts m s₀ es s l c hm hstart hrun hl hi hc
        obtain ⟨T, hT, hprep⟩ := prepare_of_ok hprod hok hm
        have hs₀ : s₀ = start ts T := by
          rw [run, hT] at hstart
          split at hstart
          · injection hstart with h
            exact h.symm
          · cases hstart
        rw [hs₀] at hrun
        have haim := hrun.invariant (I := Aimed a T) (fun _ _ _ h hs => h.step hprod hprep hs)
          (aimed_start ts T)
        obtain ⟨hr, hseq, hp⟩ := haim.sending l hl
        have hlt := position_lt hr hi
        have hmsg := hprep.message _ hlt
        have htotal := Sized.total_lt ⟨hmsg.ge, hprod⟩
        refine ⟨hr, fun w => ?_⟩
        obtain ⟨s', r, hs', hlog, hr', -⟩ :=
          sendOne_spec (c := c) hprep hlt hseq hp haim.table w
        exact ⟨s', _, _, r, hs', hlog, hr', decodesTo_of_isMessage hmsg (by omega)⟩

/-- One message of eight bytes, and arguments that `run` admits. -/
def shortMessage : NbSysArgs := ⟨7, 1, 1, 0, 8, 0⟩

def localSetup : Setup := ⟨"127.0.0.1", "127.0.0.1", "10102", true, true, true⟩

/-- The data of it is written behind the block. -/
theorem shortMessage_outside :
    (List.replicate 8 (0 : UInt8)).length = shortMessage.tableBytes.toNat ∧
    localSetup.admitted = true ∧
    shortMessage.prepare (List.replicate 8 0) = none ∧ ¬ EmitsOwn localSetup shortMessage := by
  have hnone : shortMessage.prepare (List.replicate 8 0) = none := by decide
  have hadm : localSetup.admitted = true := by decide
  refine ⟨by decide, hadm, hnone, fun h => ?_⟩
  refine h.inside ⟨0, 0⟩ (List.replicate 8 0) (by decide) ?_
  rw [run, if_pos hadm, hnone]

/-- With 16 bytes a message, every datagram is a message. -/
theorem messages_emitted : EmitsOwn localSetup ⟨7, 2, 3, 0, 16, 0⟩ :=
  (emits_own_iff localSetup (by decide) (by decide)).mpr (Or.inr (Or.inl (by decide)))

end NetBench.UdpClient

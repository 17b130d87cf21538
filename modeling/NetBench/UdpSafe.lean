/-
# `NetBench.UdpSafe` — which datagrams the UDP receivers treat safely

Both callbacks read `msg_id`, `payload_len`, `user_id` and `sequence` from the first
16 bytes of `buf`, whatever the read returned, and both go on after a failed assertion.
For a datagram `d` that is not empty

    the stack does not show in a record      ⟺  16 ≤ length of `d`
    nothing is left if `d` is no message     ⟺  `d` is a message

The first line compares two runs over the same datagrams with different bytes on the
stack (`Receiver.independent_iff`).  Together they hold of a run if and only if every
datagram in it is a message (`Receiver.treatsSafely_iff`); the two programs are instances
of `Receiver`.
-/
import NetBench.UdpReceive

namespace NetBench

open Lib

/-! ## What is compared -/

/-- The record of an event. -/
def RecvEv.record? : RecvEv → Option Record
  | .record r => some r
  | _ => none

/-- The bytes that the socket takes in an event. -/
def RecvEv.sent? : RecvEv → Option Bytes
  | .sendto _ _ _ acc => some acc
  | _ => none

/-- The emitted records, in order. -/
def emitted (evs : List RecvEv) : List Record := evs.filterMap RecvEv.record?

/-- The bytes sent, in order. -/
def sentBytes (evs : List RecvEv) : List Bytes := evs.filterMap RecvEv.sent?

theorem emitted_append (l l' : List RecvEv) : emitted (l ++ l') = emitted l ++ emitted l' :=
  List.filterMap_append

theorem emitted_recvAssert (x : RecvAssertion) (ok : Bool) : emitted (recvAssert x ok) = [] := by
  cases ok with
  | true => rfl
  | false => rfl

/-- A datagram that the assertions are about: both structures are in it and its header
says what it is. -/
structure ValidDatagram (d : Bytes) : Prop where
  room : sizeofMsgHdr + sizeofMsgData ≤ d.length
  msgId : (MsgHdr.decode d).msgId = 1
  payloadLen : sizeofMsgHdr + (MsgHdr.decode d).payloadLen.toNat = d.length

/-- The fields that the callbacks use, as they read them from `buf`. -/
def usedFields (buf : Bytes) : MsgHdr × MsgData :=
  (MsgHdr.decode buf, MsgData.decode (buf.drop sizeofMsgHdr))

/-- What the callbacks use of `d` does not depend on the bytes that were on the stack. -/
def FieldsReceived (d : Bytes) : Prop :=
  ∀ stack stack' : Bytes, stack.length = sizeofBuf → stack'.length = sizeofBuf →
    usedFields (recvInto stack (some d)).2 = usedFields (recvInto stack' (some d)).2

/-! ## The bytes behind a short datagram -/

theorem top_leU32 (m : Bytes) : (leU32 m).toNat / 2 ^ 24 = (m.getD 3 0).toNat := by
  have h₀ := (m.getD 0 0).toNat_lt
  have h₁ := (m.getD 1 0).toNat_lt
  have h₂ := (m.getD 2 0).toNat_lt
  have h₃ := (m.getD 3 0).toNat_lt
  rw [leU32, UInt32.toNat_ofNat']
  omega

/-- The last byte of `sequence` is the byte 15 of the buffer. -/
theorem top_sequence (buf : Bytes) :
    (usedFields buf).2.sequence.toNat / 2 ^ 24 = (buf.getD 15 0).toNat := by
  have hbyte : ((buf.drop sizeofMsgHdr).drop 4).getD 3 0 = buf.getD 15 0 := by
    simp [List.getD_eq_getElem?_getD]
  rw [usedFields, MsgData.decode, top_leU32, hbyte]

/-- Behind a datagram of fewer than 16 bytes the byte 15 is one of the stack. -/
theorem stack_at_15 {stack d : Bytes} (hstack : stack.length = sizeofBuf) (hd : d.length < 16) :
    (recvInto stack (some d)).2.getD 15 0 = stack.getD 15 0 := by
  have hfit : fitting d = d := fitting_of_le (by omega)
  rw [recvInto_some hstack, hfit]
  show (d ++ stack.drop d.length).getD 15 0 = stack.getD 15 0
  rw [List.getD_append_right _ _ _ _ (by omega), List.getD_eq_getElem?_getD, List.getElem?_drop,
    Nat.add_sub_cancel' (by omega), List.getD_eq_getElem?_getD]

/-- Another stack gives another `sequence`. -/
theorem exists_other_sequence {stack d : Bytes} (hstack : stack.length = sizeofBuf)
    (hd : d.length < 16) : ∃ stack' : Bytes, stack'.length = sizeofBuf ∧
      (usedFields (recvInto stack' (some d)).2).2.sequence ≠
        (usedFields (recvInto stack (some d)).2).2.sequence := by
  let x := stack.getD 15 0
  refine ⟨List.replicate sizeofBuf (x + 1), List.length_replicate, fun heq => ?_⟩
  have hbyte : (x + 1).toNat = x.toNat := calc
    (x + 1).toNat = ((recvInto (List.replicate sizeofBuf (x + 1)) (some d)).2.getD 15 0).toNat := by
        rw [stack_at_15 List.length_replicate hd]
        rfl
    _ = ((recvInto stack (some d)).2.getD 15 0).toNat := by
        rw [← top_sequence, ← top_sequence, heq]
    _ = x.toNat := by rw [stack_at_15 hstack hd]
  have hne : x + 1 ≠ x := by simp
  exact hne (UInt8.toNat_inj.mp hbyte)

/-- The four fields are those of the datagram if and only if it has 16 bytes. -/
theorem fieldsReceived_iff {d : Bytes} : FieldsReceived d ↔ 16 ≤ d.length := by
  constructor
  · intro h
    by_contra hshort
    have hzeros : (List.replicate sizeofBuf (0 : UInt8)).length = sizeofBuf :=
      List.length_replicate
    obtain ⟨stack', hstack', hne⟩ := exists_other_sequence hzeros (Nat.not_le.mp hshort)
    refine hne ?_
    rw [h stack' _ hstack' hzeros]
  · intro h stack stack' hstack hstack'
    rw [recvInto_some hstack, recvInto_some hstack', usedFields, usedFields, hdr_of_fitting h,
      hdr_of_fitting h, data_of_fitting h, data_of_fitting h]

/-! ## A receiver -/

/-- A step that adds nothing to the log, whatever is in it. -/
theorem frame_of_quiet {σ ε : Type} {step : σ → ε → σ → Prop} {log : σ → List RecvEv}
    {withLog : List RecvEv → σ → σ} {s t : σ} {e : ε} (hlog : log t = log s)
    (h : ∀ l, step (withLog l s) e (withLog l t)) :
    ∃ evs, log t = log s ++ evs ∧ ∀ l, step (withLog l s) e (withLog (l ++ evs) t) := by
  refine ⟨[], ?_, fun l => ?_⟩
  · rw [hlog, List.append_nil]
  · rw [List.append_nil]
    exact h l

/-- A program that reads datagrams into a buffer on its stack and only adds to its log. -/
structure Receiver (σ ε : Type) where
  step : σ → ε → σ → Prop
  log : σ → List RecvEv
  withLog : List RecvEv → σ → σ
  /-- an event without the bytes that were on the stack -/
  input : ε → ε
  /-- the datagram that an event takes off the socket -/
  datagram : ε → Option Bytes
  withLog_log : ∀ s, withLog (log s) s = s
  log_withLog : ∀ l s, log (withLog l s) = l
  /-- what a step adds to the log does not depend on the log -/
  frame : ∀ {s e t}, step s e t →
    ∃ evs, log t = log s ++ evs ∧ ∀ l, step (withLog l s) e (withLog (l ++ evs) t)
  /-- the stack decides nothing if the fields are received -/
  det : ∀ {s e t e' t'}, (∀ d, datagram e = some d → FieldsReceived d) →
    input e' = input e → step s e t → step s e' t' → t' = t
  /-- a datagram that is not empty leaves something -/
  leaves : ∀ {s e t d}, step s e t → datagram e = some d → d ≠ [] → log t ≠ log s
  /-- with fewer than 16 bytes it leaves another record for another stack -/
  reveals : ∀ {s e t d}, step s e t → datagram e = some d → d ≠ [] → d.length < 16 →
    ∃ e' evs evs', input e' = input e ∧ log t = log s ++ evs ∧
      step s e' (withLog (log s ++ evs') t) ∧ emitted evs' ≠ emitted evs

namespace Receiver

variable {σ ε : Type} (R : Receiver σ ε)

/-- The datagrams taken off the socket, in order. -/
def datagrams (es : List ε) : List Bytes := es.filterMap R.datagram

/-- A second run over the same datagrams, with anything else on the stack, emits the same
records and sends the same bytes. -/
def Independent (s₀ : σ) (es : List ε) : Prop :=
  ∀ (es' : List ε) (s s' : σ), es'.map R.input = es.map R.input →
    Run R.step s₀ es s → Run R.step s₀ es' s' →
    emitted (R.log s') = emitted (R.log s) ∧ sentBytes (R.log s') = sentBytes (R.log s)

/-- A datagram that is no message leaves no record, no send and no failed assertion. -/
def Drops (s₀ : σ) (es : List ε) : Prop :=
  ∀ (fs : List ε) (e : ε) (gs : List ε) (s t : σ) (d : Bytes), es = fs ++ e :: gs →
    Run R.step s₀ fs s → R.step s e t → R.datagram e = some d → ¬ ValidDatagram d →
    R.log t = R.log s

/-- Every datagram of a run is treated safely. -/
structure TreatsSafely (s₀ : σ) (es : List ε) : Prop where
  independent : R.Independent s₀ es
  received : ∀ d ∈ R.datagrams es, FieldsReceived d
  dropped : R.Drops s₀ es

variable {R} {s s₀ t : σ} {es : List ε}

/-- What a run adds to the log does not depend on the log. -/
theorem frame_run (h : Run R.step s es t) :
    ∃ evs, R.log t = R.log s ++ evs ∧
      ∀ l, Run R.step (R.withLog l s) es (R.withLog (l ++ evs) t) := by
  induction h with
  | nil s =>
      refine ⟨[], (List.append_nil _).symm, fun l => ?_⟩
      rw [List.append_nil]
      exact .nil _
  | cons hs _ ih =>
      obtain ⟨evs, hlog, hstep⟩ := R.frame hs
      obtain ⟨rest, hrest, hrun⟩ := ih
      refine ⟨evs ++ rest, ?_, fun l => ?_⟩
      · rw [hrest, hlog, List.append_assoc]
      · rw [← List.append_assoc]
        exact .cons (hstep l) (hrun (l ++ evs))

/-- A run passes through the step that takes a datagram. -/
theorem exists_step (h : Run R.step s₀ es t) {d : Bytes} (hd : d ∈ R.datagrams es) :
    ∃ fs e gs s s', es = fs ++ e :: gs ∧ Run R.step s₀ fs s ∧ R.step s e s' ∧
      Run R.step s' gs t ∧ R.datagram e = some d := by
  obtain ⟨e, he, hdata⟩ := List.mem_filterMap.mp hd
  obtain ⟨fs, gs, rfl⟩ := List.append_of_mem he
  obtain ⟨s, hfs, hrest⟩ := h.split
  cases hrest with
  | cons hs hgs => exact ⟨fs, e, gs, s, _, rfl, hfs, hs, hgs, hdata⟩

/-- Two runs show the same if and only if no datagram is shorter than 16 bytes. -/
theorem independent_iff (hrun : Run R.step s₀ es t) (hne : ∀ d ∈ R.datagrams es, d ≠ []) :
    R.Independent s₀ es ↔ ∀ d ∈ R.datagrams es, 16 ≤ d.length := by
  constructor
  · intro h d hd
    by_contra hshort
    obtain ⟨fs, e, gs, s, s', rfl, hfs, hs, hgs, hdata⟩ := exists_step hrun hd
    obtain ⟨e', evs, evs', hinput, hlog, hs', hother⟩ :=
      R.reveals hs hdata (hne d hd) (Nat.not_le.mp hshort)
    obtain ⟨rest, hrest, hframe⟩ := frame_run hgs
    have hrun' : Run R.step s₀ (fs ++ e' :: gs) (R.withLog ((R.log s ++ evs') ++ rest) t) :=
      hfs.append (.cons hs' (hframe _))
    have hsame := (h (fs ++ e' :: gs) t _ (by simp [hinput]) hrun hrun').1
    rw [R.log_withLog, hrest, hlog, emitted_append, emitted_append, emitted_append,
      emitted_append, List.append_cancel_right_eq, List.append_cancel_left_eq] at hsame
    exact hother hsame
  · intro h es' s s' hinput hs hs'
    have hP : ∀ e ∈ es, ∀ d, R.datagram e = some d → FieldsReceived d := by
      intro e he d hd
      exact fieldsReceived_iff.mpr (h d (List.mem_filterMap.mpr ⟨e, he, hd⟩))
    have hdet : ∀ s e t e' t', (∀ d, R.datagram e = some d → FieldsReceived d) →
        R.input e' = R.input e → R.step s e t → R.step s e' t' → t' = t :=
      fun _ _ _ _ _ hf hi => R.det hf hi
    obtain rfl := hs.eq_of_map_eq hdet hs' hP hinput
    exact ⟨rfl, rfl⟩

/-- A run treats its datagrams safely if and only if they are messages. -/
theorem treatsSafely_iff (hrun : Run R.step s₀ es t) (hne : ∀ d ∈ R.datagrams es, d ≠ []) :
    R.TreatsSafely s₀ es ↔ ∀ d ∈ R.datagrams es, ValidDatagram d := by
  constructor
  · intro h d hd
    by_contra hbad
    obtain ⟨fs, e, gs, s, s', hes, hfs, hs, -, hdata⟩ := exists_step hrun hd
    exact R.leaves hs hdata (hne d hd) (h.dropped fs e gs s s' d hes hfs hs hdata hbad)
  · intro h
    have hroom : ∀ d ∈ R.datagrams es, 16 ≤ d.length := fun d hd => (h d hd).room
    refine ⟨(independent_iff hrun hne).mpr hroom, ?_, ?_⟩
    · intro d hd
      exact fieldsReceived_iff.mpr (hroom d hd)
    · rintro fs e gs s s' d rfl _ _ hdata hbad
      have hmem : d ∈ R.datagrams (fs ++ e :: gs) :=
        List.mem_filterMap.mpr ⟨e, List.mem_append_right _ List.mem_cons_self, hdata⟩
      exact absurd (h d hmem) hbad

end Receiver

/-! ## What a callback leaves -/

/-- The record of the fields in `buf`. -/
def recordOfBuf (act : Action) (buf : Bytes) (numBytes : Int) : Record :=
  ⟨(usedFields buf).2.userId, (usedFields buf).2.sequence, UInt32.ofInt numBytes, act⟩

theorem emitted_recvEvents (act : Action) (buf : Bytes) (numBytes : Int) :
    emitted (recvEvents act buf numBytes) = [recordOfBuf act buf numBytes] := by
  rw [recvEvents, emitted_append, emitted_append, emitted_recvAssert, emitted_recvAssert]
  rfl

theorem recvEvents_congr {act : Action} {buf buf' : Bytes} {numBytes : Int}
    (h : usedFields buf = usedFields buf') :
    recvEvents act buf numBytes = recvEvents act buf' numBytes := by
  obtain ⟨hhdr, hmsg⟩ := Prod.mk.inj h
  rw [recvEvents, recvEvents, hhdr, hmsg]

/-- The number of bytes read is the same for every stack. -/
theorem recvInto_fst {stack stack' : Bytes} (h : stack'.length = stack.length) (r : Option Bytes) :
    (recvInto stack' r).1 = (recvInto stack r).1 := by
  cases r with
  | none => rfl
  | some d => simp only [recvInto, h]

/-- It is positive if the datagram is not empty. -/
theorem recvInto_pos {stack d : Bytes} (hstack : stack.length = sizeofBuf) (hd : d ≠ []) :
    0 < (recvInto stack (some d)).1 := by
  have hlen := List.length_pos_iff.mpr hd
  rw [recvInto_some hstack, length_fitting]
  omega

/-- So many bytes at the start of the buffer are those that fit it. -/
theorem take_recvInto {stack : Bytes} (hstack : stack.length = sizeofBuf) (d : Bytes) :
    (recvInto stack (some d)).2.take (recvInto stack (some d)).1.toNat = fitting d := by
  rw [recvInto_some hstack]
  exact List.take_left

namespace UdpServer

/-- What the callback adds to the log after a read of `numBytes` bytes into `buf`. -/
def added (src : SockAddr) (w : WriteOutcome) (numBytes : Int) (buf : Bytes) (s : UdpServer) :
    Option (List RecvEv) :=
  if numBytes ≤ 0 then some []
  else if nbSockaddrEqual s.upstreamSa src then some (recvEvents .serverRcv buf numBytes)
  else s.ctx.map fun c =>
    recvEvents .serverRcv buf numBytes ++ sendEvents c s.upstreamSa w buf numBytes

theorem onMessage_eq (src : SockAddr) (r : Option Bytes) (stack : Bytes) (w : WriteOutcome)
    (s : UdpServer) :
    onMessage src r stack w s =
      (added src w (recvInto stack r).1 (recvInto stack r).2 s).map fun evs =>
        { s with log := s.log ++ evs } := by
  show (if (recvInto stack r).1 ≤ 0 then some s else _) = _
  unfold added
  split
  · simp
  · split
    · rfl
    · rw [Option.map_map]
      rfl

/-- The first record is that of the fields in `buf`. -/
theorem added_head {src : SockAddr} {w : WriteOutcome} {numBytes : Int} {buf : Bytes}
    {s : UdpServer} {evs : List RecvEv} (h : added src w numBytes buf s = some evs)
    (hpos : 0 < numBytes) :
    (emitted evs).head? = some (recordOfBuf .serverRcv buf numBytes) := by
  unfold added at h
  rw [if_neg (Int.not_le.mpr hpos)] at h
  split at h
  · obtain rfl := Option.some.inj h
    rw [emitted_recvEvents, List.head?_singleton]
  · obtain ⟨c, _, rfl⟩ := Option.map_eq_some_iff.mp h
    rw [emitted_append, emitted_recvEvents, List.singleton_append, List.head?_cons]

/-- Whether the callback succeeds does not depend on the buffer. -/
theorem isSome_added (src : SockAddr) (w : WriteOutcome) (numBytes : Int) (buf buf' : Bytes)
    (s : UdpServer) :
    (added src w numBytes buf s).isSome = (added src w numBytes buf' s).isSome := by
  unfold added
  split
  · rfl
  · split
    · rw [Option.isSome_some, Option.isSome_some]
    · rw [Option.isSome_map, Option.isSome_map]

theorem added_congr {src : SockAddr} {w : WriteOutcome} {numBytes : Int} {buf buf' : Bytes}
    {s : UdpServer} (hfields : usedFields buf = usedFields buf')
    (hout : buf.take numBytes.toNat = buf'.take numBytes.toNat) :
    added src w numBytes buf s = added src w numBytes buf' s := by
  obtain ⟨-, hmsg⟩ := Prod.mk.inj hfields
  unfold added sendEvents
  rw [recvEvents_congr hfields, hmsg, hout]

/-- What the callback adds does not depend on the log. -/
theorem onMessage_frame {src : SockAddr} {r : Option Bytes} {stack : Bytes} {w : WriteOutcome}
    {s t : UdpServer} (h : onMessage src r stack w s = some t) :
    ∃ evs, t.log = s.log ++ evs ∧
      ∀ l, onMessage src r stack w { s with log := l } = some { t with log := l ++ evs } := by
  rw [onMessage_eq] at h
  obtain ⟨evs, hevs, rfl⟩ := Option.map_eq_some_iff.mp h
  refine ⟨evs, rfl, fun l => ?_⟩
  rw [onMessage_eq]
  exact Option.map_eq_some_iff.mpr ⟨evs, hevs, rfl⟩

/-- A failed read leaves nothing. -/
theorem onMessage_none (src : SockAddr) (stack : Bytes) (w : WriteOutcome) (s : UdpServer) :
    onMessage src none stack w s = some s := rfl

/-- If the fields are received, the stack decides nothing. -/
theorem onMessage_congr {src : SockAddr} {r : Option Bytes} {stack stack' : Bytes}
    {w : WriteOutcome} {s : UdpServer} (hr : ∀ d, r = some d → FieldsReceived d)
    (hstack : stack.length = sizeofBuf) (hstack' : stack'.length = sizeofBuf) :
    onMessage src r stack' w s = onMessage src r stack w s := by
  cases r with
  | none => rw [onMessage_none, onMessage_none]
  | some d =>
      have hout := (take_recvInto hstack' d).trans (take_recvInto hstack d).symm
      have hnum := recvInto_fst (hstack'.trans hstack.symm) (some d)
      rw [onMessage_eq, onMessage_eq]
      rw [hnum] at hout ⊢
      rw [added_congr (hr d rfl stack' stack hstack' hstack) hout]

/-- The callback at a datagram that is not empty, with two stacks. -/
theorem onMessage_pair {src : SockAddr} {d stack stack' : Bytes} {w : WriteOutcome}
    {s t : UdpServer} (h : onMessage src (some d) stack w s = some t) (hd : d ≠ [])
    (hstack : stack.length = sizeofBuf) (hstack' : stack'.length = sizeofBuf) :
    ∃ evs evs', t.log = s.log ++ evs ∧
      onMessage src (some d) stack' w s = some { t with log := s.log ++ evs' } ∧
      (emitted evs).head? = some (recordOfBuf .serverRcv (recvInto stack (some d)).2
        (recvInto stack (some d)).1) ∧
      (emitted evs').head? = some (recordOfBuf .serverRcv (recvInto stack' (some d)).2
        (recvInto stack (some d)).1) := by
  have hpos := recvInto_pos hstack hd
  have hnum := recvInto_fst (hstack'.trans hstack.symm) (some d)
  rw [onMessage_eq] at h
  obtain ⟨evs, hevs, rfl⟩ := Option.map_eq_some_iff.mp h
  have hsome := isSome_added src w (recvInto stack (some d)).1 (recvInto stack (some d)).2
    (recvInto stack' (some d)).2 s
  rw [hevs, Option.isSome_some] at hsome
  obtain ⟨evs', hevs'⟩ := Option.isSome_iff_exists.mp hsome.symm
  refine ⟨evs, evs', rfl, ?_, added_head hevs hpos, added_head hevs' hpos⟩
  rw [onMessage_eq, hnum, hevs', Option.map_some]

end UdpServer

/-! ## The server -/

/-- The event without the bytes that were on the stack. -/
def UdpServerEvent.input : UdpServerEvent → UdpServerEvent
  | .message c src r _ w => .message c src r [] w
  | .add c => .add c
  | .close c => .close c
  | .release c => .release c

/-- Events with the same input are the same, or differ in the stack. -/
theorem UdpServerEvent.eq_or_of_input {e e' : UdpServerEvent} (h : e'.input = e.input) :
    e' = e ∨ ∃ c src r stack stack' w,
      e = .message c src r stack w ∧ e' = .message c src r stack' w := by
  cases e with
  | message c src r stack w =>
      cases e' with
      | message c' src' r' stack' w' =>
          obtain ⟨rfl, rfl, rfl, -, rfl⟩ := UdpServerEvent.message.inj h
          exact Or.inr ⟨c', src', r', stack, stack', w', rfl, rfl⟩
      | add | close | release => exact nomatch h
  | add | close | release =>
      cases e' with
      | message => exact nomatch h
      | add | close | release => exact Or.inl h

theorem UdpServer.Step.unique {s t t' : UdpServer} {e : UdpServerEvent} (h : UdpServer.Step s e t)
    (h' : UdpServer.Step s e t') : t' = t := by
  cases h with
  | add => cases h' with | add => rfl
  | message _ _ h =>
      cases h' with
      | message _ _ h' => exact Option.some.inj (h'.symm.trans h)
  | close => cases h' with | close => rfl
  | release => cases h' with | release => rfl

/-- The server with another log. -/
def UdpServer.withLog (l : List RecvEv) (s : UdpServer) : UdpServer := { s with log := l }

/-- `udp_server` as a receiver. -/
def UdpServer.receiver : Receiver UdpServer UdpServerEvent where
  step := UdpServer.Step
  log := UdpServer.log
  withLog := UdpServer.withLog
  input := UdpServerEvent.input
  datagram := UdpServerEvent.datagram
  withLog_log _ := rfl
  log_withLog _ _ := rfl
  frame := by
    intro s e t h
    cases h with
    | add hc => exact frame_of_quiet rfl fun l => UdpServer.Step.add (s := s.withLog l) hc
    | message hc hstack h =>
        obtain ⟨evs, hlog, hframe⟩ := UdpServer.onMessage_frame h
        exact ⟨evs, hlog, fun l => .message hc hstack (hframe l)⟩
    | close hc => exact frame_of_quiet rfl fun l => UdpServer.Step.close (s := s.withLog l) hc
    | release hc => exact frame_of_quiet rfl fun l => UdpServer.Step.release (s := s.withLog l) hc
  det := by
    intro s e t e' t' hfields hinput h h'
    rcases UdpServerEvent.eq_or_of_input hinput with rfl | ⟨c, src, r, stack, stack', w, rfl, rfl⟩
    · exact h.unique h'
    · cases h with
      | message hc hstack h =>
          cases h' with
          | message _ hstack' h' =>
              have heq : UdpServer.onMessage src r stack' w s =
                  UdpServer.onMessage src r stack w s :=
                UdpServer.onMessage_congr hfields hstack hstack'
              exact Option.some.inj (h'.symm.trans (heq.trans h))
  leaves := by
    intro s e t d h hd hne heq
    cases h with
    | @message _ c src r stack w hc hstack h =>
        obtain rfl : r = some d := hd
        obtain ⟨evs, _, hlog, _, hhead, _⟩ := UdpServer.onMessage_pair h hne hstack hstack
        rw [hlog, List.append_right_eq_self] at heq
        rw [heq] at hhead
        exact nomatch hhead
    | add | close | release => exact nomatch hd
  reveals := by
    intro s e t d h hd hne hshort
    cases h with
    | @message _ c src r stack w hc hstack h =>
        obtain rfl : r = some d := hd
        obtain ⟨stack', hstack', hother⟩ := exists_other_sequence hstack hshort
        obtain ⟨evs, evs', hlog, h', hhead, hhead'⟩ :=
          UdpServer.onMessage_pair h hne hstack hstack'
        refine ⟨.message c src (some d) stack' w, evs, evs', rfl, hlog,
          .message hc hstack' h', fun heq => ?_⟩
        rw [heq, hhead] at hhead'
        exact hother (congrArg Record.id (Option.some.inj hhead')).symm
    | add | close | release => exact nomatch hd

/-! ## The upstream -/

namespace UdpUpstream

/-- What the callback adds to the log after a read of `numBytes` bytes into `buf`. -/
def added (numBytes : Int) (buf : Bytes) : List RecvEv :=
  if numBytes ≤ 0 then [] else recvEvents .upstreamRcv buf numBytes

theorem onMessage_eq (r : Option Bytes) (stack : Bytes) (s : UdpUpstream) :
    onMessage r stack s =
      { s with log := s.log ++ added (recvInto stack r).1 (recvInto stack r).2 } := by
  show (if (recvInto stack r).1 ≤ 0 then s else _) = _
  unfold added
  split
  · rw [List.append_nil]
  · rfl

/-- The only record is that of the fields in `buf`. -/
theorem emitted_added {numBytes : Int} {buf : Bytes} (hpos : 0 < numBytes) :
    emitted (added numBytes buf) = [recordOfBuf .upstreamRcv buf numBytes] := by
  rw [added, if_neg (Int.not_le.mpr hpos), emitted_recvEvents]

theorem onMessage_none (stack : Bytes) (s : UdpUpstream) : onMessage none stack s = s := rfl

/-- If the fields are received, the stack decides nothing. -/
theorem onMessage_congr {r : Option Bytes} {stack stack' : Bytes} {s : UdpUpstream}
    (hr : ∀ d, r = some d → FieldsReceived d) (hstack : stack.length = sizeofBuf)
    (hstack' : stack'.length = sizeofBuf) : onMessage r stack' s = onMessage r stack s := by
  cases r with
  | none => rw [onMessage_none, onMessage_none]
  | some d =>
      have hnum := recvInto_fst (hstack'.trans hstack.symm) (some d)
      rw [onMessage_eq, onMessage_eq, hnum, added, added,
        recvEvents_congr (hr d rfl stack' stack hstack' hstack)]

end UdpUpstream

/-- The event without the bytes that were on the stack. -/
def UdpUpstreamEvent.input : UdpUpstreamEvent → UdpUpstreamEvent
  | .message c r _ => .message c r []
  | .add c => .add c
  | .close c => .close c
  | .release c => .release c

theorem UdpUpstreamEvent.eq_or_of_input {e e' : UdpUpstreamEvent} (h : e'.input = e.input) :
    e' = e ∨ ∃ c r stack stack', e = .message c r stack ∧ e' = .message c r stack' := by
  cases e with
  | message c r stack =>
      cases e' with
      | message c' r' stack' =>
          obtain ⟨rfl, rfl, -⟩ := UdpUpstreamEvent.message.inj h
          exact Or.inr ⟨c', r', stack, stack', rfl, rfl⟩
      | add | close | release => exact nomatch h
  | add | close | release =>
      cases e' with
      | message => exact nomatch h
      | add | close | release => exact Or.inl h

theorem UdpUpstream.Step.unique {s t t' : UdpUpstream} {e : UdpUpstreamEvent}
    (h : UdpUpstream.Step s e t) (h' : UdpUpstream.Step s e t') : t' = t := by
  cases h with
  | add => cases h' with | add => rfl
  | message => cases h' with | message => rfl
  | close => cases h' with | close => rfl
  | release => cases h' with | release => rfl

/-- The upstream with another log. -/
def UdpUpstream.withLog (l : List RecvEv) (s : UdpUpstream) : UdpUpstream := { s with log := l }

/-- `udp_upstream` as a receiver. -/
def UdpUpstream.receiver : Receiver UdpUpstream UdpUpstreamEvent where
  step := UdpUpstream.Step
  log := UdpUpstream.log
  withLog := UdpUpstream.withLog
  input := UdpUpstreamEvent.input
  datagram := UdpUpstreamEvent.datagram
  withLog_log _ := rfl
  log_withLog _ _ := rfl
  frame := by
    intro s e t h
    cases h with
    | add hc => exact frame_of_quiet rfl fun l => UdpUpstream.Step.add (s := s.withLog l) hc
    | @message c r stack hc hstack =>
        rw [UdpUpstream.onMessage_eq]
        refine ⟨_, rfl, fun l => ?_⟩
        have hstep := UdpUpstream.Step.message (s := { s with log := l }) (r := r) hc hstack
        rwa [UdpUpstream.onMessage_eq] at hstep
    | close hc => exact frame_of_quiet rfl fun l => UdpUpstream.Step.close (s := s.withLog l) hc
    | release hc => exact frame_of_quiet rfl fun l => UdpUpstream.Step.release (s := s.withLog l) hc
  det := by
    intro s e t e' t' hfields hinput h h'
    rcases UdpUpstreamEvent.eq_or_of_input hinput with rfl | ⟨c, r, stack, stack', rfl, rfl⟩
    · exact h.unique h'
    · cases h with
      | message hc hstack =>
          cases h' with
          | message _ hstack' => exact UdpUpstream.onMessage_congr hfields hstack hstack'
  leaves := by
    intro s e t d h hd hne heq
    cases h with
    | @message c r stack hc hstack =>
        obtain rfl : r = some d := hd
        rw [UdpUpstream.onMessage_eq] at heq
        have hnil := List.append_right_eq_self.mp heq
        have hone : emitted (UdpUpstream.added (recvInto stack (some d)).1
            (recvInto stack (some d)).2) = [recordOfBuf .upstreamRcv _ _] :=
          UdpUpstream.emitted_added (recvInto_pos hstack hne)
        rw [hnil] at hone
        exact nomatch hone
    | add | close | release => exact nomatch hd
  reveals := by
    intro s e t d h hd hne hshort
    cases h with
    | @message c r stack hc hstack =>
        obtain rfl : r = some d := hd
        obtain ⟨stack', hstack', hother⟩ := exists_other_sequence hstack hshort
        have hnum := recvInto_fst (hstack'.trans hstack.symm) (some d)
        have hstep := UdpUpstream.Step.message (s := s) (r := some d) hc hstack'
        rw [UdpUpstream.onMessage_eq, hnum] at hstep
        rw [UdpUpstream.onMessage_eq]
        refine ⟨.message c (some d) stack', _, _, rfl, rfl, hstep, fun heq => ?_⟩
        rw [UdpUpstream.emitted_added (recvInto_pos hstack hne),
          UdpUpstream.emitted_added (recvInto_pos hstack hne)] at heq
        exact hother (congrArg Record.id (List.cons.inj heq).1)
    | add | close | release => exact nomatch hd

/-! ## The two programs -/

/-- A run of the server over the datagrams `ds`, and a run of the upstream, treats them
safely if and only if they are messages. -/
theorem datagrams_safe_iff {ds : List Bytes} (hne : ∀ d ∈ ds, d ≠ []) :
    (∀ (s₀ s : UdpServer) (es : List UdpServerEvent), UdpServer.receiver.datagrams es = ds →
      Run UdpServer.Step s₀ es s →
      (UdpServer.receiver.TreatsSafely s₀ es ↔ ∀ d ∈ ds, ValidDatagram d)) ∧
    (∀ (s₀ s : UdpUpstream) (es : List UdpUpstreamEvent),
      UdpUpstream.receiver.datagrams es = ds → Run UdpUpstream.Step s₀ es s →
      (UdpUpstream.receiver.TreatsSafely s₀ es ↔ ∀ d ∈ ds, ValidDatagram d)) := by
  refine ⟨?_, ?_⟩
  · rintro s₀ s es rfl hrun
    exact Receiver.treatsSafely_iff hrun hne
  · rintro s₀ s es rfl hrun
    exact Receiver.treatsSafely_iff hrun hne

section Sample

/-- One datagram from a client, taken off the socket with `x` all over the stack. -/
def oneDatagram (d : Bytes) (x : UInt8) : List UdpServerEvent :=
  [.add 0, .message 0 (.inet 40000 0) (some d) (List.replicate sizeofBuf x) (.accept d.length)]

/-- The same at the upstream. -/
def oneDatagramUp (d : Bytes) (x : UInt8) : List UdpUpstreamEvent :=
  [.add 0, .message 0 (some d) (List.replicate sizeofBuf x)]

/-- The server with its context, before the datagram. -/
def boundServer : UdpServer :=
  UdpServer.onAddCtx 0 { UdpServer.start (.inet 20102 0) with
    loop := EventLoop.one.add 0 (by decide) }

def boundUpstream : UdpUpstream :=
  { UdpUpstream.start with loop := EventLoop.one.add 0 (by decide) }

theorem run_oneDatagram {d : Bytes} {x : UInt8} {s : UdpServer}
    (h : UdpServer.onMessage (.inet 40000 0) (some d) (List.replicate sizeofBuf x)
      (.accept d.length) boundServer = some s) :
    Run UdpServer.Step (UdpServer.start (.inet 20102 0)) (oneDatagram d x) s :=
  .cons (.add (by decide)) (.single (.message (by decide) List.length_replicate h))

theorem run_oneDatagramUp (d : Bytes) (x : UInt8) :
    Run UdpUpstream.Step UdpUpstream.start (oneDatagramUp d x)
      (UdpUpstream.onMessage (some d) (List.replicate sizeofBuf x) boundUpstream) :=
  .cons (.add (by decide)) (.single (.message (by decide) List.length_replicate))

/-- A message of 16 bytes. -/
def wholeMessage : Bytes := MsgHdr.encode ⟨1, 8⟩ ++ MsgData.encode ⟨7, 3⟩

theorem validDatagram_wholeMessage : ValidDatagram wholeMessage :=
  ⟨by decide, by decide, by decide⟩

/-- It is treated safely by both. -/
theorem whole_message_is_safe :
    UdpServer.receiver.TreatsSafely (UdpServer.start (.inet 20102 0))
      (oneDatagram wholeMessage 0) ∧
    UdpUpstream.receiver.TreatsSafely UdpUpstream.start (oneDatagramUp wholeMessage 0) := by
  have hvalid : ∀ d ∈ [wholeMessage], ValidDatagram d := by
    intro d hd
    obtain rfl := List.mem_singleton.mp hd
    exact validDatagram_wholeMessage
  have hne : ∀ d ∈ [wholeMessage], d ≠ [] := by decide
  have hsome : (UdpServer.onMessage (.inet 40000 0) (some wholeMessage)
      (List.replicate sizeofBuf 0) (.accept wholeMessage.length) boundServer).isSome := by
    decide +kernel
  obtain ⟨s, hs⟩ := Option.isSome_iff_exists.mp hsome
  exact ⟨((datagrams_safe_iff hne).1 _ s _ rfl (run_oneDatagram hs)).mpr hvalid,
    ((datagrams_safe_iff hne).2 _ _ _ rfl (run_oneDatagramUp _ _)).mpr hvalid⟩

/-- A header that announces no payload: it passes both assertions. -/
def bareHeader : Bytes := MsgHdr.encode ⟨1, 0⟩

/-- Both make a record of it, in which the stack shows, and the server forwards it. -/
theorem bare_header_shows_stack :
    (∃ s s' : UdpServer,
      Run UdpServer.Step (UdpServer.start (.inet 20102 0)) (oneDatagram bareHeader 0) s ∧
      Run UdpServer.Step (UdpServer.start (.inet 20102 0)) (oneDatagram bareHeader 1) s' ∧
      emitted s.log = [⟨0, 0, 8, .serverRcv⟩, ⟨0, 0, 8, .serverSndBegin⟩] ∧
      emitted s'.log = [⟨0x01010101, 0x01010101, 8, .serverRcv⟩,
        ⟨0x01010101, 0x01010101, 8, .serverSndBegin⟩] ∧
      sentBytes s.log = [bareHeader]) ∧
    ¬ UdpServer.receiver.TreatsSafely (UdpServer.start (.inet 20102 0))
      (oneDatagram bareHeader 0) ∧
    (∃ s s' : UdpUpstream,
      Run UdpUpstream.Step UdpUpstream.start (oneDatagramUp bareHeader 0) s ∧
      Run UdpUpstream.Step UdpUpstream.start (oneDatagramUp bareHeader 1) s' ∧
      emitted s.log = [⟨0, 0, 8, .upstreamRcv⟩] ∧
      emitted s'.log = [⟨0x01010101, 0x01010101, 8, .upstreamRcv⟩]) ∧
    ¬ UdpUpstream.receiver.TreatsSafely UdpUpstream.start (oneDatagramUp bareHeader 0) := by
  have h₀ : (UdpServer.onMessage (.inet 40000 0) (some bareHeader) (List.replicate sizeofBuf 0)
      (.accept bareHeader.length) boundServer).map (fun s => (emitted s.log, sentBytes s.log)) =
      some ([⟨0, 0, 8, .serverRcv⟩, ⟨0, 0, 8, .serverSndBegin⟩], [bareHeader]) := by
    decide +kernel
  have h₁ : (UdpServer.onMessage (.inet 40000 0) (some bareHeader) (List.replicate sizeofBuf 1)
      (.accept bareHeader.length) boundServer).map (fun s => emitted s.log) =
      some [⟨0x01010101, 0x01010101, 8, .serverRcv⟩,
        ⟨0x01010101, 0x01010101, 8, .serverSndBegin⟩] := by
    decide +kernel
  obtain ⟨s, hs, heq⟩ := Option.map_eq_some_iff.mp h₀
  obtain ⟨s', hs', hother⟩ := Option.map_eq_some_iff.mp h₁
  obtain ⟨hrec, hsent⟩ := Prod.mk.inj heq
  have hrun := run_oneDatagram hs
  have hrun' := run_oneDatagram hs'
  obtain ⟨u, u', hu, hu', hurec, huother⟩ : ∃ u u' : UdpUpstream,
      Run UdpUpstream.Step UdpUpstream.start (oneDatagramUp bareHeader 0) u ∧
      Run UdpUpstream.Step UdpUpstream.start (oneDatagramUp bareHeader 1) u' ∧
      emitted u.log = [⟨0, 0, 8, .upstreamRcv⟩] ∧
      emitted u'.log = [⟨0x01010101, 0x01010101, 8, .upstreamRcv⟩] :=
    ⟨_, _, run_oneDatagramUp _ _, run_oneDatagramUp _ _, by decide +kernel, by decide +kernel⟩
  refine ⟨⟨s, s', hrun, hrun', hrec, hother, hsent⟩, fun h => ?_,
    ⟨u, u', hu, hu', hurec, huother⟩, fun h => ?_⟩
  · have hsame := (h.independent (oneDatagram bareHeader 1) s s' rfl hrun hrun').1
    exact absurd (hother.symm.trans (hsame.trans hrec)) (by decide)
  · have hsame := (h.independent (oneDatagramUp bareHeader 1) u u' rfl hu hu').1
    exact absurd (huother.symm.trans (hsame.trans hurec)) (by decide)

end Sample

end NetBench

/-
# `NetBench.Retries` — which messages are sent again

Both clients start a round again from its first message when one of its messages was not
accepted in full.  Seen as sequence numbers, each with whether the message was accepted in
full, the sends of a client are the tries of `NetBench.Lib.Retry` with a round as a block:
what the socket accepts decides which messages are sent (`Resends`).  So in every run

    full sends of message j  =  short and failed sends of later messages of its round
                                + 1 if the client is past message j
                                                   (`TcpClient.sends_counted_of_run`,
                                                    `UdpClient.datagrams_counted_of_run`)
-/
import NetBench.Lib.Retry
import NetBench.ClientWire
import NetBench.SendEnd
import NetBench.UdpSend

namespace NetBench

open Lib NbSysArgs

/-! ## The sends of a log -/

/-- `sequence`, in the bytes of a message. -/
def sequenceOf (buf : Bytes) : Nat := (MsgData.decode (buf.drop sizeofMsgHdr)).sequence.toNat

/-- The sequence of what was handed to the socket, and whether all of it was accepted. -/
def Ev.send? : Ev → Option (Nat × Bool)
  | .write _ buf acc => some (sequenceOf buf, decide (acc = buf))
  | _ => none

def sends (log : List Ev) : List (Nat × Bool) := log.filterMap Ev.send?

/-- Whether each send was accepted in full. -/
def outcomes (log : List Ev) : List Bool := (sends log).map Prod.snd

theorem sends_append (l l' : List Ev) : sends (l ++ l') = sends l ++ sends l' :=
  List.filterMap_append

theorem sends_noWrite {l : List Ev} (h : NoWrite l) : sends l = [] := by
  refine List.filterMap_eq_nil_iff.mpr fun e he => ?_
  cases e with
  | write c buf acc => exact absurd he (h c buf acc)
  | record | assertFailed | exit => rfl

theorem outcomes_append (l l' : List Ev) : outcomes (l ++ l') = outcomes l ++ outcomes l' := by
  rw [outcomes, sends_append, List.map_append]
  rfl

variable {a : NbSysArgs} {T : Bytes} {log l : List Ev} {p : Nat}

/-- The number in a message of the table is its place. -/
theorem sequenceOf_slice (ha : a.Sized) (hT : a.Prepared T) {i : Nat} (hi : i < a.total) :
    sequenceOf (a.slice T i) = i := by
  have hlt := ha.total_lt
  rw [sequenceOf, (hT.message i hi).data]
  exact UInt32.toNat_ofNat_of_lt' (show i < 2 ^ 32 by omega)

/-- The sends of the log are the tries that their outcomes lead to; the cursor stands at
message `p`, and every message handed over was one of the table. -/
structure Resends (a : NbSysArgs) (T : Bytes) (log : List Ev) (p : Nat) : Prop where
  sends_eq : sends log = Retry.tries a.numPerRound.toNat (outcomes log)
  cursor : Retry.cursor a.numPerRound.toNat (outcomes log) = p
  slices : ∀ c buf acc, .write c buf acc ∈ log → ∃ j < a.total, buf = a.slice T j

theorem resends_nil : Resends a T [] 0 where
  sends_eq := rfl
  cursor := rfl
  slices _ _ _ h := nomatch h

/-- Events that hand nothing over. -/
theorem Resends.noWrite (h : Resends a T log p) (hl : NoWrite l) : Resends a T (log ++ l) p where
  sends_eq := by
    rw [sends_append, outcomes_append, outcomes, outcomes, sends_noWrite hl, List.map_nil,
      List.append_nil, List.append_nil]
    exact h.sends_eq
  cursor := by
    rw [outcomes_append, outcomes, outcomes, sends_noWrite hl, List.map_nil, List.append_nil]
    exact h.cursor
  slices c buf acc hw := h.slices c buf acc ((List.mem_append.mp hw).resolve_right (hl c buf acc))

/-- The message under the cursor is handed over. -/
theorem Resends.write (ha : a.Sized) (hT : a.Prepared T) (h : Resends a T log p)
    (hp : p < a.total) (c : Nat) (acc : Bytes) :
    Resends a T (log ++ [.write c (a.slice T p) acc])
      (Retry.move a.numPerRound.toNat p (decide (acc = a.slice T p))) where
  sends_eq := by
    have hsend : sends [.write c (a.slice T p) acc] = [(p, decide (acc = a.slice T p))] := by
      show [(sequenceOf (a.slice T p), _)] = _
      rw [sequenceOf_slice ha hT hp]
    rw [sends_append, outcomes_append, outcomes, outcomes, hsend, ← outcomes]
    show _ = Retry.tries _ (outcomes log ++ [_])
    rw [Retry.tries_snoc, h.cursor, ← h.sends_eq]
  cursor := by
    have hout : outcomes [.write c (a.slice T p) acc] = [decide (acc = a.slice T p)] := rfl
    rw [outcomes_append, hout, Retry.cursor_snoc, h.cursor]
  slices d buf acc' hw := by
    rcases List.mem_append.mp hw with hw | hw
    · exact h.slices d buf acc' hw
    · obtain ⟨_, rfl, _⟩ := Ev.write.inj (List.mem_singleton.mp hw)
      exact ⟨p, hp, rfl⟩

/-- The events of a send: one write, among events that write nothing. -/
theorem Resends.message (ha : a.Sized) (hT : a.Prepared T) (h : Resends a T log p)
    (hp : p < a.total) {l₁ l₂ : List Ev} (h₁ : NoWrite l₁) (h₂ : NoWrite l₂) (c : Nat)
    (acc : Bytes) :
    Resends a T (log ++ (l₁ ++ .write c (a.slice T p) acc :: l₂))
      (Retry.move a.numPerRound.toNat p (decide (acc = a.slice T p))) := by
  have h := ((h.noWrite h₁).write ha hT hp c acc).noWrite h₂
  rw [List.append_assoc, List.append_assoc] at h
  exact h

/-- A round starts again where its messages start. -/
theorem move_round {n r i : Nat} (hi : i < n) : Retry.move n (r * n + i) false = r * n := by
  rw [Retry.move_false, Nat.mul_comm r n, Nat.mul_add_div (by omega), Nat.div_eq_of_lt hi,
    Nat.add_zero, Nat.mul_comm]

/-- A message handed over is the one that its sequence names. -/
theorem Resends.slice_eq (ha : a.Sized) (hT : a.Prepared T) (h : Resends a T log p) {c : Nat}
    {buf acc : Bytes} (hw : .write c buf acc ∈ log) : buf = a.slice T (sequenceOf buf) := by
  obtain ⟨j, hj, rfl⟩ := h.slices c buf acc hw
  rw [sequenceOf_slice ha hT hj]

/-- Full sends against sends that were not. -/
theorem Resends.count (h : Resends a T log p) {j : Nat} (hj : j < a.total) :
    (sends log).count (j, true) =
      Retry.failuresBehind a.numPerRound.toNat j (sends log) + if j < p then 1 else 0 := by
  have hn : 0 < a.numPerRound.toNat :=
    Nat.pos_of_ne_zero fun h0 => by simp [total, h0] at hj
  rw [h.sends_eq, Retry.count_tries hn j, h.cursor]

/-! ## The TCP client -/

/-- One round of two messages. -/
def roundOfTwo : NbSysArgs := ⟨7, 1, 2, 0, 16, 0⟩

/-- Its table. -/
def roundOfTwoTable : Bytes :=
  roundOfTwo.msgHdr.encode ++ (roundOfTwo.msgData 0).encode ++
    (roundOfTwo.msgHdr.encode ++ (roundOfTwo.msgData 1).encode)

theorem roundOfTwo_fits : roundOfTwo.Fits := ⟨by decide, by decide, by decide⟩

theorem roundOfTwo_prepare :
    roundOfTwo.prepare (List.replicate 32 0) = some roundOfTwoTable := by decide

theorem roundOfTwo_prepared : roundOfTwo.Prepared roundOfTwoTable :=
  prepared_of_prepare roundOfTwo_fits.sized (by decide) roundOfTwo_prepare

namespace TcpClient

variable {β : Type} {B : BytesBuffer β} {b₀ : β} {s s' : TcpClient β}

theorem noWrite_record (c : Nat) (r : Record) : NoWrite [.record c r] := by
  intro d buf acc h
  cases List.mem_singleton.mp h

/-- The loop is in a round while it sends. -/
theorem Step.in_round {w : WriteOutcome} (hs : Step a B b₀ s (.send w) s') {l : Sending}
    (hl : s.sending = some l) : l.i.toNat < a.numPerRound.toNat := by
  cases hs with
  | send hl' hi _ _ =>
      obtain rfl := Option.some.inj (hl'.symm.trans hl)
      exact UInt32.lt_iff_toNat_lt.mp hi

/-- The events of the message under the cursor. -/
theorem resends_msgEvents (ha : a.Sized) (hT : a.Prepared T) (h : Resends a T log p)
    (hp : p < a.total) (c : Nat) (acc : Bytes) :
    Resends a T (log ++ msgEvents a T c p acc)
      (Retry.move a.numPerRound.toNat p (decide (acc = a.slice T p))) :=
  h.message ha hT hp (noWrite_record c _) (noWrite_record c _) c acc

theorem resends_step (ha : a.Fits) (hT : a.Prepared T) (hsends : Sends a T s)
    (h : Resends a T s.log (done a s)) {e : ClientEvent} (hs : Step a B b₀ s e s') :
    Resends a T s'.log (done a s') := by
  cases (hs.logged ha hT hsends).1 with
  | quiet hlog hl hdone =>
      rw [hlog, hdone]
      exact h.noWrite hl.noWrite
  | @full w c hd hopen hlog hdone =>
      have hnext := resends_msgEvents ha.sized hT h hd c (a.slice T (done a s))
      rw [decide_eq_true rfl, Retry.move_true] at hnext
      rw [hlog, hdone]
      exact hnext
  | @part w l c acc hd hl hc hlog hacc hne hshut hdone =>
      have hnext := resends_msgEvents ha.sized hT h hd c acc
      have hstart := done_of_some (a := a) hl
      rw [decide_eq_false hne, hstart, move_round (hs.in_round hl), ← hstart] at hnext
      rw [hlog, show done a s' = s.roundIndex.toNat * a.numPerRound.toNat by omega]
      exact hnext

theorem done_start (ts : Timespec) : done a (start ts T : TcpClient β) = 0 := by
  simp [done, start]

theorem resends_of_run (ha : a.Fits) (hT : a.Prepared T) {ts : Timespec} {es : List ClientEvent}
    (hrun : Run (Step a B b₀) (start ts T) es s) :
    Sends a T s ∧ Resends a T s.log (done a s) := by
  have h := hrun.invariant
    (I := fun s => Slot s ∧ Sends a T s ∧ Resends a T s.log (done a s))
    (fun _ _ _ h hs => ⟨h.1.step hs, h.2.1.step ha hT h.1 hs, resends_step ha hT h.2.1 h.2.2 hs⟩)
    ⟨slot_start ts T, sends_start ts, (done_start ts).symm ▸ resends_nil⟩
  exact h.2

/-- In every run of the TCP client, over all its connections: the messages sent are the tries
that the outcomes of the writes lead to, each named by its own sequence; message `j` has been
accepted in full once for every write of a later message of its round that was not, and once
more if the client is past it, as it is for every message when the loop is left. -/
theorem sends_counted_of_run (ha : a.Fits) {m : Bytes} (hm : m.length = a.tableBytes.toNat)
    (hprep : a.prepare m = some T) {ts : Timespec} {es : List ClientEvent}
    (hrun : Run (Step a B b₀) (start ts T) es s) :
    sends s.log = Retry.tries a.numPerRound.toNat (outcomes s.log) ∧
    (∀ c buf acc, .write c buf acc ∈ s.log → buf = a.slice T (sequenceOf buf)) ∧
    (∀ j < a.total, (sends s.log).count (j, true) =
      Retry.failuresBehind a.numPerRound.toNat j (sends s.log) + if j < done a s then 1 else 0) ∧
    (.exit ∈ s.log → ∀ j < a.total, j < done a s) := by
  have hT := prepared_of_prepare ha.sized hm hprep
  obtain ⟨hsends, h⟩ := resends_of_run ha hT hrun
  refine ⟨h.sends_eq, ?_, fun j hj => h.count hj, fun hexit j hj => ?_⟩
  · exact fun c buf acc hw => h.slice_eq ha.sized hT hw
  · rw [total, Nat.mul_comm, ← hsends.exit hexit] at hj
    exact Nat.lt_of_lt_of_le hj (Nat.le_add_right _ _)

/-- The second message is accepted in part only; the round is sent again on the next
connection, in full. -/
def roundTwice : List ClientEvent :=
  [.add 0 ⟨0, 0⟩ true, .timer ⟨0, 0⟩, .send (.accept 16), .send (.accept 3), .close 0, .connected,
    .add 1 ⟨0, 0⟩ true, .timer ⟨0, 0⟩, .send (.accept 16), .send (.accept 16), .roundDone,
    .timer ⟨0, 0⟩]

/-- The first message has been accepted twice, the second once. -/
theorem sends_counted_of_run_round_twice : ∃ s,
    Run (Step roundOfTwo (ringBuffer netBenchTcpBufSize)
      (emptyRing netBenchTcpBufSize fun _ => 0)) (start ⟨0, 0⟩ roundOfTwoTable) roundTwice s ∧
    sends s.log = [(0, true), (1, false), (0, true), (1, true)] ∧
    (sends s.log).count (0, true) = 2 ∧
    (sends s.log).count (0, true) = Retry.failuresBehind 2 0 (sends s.log) + 1 := by
  obtain ⟨s, hrun, hexit, hsends⟩ : ∃ s, Run (Step roundOfTwo (ringBuffer netBenchTcpBufSize)
      (emptyRing netBenchTcpBufSize fun _ => 0)) (start ⟨0, 0⟩ roundOfTwoTable) roundTwice s ∧
      .exit ∈ s.log ∧ sends s.log = [(0, true), (1, false), (0, true), (1, true)] := by
    refine ⟨_, .cons (.add rfl List.mem_cons_self) (.cons (.timer rfl)
      (.cons (.send rfl (by decide) rfl
        (sendOne_full roundOfTwo_fits roundOfTwo_prepared (d := 0) (by decide) rfl rfl rfl
          (by decide) (by decide)))
      (.cons (.send rfl (by decide) rfl rfl) (.cons (.close rfl List.mem_cons_self)
      (.cons (.connected (by decide)) (.cons (.add rfl List.mem_cons_self) (.cons (.timer rfl)
      (.cons (.send rfl (by decide) rfl
        (sendOne_full roundOfTwo_fits roundOfTwo_prepared (d := 0) (by decide) rfl rfl rfl
          (by decide) (by decide)))
      (.cons (.send rfl (by decide) rfl
        (sendOne_full roundOfTwo_fits roundOfTwo_prepared (d := 1) (by decide) rfl rfl rfl
          (by decide) (by decide)))
      (.cons (.roundDone rfl (by decide)) (.cons (.timer rfl) (.nil _)))))))))))), ?_, ?_⟩
    · decide
    · decide
  obtain ⟨_, _, hcount, hall⟩ := sends_counted_of_run roundOfTwo_fits (by decide)
    roundOfTwo_prepare hrun
  have hzero := hcount 0 (by decide)
  rw [if_pos (hall hexit 0 (by decide))] at hzero
  exact ⟨s, hrun, hsends, hsends ▸ rfl, hzero⟩

end TcpClient

/-! ## The UDP client -/

namespace UdpClient

variable {s s' : UdpClient}

/-- How many messages come before the next one to be sent. -/
def done (a : NbSysArgs) (s : UdpClient) : Nat :=
  s.roundIndex.toNat * a.numPerRound.toNat + (s.sending.map (·.i.toNat)).getD 0

theorem done_of_none (h : s.sending = none) :
    done a s = s.roundIndex.toNat * a.numPerRound.toNat := by
  simp [done, h]

theorem done_of_some {l : Sending} (h : s.sending = some l) :
    done a s = a.position s.roundIndex l.i := by
  simp [done, h, position]

/-- The table and the loop, the sends, and where the client has come to. -/
structure Retried (a : NbSysArgs) (T : Bytes) (s : UdpClient) : Prop where
  aimed : Aimed a T s
  resends : Resends a T s.log (done a s)
  round_le : s.roundIndex ≤ a.roundNum
  sending_le : ∀ l, s.sending = some l → l.i ≤ a.numPerRound
  exit : .exit ∈ s.log → s.roundIndex = a.roundNum

theorem retried_start (ts : Timespec) : Retried a T (start ts T) where
  aimed := aimed_start ts T
  resends := by
    have hdone : done a (start ts T) = 0 := by simp [done, start]
    rw [hdone]
    exact resends_nil
  round_le := UInt32.zero_le
  sending_le _ h := nomatch h
  exit h := nomatch h

/-- A callback that sends nothing. -/
theorem Retried.of_same (h : Retried a T s) (hdatas : s'.datas = s.datas)
    (hround : s'.roundIndex = s.roundIndex) (hsending : s'.sending = s.sending)
    (hlog : s'.log = s.log) : Retried a T s' where
  aimed := h.aimed.of_same hdatas hround hsending
  resends := by
    rw [hlog, done, hround, hsending]
    exact h.resends
  round_le := hround ▸ h.round_le
  sending_le := by
    rw [hsending]
    exact h.sending_le
  exit := by
    rw [hlog, hround]
    exact h.exit

/-- One iteration: the message under the cursor is handed over, and the loop goes on exactly
if all of it was accepted. -/
theorem sendOne_whole (ha : a.Fits) (hT : a.Prepared T) (h : Aimed a T s) {l : Sending} {c : Nat}
    {w : WriteOutcome} (hl : s.sending = some l) (hi : l.i < a.numPerRound)
    (hs : sendOne a c l w s = some s') :
    ∃ acc r, s'.log = s.log ++ (.record c (a.record l.seq .clientSndBegin) ::
        .write c (a.slice T (a.position s.roundIndex l.i)) acc :: r) ∧ NoWrite r ∧ .exit ∉ r ∧
      s'.roundIndex = s.roundIndex ∧
      ((acc = a.slice T (a.position s.roundIndex l.i) ∧
          s'.sending = some ⟨l.i + 1, l.seq + 1, l.p + a.msgSize.toNat⟩) ∨
        (acc ≠ a.slice T (a.position s.roundIndex l.i) ∧ s'.sending = none)) := by
  obtain ⟨hr, hseq, hp⟩ := h.sending l hl
  have hlt := position_lt hr hi
  obtain ⟨t, r, ht, hlog, hor, _, hround, _⟩ := sendOne_spec (c := c) hT hlt hseq hp h.table w
  obtain rfl : t = s' := Option.some.inj (ht.symm.trans hs)
  have hlen := (hT.message _ hlt).1
  have hpos : 0 < (a.slice T (a.position s.roundIndex l.i)).length := by
    rw [hlen]
    exact Nat.lt_of_lt_of_le (by decide) ha.ge
  obtain ⟨hfull, hseen⟩ := ctxSendto_whole (w := w) hpos (hlen ▸ a.msgSize.toNat_lt)
  have hwhole : sendtoResult w a.msgSize.toNat = castInt a.msgSize.toNat ↔
      (ctxSendto w (a.slice T (a.position s.roundIndex l.i))).2 =
        a.slice T (a.position s.roundIndex l.i) := by
    rw [hlen] at hfull hseen
    refine ⟨hseen.mp fun _ heq => ?_, hfull⟩
    have hlt := ha.lt
    omega
  refine ⟨_, r, hlog, ?_, ?_, hround, ?_⟩
  · rcases hor with rfl | rfl
    · exact noWrite_nil
    · exact TcpClient.noWrite_record c _
  · rcases hor with rfl | rfl
    · exact List.not_mem_nil
    · simp
  · obtain ⟨_, _, _, _, _, _, ⟨hres, rfl⟩ | ⟨hres, rfl⟩⟩ := sendOne_inv hs
    · exact Or.inl ⟨hwhole.mp hres, rfl⟩
    · exact Or.inr ⟨fun hacc => hres (hwhole.mpr hacc), rfl⟩

theorem Retried.step (ha : a.Fits) (hT : a.Prepared T) (h : Retried a T s) {e : UdpEvent}
    (hs : Step a s e s') : Retried a T s' := by
  have haimed := h.aimed.step ha.prod hT hs
  cases hs with
  | add hsend hc => exact h.of_same rfl rfl rfl rfl
  | @timer ts hsend =>
      rcases onTimer_cases a ts s with ⟨hr, heq⟩ | heq | ⟨hr, _, _, heq⟩
      · rw [heq]
        refine ⟨heq ▸ haimed, ?_, h.round_le, h.sending_le, fun _ => ?_⟩
        · refine h.resends.noWrite fun c buf acc hw => ?_
          cases List.mem_singleton.mp hw
        · exact UInt32.le_antisymm h.round_le hr
      · rw [heq]
        exact h
      · -- a round starts where the last one ended
        rw [heq]
        refine ⟨heq ▸ haimed, ?_, h.round_le, fun l hl => ?_, h.exit⟩
        · have hdone := h.resends
          rw [done_of_none hsend] at hdone
          exact hdone
        · obtain rfl := Option.some.inj hl
          exact UInt32.zero_le
  | @send _ l c w hl hi hc hsend =>
      obtain ⟨acc, r, hlog, hr, hexit, hround, hres⟩ := sendOne_whole ha hT h.aimed hl hi hsend
      have hlt := position_lt (h.aimed.sending l hl).1 hi
      have hnext := (done_of_some (a := a) hl ▸ h.resends).message ha.sized hT hlt
        (TcpClient.noWrite_record c (a.record l.seq .clientSndBegin)) hr c acc
      have hi' := UInt32.lt_iff_toNat_lt.mp hi
      refine ⟨haimed, ?_, hround ▸ h.round_le, fun l' hl' => ?_, fun hmem => ?_⟩
      · rw [hlog]
        rcases hres with ⟨hacc, hsome⟩ | ⟨hacc, hnone⟩
        · rw [decide_eq_true hacc, Retry.move_true] at hnext
          rw [done_of_some hsome, hround, position_succ hi]
          exact hnext
        · rw [decide_eq_false hacc, position, move_round hi'] at hnext
          rw [done_of_none hnone, hround]
          exact hnext
      · rcases hres with ⟨_, hsome⟩ | ⟨_, hnone⟩
        · obtain rfl := Option.some.inj (hsome.symm.trans hl')
          rw [UInt32.le_iff_toNat_le, toNat_succ hi']
          exact hi'
        · cases hnone.symm.trans hl'
      · rw [hlog] at hmem
        rw [hround]
        refine h.exit ((List.mem_append.mp hmem).resolve_right fun hmem => ?_)
        simp only [List.mem_cons, reduceCtorEq, false_or] at hmem
        exact hexit hmem
  | @roundDone l hl hi =>
      obtain ⟨hr, _, _⟩ := h.aimed.sending l hl
      have hend := position_end hr (h.sending_le l hl) hi
      refine ⟨haimed, ?_, ?_, fun l hl => ?_, fun hexit => ?_⟩
      · rw [done_of_none rfl, ← hend, ← done_of_some hl]
        exact h.resends
      · rw [UInt32.le_iff_toNat_le, toNat_succ (UInt32.lt_iff_toNat_lt.mp hr)]
        exact UInt32.lt_iff_toNat_lt.mp hr
      · cases hl
      · exact absurd (h.exit hexit ▸ hr) (UInt32.lt_irrefl _)
  | close hsend hc hshut => exact h.of_same rfl rfl rfl rfl
  | release hsend hc => exact h.of_same rfl rfl rfl rfl

/-- The same law in every run of the UDP client, whatever its sends return. -/
theorem datagrams_counted_of_run (ha : a.Fits) {m : Bytes} (hm : m.length = a.tableBytes.toNat)
    (hprep : a.prepare m = some T) {ts : Timespec} {es : List UdpEvent}
    (hrun : Run (Step a) (start ts T) es s) :
    sends s.log = Retry.tries a.numPerRound.toNat (outcomes s.log) ∧
    (∀ c buf acc, .write c buf acc ∈ s.log → buf = a.slice T (sequenceOf buf)) ∧
    (∀ j < a.total, (sends s.log).count (j, true) =
      Retry.failuresBehind a.numPerRound.toNat j (sends s.log) + if j < done a s then 1 else 0) ∧
    (.exit ∈ s.log → ∀ j < a.total, j < done a s) := by
  have hT := prepared_of_prepare ha.sized hm hprep
  have h := hrun.invariant (I := Retried a T) (fun _ _ _ h hs => h.step ha hT hs) (retried_start ts)
  refine ⟨h.resends.sends_eq, ?_, fun j hj => h.resends.count hj, fun hexit j hj => ?_⟩
  · exact fun c buf acc hw => h.resends.slice_eq ha.sized hT hw
  · rw [total, Nat.mul_comm, ← h.exit hexit] at hj
    exact Nat.lt_of_lt_of_le hj (Nat.le_add_right _ _)

/-- An iteration of which the whole message is accepted. -/
theorem sendOne_full (hT : a.Prepared T) {d c : Nat} (hd : d < a.total) {l : Sending}
    (hseq : l.seq = UInt32.ofNat d) (hp : l.p = d * a.msgSize.toNat) (htable : s.datas = T)
    {k : Nat} (hk : a.msgSize.toNat ≤ k) :
    sendOne a c l (.accept k) s = some { useCtx c s with
      log := s.log ++ [.record c (a.record l.seq .clientSndBegin),
        .write c (a.slice T d) (a.slice T d), .record c (a.record l.seq .clientSndEnd)]
      sending := some ⟨l.i + 1, l.seq + 1, l.p + a.msgSize.toNat⟩ } := by
  obtain ⟨s', r, hs, hlog, hr, hdatas, _, _⟩ := sendOne_spec (c := c) hT hd hseq hp htable (.accept k)
  have hfull : sendtoResult (.accept k) a.msgSize.toNat = castInt a.msgSize.toNat := by
    rw [sendtoResult, Nat.min_eq_right hk]
  have hacc : (ctxSendto (.accept k) (a.slice T d)).2 = a.slice T d :=
    List.take_of_length_le ((hT.message d hd).1 ▸ hk)
  obtain ⟨m, datas, buf, _, _, _, ⟨_, rfl⟩ | ⟨hne, _⟩⟩ := sendOne_inv hs
  · have hev : sendEvents a c l m buf (ctxSendto (.accept k) buf).2 true = _ :=
      List.append_cancel_left hlog
    rcases hr with rfl | rfl
    · -- the end of the send is recorded
      have hend : .record c (a.record l.seq .clientSndEnd) ∈
          sendEvents a c l m buf (ctxSendto (.accept k) buf).2 true := by
        simp [sendEvents]
      rw [hev] at hend
      simp [NbSysArgs.record] at hend
    · obtain rfl : s.datas = datas := htable.trans hdatas.symm
      rw [hs, hev, hacc]
      rfl
  · exact absurd hfull hne

/-- A send of the second message fails; the round is sent again. -/
def roundTwice : List UdpEvent :=
  [.add 0, .timer ⟨0, 0⟩, .send (.accept 16), .send .error, .timer ⟨0, 0⟩, .send (.accept 16),
    .send (.accept 16), .roundDone, .timer ⟨0, 0⟩]

/-- There too. -/
theorem datagrams_counted_of_run_round_twice : ∃ s,
    Run (Step roundOfTwo) (start ⟨0, 0⟩ roundOfTwoTable) roundTwice s ∧
    sends s.log = [(0, true), (1, false), (0, true), (1, true)] ∧
    (sends s.log).count (0, true) = 2 ∧
    (sends s.log).count (0, true) = Retry.failuresBehind 2 0 (sends s.log) + 1 := by
  obtain ⟨s, hrun, hexit, hsends⟩ : ∃ s,
      Run (Step roundOfTwo) (start ⟨0, 0⟩ roundOfTwoTable) roundTwice s ∧
      .exit ∈ s.log ∧ sends s.log = [(0, true), (1, false), (0, true), (1, true)] := by
    refine ⟨_, .cons (.add rfl List.mem_cons_self) (.cons (.timer rfl)
      (.cons (.send rfl (by decide) rfl
        (sendOne_full roundOfTwo_prepared (d := 0) (by decide) rfl rfl rfl (by decide)))
      (.cons (.send rfl (by decide) rfl rfl) (.cons (.timer rfl)
      (.cons (.send rfl (by decide) rfl
        (sendOne_full roundOfTwo_prepared (d := 0) (by decide) rfl rfl rfl (by decide)))
      (.cons (.send rfl (by decide) rfl
        (sendOne_full roundOfTwo_prepared (d := 1) (by decide) rfl rfl rfl (by decide)))
      (.cons (.roundDone rfl (by decide)) (.cons (.timer rfl) (.nil _))))))))), ?_, ?_⟩
    · decide
    · decide
  obtain ⟨_, _, hcount, hall⟩ := datagrams_counted_of_run roundOfTwo_fits (by decide)
    roundOfTwo_prepare hrun
  have hzero := hcount 0 (by decide)
  rw [if_pos (hall hexit 0 (by decide))] at hzero
  exact ⟨s, hrun, hsends, hsends ▸ rfl, hzero⟩

end UdpClient

end NetBench

/-
# `NetBench.ClientSend` — what the TCP client sends

The sending law of `tcp_client`.  Let `T` be the prepared table, `n` the messages
of a round and `N = n * round_num`.  `Sends` is the invariant of the process:
`done` messages, in the order of the table, have been accepted in full somewhere.
`OnConn` is the invariant of one connection that was added at round `k`: it has
accepted a prefix of the messages from `k * n` on, and while it is the current
connection and open, exactly those up to `done`.

    one iteration of the send loop                  (`sendOne_spec`)
    one step keeps `Sends` and `OnConn`              (`Sends.step`, `OnConn.step`)
    the law for every run                            (`sending_law`)

A failed write ends the round; the next connection starts it again.
-/
import NetBench.ClientSlot

namespace NetBench.TcpClient

open Lib NbSysArgs

variable {β : Type} {a : NbSysArgs} {B : BytesBuffer β} {b₀ : β} {s s' : TcpClient β} {T : Bytes}

/-! ## One iteration -/

/-- The events of message `i` on `c`, of which `acc` was accepted. -/
def msgEvents (a : NbSysArgs) (T : Bytes) (c i : Nat) (acc : Bytes) : List Ev :=
  [.record c (a.record (UInt32.ofNat i) .clientSndBegin), .write c (a.slice T i) acc,
    .record c (a.record (UInt32.ofNat i) .clientSndEnd)]

/-- The events of the messages `i, i + 1, …`, `k` of them, each accepted in full. -/
def roundEvents (a : NbSysArgs) (T : Bytes) (c i k : Nat) : List Ev :=
  (List.range' i k).flatMap fun j => msgEvents a T c j (a.slice T j)

theorem roundEvents_succ (c i k : Nat) : roundEvents a T c i (k + 1) =
    roundEvents a T c i k ++ msgEvents a T c (i + k) (a.slice T (i + k)) := by
  simp [roundEvents, List.range'_1_concat]

theorem wire_msgEvents (c d i : Nat) (acc : Bytes) :
    wire (msgEvents a T d i acc) c = if d = c then acc else [] := by
  simp [msgEvents, wire, Ev.acceptedOn]

theorem not_assert_msgEvents {c d i : Nat} {acc : Bytes} {x : Assertion} :
    .assertFailed d x ∉ msgEvents a T c i acc := by
  simp [msgEvents]

theorem not_exit_msgEvents {c i : Nat} {acc : Bytes} : .exit ∉ msgEvents a T c i acc := by
  simp [msgEvents]

/-- An iteration at message `d` of a prepared table.  Both assertions hold, the
table stays as it is, and either all of the message is accepted and the loop goes
on, or less is accepted, the context is shut down and the call returns. -/
theorem sendOne_spec (ha : a.Fits) (hT : a.Prepared T) {d c : Nat} (hd : d < a.total)
    {l : Sending} (hseq : l.seq = UInt32.ofNat d) (hp : l.p = d * a.msgSize.toNat)
    (htable : s.datas = T) {w : WriteOutcome} (h : sendOne a c l w s = some s') :
    (c ∉ s.shut ∧
      s' = { s with
        log := s.log ++ msgEvents a T c d (a.slice T d)
        sending := some ⟨l.i + 1, l.seq + 1, l.p + a.msgSize.toNat⟩ }) ∨
    ∃ acc, acc = (ctxWrite (decide (c ∈ s.shut)) w (a.slice T d)).2 ∧
      acc <+: a.slice T d ∧ acc ≠ a.slice T d ∧ (c ∈ s.shut → acc = []) ∧
      s' = { s with
        log := s.log ++ msgEvents a T c d acc
        sending := none
        shut := c :: s.shut } := by
  obtain ⟨m, datas, buf, hm, hst, hbuf, hres⟩ := sendOne_cases h
  obtain ⟨m', hm', hhdr, hdata⟩ := hT.load_head hd
  have hst' := hT.store_seq hd
  rw [htable, hp, hseq] at hst
  rw [htable, hp] at hm
  obtain rfl : m' = m := Option.some.inj (hm'.symm.trans hm)
  obtain rfl : T = datas := Option.some.inj (hst'.symm.trans hst)
  rw [hp, load_slice hT.length_eq hd] at hbuf
  obtain rfl : a.slice T d = buf := Option.some.inj hbuf
  have hlen : (a.slice T d).length = a.msgSize.toNat := (hT.message d hd).1
  have hge := ha.ge
  have hlt : (a.slice T d).length < 2 ^ 31 := hlen ▸ ha.lt
  have hpos : 0 < (a.slice T d).length := by omega
  have hfull := ctxWrite_full_iff (decide (c ∈ s.shut)) w hlt hpos
  rw [hlen] at hfull
  have hev : ∀ acc, sendEvents a c l m' (a.slice T d) acc = msgEvents a T c d acc := by
    intro acc
    have hseq' : (a.msgData (UInt32.ofNat d)).sequence = l.seq := hseq.symm
    simp only [sendEvents, hhdr, hdata, hseq', msgHdr, decide_true, nbAssert, if_true,
      List.nil_append, msgEvents, hseq]
  rcases hres with ⟨hr, rfl⟩ | ⟨hr, rfl⟩
  · have hacc := hfull.mp hr
    have hopen : c ∉ s.shut := of_decide_eq_false (ctxWrite_open (by omega) hacc)
    refine Or.inl ⟨hopen, ?_⟩
    rw [hev, hacc, htable]
  · refine Or.inr ⟨_, rfl, ctxWrite_isPrefix _ _ _, fun hacc => hr (hfull.mpr hacc), ?_, ?_⟩
    · intro hc
      rw [decide_eq_true hc, ctxWrite_shut]
    · rw [hev, htable]

/-- An iteration never leaves a prepared table. -/
theorem sendOne_isSome (hT : a.Prepared T) {d c : Nat} (hd : d < a.total)
    {l : Sending} (hseq : l.seq = UInt32.ofNat d) (hp : l.p = d * a.msgSize.toNat)
    (htable : s.datas = T) (w : WriteOutcome) : (sendOne a c l w s).isSome := by
  obtain ⟨m, hm, -⟩ := hT.load_head hd
  have hm : Block.load T (d * a.msgSize.toNat) (sizeofMsgHdr + sizeofMsgData) = some m := hm
  have hst := hT.store_seq hd
  simp only [sendOne, htable, hp, hseq, hm, hst, load_slice hT.length_eq hd, Option.bind_eq_bind,
    Option.bind_some]
  split
  · rfl
  · rfl

/-- An iteration on an open context that accepts at least a whole message. -/
theorem sendOne_full (ha : a.Fits) (hT : a.Prepared T) {d c : Nat} (hd : d < a.total)
    {l : Sending} (hseq : l.seq = UInt32.ofNat d) (hp : l.p = d * a.msgSize.toNat)
    (htable : s.datas = T) (hopen : c ∉ s.shut) {k : Nat} (hk : a.msgSize.toNat ≤ k) :
    sendOne a c l (.accept k) s = some { s with
      log := s.log ++ msgEvents a T c d (a.slice T d)
      sending := some ⟨l.i + 1, l.seq + 1, l.p + a.msgSize.toNat⟩ } := by
  obtain ⟨s', hs'⟩ := Option.isSome_iff_exists.mp
    (sendOne_isSome (c := c) hT hd hseq hp htable (.accept k))
  rcases sendOne_spec ha hT hd hseq hp htable hs' with ⟨_, rfl⟩ | ⟨acc, hacc, _, hne, _⟩
  · exact hs'
  · refine absurd ?_ hne
    rw [hacc, decide_eq_false hopen]
    exact List.take_of_length_le ((hT.message d hd).1 ▸ hk)

/-! ## The process -/

/-- How many messages come before the next one to be sent. -/
def done (a : NbSysArgs) (s : TcpClient β) : Nat :=
  s.roundIndex.toNat * a.numPerRound.toNat + (s.sending.map (·.i.toNat)).getD 0

/-- The invariant of the process. -/
structure Sends (a : NbSysArgs) (T : Bytes) (s : TcpClient β) : Prop where
  table : s.datas = T
  round_le : s.roundIndex.toNat ≤ a.roundNum.toNat
  sending : ∀ l, s.sending = some l → s.roundIndex.toNat < a.roundNum.toNat ∧
    l.i.toNat ≤ a.numPerRound.toNat ∧ l.seq = UInt32.ofNat (done a s) ∧
    l.p = done a s * a.msgSize.toNat ∧
    ∃ c pre, s.ctx = some c ∧ s.log = pre ++
      roundEvents a T c (s.roundIndex.toNat * a.numPerRound.toNat) l.i.toNat
  asserts : ∀ c x, x ≠ .slot → .assertFailed c x ∉ s.log
  sent : ∀ i < done a s, ∃ c, .write c (a.slice T i) (a.slice T i) ∈ s.log
  exit : .exit ∈ s.log → s.roundIndex.toNat = a.roundNum.toNat
  unborn : ∀ c, c ∈ s.loop.queue ∨ s.loop.next ≤ c → wire s.log c = []

theorem done_of_none (h : s.sending = none) :
    done a s = s.roundIndex.toNat * a.numPerRound.toNat := by
  simp [done, h]

theorem done_of_some {l : Sending} (h : s.sending = some l) :
    done a s = s.roundIndex.toNat * a.numPerRound.toNat + l.i.toNat := by
  simp [done, h]

/-- The rounds below `r` end before the messages of round `r`. -/
theorem round_lt_total {r i : Nat} (hr : r < a.roundNum.toNat) (hi : i < a.numPerRound.toNat) :
    r * a.numPerRound.toNat + i < a.total := by
  calc r * a.numPerRound.toNat + i < r * a.numPerRound.toNat + a.numPerRound.toNat :=
        Nat.add_lt_add_left hi _
    _ ≤ a.roundNum.toNat * a.numPerRound.toNat := slice_end_le hr _
    _ = a.total := Nat.mul_comm _ _

/-- The message that comes next while the loop runs is one of the table. -/
theorem Sends.done_lt (h : Sends a T s) {l : Sending} (hl : s.sending = some l)
    (hi : l.i < a.numPerRound) : done a s < a.total := by
  rw [done_of_some hl]
  exact round_lt_total (h.sending l hl).1 (UInt32.lt_iff_toNat_lt.mp hi)

/-- The end of a round goes on where the loop stopped. -/
theorem Sends.roundDone (h : Sends a T s) {l : Sending} (hl : s.sending = some l)
    (hi : ¬ l.i < a.numPerRound) : s.roundIndex.toNat < a.roundNum.toNat ∧
      (s.roundIndex + 1).toNat = s.roundIndex.toNat + 1 ∧
      (s.roundIndex + 1).toNat * a.numPerRound.toNat = done a s := by
  obtain ⟨hr, hile, _⟩ := h.sending l hl
  have hi' : l.i.toNat = a.numPerRound.toNat :=
    Nat.le_antisymm hile (UInt32.le_iff_toNat_le.mp (UInt32.not_lt.mp hi))
  have hnext := toNat_succ hr
  exact ⟨hr, hnext, by rw [hnext, done_of_some hl, hi', Nat.succ_mul]⟩

theorem sends_start (ts : Timespec) : Sends a T (start ts T : TcpClient β) where
  table := rfl
  round_le := Nat.zero_le _
  sending _ h := nomatch h
  asserts _ _ _ h := nomatch h
  sent i h := by
    rw [done_of_none rfl] at h
    simp [start] at h
  exit h := nomatch h
  unborn _ _ := rfl

/-- A step that sends nothing and changes nothing of the round. -/
theorem Sends.of_same (h : Sends a T s) (hdatas : s'.datas = s.datas)
    (hround : s'.roundIndex = s.roundIndex) (hsending : s'.sending = s.sending)
    (hctx : s'.ctx = s.ctx ∨ s.sending = none) {evs : List Ev} (hlog : s'.log = s.log ++ evs)
    (hevs : ∀ e ∈ evs, ∃ c, e = .assertFailed c .slot) (hidle : evs = [] ∨ s.sending = none)
    (hfresh : ∀ c, c ∈ s'.loop.queue ∨ s'.loop.next ≤ c → c ∈ s.loop.queue ∨ s.loop.next ≤ c) :
    Sends a T s' := by
  have hdone : done a s' = done a s := by rw [done, done, hround, hsending]
  have hmem : ∀ {e}, (∀ c, e ≠ .assertFailed c .slot) → (e ∈ s'.log ↔ e ∈ s.log) := by
    intro e hne
    rw [hlog, List.mem_append]
    refine ⟨fun hor => hor.resolve_right fun he => ?_, Or.inl⟩
    obtain ⟨c, rfl⟩ := hevs e he
    exact hne c rfl
  have hwire : ∀ c, wire s'.log c = wire s.log c := by
    intro c
    have hnil : wire evs c = [] := by
      refine List.flatMap_eq_nil_iff.mpr fun e he => ?_
      obtain ⟨d, rfl⟩ := hevs e he
      rfl
    rw [hlog, wire_append, hnil, List.append_nil]
  refine ⟨hdatas.trans h.table, hround ▸ h.round_le, ?_, ?_, ?_, ?_, ?_⟩
  · intro l hl
    rw [hsending] at hl
    obtain ⟨hr, hi, hseq, hp, c, pre, hc, hpre⟩ := h.sending l hl
    have hnone : s.sending ≠ none := by
      rw [hl]
      exact fun h => nomatch h
    rw [hround, hdone, hlog, hidle.resolve_right hnone, List.append_nil]
    exact ⟨hr, hi, hseq, hp, c, pre, (hctx.resolve_right hnone).trans hc, hpre⟩
  · intro c x hx
    rw [hmem fun d hd => hx (Ev.assertFailed.inj hd).2]
    exact h.asserts c x hx
  · intro i hi
    rw [hdone] at hi
    obtain ⟨c, hc⟩ := h.sent i hi
    exact ⟨c, (hmem fun d => Ev.noConfusion).mpr hc⟩
  · intro hexit
    rw [hround]
    exact h.exit ((hmem fun d => Ev.noConfusion).mp hexit)
  · intro c hc
    rw [hwire]
    exact h.unborn c (hfresh c hc)

/-- The events of one more message keep what does not concern it. -/
theorem Sends.of_msgEvents (h : Sends a T s) (hslot : Slot s) {c : Nat} (acc : Bytes)
    (hc : s.ctx = some c) :
    (∀ d x, x ≠ .slot → .assertFailed d x ∉ s.log ++ msgEvents a T c (done a s) acc) ∧
    (∀ i < done a s, ∃ d, .write d (a.slice T i) (a.slice T i) ∈
      s.log ++ msgEvents a T c (done a s) acc) ∧
    (.exit ∈ s.log ++ msgEvents a T c (done a s) acc →
      s.roundIndex.toNat = a.roundNum.toNat) ∧
    ∀ d, d ∈ s.loop.queue ∨ s.loop.next ≤ d →
      wire (s.log ++ msgEvents a T c (done a s) acc) d = [] := by
  refine ⟨?_, ?_, ?_, ?_⟩
  · intro d x hx hmem
    exact (List.mem_append.mp hmem).elim (h.asserts d x hx) not_assert_msgEvents
  · intro i hi
    obtain ⟨d, hd⟩ := h.sent i hi
    exact ⟨d, List.mem_append_left _ hd⟩
  · intro hexit
    exact h.exit ((List.mem_append.mp hexit).resolve_right not_exit_msgEvents)
  · intro d hd
    have hlive := hslot.slot c hc
    have hne : c ≠ d := by
      rintro rfl
      rcases hd with hq | hn
      · exact EventLoop.not_live_of_queue hq hlive
      · exact absurd (EventLoop.lt_of_live hlive) (Nat.not_lt_of_le hn)
    rw [wire_append, h.unborn d hd, wire_msgEvents, if_neg hne, List.append_nil]

/-- Every step keeps the invariant of the process. -/
theorem Sends.step (ha : a.Fits) (hT : a.Prepared T) (h : Sends a T s) (hslot : Slot s)
    {e : ClientEvent} (hs : Step a B b₀ s e s') : Sends a T s' := by
  cases hs with
  | connected ht =>
      refine h.of_same rfl rfl rfl (Or.inl rfl) (List.append_nil _).symm (fun _ h => nomatch h)
        (Or.inl rfl) ?_
      rintro c (hq | hn)
      · rcases List.mem_cons.mp hq with rfl | hq
        · exact Or.inr (Nat.le_refl _)
        · exact Or.inl hq
      · exact Or.inr (Nat.le_of_succ_le hn)
  | @add c ts nodelay hsend hc =>
      have hfresh : ∀ d, d ∈ s.loop.queue.erase c ∨ s.loop.next ≤ d →
          d ∈ s.loop.queue ∨ s.loop.next ≤ d :=
        fun d hd => hd.imp_left List.mem_of_mem_erase
      cases nodelay with
      | true =>
          exact h.of_same rfl rfl rfl (Or.inr hsend) (List.append_nil _).symm
            (fun _ h => nomatch h) (Or.inl rfl) hfresh
      | false =>
          exact h.of_same rfl rfl rfl (Or.inr hsend) (List.append_nil _).symm
            (fun _ h => nomatch h) (Or.inl rfl) hfresh
  | @timer ts hsend =>
      rcases onTimer_cases a ts s with ⟨hr, heq⟩ | heq | ⟨c, hr, hc, _, heq⟩
      · rw [heq]
        have hround : s.roundIndex.toNat = a.roundNum.toNat :=
          Nat.le_antisymm h.round_le (UInt32.le_iff_toNat_le.mp hr)
        refine ⟨h.table, h.round_le, ?_, ?_, ?_, fun _ => hround, ?_⟩
        · intro l hl
          rw [hsend] at hl
          cases hl
        · intro d x hx hmem
          refine h.asserts d x hx ((List.mem_append.mp hmem).resolve_right ?_)
          simp
        · intro i hi
          obtain ⟨d, hd⟩ := h.sent i hi
          exact ⟨d, List.mem_append_left _ hd⟩
        · intro d hd
          rw [wire_append, h.unborn d hd]
          rfl
      · rw [heq]
        exact h
      · -- a round starts: as many messages are done as before
        rw [heq]
        have hlt := UInt32.lt_iff_toNat_lt.mp hr
        have hdone : done a s = s.roundIndex.toNat * a.numPerRound.toNat := done_of_none hsend
        refine ⟨h.table, h.round_le, ?_, h.asserts, ?_, h.exit, h.unborn⟩
        · intro l hl
          obtain rfl : _ = l := Option.some.inj hl
          exact ⟨hlt, Nat.zero_le _, seq_eq a _, offset_eq ha.prod h.round_le, c, s.log, hc,
            by simp [roundEvents]⟩
        · intro i hi
          exact h.sent i (hdone ▸ hi)
  | @send _ l c w hl hi hc hsend =>
      obtain ⟨hr, hile, hseq, hp, c', pre, hc', hpre⟩ := h.sending l hl
      obtain rfl : c' = c := Option.some.inj (hc'.symm.trans hc)
      have hd := h.done_lt hl hi
      have hdone := done_of_some (a := a) hl
      have hi' := UInt32.lt_iff_toNat_lt.mp hi
      have hnext := toNat_succ hi'
      rcases sendOne_spec ha hT hd hseq hp h.table hsend with ⟨_, rfl⟩ | ⟨acc, _, _, _, _, rfl⟩
      · -- the message was accepted
        obtain ⟨hass, hsent, hexit, hunborn⟩ := h.of_msgEvents hslot (a.slice T (done a s)) hc
        have hdone' : s.roundIndex.toNat * a.numPerRound.toNat + (l.i + 1).toNat =
            done a s + 1 := by
          rw [hnext, hdone, Nat.add_assoc]
        refine ⟨h.table, h.round_le, ?_, hass, ?_, hexit, hunborn⟩
        · intro l' hl'
          obtain rfl : _ = l' := Option.some.inj hl'
          refine ⟨hr, by rw [hnext]; exact hi', ?_, ?_, c', pre, hc, ?_⟩
          · show l.seq + 1 = UInt32.ofNat (s.roundIndex.toNat * a.numPerRound.toNat + (l.i + 1).toNat)
            rw [hdone', UInt32.ofNat_add, hseq]
            rfl
          · show l.p + a.msgSize.toNat =
              (s.roundIndex.toNat * a.numPerRound.toNat + (l.i + 1).toNat) * a.msgSize.toNat
            rw [hdone', hp, Nat.succ_mul]
          · show s.log ++ msgEvents a T c' (done a s) (a.slice T (done a s)) =
              pre ++ roundEvents a T c' _ (l.i + 1).toNat
            rw [hnext, roundEvents_succ, ← hdone, ← List.append_assoc, ← hpre]
        · intro i hlt
          have hlt : i < done a s + 1 := hdone' ▸ hlt
          rcases Nat.lt_succ_iff_lt_or_eq.mp hlt with hlt | rfl
          · exact hsent i hlt
          · refine ⟨c', List.mem_append_right _ ?_⟩
            simp [msgEvents]
      · obtain ⟨hass, hsent, hexit, hunborn⟩ := h.of_msgEvents hslot acc hc
        refine ⟨h.table, h.round_le, ?_, hass, ?_, hexit, hunborn⟩
        · intro l hl
          cases hl
        · intro i hlt
          refine hsent i (Nat.lt_of_lt_of_le hlt ?_)
          rw [done_of_none rfl, hdone]
          exact Nat.le_add_right _ _
  | @roundDone l hl hi =>
      obtain ⟨hr, hnext, hdone⟩ := h.roundDone hl hi
      refine ⟨h.table, ?_, ?_, h.asserts, ?_, ?_, h.unborn⟩
      · show (s.roundIndex + 1).toNat ≤ _
        rw [hnext]
        exact hr
      · intro l hl
        cases hl
      · intro i hlt
        rw [done_of_none rfl] at hlt
        exact h.sent i (hdone ▸ hlt)
      · intro hexit
        exact absurd (h.exit hexit) (Nat.ne_of_lt hr)
  | @message _ c fuel cks hsend hc hm =>
      rcases onMessage_cases hm with rfl | ⟨ses, ses', shut, _, _, rfl⟩
      · exact h
      · exact h.of_same rfl rfl rfl (Or.inl rfl) (List.append_nil _).symm (fun _ h => nomatch h)
          (Or.inl rfl) (fun _ => id)
  | @close c hsend hc =>
      refine h.of_same rfl rfl rfl (Or.inr hsend) rfl ?_ (Or.inr hsend) (fun _ => id)
      intro e he
      exact ⟨c, (mem_nbAssert.mp he).2⟩
  | @release c hsend hc =>
      exact h.of_same rfl rfl rfl (Or.inl rfl) (List.append_nil _).symm (fun _ h => nomatch h)
        (Or.inl rfl) (fun _ => id)

/-! ## One connection -/

/-- The messages from round `k` on. -/
def messagesFrom (a : NbSysArgs) (T : Bytes) (k : Nat) : List Bytes :=
  a.slices T (k * a.numPerRound.toNat) (a.total - k * a.numPerRound.toNat)

/-- The invariant of a connection that was added at round `k`. -/
structure OnConn (a : NbSysArgs) (T : Bytes) (c k : Nat) (s : TcpClient β) : Prop where
  started : k ≤ s.roundIndex.toNat
  born : c ∉ s.loop.queue ∧ c < s.loop.next
  accepted : wire s.log c <+: (messagesFrom a T k).flatten
  current : s.ctx = some c → c ∉ s.shut → wire s.log c =
    (a.slices T (k * a.numPerRound.toNat) (done a s - k * a.numPerRound.toNat)).flatten

/-- Whoever adds a context finds nothing accepted on it. -/
theorem OnConn.of_add (h : Sends a T s) {c : Nat} (hc : c ∈ s.loop.queue) (hsend : s.sending = none)
    (ts : Timespec) (nodelay : Bool) : OnConn a T c s.roundIndex.toNat
      (onAddCtx a b₀ c ts nodelay { s with loop := s.loop.add c hc }) := by
  have hwire := h.unborn c (Or.inl hc)
  have hgone : c ∉ s.loop.queue.erase c := fun hmem =>
    (s.loop.nodup_queue.mem_erase_iff.mp hmem).1 rfl
  have hlt : c < s.loop.next := EventLoop.lt_of_queue hc
  have hnil : (a.slices T (s.roundIndex.toNat * a.numPerRound.toNat)
      (done a s - s.roundIndex.toNat * a.numPerRound.toNat)).flatten = [] := by
    rw [done_of_none hsend, Nat.sub_self]
    rfl
  cases nodelay with
  | true =>
      refine ⟨Nat.le_refl _, ⟨hgone, hlt⟩, ?_, fun _ _ => ?_⟩
      · show wire s.log c <+: _
        rw [hwire]
        exact List.nil_prefix
      · exact hwire.trans hnil.symm
  | false =>
      refine ⟨Nat.le_refl _, ⟨hgone, hlt⟩, ?_, fun _ _ => ?_⟩
      · show wire s.log c <+: _
        rw [hwire]
        exact List.nil_prefix
      · exact hwire.trans hnil.symm

/-- A step that accepts nothing on `c` and changes nothing of the round. -/
theorem OnConn.of_same {c k : Nat} (h : OnConn a T c k s) (hround : s'.roundIndex = s.roundIndex)
    (hborn : c ∉ s'.loop.queue ∧ c < s'.loop.next) (hwire : wire s'.log c = wire s.log c)
    (hcur : s'.ctx = some c → c ∉ s'.shut → s.ctx = some c ∧ c ∉ s.shut ∧ done a s' = done a s) :
    OnConn a T c k s' where
  started := by
    rw [hround]
    exact h.started
  born := hborn
  accepted := by
    rw [hwire]
    exact h.accepted
  current hc hopen := by
    obtain ⟨hc, hopen, hdone⟩ := hcur hc hopen
    rw [hwire, hdone]
    exact h.current hc hopen

/-- Every step keeps the invariant of a connection. -/
theorem OnConn.step (ha : a.Fits) (hT : a.Prepared T) {c k : Nat} (h : OnConn a T c k s)
    (hsends : Sends a T s) {e : ClientEvent} (hs : Step a B b₀ s e s') :
    OnConn a T c k s' := by
  cases hs with
  | connected ht =>
      refine h.of_same rfl ⟨?_, Nat.lt_succ_of_lt h.born.2⟩ rfl fun hc ho => ⟨hc, ho, rfl⟩
      intro hmem
      rcases List.mem_cons.mp hmem with rfl | hmem
      · exact absurd h.born.2 (Nat.lt_irrefl _)
      · exact h.born.1 hmem
  | @add d ts nodelay hsend hd =>
      have hborn : c ∉ s.loop.queue.erase d := fun hmem => h.born.1 (List.mem_of_mem_erase hmem)
      have hne : d ≠ c := fun hdc => h.born.1 (hdc ▸ hd)
      cases nodelay with
      | true =>
          exact h.of_same rfl ⟨hborn, h.born.2⟩ rfl fun hc _ => absurd (Option.some.inj hc) hne
      | false =>
          exact h.of_same rfl ⟨hborn, h.born.2⟩ rfl fun hc ho =>
            ⟨hc, fun hmem => ho (List.mem_cons_of_mem _ hmem), rfl⟩
  | @timer ts hsend =>
      rcases onTimer_cases a ts s with ⟨_, heq⟩ | heq | ⟨d, _, _, _, heq⟩
      · rw [heq]
        refine h.of_same rfl h.born ?_ fun hc ho => ⟨hc, ho, rfl⟩
        rw [wire_append]
        exact List.append_nil _
      · rw [heq]
        exact h
      · rw [heq]
        exact h.of_same rfl h.born rfl fun hc ho => ⟨hc, ho, (done_of_none hsend).symm⟩
  | @send _ l d w hl hi hd hsend =>
      obtain ⟨_, _, hseq, hp, _⟩ := hsends.sending l hl
      have hlt := hsends.done_lt hl hi
      have hstart : k * a.numPerRound.toNat ≤ done a s :=
        Nat.le_trans (Nat.mul_le_mul_right _ h.started) (Nat.le_add_right _ _)
      have hdone : done a s = s.roundIndex.toNat * a.numPerRound.toNat + l.i.toNat :=
        done_of_some hl
      -- one message more than what the open connection has accepted
      have hmore : done a s + 1 - k * a.numPerRound.toNat =
          done a s - k * a.numPerRound.toNat + 1 := by omega
      have hslices : a.slices T (k * a.numPerRound.toNat) (done a s + 1 - k * a.numPerRound.toNat) =
          a.slices T (k * a.numPerRound.toNat) (done a s - k * a.numPerRound.toNat) ++
            [a.slice T (done a s)] := by
        rw [hmore, slices_succ, Nat.add_sub_cancel' hstart]
      have hwithin : (a.slices T (k * a.numPerRound.toNat)
          (done a s + 1 - k * a.numPerRound.toNat)).flatten <+: (messagesFrom a T k).flatten :=
        flatten_isPrefix (slices_isPrefix T _ (Nat.sub_le_sub_right hlt _))
      by_cases hdc : d = c
      · subst hdc
        rcases sendOne_spec ha hT hlt hseq hp hsends.table hsend with
          ⟨hopen, rfl⟩ | ⟨acc, _, hacc, _, hshut, rfl⟩
        · have hnext := toNat_succ (UInt32.lt_iff_toNat_lt.mp hi)
          have hwire : wire (s.log ++ msgEvents a T d (done a s) (a.slice T (done a s))) d =
              (a.slices T (k * a.numPerRound.toNat)
                (done a s + 1 - k * a.numPerRound.toNat)).flatten := by
            rw [wire_append, wire_msgEvents, if_pos rfl, h.current hd hopen, hslices,
              List.flatten_append, List.flatten_singleton]
          refine ⟨h.started, h.born, ?_, fun _ _ => ?_⟩
          · show wire (s.log ++ _) d <+: _
            rw [hwire]
            exact hwithin
          · show wire (s.log ++ _) d = (a.slices T _
              (s.roundIndex.toNat * a.numPerRound.toNat + (l.i + 1).toNat - _)).flatten
            rw [hwire, hnext, ← Nat.add_assoc, ← hdone]
        · refine ⟨h.started, h.born, ?_, fun _ ho => absurd List.mem_cons_self ho⟩
          show wire (s.log ++ _) d <+: _
          rw [wire_append, wire_msgEvents, if_pos rfl]
          by_cases hopen : d ∈ s.shut
          · rw [hshut hopen, List.append_nil]
            exact h.accepted
          · rw [h.current hd hopen]
            refine List.IsPrefix.trans ?_ hwithin
            rw [hslices, List.flatten_append, List.flatten_singleton]
            exact (List.prefix_append_right_inj _).mpr hacc
      · have hctx : s.ctx ≠ some c := by
          rw [hd]
          exact fun hc => hdc (Option.some.inj hc)
        have hwire : ∀ acc, wire (s.log ++ msgEvents a T d (done a s) acc) c = wire s.log c := by
          intro acc
          rw [wire_append, wire_msgEvents, if_neg hdc, List.append_nil]
        rcases sendOne_spec ha hT hlt hseq hp hsends.table hsend with
          ⟨_, rfl⟩ | ⟨acc, _, _, _, _, rfl⟩
        · exact h.of_same rfl h.born (hwire _) fun hc _ => absurd hc hctx
        · exact h.of_same rfl h.born (hwire _) fun hc _ => absurd hc hctx
  | @roundDone l hl hi =>
      obtain ⟨_, hnext, hdone⟩ := hsends.roundDone hl hi
      refine ⟨?_, h.born, h.accepted, fun hc ho => ?_⟩
      · show k ≤ (s.roundIndex + 1).toNat
        rw [hnext]
        exact Nat.le_succ_of_le h.started
      · rw [done_of_none rfl]
        show wire s.log c = (a.slices T _ ((s.roundIndex + 1).toNat * _ - _)).flatten
        rw [hdone]
        exact h.current hc ho
  | @message _ d fuel cks hsend hd hm =>
      rcases onMessage_cases hm with rfl | ⟨ses, ses', shut, _, hshut, rfl⟩
      · exact h
      · refine h.of_same rfl h.born rfl fun hc ho => ⟨hc, ?_, rfl⟩
        rcases hshut with rfl | rfl
        · exact ho
        · exact fun hmem => ho (List.mem_cons_of_mem _ hmem)
  | @close d hsend hd =>
      refine h.of_same rfl h.born ?_ fun hc _ => nomatch hc
      show wire (s.log ++ _) c = _
      rw [wire_append, wire_nbAssert, List.append_nil]
  | @release d hsend hd =>
      exact h.of_same rfl h.born rfl fun hc ho => ⟨hc, ho, rfl⟩

/-! ## The law -/

theorem sends_of_run (ha : a.Fits) (hT : a.Prepared T) {ts : Timespec} {es : List ClientEvent}
    (hrun : Run (Step a B b₀) (start ts T) es s) : Slot s ∧ Sends a T s :=
  hrun.invariant (I := fun s => Slot s ∧ Sends a T s)
    (fun _ _ _ h hs => ⟨h.1.step hs, h.2.step ha hT h.1 hs⟩) ⟨slot_start ts T, sends_start ts⟩

/-- From its add on, a connection accepts a prefix of the messages from the round
that had come. -/
theorem accepted_of_run (ha : a.Fits) (hT : a.Prepared T) {ts ts' : Timespec}
    {pre post : List ClientEvent} {c : Nat} {nodelay : Bool} {s₁ s₂ : TcpClient β}
    (hpre : Run (Step a B b₀) (start ts T) pre s₁)
    (hadd : Step a B b₀ s₁ (.add c ts' nodelay) s₂) (hpost : Run (Step a B b₀) s₂ post s) :
    wire s.log c <+: (messagesFrom a T s₁.roundIndex.toNat).flatten := by
  obtain ⟨hslot, hsends⟩ := sends_of_run ha hT hpre
  have hconn : OnConn a T c s₁.roundIndex.toNat s₂ := by
    cases hadd with
    | add hs hc => exact OnConn.of_add hsends hc hs ts' nodelay
  have h := hpost.invariant
    (I := fun s => Slot s ∧ Sends a T s ∧ OnConn a T c s₁.roundIndex.toNat s)
    (fun _ _ _ h hs => ⟨h.1.step hs, h.2.1.step ha hT h.1 hs, h.2.2.step ha hT h.2.1 hs⟩)
    ⟨hslot.step hadd, hsends.step ha hT hslot hadd, hconn⟩
  exact h.2.2.accepted

/-- A step leaves `round_index` alone, or ends a timer call in which all messages
of the round were accepted in full on one connection. -/
theorem roundIndex_step (h : Sends a T s) {e : ClientEvent} (hs : Step a B b₀ s e s') :
    s'.roundIndex = s.roundIndex ∨
    (e = .roundDone ∧ s'.sending = none ∧ s'.roundIndex.toNat = s.roundIndex.toNat + 1 ∧
      ∃ c pre, s.ctx = some c ∧ s.log = pre ++
        roundEvents a T c (s.roundIndex.toNat * a.numPerRound.toNat) a.numPerRound.toNat) := by
  cases hs with
  | connected => exact Or.inl rfl
  | @add c ts nodelay =>
      cases nodelay with
      | true => exact Or.inl rfl
      | false => exact Or.inl rfl
  | @timer ts =>
      rcases onTimer_cases a ts s with ⟨_, heq⟩ | heq | ⟨_, _, _, _, heq⟩
      · exact Or.inl (by rw [heq])
      · exact Or.inl (by rw [heq])
      · exact Or.inl (by rw [heq])
  | send hl hi hc hsend =>
      obtain ⟨_, _, _, _, _, _, ⟨_, rfl⟩ | ⟨_, rfl⟩⟩ := sendOne_cases hsend
      · exact Or.inl rfl
      · exact Or.inl rfl
  | @roundDone l hl hi =>
      obtain ⟨_, hnext, _⟩ := h.roundDone hl hi
      obtain ⟨_, hile, _, _, c, pre, hc, hpre⟩ := h.sending l hl
      have hi' : l.i.toNat = a.numPerRound.toNat :=
        Nat.le_antisymm hile (UInt32.le_iff_toNat_le.mp (UInt32.not_lt.mp hi))
      exact Or.inr ⟨rfl, rfl, hnext, c, pre, hc, hi' ▸ hpre⟩
  | message hs hc hm =>
      rcases onMessage_cases hm with rfl | ⟨_, _, _, _, _, rfl⟩
      · exact Or.inl rfl
      · exact Or.inl rfl
  | close => exact Or.inl rfl
  | release => exact Or.inl rfl

/-- The sending law.  On a block of the size that was asked for the preparation
succeeds, and for every run from the table `T` it leaves:

* a connection added when `round_index` was `s` accepts a prefix of the messages
  `s * n, …, N - 1`;
* `round_index` changes only at the end of a timer call, by one, after `n` full
  writes of the round on one connection, and stays at most `round_num`;
* both assertions of `tcp_client_on_timer` hold at every message, and no
  iteration leaves the table;
* once `muggle_evloop_exit` was called, every message has been accepted in full. -/
theorem sending_law (ha : a.Fits) {m : Bytes} (hm : m.length = a.tableBytes.toNat) :
    ∃ T, a.prepare m = some T ∧ (∀ i < a.total, a.IsMessage i (a.slice T i)) ∧ ∀ ts,
      (∀ pre c ts' nodelay post s₁ s₂ s, Run (Step a B b₀) (start ts T) pre s₁ →
        Step a B b₀ s₁ (.add c ts' nodelay) s₂ → Run (Step a B b₀) s₂ post s →
        wire s.log c <+: (messagesFrom a T s₁.roundIndex.toNat).flatten) ∧
      (∀ es s e s', Run (Step a B b₀) (start ts T) es s → Step a B b₀ s e s' →
        s'.roundIndex = s.roundIndex ∨
        (e = .roundDone ∧ s'.sending = none ∧ s'.roundIndex.toNat = s.roundIndex.toNat + 1 ∧
          ∃ c pre, s.ctx = some c ∧ s.log = pre ++
            roundEvents a T c (s.roundIndex.toNat * a.numPerRound.toNat) a.numPerRound.toNat)) ∧
      (∀ es s, Run (Step a B b₀) (start ts T) es s →
        s.roundIndex.toNat ≤ a.roundNum.toNat ∧
        (∀ c, .assertFailed c .msgId ∉ s.log ∧ .assertFailed c .sequence ∉ s.log) ∧
        (∀ l w, s.sending = some l → l.i < a.numPerRound →
          ∃ s', Step a B b₀ s (.send w) s') ∧
        (.exit ∈ s.log → ∀ i < a.total,
          ∃ c, .write c (a.slice T i) (a.slice T i) ∈ s.log)) := by
  obtain ⟨T, hprep, hT⟩ := prepare_prepared ha.sized hm
  refine ⟨T, hprep, hT.message, fun ts => ⟨?_, ?_, ?_⟩⟩
  · intro pre c ts' nodelay post s₁ s₂ s hpre hadd hpost
    exact accepted_of_run ha hT hpre hadd hpost
  · intro es s e s' hrun hs
    exact roundIndex_step (sends_of_run ha hT hrun).2 hs
  · intro es s hrun
    obtain ⟨_, h⟩ := sends_of_run ha hT hrun
    refine ⟨h.round_le, fun c => ⟨h.asserts c _ (fun h => nomatch h), h.asserts c _ (fun h => nomatch h)⟩,
      ?_, ?_⟩
    · intro l w hl hi
      obtain ⟨_, _, hseq, hp, c, _, hc, _⟩ := h.sending l hl
      obtain ⟨s', hs'⟩ := Option.isSome_iff_exists.mp
        (sendOne_isSome (c := c) hT (h.done_lt hl hi) hseq hp h.table w)
      exact ⟨s', .send hl hi hc hs'⟩
    · intro hexit i hi
      refine h.sent i (Nat.lt_of_lt_of_le hi ?_)
      rw [total, Nat.mul_comm, ← h.exit hexit]
      exact Nat.le_add_right _ _

/-- One message whose first write is short; it is sent again on the next connection. -/
def shortThenFull : List ClientEvent :=
  [.add 0 ⟨0, 0⟩ true, .timer ⟨0, 0⟩, .send (.accept 3), .close 0, .connected,
    .add 1 ⟨0, 0⟩ true, .timer ⟨0, 0⟩, .send (.accept 16), .roundDone, .timer ⟨0, 0⟩]

/-- There the loop ends, and the message was accepted. -/
theorem sending_law_after_short_write : ∃ s, Run (Step oneMessage (ringBuffer netBenchTcpBufSize)
      (emptyRing netBenchTcpBufSize fun _ => 0)) (start ⟨0, 0⟩ oneMessageTable) shortThenFull s ∧
    .exit ∈ s.log ∧ wire s.log 0 = oneMessageTable.take 3 ∧
    ∃ c, .write c oneMessageTable oneMessageTable ∈ s.log := by
  have hfits : oneMessage.Fits := ⟨by decide, by decide, by decide⟩
  have hprepare : oneMessage.prepare (List.replicate 16 0) = some oneMessageTable := by decide
  obtain ⟨T, hT, _, hlaw⟩ := @sending_law _ oneMessage (ringBuffer netBenchTcpBufSize)
    (emptyRing netBenchTcpBufSize fun _ => 0) hfits (List.replicate 16 0) (by decide)
  obtain rfl : oneMessageTable = T := Option.some.inj (hprepare.symm.trans hT)
  have hprepared := prepared_of_prepare hfits.sized (by decide) hprepare
  obtain ⟨s, hrun, hexit, hwire⟩ : ∃ s, Run (Step oneMessage (ringBuffer netBenchTcpBufSize)
      (emptyRing netBenchTcpBufSize fun _ => 0)) (start ⟨0, 0⟩ oneMessageTable) shortThenFull s ∧
      .exit ∈ s.log ∧ wire s.log 0 = oneMessageTable.take 3 := by
    refine ⟨_, .cons (.add rfl List.mem_cons_self) (.cons (.timer rfl)
      (.cons (.send rfl (by decide) rfl rfl) (.cons (.close rfl List.mem_cons_self)
      (.cons (.connected (by decide)) (.cons (.add rfl List.mem_cons_self) (.cons (.timer rfl)
      (.cons (.send rfl (by decide) rfl
        (sendOne_full hfits hprepared (d := 0) (by decide) rfl rfl rfl (by decide) (by decide)))
      (.cons (.roundDone rfl (by decide)) (.cons (.timer rfl) (.nil _)))))))))), ?_, ?_⟩
    · decide
    · rfl
  exact ⟨s, hrun, hexit, hwire, ((hlaw ⟨0, 0⟩).2.2 _ s hrun).2.2.2 hexit 0 (by decide)⟩

end NetBench.TcpClient

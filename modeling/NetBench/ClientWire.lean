/-
# `NetBench.ClientWire` — what the TCP client puts on its connections

`Logged` is what one step adds to the log of a client with a prepared table: events
without records and writes, or those of the message that comes next.  From it follows
the invariant of all connections (`Sent`): only messages of the table are written, and
each connection has accepted whole ones and then at most a part of one.
-/
import NetBench.ClientSend
import NetBench.Received
import NetBench.Wire

namespace NetBench.TcpClient

open Lib NbSysArgs

variable {β : Type} {a : NbSysArgs} {B : BytesBuffer β} {b₀ : β} {s s' : TcpClient β} {T : Bytes}

/-! ## One step -/

/-- What the step `e` from `s` to `s'` adds to the log. -/
inductive Logged (a : NbSysArgs) (T : Bytes) (s s' : TcpClient β) : ClientEvent → Prop
  /-- Neither a record nor a write. -/
  | quiet {e : ClientEvent} {l : List Ev} (hlog : s'.log = s.log ++ l) (hl : Quiet l)
      (hdone : done a s' = done a s) : Logged a T s s' e
  /-- The next message, accepted in full. -/
  | full {w : WriteOutcome} {c : Nat} (hd : done a s < a.total) (hopen : c ∉ s.shut)
      (hlog : s'.log = s.log ++ msgEvents a T c (done a s) (a.slice T (done a s)))
      (hdone : done a s' = done a s + 1) : Logged a T s s' (.send w)
  /-- The next message, not accepted in full; the round will start again. -/
  | part {w : WriteOutcome} {l : Sending} {c : Nat} {acc : Bytes} (hd : done a s < a.total)
      (hl : s.sending = some l) (hc : s.ctx = some c)
      (hlog : s'.log = s.log ++ msgEvents a T c (done a s) acc)
      (hacc : acc = (ctxWrite (decide (c ∈ s.shut)) w (a.slice T (done a s))).2)
      (hne : acc ≠ a.slice T (done a s)) (hshut : c ∈ s'.shut)
      (hdone : done a s' + l.i.toNat = done a s) : Logged a T s s' (.send w)

/-- Every step adds one of these, and opens no context again. -/
theorem Step.logged (ha : a.Fits) (hT : a.Prepared T) (h : Sends a T s) {e : ClientEvent}
    (hs : Step a B b₀ s e s') : Logged a T s s' e ∧ s.shut ⊆ s'.shut := by
  have hnil : s.log = s.log ++ [] := (List.append_nil _).symm
  cases hs with
  | connected => exact ⟨.quiet hnil quiet_nil rfl, List.Subset.refl _⟩
  | @add c ts nodelay hsend hc =>
      cases nodelay with
      | true => exact ⟨.quiet hnil quiet_nil rfl, List.Subset.refl _⟩
      | false => exact ⟨.quiet hnil quiet_nil rfl, List.subset_cons_self _ _⟩
  | @timer ts hsend =>
      rcases onTimer_cases a ts s with ⟨_, heq⟩ | heq | ⟨c, _, _, _, heq⟩
      · rw [heq]
        refine ⟨.quiet rfl ?_ rfl, List.Subset.refl _⟩
        intro e he
        exact Or.inr (List.mem_singleton.mp he)
      · rw [heq]
        exact ⟨.quiet hnil quiet_nil rfl, List.Subset.refl _⟩
      · rw [heq]
        exact ⟨.quiet hnil quiet_nil (done_of_none hsend).symm, List.Subset.refl _⟩
  | @send _ l c w hl hi hc hsend =>
      obtain ⟨_, _, hseq, hp, _⟩ := h.sending l hl
      have hd := h.done_lt hl hi
      have hdone := done_of_some (a := a) hl
      have hnext := toNat_succ (UInt32.lt_iff_toNat_lt.mp hi)
      rcases sendOne_spec ha hT hd hseq hp h.table hsend with
        ⟨hopen, rfl⟩ | ⟨acc, hacc, _, hne, _, rfl⟩
      · refine ⟨.full hd hopen rfl ?_, List.Subset.refl _⟩
        show s.roundIndex.toNat * a.numPerRound.toNat + (l.i + 1).toNat = _
        rw [hnext, hdone, Nat.add_assoc]
      · exact ⟨.part hd hl hc rfl hacc hne List.mem_cons_self hdone.symm, List.subset_cons_self _ _⟩
  | @roundDone l hl hi =>
      obtain ⟨_, _, hdone⟩ := h.roundDone hl hi
      exact ⟨.quiet hnil quiet_nil ((done_of_none rfl).trans hdone), List.Subset.refl _⟩
  | @message _ c fuel cks hsend hc hm =>
      rcases onMessage_cases hm with rfl | ⟨ses, ses', shut, _, hshut, rfl⟩
      · exact ⟨.quiet hnil quiet_nil rfl, List.Subset.refl _⟩
      · refine ⟨.quiet hnil quiet_nil rfl, ?_⟩
        rcases hshut with rfl | rfl
        · exact List.Subset.refl _
        · exact List.subset_cons_self _ _
  | @close c hsend hc => exact ⟨.quiet rfl (quiet_nbAssert _ _ _) rfl, List.Subset.refl _⟩
  | @release c hsend hc => exact ⟨.quiet hnil quiet_nil rfl, List.Subset.refl _⟩

/-! ## Messages of the table -/

theorem isMsg_slice (ha : a.Fits) (hT : a.Prepared T) {i : Nat} (hi : i < a.total) :
    IsMsg (a.slice T i) := by
  have hmsg := hT.message i hi
  exact ⟨hmsg.isFrame, hmsg.1 ▸ ha.ge, hmsg.1 ▸ ha.lt⟩

/-- What the records of message `i` say. -/
def msgKey (a : NbSysArgs) (i : Nat) : MsgKey := ⟨a.userId, UInt32.ofNat i, a.msgSize⟩

theorem keyOf_slice (hT : a.Prepared T) {i : Nat} (hi : i < a.total) :
    keyOf (a.slice T i) = msgKey a i := by
  have hmsg := hT.message i hi
  rw [keyOf, hmsg.data, hmsg.1, UInt32.ofNat_toNat]
  rfl

/-- Different messages have different records. -/
theorem msgKey_inj (ha : a.Fits) {i j : Nat} (hi : i < a.total) (hj : j < a.total)
    (h : msgKey a i = msgKey a j) : i = j := by
  have hlt := ha.sized.total_lt
  have hid : UInt32.ofNat i = UInt32.ofNat j := congrArg MsgKey.id h
  rw [← UInt32.toNat_inj, UInt32.toNat_ofNat', UInt32.toNat_ofNat',
    Nat.mod_eq_of_lt (by omega), Nat.mod_eq_of_lt (by omega)] at hid
  exact hid

/-! ## All connections -/

/-- Only messages of the table are written, each between its `client.snd_begin` and its
`client.snd_end`; whole ones and at most one part at the end. -/
structure Sent (a : NbSysArgs) (T : Bytes) (s : TcpClient β) : Prop where
  whole : ∀ c, Whole s.log s.shut c
  slices : ∀ c f acc, .write c f acc ∈ s.log → ∃ i < a.total, f = a.slice T i ∧
    .record c ((msgKey a i).record .clientSndBegin) ∈ s.log ∧
    .record c ((msgKey a i).record .clientSndEnd) ∈ s.log

theorem sent_start (ts : Timespec) : Sent a T (start ts T : TcpClient β) where
  whole c := whole_nil [] c
  slices _ _ _ h := nomatch h

/-- The events of a message, two of which are records. -/
theorem Sent.of_msgEvents (ha : a.Fits) (hT : a.Prepared T) (h : Sent a T s) {i c : Nat}
    (hi : i < a.total) {acc : Bytes} (hpre : acc <+: a.slice T i) (hclosed : c ∈ s.shut → acc = [])
    (hsub : s.shut ⊆ s'.shut) (hd : acc ≠ a.slice T i → c ∈ s'.shut)
    (hlog : s'.log = s.log ++ msgEvents a T c i acc) : Sent a T s' := by
  have hrec : ∀ r : Record, NoWrite [.record c r] := by
    intro r d buf acc hmem
    simp at hmem
  have hsplit : s'.log = s.log ++ [.record c (a.record (UInt32.ofNat i) .clientSndBegin)] ++
      [.write c (a.slice T i) acc] ++ [.record c (a.record (UInt32.ofNat i) .clientSndEnd)] := by
    rw [hlog, msgEvents]
    simp
  refine ⟨fun d => ?_, fun d f acc' hmem => ?_⟩
  · rw [hsplit]
    have h₁ := (h.whole d).of_noWrite (hrec (a.record (UInt32.ofNat i) .clientSndBegin))
      (List.Subset.refl _)
    have h₂ := h₁.write (isMsg_slice ha hT hi).isFrame hpre hclosed hsub hd
    exact h₂.of_noWrite (hrec _) (List.Subset.refl _)
  · rw [hlog] at hmem ⊢
    rcases List.mem_append.mp hmem with hmem | hmem
    · obtain ⟨j, hj, hf, hbegin, hend⟩ := h.slices d f acc' hmem
      exact ⟨j, hj, hf, List.mem_append_left _ hbegin, List.mem_append_left _ hend⟩
    · simp only [msgEvents, List.mem_cons, reduceCtorEq, Ev.write.injEq, List.not_mem_nil, or_false,
        false_or] at hmem
      obtain ⟨rfl, rfl, _⟩ := hmem
      refine ⟨i, hi, rfl, List.mem_append_right _ List.mem_cons_self, List.mem_append_right _ ?_⟩
      exact List.mem_cons_of_mem _ (List.mem_cons_of_mem _ List.mem_cons_self)

theorem Sent.step (ha : a.Fits) (hT : a.Prepared T) (h : Sent a T s) (hsends : Sends a T s)
    {e : ClientEvent} (hs : Step a B b₀ s e s') : Sent a T s' := by
  obtain ⟨hlogged, hsub⟩ := hs.logged ha hT hsends
  cases hlogged with
  | quiet hlog hl hdone =>
      refine ⟨fun c => ?_, fun c f acc hmem => ?_⟩
      · rw [hlog]
        exact (h.whole c).of_noWrite hl.noWrite hsub
      · rw [hlog] at hmem ⊢
        obtain ⟨i, hi, hf, hbegin, hend⟩ :=
          h.slices c f acc ((List.mem_append.mp hmem).resolve_right (hl.noWrite c f acc))
        exact ⟨i, hi, hf, List.mem_append_left _ hbegin, List.mem_append_left _ hend⟩
  | full hd hopen hlog hdone =>
      exact h.of_msgEvents ha hT hd List.prefix_rfl (fun hmem => absurd hmem hopen) hsub
        (fun hne => absurd rfl hne) hlog
  | part hd hl hc hlog hacc hne hshut hdone =>
      refine h.of_msgEvents ha hT hd (hacc ▸ ctxWrite_isPrefix _ _ _) (fun hmem => ?_) hsub
        (fun _ => hshut) hlog
      rw [hacc, decide_eq_true hmem, ctxWrite_shut]

theorem Sent.onlyMsgs (ha : a.Fits) (hT : a.Prepared T) (h : Sent a T s) : OnlyMsgs s.log := by
  intro c f acc hmem
  obtain ⟨i, hi, rfl, _⟩ := h.slices c f acc hmem
  exact isMsg_slice ha hT hi

end NetBench.TcpClient

/-
# `NetBench.SendEnd` — the records at the end of a send

Both clients record `client.snd_begin`, write, and record `client.snd_end`: the TCP
client before it looks at the result of the write, the UDP client after.  A trace is a
list of attempts, and an attempt leaves

    begin(q)  write  end(q)        or        begin(q)  write

What `client.snd_end` is worth depends on which of these attempts accepted everything:

    ends(q) = whole writes(q) for all q  ⟺  every attempt with an end was whole
                                                          (`sendEndLaw_iff`)
    no attempt fails after one of its message was whole
                  ⟹  each send latency is that of one whole write
                                                          (`analysisLaw_of_run`)
-/
import NetBench.ClientSlot
import NetBench.Latency
import NetBench.UdpClient
import NetBench.Wire

namespace NetBench

open Lib

/-! ## What a trace says -/

/-- The event is `client.snd_end` of message `q`. -/
def Ev.isSendEnd (q : UInt32) : Ev → Bool
  | .record _ r => decide (r.id = q ∧ r.action = .clientSndEnd)
  | .write _ _ _ => false
  | .assertFailed _ _ => false
  | .exit => false

/-- The number of `client.snd_end` records of message `q`. -/
def sendEnds (q : UInt32) (log : List Ev) : Nat := log.countP (Ev.isSendEnd q)

/-- The message that is being sent, and how many writes of `q` were accepted in full: a
write is one of the message whose `client.snd_begin` came last. -/
def trackSend (q : UInt32) (s : Option UInt32 × Nat) : Ev → Option UInt32 × Nat
  | .record _ r => if r.action = .clientSndBegin then (some r.id, s.2) else s
  | .write _ buf acc => if s.1 = some q ∧ acc = buf then (s.1, s.2 + 1) else s
  | .assertFailed _ _ => s
  | .exit => s

/-- How often all bytes of message `q` were accepted. -/
def wholeWrites (q : UInt32) (log : List Ev) : Nat := (log.foldl (trackSend q) (none, 0)).2

/-- `client.snd_end` means a completed send. -/
structure SendEndLaw (log : List Ev) : Prop where
  counts : ∀ q, sendEnds q log = wholeWrites q log
  /-- between an end and its own begin there is a whole write and no record of the message -/
  paired : ∀ l₁ c r l₂, log = l₁ ++ .record c r :: l₂ → r.action = .clientSndEnd →
    ∃ k₁ k₂ buf, l₁ = k₁ ++ .record c { r with action := .clientSndBegin } :: k₂ ∧
      .write c buf buf ∈ k₂ ∧ ∀ d r', .record d r' ∈ k₂ → r'.id ≠ r.id

theorem sendEndLaw_nil : SendEndLaw [] where
  counts _ := rfl
  paired l₁ c r l₂ h := absurd h.symm (by simp)

/-! ## Attempts -/

/-- An attempt to send message `seq`, and whether its end was recorded. -/
structure SendTry where
  c : Nat
  seq : UInt32
  buf : Bytes
  acc : Bytes
  ended : Bool

namespace SendTry

variable (a : NbSysArgs) (x : SendTry)

/-- Everything was accepted. -/
def Whole : Prop := x.acc = x.buf

instance : Decidable x.Whole := inferInstanceAs (Decidable (_ = _))

/-- What it leaves after the write. -/
def ends : List Ev := if x.ended then [.record x.c (a.record x.seq .clientSndEnd)] else []

/-- What it leaves in the trace. -/
def events : List Ev :=
  .record x.c (a.record x.seq .clientSndBegin) :: .write x.c x.buf x.acc :: x.ends a

variable {a x}

theorem ends_of_ended (h : x.ended = true) :
    x.ends a = [.record x.c (a.record x.seq .clientSndEnd)] := if_pos h

theorem ends_of_not_ended (h : x.ended = false) : x.ends a = [] := if_neg (by simp [h])

theorem mem_ends {e : Ev} :
    e ∈ x.ends a ↔ x.ended = true ∧ e = .record x.c (a.record x.seq .clientSndEnd) := by
  unfold ends
  split
  · rename_i h
    simp [h]
  · rename_i h
    simp [h]

/-- The records of an attempt. -/
theorem record_mem_events {d : Nat} {r : Record} (h : .record d r ∈ x.events a) :
    r = a.record x.seq .clientSndBegin ∨ x.ended = true ∧ r = a.record x.seq .clientSndEnd := by
  rcases List.mem_cons.mp h with h | h
  · exact Or.inl (Ev.record.inj h).2
  · rcases List.mem_cons.mp h with h | h
    · cases h
    · obtain ⟨hended, h⟩ := mem_ends.mp h
      exact Or.inr ⟨hended, (Ev.record.inj h).2⟩

theorem id_of_mem_events {d : Nat} {r : Record} (h : .record d r ∈ x.events a) :
    r.id = x.seq := by
  rcases record_mem_events h with rfl | ⟨_, rfl⟩
  · rfl
  · rfl

end SendTry

section Append

variable {a : NbSysArgs} {x : SendTry} {log l : List Ev} {q : UInt32}

theorem sendEnds_append (l' : List Ev) : sendEnds q (log ++ l') = sendEnds q log + sendEnds q l' :=
  List.countP_append

theorem sendEnds_pos : 0 < sendEnds q log ↔
    ∃ d r, .record d r ∈ log ∧ r.id = q ∧ r.action = .clientSndEnd := by
  rw [sendEnds, List.countP_pos_iff]
  constructor
  · rintro ⟨e, he, hend⟩
    cases e with
    | record d r => exact ⟨d, r, he, of_decide_eq_true hend⟩
    | write | assertFailed | exit => exact nomatch hend
  · rintro ⟨d, r, hmem, hr⟩
    exact ⟨_, hmem, decide_eq_true hr⟩

theorem sendEnds_quiet (hl : Quiet l) : sendEnds q (log ++ l) = sendEnds q log := by
  have hzero : ¬ 0 < sendEnds q l := fun h => by
    obtain ⟨d, r, hmem, _⟩ := sendEnds_pos.mp h
    exact hl.noRecord hmem
  rw [sendEnds_append]
  omega

theorem trackSend_quiet (hl : Quiet l) (s : Option UInt32 × Nat) :
    l.foldl (trackSend q) s = s := by
  induction l with
  | nil => rfl
  | cons e l ih =>
      obtain ⟨he, hrest⟩ := List.forall_mem_cons.mp hl
      rw [List.foldl_cons]
      rcases he with ⟨c, x, rfl⟩ | rfl
      · exact ih hrest
      · exact ih hrest

theorem wholeWrites_quiet (hl : Quiet l) : wholeWrites q (log ++ l) = wholeWrites q log := by
  rw [wholeWrites, wholeWrites, List.foldl_append, trackSend_quiet hl]

theorem sendEnds_events : sendEnds q (log ++ x.events a) =
    sendEnds q log + if x.seq = q ∧ x.ended = true then 1 else 0 := by
  rw [sendEnds_append]
  have hskip : sendEnds q (x.events a) = sendEnds q (x.ends a) := by
    rw [sendEnds, SendTry.events, List.countP_cons_of_neg (by simp [Ev.isSendEnd, NbSysArgs.record]),
      List.countP_cons_of_neg (by simp [Ev.isSendEnd]), sendEnds]
  rw [hskip]
  congr 1
  cases hended : x.ended with
  | true =>
      rw [SendTry.ends_of_ended hended]
      by_cases hq : x.seq = q
      · simp [sendEnds, Ev.isSendEnd, NbSysArgs.record, hq]
      · simp [sendEnds, Ev.isSendEnd, NbSysArgs.record, hq]
  | false =>
      rw [SendTry.ends_of_not_ended hended, if_neg (by simp)]
      rfl

theorem wholeWrites_events : wholeWrites q (log ++ x.events a) =
    wholeWrites q log + if x.seq = q ∧ x.Whole then 1 else 0 := by
  have hends : ∀ s, (x.ends a).foldl (trackSend q) s = s := by
    intro s
    cases hended : x.ended with
    | true =>
        rw [SendTry.ends_of_ended hended]
        rfl
    | false =>
        rw [SendTry.ends_of_not_ended hended]
        rfl
  have hwrite : wholeWrites q (log ++ x.events a) =
      (if some x.seq = some q ∧ x.acc = x.buf then
        (some x.seq, wholeWrites q log + 1) else (some x.seq, wholeWrites q log)).2 := by
    rw [wholeWrites, List.foldl_append]
    exact congrArg Prod.snd (hends _)
  rw [hwrite]
  by_cases h : x.seq = q ∧ x.Whole
  · rw [if_pos h, if_pos ⟨congrArg some h.1, h.2⟩]
  · rw [if_neg h, if_neg fun h' => h ⟨Option.some.inj h'.1, h'.2⟩]
    rfl

end Append

/-! ## One step -/

/-- What a step adds to the trace: nothing about sends, or an attempt, before which an
assertion may have failed.  `ok` says that the attempt records no end unless it was whole,
`keep` that it does not fail once an end of its message was recorded. -/
inductive Tried (a : NbSysArgs) (ok keep : Prop) (log : List Ev) : List Ev → Prop
  | quiet {l : List Ev} (hl : Quiet l) (hok : ok) : Tried a ok keep log (log ++ l)
  | attempt {l : List Ev} {x : SendTry} (hl : Quiet l) (hwhole : x.Whole → x.ended = true)
      (hok : ok ↔ (x.ended = true → x.Whole))
      (hkeep : keep → x.ended = true ∨ sendEnds x.seq log = 0) :
      Tried a ok keep log (log ++ l ++ x.events a)

section Step

variable {a : NbSysArgs} {ok keep : Prop} {log log' l : List Ev} {x : SendTry}

/-- A step that leaves the trace alone. -/
theorem Tried.same (hok : ok) (hlog : log' = log) : Tried a ok keep log log' := by
  have h : Tried a ok keep log (log ++ []) := .quiet quiet_nil hok
  rw [List.append_nil] at h
  rw [hlog]
  exact h

/-- A split of an extended list before an element that is not among the new ones. -/
theorem split_of_not_mem {α : Type} {l m l₁ l₂ : List α} {e : α} (h : l ++ m = l₁ ++ e :: l₂)
    (he : e ∉ m) : ∃ k, l = l₁ ++ e :: k ∧ l₂ = k ++ m := by
  rcases List.append_eq_append_iff.mp h with ⟨k, rfl, hm⟩ | ⟨k, hl, hcons⟩
  · exact absurd (hm ▸ List.mem_append_right k List.mem_cons_self) he
  · cases k with
    | nil =>
        have hmem : e ∈ e :: l₂ := List.mem_cons_self
        rw [hcons] at hmem
        exact absurd hmem he
    | cons e' k =>
        obtain ⟨rfl, rfl⟩ := List.cons.inj hcons
        exact ⟨k, hl, rfl⟩

/-- A split of a list with one more element: at that element, or before. -/
theorem split_concat {α : Type} {l l₁ l₂ : List α} {e e' : α} (h : l ++ [e'] = l₁ ++ e :: l₂) :
    (l = l₁ ∧ e' = e) ∨ ∃ k, l = l₁ ++ e :: k := by
  rcases List.eq_nil_or_concat l₂ with rfl | ⟨k, e'', rfl⟩
  · obtain ⟨hl, he⟩ := List.append_inj' h rfl
    exact Or.inl ⟨hl, (List.cons.inj he).1⟩
  · rw [List.concat_eq_append, ← List.cons_append, ← List.append_assoc] at h
    exact Or.inr ⟨k, (List.append_inj' h rfl).1⟩

/-- There are never fewer ends than whole writes. -/
theorem Tried.le (h : Tried a ok keep log log') (hle : ∀ q, wholeWrites q log ≤ sendEnds q log)
    (q : UInt32) : wholeWrites q log' ≤ sendEnds q log' := by
  have hq := hle q
  cases h with
  | quiet hl => rwa [sendEnds_quiet hl, wholeWrites_quiet hl]
  | @attempt l x hl hwhole =>
      rw [sendEnds_events, wholeWrites_events, sendEnds_quiet hl, wholeWrites_quiet hl]
      by_cases hx : x.seq = q ∧ x.Whole
      · rw [if_pos hx, if_pos ⟨hx.1, hwhole hx.2⟩]
        omega
      · rw [if_neg hx]
        omega

/-- Where the counts are equal afterwards, the step was in order and they were equal before. -/
theorem Tried.eq_iff (h : Tried a ok keep log log')
    (hle : ∀ q, wholeWrites q log ≤ sendEnds q log) :
    (∀ q, sendEnds q log' = wholeWrites q log') ↔
      ok ∧ ∀ q, sendEnds q log = wholeWrites q log := by
  cases h with
  | quiet hl hok =>
      simp only [sendEnds_quiet hl, wholeWrites_quiet hl, hok, true_and]
  | @attempt l x hl hwhole hok =>
      simp only [sendEnds_events, wholeWrites_events, sendEnds_quiet hl, wholeWrites_quiet hl]
      rw [hok]
      constructor
      · intro h
        refine ⟨fun hended => ?_, fun q => ?_⟩
        · by_contra hx
          have hq := h x.seq
          have hbefore := hle x.seq
          rw [if_pos ⟨rfl, hended⟩, if_neg fun h => hx h.2] at hq
          omega
        · have hq := h q
          have hbefore := hle q
          by_cases hx : x.seq = q ∧ x.Whole
          · rw [if_pos hx, if_pos ⟨hx.1, hwhole hx.2⟩] at hq
            omega
          · rw [if_neg hx] at hq
            omega
      · rintro ⟨hended, h⟩ q
        rw [h q]
        have hiff : x.seq = q ∧ x.ended = true ↔ x.seq = q ∧ x.Whole :=
          and_congr_right fun _ => ⟨hended, hwhole⟩
        simp only [hiff]

theorem SendEndLaw.quiet (h : SendEndLaw log) (hl : Quiet l) : SendEndLaw (log ++ l) where
  counts q := by rw [sendEnds_quiet hl, wholeWrites_quiet hl, h.counts q]
  paired l₁ c r l₂ hsplit hr := by
    obtain ⟨k, hlog, _⟩ := split_of_not_mem hsplit hl.noRecord
    exact h.paired l₁ c r k hlog hr

/-- An attempt whose end is recorded just when it was whole. -/
theorem SendEndLaw.attempt (h : SendEndLaw log) (hx : x.ended = true ↔ x.Whole) :
    SendEndLaw (log ++ x.events a) where
  counts q := by
    rw [sendEnds_events, wholeWrites_events, h.counts q]
    simp only [hx]
  paired l₁ c r l₂ hsplit hr := by
    have hold : ∀ k, log = l₁ ++ .record c r :: k → ∃ k₁ k₂ buf,
        l₁ = k₁ ++ .record c { r with action := .clientSndBegin } :: k₂ ∧
        .write c buf buf ∈ k₂ ∧ ∀ d r', .record d r' ∈ k₂ → r'.id ≠ r.id :=
      fun k hk => h.paired l₁ c r k hk hr
    cases hended : x.ended with
    | false =>
        have hnew : .record c r ∉ x.events a := fun hmem => by
          rcases SendTry.record_mem_events hmem with rfl | ⟨hend, _⟩
          · exact nomatch hr
          · exact nomatch hended.symm.trans hend
        obtain ⟨k, hlog, _⟩ := split_of_not_mem hsplit hnew
        exact hold k hlog
    | true =>
        have hacc : x.acc = x.buf := hx.mp hended
        have hevents : x.events a = [.record x.c (a.record x.seq .clientSndBegin),
            .write x.c x.buf x.buf] ++ [.record x.c (a.record x.seq .clientSndEnd)] := by
          rw [SendTry.events, SendTry.ends_of_ended hended, hacc]
          rfl
        rw [hevents, ← List.append_assoc] at hsplit
        rcases split_concat hsplit with ⟨rfl, hrec⟩ | ⟨k, hk⟩
        · -- the end of the attempt
          obtain ⟨rfl, rfl⟩ := Ev.record.inj hrec
          refine ⟨log, [.write x.c x.buf x.buf], x.buf, rfl, List.mem_cons_self, ?_⟩
          intro d r' hmem
          cases List.mem_singleton.mp hmem
        · -- an end before it
          have hnew : .record c r ∉ [Ev.record x.c (a.record x.seq .clientSndBegin),
              .write x.c x.buf x.buf] := fun hmem => by
            rcases List.mem_cons.mp hmem with hmem | hmem
            · rw [(Ev.record.inj hmem).2] at hr
              exact nomatch hr
            · cases List.mem_singleton.mp hmem
          obtain ⟨k', hlog, _⟩ := split_of_not_mem hk hnew
          exact hold k' hlog

theorem Tried.sendEndLaw (h : Tried a ok keep log log') (hok : ok) (hlaw : SendEndLaw log) :
    SendEndLaw log' := by
  cases h with
  | quiet hl => exact hlaw.quiet hl
  | attempt hl hwhole hok' => exact (hlaw.quiet hl).attempt ⟨hok'.mp hok, hwhole⟩

end Step

/-! ## What the analysis reports -/

/-- The records of a trace. -/
def allRecords (log : List Ev) : List Record := log.filterMap Ev.record?

theorem mem_allRecords {log : List Ev} {r : Record} :
    r ∈ allRecords log ↔ ∃ d, .record d r ∈ log := by
  rw [allRecords, List.mem_filterMap]
  constructor
  · rintro ⟨e, he, hr⟩
    cases e with
    | record d r' =>
        obtain rfl := Option.some.inj hr
        exact ⟨d, he⟩
    | write | assertFailed | exit => exact nomatch hr
  · rintro ⟨d, hd⟩
    exact ⟨_, hd, rfl⟩

/-- The rows of a trace whose records were made at the given times. -/
def sendRows (log : List Ev) (times : List Timespec) : List Row :=
  ((allRecords log).zip times).map fun p => p.1.row p.2

/-- Each latency reported for the two ends of a send is the time between the two records of
one attempt, which was whole. -/
def AnalysisLaw (a : NbSysArgs) (log : List Ev) : Prop :=
  ∀ times, times.length = (allRecords log).length → ∀ k v ℓ,
    (recordDataDict (sendRows log times)).get? k = some v →
    calItem .clientSndBegin .clientSndEnd v = some ℓ →
    ∃ (l₁ : List Ev) (x : SendTry) (l₂ : List Ev) (b e : Timespec),
      log = l₁ ++ (x.events a ++ l₂) ∧ x.ended = true ∧ x.Whole ∧
      k = ((a.record x.seq .clientSndEnd).row e).key ∧
      times[(allRecords l₁).length]? = some b ∧ times[(allRecords l₁).length + 1]? = some e ∧
      ℓ = elapsed b e

/-- The last records of message `q` are the two of a whole write. -/
def LastWhole (a : NbSysArgs) (q : UInt32) (log : List Ev) : Prop :=
  ∃ (l₁ : List Ev) (x : SendTry) (l₂ : List Ev), log = l₁ ++ (x.events a ++ l₂) ∧ x.seq = q ∧
    x.ended = true ∧ x.Whole ∧ ∀ d r, .record d r ∈ l₂ → r.id ≠ q

/-- Every record is one of the client, and a message with an end has its last records from a
whole write. -/
structure Kept (a : NbSysArgs) (log : List Ev) : Prop where
  args : ∀ d r, .record d r ∈ log → r.userId = a.userId ∧ r.msgSize = a.msgSize
  last : ∀ q, 0 < sendEnds q log → LastWhole a q log

theorem kept_nil (a : NbSysArgs) : Kept a [] where
  args _ _ h := nomatch h
  last _ h := absurd h (Nat.lt_irrefl 0)

section Kept

variable {a : NbSysArgs} {ok keep : Prop} {log log' l : List Ev} {x : SendTry} {q : UInt32}

theorem LastWhole.append (h : LastWhole a q log) (hl : ∀ d r, .record d r ∈ l → r.id ≠ q) :
    LastWhole a q (log ++ l) := by
  obtain ⟨l₁, x, l₂, rfl, hq, hended, hx, hl₂⟩ := h
  refine ⟨l₁, x, l₂ ++ l, by simp, hq, hended, hx, fun d r hmem => ?_⟩
  rcases List.mem_append.mp hmem with hmem | hmem
  · exact hl₂ d r hmem
  · exact hl d r hmem

theorem Kept.quiet (h : Kept a log) (hl : Quiet l) : Kept a (log ++ l) where
  args d r hmem := h.args d r ((List.mem_append.mp hmem).resolve_right hl.noRecord)
  last q hq := by
    rw [sendEnds_quiet hl] at hq
    exact (h.last q hq).append fun d r hmem => absurd hmem hl.noRecord

theorem Kept.attempt (h : Kept a log) (hx : x.ended = true → x.Whole)
    (hkeep : x.ended = true ∨ sendEnds x.seq log = 0) : Kept a (log ++ x.events a) where
  args d r hmem := by
    rcases List.mem_append.mp hmem with hmem | hmem
    · exact h.args d r hmem
    · rcases SendTry.record_mem_events hmem with rfl | ⟨_, rfl⟩
      · exact ⟨rfl, rfl⟩
      · exact ⟨rfl, rfl⟩
  last q hq := by
    rw [sendEnds_events] at hq
    by_cases hseq : x.seq = q
    · by_cases hended : x.ended = true
      · exact ⟨log, x, [], by simp, hseq, hended, hx hended, fun _ _ h => nomatch h⟩
      · -- an attempt without an end, of a message that has none
        have hzero : sendEnds q log = 0 := hseq ▸ hkeep.resolve_left hended
        rw [hzero, if_neg fun h => hended h.2] at hq
        exact absurd hq (Nat.lt_irrefl 0)
    · rw [if_neg fun h => hseq h.1, Nat.add_zero] at hq
      refine (h.last q hq).append fun d r hmem => ?_
      rw [SendTry.id_of_mem_events hmem]
      exact hseq

theorem Tried.kept (h : Tried a ok keep log log') (hok : ok) (hkeep : keep) (hlog : Kept a log) :
    Kept a log' := by
  cases h with
  | quiet hl => exact hlog.quiet hl
  | attempt hl hwhole hok' hkeep' =>
      refine (hlog.quiet hl).attempt (hok'.mp hok) ?_
      rw [sendEnds_quiet hl]
      exact hkeep' hkeep

/-- The rows of a trace with two neighbouring records in it. -/
theorem sendRows_split {l₁ l₂ : List Ev} {B E : Record} {log : List Ev}
    (hlog : allRecords log = allRecords l₁ ++ B :: E :: allRecords l₂) {times : List Timespec}
    (htimes : times.length = (allRecords log).length) :
    ∃ T₁ b e T₂, times = T₁ ++ b :: e :: T₂ ∧ T₁.length = (allRecords l₁).length ∧
      sendRows log times = sendRows l₁ T₁ ++ B.row b :: E.row e :: sendRows l₂ T₂ := by
  have hlen : times.length = (allRecords l₁).length + ((allRecords l₂).length + 1 + 1) := by
    rw [htimes, hlog, List.length_append, List.length_cons, List.length_cons]
  obtain ⟨T₁, T, rfl, hT₁⟩ : ∃ T₁ T, times = T₁ ++ T ∧ T₁.length = (allRecords l₁).length :=
    ⟨times.take _, times.drop _, (List.take_append_drop _ _).symm,
      List.length_take_of_le (by omega)⟩
  have hT : T.length = (allRecords l₂).length + 1 + 1 := by
    rw [List.length_append] at hlen
    omega
  obtain ⟨b, T, rfl⟩ := List.exists_cons_of_length_eq_add_one hT
  obtain ⟨e, T₂, rfl⟩ := List.exists_cons_of_length_eq_add_one (Nat.add_right_cancel hT)
  refine ⟨T₁, b, e, T₂, rfl, hT₁, ?_⟩
  rw [sendRows, hlog, List.zip_append hT₁.symm, List.map_append]
  rfl

theorem allRecords_split {l₁ l₂ : List Ev} (hended : x.ended = true) :
    allRecords (l₁ ++ (x.events a ++ l₂)) = allRecords l₁ ++
      a.record x.seq .clientSndBegin :: a.record x.seq .clientSndEnd :: allRecords l₂ := by
  rw [allRecords, List.filterMap_append, List.filterMap_append, SendTry.events,
    SendTry.ends_of_ended hended]
  rfl

/-- The row of a record of the client. -/
theorem mem_sendRows {times : List Timespec} {row : Row} (h : row ∈ sendRows log times) :
    ∃ d r t, .record d r ∈ log ∧ row = r.row t := by
  obtain ⟨⟨r, t⟩, hmem, rfl⟩ := List.mem_map.mp h
  obtain ⟨d, hd⟩ := mem_allRecords.mp (List.of_mem_zip hmem).1
  exact ⟨d, r, t, hd, rfl⟩

/-- Two records of the client have the same key just when they are of the same message. -/
theorem row_key_inj {r r' : Record} {t t' : Timespec} (h : (r.row t).key = (r'.row t').key) :
    r.id = r'.id := by
  have htext : r.key.text = r'.key.text := h
  exact (MsgKey.text_inj htext).2

theorem Kept.analysisLaw (h : Kept a log) : AnalysisLaw a log := by
  intro times htimes k v ℓ hv hcal
  obtain ⟨b', e', hb', he', rfl⟩ := calItem_eq_some hcal
  have hbegin := get?_recordDataDict (sendRows log times) k .clientSndBegin
  have hend := get?_recordDataDict (sendRows log times) k .clientSndEnd
  rw [hv, Option.getD_some, hb'] at hbegin
  rw [hv, Option.getD_some, he'] at hend
  -- there is an end with this key, so its message has a last whole write
  obtain ⟨row, hrow, -⟩ := Option.map_eq_some_iff.mp hend.symm
  obtain ⟨hmem, hdec⟩ := List.mem_filter.mp (List.mem_of_getLast? hrow)
  obtain ⟨hkey, haction⟩ := of_decide_eq_true hdec
  obtain ⟨d, r, t, hr, rfl⟩ := mem_sendRows hmem
  obtain ⟨l₁, x, l₂, rfl, hseq, hended, hx, hl₂⟩ :=
    h.last r.id (sendEnds_pos.mpr ⟨d, r, hr, rfl, haction⟩)
  obtain ⟨T₁, b, e, T₂, rfl, hT₁, hrows⟩ := sendRows_split (allRecords_split hended) htimes
  have hkeys : ∀ y t', ((a.record x.seq y).row t').key = k := by
    intro y t'
    rw [← hkey]
    obtain ⟨huser, _⟩ := h.args d r hr
    show a.userId.toNat.repr ++ "_" ++ x.seq.toNat.repr = r.userId.toNat.repr ++ "_" ++ r.id.toNat.repr
    rw [huser, hseq]
  have hlater : ∀ y, (sendRows l₂ T₂).filter (fun r => r.key = k ∧ r.action = y) = [] := by
    intro y
    refine List.filter_eq_nil_iff.mpr fun row hrow hdec => ?_
    obtain ⟨d', r', t', hr', rfl⟩ := mem_sendRows hrow
    have hsame := row_key_inj ((of_decide_eq_true hdec).1.trans hkey.symm)
    exact hl₂ d' r' hr' hsame
  -- the last rows of the two actions are those of the whole write
  have hactions : ∀ y t', ((a.record x.seq y).row t').action = y := fun _ _ => rfl
  have hb : b' = b := by
    simp only [hrows, List.filter_append, List.filter_cons, hlater, hkeys, hactions, true_and,
      reduceCtorEq, decide_true, decide_false, if_true, Bool.false_eq_true, if_false,
      List.getLast?_concat, Option.map_some, Option.some.injEq] at hbegin
    exact hbegin
  have he : e' = e := by
    simp only [hrows, List.filter_append, List.filter_cons, hlater, hkeys, hactions, true_and,
      reduceCtorEq, decide_true, decide_false, if_true, Bool.false_eq_true, if_false,
      List.getLast?_concat, Option.map_some, Option.some.injEq] at hend
    exact hend
  refine ⟨l₁, x, l₂, b, e, rfl, hended, hx, (hkeys _ _).symm, ?_, ?_, by rw [hb, he]⟩
  · rw [← hT₁, List.getElem?_append_right (Nat.le_refl _), Nat.sub_self]
    rfl
  · rw [← hT₁, List.getElem?_append_right (Nat.le_succ _), Nat.succ_sub (Nat.le_refl _),
      Nat.sub_self]
    rfl

end Kept

/-! ## Runs -/

section Runs

variable {σ ε : Type} {step : σ → ε → σ → Prop} (logOf : σ → List Ev) {a : NbSysArgs}
  {ok keep : σ → ε → Prop} {s₀ s : σ} {es : List ε}

/-- At the end of a run the law holds if and only if every step was in order. -/
theorem sendEndLaw_iff (h₀ : logOf s₀ = [])
    (hstep : ∀ s e s', step s e s' → Tried a (ok s e) (keep s e) (logOf s) (logOf s'))
    (hrun : Run step s₀ es s) :
    SendEndLaw (logOf s) ↔ Run (fun s e s' => step s e s' ∧ ok s e) s₀ es s := by
  constructor
  · intro hlaw
    have h : (∀ q, wholeWrites q (logOf s) ≤ sendEnds q (logOf s)) ∧
        ((∀ q, sendEnds q (logOf s) = wholeWrites q (logOf s)) →
          Run (fun s e s' => step s e s' ∧ ok s e) s₀ es s) := by
      refine hrun.history (I := fun es s =>
        (∀ q, wholeWrites q (logOf s) ≤ sendEnds q (logOf s)) ∧
        ((∀ q, sendEnds q (logOf s) = wholeWrites q (logOf s)) →
          Run (fun s e s' => step s e s' ∧ ok s e) s₀ es s)) ?_ ⟨?_, fun _ => .nil s₀⟩
      · rintro es s e s' ⟨hle, hprev⟩ hs
        have ht := hstep s e s' hs
        refine ⟨ht.le hle, fun heq => ?_⟩
        obtain ⟨hok, hbefore⟩ := (ht.eq_iff hle).mp heq
        exact (hprev hbefore).snoc ⟨hs, hok⟩
      · intro q
        rw [h₀]
        exact Nat.le_refl 0
    exact h.2 hlaw.counts
  · intro h
    refine h.invariant (I := fun s => SendEndLaw (logOf s)) ?_ ?_
    · rintro s e s' hlaw ⟨hs, hok⟩
      exact (hstep s e s' hs).sendEndLaw hok hlaw
    · rw [h₀]
      exact sendEndLaw_nil

/-- Where besides no attempt fails after an end of its message, the latencies are those of
whole writes. -/
theorem analysisLaw_of_run (h₀ : logOf s₀ = [])
    (hstep : ∀ s e s', step s e s' → Tried a (ok s e) (keep s e) (logOf s) (logOf s'))
    (hrun : Run (fun s e s' => step s e s' ∧ ok s e ∧ keep s e) s₀ es s) :
    AnalysisLaw a (logOf s) := by
  refine Kept.analysisLaw (hrun.invariant (I := fun s => Kept a (logOf s)) ?_ ?_)
  · rintro s e s' h ⟨hs, hok, hkeep⟩
    exact (hstep s e s' hs).kept hok hkeep h
  · rw [h₀]
    exact kept_nil a

end Runs

/-! ## The two clients -/

theorem take_eq_self_iff {buf : Bytes} {k : Nat} : buf.take k = buf ↔ buf.length ≤ k := by
  refine ⟨fun h => ?_, List.take_of_length_le⟩
  have hlen := congrArg List.length h
  rw [List.length_take] at hlen
  omega

/-- Everything is accepted by an open context that takes enough. -/
theorem ctxWrite_whole_iff (shut : Bool) (w : WriteOutcome) {buf : Bytes} (hpos : 0 < buf.length) :
    (ctxWrite shut w buf).2 = buf ↔ shut = false ∧ ∃ k, w = .accept k ∧ buf.length ≤ k := by
  have hne : ¬ ([] : Bytes) = buf := by
    rintro rfl
    exact Nat.lt_irrefl 0 hpos
  cases shut with
  | true =>
      rw [ctxWrite_shut]
      exact iff_of_false hne fun h => nomatch h.1
  | false =>
      cases w with
      | error => exact iff_of_false hne fun ⟨_, _, h, _⟩ => nomatch h
      | accept k =>
          show buf.take k = buf ↔ _
          rw [take_eq_self_iff]
          constructor
          · intro hk
            exact ⟨rfl, k, rfl, hk⟩
          · rintro ⟨_, k', hk', hle⟩
            cases hk'
            exact hle

theorem castInt_inj {m n : Nat} (hm : m < 2 ^ 32) (hn : n < 2 ^ 32) :
    castInt m = castInt n ↔ m = n := by
  unfold castInt
  rw [Nat.mod_eq_of_lt hm, Nat.mod_eq_of_lt hn]
  split <;> split <;> omega

theorem castInt_eq_neg_one {n : Nat} (hn : n < 2 ^ 32) : -1 = castInt n ↔ n = 2 ^ 32 - 1 := by
  unfold castInt
  rw [Nat.mod_eq_of_lt hn]
  split <;> omega

namespace TcpClient

variable {β : Type} {a : NbSysArgs} {B : BytesBuffer β} {b₀ : β} {s s' : TcpClient β}

/-- A write is on an open context, which takes the whole message. -/
def WritesWhole (a : NbSysArgs) (s : TcpClient β) : ClientEvent → Prop
  | .send w => ∀ c, s.ctx = some c → c ∉ s.shut ∧ ∃ k, w = .accept k ∧ a.msgSize.toNat ≤ k
  | _ => True

/-- Every attempt of the TCP client records its end. -/
theorem Step.tried (ha : 0 < a.msgSize.toNat) {e : ClientEvent} (hs : Step a B b₀ s e s') :
    Tried a (WritesWhole a s e) True s.log s'.log := by
  cases hs with
  | connected => exact .same trivial rfl
  | @add c ts nodelay =>
      cases nodelay with
      | true => exact .same trivial rfl
      | false => exact .same trivial rfl
  | @timer ts =>
      rcases onTimer_cases a ts s with ⟨_, h⟩ | h | ⟨c, _, _, _, h⟩
      · rw [h]
        exact .quiet (fun e he => Or.inr (List.mem_singleton.mp he)) trivial
      · rw [h]
        exact .same trivial rfl
      · rw [h]
        exact .same trivial rfl
  | @send _ l c w hl hi hc hsend =>
      obtain ⟨m, datas, buf, _, _, hbuf, hres⟩ := sendOne_cases hsend
      have hlen : buf.length = a.msgSize.toNat := Block.length_of_load hbuf
      have hwhole := ctxWrite_whole_iff (decide (c ∈ s.shut)) w (hlen ▸ ha)
      have hlog : s'.log =
          s.log ++ sendEvents a c l m buf (ctxWrite (decide (c ∈ s.shut)) w buf).2 := by
        rcases hres with ⟨_, rfl⟩ | ⟨_, rfl⟩
        · rfl
        · rfl
      rw [hlog, sendEvents, ← List.append_assoc, ← List.append_assoc, List.append_assoc s.log]
      refine .attempt (x := ⟨c, l.seq, buf, (ctxWrite (decide (c ∈ s.shut)) w buf).2, true⟩)
        ((quiet_nbAssert c .msgId _).append (quiet_nbAssert c .sequence _)) (fun _ => rfl) ?_
        (fun _ => Or.inl rfl)
      have hopen : decide (c ∈ s.shut) = false ↔ c ∉ s.shut := decide_eq_false_iff_not
      show WritesWhole a s (.send w) ↔ (true = true → _ = buf)
      rw [hwhole, hopen, hlen]
      constructor
      · intro h _
        exact h c hc
      · intro h c' hc'
        obtain rfl : c = c' := Option.some.inj (hc.symm.trans hc')
        exact h rfl
  | roundDone => exact .same trivial rfl
  | message _ _ hm =>
      rcases onMessage_cases hm with rfl | ⟨ses, ses', shut, _, _, rfl⟩
      · exact .same trivial rfl
      · exact .same trivial rfl
  | @close c => exact .quiet (quiet_nbAssert c .slot _) trivial
  | release => exact .same trivial rfl

end TcpClient

namespace UdpClient

variable {a : NbSysArgs} {s s' : UdpClient}

/-- A send that fails is not taken for one of `msg_size` bytes. -/
def FailureSeen (a : NbSysArgs) : UdpEvent → Prop
  | .send w => w = .error → a.msgSize.toNat ≠ 2 ^ 32 - 1
  | _ => True

/-- A send that does not return `(int)msg_size` is of a message without an end. -/
def FailsFirst (a : NbSysArgs) (s : UdpClient) : UdpEvent → Prop
  | .send w => ∀ l, s.sending = some l →
      sendtoResult w a.msgSize.toNat ≠ castInt a.msgSize.toNat → sendEnds l.seq s.log = 0
  | _ => True

/-- What a send returns when everything was accepted, and when it failed. -/
theorem ctxSendto_whole {w : WriteOutcome} {buf : Bytes} (hpos : 0 < buf.length)
    (hlt : buf.length < 2 ^ 32) :
    ((ctxSendto w buf).2 = buf → sendtoResult w buf.length = castInt buf.length) ∧
    ((w = .error → buf.length ≠ 2 ^ 32 - 1) ↔
      (sendtoResult w buf.length = castInt buf.length → (ctxSendto w buf).2 = buf)) := by
  cases w with
  | accept k =>
      have hresult : sendtoResult (.accept k) buf.length = castInt buf.length ↔
          (ctxSendto (.accept k) buf).2 = buf := by
        show castInt (min k buf.length) = castInt buf.length ↔ buf.take k = buf
        rw [castInt_inj (by omega) hlt, take_eq_self_iff]
        omega
      exact ⟨hresult.mpr, iff_of_true (fun h => nomatch h) hresult.mp⟩
  | error =>
      have hne : ¬ (ctxSendto .error buf).2 = buf := by
        intro h
        rw [← h] at hpos
        exact Nat.lt_irrefl 0 hpos
      refine ⟨fun h => absurd h hne, ?_⟩
      show (_ → ¬ buf.length = 2 ^ 32 - 1) ↔ (-1 = castInt buf.length → _)
      rw [castInt_eq_neg_one hlt]
      exact ⟨fun h hlen => absurd hlen (h rfl), fun h _ hlen => hne (h hlen)⟩

/-- An attempt of the UDP client records its end when the send returned `(int)msg_size`. -/
theorem Step.tried (ha : 0 < a.msgSize.toNat) {e : UdpEvent} (hs : Step a s e s') :
    Tried a (FailureSeen a e) (FailsFirst a s e) s.log s'.log := by
  cases hs with
  | add => exact .same trivial rfl
  | @timer ts =>
      rcases onTimer_cases a ts s with ⟨_, h⟩ | h | ⟨_, _, _, h⟩
      · rw [h]
        exact .quiet (fun e he => Or.inr (List.mem_singleton.mp he)) trivial
      · rw [h]
        exact .same trivial rfl
      · rw [h]
        exact .same trivial rfl
  | @send _ l c w hl hi hc hsend =>
      obtain ⟨m, datas, buf, _, _, hbuf, hres⟩ := sendOne_inv hsend
      have hlen : buf.length = a.msgSize.toNat := Block.length_of_load hbuf
      obtain ⟨hfull, hok⟩ := ctxSendto_whole (w := w) (hlen ▸ ha) (hlen ▸ a.msgSize.toNat_lt)
      rw [hlen] at hfull hok
      have hlog : s'.log = s.log ++ sendEvents a c l m buf (ctxSendto w buf).2
          (decide (sendtoResult w a.msgSize.toNat = castInt a.msgSize.toNat)) := by
        rcases hres with ⟨hr, rfl⟩ | ⟨hr, rfl⟩
        · rw [decide_eq_true hr]
          rfl
        · rw [decide_eq_false hr]
          rfl
      rw [hlog, sendEvents, ← List.append_assoc, ← List.append_assoc, List.append_assoc s.log]
      refine .attempt (x := ⟨c, l.seq, buf, (ctxSendto w buf).2, _⟩)
        ((quiet_nbAssert c .msgId _).append (quiet_nbAssert c .sequence _))
        (fun hx => decide_eq_true (hfull hx)) ?_ ?_
      · show FailureSeen a (.send w) ↔ (decide _ = true → _ = buf)
        rw [decide_eq_true_iff]
        exact hok
      · intro hkeep
        by_cases hr : sendtoResult w a.msgSize.toNat = castInt a.msgSize.toNat
        · exact Or.inl (decide_eq_true hr)
        · exact Or.inr (hkeep l hl hr)
  | roundDone => exact .same trivial rfl
  | close => exact .same trivial rfl
  | release => exact .same trivial rfl

end UdpClient

/-- In every run of the TCP client `client.snd_end` means a completed send if and only if
every write was whole, and then so do the reported send latencies; in every run of the UDP
client if and only if no send failed with the value `(int)msg_size`, and the latencies do
where besides no send failed for a message that had an end. -/
theorem send_ends_complete {β : Type} {a : NbSysArgs} {B : BytesBuffer β} {b₀ : β}
    (ha : 0 < a.msgSize.toNat) (ts : Timespec) (T : Bytes) :
    (∀ es s, Run (TcpClient.Step a B b₀) (TcpClient.start ts T) es s →
      (SendEndLaw s.log ↔
        Run (fun s e s' => TcpClient.Step a B b₀ s e s' ∧ TcpClient.WritesWhole a s e)
          (TcpClient.start ts T) es s) ∧
      (SendEndLaw s.log → AnalysisLaw a s.log)) ∧
    (∀ es s, Run (UdpClient.Step a) (UdpClient.start ts T) es s →
      (SendEndLaw s.log ↔
        Run (fun s e s' => UdpClient.Step a s e s' ∧ UdpClient.FailureSeen a e)
          (UdpClient.start ts T) es s) ∧
      (Run (fun s e s' => UdpClient.Step a s e s' ∧ UdpClient.FailureSeen a e ∧
          UdpClient.FailsFirst a s e) (UdpClient.start ts T) es s → AnalysisLaw a s.log)) := by
  refine ⟨fun es s hrun => ?_, fun es s hrun => ?_⟩
  · have hlaw := sendEndLaw_iff TcpClient.log rfl
      (fun s e s' (hs : TcpClient.Step a B b₀ s e s') => hs.tried ha) hrun
    refine ⟨hlaw, fun h => ?_⟩
    exact analysisLaw_of_run TcpClient.log rfl
      (fun s e s' (hs : TcpClient.Step a B b₀ s e s') => hs.tried ha)
      ((hlaw.mp h).mono fun _ _ _ hs => ⟨hs.1, hs.2, trivial⟩)
  · refine ⟨?_, fun h => ?_⟩
    · exact sendEndLaw_iff UdpClient.log rfl
        (fun s e s' (hs : UdpClient.Step a s e s') => hs.tried ha) hrun
    · exact analysisLaw_of_run UdpClient.log rfl
        (fun s e s' (hs : UdpClient.Step a s e s') => hs.tried ha) h

/-- A message that is written whole: one end, and the latency is its own. -/
theorem send_end_of_whole_write : ∃ s, Run (TcpClient.Step TcpClient.oneMessage
      (ringBuffer netBenchTcpBufSize) (emptyRing _ fun _ => 0))
      (TcpClient.start ⟨0, 0⟩ TcpClient.oneMessageTable)
      [.add 0 ⟨0, 0⟩ true, .timer ⟨0, 0⟩, .send (.accept 16)] s ∧
    sendEnds 0 s.log = 1 ∧ SendEndLaw s.log ∧ AnalysisLaw TcpClient.oneMessage s.log := by
  obtain ⟨s, hrun, hends⟩ : ∃ s, Run (fun s e s' => TcpClient.Step TcpClient.oneMessage
      (ringBuffer netBenchTcpBufSize) (emptyRing _ fun _ => 0) s e s' ∧
        TcpClient.WritesWhole TcpClient.oneMessage s e)
      (TcpClient.start ⟨0, 0⟩ TcpClient.oneMessageTable)
      [.add 0 ⟨0, 0⟩ true, .timer ⟨0, 0⟩, .send (.accept 16)] s ∧ sendEnds 0 s.log = 1 := by
    refine ⟨_, .cons ⟨.add rfl List.mem_cons_self, trivial⟩ (.cons ⟨.timer rfl, trivial⟩
      (.cons ⟨.send rfl (by decide) rfl rfl, ?_⟩ (.nil _))), ?_⟩
    · intro c _
      exact ⟨List.not_mem_nil, 16, rfl, by decide⟩
    · decide +kernel
  have hrun' := hrun.mono fun _ _ _ hs => hs.1
  obtain ⟨hlaw, hanalysis⟩ := (send_ends_complete (by decide) ⟨0, 0⟩
    TcpClient.oneMessageTable).1 _ s hrun'
  have h := hlaw.mpr hrun
  exact ⟨s, hrun', hends, h, hanalysis h⟩

/-- A write of three of sixteen bytes: there is an end, and no whole write. -/
theorem send_end_of_short_write : ∃ s, Run (TcpClient.Step TcpClient.oneMessage
      (ringBuffer netBenchTcpBufSize) (emptyRing _ fun _ => 0))
      (TcpClient.start ⟨0, 0⟩ TcpClient.oneMessageTable)
      [.add 0 ⟨0, 0⟩ true, .timer ⟨0, 0⟩, .send (.accept 3)] s ∧
    sendEnds 0 s.log = 1 ∧ wholeWrites 0 s.log = 0 ∧ ¬ SendEndLaw s.log := by
  obtain ⟨s, hrun, hends, hwhole⟩ : ∃ s, Run (TcpClient.Step TcpClient.oneMessage
      (ringBuffer netBenchTcpBufSize) (emptyRing _ fun _ => 0))
      (TcpClient.start ⟨0, 0⟩ TcpClient.oneMessageTable)
      [.add 0 ⟨0, 0⟩ true, .timer ⟨0, 0⟩, .send (.accept 3)] s ∧
      sendEnds 0 s.log = 1 ∧ wholeWrites 0 s.log = 0 := by
    refine ⟨_, .cons (.add rfl List.mem_cons_self) (.cons (.timer rfl)
      (.cons (.send rfl (by decide) rfl rfl) (.nil _))), ?_, ?_⟩
    · decide +kernel
    · decide +kernel
  refine ⟨s, hrun, hends, hwhole, fun h => ?_⟩
  have hcounts := h.counts 0
  rw [hends, hwhole] at hcounts
  exact nomatch hcounts

end NetBench

/-
# `NetBench.ClientSlot` — the connection slot of the TCP client

`evloop_data->ctx` is written by two callbacks.  `tcp_client_on_add_ctx` returns
before it sets the slot when `setsockopt` fails, and the shutdown it does leads
to `tcp_client_on_close`, whose assertion is about the slot.

    exactly one of: a live context, a queued one, a connect thread     (`Slot.one`)
    the slot is empty or a live context with a session                  (`Slot.slot`)
    the assertion fails at the close of `c`  ⟺  setsockopt failed for `c`
                                                       (`slot_assertions_of_run`)

The first two hold in every run; the third says when the assertion does.
-/
import NetBench.TcpClient

namespace NetBench.TcpClient

open Lib

variable {β : Type} {a : NbSysArgs} {B : BytesBuffer β} {b₀ : β} {s s' : TcpClient β}

/-! ## Steps that leave the slot alone -/

/-- `s'` differs from `s` in nothing that concerns the slot. -/
structure SameSlot (s s' : TcpClient β) : Prop where
  ctx : s'.ctx = s.ctx
  loop : s'.loop = s.loop
  session : s'.session = s.session
  asserted : ∀ d, .assertFailed d .slot ∈ s'.log ↔ .assertFailed d .slot ∈ s.log

theorem slot_not_mem_sendEvents {c d : Nat} {l : Sending} {m buf acc : Bytes} :
    .assertFailed d .slot ∉ sendEvents a c l m buf acc := by
  intro h
  rcases List.mem_append.mp h with h | h
  · cases (mem_nbAssert.mp h).2
  · rcases List.mem_append.mp h with h | h
    · cases (mem_nbAssert.mp h).2
    · simp at h

theorem sameSlot_onTimer (ts : Timespec) (s : TcpClient β) : SameSlot s (onTimer a ts s) := by
  rcases onTimer_cases a ts s with ⟨_, h⟩ | h | ⟨c, _, _, _, h⟩
  · rw [h]
    exact ⟨rfl, rfl, rfl, fun d => by simp⟩
  · rw [h]
    exact ⟨rfl, rfl, rfl, fun _ => Iff.rfl⟩
  · rw [h]
    exact ⟨rfl, rfl, rfl, fun _ => Iff.rfl⟩

theorem sameSlot_sendOne {c : Nat} {l : Sending} {w : WriteOutcome}
    (h : sendOne a c l w s = some s') : SameSlot s s' := by
  obtain ⟨m, datas, buf, _, _, _, ⟨_, rfl⟩ | ⟨_, rfl⟩⟩ := sendOne_cases h
  · exact ⟨rfl, rfl, rfl, fun d => by simp [slot_not_mem_sendEvents]⟩
  · exact ⟨rfl, rfl, rfl, fun d => by simp [slot_not_mem_sendEvents]⟩

/-- A message keeps the slot and which contexts have a session. -/
theorem onMessage_slot {c fuel : Nat} {cks : List Chunk} (h : onMessage B c fuel cks s = some s') :
    s'.ctx = s.ctx ∧ s'.loop = s.loop ∧ s'.log = s.log ∧
      ∀ d, (s'.session d).isSome = (s.session d).isSome := by
  rcases onMessage_cases h with rfl | ⟨ses, ses', shut, hses, _, rfl⟩
  · exact ⟨rfl, rfl, rfl, fun _ => rfl⟩
  · refine ⟨rfl, rfl, rfl, fun d => ?_⟩
    by_cases hd : d = c
    · subst hd
      simp [hses]
    · simp [Function.update_of_ne hd]

/-! ## The invariant -/

/-- The slot invariant.  Among the live contexts, of which there is at most one,
the slot holds exactly those that have a session. -/
structure Slot (s : TcpClient β) : Prop where
  one : s.loop.live.length + s.loop.queue.length + s.loop.threads = 1
  slot : ∀ c, s.ctx = some c → c ∈ s.loop.live
  session : ∀ c ∈ s.loop.live, s.ctx = some c ↔ (s.session c).isSome = true
  added : ∀ c, (s.session c).isSome = true → c ∈ s.loop.live ∨ c ∈ s.loop.closed

theorem Slot.of_same (h : Slot s) (hq : SameSlot s s') : Slot s' where
  one := by
    rw [hq.loop]
    exact h.one
  slot := by
    rw [hq.loop, hq.ctx]
    exact h.slot
  session := by
    rw [hq.loop, hq.ctx, hq.session]
    exact h.session
  added := by
    rw [hq.loop, hq.session]
    exact h.added

/-- While a context waits in the queue no thread runs and none is live. -/
theorem Slot.of_queue (h : Slot s) {c : Nat} (hc : c ∈ s.loop.queue) :
    s.loop.queue = [c] ∧ s.loop.live = [] ∧ s.loop.threads = 0 ∧ s.ctx = none := by
  have hone := h.one
  have hpos : 0 < s.loop.queue.length := List.length_pos_of_mem hc
  have hlive : s.loop.live = [] := List.eq_nil_of_length_eq_zero (by omega)
  obtain ⟨d, hd⟩ := List.length_eq_one_iff.mp (show s.loop.queue.length = 1 by omega)
  rw [hd] at hc
  refine ⟨hd.trans (by rw [List.mem_singleton.mp hc]), hlive, by omega, ?_⟩
  cases hctx : s.ctx with
  | none => rfl
  | some d =>
      have := h.slot d hctx
      rw [hlive] at this
      cases this

theorem Slot.of_live (h : Slot s) {c : Nat} (hc : c ∈ s.loop.live) :
    s.loop.live = [c] ∧ s.loop.queue = [] ∧ s.loop.threads = 0 := by
  have hone := h.one
  have hpos : 0 < s.loop.live.length := List.length_pos_of_mem hc
  obtain ⟨d, hd⟩ := List.length_eq_one_iff.mp (show s.loop.live.length = 1 by omega)
  rw [hd] at hc
  exact ⟨hd.trans (by rw [List.mem_singleton.mp hc]),
    List.eq_nil_of_length_eq_zero (by omega), by omega⟩

theorem slot_start (ts : Timespec) (T : Bytes) : Slot (start ts T : TcpClient β) where
  one := rfl
  slot _ h := nomatch h
  session _ h := nomatch h
  added _ h := nomatch h

/-- Every step keeps the slot invariant. -/
theorem Slot.step (h : Slot s) {e : ClientEvent} (hs : Step a B b₀ s e s') : Slot s' := by
  cases hs with
  | connected ht =>
      have hone := h.one
      refine ⟨?_, h.slot, h.session, h.added⟩
      show s.loop.live.length + (s.loop.queue.length + 1) + (s.loop.threads - 1) = 1
      omega
  | @add c ts nodelay hsend hc =>
      obtain ⟨hq, hl, ht, hctx⟩ := h.of_queue hc
      have hone : (s.loop.add c hc).live.length + (s.loop.add c hc).queue.length +
          (s.loop.add c hc).threads = 1 := by
        simp [EventLoop.add, hq, hl, ht]
      have hlive : ∀ d, d ∈ (s.loop.add c hc).live ↔ d = c := by
        simp [EventLoop.add, hl]
      cases nodelay with
      | true =>
          refine ⟨hone, ?_, ?_, ?_⟩
          · intro d hd
            cases hd
            exact (hlive c).mpr rfl
          · intro d hd
            rw [(hlive d).mp hd]
            simp [onAddCtx]
          · intro d hd
            by_cases hdc : d = c
            · exact Or.inl ((hlive d).mpr hdc)
            · have hd : (Function.update s.session c (some (nbTcpSessionNew b₀)) d).isSome := hd
              rw [Function.update_of_ne hdc] at hd
              refine Or.inr ((h.added d hd).resolve_left ?_)
              rw [hl]
              exact fun h => nomatch h
      | false =>
          have hnone : ¬ (s.session c).isSome = true := fun hses =>
            (h.added c hses).elim (EventLoop.not_live_of_queue hc)
              (EventLoop.not_closed_of_queue hc)
          refine ⟨hone, ?_, ?_, ?_⟩
          · intro d hd
            have hd : s.ctx = some d := hd
            rw [hctx] at hd
            cases hd
          · intro d hd
            rw [(hlive d).mp hd]
            show s.ctx = some c ↔ (s.session c).isSome = true
            rw [hctx]
            exact iff_of_false (fun h => nomatch h) hnone
          · intro d hd
            refine Or.inr ((h.added d hd).resolve_left ?_)
            rw [hl]
            exact fun h => nomatch h
  | timer hsend => exact h.of_same (sameSlot_onTimer _ _)
  | send hl hi hc hsend => exact h.of_same (sameSlot_sendOne hsend)
  | roundDone hl hi => exact h.of_same ⟨rfl, rfl, rfl, fun _ => Iff.rfl⟩
  | message hsend hc hm =>
      obtain ⟨hctx, hloop, _, hses⟩ := onMessage_slot hm
      refine ⟨hloop ▸ h.one, ?_, ?_, ?_⟩
      · rw [hloop, hctx]
        exact h.slot
      · intro d hd
        rw [hctx, hses d]
        exact h.session d (hloop ▸ hd)
      · intro d hd
        rw [hloop]
        exact h.added d (hses d ▸ hd)
  | @close c hsend hc =>
      obtain ⟨hl, hq, ht⟩ := h.of_live hc
      have hnil : (s.loop.close c hc).live = [] := by simp [EventLoop.close, hl]
      refine ⟨?_, ?_, ?_, ?_⟩
      · show (s.loop.close c hc).live.length + s.loop.queue.length + (s.loop.threads + 1) = 1
        rw [hnil, hq, ht]
        rfl
      · intro d hd
        cases hd
      · intro d hd
        have hd : d ∈ (s.loop.close c hc).live := hd
        rw [hnil] at hd
        cases hd
      · intro d hd
        refine Or.inr ?_
        rcases h.added d hd with hd | hd
        · rw [hl] at hd
          rw [List.mem_singleton.mp hd]
          exact List.mem_cons_self
        · exact List.mem_cons_of_mem _ hd
  | @release c hsend hc =>
      have hupd : ∀ d, (Function.update s.session c none d).isSome = true →
          d ≠ c ∧ (s.session d).isSome = true := by
        intro d hd
        by_cases hdc : d = c
        · subst hdc
          simp at hd
        · rw [Function.update_of_ne hdc] at hd
          exact ⟨hdc, hd⟩
      refine ⟨h.one, h.slot, ?_, ?_⟩
      · intro d hd
        have hne : d ≠ c := fun hdc => EventLoop.not_live_of_closed hc (hdc ▸ hd)
        show s.ctx = some d ↔ (Function.update s.session c none d).isSome = true
        rw [Function.update_of_ne hne]
        exact h.session d hd
      · intro d hd
        obtain ⟨hne, hd⟩ := hupd d hd
        rcases h.added d hd with hd | hd
        · exact Or.inl hd
        · exact Or.inr ((List.mem_erase_of_ne hne).mpr hd)

/-- The slot invariant holds in every state reached. -/
theorem slot_of_run {ts : Timespec} {T : Bytes} {es : List ClientEvent}
    (hrun : Run (Step a B b₀) (start ts T) es s) : Slot s :=
  hrun.invariant (fun _ _ _ h hs => h.step hs) (slot_start ts T)

/-! ## When the assertion fails -/

/-- What the events so far say about the slot and its assertion. -/
structure SlotHistory (es : List ClientEvent) (s : TcpClient β) : Prop extends Slot s where
  added_once : ∀ c ts ok, .add c ts ok ∈ es → c < s.loop.next ∧ c ∉ s.loop.queue
  closed_once : ∀ c, .close c ∈ es → c < s.loop.next ∧ c ∉ s.loop.queue ∧ c ∉ s.loop.live
  owner : ∀ c ∈ s.loop.live, s.ctx = some c ∨ ∃ ts, .add c ts false ∈ es
  failed : ∀ c ts, .add c ts false ∈ es → s.ctx ≠ some c
  asserted : ∀ c, .assertFailed c .slot ∈ s.log ↔ (∃ ts, .add c ts false ∈ es) ∧ .close c ∈ es

theorem slotHistory_start (ts : Timespec) (T : Bytes) :
    SlotHistory [] (start ts T : TcpClient β) where
  toSlot := slot_start ts T
  added_once _ _ _ h := nomatch h
  closed_once _ h := nomatch h
  owner _ h := nomatch h
  failed _ _ h := nomatch h
  asserted _ := iff_of_false (fun h => nomatch h) (fun ⟨⟨_, h⟩, _⟩ => nomatch h)

/-- An event that neither adds nor closes a context changes nothing of the history. -/
theorem SlotHistory.of_same {es : List ClientEvent} (h : SlotHistory es s) (hs' : Slot s')
    {e : ClientEvent} (hadd : ∀ c ts ok, e ≠ .add c ts ok) (hclose : ∀ c, e ≠ .close c)
    (hctx : s'.ctx = s.ctx) (hloop : s.loop.next ≤ s'.loop.next ∧
      (∀ c < s.loop.next, c ∈ s'.loop.queue → c ∈ s.loop.queue) ∧ s'.loop.live = s.loop.live)
    (hlog : ∀ d, .assertFailed d .slot ∈ s'.log ↔ .assertFailed d .slot ∈ s.log) :
    SlotHistory (es ++ [e]) s' := by
  have hadd' : ∀ c ts ok, .add c ts ok ∈ es ++ [e] ↔ .add c ts ok ∈ es := by
    intro c ts ok
    simp [(hadd c ts ok).symm]
  have hclose' : ∀ c, .close c ∈ es ++ [e] ↔ .close c ∈ es := by
    intro c
    simp [(hclose c).symm]
  obtain ⟨hnext, hqueue, hlive⟩ := hloop
  refine ⟨hs', ?_, ?_, ?_, ?_, ?_⟩
  · intro c ts ok hc
    obtain ⟨hlt, hq⟩ := h.added_once c ts ok ((hadd' c ts ok).mp hc)
    exact ⟨Nat.lt_of_lt_of_le hlt hnext, fun hc' => hq (hqueue c hlt hc')⟩
  · intro c hc
    obtain ⟨hlt, hq, hl⟩ := h.closed_once c ((hclose' c).mp hc)
    exact ⟨Nat.lt_of_lt_of_le hlt hnext, fun hc' => hq (hqueue c hlt hc'), hlive ▸ hl⟩
  · intro c hc
    rcases h.owner c (hlive ▸ hc) with hc | ⟨ts, hc⟩
    · exact Or.inl (hctx.trans hc)
    · exact Or.inr ⟨ts, (hadd' c ts false).mpr hc⟩
  · intro c ts hc
    rw [hctx]
    exact h.failed c ts ((hadd' c ts false).mp hc)
  · intro c
    rw [hlog, h.asserted, hclose']
    simp only [hadd']

/-- Every step continues the history. -/
theorem SlotHistory.step {es : List ClientEvent} (h : SlotHistory es s) {e : ClientEvent}
    (hs : Step a B b₀ s e s') : SlotHistory (es ++ [e]) s' := by
  have hslot := h.toSlot.step hs
  have hsame : ∀ {e : ClientEvent}, (∀ c ts ok, e ≠ .add c ts ok) → (∀ c, e ≠ .close c) →
      SameSlot s s' → SlotHistory (es ++ [e]) s' := fun hadd hclose hq =>
    h.of_same hslot hadd hclose hq.ctx
      (by rw [hq.loop]; exact ⟨Nat.le_refl _, fun _ _ => id, rfl⟩) hq.asserted
  cases hs with
  | connected ht =>
      refine h.of_same hslot (fun _ _ _ h => nomatch h) (fun _ h => nomatch h) rfl
        ⟨Nat.le_succ _, ?_, rfl⟩ (fun _ => Iff.rfl)
      intro c hlt hc
      rcases List.mem_cons.mp hc with rfl | hc
      · exact absurd hlt (Nat.lt_irrefl _)
      · exact hc
  | @add c ts nodelay hsend hc =>
      obtain ⟨hq, hl, ht, hctx⟩ := h.of_queue hc
      have hqueue : (s.loop.add c hc).queue = [] := by simp [EventLoop.add, hq]
      have hlive : ∀ d, d ∈ (s.loop.add c hc).live ↔ d = c := by simp [EventLoop.add, hl]
      have hnot : ∀ d, d ∉ (s.loop.add c hc).queue := by simp [hqueue]
      have hlt : c < s.loop.next := EventLoop.lt_of_queue hc
      -- the new context is none of those in the history
      have hne : ∀ {d}, d ∉ s.loop.queue → d ≠ c := fun hd hdc => hd (hdc ▸ hc)
      have hctx' : (onAddCtx a b₀ c ts nodelay { s with loop := s.loop.add c hc }).ctx =
          if nodelay then some c else none := by
        cases nodelay with
        | true => rfl
        | false => exact hctx
      have hloop' : (onAddCtx a b₀ c ts nodelay { s with loop := s.loop.add c hc }).loop =
          s.loop.add c hc := by
        cases nodelay with
        | true => rfl
        | false => rfl
      have hlog' : (onAddCtx a b₀ c ts nodelay { s with loop := s.loop.add c hc }).log = s.log := by
        cases nodelay with
        | true => rfl
        | false => rfl
      have hmem : ∀ d ts' ok, .add d ts' ok ∈ es ++ [.add c ts nodelay] ↔
          .add d ts' ok ∈ es ∨ (d = c ∧ ts' = ts ∧ ok = nodelay) := by
        intro d ts' ok
        simp
      have hmem' : ∀ d, .close d ∈ es ++ [.add c ts nodelay] ↔ .close d ∈ es := by
        intro d
        simp
      refine ⟨hslot, ?_, ?_, ?_, ?_, ?_⟩
      · intro d ts' ok hd
        rw [hloop']
        rcases (hmem d ts' ok).mp hd with hd | ⟨rfl, _, _⟩
        · exact ⟨(h.added_once d ts' ok hd).1, hnot d⟩
        · exact ⟨hlt, hnot d⟩
      · intro d hd
        rw [hloop']
        obtain ⟨hlt, hdq, _⟩ := h.closed_once d ((hmem' d).mp hd)
        exact ⟨hlt, hnot d, fun hdl => hne hdq ((hlive d).mp hdl)⟩
      · intro d hd
        rw [hloop', hlive] at hd
        rw [hctx', hd]
        cases nodelay with
        | true => exact Or.inl rfl
        | false => exact Or.inr ⟨ts, (hmem c ts false).mpr (Or.inr ⟨rfl, rfl, rfl⟩)⟩
      · intro d ts' hd
        rw [hctx']
        rcases (hmem d ts' false).mp hd with hd | ⟨_, _, hfalse⟩
        · have hdc := hne (h.added_once d ts' false hd).2
          cases nodelay with
          | true => exact fun heq => hdc (Option.some.inj heq).symm
          | false => exact fun heq => nomatch heq
        · rw [← hfalse]
          exact fun heq => nomatch heq
      · intro d
        rw [hlog', h.asserted, hmem']
        refine and_congr_left fun hd => exists_congr fun ts' => ?_
        rw [hmem]
        exact ⟨Or.inl, fun hor => hor.resolve_right fun heq =>
          hne (h.closed_once d hd).2.1 heq.1⟩
  | timer hsend =>
      exact hsame (fun _ _ _ h => nomatch h) (fun _ h => nomatch h) (sameSlot_onTimer _ _)
  | send hl hi hc hsend =>
      exact hsame (fun _ _ _ h => nomatch h) (fun _ h => nomatch h) (sameSlot_sendOne hsend)
  | roundDone hl hi =>
      exact hsame (fun _ _ _ h => nomatch h) (fun _ h => nomatch h)
        ⟨rfl, rfl, rfl, fun _ => Iff.rfl⟩
  | message hsend hc hm =>
      obtain ⟨hctx, hloop, hlog, _⟩ := onMessage_slot hm
      exact h.of_same hslot (fun _ _ _ h => nomatch h) (fun _ h => nomatch h) hctx
        (by rw [hloop]; exact ⟨Nat.le_refl _, fun _ _ => id, rfl⟩) (by rw [hlog]; exact fun _ => Iff.rfl)
  | @close c hsend hc =>
      obtain ⟨hl, hq, ht⟩ := h.of_live hc
      have hlt : c < s.loop.next := EventLoop.lt_of_live hc
      have hnil : ∀ d, d ∉ (s.loop.close c hc).live := by simp [EventLoop.close, hl]
      have hnot : ∀ d, d ∉ s.loop.queue := by simp [hq]
      have hmem : ∀ d ts ok, .add d ts ok ∈ es ++ [.close c] ↔ .add d ts ok ∈ es := by
        intro d ts ok
        simp
      have hmem' : ∀ d, .close d ∈ es ++ [.close c] ↔ .close d ∈ es ∨ d = c := by
        intro d
        simp
      refine ⟨hslot, ?_, ?_, ?_, ?_, ?_⟩
      · intro d ts ok hd
        exact ⟨(h.added_once d ts ok ((hmem d ts ok).mp hd)).1, hnot d⟩
      · intro d hd
        rcases (hmem' d).mp hd with hd | rfl
        · exact ⟨(h.closed_once d hd).1, hnot d, hnil d⟩
        · exact ⟨hlt, hnot d, hnil d⟩
      · intro d hd
        exact absurd hd (hnil d)
      · intro d ts _ hd
        cases hd
      · intro d
        show .assertFailed d .slot ∈ s.log ++ nbAssert c .slot (decide (s.ctx = some c)) ↔ _
        rw [List.mem_append, mem_nbAssert, h.asserted, hmem']
        simp only [hmem, decide_eq_false_iff_not, Ev.assertFailed.injEq, and_true]
        constructor
        · rintro (⟨hadd, hcl⟩ | ⟨hne, rfl⟩)
          · exact ⟨hadd, Or.inl hcl⟩
          · exact ⟨(h.owner d hc).resolve_left hne, Or.inr rfl⟩
        · rintro ⟨hadd, hcl | rfl⟩
          · exact Or.inl ⟨hadd, hcl⟩
          · obtain ⟨ts, hadd⟩ := hadd
            exact Or.inr ⟨h.failed d ts hadd, rfl⟩
  | @release c hsend hc =>
      exact h.of_same hslot (fun _ _ _ h => nomatch h) (fun _ h => nomatch h) rfl
        ⟨Nat.le_refl _, fun _ _ => id, rfl⟩ (fun _ => Iff.rfl)

/-- In every run the slot is empty or a live context with a session, exactly one
of a live context, a queued one and a connect thread exists, and the assertion of
`tcp_client_on_close` fails for `c` exactly when `c` was added with a failing
`setsockopt` and then closed. -/
theorem slot_assertions_of_run {ts : Timespec} {T : Bytes} {es : List ClientEvent}
    (hrun : Run (Step a B b₀) (start ts T) es s) :
    (∀ c, s.ctx = some c → c ∈ s.loop.live ∧ (s.session c).isSome = true) ∧
    s.loop.live.length + s.loop.queue.length + s.loop.threads = 1 ∧
    ((∀ c, .assertFailed c .slot ∉ s.log) ↔
      ∀ c ts, .add c ts false ∈ es → .close c ∉ es) := by
  have h : SlotHistory es s :=
    hrun.history (I := SlotHistory)
      (fun _ _ _ _ h hs => h.step hs) (slotHistory_start ts T)
  refine ⟨fun c hc => ⟨h.slot c hc, (h.session c (h.slot c hc)).mp hc⟩, h.one, ?_⟩
  constructor
  · intro hno c ts hadd hcl
    exact hno c ((h.asserted c).mpr ⟨⟨ts, hadd⟩, hcl⟩)
  · intro hno c hass
    obtain ⟨⟨ts, hadd⟩, hcl⟩ := (h.asserted c).mp hass
    exact hno c ts hadd hcl

/-- A `setsockopt` that fails on the first connection, then its close. -/
def nodelayFails : List ClientEvent := [.add 0 ⟨0, 0⟩ false, .close 0]

/-- A client of one round of one message of 16 bytes. -/
def oneMessage : NbSysArgs := ⟨1, 1, 1, 0, 16, 0⟩

/-- Its table. -/
def oneMessageTable : Bytes := oneMessage.msgHdr.encode ++ (oneMessage.msgData 0).encode

example : oneMessage.prepare (List.replicate 16 0) = some oneMessageTable := by decide

/-- There the assertion fails. -/
theorem slot_assertion_fails : ∃ s, Run (Step oneMessage (ringBuffer netBenchTcpBufSize)
      (emptyRing netBenchTcpBufSize fun _ => 0)) (start ⟨0, 0⟩ oneMessageTable) nodelayFails s ∧
    .assertFailed 0 .slot ∈ s.log :=
  ⟨_, .cons (.add rfl List.mem_cons_self) (.cons (.close rfl List.mem_cons_self) (.nil _)),
    List.mem_cons_self⟩

/-- On a run whose `setsockopt` succeeds, also after a reconnection, it does not. -/
theorem slot_assertions_after_reconnect : ∃ s, Run (Step oneMessage
      (ringBuffer netBenchTcpBufSize) (emptyRing netBenchTcpBufSize fun _ => 0)) (start ⟨0, 0⟩ oneMessageTable)
      [.add 0 ⟨0, 0⟩ true, .close 0, .connected, .add 1 ⟨0, 0⟩ true] s ∧
    s.ctx = some 1 ∧ ∀ c, .assertFailed c .slot ∉ s.log := by
  obtain ⟨s, hrun, hctx⟩ : ∃ s, Run (Step oneMessage (ringBuffer netBenchTcpBufSize)
      (emptyRing netBenchTcpBufSize fun _ => 0)) (start ⟨0, 0⟩ oneMessageTable)
      [.add 0 ⟨0, 0⟩ true, .close 0, .connected, .add 1 ⟨0, 0⟩ true] s ∧ s.ctx = some 1 :=
    ⟨_, .cons (.add rfl List.mem_cons_self) (.cons (.close rfl List.mem_cons_self)
      (.cons (.connected (by decide)) (.cons (.add rfl List.mem_cons_self) (.nil _)))), rfl⟩
  refine ⟨s, hrun, hctx, (slot_assertions_of_run hrun).2.2.mpr ?_⟩
  intro c ts hadd
  simp at hadd

end NetBench.TcpClient

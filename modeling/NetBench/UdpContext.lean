/-
# `NetBench.UdpContext` — the context of the UDP client

Nothing clears `evloop_data->ctx` once the add callback has set it.  While every
send returns `(int)msg_size`, no context is shut down and the loop frees none.
After the first send that does not, the context is in the slot for good, and the
housekeeping of the loop frees it there; the next round sends on it.
-/
import NetBench.ClientSlot
import NetBench.UdpClient

namespace NetBench.UdpClient

open Lib

variable {a : NbSysArgs} {s s' : UdpClient} {es : List UdpEvent}

/-- The slot is empty or holds a context that was not freed, and no freed context
was used. -/
structure Alive (s : UdpClient) : Prop where
  slot : ∀ c, s.ctx = some c → c ∉ s.freed
  uses : s.deadUses = []

/-- The send returns `(int)msg_size`. -/
def SendsFull (a : NbSysArgs) (w : WriteOutcome) : Prop :=
  sendtoResult w a.msgSize.toNat = castInt a.msgSize.toNat

instance (a : NbSysArgs) (w : WriteOutcome) : Decidable (SendsFull a w) :=
  inferInstanceAs (Decidable (sendtoResult w a.msgSize.toNat = castInt a.msgSize.toNat))

/-- Every send among the events does. -/
def AllFull (a : NbSysArgs) (es : List UdpEvent) : Prop :=
  ∀ w, UdpEvent.send w ∈ es → SendsFull a w

/-- Where a context is once the loop has taken it from its queue. -/
def Taken (c : Nat) (s : UdpClient) : Prop :=
  c ∈ s.loop.live ∨ c ∈ s.loop.closed ∨ c ∈ s.freed

/-! ## What the events so far say -/

/-- The slot and the contexts after the events `es`. -/
structure Tracked (a : NbSysArgs) (es : List UdpEvent) (s : UdpClient) : Prop where
  queue : s.loop.queue.length ≤ 1
  taken : ∀ c, s.ctx = some c → s.loop.queue = [] ∧ Taken c s
  full : AllFull a es → s.shut = [] ∧ s.loop.closed = [] ∧ s.freed = [] ∧ s.deadUses = []
  failed : ¬ AllFull a es → ∃ c, s.ctx = some c ∧ c ∈ s.shut

theorem tracked_start (ts : Timespec) (T : Bytes) : Tracked a [] (start ts T) where
  queue := Nat.le_refl _
  taken _ h := nomatch h
  full _ := ⟨rfl, rfl, rfl, rfl⟩
  failed h := absurd (fun _ hw => nomatch hw) h

/-- An event that is no send leaves the sends as they are. -/
theorem allFull_snoc {e : UdpEvent} (he : ∀ w, e ≠ .send w) :
    AllFull a (es ++ [e]) ↔ AllFull a es := by
  constructor
  · intro h w hw
    exact h w (List.mem_append_left _ hw)
  · intro h w hw
    rcases List.mem_append.mp hw with hw | hw
    · exact h w hw
    · exact absurd (List.mem_singleton.mp hw).symm (he w)

theorem allFull_snoc_send {w : WriteOutcome} :
    AllFull a (es ++ [.send w]) ↔ AllFull a es ∧ SendsFull a w := by
  constructor
  · intro h
    exact ⟨fun v hv => h v (List.mem_append_left _ hv),
      h w (List.mem_append_right _ List.mem_cons_self)⟩
  · rintro ⟨h, hw⟩ v hv
    rcases List.mem_append.mp hv with hv | hv
    · exact h v hv
    · cases List.mem_singleton.mp hv
      exact hw

/-- An event that is no send and touches no context changes nothing of this. -/
theorem Tracked.of_same (h : Tracked a es s) {e : UdpEvent} (he : ∀ w, e ≠ .send w)
    (hq : SameCtx s s') : Tracked a (es ++ [e]) s' := by
  obtain ⟨hctx, hloop, hshut, hfreed, huses⟩ := hq
  refine ⟨hloop ▸ h.queue, ?_, ?_, ?_⟩
  · intro c hc
    rw [Taken, hloop, hfreed]
    exact h.taken c (hctx ▸ hc)
  · intro hf
    rw [hshut, hloop, hfreed, huses]
    exact h.full ((allFull_snoc he).mp hf)
  · intro hf
    rw [hctx, hshut]
    exact h.failed (fun hfull => hf ((allFull_snoc he).mpr hfull))

/-- A send that fails leaves its context in the slot, shut down. -/
theorem Tracked.send (h : Tracked a es s) {l : Sending} {c : Nat} {w : WriteOutcome}
    (hc : s.ctx = some c) (hsend : sendOne a c l w s = some s') :
    Tracked a (es ++ [.send w]) s' := by
  obtain ⟨hctx, hloop, hfreed, huses, hor⟩ := sendOne_cases hsend
  refine ⟨hloop ▸ h.queue, ?_, ?_, ?_⟩
  · intro d hd
    rw [Taken, hloop, hfreed]
    exact h.taken d (hctx ▸ hd)
  · intro hf
    obtain ⟨hall, hw⟩ := allFull_snoc_send.mp hf
    obtain ⟨hshut, hclosed, hfreed₀, huses₀⟩ := h.full hall
    have hnot : c ∉ s.freed := hfreed₀ ▸ List.not_mem_nil
    rw [hloop, hfreed, huses hnot]
    rcases hor with ⟨_, hsame⟩ | ⟨hno, _⟩
    · exact ⟨hsame.trans hshut, hclosed, hfreed₀, huses₀⟩
    · exact absurd hw hno
  · intro hf
    rw [hctx]
    rcases hor with ⟨hw, hsame⟩ | ⟨_, hshut, _⟩
    · rw [hsame]
      exact h.failed (fun hall => hf (allFull_snoc_send.mpr ⟨hall, hw⟩))
    · rw [hshut]
      exact ⟨c, hc, List.mem_cons_self⟩

theorem Tracked.step (h : Tracked a es s) {e : UdpEvent} (hs : Step a s e s') :
    Tracked a (es ++ [e]) s' := by
  cases hs with
  | @add c hsend hc =>
      have he : ∀ w, UdpEvent.add c ≠ .send w := fun _ h => nomatch h
      -- the slot was empty, the queue holds nothing but `c`
      have hctx : s.ctx = none := by
        rcases Option.eq_none_or_eq_some s.ctx with hnone | ⟨d, hd⟩
        · exact hnone
        · rw [(h.taken d hd).1] at hc
          exact nomatch hc
      have hqueue : s.loop.queue.erase c = [] := by
        have hlen := List.length_erase_of_mem hc
        have := h.queue
        exact List.eq_nil_of_length_eq_zero (by omega)
      refine ⟨?_, ?_, ?_, ?_⟩
      · show (s.loop.queue.erase c).length ≤ 1
        rw [hqueue]
        exact Nat.zero_le _
      · intro d hd
        cases hd
        exact ⟨hqueue, Or.inl (List.mem_append_right _ List.mem_cons_self)⟩
      · intro hf
        exact h.full ((allFull_snoc he).mp hf)
      · intro hf
        obtain ⟨d, hd, _⟩ := h.failed (fun hfull => hf ((allFull_snoc he).mpr hfull))
        rw [hctx] at hd
        cases hd
  | timer hsend => exact h.of_same (fun _ h => nomatch h) (sameCtx_onTimer a _ s)
  | send hl hi hc hsend => exact h.send hc hsend
  | roundDone hl hi => exact h.of_same (fun _ h => nomatch h) ⟨rfl, rfl, rfl, rfl, rfl⟩
  | @close c hsend hc hshut =>
      have he : ∀ w, UdpEvent.close c ≠ .send w := fun _ h => nomatch h
      refine ⟨h.queue, ?_, ?_, ?_⟩
      · intro d hd
        obtain ⟨hqueue, htaken⟩ := h.taken d hd
        refine ⟨hqueue, ?_⟩
        rcases htaken with hlive | hclosed | hfreed
        · by_cases hdc : d = c
          · exact Or.inr (Or.inl (hdc ▸ List.mem_cons_self))
          · exact Or.inl ((List.mem_erase_of_ne hdc).mpr hlive)
        · exact Or.inr (Or.inl (List.mem_cons_of_mem _ hclosed))
        · exact Or.inr (Or.inr hfreed)
      · intro hf
        rw [(h.full ((allFull_snoc he).mp hf)).1] at hshut
        exact nomatch hshut
      · intro hf
        exact h.failed (fun hfull => hf ((allFull_snoc he).mpr hfull))
  | @release c hsend hc =>
      have he : ∀ w, UdpEvent.release c ≠ .send w := fun _ h => nomatch h
      refine ⟨h.queue, ?_, ?_, ?_⟩
      · intro d hd
        obtain ⟨hqueue, htaken⟩ := h.taken d hd
        refine ⟨hqueue, ?_⟩
        rcases htaken with hlive | hclosed | hfreed
        · exact Or.inl hlive
        · by_cases hdc : d = c
          · exact Or.inr (Or.inr (hdc ▸ List.mem_cons_self))
          · exact Or.inr (Or.inl ((List.mem_erase_of_ne hdc).mpr hclosed))
        · exact Or.inr (Or.inr (List.mem_cons_of_mem _ hfreed))
      · intro hf
        rw [(h.full ((allFull_snoc he).mp hf)).2.1] at hc
        exact nomatch hc
      · intro hf
        exact h.failed (fun hfull => hf ((allFull_snoc he).mpr hfull))

/-- Every run is tracked. -/
theorem tracked_of_run {ts : Timespec} {T : Bytes} (hrun : Run (Step a) (start ts T) es s) :
    Tracked a es s :=
  hrun.history (I := Tracked a) (fun _ _ _ _ h hs => h.step hs) (tracked_start ts T)

/-! ## When the context stays alive -/

/-- The housekeeping frees a context that was shut down and leaves the slot. -/
theorem exists_run_freed {c : Nat} (hs : s.sending = none) (hshut : c ∈ s.shut)
    (htaken : Taken c s) : ∃ fs s', (∀ e ∈ fs, e.IsHousekeeping) ∧ Run (Step a) s fs s' ∧
      s'.ctx = s.ctx ∧ c ∈ s'.freed := by
  rcases htaken with hlive | hclosed | hfreed
  · refine ⟨[.close c, .release c], _, ?_,
      .cons (.close hs hlive hshut) (.single (.release hs List.mem_cons_self)),
      rfl, List.mem_cons_self⟩
    intro e he
    simp only [List.mem_cons, List.not_mem_nil, or_false] at he
    rcases he with rfl | rfl
    · exact trivial
    · exact trivial
  · refine ⟨[.release c], _, ?_, .single (.release hs hclosed), rfl, List.mem_cons_self⟩
    intro e he
    cases List.mem_singleton.mp he
    exact trivial
  · exact ⟨[], s, fun _ h => (nomatch h), .nil s, rfl, hfreed⟩

/-- While every send returns `(int)msg_size`, the context in the slot is alive and
no freed one is used.  Between two callbacks the converse holds as well: if
it stays alive whatever housekeeping follows, every send so far did. -/
theorem ctx_alive_of_run {ts : Timespec} {T : Bytes} (hrun : Run (Step a) (start ts T) es s) :
    (AllFull a es → Alive s) ∧
    (s.sending = none →
      (∀ fs s', (∀ e ∈ fs, e.IsHousekeeping) → Run (Step a) s fs s' → Alive s') →
      AllFull a es) := by
  have h := tracked_of_run hrun
  constructor
  · intro hfull
    obtain ⟨_, _, hfreed, huses⟩ := h.full hfull
    exact ⟨fun c _ => hfreed ▸ List.not_mem_nil, huses⟩
  · intro hs halive
    by_contra hno
    obtain ⟨c, hc, hshut⟩ := h.failed hno
    obtain ⟨fs, s', hfs, hrun', hctx, hfreed⟩ :=
      exists_run_freed (a := a) hs hshut (h.taken c hc).2
    exact (halive fs s' hfs hrun').slot c (hctx.trans hc) hfreed

/-- The only round fails to send its message, and starts again after the
housekeeping. -/
def sendFails : List UdpEvent :=
  [.add 0, .timer ⟨0, 0⟩, .send .error, .close 0, .release 0, .timer ⟨0, 0⟩, .send .error]

/-- It sends on the freed context and shuts it down again. -/
theorem ctx_used_after_free : ∃ s, Run (Step TcpClient.oneMessage)
      (start ⟨0, 0⟩ TcpClient.oneMessageTable) sendFails s ∧
    s.ctx = some 0 ∧ 0 ∈ s.freed ∧ s.deadUses = [0, 0] :=
  ⟨_, .cons (.add rfl List.mem_cons_self) (.cons (.timer rfl)
    (.cons (.send rfl (by decide) rfl rfl)
    (.cons (.close rfl List.mem_cons_self List.mem_cons_self)
    (.cons (.release rfl List.mem_cons_self) (.cons (.timer rfl)
    (.cons (.send rfl (by decide) rfl rfl) (.nil _))))))), rfl, List.mem_cons_self, rfl⟩

/-- The same round with a send of all bytes. -/
def sendSucceeds : List UdpEvent :=
  [.add 0, .timer ⟨0, 0⟩, .send (.accept 16), .roundDone]

theorem ctx_alive_after_round : ∃ s, Run (Step TcpClient.oneMessage)
      (start ⟨0, 0⟩ TcpClient.oneMessageTable) sendSucceeds s ∧
    s.ctx = some 0 ∧ Alive s := by
  obtain ⟨s, hrun, hctx⟩ : ∃ s, Run (Step TcpClient.oneMessage)
      (start ⟨0, 0⟩ TcpClient.oneMessageTable) sendSucceeds s ∧ s.ctx = some 0 :=
    ⟨_, .cons (.add rfl List.mem_cons_self) (.cons (.timer rfl)
      (.cons (.send rfl (by decide) rfl rfl) (.cons (.roundDone rfl (by decide)) (.nil _)))), rfl⟩
  refine ⟨s, hrun, hctx, (ctx_alive_of_run hrun).1 ?_⟩
  intro w hw
  have hw : w = .accept 16 := by simpa [sendSucceeds] using hw
  rw [hw]
  decide

end NetBench.UdpClient

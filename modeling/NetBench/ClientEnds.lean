/-
# `NetBench.ClientEnds` — the clients leave their loops

A round ends completed, or with a send of which not all was accepted.  So

    round_index  +  the sends that failed  +  1 in a round                (`begun`)

is kept by every step, and raised by the beginning of a round.  `round_index` stays below
`round_num`: with as many failures as one likes, but not for ever, a client that is ready
again and again when its timer runs leaves the loop, with every message accepted in full
(`TcpClient.ends_of_run`, `UdpClient.all_sent_of_run`).

And the TCP client can get there from wherever it is: in every state of every run there are
further steps that lead to a connection, through the rounds that are left and out of the
loop (`TcpClient.can_end_of_run`).

All of this is about callbacks that return.  A message step is one in which
`nb_tcp_session_on_msg` has come back; a received header of which the length is zero modulo
`2^32` keeps it in its parse loop for ever (`NetBench.Wedge`), and such a client is in no
state of a run any more.
-/
import NetBench.Lib.Forever
import NetBench.Retries
import NetBench.UdpContext

namespace NetBench

open Lib NbSysArgs Filter

variable {a : NbSysArgs} {T : Bytes} {l l' : List Ev}

/-! ## Failures -/

/-- The sends of a log of which not all was accepted. -/
def failures (log : List Ev) : Nat := (outcomes log).count false

theorem failures_append (l l' : List Ev) : failures (l ++ l') = failures l + failures l' := by
  rw [failures, outcomes_append, List.count_append]
  rfl

/-- A message of which not all was accepted. -/
theorem failures_write {c : Nat} {buf acc : Bytes} (hne : acc ≠ buf) (hl : NoWrite l)
    (hl' : NoWrite l') : failures (l ++ .write c buf acc :: l') = 1 := by
  have hone : sends [.write c buf acc] = [(sequenceOf buf, false)] := by
    simp [sends, Ev.send?, hne]
  rw [failures, outcomes, ← List.singleton_append, sends_append, sends_append, sends_noWrite hl,
    sends_noWrite hl', hone]
  rfl

theorem EventLoop.left_queue {L : EventLoop} {c : Nat} (hc : c ∈ L.live) :
    c < L.next ∧ c ∉ L.queue :=
  ⟨EventLoop.lt_of_live hc, fun hq => EventLoop.not_live_of_queue hq hc⟩

namespace TcpClient

variable {β : Type} {B : BytesBuffer β} {b : β} {s s' : TcpClient β}

/-! ## The rounds of the TCP client -/

/-- The number of rounds begun. -/
def begun (s : TcpClient β) : Nat :=
  s.roundIndex.toNat + failures s.log + if s.sending.isSome then 1 else 0

/-- The timer call at `ts` does more than return: the rounds are over, or there is a context
and the interval has passed. -/
def Acts (a : NbSysArgs) (ts : Timespec) (s : TcpClient β) : Prop :=
  a.roundNum ≤ s.roundIndex ∨
    s.ctx ≠ none ∧ (a.roundIntervalMs.toNat : Int) ≤ elapsedMs ts s.lastTs

theorem begun_le_of_same (hround : s'.roundIndex = s.roundIndex) (hlog : s'.log = s.log ++ l)
    (hsend : s.sending.isSome → s'.sending.isSome) : begun s ≤ begun s' := by
  rw [begun, begun, hround, hlog, failures_append]
  split_ifs with h h'
  · omega
  · exact absurd (hsend h) h'
  · omega
  · omega

theorem failures_msgEvents {c d : Nat} {acc : Bytes} (hne : acc ≠ a.slice T d) :
    failures (msgEvents a T c d acc) = 1 :=
  failures_write hne (noWrite_record c _) (noWrite_record c _)

/-- No step lowers the number. -/
theorem begun_le (ha : a.Fits) (hT : a.Prepared T) (h : Sends a T s) {e : ClientEvent}
    (hs : Step a B b s e s') : begun s ≤ begun s' := by
  have hnil : s.log = s.log ++ [] := (List.append_nil _).symm
  cases hs with
  | connected ht => exact begun_le_of_same rfl hnil id
  | @add c ts nodelay hsend hc =>
      cases nodelay with
      | true => exact begun_le_of_same rfl hnil id
      | false => exact begun_le_of_same rfl hnil id
  | @timer ts hsend =>
      have hnone : ¬ s.sending.isSome := by simp [hsend]
      rcases onTimer_cases a ts s with ⟨_, heq⟩ | heq | ⟨c, _, _, _, heq⟩
      · rw [heq]
        exact begun_le_of_same rfl rfl id
      · rw [heq]
      · rw [heq]
        exact begun_le_of_same rfl hnil fun h => absurd h hnone
  | @send _ l c w hl hi hc hsend =>
      obtain ⟨_, _, hseq, hp, _⟩ := h.sending l hl
      rcases sendOne_spec ha hT (h.done_lt hl hi) hseq hp h.table hsend with
        ⟨_, rfl⟩ | ⟨acc, _, _, hne, _, rfl⟩
      · exact begun_le_of_same rfl rfl fun _ => rfl
      · -- the round is over, with one more failure
        have hsome : s.sending.isSome := by simp [hl]
        rw [begun, begun, if_pos hsome]
        show _ ≤ s.roundIndex.toNat + failures (s.log ++ _) + 0
        rw [failures_append, failures_msgEvents hne]
        exact Nat.le_refl _
  | @roundDone l hl hi =>
      obtain ⟨_, hnext, _⟩ := h.roundDone hl hi
      have hsome : s.sending.isSome := by simp [hl]
      rw [begun, begun, if_pos hsome]
      show _ ≤ (s.roundIndex + 1).toNat + failures s.log + _
      omega
  | message hsend hc hm =>
      rcases onMessage_cases hm with rfl | ⟨ses, ses', shut, _, _, rfl⟩
      · exact Nat.le_refl _
      · exact begun_le_of_same rfl hnil id
  | close hsend hc => exact begun_le_of_same rfl rfl id
  | release hsend hc => exact begun_le_of_same rfl hnil id

/-- A timer call that acts leaves the loop, or begins a round. -/
theorem acts_timer {ts : Timespec} (hact : Acts a ts s) (hs : Step a B b s (.timer ts) s') :
    .exit ∈ s'.log ∨ begun s < begun s' := by
  cases hs with
  | timer hsend =>
      have hnone : ¬ s.sending.isSome := by simp [hsend]
      by_cases hr : a.roundNum ≤ s.roundIndex
      · rw [onTimer, if_pos hr]
        exact Or.inl (List.mem_append_right _ List.mem_cons_self)
      · obtain ⟨hctx, hms⟩ := hact.resolve_left hr
        rw [onTimer, if_neg hr, if_neg hctx, if_neg (Int.not_lt.mpr hms)]
        rw [begun, begun, if_neg hnone]
        exact Or.inr (Nat.lt_succ_self _)

/-- Behind the loop every message has been accepted in full. -/
theorem Sends.all_sent (ha : a.Sized) (hT : a.Prepared T) (h : Sends a T s)
    (hexit : .exit ∈ s.log) {j : Nat} (hj : j < a.total) : (j, true) ∈ sends s.log := by
  have hdone : j < done a s := by
    rw [total, Nat.mul_comm, ← h.exit hexit] at hj
    exact Nat.lt_of_lt_of_le hj (Nat.le_add_right _ _)
  obtain ⟨c, hw⟩ := h.sent j hdone
  refine List.mem_filterMap.mpr ⟨_, hw, ?_⟩
  rw [Ev.send?, sequenceOf_slice ha hT hj, decide_eq_true rfl]

theorem sends_of_forever (ha : a.Fits) (hT : a.Prepared T) {ts : Timespec}
    {s : ℕ → TcpClient β} {e : ℕ → ClientEvent} (hrun : Forever (Step a B b) s e)
    (h₀ : s 0 = start ts T) (n : ℕ) : Sends a T (s n) :=
  (sends_of_run ha hT (h₀ ▸ hrun.run n)).2

/-- A TCP client that runs for ever: if its sends fail at most `K` times, and again and again
its timer runs when it has a context and the interval has passed, it gets through its rounds;
the loop is left, with every message accepted in full. -/
theorem ends_of_run (ha : a.Fits) {m : Bytes} (hm : m.length = a.tableBytes.toNat)
    (hprep : a.prepare m = some T) {ts : Timespec} {s : ℕ → TcpClient β} {e : ℕ → ClientEvent}
    (hrun : Forever (Step a B b) s e) (h₀ : s 0 = start ts T) {K : ℕ}
    (hfail : ∀ n, failures (s n).log ≤ K)
    (hready : ∃ᶠ n in atTop, ∃ t, e n = .timer t ∧ Acts a t (s n)) :
    ∃ n, .exit ∈ (s n).log ∧ ∀ j < a.total, (j, true) ∈ sends (s n).log := by
  have hT := prepared_of_prepare ha.sized hm hprep
  have hsends := sends_of_forever ha hT hrun h₀
  have hbound : ∀ n, begun (s n) ≤ a.roundNum.toNat + K + 1 := by
    intro n
    have hround := (hsends n).round_le
    have hfew := hfail n
    rw [begun]
    split_ifs <;> omega
  have hfair : ∃ᶠ n in atTop, .exit ∈ (s (n + 1)).log ∨ begun (s n) < begun (s (n + 1)) := by
    refine hready.mono fun n h => ?_
    obtain ⟨t, he, hact⟩ := h
    exact acts_timer hact (he ▸ hrun n)
  obtain ⟨n, hexit⟩ :=
    Forever.reaches (fun n => begun_le ha hT (hsends n) (hrun n)) hbound hfair
  exact ⟨n + 1, hexit, fun j hj => (hsends (n + 1)).all_sent ha.sized hT hexit hj⟩

/-! ## From anywhere to the end -/

/-- What holds wherever the TCP client is: its slot, its sends, and that a context which was
shut down has left the queue. -/
structure Sound (a : NbSysArgs) (T : Bytes) (s : TcpClient β) : Prop where
  slot : Slot s
  sends : Sends a T s
  shut : ∀ c ∈ s.shut, c < s.loop.next ∧ c ∉ s.loop.queue

/-- No callback runs, and the slot holds a context that was not shut down. -/
structure Open (c : Nat) (s : TcpClient β) : Prop where
  idle : s.sending = none
  ctx : s.ctx = some c
  notShut : c ∉ s.shut

theorem sound_start (ts : Timespec) : Sound a T (start ts T : TcpClient β) where
  slot := slot_start ts T
  sends := sends_start ts
  shut _ h := nomatch h

theorem Sound.step (ha : a.Fits) (hT : a.Prepared T) (h : Sound a T s) {e : ClientEvent}
    (hs : Step a B b s e s') : Sound a T s' := by
  refine ⟨h.slot.step hs, h.sends.step ha hT h.slot hs, ?_⟩
  cases hs with
  | connected ht =>
      intro c hc
      obtain ⟨hlt, hq⟩ := h.shut c hc
      refine ⟨Nat.lt_succ_of_lt hlt, fun hmem => ?_⟩
      rcases List.mem_cons.mp hmem with rfl | hmem
      · exact Nat.lt_irrefl _ hlt
      · exact hq hmem
  | @add d ts nodelay hsend hd =>
      have hold : ∀ c ∈ s.shut, c < s.loop.next ∧ c ∉ s.loop.queue.erase d := fun c hc =>
        ⟨(h.shut c hc).1, fun hq => (h.shut c hc).2 (List.mem_of_mem_erase hq)⟩
      cases nodelay with
      | true => exact hold
      | false =>
          have hlt : d < s.loop.next := EventLoop.lt_of_queue hd
          intro c hc
          rcases List.mem_cons.mp hc with rfl | hc
          · exact ⟨hlt, fun hq => ((List.Nodup.mem_erase_iff s.loop.nodup_queue).mp hq).1 rfl⟩
          · exact hold c hc
  | @timer ts hsend =>
      rcases onTimer_cases a ts s with ⟨_, heq⟩ | heq | ⟨_, _, _, _, heq⟩
      · rw [heq]
        exact h.shut
      · rw [heq]
        exact h.shut
      · rw [heq]
        exact h.shut
  | @send _ l d w hl hi hd hsend =>
      obtain ⟨_, _, _, _, _, _, ⟨_, rfl⟩ | ⟨_, rfl⟩⟩ := sendOne_cases hsend
      · exact h.shut
      · intro c hc
        rcases List.mem_cons.mp hc with rfl | hc
        · exact EventLoop.left_queue (h.slot.slot c hd)
        · exact h.shut c hc
  | roundDone => exact h.shut
  | @message _ d fuel cks hsend hd hm =>
      rcases onMessage_cases hm with rfl | ⟨ses, ses', shut, _, hshut, rfl⟩
      · exact h.shut
      · intro c hc
        have hc : c ∈ shut := hc
        rcases hshut with rfl | rfl
        · exact h.shut c hc
        · rcases List.mem_cons.mp hc with rfl | hc
          · exact EventLoop.left_queue hd
          · exact h.shut c hc
  | close => exact h.shut
  | release => exact h.shut

theorem Sound.run (ha : a.Fits) (hT : a.Prepared T) (h : Sound a T s) {es : List ClientEvent}
    (hrun : Run (Step a B b) s es s') : Sound a T s' :=
  hrun.invariant (fun _ _ _ h hs => h.step ha hT hs) h

/-- What is left of a round can be sent, and the round completed. -/
theorem Sound.finish_round (ha : a.Fits) (hT : a.Prepared T) {c : Nat} :
    ∀ (k : Nat) {s : TcpClient β} {l : Sending}, Sound a T s → s.sending = some l →
      s.ctx = some c → c ∉ s.shut → a.numPerRound.toNat - l.i.toNat = k →
      ∃ es t, Run (Step a B b) s es t ∧ Open c t ∧
        t.roundIndex.toNat = s.roundIndex.toNat + 1
  | 0, s, l, h, hl, hctx, hopen, hk => by
      obtain ⟨hr, hle, _⟩ := h.sends.sending l hl
      have hi : ¬ l.i < a.numPerRound := by
        rw [UInt32.lt_iff_toNat_lt]
        omega
      obtain ⟨_, hnext, _⟩ := h.sends.roundDone hl hi
      exact ⟨_, _, .single (.roundDone hl hi), ⟨rfl, hctx, hopen⟩, hnext⟩
  | k + 1, s, l, h, hl, hctx, hopen, hk => by
      obtain ⟨_, _, hseq, hp, _⟩ := h.sends.sending l hl
      have hi : l.i < a.numPerRound := by
        rw [UInt32.lt_iff_toNat_lt]
        omega
      have hsend := sendOne_full ha hT (h.sends.done_lt hl hi) hseq hp h.sends.table hopen
        (Nat.le_refl a.msgSize.toNat)
      have hs : Step a B b s (.send _) _ := .send hl hi hctx hsend
      have hsucc := toNat_succ (UInt32.lt_iff_toNat_lt.mp hi)
      obtain ⟨es, t, hrun, ht, hround⟩ := Sound.finish_round ha hT k (h.step ha hT hs) rfl hctx hopen
        (by show _ - (l.i + 1).toNat = k; omega)
      exact ⟨_, t, .cons hs hrun, ht, hround⟩

/-- A running callback can return. -/
theorem Sound.to_idle (ha : a.Fits) (hT : a.Prepared T) (h : Sound a T s) :
    ∃ es t, Run (Step a B b) s es t ∧ t.sending = none := by
  cases hl : s.sending with
  | none => exact ⟨[], s, .nil s, hl⟩
  | some l =>
      obtain ⟨_, _, hseq, hp, c, _, hctx, _⟩ := h.sends.sending l hl
      by_cases hshut : c ∈ s.shut
      · by_cases hi : l.i < a.numPerRound
        · -- nothing more is accepted
          have hd := h.sends.done_lt hl hi
          obtain ⟨t, hsend⟩ := Option.isSome_iff_exists.mp
            (sendOne_isSome (c := c) hT hd hseq hp h.sends.table .error)
          refine ⟨_, t, .single (.send hl hi hctx hsend), ?_⟩
          rcases sendOne_spec ha hT hd hseq hp h.sends.table hsend with ⟨hopen, _⟩ | ⟨_, _, _, _, _, rfl⟩
          · exact absurd hshut hopen
          · rfl
        · exact ⟨_, _, .single (.roundDone hl hi), rfl⟩
      · obtain ⟨es, t, hrun, ht, _⟩ := h.finish_round ha hT _ hl hctx hshut rfl
        exact ⟨es, t, hrun, ht.idle⟩

/-- A context of the queue can be added. -/
theorem Sound.add_open (h : Sound a T s) (hidle : s.sending = none) {c : Nat}
    (hc : c ∈ s.loop.queue) :
    ∃ es t, Run (Step a B b) s es t ∧ Open c t :=
  ⟨[.add c ⟨0, 0⟩ true], _, .single (.add hidle hc), hidle, rfl, fun hshut => (h.shut c hshut).2 hc⟩

/-- A connect thread can have a connection. -/
theorem Sound.thread_open (ha : a.Fits) (hT : a.Prepared T) (h : Sound a T s)
    (hidle : s.sending = none) (hthread : 0 < s.loop.threads) :
    ∃ es t c, Run (Step a B b) s es t ∧ Open c t := by
  have hs : Step a B b s .connected _ := .connected hthread
  obtain ⟨es, t, hrun, ht⟩ := (h.step ha hT hs).add_open hidle List.mem_cons_self
  exact ⟨_, t, _, .cons hs hrun, ht⟩

/-- There can be a connection: the one that is there is closed if it was shut down, or has
not come into the slot. -/
theorem Sound.to_open (ha : a.Fits) (hT : a.Prepared T) (h : Sound a T s)
    (hidle : s.sending = none) : ∃ es t c, Run (Step a B b) s es t ∧ Open c t := by
  have hone := h.slot.one
  cases hq : s.loop.queue with
  | cons c q =>
      obtain ⟨es, t, hrun, ht⟩ := h.add_open hidle (hq ▸ List.mem_cons_self)
      exact ⟨es, t, c, hrun, ht⟩
  | nil =>
      cases hl : s.loop.live with
      | cons c l =>
          have hc : c ∈ s.loop.live := hl ▸ List.mem_cons_self
          have hs : Step a B b s (.close c) _ := .close hidle hc
          obtain ⟨es, t, d, hrun, ht⟩ :=
            (h.step ha hT hs).thread_open ha hT hidle (Nat.succ_pos _)
          exact ⟨_, t, d, .cons hs hrun, ht⟩
      | nil =>
          rw [hq, hl] at hone
          exact h.thread_open ha hT hidle (by simp at hone; omega)

/-- The rounds that are left can be sent. -/
theorem Sound.rounds (ha : a.Fits) (hT : a.Prepared T) {c : Nat} :
    ∀ (k : Nat) {s : TcpClient β}, Sound a T s → Open c s →
      a.roundNum.toNat - s.roundIndex.toNat = k →
      ∃ es t, Run (Step a B b) s es t ∧ Open c t ∧ a.roundNum ≤ t.roundIndex
  | 0, s, h, ho, hk => by
      refine ⟨[], s, .nil s, ho, UInt32.le_iff_toNat_le.mpr ?_⟩
      omega
  | k + 1, s, h, ho, hk => by
      -- the timer runs when the interval has passed
      let ts : Timespec := ⟨s.lastTs.tvSec + a.roundIntervalMs.toNat, s.lastTs.tvNsec⟩
      have hms : (a.roundIntervalMs.toNat : Int) ≤ elapsedMs ts s.lastTs := by
        show _ ≤ (s.lastTs.tvSec + a.roundIntervalMs.toNat - s.lastTs.tvSec) * 1000 +
          s.lastTs.tvNsec.tdiv 1000000 - s.lastTs.tvNsec.tdiv 1000000
        omega
      have hr : ¬ a.roundNum ≤ s.roundIndex := by
        rw [UInt32.le_iff_toNat_le]
        omega
      have hctx : s.ctx ≠ none := by simp [ho.ctx]
      have hs : Step a B b s (.timer ts) (onTimer a ts s) := .timer ho.idle
      have h₁ := h.step ha hT hs
      rw [onTimer, if_neg hr, if_neg hctx, if_neg (Int.not_lt.mpr hms)] at hs h₁
      obtain ⟨es₁, u, hrun₁, hu, hround⟩ := h₁.finish_round (B := B) (b := b) ha hT _ rfl ho.ctx ho.notShut rfl
      have hround : u.roundIndex.toNat = s.roundIndex.toNat + 1 := hround
      obtain ⟨es₂, t, hrun₂, ht, hover⟩ := Sound.rounds ha hT k (h₁.run ha hT hrun₁) hu (by omega)
      exact ⟨_, t, .cons hs (hrun₁.append hrun₂), ht, hover⟩

/-- The rounds can be brought to their end. -/
theorem Sound.to_end (ha : a.Fits) (hT : a.Prepared T) (h : Sound a T s) :
    ∃ es t, Run (Step a B b) s es t ∧ t.sending = none ∧ a.roundNum ≤ t.roundIndex := by
  obtain ⟨es₁, s₁, hrun₁, hidle⟩ := h.to_idle (B := B) (b := b) ha hT
  have h₁ := h.run ha hT hrun₁
  obtain ⟨es₂, s₂, c, hrun₂, hopen⟩ := h₁.to_open (B := B) (b := b) ha hT hidle
  have h₂ := h₁.run ha hT hrun₂
  obtain ⟨es₃, s₃, hrun₃, hopen₃, hover⟩ := h₂.rounds (B := B) (b := b) ha hT _ hopen rfl
  exact ⟨_, s₃, (hrun₁.append hrun₂).append hrun₃, hopen₃.idle, hover⟩

/-- In every state of every run, that is as long as its message callbacks have returned, the
TCP client can still come to its end: some further steps lead out of the loop, with every
message accepted in full. -/
theorem can_end_of_run (ha : a.Fits) {m : Bytes} (hm : m.length = a.tableBytes.toNat)
    (hprep : a.prepare m = some T) {ts : Timespec} {es : List ClientEvent}
    (hrun : Run (Step a B b) (start ts T) es s) :
    ∃ es' t, Run (Step a B b) s es' t ∧ .exit ∈ t.log ∧ ∀ j < a.total, (j, true) ∈ sends t.log := by
  have hT := prepared_of_prepare ha.sized hm hprep
  have h : Sound a T s := (sound_start ts).run ha hT hrun
  obtain ⟨es', t, hrun', hidle, hover⟩ := h.to_end (B := B) (b := b) ha hT
  have hs : Step a B b t (.timer ⟨0, 0⟩) (onTimer a ⟨0, 0⟩ t) := .timer hidle
  have hexit : .exit ∈ (onTimer a ⟨0, 0⟩ t).log := by
    rw [onTimer, if_pos hover]
    exact List.mem_append_right _ List.mem_cons_self
  have hend := (h.run ha hT hrun').step ha hT hs
  exact ⟨_, _, hrun'.snoc hs, hexit, fun j hj => hend.sends.all_sent ha.sized hT hexit hj⟩

/-! ## There are such runs -/

theorem failures_le (ha : a.Fits) (hT : a.Prepared T) (h : Sends a T s) {e : ClientEvent}
    (hs : Step a B b s e s') : failures s.log ≤ failures s'.log := by
  cases (hs.logged ha hT h).1 with
  | quiet hlog =>
      rw [hlog, failures_append]
      exact Nat.le_add_right _ _
  | full _ _ hlog =>
      rw [hlog, failures_append]
      exact Nat.le_add_right _ _
  | part _ _ _ hlog =>
      rw [hlog, failures_append]
      exact Nat.le_add_right _ _

/-- The timer runs after the last round. -/
theorem timer_over (ts : Timespec) (hidle : s.sending = none) (hover : a.roundNum ≤ s.roundIndex) :
    Step a B b s (.timer ts) { s with log := s.log ++ [.exit] } := by
  have hs : Step a B b s (.timer ts) (onTimer a ts s) := .timer hidle
  rwa [onTimer, if_pos hover] at hs

/-- From every state there is a run for ever in which the sends fail finitely often and the
timer, again and again, has something to do. -/
theorem Sound.exists_forever (ha : a.Fits) (hT : a.Prepared T) (h : Sound a T s) :
    ∃ s' e', Forever (Step a B b) s' e' ∧ s' 0 = s ∧ (∃ K, ∀ n, failures (s' n).log ≤ K) ∧
      ∃ᶠ n in atTop, ∃ t, e' n = .timer t ∧ Acts a t (s' n) := by
  obtain ⟨es, t, hrun, hidle, hover⟩ := h.to_end (B := B) (b := b) ha hT
  let I : TcpClient β → Prop := fun u =>
    u.sending = none ∧ a.roundNum ≤ u.roundIndex ∧ failures u.log = failures t.log
  have hnext : ∀ u, I u → ∃ e v, Step a B b u e v ∧
      (e = .timer ⟨0, 0⟩ ∧ I u) ∧ I v := by
    intro u hu
    refine ⟨_, _, timer_over ⟨0, 0⟩ hu.1 hu.2.1, ⟨rfl, hu⟩, hu.1, hu.2.1, ?_⟩
    have hexit : failures [.exit] = 0 := rfl
    show failures (u.log ++ [.exit]) = _
    rw [failures_append, hexit]
    exact hu.2.2
  obtain ⟨s', e', hforever, h₀, -, hend⟩ := hrun.exists_forever ⟨hidle, hover, rfl⟩ hnext
  have hmono : Monotone fun n => failures (s' n).log := by
    refine monotone_nat_of_le_succ fun n => ?_
    have hn : Sound a T (s' n) := (h₀.symm ▸ h).run ha hT (hforever.run n)
    exact failures_le ha hT hn.sends (hforever n)
  refine ⟨s', e', hforever, h₀, ⟨failures t.log, fun n => ?_⟩, ?_⟩
  · have hlast := (hend (n + es.length) (Nat.le_add_left _ _)).2.2.2
    exact Nat.le_trans (hmono (Nat.le_add_right n es.length)) (Nat.le_of_eq hlast)
  · refine frequently_atTop.mpr fun n => ⟨n + es.length, Nat.le_add_right _ _, ⟨0, 0⟩, ?_⟩
    obtain ⟨he, hI⟩ := hend (n + es.length) (Nat.le_add_left _ _)
    exact ⟨he, Or.inl hI.2.1⟩

/-- There is such a run for two messages. -/
theorem ends_of_run_round_of_two : ∃ s e, Forever (Step roundOfTwo (ringBuffer netBenchTcpBufSize)
      (emptyRing netBenchTcpBufSize fun _ => 0)) s e ∧ s 0 = start ⟨0, 0⟩ roundOfTwoTable ∧
    ∃ n, .exit ∈ (s n).log ∧ (1, true) ∈ sends (s n).log := by
  obtain ⟨s, e, hrun, h₀, ⟨K, hfail⟩, hready⟩ :=
    (sound_start ⟨0, 0⟩).exists_forever (B := ringBuffer netBenchTcpBufSize)
      (b := emptyRing netBenchTcpBufSize fun _ => 0) roundOfTwo_fits roundOfTwo_prepared
  obtain ⟨n, hexit, hall⟩ :=
    ends_of_run roundOfTwo_fits (by decide) roundOfTwo_prepare hrun h₀ hfail hready
  exact ⟨s, e, hrun, h₀, n, hexit, hall 1 (by decide)⟩

/-- The first write is refused, and the context is not closed yet. -/
def refused : List ClientEvent := [.add 0 ⟨0, 0⟩ true, .timer ⟨0, 0⟩, .send .error]

/-- There is a way on after a write that failed. -/
theorem can_end_of_run_refused : ∃ s, Run (Step roundOfTwo (ringBuffer netBenchTcpBufSize)
      (emptyRing netBenchTcpBufSize fun _ => 0)) (start ⟨0, 0⟩ roundOfTwoTable) refused s ∧
    ∃ es t, Run (Step roundOfTwo (ringBuffer netBenchTcpBufSize)
      (emptyRing netBenchTcpBufSize fun _ => 0)) s es t ∧ .exit ∈ t.log ∧
      (1, true) ∈ sends t.log := by
  obtain ⟨s, hrun⟩ : ∃ s, Run (Step roundOfTwo (ringBuffer netBenchTcpBufSize)
      (emptyRing netBenchTcpBufSize fun _ => 0)) (start ⟨0, 0⟩ roundOfTwoTable) refused s :=
    ⟨_, .cons (.add rfl List.mem_cons_self) (.cons (.timer rfl)
      (.cons (.send rfl (by decide) rfl rfl) (.nil _)))⟩
  obtain ⟨es, t, hrun', hexit, hall⟩ :=
    can_end_of_run roundOfTwo_fits (by decide) roundOfTwo_prepare hrun
  exact ⟨s, hrun, es, t, hrun', hexit, hall 1 (by decide)⟩

end TcpClient

namespace UdpClient

variable {s s' : UdpClient}

/-! ## The rounds of the UDP client -/

/-- The number of rounds begun, when no send fails. -/
def begun (s : UdpClient) : Nat := s.roundIndex.toNat + if s.sending.isSome then 1 else 0

/-- As in the TCP client. -/
def Acts (a : NbSysArgs) (ts : Timespec) (s : UdpClient) : Prop :=
  a.roundNum ≤ s.roundIndex ∨ s.ctx ≠ none ∧ a.roundIntervalMs ≤ udpElapsedMs ts s.lastTs

theorem begun_le_of_same (hround : s'.roundIndex = s.roundIndex)
    (hsend : s.sending.isSome → s'.sending.isSome) : begun s ≤ begun s' := by
  rw [begun, begun, hround]
  split_ifs with h h'
  · exact Nat.le_refl _
  · exact absurd (hsend h) h'
  · exact Nat.le_succ _
  · exact Nat.le_refl _

/-- No step lowers the number, if a send is one that returns the size of the message. -/
theorem begun_le (h : Retried a T s) {e : UdpEvent} (hfull : ∀ w, e = .send w → SendsFull a w)
    (hs : Step a s e s') : begun s ≤ begun s' := by
  cases hs with
  | add hsend hc => exact begun_le_of_same rfl id
  | @timer ts hsend =>
      rcases onTimer_cases a ts s with ⟨_, heq⟩ | heq | ⟨_, _, _, heq⟩
      · rw [heq]
        exact begun_le_of_same rfl id
      · rw [heq]
      · rw [heq]
        exact begun_le_of_same rfl fun _ => rfl
  | @send _ l c w hl hi hc hsend =>
      obtain ⟨_, _, _, _, _, _, ⟨_, rfl⟩ | ⟨hne, _⟩⟩ := sendOne_inv hsend
      · exact begun_le_of_same rfl fun _ => rfl
      · exact absurd (hfull w rfl) hne
  | @roundDone l hl hi =>
      obtain ⟨hr, _, _⟩ := h.aimed.sending l hl
      have hnext := toNat_succ (UInt32.lt_iff_toNat_lt.mp hr)
      have hsome : s.sending.isSome := by simp [hl]
      rw [begun, begun, if_pos hsome]
      show _ ≤ (s.roundIndex + 1).toNat + 0
      omega
  | close hsend hc hshut => exact begun_le_of_same rfl id
  | release hsend hc => exact begun_le_of_same rfl id

theorem acts_timer {ts : Timespec} (hact : Acts a ts s) (hs : Step a s (.timer ts) s') :
    .exit ∈ s'.log ∨ begun s < begun s' := by
  cases hs with
  | timer hsend =>
      have hnone : ¬ s.sending.isSome := by simp [hsend]
      by_cases hr : a.roundNum ≤ s.roundIndex
      · rw [onTimer, if_pos hr]
        exact Or.inl (List.mem_append_right _ List.mem_cons_self)
      · obtain ⟨hctx, hms⟩ := hact.resolve_left hr
        rw [onTimer, if_neg hr, if_neg hctx, if_neg (UInt32.not_lt.mpr hms), begun, begun,
          if_neg hnone]
        exact Or.inr (Nat.lt_succ_self _)

theorem Retried.all_sent (h : Retried a T s) (hexit : .exit ∈ s.log) {j : Nat}
    (hj : j < a.total) : (j, true) ∈ sends s.log := by
  have hdone : j < done a s := by
    rw [total, Nat.mul_comm, ← h.exit hexit] at hj
    exact Nat.lt_of_lt_of_le hj (Nat.le_add_right _ _)
  have hcount := h.resends.count hj
  rw [if_pos hdone] at hcount
  exact List.count_pos_iff.mp (hcount ▸ Nat.succ_pos _)

/-- The same of a UDP client whose sends all return the size of the message; after any other
send its context is lost. -/
theorem all_sent_of_run (ha : a.Fits) {m : Bytes} (hm : m.length = a.tableBytes.toNat)
    (hprep : a.prepare m = some T) {ts : Timespec} {s : ℕ → UdpClient} {e : ℕ → UdpEvent}
    (hrun : Forever (Step a) s e) (h₀ : s 0 = start ts T)
    (hfull : ∀ n w, e n = .send w → SendsFull a w)
    (hready : ∃ᶠ n in atTop, ∃ t, e n = .timer t ∧ Acts a t (s n)) :
    ∃ n, .exit ∈ (s n).log ∧ ∀ j < a.total, (j, true) ∈ sends (s n).log := by
  have hT := prepared_of_prepare ha.sized hm hprep
  have hretried : ∀ n, Retried a T (s n) := fun n =>
    (h₀ ▸ hrun.run n).invariant (I := Retried a T) (fun _ _ _ h hs => h.step ha hT hs)
      (retried_start ts)
  have hbound : ∀ n, begun (s n) ≤ a.roundNum.toNat + 1 := by
    intro n
    have hround := UInt32.le_iff_toNat_le.mp (hretried n).round_le
    rw [begun]
    split_ifs <;> omega
  have hfair : ∃ᶠ n in atTop, .exit ∈ (s (n + 1)).log ∨ begun (s n) < begun (s (n + 1)) := by
    refine hready.mono fun n h => ?_
    obtain ⟨t, he, hact⟩ := h
    exact acts_timer hact (he ▸ hrun n)
  obtain ⟨n, hexit⟩ :=
    Forever.reaches (fun n => begun_le (hretried n) (hfull n) (hrun n)) hbound hfair
  exact ⟨n + 1, hexit, fun j hj => (hretried (n + 1)).all_sent hexit hj⟩

/-- A round in which no send fails. -/
def oneRound : List UdpEvent :=
  [.add 0, .timer ⟨0, 0⟩, .send (.accept 16), .send (.accept 16), .roundDone]

theorem all_sent_of_run_one_round : ∃ s e, Forever (Step roundOfTwo) s e ∧
    s 0 = start ⟨0, 0⟩ roundOfTwoTable ∧ ∃ n, .exit ∈ (s n).log ∧ (1, true) ∈ sends (s n).log := by
  obtain ⟨t, hrun, hidle, hround⟩ : ∃ t,
      Run (Step roundOfTwo) (start ⟨0, 0⟩ roundOfTwoTable) oneRound t ∧ t.sending = none ∧
      t.roundIndex = 1 :=
    ⟨_, .cons (.add rfl List.mem_cons_self) (.cons (.timer rfl)
      (.cons (.send rfl (by decide) rfl
        (sendOne_full roundOfTwo_prepared (d := 0) (by decide) rfl rfl rfl (by decide)))
      (.cons (.send rfl (by decide) rfl
        (sendOne_full roundOfTwo_prepared (d := 1) (by decide) rfl rfl rfl (by decide)))
      (.cons (.roundDone rfl (by decide)) (.nil _))))), rfl, rfl⟩
  -- from there on the timer runs
  let I : UdpClient → Prop := fun u => u.sending = none ∧ u.roundIndex = 1
  have hnext : ∀ u, I u → ∃ e v, Step roundOfTwo u e v ∧
      (e = .timer ⟨0, 0⟩ ∧ I u) ∧ I v := by
    intro u hu
    have hs : Step roundOfTwo u (.timer ⟨0, 0⟩) (onTimer roundOfTwo ⟨0, 0⟩ u) := .timer hu.1
    have hover : roundOfTwo.roundNum ≤ u.roundIndex := by
      rw [hu.2]
      decide
    rw [onTimer, if_pos hover] at hs
    exact ⟨_, _, hs, ⟨rfl, hu⟩, hu⟩
  obtain ⟨s, e, hforever, h₀, hfirst, hlast⟩ := hrun.exists_forever ⟨hidle, hround⟩ hnext
  have hsends : ∀ x ∈ oneRound, ∀ w, x = .send w → w = .accept 16 := by
    intro x hx w hw
    simp only [oneRound, List.mem_cons, List.not_mem_nil, or_false] at hx
    rcases hx with rfl | rfl | rfl | rfl | rfl <;> cases hw <;> rfl
  have hfull : ∀ n w, e n = .send w → SendsFull roundOfTwo w := by
    intro n w hw
    rcases Nat.lt_or_ge n oneRound.length with hn | hn
    · rw [hsends _ (hfirst n hn) w hw]
      decide
    · cases (hlast n hn).1.symm.trans hw
  have hready : ∃ᶠ n in atTop, ∃ t, e n = .timer t ∧ Acts roundOfTwo t (s n) := by
    refine frequently_atTop.mpr fun n => ⟨n + oneRound.length, Nat.le_add_right _ _, ⟨0, 0⟩, ?_⟩
    obtain ⟨he, hI⟩ := hlast (n + oneRound.length) (Nat.le_add_left _ _)
    refine ⟨he, Or.inl ?_⟩
    rw [hI.2]
    decide
  obtain ⟨n, hexit, hall⟩ :=
    all_sent_of_run roundOfTwo_fits (by decide) roundOfTwo_prepare hforever h₀ hfull hready
  exact ⟨s, e, hforever, h₀, n, hexit, hall 1 (by decide)⟩

end UdpClient

end NetBench

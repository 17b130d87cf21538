/-
# `NetBench.Pacing` — when the TCP client attempts a round

`last_ts` is written in three places: `run` takes a clock reading, the add
callback takes one and moves it `cli_wait` seconds ahead, and a timer call that
begins a round stores the reading it compared.

    a round at `t` was begun   ⟹   ms(last_ts) + round_interval_ms ≤ ms(t)
    the slot holds `c`         ⟹   x ≤ ms(last_ts)                      (`Waits c x`)

The second is an invariant from the add of `c` on, with `x` the end of its wait,
and from a round on `c` on, with `x` the time of that round.  It does not matter
whether the clock goes forward, or whether a round got to its end.
-/
import NetBench.ClientSlot
import Mathlib.Algebra.Group.Int.Defs

namespace NetBench

open Lib

/-! ## Clock readings -/

namespace Timespec

/-- The time in whole milliseconds; division rounds down. -/
def ms (t : Timespec) : Int := t.tvSec * 1000 + t.tvNsec / 1000000

/-- The nanoseconds are a fraction of a second. -/
def Normal (t : Timespec) : Prop := 0 ≤ t.tvNsec ∧ t.tvNsec < 10 ^ 9

instance (t : Timespec) : Decidable t.Normal := inferInstanceAs (Decidable (_ ∧ _))

/-- A reading of the clock. -/
structure IsReading (t : Timespec) : Prop where
  sec : -2 ^ 50 < t.tvSec ∧ t.tvSec < 2 ^ 50
  nsec : t.Normal

end Timespec

/-- The code computes the difference of the two times in whole milliseconds. -/
theorem elapsedMs_eq {ts last : Timespec} (hts : ts.Normal) (hlast : last.Normal) :
    elapsedMs ts last = ts.ms - last.ms := by
  have hnow : ts.tvNsec.tdiv 1000000 = ts.tvNsec / 1000000 := Int.tdiv_eq_ediv_of_nonneg hts.1
  have hthen : last.tvNsec.tdiv 1000000 = last.tvNsec / 1000000 :=
    Int.tdiv_eq_ediv_of_nonneg hlast.1
  unfold elapsedMs Timespec.ms
  rw [hnow, hthen]
  omega

/-! ## Signed 64-bit arithmetic -/

/-- The result of a signed 64-bit operation; `none` is an overflow. -/
def int64 (x : Int) : Option Int := if -2 ^ 63 ≤ x ∧ x < 2 ^ 63 then some x else none

theorem int64_of_bounds {x : Int} (h : -2 ^ 63 ≤ x ∧ x < 2 ^ 63) : int64 x = some x := if_pos h

/-- `elapsed_ms`, operation by operation. -/
def elapsedMsChecked (ts last : Timespec) : Option Int := do
  let sec ← int64 (ts.tvSec - last.tvSec)
  let secMs ← int64 (sec * 1000)
  let nowMs ← int64 (ts.tvNsec.tdiv 1000000)
  let sum ← int64 (secMs + nowMs)
  let lastMs ← int64 (last.tvNsec.tdiv 1000000)
  int64 (sum - lastMs)

/-- `last_ts.tv_sec += args->cli_wait`. -/
def waitChecked (ts : Timespec) (cliWait : UInt32) : Option Timespec := do
  let sec ← int64 (ts.tvSec + cliWait.toNat)
  some ⟨sec, ts.tvNsec⟩

/-- A reading, perhaps moved ahead by a wait. -/
structure Timespec.InRange (t : Timespec) : Prop where
  sec : -2 ^ 50 < t.tvSec ∧ t.tvSec < 2 ^ 50 + 2 ^ 32
  nsec : t.Normal

theorem Timespec.IsReading.inRange {t : Timespec} (h : t.IsReading) : t.InRange where
  sec := ⟨h.sec.1, by have := h.sec.2; omega⟩
  nsec := h.nsec

theorem Timespec.IsReading.wait {t : Timespec} (h : t.IsReading) (cliWait : UInt32) :
    Timespec.InRange ⟨t.tvSec + cliWait.toNat, t.tvNsec⟩ where
  sec := by
    have hlt := cliWait.toNat_lt
    have hsec := h.sec
    show -2 ^ 50 < t.tvSec + cliWait.toNat ∧ t.tvSec + cliWait.toNat < 2 ^ 50 + 2 ^ 32
    omega
  nsec := h.nsec

/-- The milliseconds of a second fit any integer type. -/
theorem Timespec.Normal.tdiv_bounds {t : Timespec} (h : t.Normal) :
    0 ≤ t.tvNsec.tdiv 1000000 ∧ t.tvNsec.tdiv 1000000 < 1000 := by
  obtain ⟨h0, hlt⟩ := h
  rw [Int.tdiv_eq_ediv_of_nonneg h0]
  omega

theorem elapsedMsChecked_eq {ts last : Timespec} (hts : ts.IsReading) (hlast : last.InRange) :
    elapsedMsChecked ts last = some (elapsedMs ts last) := by
  have hnow := hts.nsec.tdiv_bounds
  have hthen := hlast.nsec.tdiv_bounds
  have hsec := hts.sec
  have hsec' := hlast.sec
  have h₁ : int64 (ts.tvSec - last.tvSec) = some (ts.tvSec - last.tvSec) :=
    int64_of_bounds (by omega)
  have h₂ : int64 ((ts.tvSec - last.tvSec) * 1000) = some ((ts.tvSec - last.tvSec) * 1000) :=
    int64_of_bounds (by omega)
  have h₃ : int64 (ts.tvNsec.tdiv 1000000) = some (ts.tvNsec.tdiv 1000000) :=
    int64_of_bounds (by omega)
  have h₄ : int64 ((ts.tvSec - last.tvSec) * 1000 + ts.tvNsec.tdiv 1000000) =
      some ((ts.tvSec - last.tvSec) * 1000 + ts.tvNsec.tdiv 1000000) :=
    int64_of_bounds (by omega)
  have h₅ : int64 (last.tvNsec.tdiv 1000000) = some (last.tvNsec.tdiv 1000000) :=
    int64_of_bounds (by omega)
  have h₆ : int64 (elapsedMs ts last) = some (elapsedMs ts last) :=
    int64_of_bounds (by unfold elapsedMs; omega)
  simp only [elapsedMsChecked, Option.bind_eq_bind, h₁, h₂, h₃, h₄, h₅, Option.bind_some]
  exact h₆

theorem waitChecked_eq {ts : Timespec} (hts : ts.IsReading) (cliWait : UInt32) :
    waitChecked ts cliWait = some ⟨ts.tvSec + cliWait.toNat, ts.tvNsec⟩ := by
  have hsec : -2 ^ 50 < ts.tvSec + cliWait.toNat ∧ ts.tvSec + cliWait.toNat < 2 ^ 50 + 2 ^ 32 :=
    (hts.wait cliWait).sec
  have h : int64 (ts.tvSec + cliWait.toNat) = some (ts.tvSec + cliWait.toNat) :=
    int64_of_bounds (by omega)
  simp only [waitChecked, h, Option.bind_eq_bind, Option.bind_some]

/-- What `muggle_realtime_get` returned in a callback. -/
def ClientEvent.reading : ClientEvent → Option Timespec
  | .add _ ts _ | .timer ts => some ts
  | _ => none

/-- An event in which the clock, if it was read, gave a reading. -/
def ClientEvent.Clocked (e : ClientEvent) : Prop := ∀ t, e.reading = some t → t.IsReading

namespace TcpClient

variable {β : Type} (a : NbSysArgs) (B : BytesBuffer β) (b₀ : β)

/-! ## Attempts -/

/-- A timer call at `t` begins a round on `c`. -/
structure Attempt (c : Nat) (t : Timespec) (s s' : TcpClient β) : Prop where
  step : Step a B b₀ s (.timer t) s'
  ctx : s.ctx = some c
  began : s'.sending ≠ none

/-- From `s` on, no round is attempted on `c` before `x` milliseconds. -/
def NoAttemptBefore (c : Nat) (x : Int) (s : TcpClient β) : Prop :=
  ∀ es s' t s'', Run (Step a B b₀) s es s' → (∀ e ∈ es, e.Clocked) → t.IsReading →
    Attempt a B b₀ c t s' s'' → x ≤ t.ms

section Steps

variable {a B b₀} {s s' : TcpClient β} {c : Nat} {t : Timespec}

/-- A timer call that begins no round leaves the pacing and the table alone. -/
theorem onTimer_idle (hidle : (onTimer a t s).sending = none) :
    (onTimer a t s).lastTs = s.lastTs ∧ (onTimer a t s).roundIndex = s.roundIndex ∧
      (onTimer a t s).datas = s.datas := by
  rcases onTimer_cases a t s with ⟨_, h⟩ | h | ⟨c, _, _, _, h⟩
  · rw [h]
    exact ⟨rfl, rfl, rfl⟩
  · rw [h]
    exact ⟨rfl, rfl, rfl⟩
  · rw [h] at hidle
    exact nomatch hidle

/-- An attempt is an interval later than `last_ts`, and becomes `last_ts`. -/
theorem Attempt.late (h : Attempt a B b₀ c t s s') (ht : t.Normal) (hlast : s.lastTs.Normal) :
    s.lastTs.ms + a.roundIntervalMs.toNat ≤ t.ms ∧ s'.lastTs = t ∧ s'.ctx = some c ∧
      s'.loop = s.loop := by
  obtain ⟨hstep, hctx, hbegan⟩ := h
  cases hstep with
  | timer hs =>
      rcases onTimer_cases a t s with ⟨_, h⟩ | h | ⟨c', _, _, hms, h⟩
      · rw [h] at hbegan
        exact absurd hs hbegan
      · rw [h] at hbegan
        exact absurd hs hbegan
      · rw [elapsedMs_eq ht hlast] at hms
        rw [h]
        exact ⟨by omega, rfl, hctx, rfl⟩

/-- `last_ts` is a reading, perhaps moved ahead by the wait. -/
theorem inRange_step {e : ClientEvent} (he : e.Clocked) (h : s.lastTs.InRange)
    (hs : Step a B b₀ s e s') : s'.lastTs.InRange := by
  cases hs with
  | connected => exact h
  | @add c ts nodelay =>
      have hts := he ts rfl
      cases nodelay with
      | true => exact hts.wait a.cliWait
      | false => exact h
  | @timer ts hsend =>
      have hts := he ts rfl
      rcases onTimer_cases a ts s with ⟨_, h'⟩ | h' | ⟨c, _, _, _, h'⟩
      · rw [h']
        exact h
      · rw [h']
        exact h
      · rw [h']
        exact hts.inRange
  | send _ _ _ hsend =>
      obtain ⟨m, datas, buf, _, _, _, ⟨_, rfl⟩ | ⟨_, rfl⟩⟩ := sendOne_cases hsend
      · exact h
      · exact h
  | roundDone => exact h
  | message _ _ hm =>
      rcases onMessage_cases hm with rfl | ⟨ses, ses', shut, _, _, rfl⟩
      · exact h
      · exact h
  | close => exact h
  | release => exact h

/-! ## The invariant -/

/-- `c` was taken from the queue, and while the slot holds it `last_ts` is at `x`
milliseconds or later. -/
structure Waits (a : NbSysArgs) (c : Nat) (x : Int) (s : TcpClient β) : Prop where
  taken : c < s.loop.next ∧ c ∉ s.loop.queue
  last : s.ctx = some c → x ≤ s.lastTs.ms
  inRange : s.lastTs.InRange

/-- Every step keeps the wait. -/
theorem Waits.step {x : Int} {e : ClientEvent} (h : Waits a c x s) (he : e.Clocked)
    (hs : Step a B b₀ s e s') : Waits a c x s' := by
  have hrange := inRange_step he h.inRange hs
  obtain ⟨⟨hlt, hq⟩, hlast, hin⟩ := h
  cases hs with
  | connected ht =>
      refine ⟨⟨Nat.lt_succ_of_lt hlt, fun hc => ?_⟩, hlast, hrange⟩
      rcases List.mem_cons.mp hc with rfl | hc
      · exact Nat.lt_irrefl _ hlt
      · exact hq hc
  | @add d ts nodelay hsend hd =>
      -- the context that is added is another one
      have hne : d ≠ c := fun hdc => hq (hdc ▸ hd)
      have hq' : c ∉ (s.loop.add d hd).queue := fun hc => hq (List.mem_of_mem_erase hc)
      cases nodelay with
      | true => exact ⟨⟨hlt, hq'⟩, fun hctx => absurd (Option.some.inj hctx) hne, hrange⟩
      | false => exact ⟨⟨hlt, hq'⟩, hlast, hrange⟩
  | @timer ts hsend =>
      have hts := he ts rfl
      rcases onTimer_cases a ts s with ⟨_, h⟩ | h | ⟨d, _, _, hms, h⟩
      · rw [h]
        exact ⟨⟨hlt, hq⟩, hlast, hin⟩
      · rw [h]
        exact ⟨⟨hlt, hq⟩, hlast, hin⟩
      · rw [elapsedMs_eq hts.nsec hin.nsec] at hms
        rw [h] at hrange ⊢
        refine ⟨⟨hlt, hq⟩, fun hctx => ?_, hrange⟩
        have hx := hlast hctx
        show x ≤ ts.ms
        omega
  | send _ _ _ hsend =>
      obtain ⟨m, datas, buf, _, _, _, ⟨_, rfl⟩ | ⟨_, rfl⟩⟩ := sendOne_cases hsend
      · exact ⟨⟨hlt, hq⟩, hlast, hrange⟩
      · exact ⟨⟨hlt, hq⟩, hlast, hrange⟩
  | roundDone => exact ⟨⟨hlt, hq⟩, hlast, hrange⟩
  | message _ _ hm =>
      rcases onMessage_cases hm with rfl | ⟨ses, ses', shut, _, _, rfl⟩
      · exact ⟨⟨hlt, hq⟩, hlast, hrange⟩
      · exact ⟨⟨hlt, hq⟩, hlast, hrange⟩
  | close => exact ⟨⟨hlt, hq⟩, fun hctx => (nomatch hctx), hrange⟩
  | release => exact ⟨⟨hlt, hq⟩, hlast, hrange⟩

/-- While it waits, the next attempt is an interval after `x`. -/
theorem Waits.noAttemptBefore {x : Int} (h : Waits a c x s) :
    NoAttemptBefore a B b₀ c (x + a.roundIntervalMs.toNat) s := by
  intro es s' t s'' hrun hes ht hatt
  have h' : Waits a c x s' :=
    hrun.invariant_of_forall (P := ClientEvent.Clocked) (fun _ _ _ he h hs => h.step he hs) hes h
  have hx := h'.last hatt.ctx
  obtain ⟨hlate, _⟩ := hatt.late ht.nsec h'.inRange.nsec
  omega

/-- A context that is added begins to wait. -/
theorem waits_of_add (hslot : Slot s) (hin : s.lastTs.InRange) (ht : t.IsReading)
    {nodelay : Bool} (hs : Step a B b₀ s (.add c t nodelay) s') :
    Waits a c (t.ms + 1000 * a.cliWait.toNat) s' := by
  cases hs with
  | add hsend hc =>
      have hlt : c < s.loop.next := EventLoop.lt_of_queue hc
      have hq : c ∉ (s.loop.add c hc).queue := fun h =>
        (List.Nodup.mem_erase_iff s.loop.nodup_queue).mp h |>.1 rfl
      cases nodelay with
      | true =>
          refine ⟨⟨hlt, hq⟩, fun _ => ?_, ht.wait a.cliWait⟩
          show t.tvSec * 1000 + t.tvNsec / 1000000 + 1000 * a.cliWait.toNat ≤
            (t.tvSec + a.cliWait.toNat) * 1000 + t.tvNsec / 1000000
          omega
      | false =>
          refine ⟨⟨hlt, hq⟩, fun hctx => ?_, hin⟩
          exact absurd (hslot.slot c hctx) (EventLoop.not_live_of_queue hc)

/-- A round that is attempted begins the wait for the next one. -/
theorem Attempt.waits (h : Attempt a B b₀ c t s s') (hslot : Slot s) (hin : s.lastTs.InRange)
    (ht : t.IsReading) : Waits a c t.ms s' := by
  obtain ⟨_, hlast, _, hloop⟩ := h.late ht.nsec hin.nsec
  have hlive : c ∈ s.loop.live := hslot.slot c h.ctx
  refine ⟨⟨?_, ?_⟩, fun _ => ?_, ?_⟩
  · rw [hloop]
    exact EventLoop.lt_of_live hlive
  · rw [hloop]
    exact fun hq => EventLoop.not_live_of_queue hq hlive
  · exact Int.le_of_eq (congrArg Timespec.ms hlast.symm)
  · rw [hlast]
    exact ht.inRange

/-- In every run: after a context was added, no round is attempted on it before
its wait and an interval have passed; after a round was attempted, none is
before an interval has passed; a timer call that begins no round changes neither
`last_ts` nor `round_index` nor the table; and no operation overflows. -/
theorem pacing_of_run {ts : Timespec} {T : Bytes} {es : List ClientEvent}
    (hrun : Run (Step a B b₀) (start ts T) es s) (hts : ts.IsReading)
    (hes : ∀ e ∈ es, e.Clocked) :
    (∀ c t nodelay s', Step a B b₀ s (.add c t nodelay) s' → t.IsReading →
      NoAttemptBefore a B b₀ c (t.ms + 1000 * a.cliWait.toNat + a.roundIntervalMs.toNat) s') ∧
    (∀ c t s', Attempt a B b₀ c t s s' → t.IsReading →
      NoAttemptBefore a B b₀ c (t.ms + a.roundIntervalMs.toNat) s') ∧
    (∀ t s', Step a B b₀ s (.timer t) s' → s'.sending = none →
      s'.lastTs = s.lastTs ∧ s'.roundIndex = s.roundIndex ∧ s'.datas = s.datas) ∧
    (∀ t : Timespec, t.IsReading →
      elapsedMsChecked t s.lastTs = some (elapsedMs t s.lastTs) ∧
      waitChecked t a.cliWait = some ⟨t.tvSec + a.cliWait.toNat, t.tvNsec⟩) := by
  have hslot : Slot s := slot_of_run hrun
  have hin : s.lastTs.InRange :=
    hrun.invariant_of_forall (I := fun s => s.lastTs.InRange) (P := ClientEvent.Clocked)
      (fun _ _ _ he h hs => inRange_step he h hs) hes hts.inRange
  refine ⟨?_, ?_, ?_, ?_⟩
  · intro c t nodelay s' hadd ht
    exact (waits_of_add hslot hin ht hadd).noAttemptBefore
  · intro c t s' hatt ht
    exact (hatt.waits hslot hin ht).noAttemptBefore
  · intro t s' hstep hidle
    cases hstep with
    | timer hs => exact onTimer_idle hidle
  · intro t ht
    exact ⟨elapsedMsChecked_eq ht hin, waitChecked_eq ht a.cliWait⟩

end Steps

/-- Two rounds of one message, half a second apart, after a wait of two seconds. -/
def twoRounds : NbSysArgs := ⟨1, 2, 1, 500, 16, 2⟩

/-- The buffer of a new session. -/
def noBytes : Ring UInt8 netBenchTcpBufSize := emptyRing netBenchTcpBufSize fun _ => 0

/-- The write of the first round fails, and a later timer call attempts the round
again: not before 500 ms are over. -/
theorem paced_after_failed_write : ∃ s₁ s₂ s₃ s₄ : TcpClient (Ring UInt8 netBenchTcpBufSize),
    Step twoRounds (ringBuffer _) noBytes (start ⟨5, 0⟩ (List.replicate 32 0))
      (.add 0 ⟨5, 0⟩ true) s₁ ∧
    NoAttemptBefore twoRounds (ringBuffer _) noBytes 0 (5000 + 2000 + 500) s₁ ∧
    Attempt twoRounds (ringBuffer _) noBytes 0 ⟨7, 600000000⟩ s₁ s₂ ∧
    NoAttemptBefore twoRounds (ringBuffer _) noBytes 0 (7600 + 500) s₂ ∧
    Step twoRounds (ringBuffer _) noBytes s₂ (.send .error) s₃ ∧
    Attempt twoRounds (ringBuffer _) noBytes 0 ⟨8, 100000000⟩ s₃ s₄ := by
  have hts : Timespec.IsReading ⟨5, 0⟩ := ⟨by decide, by decide⟩
  have hts' : Timespec.IsReading ⟨7, 600000000⟩ := ⟨by decide, by decide⟩
  have hclocked : ∀ e ∈ [ClientEvent.add 0 ⟨5, 0⟩ true], e.Clocked := by
    intro e he t ht
    rw [List.mem_singleton.mp he] at ht
    exact Option.some.inj ht ▸ hts
  obtain ⟨s₁, s₂, s₃, s₄, hadd, hatt, hsend, hatt'⟩ :
      ∃ s₁ s₂ s₃ s₄ : TcpClient (Ring UInt8 netBenchTcpBufSize),
        Step twoRounds (ringBuffer _) noBytes (start ⟨5, 0⟩ (List.replicate 32 0))
          (.add 0 ⟨5, 0⟩ true) s₁ ∧
        Attempt twoRounds (ringBuffer _) noBytes 0 ⟨7, 600000000⟩ s₁ s₂ ∧
        Step twoRounds (ringBuffer _) noBytes s₂ (.send .error) s₃ ∧
        Attempt twoRounds (ringBuffer _) noBytes 0 ⟨8, 100000000⟩ s₃ s₄ :=
    ⟨_, _, _, _, .add rfl List.mem_cons_self, ⟨.timer rfl, rfl, by decide⟩,
      .send rfl (by decide) rfl rfl, .timer rfl, rfl, by decide⟩
  refine ⟨s₁, s₂, s₃, s₄, hadd, ?_, hatt, ?_, hsend, hatt'⟩
  · exact (pacing_of_run (.nil _) hts (fun _ h => nomatch h)).1 0 ⟨5, 0⟩ true s₁ hadd hts
  · exact (pacing_of_run (.single hadd) hts hclocked).2.1 0 ⟨7, 600000000⟩ s₂ hatt hts'

end TcpClient

end NetBench

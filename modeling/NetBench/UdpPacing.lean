/-
# `NetBench.UdpPacing` — when the UDP client begins a round

`elapsed_ms` is an `int64_t` in the TCP client and a `uint32_t` in the UDP client.
With `e` the difference of the two readings in milliseconds and `I` the interval,

    TCP begins a round  ⟺  I ≤ e                    (`TcpClient.begins_iff`)
    UDP begins a round  ⟺  I ≤ e mod 2³²            (`UdpClient.begins_iff`)

so the two agree for `0 ≤ e < 2³²`.  Outside, the remainder can be too large, after
the clock was stepped back, or too small, after 49 days (`paces_alike_iff`).
-/
import NetBench.Pacing
import NetBench.UdpClient

namespace NetBench

open Lib

/-! ## The two decisions -/

/-- For a difference of `e` milliseconds, its remainder decides as `e` does. -/
def WrapHarmless (interval : UInt32) (e : Int) : Prop :=
  (e < 0 → e % 2 ^ 32 < interval.toNat) ∧ (2 ^ 32 ≤ e → interval.toNat ≤ e % 2 ^ 32)

/-- A client between two rounds, with a context and rounds left. -/
def TcpClient.Ready {β : Type} (a : NbSysArgs) (s : TcpClient β) : Prop :=
  s.sending = none ∧ s.roundIndex < a.roundNum ∧ s.ctx ≠ none

def UdpClient.Ready (a : NbSysArgs) (s : UdpClient) : Prop :=
  s.sending = none ∧ s.roundIndex < a.roundNum ∧ s.ctx ≠ none

theorem TcpClient.begins_iff {β : Type} {a : NbSysArgs} {s : TcpClient β} (h : s.Ready a)
    (ts : Timespec) :
    (TcpClient.onTimer a ts s).sending ≠ none ↔
      (a.roundIntervalMs.toNat : Int) ≤ elapsedMs ts s.lastTs := by
  obtain ⟨hs, hr, hc⟩ := h
  unfold TcpClient.onTimer
  rw [if_neg (UInt32.not_le.mpr hr), if_neg hc]
  by_cases he : elapsedMs ts s.lastTs < a.roundIntervalMs.toNat
  · rw [if_pos he]
    exact iff_of_false (fun h => h hs) (Int.not_le.mpr he)
  · rw [if_neg he]
    exact iff_of_true (fun h => nomatch h) (Int.not_lt.mp he)

theorem toNat_udpElapsedMs (ts last : Timespec) :
    ((udpElapsedMs ts last).toNat : Int) = elapsedMs ts last % 2 ^ 32 := by
  have h : (udpElapsedMs ts last).toNat = (elapsedMs ts last % 2 ^ 32).toNat % 2 ^ 32 := rfl
  rw [h]
  omega

theorem interval_le_udpElapsedMs {interval : UInt32} {ts last : Timespec} :
    interval ≤ udpElapsedMs ts last ↔ (interval.toNat : Int) ≤ elapsedMs ts last % 2 ^ 32 := by
  rw [UInt32.le_iff_toNat_le, ← toNat_udpElapsedMs]
  exact Int.ofNat_le.symm

theorem UdpClient.begins_iff {a : NbSysArgs} {s : UdpClient} (h : s.Ready a) (ts : Timespec) :
    (UdpClient.onTimer a ts s).sending ≠ none ↔
      (a.roundIntervalMs.toNat : Int) ≤ elapsedMs ts s.lastTs % 2 ^ 32 := by
  obtain ⟨hs, hr, hc⟩ := h
  rw [← interval_le_udpElapsedMs]
  unfold UdpClient.onTimer
  rw [if_neg (UInt32.not_le.mpr hr), if_neg hc]
  by_cases he : udpElapsedMs ts s.lastTs < a.roundIntervalMs
  · rw [if_pos he]
    exact iff_of_false (fun h => h hs) (UInt32.not_le.mpr he)
  · rw [if_neg he]
    exact iff_of_true (fun h => nomatch h) (UInt32.not_lt.mp he)

/-- The remainder decides as the difference itself exactly where it is harmless. -/
theorem wrapHarmless_iff (interval : UInt32) (e : Int) :
    ((interval.toNat : Int) ≤ e % 2 ^ 32 ↔ (interval.toNat : Int) ≤ e) ↔
      WrapHarmless interval e := by
  have hlt := interval.toNat_lt
  unfold WrapHarmless
  constructor
  · intro h
    exact ⟨fun he => by omega, fun he => h.mpr (by omega)⟩
  · rintro ⟨hneg, hlarge⟩
    constructor
    · intro h
      by_cases he : e < 0
      · have := hneg he
        omega
      · omega
    · intro h
      by_cases he : 2 ^ 32 ≤ e
      · exact hlarge he
      · omega

/-! ## Runs of the UDP client -/

/-- An event in which the clock, if it was read, gave a reading. -/
def UdpEvent.Clocked : UdpEvent → Prop
  | .timer ts => ts.IsReading
  | _ => True

namespace UdpClient

variable (a : NbSysArgs)

/-- The event is no timer call that decides about a round by a harmful remainder. -/
def Unwrapped (s : UdpClient) : UdpEvent → Prop
  | .timer ts => s.Ready a → WrapHarmless a.roundIntervalMs (ts.ms - s.lastTs.ms)
  | _ => True

/-- A step with a clock reading that meets the condition. -/
structure PacedStep (s : UdpClient) (e : UdpEvent) (s' : UdpClient) : Prop where
  step : Step a s e s'
  clocked : e.Clocked
  unwrapped : Unwrapped a s e

/-- A timer call at `t` begins a round. -/
structure Begins (t : Timespec) (s s' : UdpClient) : Prop where
  paced : PacedStep a s (.timer t) s'
  began : s'.sending ≠ none

section Steps

variable {a} {s s' : UdpClient} {t : Timespec}

/-- A timer call begins no round, or begins one an interval after `last_ts` and
sets `last_ts`. -/
theorem PacedStep.timer (h : PacedStep a s (.timer t) s') (hlast : s.lastTs.Normal) :
    (s'.lastTs = s.lastTs ∧ s'.sending = none) ∨
    (s'.lastTs = t ∧ t.Normal ∧ s.lastTs.ms + a.roundIntervalMs.toNat ≤ t.ms) := by
  obtain ⟨hstep, hclocked, hun⟩ := h
  have ht : t.Normal := Timespec.IsReading.nsec hclocked
  cases hstep with
  | timer hs =>
      rcases onTimer_cases a t s with ⟨_, h⟩ | h | ⟨hr, hc, hms, h⟩
      · rw [h]
        exact Or.inl ⟨rfl, hs⟩
      · rw [h]
        exact Or.inl ⟨rfl, hs⟩
      · rw [interval_le_udpElapsedMs, elapsedMs_eq ht hlast] at hms
        have hwrap : WrapHarmless a.roundIntervalMs (t.ms - s.lastTs.ms) := hun ⟨hs, hr, hc⟩
        have hle := ((wrapHarmless_iff _ _).mpr hwrap).mp hms
        rw [h]
        exact Or.inr ⟨rfl, ht, by omega⟩

/-- `last_ts` is at `x` milliseconds or later. -/
structure LastFrom (x : Int) (s : UdpClient) : Prop where
  le : x ≤ s.lastTs.ms
  normal : s.lastTs.Normal

/-- Every step keeps it. -/
theorem LastFrom.step {x : Int} {e : UdpEvent} (h : LastFrom x s) (hs : PacedStep a s e s') :
    LastFrom x s' := by
  have hsame : s'.lastTs = s.lastTs → LastFrom x s' := by
    rintro heq
    refine ⟨?_, ?_⟩
    · rw [heq]
      exact h.le
    · rw [heq]
      exact h.normal
  cases hs.step with
  | add => exact hsame rfl
  | @timer ts _ =>
      rcases hs.timer h.normal with ⟨hlast, _⟩ | ⟨hlast, hts, hlate⟩
      · exact hsame hlast
      · have hle := h.le
        refine ⟨?_, ?_⟩
        · rw [hlast]
          omega
        · rw [hlast]
          exact hts
  | send _ _ _ hsend =>
      obtain ⟨m, datas, buf, _, _, _, ⟨_, rfl⟩ | ⟨_, rfl⟩⟩ := sendOne_inv hsend
      · exact hsame rfl
      · exact hsame rfl
  | roundDone => exact hsame rfl
  | close => exact hsame rfl
  | release => exact hsame rfl

theorem LastFrom.run {x : Int} {es : List UdpEvent} (h : LastFrom x s)
    (hrun : Run (PacedStep a) s es s') : LastFrom x s' :=
  hrun.invariant (fun _ _ _ h hs => h.step hs) h

/-- A round that begins is an interval after `last_ts`, which is not before it afterwards. -/
theorem Begins.late (h : Begins a t s s') (hlast : s.lastTs.Normal) :
    s.lastTs.ms + a.roundIntervalMs.toNat ≤ t.ms ∧ LastFrom t.ms s' := by
  rcases h.paced.timer hlast with ⟨_, hidle⟩ | ⟨hset, ht, hlate⟩
  · exact absurd hidle h.began
  · refine ⟨hlate, ?_, ?_⟩
    · exact Int.le_of_eq (congrArg Timespec.ms hset.symm)
    · rw [hset]
      exact ht

end Steps

end UdpClient

/-- With equal values the two clients take the same decision, the one that the
difference of the readings says, if and only if its remainder is harmless; and in every
run of the UDP client in which it is, two rounds are an interval apart. -/
theorem paces_alike_iff {β : Type} (a : NbSysArgs) :
    (∀ (s : UdpClient) (s' : TcpClient β) (ts : Timespec), s.Ready a → s'.Ready a →
      s'.lastTs = s.lastTs → ts.IsReading → s.lastTs.IsReading →
      ((((UdpClient.onTimer a ts s).sending ≠ none ↔ (TcpClient.onTimer a ts s').sending ≠ none) ∧
        ((UdpClient.onTimer a ts s).sending ≠ none ↔
          (a.roundIntervalMs.toNat : Int) ≤ ts.ms - s.lastTs.ms)) ↔
        WrapHarmless a.roundIntervalMs (ts.ms - s.lastTs.ms))) ∧
    (∀ (ts : Timespec) (T : Bytes) (es : List UdpEvent) (s₁ : UdpClient), ts.IsReading →
      Run (UdpClient.PacedStep a) (UdpClient.start ts T) es s₁ →
      ∀ (t : Timespec) (s₂ : UdpClient), UdpClient.Begins a t s₁ s₂ →
      ∀ (fs : List UdpEvent) (s₃ : UdpClient), Run (UdpClient.PacedStep a) s₂ fs s₃ →
      ∀ (t' : Timespec) (s₄ : UdpClient), UdpClient.Begins a t' s₃ s₄ →
        t.ms + a.roundIntervalMs.toNat ≤ t'.ms) := by
  refine ⟨?_, ?_⟩
  · intro s s' ts hu ht hlast hts hts'
    rw [UdpClient.begins_iff hu, TcpClient.begins_iff ht, hlast,
      elapsedMs_eq hts.nsec hts'.nsec, and_self_iff]
    exact wrapHarmless_iff _ _
  · intro ts T es s₁ hts hrun t s₂ hbegin fs s₃ hrun' t' s₄ hbegin'
    have hstart : UdpClient.LastFrom ts.ms (UdpClient.start ts T) := ⟨Int.le_refl _, hts.nsec⟩
    have hfirst := (hbegin.late (hstart.run hrun).normal).2
    have hlast := hfirst.run hrun'
    have hlate := (hbegin'.late hlast.normal).1
    have hle := hlast.le
    omega

/-- Two rounds of no message, half a second apart. -/
def emptyRounds : NbSysArgs := ⟨1, 2, 0, 500, 16, 0⟩

/-- A second after `last_ts` both clients begin a round. -/
theorem both_begin_after_a_second :
    (((UdpClient.onTimer emptyRounds ⟨11, 0⟩
        { UdpClient.start ⟨10, 0⟩ [] with ctx := some 0 }).sending ≠ none ↔
      (TcpClient.onTimer emptyRounds ⟨11, 0⟩
        { (TcpClient.start ⟨10, 0⟩ [] : TcpClient Unit) with ctx := some 0 }).sending ≠ none) ∧
    ((UdpClient.onTimer emptyRounds ⟨11, 0⟩
        { UdpClient.start ⟨10, 0⟩ [] with ctx := some 0 }).sending ≠ none ↔
      (500 : Int) ≤ Timespec.ms ⟨11, 0⟩ - Timespec.ms ⟨10, 0⟩)) :=
  ((paces_alike_iff emptyRounds).1 { UdpClient.start ⟨10, 0⟩ [] with ctx := some 0 }
    { (TcpClient.start ⟨10, 0⟩ [] : TcpClient Unit) with ctx := some 0 } ⟨11, 0⟩
    ⟨rfl, by decide, by decide⟩ ⟨rfl, by decide, by decide⟩ rfl ⟨by decide, by decide⟩
    ⟨by decide, by decide⟩).mpr ⟨by decide, by decide⟩

/-- The clock is stepped back by a second: the UDP client begins a round at once, the TCP
client does not. -/
theorem udp_begins_after_step_back : ∃ s₁ s₂ s₃ s₄ : UdpClient,
    Run (UdpClient.Step emptyRounds) (UdpClient.start ⟨10, 0⟩ []) [.add 0] s₁ ∧
    UdpClient.Step emptyRounds s₁ (.timer ⟨11, 0⟩) s₂ ∧ s₂.sending ≠ none ∧
    UdpClient.Step emptyRounds s₂ .roundDone s₃ ∧
    UdpClient.Step emptyRounds s₃ (.timer ⟨10, 0⟩) s₄ ∧ s₄.sending ≠ none ∧
    ¬ Timespec.ms ⟨11, 0⟩ + 500 ≤ Timespec.ms ⟨10, 0⟩ ∧
    ∀ s : TcpClient Unit, s.Ready emptyRounds → s.lastTs = s₃.lastTs →
      (TcpClient.onTimer emptyRounds ⟨10, 0⟩ s).sending = none := by
  refine ⟨_, _, _, _, .single (.add rfl List.mem_cons_self), .timer rfl, by decide,
    .roundDone rfl (by decide), .timer rfl, by decide, by decide, fun s hs hlast => ?_⟩
  by_contra hbegan
  rw [← ne_eq, TcpClient.begins_iff hs, hlast] at hbegan
  exact absurd hbegan (by decide)

end NetBench

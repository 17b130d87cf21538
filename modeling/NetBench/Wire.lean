/-
# `NetBench.Wire` — whole messages on a connection

Every program writes one frame at a time and shuts the context down when a write
was not full.  What a connection has accepted is then whole frames and, at the
end, at most a proper part of one; after that part nothing follows (`Whole`).

    a write of a frame keeps `Whole`                      (`Whole.write`)
    what is cut off such a connection was fully written    (`Whole.received`)
-/
import NetBench.Socket

namespace NetBench

open Lib

/-- The buffer of an event that is a full write on `c`. -/
def Ev.fullWrite (c : Nat) : Ev → Option Bytes
  | .write d buf acc => if d = c ∧ acc = buf then some buf else none
  | _ => none

/-- The buffers that `c` has accepted in full, in order. -/
def fullWrites (log : List Ev) (c : Nat) : List Bytes := log.filterMap (Ev.fullWrite c)

@[simp] theorem fullWrites_append (l l' : List Ev) (c : Nat) :
    fullWrites (l ++ l') c = fullWrites l c ++ fullWrites l' c :=
  List.filterMap_append

/-- Events that write nothing. -/
def NoWrite (l : List Ev) : Prop := ∀ c buf acc, .write c buf acc ∉ l

theorem NoWrite.wire {l : List Ev} (h : NoWrite l) (c : Nat) : wire l c = [] := by
  refine List.flatMap_eq_nil_iff.mpr fun e he => ?_
  cases e with
  | write d buf acc => exact absurd he (h d buf acc)
  | record | assertFailed | exit => rfl

theorem NoWrite.fullWrites {l : List Ev} (h : NoWrite l) (c : Nat) : fullWrites l c = [] := by
  refine List.filterMap_eq_nil_iff.mpr fun e he => ?_
  cases e with
  | write d buf acc => exact absurd he (h d buf acc)
  | record | assertFailed | exit => rfl

/-- Events that are neither a record nor a write. -/
def Quiet (l : List Ev) : Prop := ∀ e ∈ l, (∃ c x, e = .assertFailed c x) ∨ e = .exit

theorem quiet_nil : Quiet [] := fun _ h => nomatch h

theorem Quiet.noWrite {l : List Ev} (h : Quiet l) : NoWrite l := by
  intro c buf acc hmem
  rcases h _ hmem with ⟨_, _, heq⟩ | heq
  · cases heq
  · cases heq

theorem quiet_nbAssert (c : Nat) (x : Assertion) (ok : Bool) : Quiet (nbAssert c x ok) := by
  intro e he
  exact Or.inl ⟨c, x, (mem_nbAssert.mp he).2⟩

theorem Quiet.append {l l' : List Ev} (h : Quiet l) (h' : Quiet l') : Quiet (l ++ l') :=
  fun e he => (List.mem_append.mp he).elim (h e) (h' e)

theorem Quiet.noRecord {l : List Ev} (h : Quiet l) {c : Nat} {r : Record} :
    .record c r ∉ l := by
  intro hmem
  rcases h _ hmem with ⟨_, _, heq⟩ | heq
  · cases heq
  · cases heq

theorem noWrite_nbAssert (c : Nat) (x : Assertion) (ok : Bool) : NoWrite (nbAssert c x ok) := by
  intro d buf acc h
  cases (mem_nbAssert.mp h).2

theorem noWrite_nil : NoWrite [] := fun _ _ _ h => nomatch h

/-- What `c` has accepted after its last full write: nothing, or a proper prefix of a
frame written on `c`, which is then shut down. -/
def Rest (log : List Ev) (shut : List Nat) (c : Nat) (p : Bytes) : Prop :=
  p = [] ∨ c ∈ shut ∧ ∃ f, nbFraming.IsFrame f ∧ .write c f p ∈ log ∧ p <+: f ∧ p ≠ f

theorem Rest.short {log : List Ev} {shut : List Nat} {c : Nat} {p : Bytes}
    (h : Rest log shut c p) : nbFraming.Short p := by
  rcases h with rfl | ⟨_, f, hf, _, hp, hne⟩
  · exact Framing.short_nil
  · exact Framing.short_of_isPrefix hf hp
      (Nat.lt_of_le_of_ne hp.length_le fun hlen => hne (hp.eq_of_length hlen))

theorem Rest.mono {log log' : List Ev} {shut shut' : List Nat} {c : Nat} {p : Bytes}
    (h : Rest log shut c p) (hl : log ⊆ log') (hs : shut ⊆ shut') : Rest log' shut' c p := by
  rcases h with rfl | ⟨hc, f, hf, hw, hp, hne⟩
  · exact Or.inl rfl
  · exact Or.inr ⟨hs hc, f, hf, hl hw, hp, hne⟩

theorem Rest.eq_nil {log : List Ev} {shut : List Nat} {c : Nat} {p : Bytes}
    (h : Rest log shut c p) (hc : c ∉ shut) : p = [] := h.resolve_right fun h => hc h.1

/-- `c` has accepted whole frames and then a `Rest`. -/
def Whole (log : List Ev) (shut : List Nat) (c : Nat) : Prop :=
  (∀ f ∈ fullWrites log c, nbFraming.IsFrame f) ∧
    ∃ p, wire log c = (fullWrites log c).flatten ++ p ∧ Rest log shut c p

theorem whole_nil (shut : List Nat) (c : Nat) : Whole [] shut c := by
  refine ⟨?_, [], rfl, Or.inl rfl⟩
  intro f hf
  cases hf

/-- Events that write nothing, and more contexts shut down. -/
theorem Whole.of_noWrite {log l : List Ev} {shut shut' : List Nat} {c : Nat}
    (h : Whole log shut c) (hl : NoWrite l) (hs : shut ⊆ shut') : Whole (log ++ l) shut' c := by
  obtain ⟨hf, p, hwire, hp⟩ := h
  rw [Whole, fullWrites_append, wire_append, hl.fullWrites, hl.wire, List.append_nil,
    List.append_nil]
  exact ⟨hf, p, hwire, hp.mono (List.subset_append_left _ _) hs⟩

/-- A write of a frame on `d`: nothing is accepted if `d` was shut down, and `d` is shut
down afterwards unless the write was full. -/
theorem Whole.write {log : List Ev} {shut shut' : List Nat} {c d : Nat} {f acc : Bytes}
    (h : Whole log shut c) (hf : nbFraming.IsFrame f) (hpre : acc <+: f)
    (hclosed : d ∈ shut → acc = []) (hs : shut ⊆ shut') (hd : acc ≠ f → d ∈ shut') :
    Whole (log ++ [.write d f acc]) shut' c := by
  obtain ⟨hframes, p, hwire, hp⟩ := h
  have hp' : Rest (log ++ [.write d f acc]) shut' c p := hp.mono (List.subset_append_left _ _) hs
  rw [Whole, fullWrites_append, wire_append]
  by_cases hdc : d = c
  · subst hdc
    have hone : wire [.write d f acc] d = acc := by simp [NetBench.wire, Ev.acceptedOn]
    rw [hone]
    by_cases hfull : acc = f
    · -- a full write: the context was open, so nothing partial precedes it
      have hopen : d ∉ shut := fun hmem => hf.ne_nil (hfull.symm.trans (hclosed hmem))
      have hfw : NetBench.fullWrites [.write d f acc] d = [f] := by
        simp [NetBench.fullWrites, Ev.fullWrite, hfull]
      rw [hfw, hwire, hp.eq_nil hopen]
      refine ⟨?_, [], by simp [hfull], Or.inl rfl⟩
      intro g hg
      rcases List.mem_append.mp hg with hg | hg
      · exact hframes g hg
      · rw [List.mem_singleton.mp hg]
        exact hf
    · have hfw : NetBench.fullWrites [.write d f acc] d = [] := by
        simp [NetBench.fullWrites, Ev.fullWrite, hfull]
      rw [hfw, List.append_nil, hwire]
      by_cases hopen : d ∈ shut
      · rw [hclosed hopen, List.append_nil]
        exact ⟨hframes, p, rfl, hclosed hopen ▸ hp'⟩
      · rw [hp.eq_nil hopen, List.append_nil]
        exact ⟨hframes, acc, rfl, Or.inr ⟨hd hfull, f, hf,
          List.mem_append_right _ List.mem_cons_self, hpre, hfull⟩⟩
  · have hone : wire [.write d f acc] c = [] := by simp [NetBench.wire, Ev.acceptedOn, hdc]
    have hfw : NetBench.fullWrites [.write d f acc] c = [] := by
      simp [NetBench.fullWrites, Ev.fullWrite, hdc]
    rw [hone, hfw, List.append_nil, List.append_nil]
    exact ⟨hframes, p, hwire, hp'⟩

/-- Frames cut off what such a connection has delivered were written in full, in this order. -/
theorem Whole.received {log : List Ev} {shut : List Nat} {c : Nat} (h : Whole log shut c)
    {got t : Bytes} {fs : List Bytes} (hgot : got <+: wire log c)
    (hfs : nbFraming.Reaches got fs t) : fs <+: fullWrites log c := by
  obtain ⟨hframes, p, hwire, hp⟩ := h
  exact hfs.prefix_of_whole hp.short hframes (hwire ▸ hgot)

theorem mem_fullWrites {log : List Ev} {c : Nat} {f : Bytes} :
    f ∈ fullWrites log c ↔ .write c f f ∈ log := by
  rw [fullWrites, List.mem_filterMap]
  constructor
  · rintro ⟨e, he, hf⟩
    cases e with
    | write d buf acc =>
        by_cases hfull : d = c ∧ acc = buf
        · rw [Ev.fullWrite, if_pos hfull, Option.some.injEq] at hf
          obtain ⟨rfl, rfl⟩ := hfull
          exact hf ▸ he
        · rw [Ev.fullWrite, if_neg hfull] at hf
          cases hf
    | record | assertFailed | exit => cases hf
  · intro hmem
    exact ⟨_, hmem, if_pos ⟨rfl, rfl⟩⟩

/-! ## Writers of messages -/

/-- A frame with room for the data, whose length fits an `int`. -/
structure IsMsg (f : Bytes) : Prop where
  isFrame : nbFraming.IsFrame f
  ge : 16 ≤ f.length
  lt : f.length < 2 ^ 31

/-- Only messages are written. -/
def OnlyMsgs (log : List Ev) : Prop := ∀ c f acc, .write c f acc ∈ log → IsMsg f

theorem OnlyMsgs.fullWrites {log : List Ev} (h : OnlyMsgs log) {c : Nat} {f : Bytes}
    (hf : f ∈ fullWrites log c) : IsMsg f := h c f f (mem_fullWrites.mp hf)

/-- Whoever reads from a writer of messages meets no header that wraps. -/
theorem Whole.headersOk {log : List Ev} {shut : List Nat} {c : Nat} (h : Whole log shut c)
    (hmsgs : OnlyMsgs log) : HeadersOk (wire log c) := by
  obtain ⟨hframes, p, hwire, hp⟩ := h
  rw [hwire]
  refine Framing.HeadersIn.flatten ?_ fun f hf => ⟨hframes f hf, ?_⟩
  · rcases hp with rfl | ⟨_, f, hf, hw, hpre, _⟩
    · exact Framing.headersIn_nil
    · have hlt := (hmsgs c f p hw).lt
      have hone : HeadersOk (f ++ []) := Framing.HeadersIn.cons hf (by omega) Framing.headersIn_nil
      rw [List.append_nil] at hone
      exact hone.of_isPrefix hpre
  · have := (hmsgs.fullWrites hf).lt
    omega

end NetBench

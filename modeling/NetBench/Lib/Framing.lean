/-
# `NetBench.Lib.Framing` — greedy splitting of a stream into announced frames

A frame starts with a header of fixed length; the header announces the length
of the whole frame.  Splitting a stream greedily cuts off complete frames from
the left until what is left is too short.  `Splits` is that splitting as a
relation, `split` as a function; the relation is what proofs use.

    Splits l fs t  ⟹  the function finds it                         (`split_eq`)
    Splits l fs t, Splits (t ++ r) gs u  ⟹  Splits (l ++ r) (fs ++ gs) u   (`Splits.append`)
    what was cut off a prefix of whole frames is a prefix of them     (`Reaches.prefix_of_whole`)
-/
import Mathlib.Data.List.Basic
import Mathlib.Tactic.Common

namespace NetBench.Lib

variable {α : Type*}

/-- Length-prefixed frames over `α`: how long the header is and which total
length it announces. -/
structure Framing (α : Type*) where
  hdrLen : Nat
  hdrLen_pos : 0 < hdrLen
  size : List α → Nat
  size_ge : ∀ h, hdrLen ≤ size h

namespace Framing

variable (F : Framing α)

/-- The length announced by the header at the front of `l`. -/
def announced (l : List α) : Nat := F.size (l.take F.hdrLen)

/-- `f` is exactly one frame. -/
def IsFrame (f : List α) : Prop := F.announced f = f.length

/-- No complete frame at the front of `l`. -/
def Short (l : List α) : Prop := l.length < F.hdrLen ∨ l.length < F.announced l

instance (l : List α) : Decidable (F.IsFrame l) := inferInstanceAs (Decidable (_ = _))

instance (l : List α) : Decidable (F.Short l) := inferInstanceAs (Decidable (_ ∨ _))

variable {F}

theorem IsFrame.hdrLen_le {f : List α} (h : F.IsFrame f) : F.hdrLen ≤ f.length :=
  h ▸ F.size_ge _

theorem IsFrame.ne_nil {f : List α} (h : F.IsFrame f) : f ≠ [] := by
  intro hf
  have := h.hdrLen_le
  have := F.hdrLen_pos
  simp_all

theorem announced_append {l : List α} (h : F.hdrLen ≤ l.length) (r : List α) :
    F.announced (l ++ r) = F.announced l := by
  simp only [announced, List.take_append_of_le_length h]

theorem announced_congr {l m : List α} (h : F.hdrLen ≤ l.length) (hp : l <+: m) :
    F.announced l = F.announced m := by
  obtain ⟨r, rfl⟩ := hp
  exact (announced_append h r).symm

theorem short_nil : F.Short [] := Or.inl F.hdrLen_pos

theorem not_short {l : List α} (h : ¬ F.Short l) :
    F.hdrLen ≤ l.length ∧ F.announced l ≤ l.length := by
  simpa [Short, not_or] using h

/-- A proper prefix of a frame holds no complete frame. -/
theorem short_of_isPrefix {p f : List α} (hf : F.IsFrame f) (hp : p <+: f)
    (hlt : p.length < f.length) : F.Short p := by
  by_cases h : p.length < F.hdrLen
  · exact Or.inl h
  · refine Or.inr ?_
    rw [announced_congr (Nat.le_of_not_lt h) hp, hf]
    exact hlt

/-- The frame at the front of a list that is not short. -/
theorem isFrame_take {l : List α} (h : ¬ F.Short l) : F.IsFrame (l.take (F.announced l)) := by
  obtain ⟨_, hann⟩ := not_short h
  have hlen : (l.take (F.announced l)).length = F.announced l := by simp [hann]
  have hhdr : F.hdrLen ≤ (l.take (F.announced l)).length := by rw [hlen]; exact F.size_ge _
  exact (announced_congr hhdr (List.take_prefix _ _)).trans hlen.symm

/-- Two frames at the front of one list are equal. -/
theorem IsFrame.eq_of_isPrefix {f g l : List α} (hf : F.IsFrame f) (hg : F.IsFrame g)
    (hfl : f <+: l) (hgl : g <+: l) : f = g := by
  have hlen : f.length = g.length := by
    rw [← hf, ← hg, announced_congr hf.hdrLen_le hfl, announced_congr hg.hdrLen_le hgl]
  exact (List.prefix_of_prefix_length_le hfl hgl (Nat.le_of_eq hlen)).eq_of_length hlen

/-! ## Splitting, as a relation -/

/-- Cutting the frames `fs` off the front of `l` leaves `t`. -/
structure Reaches (F : Framing α) (l : List α) (fs : List (List α)) (t : List α) : Prop where
  eq : l = fs.flatten ++ t
  frames : ∀ f ∈ fs, F.IsFrame f

/-- `fs` are the complete frames of `l` and `t` is what is left. -/
structure Splits (F : Framing α) (l : List α) (fs : List (List α)) (t : List α) : Prop
    extends Reaches F l fs t where
  short : F.Short t

theorem Reaches.nil (l : List α) : F.Reaches l [] l := ⟨rfl, by simp⟩

theorem Reaches.append_right {l t : List α} {fs : List (List α)} (h : F.Reaches l fs t)
    (r : List α) : F.Reaches (l ++ r) fs (t ++ r) :=
  ⟨by rw [h.eq, List.append_assoc], h.frames⟩

theorem Reaches.trans {l t u : List α} {fs gs : List (List α)} (h : F.Reaches l fs t)
    (h' : F.Reaches t gs u) : F.Reaches l (fs ++ gs) u := by
  refine ⟨by rw [h.eq, h'.eq, List.flatten_append, List.append_assoc], fun f hf => ?_⟩
  rcases List.mem_append.mp hf with hf | hf
  · exact h.frames f hf
  · exact h'.frames f hf

/-- One more frame. -/
theorem Reaches.snoc {l f t : List α} {fs : List (List α)} (h : F.Reaches l fs (f ++ t))
    (hf : F.IsFrame f) : F.Reaches l (fs ++ [f]) t :=
  h.trans ⟨by simp, by simpa using hf⟩

/-- Cutting can go on after more of the stream has arrived: where the first
cut stopped, the second one continues. -/
theorem Splits.append {l r t u : List α} {fs gs : List (List α)} (h : F.Splits l fs t)
    (h' : F.Splits (t ++ r) gs u) : F.Splits (l ++ r) (fs ++ gs) u :=
  { (h.append_right r).trans h'.toReaches with short := h'.short }

/-- Frames that are cut off a prefix of `ws.flatten ++ p`, with `ws` whole
frames and `p` short, are the first of `ws`. -/
theorem Reaches.prefix_of_whole {p : List α} (hp : F.Short p) :
    ∀ {fs ws : List (List α)} {l t : List α}, F.Reaches l fs t → (∀ w ∈ ws, F.IsFrame w) →
      l <+: ws.flatten ++ p → fs <+: ws
  | [], _, _, _, _, _, _ => List.nil_prefix
  | f :: fs, [], l, t, h, _, hl => by
      -- the frame `f` would fit into the short rest
      exfalso
      have hf : F.IsFrame f := h.frames f List.mem_cons_self
      have hfp : f <+: p :=
        (List.prefix_append f (fs.flatten ++ t)).trans (by simpa [h.eq] using hl)
      have hle := hfp.length_le
      have hann := announced_congr hf.hdrLen_le hfp
      have := hf.hdrLen_le
      rcases hp with hp | hp
      · omega
      · rw [← hann, hf] at hp; omega
  | f :: fs, w :: ws, l, t, h, hws, hl => by
      have hf : F.IsFrame f := h.frames f List.mem_cons_self
      have hw : F.IsFrame w := hws w List.mem_cons_self
      have hcat : f ++ (fs.flatten ++ t) <+: w ++ (ws.flatten ++ p) := by
        simpa [h.eq, List.append_assoc] using hl
      have hfw : f = w :=
        hf.eq_of_isPrefix hw ((List.prefix_append f _).trans hcat) (List.prefix_append w _)
      subst hfw
      refine List.cons_prefix_cons.mpr ⟨rfl, ?_⟩
      exact Reaches.prefix_of_whole hp
        ⟨rfl, fun g hg => h.frames g (List.mem_cons_of_mem _ hg)⟩
        (fun g hg => hws g (List.mem_cons_of_mem _ hg))
        ((List.prefix_append_right_inj f).mp hcat)

/-- The splitting of a stream is unique. -/
theorem Splits.unique {l t u : List α} {fs gs : List (List α)} (h : F.Splits l fs t)
    (h' : F.Splits l gs u) : fs = gs ∧ t = u := by
  have h₁ : fs <+: gs :=
    h.toReaches.prefix_of_whole h'.short h'.frames (h'.eq ▸ List.prefix_rfl)
  have h₂ : gs <+: fs :=
    h'.toReaches.prefix_of_whole h.short h.frames (h.eq ▸ List.prefix_rfl)
  have hfs : fs = gs := h₁.eq_of_length (Nat.le_antisymm h₁.length_le h₂.length_le)
  subst hfs
  exact ⟨rfl, List.append_cancel_left (h.eq.symm.trans h'.eq)⟩

/-! ## Splitting, as a function -/

/-- Cut off at most `k` frames. -/
def splitUpTo (F : Framing α) : Nat → List α → List (List α) × List α
  | 0, l => ([], l)
  | k + 1, l =>
      if F.Short l then ([], l)
      else
        let r := splitUpTo F k (l.drop (F.announced l))
        (l.take (F.announced l) :: r.1, r.2)

/-- The complete frames of `l` and what is left; a frame is not empty, so the
length of `l` bounds their number. -/
def split (F : Framing α) (l : List α) : List (List α) × List α := splitUpTo F l.length l

/-- The complete frames of `l`. -/
def frames (F : Framing α) (l : List α) : List (List α) := (F.split l).1

/-- What is left of `l` when its complete frames are cut off. -/
def tail (F : Framing α) (l : List α) : List α := (F.split l).2

theorem splitUpTo_spec : ∀ (k : Nat) (l : List α), l.length ≤ k →
    F.Splits l (F.splitUpTo k l).1 (F.splitUpTo k l).2
  | 0, l, h => by
      have hl : l = [] := List.eq_nil_of_length_eq_zero (Nat.le_zero.mp h)
      subst hl
      exact { Reaches.nil [] with short := short_nil }
  | k + 1, l, h => by
      by_cases hs : F.Short l
      · simp only [splitUpTo, if_pos hs]
        exact { Reaches.nil l with short := hs }
      · simp only [splitUpTo, if_neg hs]
        have hpos : 0 < F.announced l := Nat.lt_of_lt_of_le F.hdrLen_pos (F.size_ge _)
        have hrest := splitUpTo_spec k (l.drop (F.announced l))
          (by rw [List.length_drop]; omega)
        have hcut : F.Reaches l [l.take (F.announced l)] (l.drop (F.announced l)) :=
          ⟨by simp, by simpa using isFrame_take hs⟩
        exact { hcut.trans hrest.toReaches with short := hrest.short }

theorem split_spec (l : List α) : F.Splits l (F.frames l) (F.tail l) :=
  splitUpTo_spec l.length l (Nat.le_refl _)

/-- The function finds the splitting. -/
theorem Splits.split_eq {l t : List α} {fs : List (List α)} (h : F.Splits l fs t) :
    F.frames l = fs ∧ F.tail l = t :=
  (split_spec l).unique h

/-! ## Properties of every header reached -/

/-- Every header at which the splitting of `l` arrives, the one of the
incomplete frame included, announces a length that satisfies `P`. -/
def HeadersIn (F : Framing α) (P : Nat → Prop) (l : List α) : Prop :=
  ∀ fs t, F.Reaches l fs t → F.hdrLen ≤ t.length → P (F.announced t)

theorem HeadersIn.of_isPrefix {P : Nat → Prop} {l m : List α} (h : F.HeadersIn P m)
    (hp : l <+: m) : F.HeadersIn P l := by
  obtain ⟨r, rfl⟩ := hp
  intro fs t ht hlen
  rw [← announced_append hlen r]
  exact h fs (t ++ r) (ht.append_right r) (by rw [List.length_append]; omega)

theorem HeadersIn.rest {P : Nat → Prop} {l t : List α} {fs : List (List α)}
    (h : F.HeadersIn P l) (ht : F.Reaches l fs t) : F.HeadersIn P t :=
  fun gs u hu hlen => h (fs ++ gs) u (ht.trans hu) hlen

/-- Nothing can be cut off a short list. -/
theorem Reaches.of_short {l t : List α} {fs : List (List α)} (hl : F.Short l)
    (h : F.Reaches l fs t) : fs = [] ∧ t = l := by
  have hpre : l <+: ([] : List (List α)).flatten ++ l := List.prefix_rfl
  have hfs : fs = [] := List.prefix_nil.mp (h.prefix_of_whole hl (by simp) hpre)
  subst hfs
  exact ⟨rfl, by simpa using h.eq.symm⟩

theorem headersIn_of_short {P : Nat → Prop} {l : List α} (hl : F.Short l)
    (h : P (F.announced l)) : F.HeadersIn P l := by
  intro fs t ht _
  rw [(ht.of_short hl).2]
  exact h

/-- A frame in front adds its own header to those reached. -/
theorem HeadersIn.cons {P : Nat → Prop} {f l : List α} (hf : F.IsFrame f) (hP : P f.length)
    (h : F.HeadersIn P l) : F.HeadersIn P (f ++ l) := by
  intro fs t ht hlen
  cases fs with
  | nil =>
      have htl : t = f ++ l := by simpa using ht.eq.symm
      rw [htl, announced_append hf.hdrLen_le, hf]
      exact hP
  | cons g gs =>
      have hcat : f ++ l = g ++ (gs.flatten ++ t) := by
        simpa [List.append_assoc] using ht.eq
      have hfg : f = g := hf.eq_of_isPrefix (ht.frames g List.mem_cons_self)
        (List.prefix_append f l) (hcat ▸ List.prefix_append g _)
      subst hfg
      exact h gs t ⟨List.append_cancel_left hcat,
        fun x hx => ht.frames x (List.mem_cons_of_mem _ hx)⟩ hlen

theorem headersIn_nil {P : Nat → Prop} : F.HeadersIn P [] := by
  intro fs t ht hlen
  rw [(ht.of_short short_nil).2] at hlen
  exact absurd hlen (Nat.not_le_of_lt F.hdrLen_pos)

/-- Whole frames in front add their own headers. -/
theorem HeadersIn.flatten {P : Nat → Prop} {l : List α} (hl : F.HeadersIn P l) :
    ∀ {fs : List (List α)}, (∀ f ∈ fs, F.IsFrame f ∧ P f.length) →
      F.HeadersIn P (fs.flatten ++ l)
  | [], _ => hl
  | f :: fs, h => by
      obtain ⟨hf, hP⟩ := h f List.mem_cons_self
      rw [List.flatten_cons, List.append_assoc]
      exact HeadersIn.cons hf hP (hl.flatten fun g hg => h g (List.mem_cons_of_mem _ hg))

/-- A stream of whole frames has their headers only. -/
theorem headersIn_of_frames {P : Nat → Prop} {fs : List (List α)} {l : List α}
    (h : ∀ f ∈ fs, F.IsFrame f ∧ P f.length) (hl : l <+: fs.flatten) : F.HeadersIn P l :=
  (List.append_nil fs.flatten ▸ headersIn_nil.flatten h).of_isPrefix hl

/-- Nothing is left of whole frames. -/
theorem splits_flatten {fs : List (List α)} (h : ∀ f ∈ fs, F.IsFrame f) :
    F.Splits fs.flatten fs [] :=
  { eq := (List.append_nil _).symm, frames := h, short := short_nil }

/-- The headers reached are those of the complete frames and, if it is there,
that of the incomplete one. -/
theorem headersIn_iff {P : Nat → Prop} {l : List α} : F.HeadersIn P l ↔
    (∀ f ∈ F.frames l, P f.length) ∧ (F.hdrLen ≤ (F.tail l).length → P (F.announced (F.tail l))) := by
  have hl := split_spec (F := F) l
  constructor
  · intro h
    refine ⟨fun f hf => ?_, h _ _ hl.toReaches⟩
    obtain ⟨gs, hs, hcut⟩ := List.append_of_mem hf
    have hisf : F.IsFrame f := hl.frames f hf
    have hr : F.Reaches l gs (f ++ (hs.flatten ++ F.tail l)) := by
      refine ⟨?_, fun g hg => hl.frames g (by rw [hcut]; exact List.mem_append_left _ hg)⟩
      conv_lhs => rw [hl.eq, hcut]
      simp
    rw [← hisf, ← announced_append hisf.hdrLen_le (hs.flatten ++ F.tail l)]
    exact h _ _ hr (by rw [List.length_append]; have := hisf.hdrLen_le; omega)
  · rintro ⟨hfr, htl⟩ fs t ht hlen
    have ht' := split_spec (F := F) t
    obtain ⟨hfs, htt⟩ : F.frames l = fs ++ F.frames t ∧ F.tail l = F.tail t :=
      Splits.split_eq { ht.trans ht'.toReaches with short := ht'.short }
    by_cases hs : F.Short t
    · have htail : F.tail t = t :=
        (Splits.split_eq { Reaches.nil t with short := hs }).2
      rw [htt, htail] at htl
      exact htl hlen
    · -- the header at `t` is that of the next complete frame
      have hrest := split_spec (F := F) (t.drop (F.announced t))
      have hcut : F.Reaches t [t.take (F.announced t)] (t.drop (F.announced t)) :=
        ⟨by simp, by simpa using isFrame_take hs⟩
      have hmem : t.take (F.announced t) ∈ F.frames t := by
        have := (Splits.split_eq { hcut.trans hrest.toReaches with short := hrest.short }).1
        rw [this]
        exact List.mem_cons_self
      have := hfr _ (by rw [hfs]; exact List.mem_append_right _ hmem)
      rwa [List.length_take, Nat.min_eq_left (not_short hs).2] at this

instance {P : Nat → Prop} [DecidablePred P] (l : List α) : Decidable (F.HeadersIn P l) :=
  decidable_of_iff _ headersIn_iff.symm

end Framing

end NetBench.Lib

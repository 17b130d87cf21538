/-
# `NetBench.Lib.Run` — finite runs of a labelled step relation

A system is a relation `step : σ → ε → σ → Prop`: a state, the event that
happens, the next state.  `Run step s es t` says that the events `es`, in that
order, lead from `s` to `t`.  Every prefix of a run is a run
(`Run.split`), so a property of the last state of every run is a property of
every state reached; the induction is done once, in `Run.invariant`, in
`Run.history` for a property of the events and the state, and in `Run.relate`
for a property of two states.
-/
import Mathlib.Data.List.Basic

namespace NetBench.Lib

variable {σ ε : Type*}

/-- The events `es` lead from `s` to `t`, one step each. -/
inductive Run (step : σ → ε → σ → Prop) : σ → List ε → σ → Prop
  | nil (s : σ) : Run step s [] s
  | cons {s t u : σ} {e : ε} {es : List ε} :
      step s e t → Run step t es u → Run step s (e :: es) u

namespace Run

variable {step step' : σ → ε → σ → Prop} {s t u : σ} {e : ε} {es fs : List ε}

theorem eq_of_nil (h : Run step s [] t) : t = s := by
  cases h with
  | nil => rfl

theorem single (h : step s e t) : Run step s [e] t := .cons h (.nil t)

theorem append (h : Run step s es t) (h' : Run step t fs u) : Run step s (es ++ fs) u := by
  induction h with
  | nil => exact h'
  | cons hs _ ih => exact .cons hs (ih h')

theorem snoc (h : Run step s es t) (h' : step t e u) : Run step s (es ++ [e]) u :=
  h.append (single h')

/-- A run over `es ++ fs` passes through a state after `es`. -/
theorem split : ∀ {es : List ε} {s : σ}, Run step s (es ++ fs) u →
    ∃ t, Run step s es t ∧ Run step t fs u
  | [], s, h => ⟨s, .nil s, h⟩
  | _ :: _, _, h => by
      cases h with
      | cons hs hr =>
          obtain ⟨t, h₁, h₂⟩ := split hr
          exact ⟨t, .cons hs h₁, h₂⟩

/-- What holds at the start and survives every step holds at the end. -/
theorem invariant {I : σ → Prop} (hstep : ∀ s e t, I s → step s e t → I t)
    (h : Run step s es t) (h₀ : I s) : I t := by
  induction h with
  | nil => exact h₀
  | cons hs _ ih => exact ih (hstep _ _ _ h₀ hs)

/-- The same when only events with the property `P` happen. -/
theorem invariant_of_forall {I : σ → Prop} {P : ε → Prop}
    (hstep : ∀ s e t, P e → I s → step s e t → I t) (h : Run step s es t)
    (hP : ∀ e ∈ es, P e) (h₀ : I s) : I t := by
  induction h with
  | nil => exact h₀
  | cons hs _ ih =>
      obtain ⟨he, hes⟩ := List.forall_mem_cons.mp hP
      exact ih hes (hstep _ _ _ he h₀ hs)

/-- The same for a property of the events so far and the state. -/
theorem history {I : List ε → σ → Prop} {step : σ → ε → σ → Prop}
    (hstep : ∀ es s e t, I es s → step s e t → I (es ++ [e]) t) :
    ∀ {es fs : List ε} {s t : σ}, Run step s fs t → I es s → I (es ++ fs) t
  | es, _, _, _, .nil _, h₀ => by rwa [List.append_nil]
  | es, e :: fs, s, u, .cons (t := t) hs hr, h₀ => by
      have h := history hstep hr (hstep es s e t h₀ hs)
      rwa [List.append_assoc] at h

/-- A reflexive and transitive relation kept by every step, from states where
`I` holds, relates the two ends of a run. -/
theorem relate {I : σ → Prop} {R : σ → σ → Prop} (hrefl : ∀ s, R s s)
    (htrans : ∀ s t u, R s t → R t u → R s u) (hI : ∀ s e t, I s → step s e t → I t)
    (hR : ∀ s e t, I s → step s e t → R s t) (h : Run step s es t) (h₀ : I s) : R s t := by
  induction h with
  | nil => exact hrefl _
  | cons hs _ ih => exact htrans _ _ _ (hR _ _ _ h₀ hs) (ih (hI _ _ _ h₀ hs))

/-- Two runs of a deterministic relation from one state, to states where it is stuck, are
the same. -/
theorem eq_of_stuck (hdet : ∀ s e t e' t', step s e t → step s e' t' → e = e' ∧ t = t')
    (h : Run step s es t) (h' : Run step s fs u) (ht : ∀ e v, ¬ step t e v)
    (hu : ∀ e v, ¬ step u e v) : es = fs ∧ t = u := by
  induction h generalizing fs with
  | nil =>
      cases h' with
      | nil => exact ⟨rfl, rfl⟩
      | cons hs _ => exact absurd hs (ht _ _)
  | cons hs _ ih =>
      cases h' with
      | nil => exact absurd hs (hu _ _)
      | cons hs' hr' =>
          obtain ⟨rfl, rfl⟩ := hdet _ _ _ _ _ hs hs'
          obtain ⟨rfl, rfl⟩ := ih hr' ht
          exact ⟨rfl, rfl⟩

/-- Two runs from one state over events that `f` does not tell apart end in one state, if
such events lead from a state to the same state. -/
theorem eq_of_map_eq {κ : Type*} {f : ε → κ} {P : ε → Prop}
    (hstep : ∀ s e t e' t', P e → f e' = f e → step s e t → step s e' t' → t' = t)
    (h : Run step s es t) (h' : Run step s fs u) (hP : ∀ e ∈ es, P e)
    (hf : fs.map f = es.map f) : u = t := by
  induction h generalizing fs with
  | nil =>
      obtain rfl := List.map_eq_nil_iff.mp hf
      exact h'.eq_of_nil
  | cons hs _ ih =>
      obtain ⟨e', fs', rfl, he, hfs⟩ := List.map_eq_cons_iff.mp hf
      obtain ⟨hPe, hPes⟩ := List.forall_mem_cons.mp hP
      cases h' with
      | cons hs' hr' =>
          obtain rfl := hstep _ _ _ _ _ hPe he hs hs'
          exact ih hr' hPes hfs

/-- A measure that every step lowers bounds the length of a run. -/
theorem length_add_le {I : σ → Prop} {μ : σ → Nat}
    (hstep : ∀ s e t, I s → step s e t → I t ∧ μ t < μ s) (h : Run step s es t) (h₀ : I s) :
    es.length + μ t ≤ μ s := by
  induction h with
  | nil => exact Nat.le_of_eq (Nat.zero_add _)
  | cons hs _ ih =>
      obtain ⟨hI, hlt⟩ := hstep _ _ _ h₀ hs
      have hrest := ih hI
      rw [List.length_cons]
      omega

/-- The steps of a function, one after the other. -/
theorem of_foldlM {f : σ → ε → Option σ} (h : es.foldlM f s = some t) :
    Run (fun s e t => f s e = some t) s es t := by
  induction es generalizing s with
  | nil =>
      obtain rfl := Option.some.inj h
      exact .nil _
  | cons e es ih =>
      rw [List.foldlM_cons, Option.bind_eq_bind, Option.bind_eq_some_iff] at h
      obtain ⟨u, hstep, hrest⟩ := h
      exact .cons hstep (ih hrest)

theorem mono (hm : ∀ s e t, step s e t → step' s e t) (h : Run step s es t) :
    Run step' s es t := by
  induction h with
  | nil => exact .nil _
  | cons hs _ ih => exact .cons (hm _ _ _ hs) ih

end Run

end NetBench.Lib

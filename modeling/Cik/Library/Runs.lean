import Mathlib.Data.List.Basic

/-!
# Runs

A system takes steps; a step has a label, which says what was asked and what was
answered. `Run Step s l s'` says that the steps with the labels `l` lead from `s` to
`s'`. What every step preserves holds along a run (`Run.invariant`), also when it
speaks of the labels so far (`Run.history_invariant`); and when every step of one
system is matched by a step of another, so is every run (`Run.simulation`). That
every step of a run meets a condition on the state before it and on its label is a
run of the steps that meet it (`Provided`).
-/

/-- The steps with the labels `l` lead from one state to the other. -/
inductive Run {σ α : Type*} (Step : σ → α → σ → Prop) : σ → List α → σ → Prop where
  /-- No step. -/
  | nil (s : σ) : Run Step s [] s
  /-- A step, and the steps after it. -/
  | cons {s t u : σ} {a : α} {l : List α} : Step s a t → Run Step t l u → Run Step s (a :: l) u

/-- The steps that meet a condition on the state before them and on their label. -/
def Provided {σ α : Type*} (C : σ → α → Prop) (Step : σ → α → σ → Prop) (s : σ) (a : α) (s' : σ) :
    Prop :=
  C s a ∧ Step s a s'

namespace Run

variable {σ τ α β : Type*} {Step Step₁ Step₂ : σ → α → σ → Prop} {s s' t : σ}
  {l l₁ l₂ : List α} {a : α}

theorem append (h₁ : Run Step s l₁ t) (h₂ : Run Step t l₂ s') : Run Step s (l₁ ++ l₂) s' := by
  induction h₁ with
  | nil _ => exact h₂
  | cons hs _ ih => exact cons hs (ih h₂)

theorem snoc (h : Run Step s l t) (hs : Step t a s') : Run Step s (l ++ [a]) s' :=
  h.append (cons hs (nil _))

/-- A run can be stopped on its way. -/
theorem split (h : Run Step s (l₁ ++ l₂) s') : ∃ t, Run Step s l₁ t ∧ Run Step t l₂ s' := by
  induction l₁ generalizing s with
  | nil => exact ⟨s, nil s, h⟩
  | cons b l₁ ih =>
    cases h with
    | cons hs h =>
      obtain ⟨t, h₁, h₂⟩ := ih h
      exact ⟨t, cons hs h₁, h₂⟩

theorem mono (hle : ∀ s a s', Step₁ s a s' → Step₂ s a s') (h : Run Step₁ s l s') :
    Run Step₂ s l s' := by
  induction h with
  | nil s => exact nil s
  | cons hs _ ih => exact cons (hle _ _ _ hs) ih

/-- A condition on the labels alone. -/
theorem provided {C : α → Prop} (h : Run Step s l s') (hl : ∀ a ∈ l, C a) :
    Run (Provided (fun _ => C) Step) s l s' := by
  induction h with
  | nil s => exact nil s
  | cons hs _ ih =>
    exact cons ⟨hl _ List.mem_cons_self, hs⟩ (ih fun a ha => hl a (List.mem_cons_of_mem _ ha))

/-- What every step preserves can be used to show that another condition is met. -/
theorem provided_mono {C C' : σ → α → Prop} {I : σ → Prop} (h : Run (Provided C Step) s l s')
    (hC : ∀ s a, I s → C s a → C' s a) (hstep : ∀ s a s', I s → Step s a s' → I s') (h₀ : I s) :
    Run (Provided C' Step) s l s' := by
  induction h with
  | nil s => exact nil s
  | cons hs _ ih => exact cons ⟨hC _ _ h₀ hs.1, hs.2⟩ (ih (hstep _ _ _ h₀ hs.2))

/-- What every step preserves, given the labels so far, holds after a run. -/
theorem history_invariant {I : List α → σ → Prop} (h : Run Step s l s')
    (hstep : ∀ l s a s', I l s → Step s a s' → I (l ++ [a]) s') (h₀ : I [] s) : I l s' := by
  suffices hw : ∀ l₀, I l₀ s → I (l₀ ++ l) s' from hw [] h₀
  clear h₀
  induction h with
  | nil s =>
    intro l₀ h
    rwa [List.append_nil]
  | cons hs _ ih =>
    intro l₀ h
    simpa using ih _ (hstep _ _ _ _ h hs)

/-- What every step preserves holds after a run. -/
theorem invariant {I : σ → Prop} (h : Run Step s l s') (hstep : ∀ s a s', I s → Step s a s' → I s')
    (h₀ : I s) : I s' :=
  h.history_invariant (I := fun _ => I) (fun _ => hstep) h₀

/-- When every step is matched by a step of another system, every run is matched by a run of it. -/
theorem simulation {StepT : τ → β → τ → Prop} {R : σ → τ → Prop} {f : α → β}
    (hstep : ∀ s a s' t, R s t → Step s a s' → ∃ t', StepT t (f a) t' ∧ R s' t') {t : τ}
    (h : Run Step s l s') (h₀ : R s t) : ∃ t', Run StepT t (l.map f) t' ∧ R s' t' := by
  induction h generalizing t with
  | nil s => exact ⟨t, nil t, h₀⟩
  | cons hs _ ih =>
    obtain ⟨t₁, ht₁, hR⟩ := hstep _ _ _ _ h₀ hs
    obtain ⟨t', ht', hR'⟩ := ih hR
    exact ⟨t', cons ht₁ ht', hR'⟩

end Run

import Cik.Library.Runs
import Mathlib.Logic.Function.Basic
import Mathlib.Logic.Relation

/-!
# Threads

Threads share a state, and each of them is somewhere in its program. A step is a step
of one of them: it changes what is shared and where that thread is, and leaves the
others where they are. `Threads.invariant` is the rule to show what holds in every
state they reach. An assertion is given for the shared state and one for each place a
thread can be at; a step of a thread must establish its own and leave those of the
others as they are. Both may speak of auxiliary state, which a proof chooses anew
after every step and the program does not know. `Threads.provided_invariant` is the
rule for the runs whose steps all meet a condition.

Threads that wait for locks do not wait for each other in a circle when locks have a
rank, and whoever has a lock and waits waits for one of higher rank
(`Threads.not_transGen_waits`).
-/

/-- What threads share, and where each of them is. -/
structure Threads (τ σ ℓ : Type*) where
  /-- What they share. -/
  shared : σ
  /-- Where they are. -/
  loc : τ → ℓ

namespace Threads

variable {τ σ ℓ α γ : Type*} {step : τ → σ → ℓ → α → σ → ℓ → Prop}

/-- A step of one thread; the others stay where they are. -/
structure Step (step : τ → σ → ℓ → α → σ → ℓ → Prop) (c : Threads τ σ ℓ) (a : τ × α)
    (c' : Threads τ σ ℓ) : Prop where
  /-- What the thread does. -/
  own : step a.1 c.shared (c.loc a.1) a.2 c'.shared (c'.loc a.1)
  /-- What the others do. -/
  others : ∀ u ≠ a.1, c'.loc u = c.loc u

/-- The thread `t` takes a step. -/
theorem step_at [DecidableEq τ] {c : Threads τ σ ℓ} (t : τ) {p p' : ℓ} {a : α} {s' : σ}
    (hp : c.loc t = p) (h : step t c.shared p a s' p') :
    Step step c (t, a) ⟨s', Function.update c.loc t p'⟩ where
  own := by
    subst hp
    simpa using h
  others := fun _ hu => Function.update_of_ne hu _ _

/-- Steps of the threads lead to a state where something holds of it and of them. -/
def Leads (Next : Threads τ σ ℓ → τ × α → Threads τ σ ℓ → Prop)
    (P : List (τ × α) → Threads τ σ ℓ → Prop) (c : Threads τ σ ℓ) : Prop :=
  ∃ l c', Run Next c l c' ∧ P l c'

namespace Leads

variable {Next : Threads τ σ ℓ → τ × α → Threads τ σ ℓ → Prop} {P Q : List (τ × α) →
  Threads τ σ ℓ → Prop} {c c' : Threads τ σ ℓ}

theorem done (h : P [] c) : Leads Next P c := ⟨[], c, .nil c, h⟩

theorem cons {a : τ × α} (h : Next c a c') (hP : Leads Next (fun l => P (a :: l)) c') :
    Leads Next P c := by
  obtain ⟨l, c'', hrun, hl⟩ := hP
  exact ⟨a :: l, c'', .cons h hrun, hl⟩

/-- The thread `t` takes a step. -/
theorem next [DecidableEq τ] (t : τ) {p p' : ℓ} {a : α} {s' : σ} (hp : c.loc t = p)
    (h : step t c.shared p a s' p')
    (hP : Leads (Step step) (fun l => P ((t, a) :: l)) ⟨s', Function.update c.loc t p'⟩) :
    Leads (Step step) P c :=
  cons (step_at t hp h) hP

/-- It takes one that meets a condition. -/
theorem next_provided [DecidableEq τ] {C : Threads τ σ ℓ → τ × α → Prop} (t : τ) {p p' : ℓ}
    {a : α} {s' : σ} (hC : C c (t, a)) (hp : c.loc t = p) (h : step t c.shared p a s' p')
    (hP : Leads (Provided C (Step step)) (fun l => P ((t, a) :: l))
      ⟨s', Function.update c.loc t p'⟩) :
    Leads (Provided C (Step step)) P c :=
  cons ⟨hC, step_at t hp h⟩ hP

/-- The steps go on. -/
theorem bind (h : Leads Next P c) (hQ : ∀ l c', P l c' → Leads Next (fun l' => Q (l ++ l')) c') :
    Leads Next Q c := by
  obtain ⟨l, c', hrun, hl⟩ := h
  obtain ⟨l', c'', hrun', hl'⟩ := hQ l c' hl
  exact ⟨l ++ l', c'', hrun.append hrun', hl'⟩

end Leads

/-- The states that steps of the threads lead to. -/
def Reachable (step : τ → σ → ℓ → α → σ → ℓ → Prop) (c c' : Threads τ σ ℓ) : Prop :=
  ∃ l, Run (Step step) c l c'

/-- The assertions hold, for some auxiliary state. -/
def Holds (J : List (τ × α) → γ → σ → Prop) (A : γ → τ → σ → ℓ → Prop) (l : List (τ × α))
    (c : Threads τ σ ℓ) :
    Prop :=
  ∃ g, J l g c.shared ∧ ∀ t, A g t c.shared (c.loc t)

variable {J : List (τ × α) → γ → σ → Prop} {A : γ → τ → σ → ℓ → Prop}

/-- What a step that meets a condition must do for the assertions: keep the one on what is
shared, establish the thread's own, and not interfere with those of the others. -/
def KeepsIf (C : Threads τ σ ℓ → τ × α → Prop) (step : τ → σ → ℓ → α → σ → ℓ → Prop)
    (J : List (τ × α) → γ → σ → Prop) (A : γ → τ → σ → ℓ → Prop) : Prop :=
  ∀ l g c t a s' p', C c (t, a) → J l g c.shared → (∀ u, A g u c.shared (c.loc u)) →
    step t c.shared (c.loc t) a s' p' →
      ∃ g', J (l ++ [(t, a)]) g' s' ∧ A g' t s' p' ∧ ∀ u ≠ t, A g' u s' (c.loc u)

/-- What every step must do for the assertions, wherever the others are. -/
def Keeps (step : τ → σ → ℓ → α → σ → ℓ → Prop) (J : List (τ × α) → γ → σ → Prop)
    (A : γ → τ → σ → ℓ → Prop) : Prop :=
  ∀ l g t s p a s' p', J l g s → A g t s p → step t s p a s' p' →
    ∃ g', J (l ++ [(t, a)]) g' s' ∧ A g' t s' p' ∧ ∀ u ≠ t, ∀ q, A g u s q → A g' u s' q

theorem Holds.of_step {C : Threads τ σ ℓ → τ × α → Prop} (hk : KeepsIf C step J A)
    {l : List (τ × α)} {c c' : Threads τ σ ℓ} {a : τ × α} (h : Holds J A l c)
    (hs : Provided C (Step step) c a c') :
    Holds J A (l ++ [a]) c' := by
  obtain ⟨g, hJ, hA⟩ := h
  obtain ⟨g', hJ', hown, hothers⟩ := hk l g c a.1 a.2 _ _ hs.1 hJ hA hs.2.own
  refine ⟨g', hJ', fun u => ?_⟩
  by_cases hu : u = a.1
  · rw [hu]
    exact hown
  · rw [hs.2.others u hu]
    exact hothers u hu

/-- Assertions that the steps that meet a condition keep hold after every run of such steps. -/
theorem provided_invariant {C : Threads τ σ ℓ → τ × α → Prop} (hk : KeepsIf C step J A)
    {l : List (τ × α)} {c c' : Threads τ σ ℓ} (h : Run (Provided C (Step step)) c l c')
    (h₀ : Holds J A [] c) : Holds J A l c' :=
  h.history_invariant (fun _ _ _ _ h hs => h.of_step hk hs) h₀

/-- Assertions that every step keeps hold after every run. -/
theorem invariant (hk : Keeps step J A) {l : List (τ × α)} {c c' : Threads τ σ ℓ}
    (h : Run (Step step) c l c') (h₀ : Holds J A [] c) : Holds J A l c' := by
  have hif : KeepsIf (fun _ _ => True) step J A := by
    intro l g c t a s' p' _ hJ hA hs
    obtain ⟨g', hJ', hown, hothers⟩ := hk l g t _ _ a s' p' hJ (hA t) hs
    exact ⟨g', hJ', hown, fun u hu => hothers u hu _ (hA u)⟩
  exact provided_invariant hif (h.mono fun _ _ _ hs => ⟨trivial, hs⟩) h₀

/-- Assertions that do not speak of the run. -/
theorem Reachable.invariant {J : γ → σ → Prop} (hk : Keeps step (fun _ => J) A)
    {c c' : Threads τ σ ℓ} (h : Reachable step c c')
    (h₀ : Holds (fun _ : List (τ × α) => J) A [] c) :
    ∃ g, J g c'.shared ∧ ∀ t, A g t c'.shared (c'.loc t) := by
  obtain ⟨l, h⟩ := h
  exact Threads.invariant hk h h₀

/-! ### Waiting for locks -/

section Waiting

variable {κ : Type*} {waits has : τ → κ → Prop} {rank : κ → ℕ}

/-- A thread waits for a lock that the other one has. -/
def WaitsFor (waits has : τ → κ → Prop) (t u : τ) : Prop := ∃ x, waits t x ∧ has u x

/-- No threads wait for each other in a circle. -/
theorem not_transGen_waits (h : ∀ t u v x y, waits t x → has u x → waits u y → has v y →
    rank x < rank y) (t : τ) :
    ¬ Relation.TransGen (WaitsFor waits has) t t := by
  -- the last thread of a path waits for a lock of higher rank than the first
  have hpath (u : τ) (hu : Relation.TransGen (WaitsFor waits has) t u) :
      ∃ x v, waits t x ∧ has v x ∧ ∀ y w, waits u y → has w y → rank x < rank y := by
    induction hu with
    | single ht =>
      obtain ⟨x, htx, hux⟩ := ht
      exact ⟨x, _, htx, hux, fun y w hy hw => h _ _ w x y htx hux hy hw⟩
    | tail _ hu ih =>
      obtain ⟨x, v, htx, hvx, hlast⟩ := ih
      obtain ⟨y, hy, hw⟩ := hu
      refine ⟨x, v, htx, hvx, fun z w hz hwz => ?_⟩
      exact Nat.lt_trans (hlast y _ hy hw) (h _ _ w y z hy hw hz hwz)
  intro ht
  obtain ⟨x, v, htx, hvx, hlast⟩ := hpath t ht
  exact Nat.lt_irrefl _ (hlast x v htx hvx)

end Waiting

end Threads

/-! ### Where a function has a value, after an update -/

section Update

variable {ι β : Type*} [DecidableEq ι] {f : ι → β} {a : ι} {v w : β}

theorem update_keeps (h : f a ≠ w) (hv : v ≠ w) (c : ι) :
    Function.update f a v c = w ↔ f c = w := by
  by_cases hc : c = a
  · rw [hc, Function.update_self]
    exact ⟨fun he => absurd he hv, fun he => absurd he h⟩
  · rw [Function.update_of_ne hc]

theorem update_gains (h : ∀ c, f c = w ↔ none = some c) (c : ι) : Function.update f a w c = w ↔
    some a = some c := by
  by_cases hc : c = a
  · simp [hc]
  · rw [Function.update_of_ne hc, h c]
    simp [Ne.symm hc]

theorem update_loses (h : ∀ c, f c = w ↔ some a = some c) (hv : v ≠ w) (c : ι) :
    Function.update f a v c = w ↔ none = some c := by
  by_cases hc : c = a
  · simp [hc, hv]
  · rw [Function.update_of_ne hc, h c]
    simp [Ne.symm hc]

end Update

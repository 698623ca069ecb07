import Cik.Library.Programs

/-!
# Programs that come to their end

`Completes act Q s p` says that the program `p`, run alone from the state `s`, comes to
its end whatever the operations answer: it is never stuck, it does not run for ever, and
what it returns, and the state then, are as `Q` says. A loop has an invariant, as with
`Prog.wp`, and something that gets less each time round (`Completes.iterate_of`).

What it says of the runs of a thread beside which nobody takes a step is
`Completes.settles`.
-/

open Prog

variable {ω : Type} {ρ : ω → Type} {α β γ : Type} {σ : Type*}

/-- Run alone, the program comes to its end, and `Q` holds then. -/
inductive Completes {α : Type} (act : σ → (o : ω) → ρ o → σ → Prop) (Q : α → σ → Prop) :
    σ → Prog ρ α → Prop where
  /-- It has ended. -/
  | pure {s : σ} {a : α} (h : Q a s) : Completes act Q s (.pure a)
  /-- An operation that can be done, and the rest whatever it answers. -/
  | op {s : σ} {o : ω} {k : ρ o → Prog ρ α} (can : ∃ r s', act s o r s')
      (rest : ∀ r s', act s o r s' → Completes act Q s' (k r)) : Completes act Q s (.op o k)
  /-- Once round a loop, and the rest. -/
  | loop {s : σ} {β γ : Type} {body : β → Prog ρ (β ⊕ γ)} {b : β} {k : γ → Prog ρ α}
      (rest : Completes act Q s (body b >>= continueLoop body k)) :
      Completes act Q s (.loop body b k)

/-! ### Programs in sequence -/

namespace Prog

theorem bind_assoc (p : Prog ρ α) (f : α → Prog ρ β) (g : β → Prog ρ γ) :
    (p >>= f) >>= g = p >>= fun a => f a >>= g := by
  change (p.bind f).bind g = p.bind fun a => (f a).bind g
  induction p with
  | pure a => rfl
  | op o k ih =>
    simp only [Prog.bind]
    exact congrArg _ (funext fun r => ih r f)
  | loop body b k _ ihk =>
    simp only [Prog.bind]
    exact congrArg _ (funext fun c => ihk c f)

end Prog

namespace Completes

variable {act : σ → (o : ω) → ρ o → σ → Prop} {Q Q' : α → σ → Prop} {s : σ} {p : Prog ρ α}

theorem mono (h : Completes act Q s p) (hQ : ∀ a s', Q a s' → Q' a s') : Completes act Q' s p := by
  induction h with
  | pure h => exact pure (hQ _ _ h)
  | op can _ ih => exact op can ih
  | loop _ ih => exact loop ih

/-- One program after the other. -/
theorem bind {f : α → Prog ρ β} {Q : β → σ → Prop}
    (h : Completes act (fun a s' => Completes act Q s' (f a)) s p) :
    Completes act Q s (p >>= f) := by
  induction h with
  | pure h => exact h
  | op can _ ih => exact op can ih
  | @loop s β' γ' body b k _ ih =>
    refine loop ?_
    have hk : continueLoop body (fun c => k c >>= f) = fun x => continueLoop body k x >>= f :=
      funext fun x => by cases x <;> rfl
    change Completes act Q s (body b >>= continueLoop body fun c => k c >>= f)
    rw [hk, ← bind_assoc]
    exact ih

/-- A loop, once unfolded. -/
theorem iterate {body : β → Prog ρ (β ⊕ γ)} {b : β} {Q : γ → σ → Prop}
    (h : Completes act
      (fun x s' => Sum.elim (fun b => Completes act Q s' (.iterate body b)) (fun c => Q c s') x) s
      (body b)) :
    Completes act Q s (.iterate body b) := by
  refine loop (bind (h.mono fun x s' hx => ?_))
  cases x with
  | inl b => exact hx
  | inr c => exact pure hx

/-- A loop with an invariant, of which something gets less each time round. -/
theorem iterate_of {body : β → Prog ρ (β ⊕ γ)} {Q : γ → σ → Prop} (I : ℕ → β → σ → Prop)
    (hstep : ∀ n b s, I n b s →
      Completes act (fun x s' => Sum.elim (fun b => ∃ m < n, I m b s') (fun c => Q c s') x) s
      (body b))
    {n : ℕ} {b : β} (h : I n b s) : Completes act Q s (.iterate body b) := by
  induction n using Nat.strongRecOn generalizing b s with
  | ind n ih =>
    refine iterate ((hstep n b s h).mono fun x s' hx => ?_)
    cases x with
    | inl b =>
      obtain ⟨m, hm, hI⟩ := hx
      exact ih m hm hI
    | inr c => exact hx

/-! ### Runs -/

variable {τ : Type*} {ι : Type} {act : τ → σ → (o : ω) → ρ o → σ → Prop} {call : ι →
  Prog ρ α} {t : τ} {c c' : Threads τ σ (Option (Prog ρ α))}

/-- A step of a thread that begins no program. -/
def GoesOn {ι : Type} (act : τ → σ → (o : ω) → ρ o → σ → Prop) (call : ι → Prog ρ α) (t : τ)
    (c : Threads τ σ (Option (Prog ρ α))) (a : Event ρ ι α) (c' : Threads τ σ (Option (Prog ρ α))) :
    Prop :=
  (∀ i, a ≠ .call i) ∧ Threads.Step (Serve act call) c (t, a) c'

variable {Q : α → σ → Prop} {p : Prog ρ α} {l : List (Event ρ ι α)}

theorem GoesOn.op {o : ω} {k : ρ o → Prog ρ α} {a : Event ρ ι α} (h : GoesOn act call t c a c')
    (hp : c.loc t = some (.op o k)) : ∃ r, a = .did o r ∧ act t c.shared o r c'.shared ∧
      c'.loc t = some (k r) := by
  have hown := h.2.own
  simp only [hp] at hown
  generalize c'.loc t = q at hown ⊢
  cases hown with
  | op hact => exact ⟨_, rfl, hact, rfl⟩

theorem GoesOn.loop {body : β → Prog ρ (β ⊕ γ)} {b : β} {k : γ → Prog ρ α} {a : Event ρ ι α}
    (h : GoesOn act call t c a c') (hp : c.loc t = some (.loop body b k)) :
    c'.shared = c.shared ∧ c'.loc t = some (body b >>= continueLoop body k) := by
  have hown := h.2.own
  simp only [hp] at hown
  generalize c'.shared = s' at hown ⊢
  generalize c'.loc t = q at hown ⊢
  cases hown with
  | loop => exact ⟨rfl, rfl⟩

theorem GoesOn.pure {x : α} {a : Event ρ ι α} (h : GoesOn act call t c a c')
    (hp : c.loc t = some (.pure x)) :
    a = .returned x ∧ c'.shared = c.shared ∧ c'.loc t = none := by
  have hown := h.2.own
  simp only [hp] at hown
  generalize c'.shared = s' at hown ⊢
  generalize c'.loc t = q at hown ⊢
  cases hown with
  | returned => exact ⟨rfl, rfl, rfl⟩

/-- Between two programs a thread can only begin one. -/
theorem not_goesOn {a : Event ρ ι α} (hp : c.loc t = none) : ¬ GoesOn act call t c a c' := by
  rintro ⟨hcall, hs⟩
  have hown := hs.own
  rw [hp] at hown
  obtain ⟨i, hi⟩ := hown.of_idle
  exact hcall i hi

/-- There is always a next step. -/
theorem exists_goesOn [DecidableEq τ] (h : Completes (act t) Q c.shared p) (hp : c.loc t = some p) :
    ∃ a c', GoesOn act call t c a c' := by
  cases h with
  | pure => exact ⟨.returned _, _, by simp, Threads.step_at t hp .returned⟩
  | op can =>
    obtain ⟨r, s', hact⟩ := can
    exact ⟨.did _ r, _, by simp, Threads.step_at t hp (.op hact)⟩
  | loop => exact ⟨.tau, _, by simp, Threads.step_at t hp .loop⟩

/-- It does not run for ever. -/
theorem acc (h : Completes (act t) Q c.shared p) (hp : c.loc t = some p) :
    Acc (fun c' c => ∃ a, GoesOn act call t c a c') c := by
  obtain ⟨s, loc⟩ := c
  dsimp only at h hp
  induction h generalizing loc with
  | pure =>
    refine Acc.intro _ fun c' hs => Acc.intro _ fun c'' hs' => ?_
    obtain ⟨a, hs⟩ := hs
    obtain ⟨b, hs'⟩ := hs'
    exact absurd hs' (not_goesOn (hs.pure hp).2.2)
  | op _ _ ih =>
    refine Acc.intro _ fun c' hs => ?_
    obtain ⟨a, hs⟩ := hs
    obtain ⟨r, -, hact, hq⟩ := hs.op hp
    exact ih r _ hact _ hq
  | loop _ ih =>
    refine Acc.intro _ fun c' hs => ?_
    obtain ⟨a, hs⟩ := hs
    obtain ⟨hshared, hq⟩ := hs.loop hp
    obtain ⟨s', loc'⟩ := c'
    dsimp only at hshared hq
    subst hshared
    exact ih _ hq

/-- After some of its steps it can go on, or has returned with what was said. -/
theorem settles [DecidableEq τ] (h : Completes (act t) Q c.shared p) (hp : c.loc t = some p)
    (hrun : Run (GoesOn act call t) c l c') :
    (∃ a c'', GoesOn act call t c' a c'') ∨ ∃ l' a, l = l' ++ [.returned a] ∧ Q a c'.shared ∧
      c'.loc t = none := by
  induction hrun generalizing p with
  | nil => exact Or.inl (exists_goesOn h hp)
  | @cons c c₁ c₂ a l hs hrun ih =>
    have hlater {p' : Prog ρ α} (hc : Completes (act t) Q c₁.shared p') (hp' : c₁.loc t = some p') :
        (∃ a c'', GoesOn act call t c₂ a c'') ∨
          ∃ l' x, a :: l = l' ++ [.returned x] ∧ Q x c₂.shared ∧ c₂.loc t = none := by
      refine (ih hc hp').imp id ?_
      rintro ⟨l', x, rfl, hx⟩
      exact ⟨a :: l', x, rfl, hx⟩
    cases h with
    | pure hQ =>
      obtain ⟨rfl, hshared, hnone⟩ := hs.pure hp
      cases hrun with
      | nil => exact Or.inr ⟨[], _, rfl, hshared ▸ hQ, hnone⟩
      | cons hs' _ => exact absurd hs' (not_goesOn hnone)
    | op _ rest =>
      obtain ⟨r, -, hact, hq⟩ := hs.op hp
      exact hlater (rest r _ hact) hq
    | loop rest =>
      obtain ⟨hshared, hq⟩ := hs.loop hp
      exact hlater (hshared ▸ rest) hq

/-- Steps of one thread alone. -/
theorem goesOn_run {l : List (τ × Event ρ ι α)} (h : Run (Threads.Step (Serve act call)) c l c')
    (hl : ∀ x ∈ l, x.1 = t ∧ ∀ i, x.2 ≠ .call i) :
    Run (GoesOn act call t) c (l.map Prod.snd) c' := by
  induction h with
  | nil c => exact .nil c
  | @cons _ _ _ a _ hs _ ih =>
    obtain ⟨rfl, hcall⟩ := hl a List.mem_cons_self
    exact .cons ⟨hcall, hs⟩ (ih fun x hx => hl x (List.mem_cons_of_mem _ hx))

/-- A thread that has returned, alone, has returned with what was said. -/
theorem returns [DecidableEq τ] {l : List (τ × Event ρ ι α)} {a : α}
    (h : Completes (act t) Q c.shared p) (hp : c.loc t = some p)
    (hrun : Run (Threads.Step (Serve act call)) c (l ++ [(t, .returned a)]) c')
    (hl : ∀ x ∈ l, x.1 = t ∧ ∀ i, x.2 ≠ .call i) (hend : c'.loc t = none) : Q a c'.shared := by
  have hl' : ∀ x ∈ l ++ [(t, .returned a)], x.1 = t ∧ ∀ i, x.2 ≠ .call i := by
    intro x hx
    rcases List.mem_append.mp hx with hx | hx
    · exact hl x hx
    · rw [List.mem_singleton.mp hx]
      exact ⟨rfl, by simp⟩
  rcases h.settles hp (goesOn_run hrun hl') with ⟨b, c'', hs⟩ | ⟨l', b, heq, hQ, -⟩
  · exact absurd hs (not_goesOn hend)
  · rw [List.map_append, List.map_singleton] at heq
    obtain ⟨-, hb⟩ := List.append_inj' heq rfl
    cases hb
    exact hQ

/-- It can be run to its end. -/
theorem exists_run [DecidableEq τ] (h : Completes (act t) Q c.shared p) (hp : c.loc t = some p) :
    ∃ l a s', (∀ x ∈ l, x.1 = t ∧ ∀ i, x.2 ≠ .call i) ∧ Q a s' ∧
      Run (Threads.Step (Serve act call)) c (l ++ [(t, .returned a)])
        ⟨s', Function.update c.loc t none⟩ := by
  obtain ⟨s, loc⟩ := c
  dsimp only at h hp
  induction h generalizing loc with
  | @pure s a hQ => exact ⟨[], a, s, by simp, hQ, .cons (Threads.step_at t hp .returned) (.nil _)⟩
  | op can _ ih =>
    obtain ⟨r, s', hact⟩ := can
    obtain ⟨l, a, s'', hl, hQ, hrun⟩ :=
      ih r s' hact (Function.update loc t _) (Function.update_self ..)
    rw [Function.update_idem] at hrun
    refine ⟨(t, .did _ r) :: l, a, s'', ?_, hQ, .cons (Threads.step_at t hp (.op hact)) hrun⟩
    rw [List.forall_mem_cons]
    exact ⟨⟨rfl, by simp⟩, hl⟩
  | loop _ ih =>
    obtain ⟨l, a, s'', hl, hQ, hrun⟩ := ih (Function.update loc t _) (Function.update_self ..)
    rw [Function.update_idem] at hrun
    refine ⟨(t, .tau) :: l, a, s'', ?_, hQ, .cons (Threads.step_at t hp .loop) hrun⟩
    rw [List.forall_mem_cons]
    exact ⟨⟨rfl, by simp⟩, hl⟩

end Completes

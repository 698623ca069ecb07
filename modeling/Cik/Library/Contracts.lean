import Cik.Library.Programs

/-!
# Contracts beside each other

A thread can keep two contracts at once, each with what it says a thread holds
(`Contract.prod`). A program that both let through is let through by both together
(`Prog.wp_prod`), and when the operations fulfil one of them, what they do to what holds by
the other may be shown with what the first one says (`Contract.Beside`).

What a thread holds when it is called, and what it is to return, need not be the same for all
calls: `Contract.Upheld.returned` is the rule for runs in which each thread holds what is said
of its call when it begins, and returns what is said of it.
-/

open Prog

variable {ω : Type} {ρ : ω → Type} {ι α β γ : Type} {τ σ : Type*} {L L₁ L₂ : Type*}

/-- The operations fulfil the contract; and a thread at rest that is called holds what is said of
the call then. -/
structure Contract.Upheld [DecidableEq τ] (C : Contract ρ L)
    (act : τ → σ → (o : ω) → ρ o → σ → Prop) (rest : L → Prop) (begins : ι → L → Prop)
        (J : List (τ × Event ρ ι α) → (τ → L) → σ → Prop) : Prop where
  /-- An operation. -/
  op : ∀ l g s t o r s' Q, J l g s → C.spec o Q (g t) → act t s o r s' →
    ∃ h, Q r h ∧ J (l ++ [(t, .did o r)]) (Function.update g t h) s'
  /-- A call. -/
  call : ∀ l g s t i, J l g s → rest (g t) → ∃ h, begins i h ∧
    J (l ++ [(t, .call i)]) (Function.update g t h) s
  /-- Another step. -/
  other : ∀ l g s t a, (∀ o r, a ≠ .did o r) → (∀ i, a ≠ .call i) → J l g s → J (l ++ [(t, a)]) g s

/-! ### Rules -/

section Rules

variable {C : Contract ρ L} {h : L}

theorem Prog.wp.pure {a : α} {Q : α → L → Prop} (hQ : Q a h) : wp C (Pure.pure a) Q h := hQ

/-- One program after the other. -/
theorem Prog.wp.bind {p : Prog ρ α} {f : α → Prog ρ β} {Q : β → L → Prop}
    (hp : wp C p (fun a h => wp C (f a) Q h) h) :
    wp C (p >>= f) Q h := (wp_bind p f).mpr hp

theorem Prog.wp.mono {p : Prog ρ α} {Q Q' : α → L → Prop} (hp : wp C p Q h)
    (hQ : ∀ a h, Q a h → Q' a h) :
    wp C p Q' h := wp_mono p hQ hp

end Rules

/-! ### Two contracts -/

section Prod

/-- Both contracts. -/
def Contract.prod (C₁ : Contract ρ L₁) (C₂ : Contract ρ L₂) : Contract ρ (L₁ × L₂) where
  spec := fun o Q h => ∃ Q₁ Q₂, C₁.spec o Q₁ h.1 ∧ C₂.spec o Q₂ h.2 ∧ ∀ r h₁ h₂, Q₁ r h₁ →
    Q₂ r h₂ → Q r (h₁, h₂)
  mono := by
    rintro o Q Q' h hQ ⟨Q₁, Q₂, h₁, h₂, hQ'⟩
    exact ⟨Q₁, Q₂, h₁, h₂, fun r k₁ k₂ hk₁ hk₂ => hQ r _ (hQ' r k₁ k₂ hk₁ hk₂)⟩

variable {C₁ : Contract ρ L₁} {C₂ : Contract ρ L₂}

/-- A program that both contracts let through. -/
theorem Prog.wp_prod {p : Prog ρ α} {Q₁ : α → L₁ → Prop} {Q₂ : α → L₂ → Prop} {h₁ : L₁} {h₂ : L₂}
    (hp₁ : wp C₁ p Q₁ h₁) (hp₂ : wp C₂ p Q₂ h₂) :
    wp (C₁.prod C₂) p (fun a h => Q₁ a h.1 ∧ Q₂ a h.2) (h₁, h₂) := by
  induction p generalizing h₁ h₂ with
  | pure a => exact ⟨hp₁, hp₂⟩
  | op o k ih => exact ⟨_, _, hp₁, hp₂, fun r k₁ k₂ hk₁ hk₂ => ih r hk₁ hk₂⟩
  | loop body b k ihb ihk =>
    obtain ⟨I₁, hI₁, hstep₁⟩ := hp₁
    obtain ⟨I₂, hI₂, hstep₂⟩ := hp₂
    refine ⟨fun b h => I₁ b h.1 ∧ I₂ b h.2, ⟨hI₁, hI₂⟩, fun b h hb => ?_⟩
    refine wp_mono (body b) (fun x h' hx => ?_) (ihb b (hstep₁ b h.1 hb.1) (hstep₂ b h.2 hb.2))
    cases x with
    | inl b => exact hx
    | inr c => exact ihk c hx.1 hx.2

variable [DecidableEq τ] {act : τ → σ → (o : ω) → ρ o → σ → Prop} {Rel : (o : ω) → L₁ →
  ρ o → L₁ → Prop} {rest₁ : L₁ → Prop} {rest₂ : L₂ → Prop} {begins : ι → L₂ → Prop}
  {J₁ : List (τ × Event ρ ι α) → (τ → L₁) → σ → Prop} {J₂ : List (τ × Event ρ ι α) → (τ → L₁) →
    (τ → L₂) → σ → Prop}

/-- What the operations do to what holds by the second contract, where the first one is fulfilled:
`Rel` is what the first says of what a thread holds before and after an operation. -/
structure Contract.Beside (C₁ : Contract ρ L₁) (C₂ : Contract ρ L₂)
    (act : τ → σ → (o : ω) → ρ o → σ → Prop) (Rel : (o : ω) → L₁ → ρ o → L₁ → Prop) (rest₂ : L₂ →
      Prop) (begins : ι → L₂ → Prop)
    (J₁ : List (τ × Event ρ ι α) → (τ → L₁) → σ → Prop) (J₂ : List (τ × Event ρ ι α) → (τ → L₁) →
        (τ → L₂) → σ → Prop) : Prop where
  /-- The first contract says so. -/
  rel : ∀ o Q h, C₁.spec o Q h → C₁.spec o (fun r h' => Q r h' ∧ Rel o h r h') h
  /-- An operation. -/
  op : ∀ l g₁ g₂ s t o r s' Q₁ Q₂ h₁, J₁ l g₁ s → J₂ l g₁ g₂ s → C₁.spec o Q₁ (g₁ t) →
    C₂.spec o Q₂ (g₂ t) → act t s o r s' → Rel o (g₁ t) r h₁ →
    J₁ (l ++ [(t, .did o r)]) (Function.update g₁ t h₁) s' →
      ∃ h₂, Q₂ r h₂ ∧
      J₂ (l ++ [(t, .did o r)]) (Function.update g₁ t h₁) (Function.update g₂ t h₂) s'
  /-- A call. -/
  call : ∀ l g₁ g₂ s t i, J₂ l g₁ g₂ s → rest₂ (g₂ t) →
    ∃ h₂, begins i h₂ ∧ J₂ (l ++ [(t, .call i)]) g₁ (Function.update g₂ t h₂) s
  /-- Another step. -/
  other : ∀ l g₁ g₂ s t a, (∀ o r, a ≠ .did o r) → (∀ i, a ≠ .call i) → J₂ l g₁ g₂ s →
    J₂ (l ++ [(t, a)]) g₁ g₂ s

/-- The operations fulfil both contracts. -/
theorem Contract.Fulfilled.prod (h₁ : C₁.Fulfilled act J₁)
    (h₂ : C₁.Beside C₂ act Rel rest₂ begins J₁ J₂) :
    (C₁.prod C₂).Upheld act (fun h => rest₁ h.1 ∧ rest₂ h.2) (fun i h => rest₁ h.1 ∧ begins i h.2)
      fun l g s => J₁ l (fun t => (g t).1) s ∧ J₂ l (fun t => (g t).1) (fun t => (g t).2) s := by
  have hfst (g : τ → L₁ × L₂) (t : τ) (k : L₁ × L₂) :
      (fun u => (Function.update g t k u).1) = Function.update (fun u => (g u).1) t k.1 :=
    funext fun u => Function.apply_update (fun _ => Prod.fst) g t k u
  have hsnd (g : τ → L₁ × L₂) (t : τ) (k : L₁ × L₂) :
      (fun u => (Function.update g t k u).2) = Function.update (fun u => (g u).2) t k.2 :=
    funext fun u => Function.apply_update (fun _ => Prod.snd) g t k u
  constructor
  case op =>
    rintro l g s t o r s' Q ⟨hJ₁, hJ₂⟩ ⟨Q₁, Q₂, hs₁, hs₂, hQ⟩ hact
    obtain ⟨k₁, ⟨hQ₁, hrel⟩, hJ₁'⟩ := h₁.op l _ s t o r s' _ hJ₁ (h₂.rel o Q₁ _ hs₁) hact
    obtain ⟨k₂, hQ₂, hJ₂'⟩ := h₂.op l _ _ s t o r s' Q₁ Q₂ k₁ hJ₁ hJ₂ hs₁ hs₂ hact hrel hJ₁'
    refine ⟨(k₁, k₂), hQ r k₁ k₂ hQ₁ hQ₂, ?_⟩
    rw [hfst, hsnd]
    exact ⟨hJ₁', hJ₂'⟩
  case call =>
    rintro l g s t i ⟨hJ₁, hJ₂⟩ ⟨hr₁, hr₂⟩
    obtain ⟨k₂, hk₂, hJ₂'⟩ := h₂.call l _ _ s t i hJ₂ hr₂
    refine ⟨((g t).1, k₂), ⟨hr₁, hk₂⟩, ?_⟩
    rw [hfst, hsnd, Function.update_eq_self]
    exact ⟨h₁.other l _ s t _ (by simp) hJ₁, hJ₂'⟩
  case other =>
    exact fun l g s t a ha hi hJ => ⟨h₁.other l _ s t a ha hJ.1, h₂.other l _ _ s t a ha hi hJ.2⟩

end Prod

/-! ### What calls return -/

section Returned

variable [DecidableEq τ]

/-- The call that a thread has made last. -/
def lastCall (l : List (τ × Event ρ ι α)) (t : τ) : Option ι :=
  l.foldl (fun last a => match a with
    | (u, .call i) => if u = t then some i else last
    | _ => last) none

@[simp] theorem lastCall_nil (t : τ) : lastCall ([] : List (τ × Event ρ ι α)) t = none := rfl

theorem lastCall_snoc (l : List (τ × Event ρ ι α)) (u : τ) (a : Event ρ ι α) (t : τ)
    (ha : ∀ i, a ≠ .call i) :
    lastCall (l ++ [(u, a)]) t = lastCall l t := by
  rw [lastCall, List.foldl_append]
  cases a with
  | call i => exact absurd rfl (ha i)
  | _ => rfl

theorem lastCall_call (l : List (τ × Event ρ ι α)) (u : τ) (i : ι) (t : τ) :
    lastCall (l ++ [(u, .call i)]) t = if u = t then some i else lastCall l t := by
  rw [lastCall, List.foldl_append]
  rfl

/-- What the others do does not matter. -/
theorem lastCall_of_ne (l : List (τ × Event ρ ι α)) {u t : τ} (a : Event ρ ι α) (h : t ≠ u) :
    lastCall (l ++ [(u, a)]) t = lastCall l t := by
  cases a with
  | call i => rw [lastCall_call, if_neg h.symm]
  | _ => exact lastCall_snoc l u _ t (by simp)

variable {C : Contract ρ L} {act : τ → σ → (o : ω) → ρ o → σ → Prop} {call : ι → Prog ρ α}
  {J : List (τ × Event ρ ι α) → (τ → L) → σ → Prop} {rest : L → Prop} {begins : ι → L → Prop}
    {post : ι → α → L → Prop}

/-- What a thread holds lets it go on from where it is, to the end that is said of its call. -/
def Contract.Serves (C : Contract ρ L) (rest : L → Prop) (post : ι → α → L → Prop) (h : L)
    (last : Option ι) :
    Option (Prog ρ α) → Prop
  | none => rest h
  | some p => ∃ i, last = some i ∧ wp C p (fun a h => rest h ∧ post i a h) h

/-- Threads that run programs which the contract lets through keep what holds, and serve their
calls. -/
theorem Contract.Upheld.serves (hC : C.Upheld act rest begins J)
    (hcall : ∀ i h, begins i h → wp C (call i) (fun a h => rest h ∧ post i a h) h)
    {l : List (τ × Event ρ ι α)} {c c' : Threads τ σ (Option (Prog ρ α))}
    (h : Run (Threads.Step (Serve act call)) c l c') {g : τ → L} (hJ : J [] g c.shared)
    (hrest : ∀ t, rest (g t)) (hidle : ∀ t, c.loc t = none) :
    ∃ g, J l g c'.shared ∧ ∀ t, C.Serves rest post (g t) (lastCall l t) (c'.loc t) := by
  refine h.history_invariant (I := fun l c => ∃ g, J l g c.shared ∧
    ∀ t, C.Serves rest post (g t) (lastCall l t) (c.loc t)) ?_ ⟨g, hJ, fun t => ?_⟩
  · rintro l c ⟨t, a⟩ c' ⟨g, hJ, hA⟩ ⟨hown, hothers⟩
    dsimp only at hown hothers
    -- the others are where they were, and have not called anew
    have hall (h' : L) (ht' : C.Serves rest post h' (lastCall (l ++ [(t, a)]) t) (c'.loc t))
      (u : τ) :
        C.Serves rest post (Function.update g t h' u) (lastCall (l ++ [(t, a)]) u) (c'.loc u) := by
      by_cases hu : u = t
      · rw [hu, Function.update_self]
        exact ht'
      · rw [Function.update_of_ne hu, lastCall_of_ne l a hu, hothers u hu]
        exact hA u
    have ht := hA t
    cases a with
    | call i =>
      obtain ⟨hp, hs, hp'⟩ := Serve.call_iff.mp hown
      rw [hp] at ht
      obtain ⟨h', hi, hJ'⟩ := hC.call l g _ t i hJ ht
      rw [← hs] at hJ'
      refine ⟨_, hJ', hall h' ?_⟩
      rw [hp', lastCall_call, if_pos rfl]
      exact ⟨i, rfl, hcall i h' hi⟩
    | did o r =>
      obtain ⟨k, hp, hact, hp'⟩ := Serve.did_iff.mp hown
      rw [hp] at ht
      obtain ⟨i, hi, hwp⟩ := ht
      obtain ⟨h', hwp', hJ'⟩ := hC.op l g _ t o r _ _ hJ hwp hact
      refine ⟨_, hJ', hall h' ?_⟩
      rw [hp', lastCall_snoc l t _ t (by simp)]
      exact ⟨i, hi, hwp'⟩
    | tau =>
      obtain ⟨_, _, body, b, k, hp, hs, hp'⟩ := Serve.tau_iff.mp hown
      rw [hp] at ht
      obtain ⟨i, hi, hwp⟩ := ht
      have hJ' := hC.other l g _ t .tau (by simp) (by simp) hJ
      rw [← hs, ← Function.update_eq_self t g] at hJ'
      refine ⟨_, hJ', hall (g t) ?_⟩
      rw [hp', lastCall_snoc l t _ t (by simp)]
      exact ⟨i, hi, wp_loop hwp⟩
    | returned a =>
      obtain ⟨hp, hs, hp'⟩ := Serve.returned_iff.mp hown
      rw [hp] at ht
      obtain ⟨i, hi, hwp⟩ := ht
      have hJ' := hC.other l g _ t (.returned a) (by simp) (by simp) hJ
      rw [← hs, ← Function.update_eq_self t g] at hJ'
      refine ⟨_, hJ', hall (g t) ?_⟩
      rw [hp']
      exact hwp.1
  · rw [hidle t]
    exact hrest t

/-- What a thread returns is as is said of its call. -/
theorem Contract.Upheld.returned (hC : C.Upheld act rest begins J)
    (hcall : ∀ i h, begins i h → wp C (call i) (fun a h => rest h ∧ post i a h) h)
    {l : List (τ × Event ρ ι α)} {t : τ} {a : α} {c c' : Threads τ σ (Option (Prog ρ α))}
    (h : Run (Threads.Step (Serve act call)) c (l ++ [(t, .returned a)]) c')
    {g : τ → L} (hJ : J [] g c.shared) (hrest : ∀ t, rest (g t)) (hidle : ∀ t, c.loc t = none) :
    ∃ g i, J l g c'.shared ∧ lastCall l t = some i ∧ post i a (g t) := by
  obtain ⟨c₁, hrun, hlast⟩ := h.split
  obtain ⟨g, hJ', hA⟩ := hC.serves hcall hrun hJ hrest hidle
  cases hlast with
  | cons hs hnil =>
    cases hnil
    obtain ⟨hp, hs', -⟩ := Serve.returned_iff.mp hs.own
    have ht := hA t
    rw [hp] at ht
    rw [← hs'] at hJ'
    obtain ⟨i, hi, hwp⟩ := ht
    exact ⟨g, i, hJ', hi, hwp.2⟩

end Returned

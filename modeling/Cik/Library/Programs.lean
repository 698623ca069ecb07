import Cik.Library.Threads

/-!
# Programs that threads run

A program returns a value, or does an operation and goes on with what the operation
answers, or goes round a loop. What an operation does to the shared state is given from
outside; threads that run programs take one operation at a time each.

A `Contract` says what an operation asks of what its thread holds, and what the thread
holds after it. `Prog.wp` follows a program by the contract alone, without the shared
state and without the other threads; `Prog.wp_bind` and `Prog.wp_iterate` take it apart.
That the operations fulfil the contract, whatever the other threads hold, is shown once
for each operation (`Contract.Fulfilled`), and `Contract.Fulfilled.invariant` is what
then holds in every state.

A thread that runs while the others do not needs no contract but what the operations do
(`Contract.alone`): what `Prog.wp` then says of a program holds of the shared state when
the program returns (`Contract.alone_run`). Where a part of a program does operations of
one kind only, what these keep it keeps (`Prog.wp_of_all`).
-/

/-- Programs; the operation `o` answers a value of type `ρ o`. -/
inductive Prog {ω : Type} (ρ : ω → Type) : Type → Type 1 where
  /-- A value is returned. -/
  | pure {α : Type} (a : α) : Prog ρ α
  /-- An operation, and what follows it. -/
  | op {α : Type} (o : ω) (k : ρ o → Prog ρ α) : Prog ρ α
  /-- A loop, whose body says how it goes on: once more, or with what follows. -/
  | loop {α β γ : Type} (body : β → Prog ρ (β ⊕ γ)) (b : β) (k : γ → Prog ρ α) : Prog ρ α

namespace Prog

variable {ω : Type} {ρ : ω → Type} {α β γ : Type}

/-- One program after the other. -/
def bind {α β : Type} : Prog ρ α → (α → Prog ρ β) → Prog ρ β
  | .pure a, f => f a
  | .op o k, f => .op o fun r => (k r).bind f
  | .loop body b k, f => .loop body b fun c => (k c).bind f

instance : Monad (Prog ρ) where
  pure := .pure
  bind := .bind

/-- A loop. -/
def iterate (body : β → Prog ρ (β ⊕ γ)) (b : β) : Prog ρ γ := .loop body b .pure

/-- How a loop goes on. -/
def continueLoop (body : β → Prog ρ (β ⊕ γ)) (k : γ → Prog ρ α) : β ⊕ γ → Prog ρ α
  | .inl b => .loop body b k
  | .inr c => k c

/-- What can be seen of a step. -/
inductive Event {ω : Type} (ρ : ω → Type) (ι α : Type) where
  /-- A program is begun. -/
  | call (i : ι)
  /-- An operation is done, with this answer. -/
  | did (o : ω) (r : ρ o)
  /-- Nothing. -/
  | tau
  /-- The program has ended. -/
  | returned (a : α)

variable {τ ι σ : Type*}

/-- The steps of a thread that runs one program after the other. -/
inductive Serve {ι : Type} (act : τ → σ → (o : ω) → ρ o → σ → Prop) (call : ι → Prog ρ α) (t : τ) :
    σ → Option (Prog ρ α) → Event ρ ι α → σ → Option (Prog ρ α) → Prop where
  /-- A program is begun. -/
  | call {s : σ} (i : ι) : Serve act call t s none (.call i) s (some (call i))
  /-- An operation. -/
  | op {s s' : σ} {o : ω} {r : ρ o} {k : ρ o → Prog ρ α} (h : act t s o r s') :
      Serve act call t s (some (.op o k)) (.did o r) s' (some (k r))
  /-- Once round a loop. -/
  | loop {s : σ} {β γ : Type} {body : β → Prog ρ (β ⊕ γ)} {b : β} {k : γ → Prog ρ α} :
      Serve act call t s (some (.loop body b k)) .tau s (some (body b >>= continueLoop body k))
  /-- The program has ended. -/
  | returned {s : σ} {a : α} : Serve act call t s (some (.pure a)) (.returned a) s none

namespace Serve

variable {ι : Type} {act : τ → σ → (o : ω) → ρ o → σ → Prop} {call : ι → Prog ρ α} {t : τ}
  {s s' : σ} {p p' : Option (Prog ρ α)}

theorem call_iff {i : ι} : Serve act call t s p (.call i) s' p' ↔ p = none ∧ s' = s ∧
    p' = some (call i) := by
  constructor
  · rintro ⟨⟩
    exact ⟨rfl, rfl, rfl⟩
  · rintro ⟨rfl, rfl, rfl⟩
    exact .call i

theorem did_iff {o : ω} {r : ρ o} : Serve act call t s p (.did o r) s' p' ↔
    ∃ k, p = some (.op o k) ∧ act t s o r s' ∧ p' = some (k r) := by
  constructor
  · rintro ⟨⟩
    exact ⟨_, rfl, ‹_›, rfl⟩
  · rintro ⟨k, rfl, h, rfl⟩
    exact .op h

theorem tau_iff : Serve act call t s p .tau s' p' ↔
    ∃ (β γ : Type) (body : β → Prog ρ (β ⊕ γ)) (b : β) (k : γ → Prog ρ α),
    p = some (.loop body b k) ∧ s' = s ∧ p' = some (body b >>= continueLoop body k) := by
  constructor
  · rintro ⟨⟩
    exact ⟨_, _, _, _, _, rfl, rfl, rfl⟩
  · rintro ⟨β, γ, body, b, k, rfl, rfl, rfl⟩
    exact .loop

theorem returned_iff {a : α} : Serve act call t s p (.returned a) s' p' ↔ p = some (.pure a) ∧
    s' = s ∧ p' = none := by
  constructor
  · rintro ⟨⟩
    exact ⟨rfl, rfl, rfl⟩
  · rintro ⟨rfl, rfl, rfl⟩
    exact .returned

/-- What the operations do is all that matters of them. -/
theorem congr {act' : τ → σ → (o : ω) → ρ o → σ → Prop} {a : Event ρ ι α}
    (h : Serve act call t s p a s' p')
    (hact : ∀ o r, a = .did o r → act t s o r s' → act' t s o r s') :
    Serve act' call t s p a s' p' := by
  cases h with
  | call i => exact .call i
  | op h => exact .op (hact _ _ rfl h)
  | loop => exact .loop
  | returned => exact .returned

/-- Between two programs a thread can only begin one. -/
theorem of_idle {a : Event ρ ι α} (h : Serve act call t s none a s' p') : ∃ i, a = .call i := by
  cases h with
  | call i => exact ⟨i, rfl⟩

end Serve

end Prog

/-- What an operation asks of what its thread holds, and what the thread holds after it:
`spec o Q h` says that a thread that holds `h` can do `o` and that `Q` holds then. -/
structure Contract {ω : Type} (ρ : ω → Type) (L : Type*) where
  /-- What holds before an operation, given what is to hold after it. -/
  spec : (o : ω) → (ρ o → L → Prop) → L → Prop
  /-- If more is to hold after it, more has to hold before it. -/
  mono : ∀ {o : ω} {Q Q' : ρ o → L → Prop} {h : L}, (∀ r h, Q r h → Q' r h) →
    spec o Q h → spec o Q' h

namespace Prog

variable {ω : Type} {ρ : ω → Type} {α β γ : Type} {L : Type*} {C : Contract ρ L} {Q Q' : α →
  L → Prop} {h : L}

/-- A thread that holds `h` can run the program, and at its end `Q` holds. -/
def wp {α : Type} (C : Contract ρ L) : Prog ρ α → (α → L → Prop) → L → Prop
  | .pure a, Q => Q a
  | .op o k, Q => C.spec o fun r => wp C (k r) Q
  | .loop (β := β) body b k, Q => fun h => ∃ I : β → L → Prop, I b h ∧ ∀ b h, I b h →
      wp C (body b) (fun x h => Sum.elim (fun b => I b h) (fun c => wp C (k c) Q h) x) h

@[simp] theorem wp_pure {a : α} : wp C (Pure.pure a) Q h ↔ Q a h := Iff.rfl

theorem wp_op {o : ω} {k : ρ o → Prog ρ α} : wp C (.op o k) Q h ↔
    C.spec o (fun r => wp C (k r) Q) h := Iff.rfl

theorem wp_mono (p : Prog ρ α) (hQ : ∀ a h, Q a h → Q' a h) (hp : wp C p Q h) : wp C p Q' h := by
  induction p generalizing h with
  | pure a => exact hQ a h hp
  | op o k ih => exact C.mono (fun r _ hr => ih r hQ hr) hp
  | loop body b k ihb ihk =>
    obtain ⟨I, hI, hstep⟩ := hp
    refine ⟨I, hI, fun b h hb => ihb b (fun x h' hx => ?_) (hstep b h hb)⟩
    cases x with
    | inl b => exact hx
    | inr c => exact ihk c hQ hx

/-- One program after the other. -/
@[simp] theorem wp_bind (p : Prog ρ α) (f : α → Prog ρ β) {Q : β → L → Prop} :
    wp C (p >>= f) Q h ↔ wp C p (fun a h => wp C (f a) Q h) h := by
  change wp C (p.bind f) Q h ↔ _
  induction p generalizing h with
  | pure a => rfl
  | op o k ih => exact ⟨C.mono fun r _ => (ih r f).mp, C.mono fun r _ => (ih r f).mpr⟩
  | loop body b k _ ihk =>
    constructor
    · rintro ⟨I, hI, hstep⟩
      refine ⟨I, hI, fun b h hb => wp_mono (body b) (fun x h' hx => ?_) (hstep b h hb)⟩
      cases x with
      | inl b => exact hx
      | inr c => exact (ihk c f).mp hx
    · rintro ⟨I, hI, hstep⟩
      refine ⟨I, hI, fun b h hb => wp_mono (body b) (fun x h' hx => ?_) (hstep b h hb)⟩
      cases x with
      | inl b => exact hx
      | inr c => exact (ihk c f).mpr hx

/-- A loop, with an invariant. -/
theorem wp_iterate {body : β → Prog ρ (β ⊕ γ)} {b : β} {Q : γ → L → Prop}
    (I : β → L → Prop) (hI : I b h)
    (hstep : ∀ b h, I b h →
      wp C (body b) (fun x h => Sum.elim (fun b => I b h) (fun c => Q c h) x) h) :
    wp C (iterate body b) Q h := ⟨I, hI, hstep⟩

/-- Once round a loop. -/
theorem wp_loop {body : β → Prog ρ (β ⊕ γ)} {b : β} {k : γ → Prog ρ α}
    (hp : wp C (.loop body b k) Q h) :
    wp C (body b >>= continueLoop body k) Q h := by
  obtain ⟨I, hI, hstep⟩ := hp
  refine (wp_bind _ _).mpr (wp_mono (body b) (fun x h' hx => ?_) (hstep b h hI))
  cases x with
  | inl b => exact ⟨I, hx, hstep⟩
  | inr c => exact hx

/-! ### Programs that do operations of one kind -/

/-- Every operation that the program may do is of this kind. -/
def All {α : Type} (R : ω → Prop) : Prog ρ α → Prop
  | .pure _ => True
  | .op o k => R o ∧ ∀ r, All R (k r)
  | .loop body _ k => (∀ b, All R (body b)) ∧ ∀ c, All R (k c)

variable {R R' : ω → Prop}

@[simp] theorem all_pure {a : α} : All R (Pure.pure a : Prog ρ α) := trivial

theorem All.mono {p : Prog ρ α} (hp : All R p) (h : ∀ o, R o → R' o) : All R' p := by
  induction p with
  | pure a => trivial
  | op o k ih => exact ⟨h o hp.1, fun r => ih r (hp.2 r)⟩
  | loop body b k ihb ihk => exact ⟨fun b => ihb b (hp.1 b), fun c => ihk c (hp.2 c)⟩

theorem all_of_forall (h : ∀ o, R o) (p : Prog ρ α) : All R p := by
  induction p with
  | pure a => trivial
  | op o k ih => exact ⟨h o, ih⟩
  | loop body b k ihb ihk => exact ⟨ihb, ihk⟩

theorem All.bind {p : Prog ρ α} {f : α → Prog ρ β} (hp : All R p) (hf : ∀ a, All R (f a)) :
    All R (p >>= f) := by
  change All R (p.bind f)
  induction p with
  | pure a => exact hf a
  | op o k ih => exact ⟨hp.1, fun r => ih r (hp.2 r) hf⟩
  | loop body b k _ ihk => exact ⟨hp.1, fun c => ihk c (hp.2 c) hf⟩

theorem all_iterate {body : β → Prog ρ (β ⊕ γ)} (h : ∀ b, All R (body b)) (b : β) :
    All R (iterate body b) :=
  ⟨h, fun _ => trivial⟩

/-- What the operations of a program keep holds at its end. -/
theorem wp_of_all {I : L → Prop} (hop : ∀ o h, R o → I h → C.spec o (fun _ => I) h) {p : Prog ρ α}
    (hp : All R p) (hQ : ∀ a h, I h → Q a h) (hI : I h) : wp C p Q h := by
  induction p generalizing h with
  | pure a => exact hQ a h hI
  | op o k ih => exact C.mono (fun r h' hI' => ih r (hp.2 r) hQ hI') (hop o h hp.1 hI)
  | loop body b k ihb ihk =>
    refine ⟨fun _ => I, hI, fun b h hb => ihb b (hp.1 b) (fun x h' hI' => ?_) hb⟩
    cases x with
    | inl b => exact hI'
    | inr c => exact ihk c (hp.2 c) hQ hI'

end Prog

namespace Contract

open Prog

variable {ω : Type} {ρ : ω → Type} {ι α : Type} {τ σ : Type*} {L : Type*} [DecidableEq τ]

/-- What a thread holds lets it go on from where it is; between programs it is at rest. -/
def Covers (C : Contract ρ L) (rest : L → Prop) (h : L) : Option (Prog ρ α) → Prop
  | none => rest h
  | some p => wp C p (fun _ => rest) h

/-- The operations fulfil the contract: what an operation does leaves what holds of the
shared state and of what the threads hold, once its thread holds what the contract says. -/
structure Fulfilled (C : Contract ρ L) (act : τ → σ → (o : ω) → ρ o → σ → Prop)
    (J : List (τ × Event ρ ι α) → (τ → L) → σ → Prop) : Prop where
  /-- An operation. -/
  op : ∀ l g s t o r s' Q, J l g s → C.spec o Q (g t) → act t s o r s' →
    ∃ h', Q r h' ∧ J (l ++ [(t, .did o r)]) (Function.update g t h') s'
  /-- Another step. -/
  other : ∀ l g s t a, (∀ o r, a ≠ .did o r) → J l g s → J (l ++ [(t, a)]) g s

variable {C : Contract ρ L} {act : τ → σ → (o : ω) → ρ o → σ → Prop} {call : ι → Prog ρ α}
  {J : List (τ × Event ρ ι α) → (τ → L) → σ → Prop} {rest : L → Prop}

theorem Fulfilled.keeps (hC : C.Fulfilled act J)
    (hcall : ∀ i h, rest h → wp C (call i) (fun _ => rest) h) :
    Threads.Keeps (Serve act call) J fun g t _ loc => C.Covers rest (g t) loc := by
  intro l g t s p a s' p' hJ hA hs
  cases hs with
  | call i => exact ⟨g, hC.other l g s t _ (fun _ _ => nofun) hJ, hcall i _ hA, fun _ _ _ hq => hq⟩
  | op h =>
    obtain ⟨h', hwp, hJ'⟩ := hC.op l g s t _ _ _ _ hJ hA h
    refine ⟨Function.update g t h', hJ', ?_, fun u hu q hq => ?_⟩
    · show C.Covers rest (Function.update g t h' t) _
      rw [Function.update_self]
      exact hwp
    · show C.Covers rest (Function.update g t h' u) q
      rw [Function.update_of_ne hu]
      exact hq
  | loop => exact ⟨g, hC.other l g s t _ (fun _ _ => nofun) hJ, wp_loop hA, fun _ _ _ hq => hq⟩
  | returned => exact ⟨g, hC.other l g s t _ (fun _ _ => nofun) hJ, hA, fun _ _ _ hq => hq⟩

/-- Threads that run programs which the contract lets through keep what holds. -/
theorem Fulfilled.invariant (hC : C.Fulfilled act J)
    (hcall : ∀ i h, rest h → wp C (call i) (fun _ => rest) h) {l : List (τ × Event ρ ι α)}
    {c c' : Threads τ σ (Option (Prog ρ α))} (h : Run (Threads.Step (Serve act call)) c l c')
    (h₀ : Threads.Holds J (fun g t _ loc => C.Covers rest (g t) loc) [] c) :
    Threads.Holds J (fun g t _ loc => C.Covers rest (g t) loc) l c' :=
  Threads.invariant (hC.keeps hcall) h h₀

end Contract

/-! ### A thread that runs alone -/

namespace Contract

open Prog

variable {ω : Type} {ρ : ω → Type} {ι α : Type} {τ σ : Type*} {act : τ → σ → (o : ω) →
  ρ o → σ → Prop} {call : ι → Prog ρ α} {Q : α → σ → Prop} {t : τ}

/-- What an operation of the thread does is all that is asked and promised. -/
def alone (act : τ → σ → (o : ω) → ρ o → σ → Prop) (t : τ) : Contract ρ σ where
  spec := fun o Q s => ∀ r s', act t s o r s' → Q r s'
  mono := fun hQ hs r s' ha => hQ r s' (hs r s' ha)

/-- What holds whatever the state need not be followed. -/
theorem wp_alone_of_forall (h : ∀ a s, Q a s) (p : Prog ρ α) {s : σ} : wp (alone act t) p Q s :=
  wp_of_all (R := fun _ => True) (I := fun _ => True) (fun _ _ _ _ _ _ _ => trivial)
    (all_of_forall (fun _ => trivial) p) (fun a s _ => h a s) trivial

/-- A program that nobody else takes a step beside, and that returns, returns with what it was
followed to. -/
theorem alone_run {l : List (τ × Event ρ ι α)} {c c' : Threads τ σ (Option (Prog ρ α))}
    {p : Prog ρ α} {a : α} (h : Run (Threads.Step (Serve act call)) c (l ++ [(t, .returned a)]) c')
    (hl : ∀ x ∈ l, x.1 = t ∧ ∀ i, x.2 ≠ .call i) (hp : c.loc t = some p)
    (hwp : wp (alone act t) p Q c.shared) :
    Q a c'.shared ∧ c'.loc t = none ∧ ∀ u, u ≠ t → c'.loc u = c.loc u := by
  have hidle {c c' : Threads τ σ (Option (Prog ρ α))} {x : Event ρ ι α}
      (hs : Threads.Step (Serve act call) c (t, x) c') (hn : c.loc t = none) :
      ∃ i, x = .call i := by
    have hown := hs.own
    rw [hn] at hown
    exact hown.of_idle
  induction l generalizing c p with
  | nil =>
    cases h with
    | cons hs hrun =>
      cases hrun
      obtain ⟨hp', hs', hnone⟩ := Serve.returned_iff.mp hs.own
      obtain rfl := Option.some.inj (hp.symm.trans hp')
      rw [← hs'] at hwp
      exact ⟨hwp, hnone, hs.others⟩
  | cons x l ih =>
    obtain ⟨u, x⟩ := x
    obtain ⟨rfl, hcall⟩ : u = t ∧ ∀ i, x ≠ .call i := hl _ List.mem_cons_self
    cases h with
    | @cons _ c₁ _ _ _ hs hrun =>
      have hl' : ∀ y ∈ l, y.1 = u ∧ ∀ i, y.2 ≠ .call i :=
        fun y hy => hl y (List.mem_cons_of_mem _ hy)
      have hrest {p' : Prog ρ α} (hp' : c₁.loc u = some p')
        (hwp' : wp (alone act u) p' Q c₁.shared) :
          Q a c'.shared ∧ c'.loc u = none ∧ ∀ v, v ≠ u → c'.loc v = c.loc v := by
        obtain ⟨hQ, hnone, hothers⟩ := ih hrun hl' hp' hwp'
        exact ⟨hQ, hnone, fun v hv => (hothers v hv).trans (hs.others v hv)⟩
      cases x with
      | call i => exact absurd rfl (hcall i)
      | did o r =>
        obtain ⟨k, hk, hact, hp'⟩ := Serve.did_iff.mp hs.own
        obtain rfl := Option.some.inj (hp.symm.trans hk)
        exact hrest hp' (hwp r _ hact)
      | tau =>
        obtain ⟨_, _, body, b, k, hk, hs', hp'⟩ := Serve.tau_iff.mp hs.own
        obtain rfl := Option.some.inj (hp.symm.trans hk)
        rw [← hs'] at hwp
        exact hrest hp' (wp_loop hwp)
      | returned b =>
        obtain ⟨-, -, hq⟩ := Serve.returned_iff.mp hs.own
        -- the thread has returned, and what comes next is not a call
        cases l with
        | nil =>
          cases hrun with
          | cons hs₁ _ =>
            obtain ⟨i, hi⟩ := hidle hs₁ hq
            cases hi
        | cons y l =>
          obtain ⟨hy, hcall'⟩ := hl' y List.mem_cons_self
          obtain ⟨v, y⟩ := y
          obtain rfl : v = u := hy
          cases hrun with
          | cons hs₁ _ =>
            obtain ⟨i, rfl⟩ := hidle hs₁ hq
            exact absurd rfl (hcall' i)

end Contract

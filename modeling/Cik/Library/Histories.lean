import Cik.Library.Threads

/-!
# Histories

Requests are called and return an answer, and in between they overlap. A history says in
which order they were called and returned (`HistoryEvent`). It is linearizable
(`Linearizable`) when an object that serves one request after the other could have given
the answers, and no request is served after one that was called when it had returned.
Requests that have not returned may have been served or not.

An object that serves each request at once, at some moment after it was called
(`AtomicStep`), has linearizable histories (`linearizable_of_atomic`). So has every system
of threads in which the steps of a thread are steps of such an object, for what the shared
state stands for and how far the thread is (`linearizable_of_steps`).
-/

/-- What is seen of the requests. -/
inductive HistoryEvent (ι ρ : Type*) where
  /-- A request is called. -/
  | call (i : ι)
  /-- It returns an answer. -/
  | ret (i : ι) (r : ρ)

/-- The request had returned when the other one was called. -/
def Precedes {ι ρ : Type*} (h : List (HistoryEvent ι ρ)) (i j : ι) : Prop :=
  ∃ h₁ h₂ r, h = h₁ ++ h₂ ∧ .ret i r ∈ h₁ ∧ .call j ∈ h₂

/-- An object serves a request: it answers, and has another state. -/
def Serves {ι ω σ ρ : Type*} (object : σ → ω → σ × ρ) (op : ι → ω) (s : σ) (a : ι × ρ) (s' : σ) :
    Prop :=
  object s (op a.1) = (s', a.2)

/-- An order in which the object serves the requests with their answers. -/
structure Linearizes {ι ω σ ρ : Type*} (object : σ → ω → σ × ρ) (op : ι → ω) (s₀ : σ)
    (h : List (HistoryEvent ι ρ)) (order : List (ι × ρ)) : Prop where
  /-- No request is served twice. -/
  nodup : (order.map Prod.fst).Nodup
  /-- All requests that returned are served, with their answers. -/
  returned : ∀ i r, .ret i r ∈ h → (i, r) ∈ order
  /-- No others are served than those that were called. -/
  called : ∀ a ∈ order, .call a.1 ∈ h
  /-- A request that had returned when another one was called is not served after it. -/
  realTime : order.Pairwise fun a b => ¬ Precedes h b.1 a.1
  /-- The answers are those of the object. -/
  served : ∃ s, Run (Serves object op) s₀ order s

/-- There is such an order. -/
def Linearizable {ι ω σ ρ : Type*} (object : σ → ω → σ × ρ) (op : ι → ω) (s₀ : σ)
    (h : List (HistoryEvent ι ρ)) : Prop :=
  ∃ order, Linearizes object op s₀ h order

section Precedes

variable {ι ρ : Type*} {h : List (HistoryEvent ι ρ)} {i j : ι} {r : ρ}

theorem Precedes.mem_ret (hp : Precedes h i j) : ∃ r, .ret i r ∈ h := by
  obtain ⟨h₁, h₂, r, rfl, hi, -⟩ := hp
  exact ⟨r, List.mem_append_left h₂ hi⟩

/-- Only a call makes a request come after others. -/
theorem Precedes.of_snoc {e : HistoryEvent ι ρ} (hp : Precedes (h ++ [e]) i j) : Precedes h i j ∨
    e = .call j := by
  obtain ⟨h₁, h₂, r, he, hi, hj⟩ := hp
  rcases List.eq_nil_or_concat h₂ with rfl | ⟨h₂, e', rfl⟩
  · exact absurd hj List.not_mem_nil
  rw [List.concat_eq_append] at he hj
  rw [← List.append_assoc] at he
  obtain ⟨rfl, heq⟩ := List.append_inj' he rfl
  rcases List.mem_append.mp hj with hj | hj
  · exact Or.inl ⟨h₁, h₂, r, rfl, hi, hj⟩
  · exact Or.inr ((List.cons.inj heq).1.trans (List.mem_singleton.mp hj).symm)

/-- What had returned is served before. -/
theorem Linearizes.mem_before {ω σ : Type*} {object : σ → ω → σ × ρ} {op : ι → ω} {s₀ : σ}
    {order A B : List (ι × ρ)} {r' : ρ} (hl : Linearizes object op s₀ h order)
    (horder : order = A ++ (j, r') :: B) (hp : Precedes h i j) (hm : (i, r) ∈ order) (hne : i ≠ j) :
    (i, r) ∈ A := by
  rw [horder] at hm
  rcases List.mem_append.mp hm with hm | hm
  · exact hm
  rcases List.mem_cons.mp hm with he | hm
  · exact absurd (Prod.mk.inj he).1 hne
  · have hreal := hl.realTime
    rw [horder] at hreal
    have hafter := (List.pairwise_cons.mp (List.pairwise_append.mp hreal).2.1).1
    exact absurd hp (hafter (i, r) hm)

end Precedes

/-! ### The object that serves each request at once -/

/-- How far a request is. -/
inductive Phase (ρ : Type*) where
  /-- It has not been called. -/
  | waiting
  /-- It was called. -/
  | called
  /-- It was served. -/
  | served (r : ρ)
  /-- It has returned. -/
  | returned (r : ρ)

/-- A step of a request. -/
inductive AtomicEvent (ρ : Type*) where
  /-- It is called. -/
  | call
  /-- It is served. -/
  | serve
  /-- It returns. -/
  | ret (r : ρ)
  /-- Nothing happens. -/
  | skip

/-- The steps of the requests with the object that serves them. -/
inductive AtomicStep {ι ω σ ρ : Type*} (object : σ → ω → σ × ρ) (op : ι → ω) :
    ι → σ → Phase ρ → AtomicEvent ρ → σ → Phase ρ → Prop where
  /-- The request is called. -/
  | call {i : ι} {s : σ} : AtomicStep object op i s .waiting .call s .called
  /-- It is served. -/
  | serve {i : ι} {s s' : σ} {r : ρ} (h : object s (op i) = (s', r)) :
      AtomicStep object op i s .called .serve s' (.served r)
  /-- It returns. -/
  | ret {i : ι} {s : σ} {r : ρ} : AtomicStep object op i s (.served r) (.ret r) s (.returned r)
  /-- Nothing happens. -/
  | skip {i : ι} {s : σ} {p : Phase ρ} : AtomicStep object op i s p .skip s p

/-- What is seen of a step. -/
def AtomicEvent.seen {ι ρ : Type*} (i : ι) : AtomicEvent ρ → Option (HistoryEvent ι ρ)
  | call => some (.call i)
  | serve => none
  | ret r => some (.ret i r)
  | skip => none

/-- The history of a run. -/
def historyOf {ι ρ : Type*} (l : List (ι × AtomicEvent ρ)) : List (HistoryEvent ι ρ) :=
  l.filterMap fun a => a.2.seen a.1

@[simp] theorem historyOf_nil {ι ρ : Type*} : historyOf ([] : List (ι × AtomicEvent ρ)) = [] := rfl

theorem historyOf_snoc {ι ρ : Type*} (l : List (ι × AtomicEvent ρ)) (i : ι) (e : AtomicEvent ρ) :
    historyOf (l ++ [(i, e)]) = historyOf l ++ (e.seen i).toList := by
  rw [historyOf, List.filterMap_append, historyOf]
  cases he : e.seen i <;> simp [he]

section Atomic

variable {ι ω σ ρ : Type*} {object : σ → ω → σ × ρ} {op : ι → ω} {s₀ : σ}

/-- What holds of the requests served so far, in their order. -/
structure ServedSoFar (object : σ → ω → σ × ρ) (op : ι → ω) (s₀ : σ) (h : List (HistoryEvent ι ρ))
    (c : Threads ι σ (Phase ρ)) (order : List (ι × ρ)) : Prop where
  /-- No request is served twice. -/
  nodup : (order.map Prod.fst).Nodup
  /-- Which are served. -/
  mem : ∀ i r, (i, r) ∈ order ↔ c.loc i = .served r ∨ c.loc i = .returned r
  /-- Which were called. -/
  called : ∀ i, .call i ∈ h ↔ c.loc i ≠ .waiting
  /-- Which have returned. -/
  returned : ∀ i r, .ret i r ∈ h ↔ c.loc i = .returned r
  /-- A request that had returned when another one was called is not served after it. -/
  realTime : order.Pairwise fun a b => ¬ Precedes h b.1 a.1
  /-- What the object is now. -/
  served : Run (Serves object op) s₀ order c.shared

theorem servedSoFar_nil (s₀ : σ) : ServedSoFar object op s₀ [] ⟨s₀, fun _ => .waiting⟩ [] where
  nodup := List.nodup_nil
  mem := fun i r => by simp
  called := fun i => by simp
  returned := fun i r => by simp
  realTime := List.Pairwise.nil
  served := .nil _

section Step

variable {h : List (HistoryEvent ι ρ)} {c : Threads ι σ (Phase ρ)} {order : List (ι × ρ)}
  {i : ι} {r : ρ}

theorem ServedSoFar.call [DecidableEq ι] (hk : ServedSoFar object op s₀ h c order)
    (hi : c.loc i = .waiting) :
    ServedSoFar object op s₀ (h ++ [.call i])
      ⟨c.shared, Function.update c.loc i .called⟩ order where
  nodup := hk.nodup
  mem := fun j r => by
    rw [hk.mem]
    by_cases hj : j = i
    · simp [hj, hi]
    · simp [hj]
  called := fun j => by
    rw [List.mem_append, hk.called]
    by_cases hj : j = i
    · simp [hj]
    · simp [hj]
  returned := fun j r => by
    rw [List.mem_append, hk.returned]
    by_cases hj : j = i
    · simp [hj, hi]
    · simp [hj]
  realTime := by
    refine hk.realTime.imp_of_mem fun {a b} ha _ hnot hp => ?_
    rcases hp.of_snoc with hp | he
    · exact hnot hp
    -- the first one was served, and so it was called before
    · have hserved := (hk.mem a.1 a.2).mp ha
      rw [← (HistoryEvent.call.inj he), hi] at hserved
      simp at hserved
  served := hk.served

theorem ServedSoFar.serve [DecidableEq ι] {s' : σ} (hk : ServedSoFar object op s₀ h c order)
    (hi : c.loc i = .called) (hs : object c.shared (op i) = (s', r)) :
    ServedSoFar object op s₀ h ⟨s', Function.update c.loc i (.served r)⟩ (order ++ [(i, r)]) where
  nodup := by
    rw [List.map_append, List.nodup_append]
    refine ⟨hk.nodup, List.pairwise_singleton _ _, ?_⟩
    rintro j hj _ hi' rfl
    obtain ⟨⟨j', r'⟩, ha, rfl⟩ := List.mem_map.mp hj
    obtain rfl : j' = i := List.mem_singleton.mp hi'
    have hserved := (hk.mem j' r').mp ha
    simp [hi] at hserved
  mem := fun j r' => by
    rw [List.mem_append, hk.mem]
    by_cases hj : j = i
    · simp [hj, hi, eq_comm]
    · simp [hj]
  called := fun j => by
    rw [hk.called]
    by_cases hj : j = i
    · simp [hj, hi]
    · simp [hj]
  returned := fun j r' => by
    rw [hk.returned]
    by_cases hj : j = i
    · simp [hj, hi]
    · simp [hj]
  realTime := by
    refine List.pairwise_append.mpr ⟨hk.realTime, List.pairwise_singleton _ _,
      fun a _ b hb hp => ?_⟩
    -- it has not returned yet
    obtain ⟨r', hr'⟩ := hp.mem_ret
    rw [List.mem_singleton.mp hb, hk.returned, hi] at hr'
    cases hr'
  served := hk.served.snoc hs

theorem ServedSoFar.ret [DecidableEq ι] (hk : ServedSoFar object op s₀ h c order)
    (hi : c.loc i = .served r) :
    ServedSoFar object op s₀ (h ++ [.ret i r])
      ⟨c.shared, Function.update c.loc i (.returned r)⟩ order where
  nodup := hk.nodup
  mem := fun j r' => by
    rw [hk.mem]
    by_cases hj : j = i
    · simp [hj, hi]
    · simp [hj]
  called := fun j => by
    rw [List.mem_append, hk.called]
    by_cases hj : j = i
    · simp [hj, hi]
    · simp [hj]
  returned := fun j r' => by
    rw [List.mem_append, hk.returned]
    by_cases hj : j = i
    · simp [hj, hi, eq_comm]
    · simp [hj]
  realTime := by
    refine hk.realTime.imp fun {a b} hnot hp => ?_
    rcases hp.of_snoc with hp | he
    · exact hnot hp
    · cases he
  served := hk.served

end Step

/-- **The object that serves each request at once.** Its histories are linearizable. -/
theorem linearizable_of_atomic {l : List (ι × AtomicEvent ρ)} {c : Threads ι σ (Phase ρ)}
    (h : Run (Threads.Step (AtomicStep object op)) ⟨s₀, fun _ => .waiting⟩ l c) :
    Linearizable object op s₀ (historyOf l) := by
  classical
  have hkept : ∃ order, ServedSoFar object op s₀ (historyOf l) c order := by
    refine h.history_invariant
      (I := fun l c => ∃ order, ServedSoFar object op s₀ (historyOf l) c order) ?_
      ⟨[], servedSoFar_nil s₀⟩
    rintro l c ⟨i, e⟩ ⟨s', loc'⟩ ⟨order, hk⟩ ⟨hown, hothers⟩
    have hloc : loc' = Function.update c.loc i (loc' i) := Function.eq_update_iff.mpr ⟨rfl, hothers⟩
    rw [historyOf_snoc, hloc]
    dsimp only at hown
    generalize hi : c.loc i = p, loc' i = p' at hown
    cases hown with
    | call => exact ⟨order, hk.call hi⟩
    | serve hs => exact ⟨_, by simpa [AtomicEvent.seen] using hk.serve hi hs⟩
    | ret => exact ⟨order, hk.ret hi⟩
    | skip =>
      have hsame : Function.update c.loc i p = c.loc := by rw [← hi, Function.update_eq_self]
      exact ⟨order, by simpa [AtomicEvent.seen, hsame] using hk⟩
  obtain ⟨order, hk⟩ := hkept
  exact ⟨order, hk.nodup, fun i r hr => (hk.mem i r).mpr (Or.inr ((hk.returned i r).mp hr)),
    fun a ha => (hk.called a.1).mpr fun hw =>
    by simpa [hw] using (hk.mem a.1 a.2).mp ha, hk.realTime, c.shared, hk.served⟩

/-! ### Systems of threads -/

variable {σ' ℓ α : Type*} {step : ι → σ' → ℓ → α → σ' → ℓ → Prop} {C : Threads ι σ' ℓ → ι × α →
  Prop} {J : σ' → Prop}

/-- **Systems of threads.** When every step of a thread is a step of the object that serves each
request at once, for what the shared state stands for and how far the thread is, the histories are
linearizable. -/
theorem linearizable_of_steps (abs : σ' → σ) (phase : ℓ → Phase ρ) (event : α → AtomicEvent ρ)
    (hstep : ∀ c i a s' p', C c (i, a) → J c.shared → step i c.shared (c.loc i) a s' p' →
      J s' ∧ AtomicStep object op i (abs c.shared) (phase (c.loc i)) (event a) (abs s') (phase p'))
    {l : List (ι × α)} {c₀ c : Threads ι σ' ℓ} (h : Run (Provided C (Threads.Step step)) c₀ l c)
    (hJ : J c₀.shared) (hwaiting : ∀ i, phase (c₀.loc i) = .waiting) :
    Linearizable object op (abs c₀.shared) (historyOf (l.map fun a => (a.1, event a.2))) := by
  have hatomic (c : Threads ι σ' ℓ) (a : ι × α) (c' : Threads ι σ' ℓ) (d : Threads ι σ (Phase ρ))
      (hd : J c.shared ∧ d = ⟨abs c.shared, fun i => phase (c.loc i)⟩)
      (hs : Provided C (Threads.Step step) c a c') :
      ∃ d', Threads.Step (AtomicStep object op) d (a.1, event a.2) d' ∧
        J c'.shared ∧ d' = ⟨abs c'.shared, fun i => phase (c'.loc i)⟩ := by
    obtain ⟨hJ, rfl⟩ := hd
    obtain ⟨hC, hown, hothers⟩ := hs
    obtain ⟨hJ', hown⟩ := hstep c a.1 a.2 c'.shared (c'.loc a.1) hC hJ hown
    exact ⟨_, ⟨hown, fun u hu => congrArg phase (hothers u hu)⟩, hJ', rfl⟩
  have h₀ :
      (⟨abs c₀.shared, fun _ => .waiting⟩ : Threads ι σ (Phase ρ)) =
      ⟨abs c₀.shared, fun i => phase (c₀.loc i)⟩ := by
    simp only [hwaiting]
  obtain ⟨d, hrun, -⟩ := h.simulation hatomic ⟨hJ, h₀⟩
  exact linearizable_of_atomic hrun

end Atomic

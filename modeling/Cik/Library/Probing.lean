import Mathlib.Algebra.GroupWithZero.Nat
import Mathlib.Data.Nat.Find
import Mathlib.Logic.Function.Basic
import Mathlib.Tactic.SplitIfs

/-!
# Linear probing

A table of `n` places, each free or taken, is searched from a key's home place on,
one place after the other and from the last on to the first, until the search is
back where it began (`scan`). `rank start p` is how many places lie before `p` in
the search from `start`, and `IsFirst P start p` says that `p` is the first place of
the search with the property `P`; a scan finds the first place that passes its test
(`scan_eq_some_iff`), or there is none (`scan_eq_none_iff`).

There are no tombstones. An entry is put at the first place that is free or holds
its key; so a key may come to be held at several places, when a place nearer to its
home is freed. What is put in last is met first (`isFirst_holds_update`), and the
places of the other keys are as they were (`holds_update_of_ne`). `Unique` says that
no key is held twice; putting a key in where a search for it would find it keeps that so
(`Unique.update`). `Recent` says that the places of a key lie in the order of when they
were filled, the last one first; this is kept whatever places are freed
(`Recent.update`, `Recent.mono`).
-/

namespace Probing

variable {n : ℕ}

/-! ### The order of a search -/

/-- How many places lie before `pos` in the search from `start`. -/
def rank (start pos : Fin n) : ℕ :=
  if start.val ≤ pos.val then pos.val - start.val else n - start.val + pos.val

/-- `p` is the first place with the property `P` in the search from `start`. -/
def IsFirst (P : Fin n → Prop) (start p : Fin n) : Prop :=
  P p ∧ ∀ q, rank start q < rank start p → ¬ P q

theorem rank_lt (start pos : Fin n) : rank start pos < n := by
  have := start.isLt
  have := pos.isLt
  unfold rank
  split_ifs <;> omega

theorem rank_inj (start : Fin n) {p q : Fin n} (h : rank start p = rank start q) : p = q := by
  have := p.isLt
  have := q.isLt
  apply Fin.ext
  unfold rank at h
  split_ifs at h <;> omega

@[simp] theorem rank_self (start : Fin n) : rank start start = 0 := by simp [rank]

theorem IsFirst.unique {P : Fin n → Prop} {start p q : Fin n} (hp : IsFirst P start p)
    (hq : IsFirst P start q) : p = q := by
  apply rank_inj start
  have h₁ : ¬ rank start q < rank start p := fun h => hp.2 q h hq.1
  have h₂ : ¬ rank start p < rank start q := fun h => hq.2 p h hp.1
  omega

/-- Of the places with a property one comes first. -/
theorem exists_isFirst {P : Fin n → Prop} (start : Fin n) (h : ∃ p, P p) :
    ∃ p, IsFirst P start p := by
  classical
  have hex : ∃ i, ∃ p, rank start p = i ∧ P p := h.imp' (rank start) fun p hp => ⟨p, rfl, hp⟩
  obtain ⟨p, hr, hp⟩ := Nat.find_spec hex
  refine ⟨p, hp, fun q hq hP => ?_⟩
  rw [hr] at hq
  exact Nat.find_min hex hq ⟨q, rfl, hP⟩

/-- A search ends where it starts when that place has the property. -/
theorem isFirst_start {P : Fin n → Prop} {start : Fin n} (h : P start) : IsFirst P start start :=
  ⟨h, fun q hq => absurd hq (by simp)⟩

theorem isFirst_congr {P Q : Fin n → Prop} {start p : Fin n} (h : ∀ q, P q ↔ Q q) :
    IsFirst P start p ↔ IsFirst Q start p := by
  have : P = Q := funext fun q => propext (h q)
  rw [this]

/-! ### The search -/

section Search

variable [NeZero n]

/-- The next place of a search. -/
def next (pos : Fin n) : Fin n := if h : pos.val + 1 < n then ⟨pos.val + 1, h⟩ else 0

/-- The search from `pos` on, for at most `fuel` places, until it is back at `start`. -/
def scanFrom (test : Fin n → Bool) (start : Fin n) : ℕ → Fin n → Option (Fin n)
  | 0, _ => none
  | fuel + 1, pos =>
    if test pos then some pos
    else if next pos = start then none else scanFrom test start fuel (next pos)

/-- The search of the whole table from `start` on. -/
def scan (test : Fin n → Bool) (start : Fin n) : Option (Fin n) := scanFrom test start n start

theorem rank_next {start pos : Fin n} (h : next pos ≠ start) :
    rank start (next pos) = rank start pos + 1 := by
  have hs := start.isLt
  have hp := pos.isLt
  have hv : (next pos).val ≠ start.val := fun h' => h (Fin.ext h')
  unfold next at hv ⊢
  unfold rank
  split_ifs at hv ⊢ <;> simp_all <;> omega

theorem rank_of_next {start pos : Fin n} (h : next pos = start) : rank start pos = n - 1 := by
  have hp := pos.isLt
  have hv : (next pos).val = start.val := congrArg Fin.val h
  unfold next at hv
  unfold rank
  split_ifs at hv ⊢ <;> simp at hv <;> omega

/-- What a search finds from `pos` on, when it has got that far. -/
theorem scanFrom_spec (test : Fin n → Bool) (start : Fin n) (fuel : ℕ) (pos : Fin n)
    (hf : rank start pos + fuel = n) :
    match scanFrom test start fuel pos with
    | some p => test p = true ∧
        ∀ q, rank start pos ≤ rank start q → rank start q < rank start p → test q = false
    | none => ∀ q, rank start pos ≤ rank start q → test q = false := by
  induction fuel generalizing pos with
  | zero =>
    have := rank_lt start pos
    omega
  | succ fuel ih =>
    rw [scanFrom]
    by_cases ht : test pos
    · rw [if_pos ht]
      exact ⟨ht, fun q h₁ h₂ => absurd h₁ (by omega)⟩
    · rw [if_neg ht]
      have hpos : test pos = false := by simpa using ht
      by_cases hn : next pos = start
      · rw [if_pos hn]
        intro q hq
        have hr := rank_of_next hn
        have hlt := rank_lt start q
        obtain rfl : q = pos := rank_inj start (by omega)
        exact hpos
      · rw [if_neg hn]
        have hr := rank_next hn
        have key := ih (next pos) (by omega)
        have hstep {q : Fin n} (hq : rank start pos ≤ rank start q) :
            q = pos ∨ rank start (next pos) ≤ rank start q := by
          by_cases he : rank start pos = rank start q
          · exact Or.inl (rank_inj start he.symm)
          · exact Or.inr (by omega)
        cases hs : scanFrom test start fuel (next pos) with
        | none =>
          rw [hs] at key
          exact fun q hq => (hstep hq).elim (fun h => h ▸ hpos) (key q)
        | some p =>
          rw [hs] at key
          exact ⟨key.1, fun q hq hlt => (hstep hq).elim (fun h => h ▸ hpos) fun h => key.2 q h hlt⟩

/-- A search ends at its second place when that has the property and the first has not. -/
theorem isFirst_next {P : Fin n → Prop} {start : Fin n} (h₀ : ¬ P start) (h : P (next start))
    (hne : next start ≠ start) : IsFirst P start (next start) := by
  refine ⟨h, fun q hq => ?_⟩
  have hr := rank_next hne
  rw [rank_self] at hr
  obtain rfl : q = start := rank_inj start (by rw [rank_self]; omega)
  exact h₀

/-- A search finds the first place that passes the test. -/
theorem scan_eq_some_iff {test : Fin n → Bool} {start p : Fin n} :
    scan test start = some p ↔ IsFirst (fun q => test q = true) start p := by
  have hs := scanFrom_spec test start n start (by simp)
  have of_some {p : Fin n} (h : scan test start = some p) :
      IsFirst (fun q => test q = true) start p := by
    rw [show scanFrom test start n start = some p from h] at hs
    exact ⟨hs.1, fun q hq => by simp [hs.2 q (by simp) hq]⟩
  refine ⟨of_some, fun hp => ?_⟩
  cases h : scan test start with
  | some q => rw [(of_some h).unique hp]
  | none =>
    rw [show scanFrom test start n start = none from h] at hs
    exact absurd hp.1 (by simp [hs p (by simp)])

/-- A search finds nothing when no place passes the test. -/
theorem scan_eq_none_iff {test : Fin n → Bool} {start : Fin n} :
    scan test start = none ↔ ∀ p, test p = false := by
  constructor
  · intro h p
    have hs := scanFrom_spec test start n start (by simp)
    rw [show scanFrom test start n start = none from h] at hs
    exact hs p (by simp)
  · intro h
    cases hs : scan test start with
    | none => rfl
    | some p => exact absurd (scan_eq_some_iff.mp hs).1 (by simp [h p])

end Search

/-! ### Tables of entries with keys -/

variable {κ ε : Type*} (key : ε → κ)

/-- The entry at place `p` has key `k`. -/
def Holds (t : Fin n → Option ε) (k : κ) (p : Fin n) : Prop := ∃ e, t p = some e ∧ key e = k

/-- Place `p` is free, or its entry has key `k`. -/
def Open (t : Fin n → Option ε) (k : κ) (p : Fin n) : Prop := t p = none ∨ Holds key t k p

/-- No key is held at two places. -/
def Unique (t : Fin n → Option ε) : Prop := ∀ k p q, Holds key t k p → Holds key t k q → p = q

variable {key} {t : Fin n → Option ε} {k k' : κ} {p q start : Fin n} {e : ε}

theorem Holds.key_eq (h : Holds key t k p) (h' : Holds key t k' p) : k = k' := by
  obtain ⟨e, he, rfl⟩ := h
  obtain ⟨e', he', rfl⟩ := h'
  rw [he, Option.some.injEq] at he'
  rw [he']

/-- The places of a key after its entry was put at a place open to it. -/
theorem holds_update (hk : key e = k) :
    Holds key (Function.update t p (some e)) k q ↔ q = p ∨ Holds key t k q := by
  by_cases h : q = p
  · subst h
    simp [Holds, hk]
  · simp [Holds, h]

/-- The places of another key after an entry was put at a place open to its key. -/
theorem holds_update_of_ne (hk : key e = k) (ho : Open key t k p) (hne : k' ≠ k) :
    Holds key (Function.update t p (some e)) k' q ↔ Holds key t k' q := by
  by_cases h : q = p
  · subst h
    have hl : ¬ Holds key (Function.update t q (some e)) k' q := by
      rintro ⟨e', he', rfl⟩
      rw [Function.update_self, Option.some.injEq] at he'
      exact hne (he' ▸ hk)
    have hr : ¬ Holds key t k' q := by
      intro hh
      rcases ho with hf | ho
      · obtain ⟨e', he', -⟩ := hh
        rw [hf] at he'
        cases he'
      · exact hne (hh.key_eq ho)
    exact iff_of_false hl hr
  · simp [Holds, h]

/-- The places of a key after one of them was freed. -/
theorem holds_update_none : Holds key (Function.update t p none) k q ↔ q ≠ p ∧ Holds key t k q := by
  by_cases h : q = p
  · subst h
    simp [Holds]
  · simp [Holds, h]

/-- An entry put at the first place open to its key is what a search for the key finds. -/
theorem isFirst_holds_update (hk : key e = k) (hp : IsFirst (Open key t k) start p) :
    IsFirst (Holds key (Function.update t p (some e)) k) start p := by
  refine ⟨(holds_update hk).mpr (Or.inl rfl), fun q hq h => ?_⟩
  rcases (holds_update hk).mp h with rfl | h
  · omega
  · exact hp.2 q hq (Or.inr h)

theorem Unique.isFirst (hu : Unique key t) (hp : Holds key t k p) (start : Fin n) :
    IsFirst (Holds key t k) start p := by
  obtain ⟨q, hq⟩ := exists_isFirst start ⟨p, hp⟩
  rwa [hu k p q hp hq.1]

/-- Putting an entry at a place open to its key, when its key is held nowhere else,
makes no second copy. -/
theorem Unique.update (hu : Unique key t) (hk : key e = k) (ho : Open key t k p)
    (hp : ∀ q, Holds key t k q → q = p) : Unique key (Function.update t p (some e)) := by
  intro k' a b ha hb
  by_cases hne : k' = k
  · subst hne
    have hall {q : Fin n} (h : Holds key (Function.update t p (some e)) k' q) : q = p :=
      ((holds_update hk).mp h).elim id (hp q)
    rw [hall ha, hall hb]
  · exact hu k' a b ((holds_update_of_ne hk ho hne).mp ha) ((holds_update_of_ne hk ho hne).mp hb)

/-- Freeing a place makes no second copy. -/
theorem Unique.update_none (hu : Unique key t) : Unique key (Function.update t p none) := by
  intro k a b ha hb
  exact hu k a b (holds_update_none.mp ha).2 (holds_update_none.mp hb).2

/-! ### Which place was filled last -/

/-- Of two places with the same key the one that a search from the key's home meets first was
filled last. -/
structure Recent (key : ε → κ) (home : κ → Fin n) (t : Fin n → Option ε) (since : Fin n → ℕ)
    (clock : ℕ) : Prop where
  /-- The order. -/
  order : ∀ k p q, Holds key t k p → Holds key t k q → rank (home k) p < rank (home k) q →
    since q < since p
  /-- The places in use were filled before now. -/
  past : ∀ p e, t p = some e → since p < clock

section Recent

variable {home : κ → Fin n} {t' : Fin n → Option ε} {since : Fin n → ℕ} {clock : ℕ}

/-- Freeing places keeps the order of those left. -/
theorem Recent.mono (h : Recent key home t since clock) (ht : ∀ p e, t' p = some e → t p = some e) :
    Recent key home t' since clock where
  order := by
    rintro k p q ⟨e, he, hk⟩ ⟨e', he', hk'⟩ hlt
    exact h.order k p q ⟨e, ht p e he, hk⟩ ⟨e', ht q e' he', hk'⟩ hlt
  past p e he := h.past p e (ht p e he)

/-- A place that is filled is the first of its key's, and is filled last. -/
theorem Recent.update (h : Recent key home t since clock) (hk : key e = k)
    (hp : IsFirst (Open key t k) (home k) p) :
    Recent key home (Function.update t p (some e)) (Function.update since p clock) (clock + 1) where
  order := by
    intro k' a b ha hb hlt
    by_cases hne : k' = k
    · subst hne
      have hbp : b ≠ p := by
        rintro rfl
        rcases (holds_update hk).mp ha with rfl | ha
        · exact Nat.lt_irrefl _ hlt
        · exact hp.2 a hlt (Or.inr ha)
      have hb' := ((holds_update hk).mp hb).resolve_left hbp
      rw [Function.update_of_ne hbp]
      by_cases hap : a = p
      · obtain ⟨e', he', -⟩ := hb'
        rw [hap, Function.update_self]
        exact h.past b e' he'
      · rw [Function.update_of_ne hap]
        exact h.order k' a b (((holds_update hk).mp ha).resolve_left hap) hb' hlt
    · have hfree {q : Fin n} (hq : Holds key (Function.update t p (some e)) k' q) : q ≠ p := by
        rintro rfl
        obtain ⟨e', he', hk'⟩ := hq
        rw [Function.update_self, Option.some.injEq] at he'
        exact hne (hk' ▸ he' ▸ hk)
      rw [Function.update_of_ne (hfree ha), Function.update_of_ne (hfree hb)]
      exact h.order k' a b ((holds_update_of_ne hk hp.1 hne).mp ha)
        ((holds_update_of_ne hk hp.1 hne).mp hb) hlt
  past := by
    intro q e' he'
    by_cases hq : q = p
    · rw [hq, Function.update_self]
      exact Nat.lt_succ_self clock
    · rw [Function.update_of_ne hq] at he' ⊢
      exact Nat.lt_succ_of_lt (h.past q e' he')

/-- What a search finds was filled last. -/
theorem Recent.isFirst (h : Recent key home t since clock) (hp : IsFirst (Holds key t k) (home k) p)
    (hq : Holds key t k q) (hne : q ≠ p) : since q < since p := by
  refine h.order k p q hp.1 hq ?_
  have hge : ¬ rank (home k) q < rank (home k) p := fun hlt => hp.2 q hlt hq
  have hne' : rank (home k) q ≠ rank (home k) p := fun he => hne (rank_inj _ he)
  omega

end Recent

end Probing

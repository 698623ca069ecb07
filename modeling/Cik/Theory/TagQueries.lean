import Cik.Source.KeyLists
import Mathlib.Data.Finset.Lattice.Fold
import Mathlib.Order.Lattice.Nat

/-!
# Tag queries

The union and the intersection of the key lists of some tags, as `tag.c` makes them in
memory. The two functions come to their end without error, with the list that the
functions of the tag index's own module give (`getKeysMatchingAnyTag_spec`,
`getKeysMatchingAllTags_spec`). What was in use before is as it was, and of what they
reserve they keep the elements of the result and release the rest (`Since`).
-/

namespace Cik

namespace KeyLists

open LinkedList

variable {A : Allocator} {m₀ m : KeyMemory} {own : Multiset ℕ} {l : List (ℕ × CacheKey)}
  {p r : Option ℕ} {a : ℕ} {key : CacheKey}

/-- The addresses of the elements of a list. -/
def bases (l : List (ℕ × CacheKey)) : Multiset ℕ := (l.map Prod.fst : List ℕ)

/-- The keys of a list. -/
def keysOf (l : List (ℕ × CacheKey)) : List CacheKey := l.map Prod.snd

@[simp] theorem bases_nil : bases [] = 0 := rfl

@[simp] theorem bases_cons (x : ℕ × CacheKey) (l : List (ℕ × CacheKey)) :
    bases (x :: l) = x.1 ::ₘ bases l := rfl

@[simp] theorem bases_append (l l' : List (ℕ × CacheKey)) :
    bases (l ++ l') = bases l + bases l' := by simp [bases]

@[simp] theorem keysOf_nil : keysOf [] = [] := rfl

@[simp] theorem keysOf_cons (x : ℕ × CacheKey) (l : List (ℕ × CacheKey)) :
    keysOf (x :: l) = x.2 :: keysOf l := rfl

@[simp] theorem keysOf_append (l l' : List (ℕ × CacheKey)) :
    keysOf (l ++ l') = keysOf l ++ keysOf l' := by simp [keysOf]

/-! ### What happens to memory -/

/-- From `m₀` to `m` nothing that was in use has changed, the elements `own` have been
reserved and are in use, and what else was reserved has been released. -/
structure Since (m₀ m : KeyMemory) (own : Multiset ℕ) : Prop where
  /-- What was in use. -/
  old : ∀ a ∈ m₀.live, m.cells a = m₀.cells a
  /-- What is in use. -/
  live : ∀ a, a ∈ m.live ↔ a ∈ m₀.live ∨ a ∈ own
  /-- The elements are others than those that were in use. -/
  fresh : ∀ a ∈ own, a ∉ m₀.live
  /-- Each is there once. -/
  nodup : own.Nodup
  /-- What was reserved and released. -/
  account : ∃ others, m.reserved = m₀.reserved + (own + others) ∧ m.released = m₀.released + others

namespace Since

theorem refl (m : KeyMemory) : Since m m 0 := by
  refine ⟨fun _ _ => rfl, fun a => ?_, fun a ha => ?_, Multiset.nodup_zero, 0, ?_, ?_⟩
  · simp
  · simp at ha
  · simp
  · simp

/-- What an element of its own is made. -/
theorem createKeyElem (h : Since m₀ m own) (key : CacheKey) :
    ∃ b m', m.createKeyElem A key = (b, m') ∧ b ∉ m.live ∧ m'.cells b = some ⟨key, none⟩ ∧
      (∀ a, a ≠ b → m'.cells a = m.cells a) ∧ Since m₀ m' (b ::ₘ own) := by
  have hb : A.pick m.live ∉ m.live := A.fresh m.live
  have hb' : ¬ (A.pick m.live ∈ m₀.live ∨ A.pick m.live ∈ own) := fun h' => hb ((h.live _).mpr h')
  rw [not_or] at hb'
  refine ⟨A.pick m.live, _, rfl, hb, Function.update_self ..,
    fun a ha => Function.update_of_ne ha .., ?_⟩
  obtain ⟨others, hres, hrel⟩ := h.account
  refine ⟨fun a ha => ?_, fun a => ?_, fun a ha => ?_, Multiset.nodup_cons.mpr ⟨hb'.2, h.nodup⟩,
    others, ?_, hrel⟩
  · have hne : a ≠ A.pick m.live := fun heq => hb'.1 (heq ▸ ha)
    exact (Function.update_of_ne hne ..).trans (h.old a ha)
  · show a ∈ insert (A.pick m.live) m.live ↔ _
    rw [Finset.mem_insert, h.live, Multiset.mem_cons]
    tauto
  · rcases Multiset.mem_cons.mp ha with rfl | ha
    · exact hb'.1
    · exact h.fresh a ha
  · show A.pick m.live ::ₘ m.reserved = _
    rw [hres, Multiset.cons_add, Multiset.add_cons]

/-- An element of its own is released. -/
theorem release (h : Since m₀ m (a ::ₘ own)) :
    ∃ m', m.release a = some m' ∧ (∀ b, b ≠ a → m'.cells b = m.cells b) ∧ Since m₀ m' own := by
  have hlive : a ∈ m.live := (h.live a).mpr (Or.inr (Multiset.mem_cons_self a own))
  have hold : a ∉ m₀.live := h.fresh a (Multiset.mem_cons_self a own)
  obtain ⟨hown, hnodup⟩ := Multiset.nodup_cons.mp h.nodup
  refine ⟨_, if_pos hlive, fun b hb => Function.update_of_ne hb .., ?_⟩
  obtain ⟨others, hres, hrel⟩ := h.account
  refine ⟨fun b hb => ?_, fun b => ?_, fun b hb => h.fresh b (Multiset.mem_cons_of_mem hb), hnodup,
    a ::ₘ others, ?_, ?_⟩
  · have hne : b ≠ a := fun heq => hold (heq ▸ hb)
    exact (Function.update_of_ne hne ..).trans (h.old b hb)
  · show b ∈ m.live.erase a ↔ _
    rw [Finset.mem_erase, h.live, Multiset.mem_cons]
    by_cases hb : b = a
    · subst hb
      simp [hold, hown]
    · simp [hb]
  · show m.reserved = _
    rw [hres, Multiset.cons_add, Multiset.add_cons a own]
  · show a ::ₘ m.released = _
    rw [hrel, Multiset.add_cons]

/-- The link of an element of its own is written. -/
theorem setNext (h : Since m₀ m own) (ha : a ∈ own) {n : Option ℕ} (hc : m.cells a = some ⟨key, n⟩)
    (n' : Option ℕ) :
    ∃ m', m.setNext a n' = some m' ∧ m'.cells = Function.update m.cells a (some ⟨key, n'⟩) ∧
      Since m₀ m' own := by
  have hlive : a ∈ m.live := (h.live a).mpr (Or.inr ha)
  have hcells : (fun b => (m.cells b).map fun e => if b = a then { e with next := n' } else e) =
      Function.update m.cells a (some ⟨key, n'⟩) := by
    funext b
    by_cases hb : b = a
    · subst hb
      simp [hc]
    · simp [hb]
  refine ⟨_, if_pos hlive, hcells, ?_⟩
  refine ⟨fun b hb => ?_, h.live, h.fresh, h.nodup, h.account⟩
  have hne : b ≠ a := fun heq => h.fresh a ha (heq ▸ hb)
  show (m.cells b).map (fun e => if b = a then { e with next := n' } else e) = _
  rw [← h.old b hb]
  simp [hne]

/-- What is its own is in use. -/
theorem mem_live (h : Since m₀ m own) (ha : a ∈ own) : a ∈ m.live := (h.live a).mpr (Or.inr ha)

end Since

/-- The elements of a list are in use, so there are no more of them. -/
theorem length_le_card (h : Chain m.cells p l) : l.length ≤ m.live.card := by
  have hsub : (l.map Prod.fst).toFinset ⊆ m.live := by
    intro a ha
    obtain ⟨c, hc⟩ := Segment.exists_cell h (List.mem_toFinset.mp ha)
    rw [m.mem_live, hc]
    rfl
  have hcard := Finset.card_le_card hsub
  rwa [List.toFinset_card_of_nodup h.nodup, List.length_map] at hcard

/-! ### Loops over one list -/

theorem hasKey_spec {fuel : ℕ} (h : Chain m.cells p l) (hf : l.length ≤ fuel) (key : CacheKey) :
    hasKey fuel m p key = some (decide (key ∈ keysOf l)) := by
  induction l generalizing fuel p with
  | nil =>
    obtain rfl : p = none := h
    simp [hasKey]
  | cons x l ih =>
    obtain ⟨a, k⟩ := x
    obtain ⟨rfl, n, hn, h⟩ := h
    obtain ⟨fuel, rfl⟩ :=
      Nat.exists_eq_succ_of_ne_zero (Nat.ne_of_gt (Nat.lt_of_lt_of_le (Nat.succ_pos _) hf))
    simp only [hasKey, hn, Option.bind_eq_bind, Option.bind_some]
    by_cases hk : k = key
    · simp [hk]
    · rw [if_neg hk, ih h (Nat.le_of_succ_le_succ hf)]
      simp [Ne.symm hk]

theorem releaseLoop_spec {fuel : ℕ} (hs : Since m₀ m (bases l + own)) (h : Chain m.cells p l)
    (hf : l.length ≤ fuel) :
    ∃ m', releaseLoop fuel m p = some m' ∧ Since m₀ m' own ∧ ∀ a, a ∉ bases l →
    m'.cells a = m.cells a := by
  induction l generalizing fuel m p with
  | nil =>
    obtain rfl : p = none := h
    exact ⟨m, by cases fuel <;> rfl, by simpa using hs, fun _ _ => rfl⟩
  | cons x l ih =>
    obtain ⟨a, k⟩ := x
    have hnd := h.nodup
    obtain ⟨rfl, n, hn, h⟩ := h
    obtain ⟨fuel, rfl⟩ :=
      Nat.exists_eq_succ_of_ne_zero (Nat.ne_of_gt (Nat.lt_of_lt_of_le (Nat.succ_pos _) hf))
    rw [bases_cons, Multiset.cons_add] at hs
    obtain ⟨m₁, hrel, hsame, hs₁⟩ := hs.release
    -- the rest of the list is not touched
    have h₁ : Chain m₁.cells n l := Segment.congr h fun b hb => hsame b fun heq =>
      (List.nodup_cons.mp hnd).1 (heq ▸ hb)
    obtain ⟨m', hrun, hs', hsame'⟩ := ih hs₁ h₁ (Nat.le_of_succ_le_succ hf)
    refine ⟨m', ?_, hs', fun b hb => ?_⟩
    · simp only [releaseLoop, hn, Option.bind_eq_bind, Option.bind_some, hrel]
      exact hrun
    · rw [bases_cons, Multiset.mem_cons, not_or] at hb
      rw [hsame' b hb.2, hsame b hb.1]

theorem releaseKeyList_spec (hs : Since m₀ m (bases l + own)) (h : Chain m.cells p l) :
    ∃ m', releaseKeyList m p = some m' ∧ Since m₀ m' own ∧ ∀ a, a ∉ bases l →
    m'.cells a = m.cells a :=
  releaseLoop_spec hs h (length_le_card h)

/-- A key is put before the others if it is not there. -/
theorem insertIfUnique_spec (hs : Since m₀ m (bases l + own)) (h : Chain m.cells p l)
    (key : CacheKey) :
    ∃ p' isNew m' l', insertIfUnique A m p key = some (p', isNew, m') ∧ Chain m'.cells p' l' ∧
      keysOf l' = (Cik.insertIfUnique (keysOf l) key).1 ∧ Since m₀ m' (bases l' + own) ∧
      ∀ a ∈ m.live, m'.cells a = m.cells a := by
  unfold insertIfUnique Cik.insertIfUnique
  rw [hasKey_spec h (length_le_card h)]
  simp only [Option.bind_eq_bind, Option.bind_some, decide_eq_true_eq]
  split_ifs with hk
  · exact ⟨p, false, m, l, rfl, h, rfl, hs, fun _ _ => rfl⟩
  · obtain ⟨b, m₁, hcreate, hb, hnew, hsame, hs₁⟩ := hs.createKeyElem (A := A) key
    obtain ⟨m₂, hset, hcells, hs₂⟩ := hs₁.setNext (Multiset.mem_cons_self b _) hnew p
    have hsame₂ (a : ℕ) (ha : a ≠ b) : m₂.cells a = m.cells a := by
      rw [hcells, Function.update_of_ne ha, hsame a ha]
    simp only [hcreate, hset, Option.bind_some]
    refine ⟨some b, true, m₂, (b, key) :: l, rfl,
      ⟨rfl, p, ?_, h.congr fun a ha => hsame₂ a ?_⟩, rfl, ?_, ?_⟩
    · rw [hcells, Function.update_self]
    · rintro rfl
      exact hb (hs.mem_live (Multiset.mem_add.mpr (Or.inl ha)))
    · rwa [bases_cons, Multiset.cons_add]
    · intro a ha
      refine hsame₂ a ?_
      rintro rfl
      exact hb ha

/-- The place behind a list is written to. -/
theorem write_behind (hs : Since m₀ m (bases l + own)) (h : Segment m.cells p l r) (r' : Option ℕ) :
    ∃ p' m', m.write p (behind l) r' = some (p', m') ∧ Segment m'.cells p' l r' ∧
      Since m₀ m' (bases l + own) ∧ ∀ a, a ∉ bases l → m'.cells a = m.cells a := by
  rcases List.eq_nil_or_concat l with rfl | ⟨l, ⟨a, key⟩, rfl⟩
  · exact ⟨r', m, rfl, rfl, hs, fun _ _ => rfl⟩
  · rw [List.concat_eq_append] at hs h ⊢
    have ha : a ∈ bases (l ++ [(a, key)]) := by simp
    have hnd : ((l ++ [(a, key)]).map Prod.fst).Nodup :=
      Multiset.coe_nodup.mp (Multiset.nodup_of_le (Multiset.le_add_right _ own) hs.nodup)
    obtain ⟨m', hset, hcells, hs'⟩ :=
      hs.setNext (Multiset.mem_add.mpr (Or.inl ha)) (segment_concat.mp h).2 r'
    refine ⟨p, m', ?_, ?_, hs', fun b hb => ?_⟩
    · rw [behind_concat, KeyMemory.write, hset]
      rfl
    · rw [hcells]
      exact h.relink hnd r'
    · rw [hcells, Function.update_of_ne]
      rintro rfl
      exact hb ha

/-- A list that was in use is copied behind what is copied already. -/
theorem copyLoop_spec {fuel : ℕ} {new : Option ℕ} {l' : List (ℕ × CacheKey)}
    (hs : Since m₀ m (bases l' + own)) (h : Chain m.cells p l) (hl : ∀ a ∈ bases l, a ∈ m₀.live)
    (hnew : Chain m.cells new l') (hf : l.length ≤ fuel) :
    ∃ new' m' l'', copyLoop A fuel m p new (behind l') = some (new', m') ∧ Chain m'.cells new' l'' ∧
      keysOf l'' = keysOf l' ++ keysOf l ∧ Since m₀ m' (bases l'' + own) ∧
      ∀ a ∈ own, m'.cells a = m.cells a := by
  induction l generalizing fuel m p new l' with
  | nil =>
    obtain rfl : p = none := h
    exact ⟨new, m, l', by cases fuel <;> rfl, hnew, by simp, hs, fun _ _ => rfl⟩
  | cons x l ih =>
    obtain ⟨a, key⟩ := x
    obtain ⟨rfl, n, hn, h⟩ := h
    obtain ⟨fuel, rfl⟩ :=
      Nat.exists_eq_succ_of_ne_zero (Nat.ne_of_gt (Nat.lt_of_lt_of_le (Nat.succ_pos _) hf))
    obtain ⟨b, m₁, hcreate, hb, hcell, hsame, hs₁⟩ := hs.createKeyElem (A := A) key
    have hb' (c : ℕ) (hc : c ∈ m.live) : c ≠ b := by
      rintro rfl
      exact hb hc
    have hbl : b ∉ bases l' := fun hmem => hb (hs.mem_live (Multiset.mem_add.mpr (Or.inl hmem)))
    -- the copy is appended
    have hnew₁ : Segment m₁.cells new l' none := Segment.congr hnew fun c hc =>
      hsame c (hb' c (hs.mem_live (Multiset.mem_add.mpr (Or.inl hc))))
    have hs₁' : Since m₀ m₁ (bases l' + (b ::ₘ own)) := by rwa [Multiset.add_cons]
    obtain ⟨new', m₂, hwrite, hnew₂, hs₂, hsame₂⟩ := write_behind hs₁' hnew₁ (some b)
    have hcopied : Chain m₂.cells new' (l' ++ [(b, key)]) :=
      segment_concat.mpr ⟨hnew₂, by rw [hsame₂ b hbl, hcell]⟩
    have hs₂' : Since m₀ m₂ (bases (l' ++ [(b, key)]) + own) := by
      rwa [bases_append, bases_cons, bases_nil, Multiset.cons_zero, add_assoc,
        Multiset.singleton_add]
    -- what is to be copied is as it was
    have hold (c : ℕ) (hc : c ∈ m₀.live) : m₂.cells c = m.cells c :=
      (hs₂.old c hc).trans (hs.old c hc).symm
    have hl' : ∀ c ∈ bases l, c ∈ m₀.live := fun c hc => hl c (Multiset.mem_cons_of_mem hc)
    have h₂ : Chain m₂.cells n l := Segment.congr h fun c hc => hold c (hl' c hc)
    have hn₂ : m₂.cells a = some ⟨key, n⟩ :=
      (hold a (hl a (Multiset.mem_cons_self a (bases l)))).trans hn
    obtain ⟨p', m', l'', hrun, hchain, hkeys, hs', hsame'⟩ :=
      ih hs₂' h₂ hl' hcopied (Nat.le_of_succ_le_succ hf)
    refine ⟨p', m', l'', ?_, hchain, ?_, hs', fun c hc => ?_⟩
    · rw [behind_concat] at hrun
      simp only [copyLoop, hn, hcreate, hwrite, hn₂, Option.bind_eq_bind, Option.bind_some]
      exact hrun
    · rw [hkeys]
      simp
    · have hcl : c ∉ bases l' := by
        intro hmem
        exact (Multiset.disjoint_left.mp (Multiset.nodup_add.mp hs.nodup).2.2) hmem hc
      rw [hsame' c hc, hsame₂ c hcl,
        hsame c (hb' c (hs.mem_live (Multiset.mem_add.mpr (Or.inr hc))))]

theorem copyKeyList_spec (hs : Since m₀ m own) (h : Chain m.cells p l)
    (hl : ∀ a ∈ bases l, a ∈ m₀.live) :
    ∃ p' m' l', copyKeyList A m p = some (p', m') ∧ Chain m'.cells p' l' ∧ keysOf l' = keysOf l ∧
      Since m₀ m' (bases l' + own) ∧ ∀ a ∈ own, m'.cells a = m.cells a := by
  have hs' : Since m₀ m (bases [] + own) := by rwa [bases_nil, zero_add]
  have hnew : Chain m.cells none [] := rfl
  exact copyLoop_spec hs' h hl hnew (length_le_card h)

/-! ### Two lists -/

theorem mergeLoop_spec {fuel : ℕ} {found : Option ℕ} {lf : List (ℕ × CacheKey)}
    (hs : Since m₀ m (bases lf + own)) (h : Chain m.cells p l) (hl : ∀ a ∈ bases l, a ∈ own)
    (hfound : Chain m.cells found lf) (hf : l.length ≤ fuel) :
    ∃ found' m' lf', mergeLoop A fuel m p found = some (found', m') ∧ Chain m'.cells found' lf' ∧
      keysOf lf' = mergeKeys (keysOf lf) (keysOf l) ∧ Since m₀ m' (bases lf' + own) ∧
      ∀ a ∈ own, m'.cells a = m.cells a := by
  induction l generalizing fuel m p found lf with
  | nil =>
    obtain rfl : p = none := h
    exact ⟨found, m, lf, by cases fuel <;> rfl, hfound, rfl, hs, fun _ _ => rfl⟩
  | cons x l ih =>
    obtain ⟨a, key⟩ := x
    obtain ⟨rfl, n, hn, h⟩ := h
    obtain ⟨fuel, rfl⟩ :=
      Nat.exists_eq_succ_of_ne_zero (Nat.ne_of_gt (Nat.lt_of_lt_of_le (Nat.succ_pos _) hf))
    obtain ⟨found₁, isNew, m₁, lf₁, hinsert, hfound₁, hkeys₁, hs₁, hsame₁⟩ :=
      insertIfUnique_spec (A := A) hs hfound key
    have hown (c : ℕ) (hc : c ∈ own) : m₁.cells c = m.cells c :=
      hsame₁ c (hs.mem_live (Multiset.mem_add.mpr (Or.inr hc)))
    have hl' : ∀ c ∈ bases l, c ∈ own := fun c hc => hl c (Multiset.mem_cons_of_mem hc)
    have h₁ : Chain m₁.cells n l := Segment.congr h fun c hc => hown c (hl' c hc)
    have hn₁ : m₁.cells a = some ⟨key, n⟩ :=
      (hown a (hl a (Multiset.mem_cons_self a (bases l)))).trans hn
    obtain ⟨found', m', lf', hrun, hchain, hkeys, hs', hsame'⟩ :=
      ih hs₁ h₁ hl' hfound₁ (Nat.le_of_succ_le_succ hf)
    refine ⟨found', m', lf', ?_, hchain, ?_, hs', fun c hc => (hsame' c hc).trans (hown c hc)⟩
    · simp only [mergeLoop, hn, hinsert, hn₁, Option.bind_eq_bind, Option.bind_some]
      exact hrun
    · rw [hkeys, hkeys₁]
      rfl

/-- A round that keeps its element. -/
theorem retainLoop_keep {fuel : ℕ} {keys head n : Option ℕ} {link : Link ℕ} {goto : Bool}
    (hlink : follow m.cells head link = some (some a)) (hn : m.cells a = some ⟨key, n⟩)
    (hround : hasKey m.live.card m keys key = some true) :
    retainLoop (fuel + 1) m keys head link goto = retainLoop fuel m keys head (.next a) false := by
  rw [retainLoop, hlink]
  simp only [hn, hround, Option.bind_eq_bind, Option.bind_some, if_true]

/-- A round that releases its element: the link holds the one behind it. -/
theorem retainLoop_drop {fuel : ℕ} {keys head head' n : Option ℕ} {link : Link ℕ} {goto : Bool}
    (hlink : follow m.cells head link = some (some a)) (hn : m.cells a = some ⟨key, n⟩)
    (hround : hasKey m.live.card m keys key = some false)
    (hwrite : m.write head link n = some (head', m₁)) (hrel : m₁.release a = some m₂)
    (hnext : follow m₂.cells head' link = some n) :
    retainLoop (fuel + 1) m keys head link goto =
      if n.isSome then retainLoop fuel m₂ keys head' link true else some (head', m₂) := by
  rw [retainLoop, hlink]
  cases n <;>
    simp only [hn, hround, hwrite, hrel, hnext, Option.bind_eq_bind, Option.bind_some,
      Option.isSome_none, Option.isSome_some, Bool.false_eq_true, if_false, if_true]

/-- An element is taken out of a list and released: the rest of the list, and what else was
reserved, is as it was. -/
theorem unlink_release {head n : Option ℕ} {kept rest : List (ℕ × CacheKey)}
    (hs : Since m₀ m (bases (kept ++ (a, key) :: rest) + own))
    (hkept : Segment m.cells head kept (some a)) (hrest : Chain m.cells n rest) :
    ∃ head' m₁ m₂, m.write head (behind kept) n = some (head', m₁) ∧ m₁.release a = some m₂ ∧
      Segment m₂.cells head' kept n ∧ Chain m₂.cells n rest ∧
      Since m₀ m₂ (bases (kept ++ rest) + own) ∧ ∀ c ∈ own, m₂.cells c = m.cells c := by
  have hs₀ : Since m₀ m (bases kept + (a ::ₘ (bases rest + own))) := by
    rwa [bases_append, bases_cons, add_assoc, Multiset.cons_add] at hs
  obtain ⟨head', m₁, hwrite, hkept₁, hs₁, hsame₁⟩ := write_behind hs₀ hkept n
  rw [Multiset.add_cons] at hs₁
  obtain ⟨m₂, hrel, hsame₂, hs₂⟩ := hs₁.release
  -- it is none of the others
  have hnd := hs₁.nodup
  rw [Multiset.nodup_cons, Multiset.mem_add, Multiset.mem_add, not_or, not_or] at hnd
  obtain ⟨⟨hakept, harest, haown⟩, hnd⟩ := hnd
  have hdisj (c : ℕ) (hc : c ∈ bases rest + own) : c ∉ bases kept := fun hck =>
    (Multiset.disjoint_left.mp (Multiset.nodup_add.mp hnd).2.2) hck hc
  have hother (c : ℕ) (hc : c ∈ bases rest + own) : m₂.cells c = m.cells c := by
    have hca : c ≠ a := by
      rintro rfl
      exact (Multiset.mem_add.mp hc).elim harest haown
    rw [hsame₂ c hca, hsame₁ c (hdisj c hc)]
  refine ⟨head', m₁, m₂, hwrite, hrel, ?_, ?_, ?_,
    fun c hc => hother c (Multiset.mem_add.mpr (Or.inr hc))⟩
  · exact hkept₁.congr fun c hc => hsame₂ c fun heq => hakept (heq ▸ hc)
  · exact Segment.congr hrest fun c hc => hother c (Multiset.mem_add.mpr (Or.inl hc))
  · rwa [bases_append, add_assoc]

/-- The elements that are in the other list stay where they are. The list is cut where `found_key`
is: `kept` was gone through, `rest` was not. After a jump there is another element. -/
theorem retainLoop_spec {fuel : ℕ} {keys head : Option ℕ}
    {kept rest lk : List (ℕ × CacheKey)} {goto : Bool}
    (hs : Since m₀ m (bases (kept ++ rest) + own)) (hkept : Segment m.cells head kept r)
    (hrest : Chain m.cells r rest) (hkeys : Chain m.cells keys lk) (hlk : ∀ a ∈ bases lk, a ∈ own)
    (hgoto : goto = true → rest ≠ []) (hf : rest.length < fuel) :
    ∃ p' m' l', retainLoop fuel m keys head (behind kept) goto = some (p', m') ∧
      Chain m'.cells p' l' ∧ keysOf l' = keysOf kept ++ retainKeys (keysOf rest) (keysOf lk) ∧
      Since m₀ m' (bases l' + own) ∧ ∀ a ∈ own, m'.cells a = m.cells a := by
  obtain ⟨fuel, rfl⟩ :=
    Nat.exists_eq_succ_of_ne_zero (Nat.ne_of_gt (Nat.lt_of_le_of_lt (Nat.zero_le _) hf))
  induction rest generalizing fuel m head kept r goto with
  | nil =>
    obtain rfl : r = none := hrest
    have hfalse : goto = false := by
      cases goto
      · rfl
      · exact absurd rfl (hgoto rfl)
    rw [List.append_nil] at hs
    refine ⟨head, m, kept, ?_, hkept, by simp [retainKeys], hs, fun _ _ => rfl⟩
    simp [retainLoop, follow_behind hkept, hfalse]
  | cons x rest ih =>
    obtain ⟨a, key⟩ := x
    obtain ⟨rfl, n, hn, hrest⟩ := hrest
    obtain ⟨fuel, rfl⟩ :=
      Nat.exists_eq_succ_of_ne_zero (Nat.ne_of_gt (Nat.lt_of_le_of_lt (Nat.zero_le _)
      (Nat.lt_of_succ_lt_succ hf)))
    have hfuel : rest.length < fuel + 1 := Nat.lt_of_succ_lt_succ hf
    have hround := hasKey_spec hkeys (length_le_card hkeys) key
    by_cases hk : key ∈ keysOf lk
    · -- the element stays
      have hkept' : Segment m.cells head (kept ++ [(a, key)]) n := segment_concat.mpr ⟨hkept, hn⟩
      have hs' : Since m₀ m (bases (kept ++ [(a, key)] ++ rest) + own) := by
        rwa [List.append_assoc, List.singleton_append]
      have hgoto' : false = true → rest ≠ [] := by simp
      obtain ⟨p', m', l', hrun, hchain, hl', hs', hsame⟩ :=
        ih hs' hkept' hrest hkeys hgoto' fuel hfuel
      refine ⟨p', m', l', ?_, hchain, ?_, hs', hsame⟩
      · rw [behind_concat] at hrun
        rw [retainLoop_keep (follow_behind hkept) hn (by rw [hround, decide_eq_true hk])]
        exact hrun
      · rw [hl']
        simp [retainKeys, hk]
    · -- the element is unlinked and released
      obtain ⟨head', m₁, m₂, hwrite, hrel, hkept₂, hrest₂, hs₂', hown⟩ :=
        unlink_release hs hkept hrest
      have hkeys₂ : Chain m₂.cells keys lk := Segment.congr hkeys fun c hc => hown c (hlk c hc)
      have hretain :
          retainKeys (keysOf ((a, key) :: rest)) (keysOf lk) = retainKeys (keysOf rest)
          (keysOf lk) := by
        simp [retainKeys, hk]
      rw [retainLoop_drop (follow_behind hkept) hn (by rw [hround, decide_eq_false hk]) hwrite hrel
        (follow_behind hkept₂), hretain]
      cases hrest' : rest with
      | nil =>
        -- it was the last one
        subst hrest'
        obtain rfl : n = none := hrest₂
        rw [List.append_nil] at hs₂'
        exact ⟨head', m₂, kept, rfl, hkept₂, by simp [retainKeys], hs₂', hown⟩
      | cons y rest' =>
        -- the one behind it is looked at in the same place
        obtain ⟨b, k⟩ := y
        have hnext : n = some b := by
          rw [hrest'] at hrest₂
          exact hrest₂.1
        have hne : rest ≠ [] := by
          rw [hrest']
          exact List.cons_ne_nil _ _
        obtain ⟨p', m', l', hrun, hchain, hl', hs', hsame⟩ :=
          ih hs₂' hkept₂ hrest₂ hkeys₂ (fun _ => hne) fuel hfuel
        rw [hrest'] at hl'
        subst hnext
        exact ⟨p', m', l', hrun, hchain, hl', hs', fun c hc => (hsame c hc).trans (hown c hc)⟩

/-! ### The lists of several tags -/

variable {heads : KeyHeads} {tree : TagTree} {combine : KeyMemory → Option ℕ → Option ℕ →
  Option (Option ℕ × KeyMemory)} {f : List CacheKey → List CacheKey → List CacheKey}

/-- The key lists of the tags lie in memory. -/
def Represents (heads : KeyHeads) (m : KeyMemory) (tree : TagTree) : Prop :=
  ∀ tag, Option.Rel (fun head node => ∃ l, Chain m.cells head l ∧ keysOf l = node.keys)
    (heads.find compareTags tag) (getTagIfExists tree tag)

/-- The elements of a list are in use. -/
theorem live_of_chain (h : Chain m.cells p l) (ha : a ∈ bases l) : a ∈ m.live := by
  obtain ⟨c, hc⟩ := Segment.exists_cell h ha
  rw [m.mem_live, hc]
  rfl

/-- The lists of the tags stay where they are. -/
theorem Represents.since (hr : Represents heads m₀ tree) (hs : Since m₀ m own) :
    Represents heads m tree := by
  intro tag
  have h := hr tag
  generalize heads.find compareTags tag = head at h ⊢
  generalize getTagIfExists tree tag = node at h ⊢
  cases h with
  | none => exact .none
  | some h =>
    obtain ⟨l, hl, hkeys⟩ := h
    exact .some ⟨l, Segment.congr hl fun a ha => hs.old a (live_of_chain hl ha), hkeys⟩

theorem getKeyListCopyByTag_spec (hr : Represents heads m₀ tree) (hs : Since m₀ m own)
    (tag : CacheTag) :
    ∃ p' m' l', getKeyListCopyByTag A heads m tag = some (p', m') ∧ Chain m'.cells p' l' ∧
      keysOf l' = Cik.getKeyListCopyByTag tree tag ∧ Since m₀ m' (bases l' + own) ∧
      ∀ a ∈ own, m'.cells a = m.cells a := by
  unfold getKeyListCopyByTag Cik.getKeyListCopyByTag
  have h := hr tag
  generalize heads.find compareTags tag = head at h ⊢
  generalize getTagIfExists tree tag = node at h ⊢
  cases h with
  | none => exact ⟨none, m, [], rfl, rfl, rfl, by simpa using hs, fun _ _ => rfl⟩
  | some h =>
    obtain ⟨l, hl, hkeys⟩ := h
    have hlive (a : ℕ) (ha : a ∈ bases l) : a ∈ m₀.live := live_of_chain hl ha
    have hl' := Segment.congr hl fun a ha => hs.old a (hlive a ha)
    obtain ⟨p', m', l', hrun, hchain, hk, hs', hsame⟩ := copyKeyList_spec (A := A) hs hl' hlive
    exact ⟨p', m', l', hrun, hchain, (hk.trans hkeys).trans (copyKeyList_eq _).symm, hs', hsame⟩

/-- What is done with the keys of one more tag: the keys found are as `f` says, and the list of the
tag, which is among `own`, stays as it is. -/
def Combines (m₀ : KeyMemory)
    (combine : KeyMemory → Option ℕ → Option ℕ → Option (Option ℕ × KeyMemory))
    (f : List CacheKey → List CacheKey → List CacheKey) : Prop :=
  ∀ m own keys lk found lf, Since m₀ m (bases lf + own) → Chain m.cells keys lk →
    (∀ a ∈ bases lk, a ∈ own) → Chain m.cells found lf →
    ∃ found' m' lf', combine m keys found = some (found', m') ∧ Chain m'.cells found' lf' ∧
      keysOf lf' = f (keysOf lf) (keysOf lk) ∧ Since m₀ m' (bases lf' + own) ∧
      ∀ a ∈ own, m'.cells a = m.cells a

theorem combines_merge :
    Combines m₀ (fun m keys found => mergeLoop A m.live.card m keys found) mergeKeys :=
  fun _ _ _ _ _ _ hs hkeys hown hfound => mergeLoop_spec hs hkeys hown hfound (length_le_card hkeys)

theorem combines_retain :
    Combines m₀ (fun m keys found => retainLoop (m.live.card + 1) m keys found .head false)
      retainKeys := by
  intro m own keys lk found lf hs hkeys hown hfound
  have hlen : lf.length < m.live.card + 1 := Nat.lt_succ_of_le (length_le_card hfound)
  have hkept : Segment m.cells found [] found := rfl
  exact retainLoop_spec hs hkept hfound hkeys hown nofun hlen

/-- The loop over the tags. -/
theorem combineTags_spec (hc : Combines m₀ combine f) (hr : Represents heads m₀ tree)
    (tags : List CacheTag) (hs : Since m₀ m (bases l)) (h : Chain m.cells p l) :
    ∃ p' m' l', combineTags A combine heads tags m p = some (p', m') ∧
      Chain m'.cells p' l' ∧ keysOf l' =
        tags.foldl (fun found_keys tag => f found_keys (Cik.getKeyListCopyByTag tree tag))
          (keysOf l) ∧
      Since m₀ m' (bases l') := by
  induction tags generalizing m p l with
  | nil => exact ⟨p, m, l, rfl, h, rfl, hs⟩
  | cons tag tags ih =>
    obtain ⟨keys, m₁, lk, hcopy, hkeys, hk, hs₁, hsame₁⟩ :=
      getKeyListCopyByTag_spec (A := A) hr hs tag
    have hfound₁ : Chain m₁.cells p l := Segment.congr h fun a ha => hsame₁ a ha
    rw [add_comm] at hs₁
    obtain ⟨found', m₂, lf', hcombine, hfound₂, hf', hs₂, hsame₂⟩ :=
      hc m₁ _ keys lk p l hs₁ hkeys (fun _ ha => ha) hfound₁
    -- the copy is released
    have hkeys₂ : Chain m₂.cells keys lk := Segment.congr hkeys fun a ha => hsame₂ a ha
    have hdisj := (Multiset.nodup_add.mp hs₂.nodup).2.2
    rw [add_comm] at hs₂
    obtain ⟨m₃, hrelease, hs₃, hsame₃⟩ := releaseKeyList_spec hs₂ hkeys₂
    have hfound₃ : Chain m₃.cells found' lf' := Segment.congr hfound₂ fun a ha =>
      hsame₃ a fun hak => (Multiset.disjoint_left.mp hdisj) ha hak
    obtain ⟨p', m', l', hrun, hchain, hl', hs'⟩ := ih hs₃ hfound₃
    refine ⟨p', m', l', ?_, hchain, ?_, hs'⟩
    · simp only [combineTags, hcopy, hcombine, hrelease, Option.bind_eq_bind, Option.bind_some]
      exact hrun
    · rw [hl', List.foldl_cons, hf', hk]

/-- The first list, and then the others. -/
theorem getKeys_spec (hc : Combines m₀ combine f) (hr : Represents heads m₀ tree) (tag : CacheTag)
    (tags : List CacheTag) :
    ∃ p m l, ((getKeyListCopyByTag A heads m₀ tag).bind fun (found_keys, m) =>
        combineTags A combine heads tags m found_keys) = some (p, m) ∧ Chain m.cells p l ∧
      keysOf l = tags.foldl (fun found_keys tag => f found_keys (Cik.getKeyListCopyByTag tree tag))
        (Cik.getKeyListCopyByTag tree tag) ∧ Since m₀ m (bases l) := by
  obtain ⟨p, m, l, hcopy, hchain, hkeys, hs, -⟩ :=
    getKeyListCopyByTag_spec (A := A) hr (.refl m₀) tag
  rw [add_zero] at hs
  obtain ⟨p', m', l', hrun, hchain', hkeys', hs'⟩ := combineTags_spec (A := A) hc hr tags hs hchain
  refine ⟨p', m', l', ?_, hchain', by rw [hkeys', hkeys], hs'⟩
  rw [hcopy, Option.bind_some]
  exact hrun

/-- The functions in memory give the lists that they give in the tag index's own module. -/
theorem getKeysMatchingAnyTag_spec (hr : Represents heads m₀ tree) (tags : List CacheTag) : ∃ p m l,
    getKeysMatchingAnyTag A heads m₀ tags = some (p, m) ∧ Chain m.cells p l ∧
      keysOf l = Cik.getKeysMatchingAnyTag tree tags ∧ Since m₀ m (bases l) := by
  cases tags with
  | nil => exact ⟨none, m₀, [], rfl, rfl, rfl, .refl m₀⟩
  | cons tag tags => exact getKeys_spec combines_merge hr tag tags

theorem getKeysMatchingAllTags_spec (hr : Represents heads m₀ tree) (tags : List CacheTag) :
    ∃ p m l, getKeysMatchingAllTags A heads m₀ tags = some (p, m) ∧ Chain m.cells p l ∧
      keysOf l = Cik.getKeysMatchingAllTags tree tags ∧ Since m₀ m (bases l) := by
  cases tags with
  | nil => exact ⟨none, m₀, [], rfl, rfl, rfl, .refl m₀⟩
  | cons tag tags => exact getKeys_spec combines_retain hr tag tags

/-- A function has come to its end with the list of the keys that have a property, each once; the
index is as it was, and of the elements that were reserved those of the list are in use, and the
others have been released. -/
def Lists (heads : KeyHeads) (m : KeyMemory) (tree : TagTree)
    (result : Option (Option ℕ × KeyMemory)) (P : CacheKey → Prop) : Prop :=
  ∃ p m' l, result = some (p, m') ∧ Chain m'.cells p l ∧ (keysOf l).Nodup ∧
    (∀ key, key ∈ keysOf l ↔ P key) ∧ Represents heads m' tree ∧ Since m m' (bases l)

/-- The union and the intersection of the key lists of some tags. -/
theorem tagQueries (A : Allocator) (hr : Represents heads m tree) {tags : List CacheTag}
    (hne : tags ≠ []) :
    Lists heads m tree (getKeysMatchingAnyTag A heads m tags)
      (fun key => ∃ tag ∈ tags, tree.HasKey tag key) ∧
      Lists heads m tree (getKeysMatchingAllTags A heads m tags)
        (fun key => ∀ tag ∈ tags, tree.HasKey tag key) := by
  constructor
  · obtain ⟨p, m', l, hrun, hchain, hkeys, hs⟩ := getKeysMatchingAnyTag_spec (A := A) hr tags
    refine ⟨p, m', l, hrun, hchain, ?_, fun key => ?_, hr.since hs, hs⟩
    · rw [hkeys]
      exact nodup_getKeysMatchingAnyTag tree tags
    · rw [hkeys, mem_getKeysMatchingAnyTag]
  · obtain ⟨p, m', l, hrun, hchain, hkeys, hs⟩ := getKeysMatchingAllTags_spec (A := A) hr tags
    refine ⟨p, m', l, hrun, hchain, ?_, fun key => ?_, hr.since hs, hs⟩
    · rw [hkeys]
      exact nodup_getKeysMatchingAllTags tree tags
    · rw [hkeys, mem_getKeysMatchingAllTags, and_iff_right hne]

/-- An allocator that gives the block behind the last one. -/
def nextBlock : Allocator where
  pick := fun live => live.sup id + 1
  fresh := fun _ h => absurd (Finset.le_sup (f := id) h) (Nat.not_succ_le_self _)

/-- The element 1 has the key `6B`, and is in use. -/
def oneKey : KeyMemory where
  cells := fun a => if a = 1 then some ⟨[0x6B], none⟩ else none
  live := {1}
  mem_live := fun a => by by_cases ha : a = 1 <;> simp [ha]
  reserved := 0
  released := 0

/-- It is the one of the tag `ROOT`. -/
theorem represents_oneKey :
    Represents (.node .nil rootValue (some 1) .nil) oneKey
      (addKeyToTag initTagTree rootValue [0x6B]) := by
  intro tag
  have hinit :
      getTagIfExists initTagTree tag = if tag = rootValue then some TagNode.empty else none :=
    @getTagIfExists_getOrCreateNode ⟨.nil, trivial⟩ rootValue tag
  have hroot : SearchTree.find compareTags tag (.node .nil rootValue (some 1) .nil) =
      if tag = rootValue then some (some 1) else none :=
    SearchTree.find_insertNew rootValue tag (some 1) .nil
  rw [hroot, addKeyToTag, getTagIfExists_modifyNode]
  simp only [getTagIfExists_getOrCreateNode, hinit]
  split_ifs with ht
  · exact .some ⟨[(1, [0x6B])], ⟨rfl, none, rfl, rfl⟩, rfl⟩
  · exact .none

/-- There is a tag that is in the request twice, and one that is unknown. -/
theorem tagQueries_oneKey :
    Lists (.node .nil rootValue (some 1) .nil) oneKey (addKeyToTag initTagTree rootValue [0x6B])
      (getKeysMatchingAnyTag nextBlock (.node .nil rootValue (some 1) .nil) oneKey [rootValue,
        [0x74], rootValue])
      (fun key => ∃ tag ∈ [rootValue, [0x74], rootValue],
        (addKeyToTag initTagTree rootValue [0x6B]).HasKey tag key) :=
  (tagQueries nextBlock represents_oneKey (List.cons_ne_nil _ _)).1

end KeyLists

end Cik

import Cik.Interleaving.Handlers
import Cik.Interleaving.Holding

/-!
# Who has what

Every block that is live has one owner: start-up, a slot, the tag tree, a key list, or a
worker. What a worker holds (`Held`) agrees with that and with the flags: it has set
those whose guards it holds, and what is guarded is as it knows it. `Sound` says so, in
one part for each kind of block and of guard, and the lemmas say what a change of one
does to each part.
-/

namespace Cik

namespace Guarded

/-- Who has a block. -/
inductive Owner (τ : Type*) where
  /-- It was reserved at start-up. -/
  | start
  /-- It is the entry in a slot. -/
  | slot (p : SlotPos)
  /-- It is a node of the tag tree. -/
  | node
  /-- It is an element of the key list of a node. -/
  | keys (n : ℕ)
  /-- It is a worker's. -/
  | worker (t : τ)

/-- The nodes of the tag tree. -/
inductive InTree (child : ℕ → Side → Option ℕ) : ℕ → Prop where
  /-- The root. -/
  | root : InTree child root
  /-- A child. -/
  | child {n m : ℕ} {side : Side} : InTree child n → child n side = some m → InTree child m

section InTree

variable {child : ℕ → Side → Option ℕ} {n m c : ℕ} {side : Side}

/-- The children of a node that is not in the tree do not matter. -/
theorem inTree_update_of_not (hn : ¬ InTree child n) (f : Side → Option ℕ) :
    InTree (Function.update child n f) m ↔ InTree child m := by
  constructor
  · intro h
    induction h with
    | root => exact .root
    | @child n' m' side _ hc ih =>
      have hne : n' ≠ n := fun he => hn (he ▸ ih)
      rw [Function.update_of_ne hne] at hc
      exact ih.child hc
  · intro h
    induction h with
    | root => exact .root
    | @child n' m' side hn' hc ih =>
      have hne : n' ≠ n := fun he => hn (he ▸ hn')
      have hc' : Function.update child n f n' side = some m' := by rwa [Function.update_of_ne hne]
      exact ih.child hc'

/-- A node without children that is put where there was no child. -/
theorem inTree_exchange (hn : InTree child n) (hnone : child n side = none)
    (hc : ∀ side, child c side = none) (hnc : n ≠ c) :
    InTree (Function.update child n (Function.update (child n) side (some c))) m ↔
    InTree child m ∨ m = c := by
  constructor
  · intro h
    induction h with
    | root => exact Or.inl .root
    | @child n' m' side' _ hm ih =>
      by_cases hnn : n' = n
      · subst hnn
        rw [Function.update_self] at hm
        by_cases hs : side' = side
        · subst hs
          rw [Function.update_self] at hm
          exact Or.inr (Option.some.inj hm).symm
        · rw [Function.update_of_ne hs] at hm
          exact Or.inl (hn.child hm)
      · rw [Function.update_of_ne hnn] at hm
        rcases ih with ih | rfl
        · exact Or.inl (ih.child hm)
        · rw [hc side'] at hm
          cases hm
  · have hold (k : ℕ) (h : InTree child k) :
        InTree (Function.update child n (Function.update (child n) side (some c))) k := by
      induction h with
      | root => exact .root
      | @child n' m' side' _ hm ih =>
        suffices hm' :
          Function.update child n (Function.update (child n) side (some c)) n' side' = some m' from
          ih.child hm'
        by_cases hnn : n' = n
        · subst hnn
          have hs : side' ≠ side := by
            rintro rfl
            rw [hnone] at hm
            cases hm
          rw [Function.update_self, Function.update_of_ne hs, hm]
        · rw [Function.update_of_ne hnn, hm]
    rintro (h | rfl)
    · exact hold m h
    · have hm : Function.update child n (Function.update (child n) side (some m)) n side =
        some m := by simp
      exact (hold n hn).child hm

end InTree

variable {τ : Type*}

/-! ### What was done so far -/

/-- The worker has released `e`, and has neither taken the guard of the slot since nor
written to it. -/
def Unemptied (l : List (τ × Event)) (t : τ) (p : SlotPos) (e : ℕ) : Prop :=
  ∃ l₁ l₂, l = l₁ ++ (t, .did (.release e) ()) :: l₂ ∧
    ∀ a ∈ l₂, a ≠ (t, .did (.lock (.slot p)) ()) ∧ ∀ v, a ≠ (t, .did (.writeSlot p v) ())

theorem unemptied_snoc {l : List (τ × Event)} {a : τ × Event} {t : τ} {p : SlotPos} {e : ℕ} :
    Unemptied (l ++ [a]) t p e ↔ a = (t, .did (.release e) ()) ∨
      (Unemptied l t p e ∧ a ≠ (t, .did (.lock (.slot p)) ()) ∧
        ∀ v, a ≠ (t, .did (.writeSlot p v) ())) := by
  constructor
  · rintro ⟨l₁, l₂, hl, h₂⟩
    rcases List.eq_nil_or_concat l₂ with rfl | ⟨l₃, b, rfl⟩
    · exact Or.inl (List.head_eq_of_cons_eq (List.append_inj' hl rfl).2)
    · rw [List.concat_eq_append] at hl h₂
      rw [← List.cons_append, ← List.append_assoc] at hl
      obtain ⟨rfl, hab⟩ := List.append_inj' hl rfl
      obtain rfl : a = b := List.head_eq_of_cons_eq hab
      refine Or.inr ⟨⟨l₁, l₃, rfl, fun b hb => h₂ b (List.mem_append_left _ hb)⟩, ?_⟩
      exact h₂ a (List.mem_append_right _ (List.mem_singleton_self a))
  · rintro (rfl | ⟨⟨l₁, l₂, rfl, h₂⟩, ha⟩)
    · exact ⟨l, [], rfl, nofun⟩
    · refine ⟨l₁, l₂ ++ [a], by simp, fun b hb => ?_⟩
      rcases List.mem_append.mp hb with hb | hb
      · exact h₂ b hb
      · rw [List.mem_singleton.mp hb]
        exact ha

/-- An event that has nothing to do with slots, and releases nothing. -/
def Plain : Event → Prop
  | .did (.lock (.slot _)) _ => False
  | .did (.writeSlot _ _) _ => False
  | .did (.release _) _ => False
  | _ => True

theorem unemptied_snoc_of_plain {l : List (τ × Event)} {t u : τ} {a : Event} {p : SlotPos} {e : ℕ}
    (ha : Plain a) :
    Unemptied (l ++ [(t, a)]) u p e ↔ Unemptied l u p e := by
  rw [unemptied_snoc]
  constructor
  · rintro (h | h)
    · cases h
      exact ha.elim
    · exact h.1
  · intro h
    refine Or.inr ⟨h, ?_, fun v => ?_⟩ <;> (intro he; cases he; exact ha.elim)

theorem unemptied_snoc_other {l : List (τ × Event)} {t u : τ} {a : Event} {p : SlotPos} {e : ℕ}
    (hu : u ≠ t) :
    Unemptied (l ++ [(t, a)]) u p e ↔ Unemptied l u p e := by
  rw [unemptied_snoc]
  constructor
  · rintro (h | h)
    · exact absurd (Prod.mk.inj h).1.symm hu
    · exact h.1
  · intro h
    exact Or.inr ⟨h, fun he => hu (Prod.mk.inj he).1.symm, fun v he => hu (Prod.mk.inj he).1.symm⟩

/-- A worker that takes the guard of a slot begins anew. -/
theorem not_unemptied_lock {l : List (τ × Event)} {t : τ} {p : SlotPos} {e : ℕ} {r : Unit} :
    ¬ Unemptied (l ++ [(t, .did (.lock (.slot p)) r)]) t p e := by
  rw [unemptied_snoc]
  rintro (h | ⟨-, h, -⟩)
  · cases h
  · exact h rfl

/-- So does one that writes to it. -/
theorem not_unemptied_write {l : List (τ × Event)} {t : τ} {p : SlotPos} {e : ℕ}
    {v : Option MapSlot} {r : Unit} :
    ¬ Unemptied (l ++ [(t, .did (.writeSlot p v) r)]) t p e := by
  rw [unemptied_snoc]
  rintro (h | ⟨-, -, h⟩)
  · cases h
  · exact h v rfl

/-! ### What holds of blocks -/

/-- The live blocks are those that someone has. -/
structure Blocks (start : ℕ → Bool) (owner : ℕ → Option (Owner τ)) (live : ℕ → Bool) : Prop where
  /-- Live blocks have an owner, and only they. -/
  live : ∀ b, live b = (owner b).isSome
  /-- The root is not a block. -/
  static : owner root = none
  /-- What was reserved at start-up stays reserved. -/
  start : ∀ b, owner b = some .start ↔ start b = true ∧ b ≠ root

/-- The workers have the blocks they say they have, and no block twice. -/
structure WorkerBlocks (owner : ℕ → Option (Owner τ)) (own : τ → Multiset ℕ) : Prop where
  /-- No block twice. -/
  nodup : ∀ t, (own t).Nodup
  /-- The blocks they have. -/
  mem : ∀ t b, b ∈ own t ↔ owner b = some (.worker t)

/-- The slots have the entries in them, but for an entry that was just released. -/
structure SlotBlocks (owner : ℕ → Option (Owner τ)) (slots : SlotPos → Option MapSlot)
    (view : τ → Option (SlotPos × SlotView)) : Prop where
  /-- What a slot has is in it. -/
  entry : ∀ p b, owner b = some (.slot p) → ∃ m, slots p = some m ∧ m.entry = b
  /-- What is in a slot it has, or whoever has the guard has just released it. -/
  owned : ∀ p m, slots p = some m → owner m.entry = some (.slot p) ∨
    ∃ t, view t = some (p, .stale m)
  /-- A worker that has the guard knows which. -/
  present : ∀ t p v m, view t = some (p, v) → v.present = some m → owner m.entry = some (.slot p)
  stale : ∀ t p m, view t = some (p, .stale m) → owner m.entry ≠ some (.slot p)

/-- The key lists of the tree have their elements, and no element twice. -/
structure KeyBlocks (owner : ℕ → Option (Owner τ)) (keys : ℕ → List KeyElem)
    (child : ℕ → Side → Option ℕ) : Prop where
  /-- No element twice. -/
  nodup : ∀ n, InTree child n → (bases (keys n)).Nodup
  /-- The elements they have. -/
  mem : ∀ n b, owner b = some (.keys n) ↔ InTree child n ∧ b ∈ bases (keys n)

/-- The tree has its nodes. -/
structure NodeBlocks (owner : ℕ → Option (Owner τ)) (child : ℕ → Side → Option ℕ)
    (keys : ℕ → List KeyElem) (node : τ → Option ℕ) (nodes : τ → Set ℕ) : Prop where
  /-- The nodes it has. -/
  mem : ∀ n, owner n = some .node ↔ InTree child n ∧ n ≠ root
  /-- The nodes that a worker has met are in the tree. -/
  met : ∀ t, ∀ n ∈ nodes t, InTree child n
  /-- A node that a worker has filled in has no children and no keys yet. -/
  fresh : ∀ t n, node t = some n → (∀ side, child n side = none) ∧ keys n = []

/-! ### What holds of guards -/

/-- The guards of slots, and what the workers that have them know of the slots. -/
structure SlotGuards (l : List (τ × Event)) (guard : SlotPos → Option τ)
    (slots : SlotPos → Option MapSlot) (view : τ → Option (SlotPos × SlotView)) : Prop where
  /-- Who has set a flag has the guard. -/
  holds : ∀ p t, guard p = some t ↔ ∃ v, view t = some (p, v)
  /-- What is in the slot is as they know it. -/
  content : ∀ t p v, view t = some (p, v) → slots p = v.content
  /-- They know whether they have released the entry. -/
  history : ∀ t p v m, view t = some (p, v) → v.content = some m →
    (Unemptied l t p m.entry ↔ v = .stale m)

/-- The guards of entries. -/
structure EntryGuards (guard : ℕ → Option τ) (locked : τ → Multiset ℕ) (mapped : τ → Option Mapped)
    (view : τ → Option (SlotPos × SlotView)) : Prop where
  /-- Who has set a flag has the guard, of an entry of its own or of one in a slot. -/
  holds : ∀ e t, guard e = some t ↔ e ∈ locked t ∨ ∃ M, mapped t = some M ∧ M.slot.entry = e
  /-- Nobody has the guard of an entry that the worker with the slot's guard has unlocked. -/
  quiet : ∀ t p m, view t = some (p, .quiet m) → guard m.entry = none

/-- An entry in a slot that a worker has locked stays there, and stays as the worker knows it. -/
def MappedEntries (owner : ℕ → Option (Owner τ)) (slots : SlotPos → Option MapSlot)
    (entries : ℕ → CacheEntry) (mapped : τ → Option Mapped) : Prop :=
  ∀ t M, mapped t = some M →
    slots M.pos = some M.slot ∧ owner M.slot.entry = some (.slot M.pos) ∧
    entries M.slot.entry = M.entry

/-- The locks of key lists. -/
structure KeyLocks (lock : ℕ → Option τ) (held : τ → Option (ℕ × List KeyElem))
    (keys : ℕ → List KeyElem) (child : ℕ → Side → Option ℕ) : Prop where
  /-- Who has set a flag has the lock. -/
  holds : ∀ n t, lock n = some t ↔ ∃ l, held t = some (n, l)
  /-- The node is in the tree, and the list is as the worker knows it. -/
  content : ∀ t n l, held t = some (n, l) → keys n = l ∧ InTree child n

/-- The marks of free lists. -/
def Marks (mark : ℕ → Option τ) (list : τ → Option ℕ) : Prop :=
  ∀ p t, mark p = some t ↔ list t = some p

/-- What the workers hold, kind by kind. -/
structure Holdings (τ : Type*) where
  /-- Blocks. -/
  own : τ → Multiset ℕ
  /-- Blocks with the guard of an entry. -/
  locked : τ → Multiset ℕ
  /-- A block for a node. -/
  node : τ → Option ℕ
  /-- Nodes of the tree. -/
  nodes : τ → Set ℕ
  /-- A slot, and what is known of it. -/
  view : τ → Option (SlotPos × SlotView)
  /-- An entry in a slot. -/
  mapped : τ → Option Mapped
  /-- A key list. -/
  keys : τ → Option (ℕ × List KeyElem)
  /-- The mark of a free list. -/
  list : τ → Option ℕ

namespace Holdings

/-- What each worker holds, one part after the other. -/
def of (g : τ → Held) : Holdings τ :=
  ⟨fun u => (g u).own, fun u => (g u).locked, fun u => (g u).node, fun u => (g u).nodes,
    fun u => (g u).slot, fun u => (g u).mapped, fun u => (g u).keys, fun u => (g u).list⟩

variable [DecidableEq τ]

/-- What one worker holds is replaced. -/
def set (H : Holdings τ) (t : τ) (h : Held) : Holdings τ :=
  ⟨Function.update H.own t h.own, Function.update H.locked t h.locked,
    Function.update H.node t h.node, Function.update H.nodes t h.nodes,
    Function.update H.view t h.slot, Function.update H.mapped t h.mapped,
    Function.update H.keys t h.keys, Function.update H.list t h.list⟩

theorem of_update (g : τ → Held) (t : τ) (h : Held) :
    of (Function.update g t h) = (of g).set t h := by
  have hproj {β : Type} (f : Held → β) :
      (fun u => f (Function.update g t h u)) = Function.update (fun u => f (g u)) t (f h) :=
    funext fun u => Function.apply_update (fun _ => f) g t h u
  simp only [of, set, hproj]

theorem of_set_self (g : τ → Held) (t : τ) : (of g).set t (g t) = of g := by
  rw [← of_update, Function.update_eq_self]

end Holdings

/-- What holds of what is shared and of what the workers hold. -/
structure Sound (start : ℕ → Bool) (l : List (τ × Event)) (owner : ℕ → Option (Owner τ))
    (H : Holdings τ) (s : Process τ) : Prop where
  blocks : Blocks start owner s.live
  workers : WorkerBlocks owner H.own
  slots : SlotBlocks owner s.slots H.view
  keys : KeyBlocks owner s.keys s.child
  nodes : NodeBlocks owner s.child s.keys H.node H.nodes
  slotGuards : SlotGuards l s.slotGuard s.slots H.view
  entryGuards : EntryGuards s.entryGuard H.locked H.mapped H.view
  mapped : MappedEntries owner s.slots s.entries H.mapped
  keyLocks : KeyLocks s.keysLock H.keys s.keys s.child
  marks : Marks s.mark H.list

/-! ### The list of a node is replaced -/

section Relist

/-- The owners after a worker has replaced the list of a node: the node has the elements
of the new list, and the worker those that are in it no more. -/
def relist (owner : ℕ → Option (Owner τ)) (t : τ) (n : ℕ) (ks ks' : List KeyElem) (b : ℕ) :
    Option (Owner τ) :=
  if b ∈ bases ks' then some (.keys n) else if b ∈ bases ks then some (.worker t) else owner b

variable {owner : ℕ → Option (Owner τ)} {t : τ} {n b : ℕ} {ks ks' : List KeyElem}

theorem relist_worker : relist owner t n ks ks' b = some (.worker t) ↔
    b ∉ bases ks' ∧ (b ∈ bases ks ∨ owner b = some (.worker t)) := by
  unfold relist
  split_ifs with h' h
  · simp [h']
  · simp [h', h]
  · simp [h', h]

theorem relist_keys (hks : ∀ b, owner b = some (.keys n) ↔ b ∈ bases ks) :
    relist owner t n ks ks' b = some (.keys n) ↔ b ∈ bases ks' := by
  unfold relist
  split_ifs with h' h
  · simp [h']
  · simp [h']
  · simp [h', h, hks]

variable (hks : ∀ b, owner b = some (.keys n) ↔ b ∈ bases ks)
  (hks' : ∀ b ∈ bases ks', owner b = some (.keys n) ∨ owner b = some (.worker t))

include hks hks'

theorem isSome_relist (b : ℕ) : (relist owner t n ks ks' b).isSome = (owner b).isSome := by
  unfold relist
  split_ifs with h' h
  · rcases hks' b h' with ho | ho
    · simp [ho]
    · simp [ho]
  · simp [(hks b).mpr h]
  · rfl

/-- The others have what they had. -/
theorem relist_iff (w : Owner τ) (hn : w ≠ .keys n) (ht : w ≠ .worker t) (b : ℕ) :
    relist owner t n ks ks' b = some w ↔ owner b = some w := by
  unfold relist
  split_ifs with h' h
  · rcases hks' b h' with ho | ho
    · simp [ho, hn.symm]
    · simp [ho, hn.symm, ht.symm]
  · simp [(hks b).mpr h, hn.symm, ht.symm]
  · rfl

end Relist

/-! ### What a change does to each part -/

section Parts

variable {start live : ℕ → Bool} {owner owner' : ℕ → Option (Owner τ)} {own locked : τ → Multiset ℕ}
  {slots : SlotPos → Option MapSlot} {view : τ → Option (SlotPos × SlotView)}
  {keys : ℕ → List KeyElem} {child : ℕ → Side → Option ℕ} {node : τ → Option ℕ}
  {nodes : τ → Set ℕ} {mapped : τ → Option Mapped}
  {entries : ℕ → CacheEntry} {t : τ} {b e n : ℕ} {o : Option (Owner τ)} {p : SlotPos}

namespace Blocks

/-- A block is reserved or released. -/
theorem change (h : Blocks start owner live) (hb : b ≠ root) (hs : owner b ≠ some .start)
    (ho : o ≠ some .start) :
    Blocks start (Function.update owner b o) (Function.update live b o.isSome) := by
  refine ⟨fun c => ?_, ?_, fun c => ?_⟩
  · by_cases hc : c = b
    · subst hc
      simp
    · simpa [hc] using h.live c
  · rw [Function.update_of_ne hb.symm, h.static]
  · rw [update_keeps hs ho, h.start]

/-- Blocks change hands. -/
theorem pass (h : Blocks start owner live) (hsome : ∀ c, (owner' c).isSome = (owner c).isSome)
    (hs : ∀ c, owner' c = some .start ↔ owner c = some .start) : Blocks start owner' live := by
  refine ⟨fun c => by rw [hsome, h.live], ?_, fun c => by rw [hs, h.start]⟩
  rw [← Option.not_isSome_iff_eq_none, hsome, h.static]
  nofun

end Blocks

/-- A block changes hands. -/
theorem isSome_update (hb : (owner b).isSome) (ho : o.isSome) (c : ℕ) :
    (Function.update owner b o c).isSome = (owner c).isSome := by
  by_cases hc : c = b
  · rw [hc, Function.update_self, hb, ho]
  · rw [Function.update_of_ne hc]

namespace WorkerBlocks

theorem other (h : WorkerBlocks owner own)
    (ho : ∀ b t, owner' b = some (.worker t) ↔ owner b = some (.worker t)) :
    WorkerBlocks owner' own := ⟨h.nodup, fun t b => by rw [h.mem, ho]⟩

variable [DecidableEq τ]

/-- A worker has its blocks in another way. -/
theorem same {v : Multiset ℕ} (h : WorkerBlocks owner own) (hv : v = own t) :
    WorkerBlocks owner (Function.update own t v) := by
  rwa [hv, Function.update_eq_self]

/-- A worker's blocks are others than before; the others' blocks are the same. -/
theorem replace {v : Multiset ℕ} (h : WorkerBlocks owner own) (hv : v.Nodup)
    (ht : ∀ b, b ∈ v ↔ owner' b = some (.worker t))
    (ho : ∀ u, u ≠ t → ∀ b, owner' b = some (.worker u) ↔ owner b = some (.worker u)) :
    WorkerBlocks owner' (Function.update own t v) := by
  refine ⟨fun u => ?_, fun u b => ?_⟩
  · by_cases hu : u = t
    · subst hu
      rwa [Function.update_self]
    · rw [Function.update_of_ne hu]
      exact h.nodup u
  · by_cases hu : u = t
    · subst hu
      rw [Function.update_self, ht]
    · rw [Function.update_of_ne hu, h.mem, ho u hu]

theorem gain {v : Multiset ℕ} (h : WorkerBlocks owner own) (hb : ∀ u, owner b ≠ some (.worker u))
    (hv : v = b ::ₘ own t) :
    WorkerBlocks (Function.update owner b (some (.worker t))) (Function.update own t v) := by
  subst hv
  have hbt : b ∉ own t := fun hm => hb t ((h.mem t b).mp hm)
  refine h.replace (Multiset.nodup_cons.mpr ⟨hbt, h.nodup t⟩) (fun c => ?_) fun u hu => ?_
  · rw [Multiset.mem_cons, h.mem]
    by_cases hc : c = b
    · simp [hc]
    · simp [hc]
  · exact update_keeps (hb u) fun he => hu (Owner.worker.inj (Option.some.inj he)).symm

theorem lose {v : Multiset ℕ} (h : WorkerBlocks owner own) (hv : own t = b ::ₘ v)
    (ho : ∀ u, o ≠ some (.worker u)) :
    WorkerBlocks (Function.update owner b o) (Function.update own t v) := by
  have hnodup := h.nodup t
  rw [hv, Multiset.nodup_cons] at hnodup
  have hown : owner b = some (.worker t) := by
    rw [← h.mem, hv]
    exact Multiset.mem_cons_self b v
  refine h.replace hnodup.2 (fun c => ?_) fun u hu => update_keeps ?_ (ho u)
  · have hmem := h.mem t c
    rw [hv, Multiset.mem_cons] at hmem
    by_cases hc : c = b
    · subst hc
      simp [hnodup.1, ho t]
    · simp [hc, ← hmem]
  · rw [hown]
    exact fun he => hu (Owner.worker.inj (Option.some.inj he)).symm

end WorkerBlocks

namespace SlotBlocks

/-- What a slot has is the entry in it. -/
theorem eq_of_owner (h : SlotBlocks owner slots view) (hm : slots p = some m) {b : ℕ}
    (hb : owner b = some (.slot p)) :
    b = m.entry := by
  obtain ⟨m', hm', rfl⟩ := h.entry p b hb
  rw [hm] at hm'
  cases hm'
  rfl

/-- A free slot has nothing. -/
theorem not_owner (h : SlotBlocks owner slots view) (hp : slots p = none) (b : ℕ) :
    owner b ≠ some (.slot p) := by
  intro hb
  obtain ⟨m, hm, -⟩ := h.entry p b hb
  rw [hp] at hm
  cases hm

theorem other (h : SlotBlocks owner slots view)
    (ho : ∀ b p, owner' b = some (.slot p) ↔ owner b = some (.slot p)) :
    SlotBlocks owner' slots view := by
  refine ⟨fun p c hc => h.entry p c ((ho c p).mp hc), fun p m hm => ?_, fun t p v m hv hm => ?_,
    fun t p m hv => ?_⟩
  · exact (h.owned p m hm).imp_left (ho _ p).mpr
  · exact (ho _ p).mpr (h.present t p v m hv hm)
  · rw [Ne, ho]
    exact h.stale t p m hv

variable [DecidableEq τ]

/-- A worker takes or releases the guard of a slot, or comes to know it otherwise. -/
theorem setView {v' : Option (SlotPos × SlotView)} (h : SlotBlocks owner slots view)
    (hold : ∀ p m, view t ≠ some (p, .stale m)) (hnew : ∀ p m, v' ≠ some (p, .stale m))
    (hpresent : ∀ p v m, v' = some (p, v) → v.present = some m → owner m.entry = some (.slot p)) :
    SlotBlocks owner slots (Function.update view t v') := by
  refine ⟨h.entry, fun p m hm => ?_, fun u p v m hv hm => ?_, fun u p m hv => ?_⟩
  · rcases h.owned p m hm with ho | ⟨u, hu⟩
    · exact Or.inl ho
    · have hut : u ≠ t := fun he => hold p m (he ▸ hu)
      exact Or.inr ⟨u, by rwa [Function.update_of_ne hut]⟩
  · by_cases hu : u = t
    · subst hu
      rw [Function.update_self] at hv
      exact hpresent p v m hv hm
    · rw [Function.update_of_ne hu] at hv
      exact h.present u p v m hv hm
  · by_cases hu : u = t
    · subst hu
      rw [Function.update_self] at hv
      exact absurd hv (hnew p m)
    · rw [Function.update_of_ne hu] at hv
      exact h.stale u p m hv

/-- A worker that has the guard of a slot writes to it. -/
theorem write {v : SlotView} {w : SlotView} {x : Option MapSlot} (h : SlotBlocks owner slots view)
    (hview : view t = some (p, v)) (huniq : ∀ u v', view u = some (p, v') → u = t)
    (hstale : ∀ m, w ≠ .stale m) (hpresent : w.present = x)
    (hp : ∀ b, owner' b = some (.slot p) ↔ ∃ m, x = some m ∧ m.entry = b)
    (hother : ∀ b q, q ≠ p → (owner' b = some (.slot q) ↔ owner b = some (.slot q))) :
    SlotBlocks owner' (Function.update slots p x) (Function.update view t (some (p, w))) := by
  have hother' : ∀ u q v', u ≠ t → view u = some (q, v') → q ≠ p :=
    fun u q v' hu hv hq => hu (huniq u v' (hq ▸ hv))
  refine ⟨fun q c hc => ?_, fun q m hm => ?_, fun u q v' m hv hm => ?_, fun u q m hv => ?_⟩
  · by_cases hq : q = p
    · subst hq
      rw [Function.update_self]
      exact (hp c).mp hc
    · rw [Function.update_of_ne hq]
      exact h.entry q c ((hother c q hq).mp hc)
  · by_cases hq : q = p
    · subst hq
      rw [Function.update_self] at hm
      exact Or.inl ((hp _).mpr ⟨m, hm, rfl⟩)
    · rw [Function.update_of_ne hq] at hm
      rcases h.owned q m hm with ho | ⟨u, hu⟩
      · exact Or.inl ((hother _ q hq).mpr ho)
      · have hut : u ≠ t := by
          rintro rfl
          rw [hview] at hu
          exact hq (Prod.mk.inj (Option.some.inj hu)).1.symm
        exact Or.inr ⟨u, by rwa [Function.update_of_ne hut]⟩
  · by_cases hu : u = t
    · subst hu
      rw [Function.update_self] at hv
      cases hv
      exact (hp _).mpr ⟨m, hpresent ▸ hm, rfl⟩
    · rw [Function.update_of_ne hu] at hv
      exact (hother _ q (hother' u q v' hu hv)).mpr (h.present u q v' m hv hm)
  · by_cases hu : u = t
    · subst hu
      rw [Function.update_self] at hv
      cases hv
      exact absurd rfl (hstale m)
    · rw [Function.update_of_ne hu] at hv
      rw [Ne, hother _ q (hother' u q _ hu hv)]
      exact h.stale u q m hv

/-- A worker that has unlocked the entry releases it. -/
theorem release {m : MapSlot} (h : SlotBlocks owner slots view)
    (hview : view t = some (p, .quiet m)) (hslot : slots p = some m)
    (huniq : ∀ u v', view u = some (p, v') → u = t) :
    SlotBlocks (Function.update owner m.entry none) slots
      (Function.update view t (some (p, .stale m))) := by
  have hm : owner m.entry = some (.slot p) := h.present t p _ m hview rfl
  have hne (c : ℕ) (q : SlotPos) (hq : q ≠ p) (hc : owner c = some (.slot q)) : c ≠ m.entry := by
    rintro rfl
    rw [hm] at hc
    exact hq (Owner.slot.inj (Option.some.inj hc)).symm
  refine ⟨fun q c hc => ?_, fun q m₂ hm₂ => ?_, fun u q v' m₂ hv hm₂ => ?_, fun u q m₂ hv => ?_⟩
  · have hcm : c ≠ m.entry := by
      rintro rfl
      rw [Function.update_self] at hc
      cases hc
    rw [Function.update_of_ne hcm] at hc
    exact h.entry q c hc
  · by_cases hq : q = p
    · subst hq
      rw [hslot] at hm₂
      cases hm₂
      exact Or.inr ⟨t, Function.update_self ..⟩
    · rcases h.owned q m₂ hm₂ with ho | ⟨u, hu⟩
      · exact Or.inl (by rwa [Function.update_of_ne (hne _ q hq ho)])
      · have hut : u ≠ t := by
          rintro rfl
          rw [hview] at hu
          cases hu
        exact Or.inr ⟨u, by rwa [Function.update_of_ne hut]⟩
  · by_cases hu : u = t
    · subst hu
      rw [Function.update_self] at hv
      cases hv
      cases hm₂
    · rw [Function.update_of_ne hu] at hv
      have hq : q ≠ p := fun hq => hu (huniq u v' (hq ▸ hv))
      have ho := h.present u q v' m₂ hv hm₂
      rwa [Function.update_of_ne (hne _ q hq ho)]
  · by_cases hc : m₂.entry = m.entry
    · rw [hc, Function.update_self]
      nofun
    · rw [Function.update_of_ne hc]
      by_cases hu : u = t
      · subst hu
        rw [Function.update_self] at hv
        cases hv
        exact absurd rfl hc
      · rw [Function.update_of_ne hu] at hv
        exact h.stale u q m₂ hv

end SlotBlocks

namespace KeyBlocks

theorem other (h : KeyBlocks owner keys child)
    (ho : ∀ b n, owner' b = some (.keys n) ↔ owner b = some (.keys n)) :
    KeyBlocks owner' keys child := ⟨h.nodup, fun n b => by rw [ho, h.mem]⟩

/-- The list of a node is replaced. -/
theorem write {l : List KeyElem} (h : KeyBlocks owner keys child) (hn : InTree child n)
    (hl : (bases l).Nodup) (hmem : ∀ b, owner' b = some (.keys n) ↔ b ∈ bases l)
    (ho : ∀ b m, m ≠ n → (owner' b = some (.keys m) ↔ owner b = some (.keys m))) :
    KeyBlocks owner' (Function.update keys n l) child := by
  refine ⟨fun m hm => ?_, fun m b => ?_⟩
  · by_cases hmn : m = n
    · subst hmn
      rwa [Function.update_self]
    · rw [Function.update_of_ne hmn]
      exact h.nodup m hm
  · by_cases hmn : m = n
    · subst hmn
      rw [Function.update_self, hmem]
      exact (and_iff_right hn).symm
    · rw [Function.update_of_ne hmn, ho b m hmn, h.mem]

/-- A node that is not in the tree is filled in. -/
theorem initNode {f : Side → Option ℕ} {l : List KeyElem} (h : KeyBlocks owner keys child)
    (hn : ¬ InTree child n) :
    KeyBlocks owner (Function.update keys n l) (Function.update child n f) := by
  have hne (m : ℕ) (hm : InTree child m) : m ≠ n := fun he => hn (he ▸ hm)
  refine ⟨fun m hm => ?_, fun m b => ?_⟩
  · rw [inTree_update_of_not hn] at hm
    rw [Function.update_of_ne (hne m hm)]
    exact h.nodup m hm
  · rw [inTree_update_of_not hn, h.mem]
    refine and_congr_right fun hm => ?_
    rw [Function.update_of_ne (hne m hm)]

/-- The tree gets another node, which has no keys. -/
theorem grow {child' : ℕ → Side → Option ℕ} (h : KeyBlocks owner keys child)
    (hiff : ∀ m, InTree child' m ↔ InTree child m ∨ m = n) (hkeys : keys n = []) :
    KeyBlocks owner keys child' := by
  refine ⟨fun m hm => ?_, fun m b => ?_⟩
  · rcases (hiff m).mp hm with hm | rfl
    · exact h.nodup m hm
    · rw [hkeys]
      exact Multiset.nodup_zero
  · rw [h.mem, hiff]
    constructor
    · rintro ⟨hm, hb⟩
      exact ⟨Or.inl hm, hb⟩
    · rintro ⟨hm | rfl, hb⟩
      · exact ⟨hm, hb⟩
      · rw [hkeys] at hb
        cases hb

end KeyBlocks

namespace NodeBlocks

theorem other (h : NodeBlocks owner child keys node nodes)
    (ho : ∀ n, owner' n = some .node ↔ owner n = some .node) :
    NodeBlocks owner' child keys node nodes := ⟨fun n => by rw [ho, h.mem], h.met, h.fresh⟩

/-- The list of a node of the tree is replaced. -/
theorem write {l : List KeyElem} (h : NodeBlocks owner child keys node nodes)
    (hnode : ∀ u c, node u = some c → c ≠ n) :
    NodeBlocks owner child (Function.update keys n l) node nodes := by
  refine ⟨h.mem, h.met, fun u c hc => ?_⟩
  rw [Function.update_of_ne (hnode u c hc)]
  exact h.fresh u c hc

variable [DecidableEq τ]

/-- A worker meets a node of the tree. -/
theorem meet {x : Option ℕ} (h : NodeBlocks owner child keys node nodes) (hx : x = node t)
    (hn : InTree child n) :
    NodeBlocks owner child keys (Function.update node t x)
      (Function.update nodes t (insert n (nodes t))) := by
  rw [hx, Function.update_eq_self]
  refine ⟨h.mem, fun u m hm => ?_, h.fresh⟩
  by_cases hu : u = t
  · subst hu
    rw [Function.update_self] at hm
    rcases hm with rfl | hm
    · exact hn
    · exact h.met u m hm
  · rw [Function.update_of_ne hu] at hm
    exact h.met u m hm

/-- A node that is not in the tree is filled in. -/
theorem initNode {N : Set ℕ} (h : NodeBlocks owner child keys node nodes) (hN : N = nodes t)
    (hn : ¬ InTree child n) :
    NodeBlocks owner (Function.update child n fun _ => none) (Function.update keys n [])
      (Function.update node t (some n)) (Function.update nodes t N) := by
  rw [hN, Function.update_eq_self]
  refine ⟨fun m => by rw [inTree_update_of_not hn, h.mem], fun u m hm => ?_, fun u c hc => ?_⟩
  · rw [inTree_update_of_not hn]
    exact h.met u m hm
  · by_cases hcn : c = n
    · subst hcn
      simp
    · have hu : u ≠ t := by
        rintro rfl
        rw [Function.update_self] at hc
        exact hcn (Option.some.inj hc).symm
      rw [Function.update_of_ne hu] at hc
      rw [Function.update_of_ne hcn, Function.update_of_ne hcn]
      exact h.fresh u c hc

/-- A worker gives up its node. -/
theorem drop {N : Set ℕ} (h : NodeBlocks owner child keys node nodes) (hN : N = nodes t) :
    NodeBlocks owner child keys (Function.update node t none) (Function.update nodes t N) := by
  rw [hN, Function.update_eq_self]
  refine ⟨h.mem, h.met, fun u c hc => ?_⟩
  by_cases hu : u = t
  · subst hu
    rw [Function.update_self] at hc
    cases hc
  · rw [Function.update_of_ne hu] at hc
    exact h.fresh u c hc

/-- A worker puts its node in the tree. -/
theorem grow {f : Side → Option ℕ} {c : ℕ} (h : NodeBlocks owner child keys node nodes)
    (hiff : ∀ m, InTree (Function.update child n f) m ↔ InTree child m ∨ m = c) (hc : c ≠ root)
    (hnode : ∀ u m, node u = some m → m ≠ n) :
    NodeBlocks (Function.update owner c (some .node)) (Function.update child n f) keys
      (Function.update node t none) (Function.update nodes t (insert c (nodes t))) := by
  refine ⟨fun m => ?_, fun u m hm => ?_, fun u m hm => ?_⟩
  · rw [hiff]
    by_cases hmc : m = c
    · subst hmc
      simp [hc]
    · rw [Function.update_of_ne hmc, h.mem]
      simp [hmc]
  · rw [hiff]
    by_cases hu : u = t
    · subst hu
      rw [Function.update_self] at hm
      rcases hm with rfl | hm
      · exact Or.inr rfl
      · exact Or.inl (h.met u m hm)
    · rw [Function.update_of_ne hu] at hm
      exact Or.inl (h.met u m hm)
  · by_cases hu : u = t
    · subst hu
      rw [Function.update_self] at hm
      cases hm
    · rw [Function.update_of_ne hu] at hm
      rw [Function.update_of_ne (hnode u m hm)]
      exact h.fresh u m hm

end NodeBlocks

namespace SlotGuards

variable {l : List (τ × Event)} {guard : SlotPos → Option τ} {a : Event}

theorem uniq {v v' : SlotView} {u : τ} (h : SlotGuards l guard slots view)
    (ht : view t = some (p, v)) (hu : view u = some (p, v')) : u = t := by
  have hg := (h.holds p t).mpr ⟨v, ht⟩
  rw [(h.holds p u).mpr ⟨v', hu⟩] at hg
  exact Option.some.inj hg

theorem plain (h : SlotGuards l guard slots view) (ha : Plain a) :
    SlotGuards (l ++ [(t, a)]) guard slots view :=
  ⟨h.holds, h.content,
    fun u p v m hv hm => by rw [unemptied_snoc_of_plain ha, h.history u p v m hv hm]⟩

/-- A worker releases a block that is in no slot. -/
theorem released (h : SlotGuards l guard slots view)
    (hb : ∀ p v m, view t = some (p, v) → v.present = some m → m.entry ≠ b) :
    SlotGuards (l ++ [(t, .did (.release b) ())]) guard slots view := by
  refine ⟨h.holds, h.content, fun u p v m hv hm => ?_⟩
  rw [unemptied_snoc, ← h.history u p v m hv hm]
  constructor
  · rintro (he | ⟨hun, -⟩)
    · cases he
      have hv' : v.present ≠ some m := fun hp => hb p v m hv hp rfl
      cases v with
      | free => cases hm
      | mapped m' => exact absurd hm hv'
      | quiet m' => exact absurd hm hv'
      | stale m' =>
        cases hm
        exact (h.history t p _ m hv rfl).mpr rfl
    · exact hun
  · intro hun
    refine Or.inr ⟨hun, nofun, fun _ => nofun⟩

variable [DecidableEq τ]

/-- A worker takes the guard of a slot, or does something to the slot whose guard it has. -/
theorem set {w : SlotView} (h : SlotGuards l guard slots view) (hp : ∀ u, u ≠ t → guard p ≠ some u)
    (ht : ∀ q v, view t = some (q, v) → q = p)
    (hw : ∀ m, w.content = some m → (Unemptied (l ++ [(t, a)]) t p m.entry ↔ w = .stale m)) :
    SlotGuards (l ++ [(t, a)]) (Function.update guard p (some t))
      (Function.update slots p w.content) (Function.update view t (some (p, w))) := by
  have hother {u : τ} {q : SlotPos} {v : SlotView} (hu : u ≠ t) (hv : view u = some (q, v)) :
      q ≠ p := by
    rintro rfl
    exact hp u hu ((h.holds q u).mpr ⟨v, hv⟩)
  refine ⟨fun q u => ?_, fun u q v hv => ?_, fun u q v m hv hm => ?_⟩
  · by_cases hu : u = t
    · subst hu
      by_cases hq : q = p
      · simp [hq]
      · rw [Function.update_of_ne hq, Function.update_self, h.holds]
        constructor
        · rintro ⟨v, hv⟩
          exact absurd (ht q v hv) hq
        · rintro ⟨v, hv⟩
          exact absurd (Prod.mk.inj (Option.some.inj hv)).1.symm hq
    · rw [Function.update_of_ne hu]
      by_cases hq : q = p
      · subst hq
        rw [Function.update_self]
        constructor
        · intro he
          exact absurd (Option.some.inj he).symm hu
        · rintro ⟨v, hv⟩
          exact absurd rfl (hother hu hv)
      · rw [Function.update_of_ne hq, h.holds]
  · by_cases hu : u = t
    · subst hu
      rw [Function.update_self] at hv
      cases hv
      rw [Function.update_self]
    · rw [Function.update_of_ne hu] at hv
      rw [Function.update_of_ne (hother hu hv)]
      exact h.content u q v hv
  · by_cases hu : u = t
    · subst hu
      rw [Function.update_self] at hv
      cases hv
      exact hw m hm
    · rw [Function.update_of_ne hu] at hv
      rw [unemptied_snoc_other hu, h.history u q v m hv hm]

/-- A worker takes the guard of a slot. -/
theorem take {w : SlotView} {r : Unit} (h : SlotGuards l guard slots view) (hp : guard p = none)
    (ht : view t = none) (hc : slots p = w.content) (hw : ∀ m, w ≠ .stale m) :
    SlotGuards (l ++ [(t, .did (.lock (.slot p)) r)]) (Function.update guard p (some t)) slots
      (Function.update view t (some (p, w))) := by
  have h' :=
    h.set (p := p) (w := w) (a := .did (.lock (.slot p)) r) (t := t) (fun u _ => by rw [hp]; nofun)
    (fun q v hv => by rw [ht] at hv; cases hv)
    (fun m _ => ⟨fun hun => absurd hun not_unemptied_lock, fun he => absurd he (hw m)⟩)
  rwa [← hc, Function.update_eq_self] at h'

/-- A worker comes to know a slot otherwise. -/
theorem turn {v w : SlotView} (h : SlotGuards l guard slots view) (hv : view t = some (p, v))
    (hc : w.content = v.content)
    (hw : ∀ m, w.content = some m → (Unemptied (l ++ [(t, a)]) t p m.entry ↔ w = .stale m)) :
    SlotGuards (l ++ [(t, a)]) guard slots (Function.update view t (some (p, w))) := by
  have hg : guard p = some t := (h.holds p t).mpr ⟨v, hv⟩
  have h' := h.set (p := p) (w := w) (a := a) (t := t)
    (fun u hu => by rw [hg]; exact fun he => hu (Option.some.inj he).symm)
    (fun q v' hv' => by rw [hv] at hv'; exact (Prod.mk.inj (Option.some.inj hv')).1.symm) hw
  rwa [hc, ← h.content t p v hv, Function.update_eq_self, ← hg, Function.update_eq_self] at h'

/-- A worker comes to know a slot otherwise, but for whether the entry is released. -/
theorem turn_plain {v w : SlotView} (h : SlotGuards l guard slots view) (hv : view t = some (p, v))
    (ha : Plain a) (hc : w.content = v.content) (hw : ∀ m, w = .stale m ↔ v = .stale m) :
    SlotGuards (l ++ [(t, a)]) guard slots (Function.update view t (some (p, w))) := by
  refine h.turn hv hc fun m hm => ?_
  rw [unemptied_snoc_of_plain ha, hw, h.history t p v m hv (hc ▸ hm)]

/-- A worker writes to the slot whose guard it has. -/
theorem write {v w : SlotView} {x : Option MapSlot} {r : Unit} (h : SlotGuards l guard slots view)
    (hv : view t = some (p, v)) (hx : w.content = x) (hw : ∀ m, w ≠ .stale m) :
    SlotGuards (l ++ [(t, .did (.writeSlot p x) r)]) guard (Function.update slots p x)
      (Function.update view t (some (p, w))) := by
  have hg : guard p = some t := (h.holds p t).mpr ⟨v, hv⟩
  have h' := h.set (p := p) (w := w) (a := .did (.writeSlot p x) r) (t := t)
    (fun u hu => by rw [hg]; exact fun he => hu (Option.some.inj he).symm)
    (fun q v' hv' => by rw [hv] at hv'; exact (Prod.mk.inj (Option.some.inj hv')).1.symm)
    (fun m _ => ⟨fun hun => absurd hun not_unemptied_write, fun he => absurd he (hw m)⟩)
  rwa [hx, ← hg, Function.update_eq_self] at h'

/-- A worker releases the guard of a slot. -/
theorem unset {v : SlotView} (h : SlotGuards l guard slots view) (hv : view t = some (p, v)) :
    SlotGuards l (Function.update guard p none) slots (Function.update view t none) := by
  refine ⟨fun q u => ?_, fun u q v' hv' => ?_, fun u q v' m hv' hm => ?_⟩
  · by_cases hu : u = t
    · subst hu
      rw [Function.update_self]
      by_cases hq : q = p
      · simp [hq]
      · rw [Function.update_of_ne hq, h.holds]
        refine ⟨fun ⟨v', hv'⟩ => ?_, nofun⟩
        rw [hv] at hv'
        exact absurd (Prod.mk.inj (Option.some.inj hv')).1.symm hq
    · rw [Function.update_of_ne hu]
      by_cases hq : q = p
      · subst hq
        rw [Function.update_self]
        refine ⟨nofun, ?_⟩
        rintro ⟨v', hv'⟩
        exact absurd (h.uniq hv hv') hu
      · rw [Function.update_of_ne hq, h.holds]
  · by_cases hu : u = t
    · subst hu
      rw [Function.update_self] at hv'
      cases hv'
    · rw [Function.update_of_ne hu] at hv'
      exact h.content u q v' hv'
  · by_cases hu : u = t
    · subst hu
      rw [Function.update_self] at hv'
      cases hv'
    · rw [Function.update_of_ne hu] at hv'
      exact h.history u q v' m hv' hm

end SlotGuards

namespace EntryGuards

variable {guard : ℕ → Option τ}

theorem uniq {u : τ} {M : Mapped} (h : EntryGuards guard locked mapped view) (ht : guard e = some t)
    (hu : mapped u = some M) (he : M.slot.entry = e) : u = t := by
  rw [(h.holds e u).mpr (Or.inr ⟨M, hu, he⟩)] at ht
  exact Option.some.inj ht

variable [DecidableEq τ] {ls : Multiset ℕ} {M : Option Mapped} {w : Option (SlotPos × SlotView)}

/-- A worker's guards are others than before; the others' guards are the same. -/
theorem replace {guard' : ℕ → Option τ} (h : EntryGuards guard locked mapped view)
    (ht : ∀ c, guard' c = some t ↔ c ∈ ls ∨ ∃ M', M = some M' ∧ M'.slot.entry = c)
    (ho : ∀ u, u ≠ t → ∀ c, guard' c = some u ↔ guard c = some u)
    (hw : ∀ p m, w = some (p, .quiet m) → guard' m.entry = none)
    (hq : ∀ u p m, u ≠ t → view u = some (p, .quiet m) → guard' m.entry = none) :
    EntryGuards guard' (Function.update locked t ls) (Function.update mapped t M)
      (Function.update view t w) := by
  refine ⟨fun c u => ?_, fun u p m hu => ?_⟩
  · by_cases hut : u = t
    · subst hut
      rw [Function.update_self, Function.update_self, ht]
    · rw [Function.update_of_ne hut, Function.update_of_ne hut, ho u hut, h.holds]
  · by_cases hut : u = t
    · subst hut
      rw [Function.update_self] at hu
      exact hw p m hu
    · rw [Function.update_of_ne hut] at hu
      exact hq u p m hut hu

/-- The same guards, held in another way. -/
theorem hold (h : EntryGuards guard locked mapped view)
    (ht : ∀ c, (c ∈ ls ∨ ∃ M', M = some M' ∧ M'.slot.entry = c) ↔
      c ∈ locked t ∨ ∃ M', mapped t = some M' ∧ M'.slot.entry = c)
    (hw : ∀ p m, w = some (p, .quiet m) → view t = some (p, .quiet m)) :
    EntryGuards guard (Function.update locked t ls) (Function.update mapped t M)
      (Function.update view t w) :=
  h.replace (fun c => by rw [h.holds, ht]) (fun _ _ _ => Iff.rfl)
    (fun p m hpm => h.quiet t p m (hw p m hpm)) fun u p m _ => h.quiet u p m

/-- A worker takes or releases the guard of a slot, or comes to know it otherwise. -/
theorem setView (h : EntryGuards guard locked mapped view) (hl : ls = locked t) (hM : M = mapped t)
    (hw : ∀ p m, w ≠ some (p, .quiet m)) :
    EntryGuards guard (Function.update locked t ls) (Function.update mapped t M)
      (Function.update view t w) :=
  h.hold (fun c => by rw [hl, hM]) fun p m hpm => absurd hpm (hw p m)

/-- A worker takes the guard of an entry. -/
theorem set (h : EntryGuards guard locked mapped view) (he : guard e = none)
    (ht : ∀ c, (c ∈ ls ∨ ∃ M', M = some M' ∧ M'.slot.entry = c) ↔
      c = e ∨ c ∈ locked t ∨ ∃ M', mapped t = some M' ∧ M'.slot.entry = c)
    (hw : ∀ p m, w = some (p, .quiet m) → view t = some (p, .quiet m) ∧ m.entry ≠ e)
    (hq : ∀ u p m, u ≠ t → view u = some (p, .quiet m) → m.entry ≠ e) :
    EntryGuards (Function.update guard e (some t)) (Function.update locked t ls)
      (Function.update mapped t M) (Function.update view t w) := by
  have hquiet (u : τ) (p : SlotPos) (m : MapSlot) (hu : view u = some (p, .quiet m))
    (hm : m.entry ≠ e) :
      Function.update guard e (some t) m.entry = none := by
    rw [Function.update_of_ne hm]
    exact h.quiet u p m hu
  refine h.replace (fun c => ?_) (fun u hu => ?_) (fun p m hpm => ?_) fun u p m hu hv =>
    hquiet u p m hv (hq u p m hu hv)
  · rw [ht, ← h.holds]
    by_cases hc : c = e
    · simp [hc]
    · simp [hc]
  · exact update_keeps (by rw [he]; nofun) fun hs => hu (Option.some.inj hs).symm
  · exact hquiet t p m (hw p m hpm).1 (hw p m hpm).2

/-- A worker releases the guard of an entry. -/
theorem unset (h : EntryGuards guard locked mapped view) (he : guard e = some t)
    (ht : ∀ c, (c ∈ ls ∨ ∃ M', M = some M' ∧ M'.slot.entry = c) ↔
      c ≠ e ∧ (c ∈ locked t ∨ ∃ M', mapped t = some M' ∧ M'.slot.entry = c))
    (hw : ∀ p m, w = some (p, .quiet m) → m.entry = e ∨ view t = some (p, .quiet m)) :
    EntryGuards (Function.update guard e none) (Function.update locked t ls)
      (Function.update mapped t M) (Function.update view t w) := by
  have hquiet (m : MapSlot) (hm : m.entry = e ∨ guard m.entry = none) :
      Function.update guard e none m.entry = none := by
    by_cases hc : m.entry = e
    · rw [hc, Function.update_self]
    · rw [Function.update_of_ne hc]
      exact hm.resolve_left hc
  refine h.replace (fun c => ?_) (fun u hu => ?_) (fun p m hpm => ?_) fun u p m _ hu => ?_
  · rw [ht, ← h.holds]
    by_cases hc : c = e
    · simp [hc]
    · simp [hc]
  · refine update_keeps ?_ (Option.some_ne_none u).symm
    rw [he]
    exact fun hs => hu (Option.some.inj hs).symm
  · exact hquiet m ((hw p m hpm).imp_right (h.quiet t p m))
  · exact hquiet m (Or.inr (h.quiet u p m hu))

end EntryGuards

namespace MappedEntries

variable {slots' : SlotPos → Option MapSlot} {entries' : ℕ → CacheEntry}

theorem other (h : MappedEntries owner slots entries mapped)
    (ho : ∀ b p, owner' b = some (.slot p) ↔ owner b = some (.slot p)) :
    MappedEntries owner' slots entries mapped :=
  fun t M hM => ⟨(h t M hM).1, (ho _ _).mpr (h t M hM).2.1, (h t M hM).2.2⟩

/-- What the other workers have locked stays as it is. -/
theorem replace [DecidableEq τ] {x : Option Mapped} (h : MappedEntries owner slots entries mapped)
    (hx : ∀ M, x = some M →
      slots' M.pos = some M.slot ∧ owner' M.slot.entry = some (.slot M.pos) ∧
      entries' M.slot.entry = M.entry)
    (ho : ∀ u M, u ≠ t → mapped u = some M →
      slots' M.pos = slots M.pos ∧ owner' M.slot.entry = owner M.slot.entry ∧
        entries' M.slot.entry = entries M.slot.entry) :
    MappedEntries owner' slots' entries' (Function.update mapped t x) := by
  intro u M hM
  by_cases hu : u = t
  · subst hu
    rw [Function.update_self] at hM
    exact hx M hM
  · rw [Function.update_of_ne hu] at hM
    obtain ⟨h₁, h₂, h₃⟩ := ho u M hu hM
    rw [h₁, h₂, h₃]
    exact h u M hM

end MappedEntries

namespace KeyLocks

variable {lock : ℕ → Option τ} {held : τ → Option (ℕ × List KeyElem)} {keys' : ℕ → List KeyElem}
  {child' : ℕ → Side → Option ℕ}

/-- Nobody has the lock of a node that is not in the tree. -/
theorem eq_none (h : KeyLocks lock held keys child) (hn : ¬ InTree child n) : lock n = none := by
  refine Option.eq_none_iff_forall_ne_some.mpr fun t ht => ?_
  obtain ⟨l, hl⟩ := (h.holds n t).mp ht
  exact hn (h.content t n l hl).2

theorem uniq {l l' : List KeyElem} {u : τ} (h : KeyLocks lock held keys child)
    (ht : held t = some (n, l)) (hu : held u = some (n, l')) : u = t := by
  have hl := (h.holds n t).mpr ⟨l, ht⟩
  rw [(h.holds n u).mpr ⟨l', hu⟩] at hl
  exact Option.some.inj hl

/-- The tree grows, or something is written that is not in the tree. -/
theorem grow (h : KeyLocks lock held keys child) (hkeys : ∀ n, InTree child n → keys' n = keys n)
    (hchild : ∀ n, InTree child n → InTree child' n) : KeyLocks lock held keys' child' := by
  refine ⟨h.holds, fun t n l hl => ?_⟩
  obtain ⟨hk, hn⟩ := h.content t n l hl
  exact ⟨(hkeys n hn).trans hk, hchild n hn⟩

variable [DecidableEq τ]

theorem set (h : KeyLocks lock held keys child) (hn : lock n = none) (ht : held t = none)
    (hin : InTree child n) :
    KeyLocks (Function.update lock n (some t)) (Function.update held t (some (n, keys n)))
      keys child := by
  refine ⟨fun m u => ?_, fun u m l hl => ?_⟩
  · by_cases hu : u = t
    · subst hu
      rw [Function.update_self]
      by_cases hm : m = n
      · simp [hm]
      · have hne : lock m ≠ some u := fun hs => by
          obtain ⟨l, hl⟩ := (h.holds m u).mp hs
          rw [ht] at hl
          cases hl
        simp [hm, hne, Ne.symm hm]
    · rw [Function.update_of_ne hu, ← h.holds]
      exact update_keeps (by rw [hn]; nofun) (fun hs => hu (Option.some.inj hs).symm) m
  · by_cases hu : u = t
    · subst hu
      rw [Function.update_self] at hl
      cases hl
      exact ⟨rfl, hin⟩
    · rw [Function.update_of_ne hu] at hl
      exact h.content u m l hl

theorem unset {l : List KeyElem} (h : KeyLocks lock held keys child) (ht : held t = some (n, l)) :
    KeyLocks (Function.update lock n none) (Function.update held t none) keys child := by
  refine ⟨fun m u => ?_, fun u m l' hl => ?_⟩
  · by_cases hu : u = t
    · subst hu
      rw [Function.update_self]
      by_cases hm : m = n
      · simp [hm]
      · have hne : lock m ≠ some u := fun hs => by
          obtain ⟨l', hl⟩ := (h.holds m u).mp hs
          rw [ht] at hl
          exact hm (Prod.mk.inj (Option.some.inj hl)).1.symm
        simp [hm, hne]
    · rw [Function.update_of_ne hu, ← h.holds]
      refine update_keeps ?_ (Option.some_ne_none u).symm m
      rw [(h.holds n t).mpr ⟨l, ht⟩]
      exact fun hs => hu (Option.some.inj hs).symm
  · by_cases hu : u = t
    · subst hu
      rw [Function.update_self] at hl
      cases hl
    · rw [Function.update_of_ne hu] at hl
      exact h.content u m l' hl

theorem write {l l' : List KeyElem} (h : KeyLocks lock held keys child)
    (ht : held t = some (n, l)) :
    KeyLocks lock (Function.update held t (some (n, l'))) (Function.update keys n l') child := by
  refine ⟨fun m u => ?_, fun u m k hk => ?_⟩
  · by_cases hu : u = t
    · subst hu
      rw [h.holds, ht, Function.update_self]
      simp
    · rw [Function.update_of_ne hu, h.holds]
  · by_cases hu : u = t
    · subst hu
      rw [Function.update_self] at hk
      cases hk
      exact ⟨Function.update_self .., (h.content u n l ht).2⟩
    · rw [Function.update_of_ne hu] at hk
      have hm : m ≠ n := by
        rintro rfl
        exact hu (h.uniq ht hk)
      rw [Function.update_of_ne hm]
      exact h.content u m k hk

end KeyLocks

namespace Marks

variable [DecidableEq τ] {mark : ℕ → Option τ} {list : τ → Option ℕ} {p : ℕ}

theorem set (h : Marks mark list) (hp : mark p = none) (ht : list t = none) :
    Marks (Function.update mark p (some t)) (Function.update list t (some p)) := by
  intro q u
  by_cases hu : u = t
  · subst hu
    rw [Function.update_self]
    exact update_gains (fun q => by rw [h, ht]) q
  · rw [Function.update_of_ne hu, ← h]
    exact update_keeps (by rw [hp]; nofun) (fun hs => hu (Option.some.inj hs).symm) q

theorem unset (h : Marks mark list) (ht : list t = some p) :
    Marks (Function.update mark p none) (Function.update list t none) := by
  intro q u
  by_cases hu : u = t
  · subst hu
    rw [Function.update_self]
    exact update_loses (fun q => by rw [h, ht]) (Option.some_ne_none u).symm q
  · rw [Function.update_of_ne hu, ← h]
    refine update_keeps ?_ (Option.some_ne_none u).symm q
    rw [(h p t).mpr ht]
    exact fun hs => hu (Option.some.inj hs).symm

end Marks

end Parts

end Guarded

end Cik

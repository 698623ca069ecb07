import Cik.Interleaving.Handlers
import Cik.Interleaving.Holding

/-!
# The handlers keep to the discipline

Each function is followed through by the contract of the operations: what a worker must
hold when it calls the function, and what it holds when the function returns. A worker
that is at rest is at rest again after each request (`wp_handleRequest`).
-/

namespace Cik

namespace Guarded

open Prog (wp wp_pure wp_op wp_bind wp_mono wp_iterate)

section Operations

variable {h : Held} {g : Guard} {p : SlotPos} {e n c b : ℕ} {key : CacheKey} {v : Option MapSlot}
  {x : CacheEntry} {side : Side} {tag : CacheTag} {l : List KeyElem}

@[simp] theorem wp_lock {Q : Unit → Held → Prop} : wp contract (lock g) Q h ↔
    Held.spec (.lock g) Q h := Iff.rfl

@[simp] theorem wp_tryLock {Q : Bool → Held → Prop} :
    wp contract (tryLock g) Q h ↔ Held.spec (.tryLock g) Q h := Iff.rfl

@[simp] theorem wp_unlock {Q : Unit → Held → Prop} :
    wp contract (unlock g) Q h ↔ Held.spec (.unlock g) Q h := Iff.rfl

@[simp] theorem wp_readSlot {Q : Option MapSlot → Held → Prop} :
    wp contract (readSlot p) Q h ↔ Held.spec (.readSlot p) Q h := Iff.rfl

@[simp] theorem wp_returnEntry {Q : Option ℕ → Held → Prop} :
    wp contract (returnEntry p e key) Q h ↔ Held.spec (.returnEntry p e key) Q h := Iff.rfl

@[simp] theorem wp_writeSlot {Q : Unit → Held → Prop} :
    wp contract (writeSlot p v) Q h ↔ Held.spec (.writeSlot p v) Q h := Iff.rfl

@[simp] theorem wp_readEntry {Q : CacheEntry → Held → Prop} :
    wp contract (readEntry e) Q h ↔ Held.spec (.readEntry e) Q h := Iff.rfl

@[simp] theorem wp_writeEntry {Q : Unit → Held → Prop} :
    wp contract (writeEntry e x) Q h ↔ Held.spec (.writeEntry e x) Q h := Iff.rfl

@[simp] theorem wp_initEntry {Q : Unit → Held → Prop} :
    wp contract (initEntry e) Q h ↔ Held.spec (.initEntry e) Q h := Iff.rfl

@[simp] theorem wp_readTag {Q : CacheTag → Held → Prop} :
    wp contract (readTag n) Q h ↔ Held.spec (.readTag n) Q h := Iff.rfl

@[simp] theorem wp_readChild {Q : Option ℕ → Held → Prop} :
    wp contract (readChild n side) Q h ↔ Held.spec (.readChild n side) Q h := Iff.rfl

@[simp] theorem wp_initNode {Q : Unit → Held → Prop} :
    wp contract (initNode n tag) Q h ↔ Held.spec (.initNode n tag) Q h := Iff.rfl

@[simp] theorem wp_exchangeChild {Q : Bool → Held → Prop} :
    wp contract (exchangeChild n side c) Q h ↔ Held.spec (.exchangeChild n side c) Q h := Iff.rfl

@[simp] theorem wp_readKeys {Q : List KeyElem → Held → Prop} :
    wp contract (readKeys n) Q h ↔ Held.spec (.readKeys n) Q h := Iff.rfl

@[simp] theorem wp_writeKeys {Q : Unit → Held → Prop} :
    wp contract (writeKeys n l) Q h ↔ Held.spec (.writeKeys n l) Q h := Iff.rfl

@[simp] theorem wp_bucket {Q : Option ℕ → Held → Prop} :
    wp contract (bucket n) Q h ↔ Held.spec (.bucket n) Q h := Iff.rfl

@[simp] theorem wp_release {Q : Unit → Held → Prop} :
    wp contract (release b) Q h ↔ Held.spec (.release b) Q h := Iff.rfl

@[simp] theorem wp_time {Q : Time → Held → Prop} : wp contract time Q h ↔ ∀ now, Q now h := Iff.rfl

@[simp] theorem wp_read {Q : StatusCode × List UInt8 → Held → Prop} :
    wp contract (read n) Q h ↔ ∀ r, Q r h := Iff.rfl

@[simp] theorem wp_info {Q : ServerInfo → Held → Prop} : wp contract info Q h ↔ ∀ r, Q r h :=
  Iff.rfl

@[simp] theorem wp_crash {α : Type} {Q : α → Held → Prop} : wp contract crash Q h := trivial

end Operations

variable {h : Held} {key : CacheKey} {tag : CacheTag}

/-! ### `memory.c` -/

/-- A block more, or none. -/
theorem wp_reserveMemory (size : UInt32) {Q : Option ℕ → Held → Prop} (hl : h.list = none)
    (hnone : Q none h) (hsome : ∀ b, Q (some b) { h with blocks := b ::ₘ h.blocks }) :
    wp contract (reserveMemory size) Q h := by
  obtain ⟨blocks, locked, node, slot, mapped, keys, list, nodes⟩ := h
  subst hl
  unfold reserveMemory
  cases partitionSizes.find? (size.toNat ≤ ·) with
  | none => exact hnone
  | some p => simpa [Held.spec] using ⟨hnone, hsome⟩

-- which partition a size belongs to does not matter below
attribute [local irreducible] reserveMemory

/-- An entry of its own, which it has locked, or none. -/
theorem wp_reserveAndLockEntry (size : UInt64) {Q : Option ℕ → Held → Prop} (hk : h.keys = none)
    (hl : h.list = none) (hnone : Q none h)
    (hsome : ∀ e, Q (some e) { h with locked := e ::ₘ h.locked }) :
    wp contract (reserveAndLockEntry size) Q h := by
  unfold reserveAndLockEntry
  rw [wp_bind]
  refine wp_reserveMemory _ hl hnone fun e => ?_
  simp only [wp_bind, wp_initEntry, wp_lock, wp_pure, Held.spec]
  exact ⟨Multiset.mem_cons_self e _, hk, hl, Or.inr ⟨h.blocks, rfl, hsome e⟩⟩

/-! ### `tag.c`: nodes -/

theorem wp_createTagNode {Q : ℕ → Held → Prop} (hl : h.list = none) (hn : h.node = none)
    (hsome : ∀ n, Q n { h with node := some n }) : wp contract (createTagNode tag) Q h := by
  unfold createTagNode
  rw [wp_bind]
  refine wp_reserveMemory _ hl trivial fun n => ?_
  simp only [wp_bind, wp_initNode, wp_pure, Held.spec]
  exact ⟨hn, h.blocks, rfl, hsome n⟩

/-- A child is met, whoever has made it. -/
theorem wp_getOrCreateChild {parent : ℕ} {side : Side} {Q : ℕ → Held → Prop} (hp : h.Knows parent)
    (hl : h.list = none) (hn : h.node = none) (hQ : ∀ n, Q n { h with nodes := insert n h.nodes }) :
    wp contract (getOrCreateChild tag parent side) Q h := by
  obtain ⟨blocks, locked, node, slot, mapped, keys, list, nodes⟩ := h
  obtain rfl : node = none := hn
  unfold getOrCreateChild
  simp only [wp_bind, wp_readChild, Held.spec]
  refine ⟨hp, wp_createTagNode hl rfl fun n => ?_, hQ⟩
  simp only [wp_exchangeChild, Held.spec, true_and]
  refine ⟨hp, hQ n, ?_⟩
  -- another was first: the node is the worker's own again
  simp only [Bool.false_eq_true, if_false, wp_bind, wp_release, wp_readChild, Held.spec]
  exact ⟨hl, Or.inl ⟨blocks, rfl, hp, trivial, hQ⟩⟩

/-- A node of the tree is found or made; nothing else changes hands. -/
theorem wp_getOrCreateNode {Q : ℕ → Held → Prop} (hl : h.list = none) (hn : h.node = none)
    (hQ : ∀ n N, h.nodes ⊆ N → { h with nodes := N }.Knows n → Q n { h with nodes := N }) :
    wp contract (getOrCreateNode tag) Q h := by
  refine wp_iterate (fun n h' => ∃ N, h.nodes ⊆ N ∧ h' = { h with nodes := N } ∧ h'.Knows n)
    ⟨h.nodes, Set.Subset.rfl, rfl, Or.inl rfl⟩ fun parent h' ⟨N, hN, he, hp⟩ => ?_
  subst he
  simp only [wp_bind, wp_readTag, Held.spec]
  refine ⟨hp, fun t => ?_⟩
  have hgo (side : Side) :
    wp contract (getOrCreateChild tag parent side) (fun n h' => ∃ N, h.nodes ⊆ N ∧
      h' = { h with nodes := N } ∧ h'.Knows n) { h with nodes := N } :=
    wp_getOrCreateChild hp hl hn fun n =>
      ⟨insert n N, hN.trans (Set.subset_insert n N), rfl, Or.inr (Set.mem_insert n N)⟩
  cases compareTags tag t with
  | lt => exact (wp_bind _ _).mpr (hgo .left)
  | gt => exact (wp_bind _ _).mpr (hgo .right)
  | eq => exact hQ parent N hN hp

/-- A node of the tree is found, or none; nothing changes hands. -/
theorem wp_getTagIfExists {Q : Option ℕ → Held → Prop}
    (hnone : ∀ N, h.nodes ⊆ N → Q none { h with nodes := N })
    (hsome : ∀ n N, h.nodes ⊆ N → { h with nodes := N }.Knows n →
      Q (some n) { h with nodes := N }) :
    wp contract (getTagIfExists tag) Q h := by
  refine wp_iterate (fun n h' => ∃ N, h.nodes ⊆ N ∧ h' = { h with nodes := N } ∧ h'.Knows n)
    ⟨h.nodes, Set.Subset.rfl, rfl, Or.inl rfl⟩ fun current h' ⟨N, hN, he, hp⟩ => ?_
  subst he
  simp only [wp_bind, wp_readTag, Held.spec]
  refine ⟨hp, fun t => ?_⟩
  have hgo (side : Side) : wp contract (readChild current side) (fun r h' => Sum.elim
      (fun n => ∃ N, h.nodes ⊆ N ∧ h' = { h with nodes := N } ∧ h'.Knows n)
      (fun r => Q r h') (nextNode r)) { h with nodes := N } :=
    ⟨hp, hnone N hN, fun n =>
      ⟨insert n N, hN.trans (Set.subset_insert n N), rfl, Or.inr (Set.mem_insert n N)⟩⟩
  cases compareTags tag t with
  | lt => exact (wp_bind _ _).mpr (hgo .left)
  | gt => exact (wp_bind _ _).mpr (hgo .right)
  | eq => exact hsome current N hN hp

/-! ### `tag.c`: key lists -/

/-- An element of its own, or none. -/
theorem wp_createKeyElem {Q : Option KeyElem → Held → Prop} (hl : h.list = none) (hnone : Q none h)
    (hsome : ∀ b, Q (some ⟨b, key⟩) { h with blocks := b ::ₘ h.blocks }) :
    wp contract (createKeyElem key) Q h := by
  unfold createKeyElem
  rw [wp_bind]
  exact wp_reserveMemory _ hl hnone hsome

/-- The elements of the list that is returned are those that were given, and those of its own. -/
theorem wp_insertIfUnique {list : List KeyElem} {Q : List KeyElem × Bool → Held → Prop}
    (hl : h.list = none) (hold : Q (list, false) h)
    (hnew : ∀ b, Q (⟨b, key⟩ :: list, true) { h with blocks := b ::ₘ h.blocks }) :
    wp contract (insertIfUnique list key) Q h := by
  unfold insertIfUnique
  split_ifs
  · exact hold
  · rw [wp_bind]
    exact wp_createKeyElem hl hold hnew

/-- The copies are its own. -/
theorem wp_copyKeyList {list : List KeyElem} {Q : List KeyElem → Held → Prop} (hl : h.list = none)
    (hQ : ∀ copy, Q copy { h with blocks := bases copy + h.blocks }) :
    wp contract (copyKeyList list) Q h := by
  induction list generalizing h Q with
  | nil =>
    have h₁ := hQ []
    rwa [bases_nil, zero_add] at h₁
  | cons elem next ih =>
    unfold copyKeyList
    rw [wp_bind]
    refine wp_createKeyElem hl ?_ fun b => ?_
    · show wp contract (if next = [] then pure [] else crash) Q h
      split_ifs
      · have h₁ := hQ []
        rwa [bases_nil, zero_add] at h₁
      · trivial
    · rw [wp_bind]
      refine ih hl fun copy => ?_
      have h₁ := hQ (⟨b, elem.key⟩ :: copy)
      simpa [Multiset.add_cons, Multiset.cons_add] using h₁

/-- What it releases is no longer its own. -/
theorem wp_releaseKeyList {list : List KeyElem} {blocks : Multiset ℕ} {Q : Unit → Held → Prop}
    (hl : h.list = none) (hb : h.blocks = bases list + blocks)
    (hQ : Q () { h with blocks := blocks }) :
    wp contract (releaseKeyList list) Q h := by
  induction list generalizing h with
  | nil =>
    have hh : { h with blocks := blocks } = h := by
      rw [bases_nil, zero_add] at hb
      rw [← hb]
    rw [hh] at hQ
    exact hQ
  | cons elem next ih =>
    unfold releaseKeyList
    simp only [wp_bind, wp_release, Held.spec]
    rw [bases_cons, Multiset.cons_add] at hb
    exact ⟨hl, Or.inl ⟨bases next + blocks, hb, ih hl rfl hQ⟩⟩

/-- The copies are its own. -/
theorem wp_getKeyListCopyByTag {Q : List KeyElem → Held → Prop} (hk : h.keys = none)
    (hl : h.list = none)
    (hQ : ∀ copy N, h.nodes ⊆ N → Q copy { h with blocks := bases copy + h.blocks, nodes := N }) :
    wp contract (getKeyListCopyByTag tag) Q h := by
  obtain ⟨blocks, locked, node, slot, mapped, keys, list, nodes⟩ := h
  obtain rfl : keys = none := hk
  unfold getKeyListCopyByTag
  rw [wp_bind]
  refine wp_getTagIfExists (fun N hN => ?_) fun n N hN hn => ?_
  · have h₁ := hQ [] N hN
    rwa [bases_nil, zero_add] at h₁
  · simp only [wp_bind, wp_lock, wp_readKeys, Held.spec]
    refine ⟨hn, trivial, hl, fun l => ⟨l, rfl, wp_copyKeyList hl fun copy => ?_⟩⟩
    simp only [wp_unlock, wp_pure, Held.spec]
    exact ⟨l, rfl, hQ copy N hN⟩

/-- A key is added; nothing else changes hands. -/
theorem wp_addKeyToTag {Q : Unit → Held → Prop} (hk : h.keys = none) (hl : h.list = none)
    (hn : h.node = none) (hQ : ∀ N, h.nodes ⊆ N → Q () { h with nodes := N }) :
    wp contract (addKeyToTag tag key) Q h := by
  obtain ⟨blocks, locked, node, slot, mapped, keys, list, nodes⟩ := h
  obtain rfl : keys = none := hk
  unfold addKeyToTag
  rw [wp_bind]
  refine wp_getOrCreateNode hl hn fun n N hN hn => ?_
  simp only [wp_bind, wp_lock, wp_readKeys, Held.spec]
  refine ⟨hn, trivial, hl, fun l => ⟨l, rfl, wp_insertIfUnique hl ?_ fun b => ?_⟩⟩
  · simp only [Bool.false_eq_true, if_false, wp_unlock, Held.spec]
    exact ⟨l, rfl, hQ N hN⟩
  · -- the new element goes to the list
    simp only [if_true]
    refine ⟨l, blocks, rfl, ?_, _, rfl, hQ N hN⟩
    rw [bases_cons, Multiset.cons_add, Multiset.add_cons]

/-- The element that is unlinked was one of the list. -/
theorem bases_unlinkElem {l rest : List KeyElem} {found : KeyElem}
    (hu : unlinkElem key l = some (found, rest)) :
    bases l = found.base ::ₘ bases rest := by
  induction l generalizing rest with
  | nil => cases hu
  | cons elem next ih =>
    rw [unlinkElem] at hu
    split_ifs at hu with hkey
    · cases hu
      rfl
    · obtain ⟨⟨found', rest'⟩, hu', he⟩ := Option.map_eq_some_iff.mp hu
      cases he
      rw [bases_cons, bases_cons, ih hu', Multiset.cons_swap]

/-- A key is removed; nothing else changes hands. -/
theorem wp_removeKeyFromTag {Q : Unit → Held → Prop} (hk : h.keys = none) (hl : h.list = none)
    (hQ : ∀ N, h.nodes ⊆ N → Q () { h with nodes := N }) :
    wp contract (removeKeyFromTag tag key) Q h := by
  obtain ⟨blocks, locked, node, slot, mapped, keys, list, nodes⟩ := h
  obtain rfl : keys = none := hk
  unfold removeKeyFromTag
  rw [wp_bind]
  refine wp_getTagIfExists hQ fun n N hN hn => ?_
  simp only [wp_bind, wp_lock, wp_readKeys, Held.spec]
  refine ⟨hn, trivial, hl, fun l => ⟨l, rfl, ?_⟩⟩
  cases hu : unlinkElem key l with
  | none =>
    simp only [wp_unlock, Held.spec]
    exact ⟨l, rfl, hQ N hN⟩
  | some x =>
    -- the element that was unlinked is the worker's own until it is released
    simp only [wp_bind, wp_writeKeys, wp_release, wp_unlock, Held.spec]
    refine ⟨l, x.1.base ::ₘ blocks, rfl, ?_, hl, Or.inl ⟨blocks, rfl, x.2, rfl, hQ N hN⟩⟩
    rw [bases_unlinkElem hu, Multiset.add_cons, Multiset.cons_add]

/-- The elements of the list that is returned are its own. -/
theorem wp_mergeKeys {found keys : List KeyElem} {blocks : Multiset ℕ}
    {Q : List KeyElem → Held → Prop} (hl : h.list = none) (hb : h.blocks = bases found + blocks)
    (hQ : ∀ found, Q found { h with blocks := bases found + blocks }) :
    wp contract (mergeKeys found keys) Q h := by
  induction keys generalizing found h with
  | nil =>
    have h₁ := hQ found
    rw [← hb] at h₁
    exact h₁
  | cons elem next ih =>
    unfold mergeKeys
    rw [wp_bind]
    refine wp_insertIfUnique hl (ih hl hb hQ) fun b => ih hl ?_ hQ
    rw [bases_cons, Multiset.cons_add, ← hb]

theorem wp_retainKeys {found keys : List KeyElem} {blocks : Multiset ℕ}
    {Q : List KeyElem → Held → Prop} (hl : h.list = none) (hb : h.blocks = bases found + blocks)
    (hQ : ∀ found, Q found { h with blocks := bases found + blocks }) :
    wp contract (retainKeys keys found) Q h := by
  induction found generalizing blocks h Q with
  | nil =>
    have h₁ := hQ []
    rw [← hb] at h₁
    exact h₁
  | cons elem next ih =>
    rw [bases_cons, Multiset.cons_add] at hb
    unfold retainKeys
    split_ifs
    · rw [wp_bind]
      have hb' : h.blocks = bases next + (elem.base ::ₘ blocks) := by rw [hb, Multiset.add_cons]
      refine ih hl hb' fun found => ?_
      have h₁ := hQ (elem :: found)
      rwa [bases_cons, Multiset.cons_add, ← Multiset.add_cons] at h₁
    · simp only [wp_bind, wp_release, Held.spec]
      exact ⟨hl, Or.inl ⟨bases next + blocks, hb, ih hl rfl hQ⟩⟩

/-- The elements of the list that is returned are its own, when `combine` sees to it. -/
theorem wp_combineTags {combine : List KeyElem → List KeyElem → Program (List KeyElem)}
    {tags : List CacheTag} {found : List KeyElem} {blocks : Multiset ℕ}
    {Q : List KeyElem → Held → Prop}
    (hc : ∀ (found keys : List KeyElem) (blocks : Multiset ℕ) (Q : List KeyElem → Held → Prop)
      (h : Held), h.list = none → h.blocks = bases found + blocks →
      (∀ found, Q found { h with blocks := bases found + blocks }) →
      wp contract (combine found keys) Q h)
    (hk : h.keys = none) (hl : h.list = none) (hb : h.blocks = bases found + blocks)
    (hQ : ∀ found N, h.nodes ⊆ N → Q found { h with blocks := bases found + blocks, nodes := N }) :
    wp contract (combineTags combine tags found) Q h := by
  induction tags generalizing found h with
  | nil =>
    have h₁ := hQ found h.nodes Set.Subset.rfl
    rw [← hb] at h₁
    exact h₁
  | cons tag tags ih =>
    unfold combineTags
    simp only [wp_bind]
    refine wp_getKeyListCopyByTag hk hl fun keys N hN => ?_
    refine hc found keys (bases keys + blocks) _ _ hl (by rw [hb, add_left_comm]) fun found => ?_
    have hb' : bases found + (bases keys + blocks) = bases keys + (bases found + blocks) :=
      add_left_comm _ _ _
    refine wp_releaseKeyList hl hb' ?_
    exact ih hk hl rfl fun found N' hN' => hQ found N' (hN.trans hN')

theorem wp_getKeysMatchingAnyTag {tags : List CacheTag} {Q : List KeyElem → Held → Prop}
    (hk : h.keys = none) (hl : h.list = none)
    (hQ : ∀ found N, h.nodes ⊆ N →
      Q found { h with blocks := bases found + h.blocks, nodes := N }) :
    wp contract (getKeysMatchingAnyTag tags) Q h := by
  cases tags with
  | nil =>
    have h₁ := hQ [] h.nodes Set.Subset.rfl
    rwa [bases_nil, zero_add] at h₁
  | cons tag tags =>
    unfold getKeysMatchingAnyTag
    rw [wp_bind]
    refine wp_getKeyListCopyByTag hk hl fun found N hN => ?_
    exact wp_combineTags (fun _ _ _ _ _ hl hb hQ => wp_mergeKeys hl hb hQ) hk hl rfl
      fun found N' hN' => hQ found N' (hN.trans hN')

theorem wp_getKeysMatchingAllTags {tags : List CacheTag} {Q : List KeyElem → Held → Prop}
    (hk : h.keys = none) (hl : h.list = none)
    (hQ : ∀ found N, h.nodes ⊆ N →
      Q found { h with blocks := bases found + h.blocks, nodes := N }) :
    wp contract (getKeysMatchingAllTags tags) Q h := by
  cases tags with
  | nil =>
    have h₁ := hQ [] h.nodes Set.Subset.rfl
    rwa [bases_nil, zero_add] at h₁
  | cons tag tags =>
    unfold getKeysMatchingAllTags
    rw [wp_bind]
    refine wp_getKeyListCopyByTag hk hl fun found N hN => ?_
    exact wp_combineTags (fun _ _ _ _ _ hl hb hQ => wp_retainKeys hl hb hQ) hk hl rfl
      fun found N' hN' => hQ found N' (hN.trans hN')

/-- The addresses of the elements of the stack of a walk. -/
def stackBases (stack : List TagElem) : Multiset ℕ := (stack.map TagElem.base : List ℕ)

/-- The stack of a walk is its own, and the nodes there are nodes of the tree. -/
structure OnWalk (h : Held) (current : Option ℕ) (stack : List TagElem) (h' : Held) : Prop where
  /-- More nodes are met. -/
  nodes : h.nodes ⊆ h'.nodes
  /-- The rest is as before, and the stack. -/
  blocks : h' = { h with blocks := stackBases stack + h.blocks, nodes := h'.nodes }
  /-- The node the walk is at. -/
  current : ∀ n ∈ current, h'.Knows n
  /-- The nodes it comes back to. -/
  stack : ∀ elem ∈ stack, h'.Knows elem.node

theorem wp_pushLeft {h₀ : Held} {current : Option ℕ} {stack : List TagElem}
    {Q : List TagElem → Held → Prop} (hl : h₀.list = none) (hw : OnWalk h₀ current stack h)
    (hQ : ∀ stack h', OnWalk h₀ none stack h' → Q stack h') :
    wp contract (pushLeft current stack) Q h := by
  refine wp_iterate (fun x h' => OnWalk h₀ x.1 x.2 h') hw ?_
  rintro ⟨current, stack⟩ h' hw
  cases current with
  | none => exact hQ stack h' hw
  | some node =>
    have hl' : h'.list = none := by rw [hw.blocks]; exact hl
    simp only [wp_bind]
    refine wp_reserveMemory _ hl' trivial fun b => ?_
    simp only [wp_bind, wp_readChild, Held.spec]
    have hb : b ::ₘ h'.blocks = stackBases (⟨b, node⟩ :: stack) + h₀.blocks := by
      rw [hw.blocks]
      exact (Multiset.cons_add _ _ _).symm
    have hstack : ∀ elem ∈ (⟨b, node⟩ :: stack : List TagElem), h'.Knows elem.node := by
      intro elem he
      rcases List.mem_cons.mp he with rfl | he
      · exact hw.current node rfl
      · exact hw.stack elem he
    refine ⟨hw.current node rfl, ⟨hw.nodes, ?_, by simp, hstack⟩, fun m => ⟨?_, ?_, ?_, ?_⟩⟩
    · rw [hb, hw.blocks]
    · exact hw.nodes.trans (Set.subset_insert m _)
    · rw [hb, hw.blocks]
    · rintro n ⟨⟩
      exact Or.inr (Set.mem_insert m _)
    · exact fun elem he => (hstack elem he).imp_right (Set.mem_insert_of_mem m)

/-- The stack is released on the way; nothing changes hands. -/
theorem wp_walkAllTags {σ : Type} {callback : CacheTag → σ → σ} {data : σ} {Q : σ → Held → Prop}
    (hk : h.keys = none) (hl : h.list = none)
    (hQ : ∀ data N, h.nodes ⊆ N → Q data { h with nodes := N }) :
    wp contract (walkAllTags callback data) Q h := by
  have h₀ : OnWalk h (some root) [] h := by
    refine ⟨Set.Subset.rfl, ?_, ?_, nofun⟩
    · show h = { h with blocks := 0 + h.blocks, nodes := h.nodes }
      rw [zero_add]
    · rintro n ⟨⟩
      exact Or.inl rfl
  refine wp_iterate (fun x h' => OnWalk h x.1 x.2.1 h') h₀ fun ⟨current, stack, data⟩ h' hw => ?_
  show wp contract (if current = none ∧ stack = [] then _ else _) _ h'
  split_ifs with hend
  · obtain ⟨rfl, rfl⟩ := hend
    have h₁ := hQ data h'.nodes hw.nodes
    rw [← zero_add h.blocks] at h₁
    rw [hw.blocks]
    exact h₁
  · rw [wp_bind]
    refine wp_pushLeft hl hw fun stack h' hw => ?_
    cases stack with
    | nil => trivial
    | cons tmp stack =>
      have hn : h'.Knows tmp.node := hw.stack tmp List.mem_cons_self
      have hb : h'.blocks = tmp.base ::ₘ (stackBases stack + h.blocks) := by
        rw [hw.blocks]
        exact Multiset.cons_add tmp.base (stackBases stack) h.blocks
      have hk' : h'.keys = none := by rw [hw.blocks]; exact hk
      have hl' : h'.list = none := by rw [hw.blocks]; exact hl
      -- what the worker holds once the top of the stack is released
      have hrest : OnWalk h none stack { h' with blocks := stackBases stack + h.blocks } := by
        refine ⟨hw.nodes, ?_, nofun, fun elem he => hw.stack elem (List.mem_cons_of_mem _ he)⟩
        rw [hw.blocks]
      have hright (data : σ) : wp contract (readChild tmp.node .right)
          (fun r h'' => OnWalk h r stack h'')
          { h' with blocks := stackBases stack + h.blocks } := by
        refine ⟨hn, hrest,
          fun m => ⟨hw.nodes.trans (Set.subset_insert m _), ?_, ?_, fun elem he => ?_⟩⟩
        · rw [hw.blocks]
        · rintro n ⟨⟩
          exact Or.inr (Set.mem_insert m _)
        · exact (hrest.stack elem he).imp_right (Set.mem_insert_of_mem m)
      have hkeys : { h' with blocks := stackBases stack + h.blocks, keys := none } =
          { h' with blocks := stackBases stack + h.blocks } := by rw [← hk']
      simp only [wp_bind, wp_release, wp_lock, wp_readKeys, wp_unlock, Held.spec]
      refine ⟨hl', Or.inl ⟨_, hb, hn, hk', hl', fun l => ⟨l, rfl, l, rfl, ?_⟩⟩⟩
      rw [hkeys]
      split_ifs
      · simp only [wp_bind, wp_readTag, Held.spec]
        exact ⟨hn, fun t => hright data⟩
      · exact hright data

/-! ### `entry.c` -/

namespace Held.Unguarded

/-- What a worker has met does not matter. -/
theorem meet (hu : h.Unguarded) (N : Set ℕ) : { h with nodes := N }.Unguarded :=
  ⟨hu.1, hu.2, hu.3, hu.4⟩

/-- What blocks a worker has does not matter. -/
theorem withBlocks (hu : h.Unguarded) (blocks : Multiset ℕ) :
    { h with blocks := blocks }.Unguarded :=
  ⟨hu.1, hu.2, hu.3, hu.4⟩

theorem withLocked (hu : h.Unguarded) (locked : Multiset ℕ) :
    { h with locked := locked }.Unguarded :=
  ⟨hu.1, hu.2, hu.3, hu.4⟩

end Held.Unguarded

/-- What a worker holds when it has the guard of a slot. -/
def Held.atSlot (h : Held) (p : SlotPos) (v : SlotView) : Held := { h with slot := some (p, v) }

/-- What a worker holds when it has the guards of a slot and of the entry there. -/
def Held.atEntry (h : Held) (p : SlotPos) (m : MapSlot) (c : CacheEntry) : Held :=
  { h with slot := some (p, .mapped m), mapped := some ⟨p, m, c⟩ }

theorem wp_probe {α : Type} {visit : SlotPos → Program (Option α)} {map : Fin NUM_CACHE_ENTRY_MAPS}
    {Q : Option α → Held → Prop}
    (hv : ∀ p, wp contract (visit p) (fun r h' => r.elim (h' = h) fun a => Q (some a) h') h)
    (hnone : Q none h) (n : ℕ) (pos : Fin CACHE_ENTRY_MAP_SIZE) :
    wp contract (probe visit map n pos) Q h := by
  induction n generalizing pos with
  | zero => exact hnone
  | succ n ih =>
    unfold probe
    rw [wp_bind]
    refine wp_mono _ (fun r h' hr => ?_) (hv (map, pos))
    cases r with
    | none =>
      obtain rfl : h' = h := hr
      exact ih (pos + 1)
    | some a => exact hr

/-- A search that comes to nothing at a slot leaves it as it was. -/
theorem wp_probeKey {α : Type} {visit : SlotPos → Program (Option α)} {Q : Option α → Held → Prop}
    (hv : ∀ p, wp contract (visit p) (fun r h' => r.elim (h' = h) fun a => Q (some a) h') h)
    (hnone : Q none h) :
    wp contract (probeKey visit key) Q h := wp_probe hv hnone _ _

/-- The guards of a slot and of the entry there are released. -/
theorem wp_leave {p : SlotPos} {m : MapSlot} {c : CacheEntry} {α : Type} {a : α}
    {Q : α → Held → Prop} (hu : h.Unguarded) (hQ : Q a h) :
    wp contract (do unlock (.entry m.entry); unlock (.slot p); return a) Q (h.atEntry p m c) := by
  obtain ⟨blocks, locked, node, slot, mapped, keys, list, nodes⟩ := h
  obtain ⟨rfl, rfl, rfl, rfl⟩ := hu
  simp only [wp_bind, wp_unlock, wp_pure, Held.spec, Held.atEntry]
  exact Or.inr (Or.inl ⟨p, m, c, rfl, rfl, rfl, .quiet m, rfl, (by simp), hQ⟩)

/-- The guard of a slot is released. -/
theorem wp_leaveSlot {p : SlotPos} {v : SlotView} {α : Type} {a : α} {Q : α → Held → Prop}
    (hu : h.Unguarded) (hv : ∀ m, v ≠ .stale m) (hQ : Q a h) :
    wp contract (do unlock (.slot p); return a) Q (h.atSlot p v) := by
  obtain ⟨blocks, locked, node, slot, mapped, keys, list, nodes⟩ := h
  obtain ⟨rfl, rfl, rfl, rfl⟩ := hu
  simp only [wp_bind, wp_unlock, wp_pure, Held.spec, Held.atSlot]
  exact ⟨v, rfl, hv, hQ⟩

/-- An entry that has the key is found with both guards. -/
theorem wp_visitKey {α : Type} {found : SlotPos → ℕ → Program α} {p : SlotPos}
    {Q : Option α → Held → Prop} (hu : h.Unguarded) (hnone : Q none h)
    (hf : ∀ m c, c.key = key →
      wp contract (found p m.entry) (fun a => Q (some a)) (h.atEntry p m c)) :
    wp contract (visitKey key found p) Q h := by
  unfold visitKey
  simp only [wp_bind, wp_lock, wp_readSlot, Held.spec]
  refine ⟨hu.slot, hu.mapped, hu.keys, hu.list, ⟨.free, rfl, ?_⟩, fun m _ => ⟨.mapped m, rfl, ?_⟩⟩
  · exact wp_leaveSlot hu (by simp) hnone
  · show wp contract (if m.hash = getKeyHash key then _ else _) Q (h.atSlot p (.mapped m))
    split_ifs with hhash
    · simp only [wp_bind, wp_lock, wp_readEntry, Held.spec]
      refine ⟨hu.keys, hu.list, Or.inl ⟨hu.mapped, p, .mapped m, m, rfl, rfl, rfl, fun c => ?_⟩⟩
      refine Or.inl ⟨p, m, c, rfl, rfl, ?_⟩
      show wp contract (if c.key = key then _ else _) Q (h.atEntry p m c)
      split_ifs with hkey
      · rw [wp_bind]
        exact hf m c hkey
      · exact wp_leave hu hnone
    · exact wp_leaveSlot hu (by simp) hnone

/-- The entry that is returned is in a slot, and the worker has locked it. -/
theorem wp_lockAndGetCacheEntry {Q : Option ℕ → Held → Prop} (hu : h.Unguarded) (hnone : Q none h)
    (hsome : ∀ p m c, Q (some m.entry) { h with mapped := some ⟨p, m, c⟩ }) :
    wp contract (lockAndGetCacheEntry key) Q h := by
  unfold lockAndGetCacheEntry
  rw [wp_bind]
  refine wp_probeKey (fun p => wp_visitKey hu rfl fun m c hkey => ?_) hnone
  obtain ⟨blocks, locked, node, slot, mapped, keys, list, nodes⟩ := h
  obtain ⟨rfl, rfl, rfl, rfl⟩ := hu
  simp only [wp_bind, wp_unlock, wp_returnEntry, Held.spec, Held.atEntry]
  exact ⟨.mapped m, rfl, (by simp), m, c, rfl, rfl, hkey, hsome p m c⟩

/-- The entry that is returned is the worker's own, and it has locked it. -/
theorem wp_lockAndUnsetCacheEntry {Q : Option ℕ → Held → Prop} (hu : h.Unguarded) (hnone : Q none h)
    (hsome : ∀ e, Q (some e) { h with locked := e ::ₘ h.locked }) :
    wp contract (lockAndUnsetCacheEntry key) Q h := by
  refine wp_probeKey (fun p => wp_visitKey hu rfl fun m c _ => ?_) hnone
  obtain ⟨blocks, locked, node, slot, mapped, keys, list, nodes⟩ := h
  obtain ⟨rfl, rfl, rfl, rfl⟩ := hu
  simp only [wp_bind, wp_unlock, wp_writeSlot, wp_pure, Held.spec, Held.atEntry]
  exact Or.inr ⟨m, c, rfl, rfl, .free, rfl, (by simp), hsome m.entry⟩

/-- What a worker holds when the search for a place for its entry has ended there. -/
def Held.atPlace (h : Held) (p : SlotPos) (occupant : Option ℕ) (h' : Held) : Prop :=
  (occupant = none ∧ h' = h.atSlot p .free) ∨ ∃ m c, occupant = some m.entry ∧ h' = h.atEntry p m c

theorem wp_visitOpen {e : ℕ} {p : SlotPos} {Q : Option Probed → Held → Prop} (hu : h.Unguarded)
    (he : e ∈ h.locked) (hnone : Q none h)
    (hf : ∀ occupant h', h.atPlace p occupant h' → Q (some (.found p occupant)) h') :
    wp contract (visitOpen key e p) Q h := by
  unfold visitOpen
  simp only [wp_bind, wp_lock, wp_readSlot, Held.spec]
  refine ⟨hu.slot, hu.mapped, hu.keys, hu.list, ⟨.free, rfl, ?_⟩, fun m hm => ⟨.mapped m, rfl, ?_⟩⟩
  · exact hf none _ (Or.inl ⟨rfl, rfl⟩)
  · show wp contract (if m.hash = getKeyHash key then _ else _) Q (h.atSlot p (.mapped m))
    split_ifs with hhash hentry
    · -- the worker's own entry is in no slot
      rw [hentry] at hm
      exact absurd he hm
    · simp only [wp_bind, wp_lock, wp_readEntry, Held.spec]
      refine ⟨hu.keys, hu.list, Or.inl ⟨hu.mapped, p, .mapped m, m, rfl, rfl, rfl, fun c => ?_⟩⟩
      refine Or.inl ⟨p, m, c, rfl, rfl, ?_⟩
      show wp contract (if c.key = key then _ else _) Q (h.atEntry p m c)
      split_ifs with hkey
      · exact hf _ _ (Or.inr ⟨m, c, rfl, rfl⟩)
      · exact wp_leave hu hnone
    · exact wp_leaveSlot hu (by simp) hnone

/-- The entry goes to a slot, and the occupant becomes the worker's own. -/
theorem wp_setLockedCacheEntry {e : ℕ} {locked : Multiset ℕ} {Q : Bool × Option ℕ → Held → Prop}
    (hu : h.Unguarded) (he : h.locked = e ::ₘ locked) (hfull : Q (false, none) h)
    (hfree : ∀ p m c, m.entry = e →
      Q (true, none) { h with locked := locked, mapped := some ⟨p, m, c⟩ })
    (hold : ∀ old p m c, m.entry = e →
      Q (true, some old) { h with locked := old ::ₘ locked, mapped := some ⟨p, m, c⟩ }) :
    wp contract (setLockedCacheEntry e) Q h := by
  have hmem : e ∈ h.locked := by
    rw [he]
    exact Multiset.mem_cons_self e locked
  unfold setLockedCacheEntry
  simp only [wp_bind, wp_readEntry, Held.spec]
  refine Or.inr ⟨hmem, fun c => ?_⟩
  refine wp_probeKey (fun p => wp_visitOpen hu hmem rfl fun occupant h' hp => ?_) hfull
  obtain ⟨blocks, locked', node, slot, mapped, keys, list, nodes⟩ := h
  obtain ⟨rfl, rfl, rfl, rfl⟩ := hu
  simp only [wp_bind, wp_unlock, wp_writeSlot, wp_pure, Held.spec, Option.elim]
  refine ⟨locked, ?_⟩
  rcases hp with ⟨rfl, rfl⟩ | ⟨m, c', rfl, rfl⟩
  · exact ⟨he, Or.inl ⟨rfl, rfl, fun c => ⟨_, rfl, (by simp), hfree p _ c rfl⟩⟩⟩
  · exact ⟨he, Or.inr ⟨m, c', rfl, rfl, fun c => ⟨_, rfl, (by simp), hold m.entry p _ c rfl⟩⟩⟩

/-! ### Walks -/

/-- A callback of `walk_entries`: it leaves the entry as it found it and answers false, or
it has released the entry and answers true. -/
def Spares {σ : Type} (callback : ℕ → σ → Program (Bool × σ)) : Prop :=
  ∀ (h : Held) (p : SlotPos) (m : MapSlot) (c : CacheEntry) (data : σ) (Q : Bool × σ → Held → Prop),
    h.Unguarded → (∀ data N, h.nodes ⊆ N → Q (false, data) ({ h with nodes := N }.atEntry p m c)) →
    (∀ data N, h.nodes ⊆ N → Q (true, data) ({ h with nodes := N }.atSlot p (.stale m))) →
    wp contract (callback m.entry data) Q (h.atEntry p m c)

theorem wp_visitEntry {σ : Type} {callback : ℕ → σ → Program (Bool × σ)} {p : SlotPos} {data : σ}
    {Q : σ → Held → Prop} (hcb : Spares callback) (hu : h.Unguarded)
    (hQ : ∀ data N, h.nodes ⊆ N → Q data { h with nodes := N }) :
    wp contract (visitEntry callback p data) Q h := by
  unfold visitEntry
  simp only [wp_bind, wp_lock, wp_readSlot, Held.spec]
  refine ⟨hu.slot, hu.mapped, hu.keys, hu.list, ⟨.free, rfl, ?_⟩, fun m _ => ⟨.mapped m, rfl, ?_⟩⟩
  · exact wp_leaveSlot hu (by simp) (hQ data h.nodes Set.Subset.rfl)
  · refine (wp_bind _ _).mpr
      ⟨hu.keys, hu.list, Or.inl ⟨hu.mapped, p, .mapped m, m, rfl, rfl, rfl, fun c => ?_⟩⟩
    refine (wp_bind _ _).mpr (hcb h p m c data _ hu (fun data N hN => ?_) fun data N hN => ?_)
    · exact wp_leave (hu.meet N) (hQ data N hN)
    · have hleave :
          wp contract (do unlock (.slot p); return data) Q ({ h with nodes := N }.atSlot p .free) :=
        wp_leaveSlot (hu.meet N) (by simp) (hQ data N hN)
      exact (wp_bind _ _).mpr (Or.inl ⟨m, rfl, hleave⟩)

theorem wp_walkSlots {σ : Type} {callback : ℕ → σ → Program (Bool × σ)}
    {map : Fin NUM_CACHE_ENTRY_MAPS} {Q : σ → Held → Prop} (hcb : Spares callback) (n : ℕ)
    (hu : h.Unguarded) (pos : Fin CACHE_ENTRY_MAP_SIZE) (data : σ)
    (hQ : ∀ data N, h.nodes ⊆ N → Q data { h with nodes := N }) :
    wp contract (walkSlots callback map n pos data) Q h := by
  induction n generalizing h pos data with
  | zero => exact hQ data h.nodes Set.Subset.rfl
  | succ n ih =>
    unfold walkSlots
    rw [wp_bind]
    exact wp_visitEntry hcb hu fun data N hN =>
      ih (hu.meet N) (pos + 1) data fun data N' hN' => hQ data N' (hN.trans hN')

theorem wp_walkMaps {σ : Type} {callback : ℕ → σ → Program (Bool × σ)} {Q : σ → Held → Prop}
    (hcb : Spares callback) (n : ℕ) (hu : h.Unguarded) (i : Fin NUM_CACHE_ENTRY_MAPS) (data : σ)
    (hQ : ∀ data N, h.nodes ⊆ N → Q data { h with nodes := N }) :
    wp contract (walkMaps callback n i data) Q h := by
  induction n generalizing h i data with
  | zero => exact hQ data h.nodes Set.Subset.rfl
  | succ n ih =>
    unfold walkMaps
    rw [wp_bind]
    exact wp_walkSlots hcb _ hu _ _ fun data N hN =>
      ih (hu.meet N) (i + 1) data fun data N' hN' => hQ data N' (hN.trans hN')

/-- A walk over all entries; nothing changes hands but what the callback releases. -/
theorem wp_walkAllEntries {σ : Type} {callback : ℕ → σ → Program (Bool × σ)} {data : σ}
    {Q : σ → Held → Prop} (hcb : Spares callback) (hu : h.Unguarded)
    (hQ : ∀ data N, h.nodes ⊆ N → Q data { h with nodes := N }) :
    wp contract (walkAllEntries callback data) Q h := wp_walkMaps hcb _ hu _ _ hQ

/-! ### `controller.c`: what the handlers share -/

theorem wp_readRequestKey {klen : UInt8} {Q : StatusCode × CacheKey → Held → Prop}
    (hQ : ∀ r, Q r h) :
    wp contract (readRequestKey klen) Q h := by
  unfold readRequestKey
  simp only [wp_bind, wp_read]
  rintro ⟨status, bs⟩
  cases status with
  | ok =>
    show wp contract (if klen = 0 then crash else _) Q h
    split_ifs
    · exact wp_crash
    · exact hQ _
  | _ => exact hQ _

theorem wp_readTagsLoop {ntags : ℕ} {base : ByteMemory} {buffer cap : ℕ} {tags : List Slice}
    {Q : StatusCode × List Slice × ByteMemory × ℕ → Held → Prop} (hQ : ∀ r, Q r h) :
    wp contract (readTagsLoop ntags base buffer cap tags) Q h := by
  induction ntags generalizing base buffer cap tags with
  | zero => exact hQ _
  | succ ntags ih =>
    unfold readTagsLoop
    simp only [wp_bind, wp_read]
    rintro ⟨status, bs⟩
    cases status with
    | ok =>
      show wp contract (if _ then _ else _) Q h
      split_ifs
      · exact hQ _
      · -- an empty tag
        simp only [wp_bind, wp_read]
        rintro ⟨status, bs⟩
        cases status <;> first | exact hQ _ | exact wp_crash
      · simp only [wp_bind, wp_read]
        rintro ⟨status, bs⟩
        cases status <;> first | exact hQ _ | exact ih
    | _ => exact hQ _

theorem wp_readTags {buffer : Payload} {ntags : UInt8}
    {Q : StatusCode × List Slice × Payload → Held → Prop} (hQ : ∀ r, Q r h) :
    wp contract (readTagsUsingPayloadBuffer buffer ntags) Q h := by
  unfold readTagsUsingPayloadBuffer
  rw [wp_bind]
  exact wp_readTagsLoop fun r => hQ _

theorem wp_removeKeyFromTags {tags : List CacheTag} {Q : Unit → Held → Prop} (hk : h.keys = none)
    (hl : h.list = none) (hQ : ∀ N, h.nodes ⊆ N → Q () { h with nodes := N }) :
    wp contract (removeKeyFromTags key tags) Q h := by
  induction tags generalizing h with
  | nil => exact hQ h.nodes Set.Subset.rfl
  | cons tag tags ih =>
    unfold removeKeyFromTags
    rw [wp_bind]
    exact wp_removeKeyFromTag hk hl fun N hN => ih hk hl fun N' hN' => hQ N' (hN.trans hN')

theorem wp_addKeyToTags {tags : List CacheTag} {Q : Unit → Held → Prop} (hk : h.keys = none)
    (hl : h.list = none) (hn : h.node = none) (hQ : ∀ N, h.nodes ⊆ N → Q () { h with nodes := N }) :
    wp contract (addKeyToTags key tags) Q h := by
  induction tags generalizing h with
  | nil => exact hQ h.nodes Set.Subset.rfl
  | cons tag tags ih =>
    unfold addKeyToTags
    rw [wp_bind]
    exact wp_addKeyToTag hk hl hn fun N hN => ih hk hl hn fun N' hN' => hQ N' (hN.trans hN')

/-- A worker at rest that has met more nodes. -/
theorem Held.AtRest.meet (hr : h.AtRest) (N : Set ℕ) : { h with nodes := N }.AtRest :=
  ⟨hr.toUnguarded.meet N, hr.own⟩

theorem Held.AtRest.node (hr : h.AtRest) : h.node = none := by
  have ho := hr.own
  cases hn : h.node with
  | none => rfl
  | some n =>
    have hc := congrArg Multiset.card ho
    simp [Held.own, hn] at hc

/-! ### `controller.c`: the handlers -/

section Mapped

variable {p : SlotPos} {m : MapSlot} {c : CacheEntry}

theorem wp_readMapped {Q : CacheEntry → Held → Prop}
    (hQ : Q c { h with mapped := some ⟨p, m, c⟩ }) :
    wp contract (readEntry m.entry) Q { h with mapped := some ⟨p, m, c⟩ } :=
  Or.inl ⟨p, m, c, rfl, rfl, hQ⟩

theorem wp_writeMapped {v : CacheEntry} {Q : Unit → Held → Prop}
    (hQ : Q () { h with mapped := some ⟨p, m, v⟩ }) :
    wp contract (writeEntry m.entry v) Q { h with mapped := some ⟨p, m, c⟩ } :=
  Or.inl ⟨p, m, c, rfl, rfl, hQ⟩

theorem wp_unlockMapped {Q : Unit → Held → Prop} (hu : h.Unguarded) (hQ : Q () h) :
    wp contract (unlock (.entry m.entry)) Q { h with mapped := some ⟨p, m, c⟩ } := by
  obtain ⟨blocks, locked, node, slot, mapped, keys, list, nodes⟩ := h
  obtain ⟨rfl, rfl, rfl, rfl⟩ := hu
  exact Or.inl ⟨rfl, p, m, c, rfl, rfl, hQ⟩

end Mapped

/-- An entry of its own that a worker has locked is unlocked and released. -/
theorem wp_releaseEntry {e : ℕ} {locked : Multiset ℕ} {α : Type} {f : Program α}
    {Q : α → Held → Prop} (hl : h.list = none) (he : h.locked = e ::ₘ locked)
    (hQ : wp contract f Q { h with locked := locked }) :
    wp contract (do unlock (.entry e); release e; f) Q h := by
  simp only [wp_bind, wp_unlock, wp_release, Held.spec]
  exact Or.inr (Or.inr ⟨locked, he, hl, Or.inl ⟨h.blocks, rfl, hQ⟩⟩)

theorem wp_handleGetRequest {buffer : Payload} {request : Request} (hr : h.AtRest) :
    wp contract (handleGetRequest buffer request) (fun _ => Held.AtRest) h := by
  unfold handleGetRequest
  simp only [wp_bind]
  refine wp_readRequestKey ?_
  rintro ⟨status, key⟩
  cases status with
  | ok =>
    refine (wp_bind _ _).mpr (wp_lockAndGetCacheEntry hr.toUnguarded hr fun p m c => ?_)
    refine (wp_bind _ _).mpr (wp_readMapped ?_)
    have hrest (expired : Bool) :
      wp contract (if expired then do unlock (.entry m.entry); return ⟨.expired, .null, buffer⟩
        else do
          writeEntry m.entry { c with nhits := c.nhits + 1 }
          unlock (.entry m.entry)
          if c.value.length > buffer.cap then return ⟨.bug, .null, buffer⟩
          else if c.value.length > 0 then
            return ⟨.ok, .payloadBuffer, ⟨buffer.base.write 0 c.value, c.value.length, buffer.cap⟩⟩
          else return ⟨.ok, .null, buffer⟩) (fun (_ : Reply) => Held.AtRest)
              { h with mapped := some ⟨p, m, c⟩ } := by
      cases expired with
      | true => exact (wp_bind _ _).mpr (wp_unlockMapped hr.toUnguarded hr)
      | false =>
        refine (wp_bind _ _).mpr
          (wp_writeMapped ((wp_bind _ _).mpr (wp_unlockMapped hr.toUnguarded ?_)))
        split_ifs <;> exact hr
    show wp contract (if _ then _ else _) _ _
    split
    · exact (wp_bind _ _).mpr fun now => hrest _
    · exact hrest false
  | _ => exact hr

theorem wp_renewTtl {ttl : UInt32} (hr : h.AtRest) :
    wp contract (renewTtl key ttl) (fun _ => Held.AtRest) h := by
  unfold renewTtl
  rw [wp_bind]
  refine wp_lockAndGetCacheEntry hr.toUnguarded hr fun p m c => ?_
  refine (wp_bind _ _).mpr (wp_readMapped ?_)
  show wp contract (if ttl = 0xFFFFFFFF then _ else _) _ _
  split_ifs
  · exact (wp_bind _ _).mpr (wp_writeMapped ((wp_bind _ _).mpr (wp_unlockMapped hr.toUnguarded hr)))
  · refine (wp_bind _ _).mpr fun now => ?_
    exact (wp_bind _ _).mpr (wp_writeMapped ((wp_bind _ _).mpr (wp_unlockMapped hr.toUnguarded hr)))

/-- A worker that has only an entry, and has locked it, has nothing when the entry is set. -/
theorem wp_setEntry {e : ℕ} (hr : h.AtRest) :
    wp contract (setEntry e) (fun _ => Held.AtRest) { h with locked := e ::ₘ h.locked } := by
  have hn := hr.node
  -- the tags are added with the entry in its slot and locked
  have hadd (p : SlotPos) (m : MapSlot) (c : CacheEntry) (N : Set ℕ) (hm : m.entry = e) :
      wp contract (do
      let entry ← readEntry e
      addKeyToTags entry.key entry.tags
      unlock (.entry e)
      return StatusCode.ok) (fun _ => Held.AtRest)
          { h with mapped := some ⟨p, m, c⟩, nodes := N } := by
    subst hm
    refine (wp_bind _ _).mpr (Or.inl ⟨p, m, c, rfl, rfl, ?_⟩)
    refine (wp_bind _ _).mpr (wp_addKeyToTags hr.keys hr.list hn fun N' _ => ?_)
    exact (wp_bind _ _).mpr (wp_unlockMapped (hr.meet N').toUnguarded (hr.meet N'))
  unfold setEntry
  rw [wp_bind]
  refine wp_setLockedCacheEntry (hr.toUnguarded.withLocked _) rfl ?_
    (fun p m c hm => ?_) fun old p m c hm => ?_
  · exact wp_releaseEntry hr.list rfl hr
  · exact hadd p m c h.nodes hm
  · refine (wp_bind _ _).mpr (Or.inr ⟨Multiset.mem_cons_self old _, fun c' => ?_⟩)
    refine (wp_bind _ _).mpr (wp_removeKeyFromTags hr.keys hr.list fun N hN => ?_)
    exact wp_releaseEntry hr.list rfl (hadd p m c N hm)

theorem wp_storeEntry {tags : List CacheTag} {total_size : UInt64} {stop : ℕ} {vlen ttl : UInt32}
    (hr : h.AtRest) :
    wp contract (storeEntry key tags total_size stop vlen ttl) (fun _ => Held.AtRest) h := by
  unfold storeEntry
  rw [wp_bind]
  refine wp_reserveAndLockEntry _ hr.keys hr.list hr fun e => ?_
  have he : e ∈ e ::ₘ h.locked := Multiset.mem_cons_self e _
  refine (wp_bind _ _).mpr (Or.inr ⟨he, fun c => ?_⟩)
  refine (wp_bind _ _).mpr (Or.inr ⟨he, ?_⟩)
  refine (wp_bind _ _).mpr fun ⟨status, value⟩ => ?_
  cases status with
  | ok =>
    refine (wp_bind _ _).mpr ⟨he, (wp_bind _ _).mpr fun mtime => ?_⟩
    exact (wp_bind _ _).mpr (Or.inr ⟨he, wp_setEntry hr⟩)
  | _ => exact (wp_bind _ _).mpr ⟨he, wp_releaseEntry hr.list rfl hr⟩

theorem wp_handleSetRequest {buffer : Payload} {request : Request} (hr : h.AtRest) :
    wp contract (handleSetRequest buffer request) (fun _ => Held.AtRest) h := by
  unfold handleSetRequest
  simp only [wp_bind]
  refine wp_readRequestKey ?_
  rintro ⟨status, key⟩
  cases status with
  | ok =>
    show wp contract (if _ then _ else _) _ _
    split_ifs
    · exact (wp_bind _ _).mpr (wp_renewTtl hr)
    · refine (wp_bind _ _).mpr (wp_readTags ?_)
      rintro ⟨status, slices, buffer⟩
      cases status with
      | ok => exact (wp_bind _ _).mpr (wp_storeEntry hr)
      | _ => exact hr
  | _ => exact hr

/-- The entries of a key are taken out of the map and released; the caller may have blocks. -/
theorem wp_deleteEntryByKey {Q : StatusCode → Held → Prop} (hu : h.Unguarded)
    (hQ : ∀ status N, h.nodes ⊆ N → Q status { h with nodes := N }) :
    wp contract (deleteEntryByKey key) Q h := by
  unfold deleteEntryByKey
  rw [wp_bind]
  refine wp_lockAndUnsetCacheEntry hu (hQ _ h.nodes Set.Subset.rfl) fun e => ?_
  refine (wp_bind _ _).mpr (Or.inr ⟨Multiset.mem_cons_self e _, fun c => ?_⟩)
  refine (wp_bind _ _).mpr (wp_removeKeyFromTags hu.keys hu.list fun N hN => ?_)
  refine (wp_bind _ _).mpr
    (wp_iterate (fun e h' => h' = { h with locked := e ::ₘ h.locked, nodes := N }) rfl ?_)
  rintro e h' rfl
  refine wp_releaseEntry hu.list rfl ((wp_bind _ _).mpr ?_)
  exact wp_lockAndUnsetCacheEntry (hu.meet N) (hQ _ N hN) fun e => rfl

theorem wp_handleDelRequest {buffer : Payload} {request : Request} (hr : h.AtRest) :
    wp contract (handleDelRequest buffer request) (fun _ => Held.AtRest) h := by
  unfold handleDelRequest
  simp only [wp_bind]
  refine wp_readRequestKey ?_
  rintro ⟨status, key⟩
  cases status with
  | ok =>
    exact (wp_bind _ _).mpr (wp_deleteEntryByKey hr.toUnguarded fun status N _ => hr.meet N)
  | _ => exact hr

/-- A callback that only looks at entries spares them. -/
theorem spares_look {σ : Type} {callback : CacheEntry → σ → Bool × σ}
    (hcb : ∀ entry data, (callback entry data).1 = false) :
    Spares (look callback) := by
  intro h p m c data Q _ hkeep _
  refine (wp_bind _ _).mpr (Or.inl ⟨p, m, c, rfl, rfl, ?_⟩)
  have hQ := hkeep (callback c data).2 h.nodes Set.Subset.rfl
  rwa [← hcb c data] at hQ

/-- A callback that clears entries releases those that it does not keep. -/
theorem spares_clearUnless (keep : CacheEntry → Bool) : Spares (clearUnless keep) := by
  intro h p m c data Q hu hkeep hclear
  refine (wp_bind _ _).mpr (Or.inl ⟨p, m, c, rfl, rfl, ?_⟩)
  show wp contract (if keep c then _ else _) _ _
  split_ifs
  · exact hkeep () h.nodes Set.Subset.rfl
  · refine (wp_bind _ _).mpr ((wp_bind _ _).mpr (Or.inl ⟨p, m, c, rfl, rfl, ?_⟩))
    refine (wp_bind _ _).mpr (wp_removeKeyFromTags hu.keys hu.list fun N hN => ?_)
    obtain ⟨blocks, locked, node, slot, mapped, keys, list, nodes⟩ := h
    obtain ⟨rfl, rfl, rfl, rfl⟩ := hu
    -- nobody else can be at the entry: it is unlocked, and the guard of its slot is not
    simp only [wp_bind, wp_unlock, wp_release, wp_pure, Held.spec, Held.atEntry]
    exact Or.inr (Or.inl ⟨p, m, c, rfl, rfl, rfl, trivial, Or.inr ⟨p, m, rfl, rfl, hclear () N hN⟩⟩)

theorem wp_deleteKeys {keys : List KeyElem} {Q : Unit → Held → Prop} (hu : h.Unguarded)
    (hQ : ∀ N, h.nodes ⊆ N → Q () { h with nodes := N }) : wp contract (deleteKeys keys) Q h := by
  induction keys generalizing h with
  | nil => exact hQ h.nodes Set.Subset.rfl
  | cons elem next ih =>
    unfold deleteKeys
    rw [wp_bind]
    exact wp_deleteEntryByKey hu fun _ N hN => ih (hu.meet N) fun N' hN' => hQ N' (hN.trans hN')

/-- A program that makes a list of elements that are then the worker's own. -/
def MakesList (keys : Program (List KeyElem)) : Prop :=
  ∀ (h : Held) (Q : List KeyElem → Held → Prop), h.Unguarded →
    (∀ found N, h.nodes ⊆ N → Q found { h with blocks := bases found + h.blocks, nodes := N }) →
    wp contract keys Q h

theorem wp_deleteKeyList {keys : Program (List KeyElem)} {Q : Unit → Held → Prop}
    (hm : MakesList keys) (hu : h.Unguarded) (hQ : ∀ N, h.nodes ⊆ N → Q () { h with nodes := N }) :
    wp contract (deleteKeyList keys) Q h := by
  unfold deleteKeyList
  rw [wp_bind]
  refine hm h _ hu fun found N hN => (wp_bind _ _).mpr ?_
  refine wp_deleteKeys ((hu.withBlocks _).meet N) fun N' hN' => ?_
  exact wp_releaseKeyList hu.list rfl (hQ N' (hN.trans hN'))

theorem wp_listKeyList {keys : Program (List KeyElem)} {data : ListData}
    {Q : ListData → Held → Prop} (hm : MakesList keys) (hu : h.Unguarded)
    (hQ : ∀ data N, h.nodes ⊆ N → Q data { h with nodes := N }) :
    wp contract (listKeyList keys data) Q h := by
  unfold listKeyList
  rw [wp_bind]
  refine hm h _ hu fun found N hN => (wp_bind _ _).mpr ?_
  exact wp_releaseKeyList hu.list rfl (hQ _ N hN)

theorem makesList_any (tags : List CacheTag) : MakesList (getKeysMatchingAnyTag tags) :=
  fun _ _ hu hQ => wp_getKeysMatchingAnyTag hu.keys hu.list hQ

theorem makesList_all (tags : List CacheTag) : MakesList (getKeysMatchingAllTags tags) :=
  fun _ _ hu hQ => wp_getKeysMatchingAllTags hu.keys hu.list hQ

theorem wp_handleClrRequest {buffer : Payload} {request : Request} (hr : h.AtRest) :
    wp contract (handleClrRequest buffer request) (fun _ => Held.AtRest) h := by
  have hu := hr.toUnguarded
  unfold handleClrRequest
  simp only [wp_bind]
  refine wp_readTags ?_
  rintro ⟨status, slices, buffer⟩
  cases status with
  | ok =>
    show wp contract (if _ then _ else _) _ _
    split_ifs
    · exact (wp_bind _ _).mpr (wp_walkAllEntries (spares_clearUnless _) hu fun _ N _ => hr.meet N)
    · refine (wp_bind _ _).mpr fun now => ?_
      exact (wp_bind _ _).mpr (wp_walkAllEntries (spares_clearUnless _) hu fun _ N _ => hr.meet N)
    · exact (wp_bind _ _).mpr (wp_walkAllEntries (spares_clearUnless _) hu fun _ N _ => hr.meet N)
    · exact (wp_bind _ _).mpr (wp_deleteKeyList (makesList_all _) hu fun N _ => hr.meet N)
    · exact (wp_bind _ _).mpr (wp_deleteKeyList (makesList_any _) hu fun N _ => hr.meet N)
    · exact hr
  | _ => exact hr

theorem listAllKeysCallback_fst (entry : CacheEntry) (data : ListData) :
    (listAllKeysCallback entry data).1 = false := by
  unfold listAllKeysCallback
  split_ifs <;> rfl

theorem listNonMatchingCallback_fst (tags : List Slice) (entry : CacheEntry) (data : ListData) :
    (listNonMatchingCallback tags entry data).1 = false := by
  unfold listNonMatchingCallback
  split_ifs
  · rfl
  · rfl
  · exact listAllKeysCallback_fst entry data

theorem wp_handleLstRequest {buffer : Payload} {request : Request} (hr : h.AtRest) :
    wp contract (handleLstRequest buffer request) (fun _ => Held.AtRest) h := by
  have hu := hr.toUnguarded
  unfold handleLstRequest
  simp only [wp_bind]
  refine wp_readTags ?_
  rintro ⟨status, slices, buffer⟩
  cases status with
  | ok =>
    show wp contract (if _ then _ else _) _ _
    split_ifs
    · exact (wp_bind _ _).mpr
        (wp_walkAllEntries (spares_look listAllKeysCallback_fst) hu fun _ N _ => hr.meet N)
    · exact (wp_bind _ _).mpr (wp_walkAllTags hu.keys hu.list fun _ N _ => hr.meet N)
    · exact (wp_bind _ _).mpr
        (wp_walkAllEntries (spares_look (listNonMatchingCallback_fst slices)) hu fun _ N _ =>
          hr.meet N)
    · exact (wp_bind _ _).mpr (wp_listKeyList (makesList_all _) hu fun _ N _ => hr.meet N)
    · exact (wp_bind _ _).mpr (wp_listKeyList (makesList_any _) hu fun _ N _ => hr.meet N)
    · exact hr
  | _ => exact hr

theorem wp_handleNfoRequest {buffer : Payload} {request : Request} (hr : h.AtRest) :
    wp contract (handleNfoRequest buffer request) (fun _ => Held.AtRest) h := by
  unfold handleNfoRequest
  show wp contract (if _ then _ else _) _ _
  split_ifs
  · refine (wp_bind _ _).mpr (wp_readRequestKey fun ⟨status, key⟩ => ?_)
    cases status with
    | ok =>
      refine (wp_bind _ _).mpr (wp_lockAndGetCacheEntry hr.toUnguarded hr fun p m c => ?_)
      refine (wp_bind _ _).mpr (wp_readMapped ?_)
      exact (wp_bind _ _).mpr (wp_unlockMapped hr.toUnguarded hr)
    | _ => exact hr
  · exact (wp_bind _ _).mpr fun info => hr

/-- A worker at rest can handle any request, and is at rest again when it has. -/
theorem wp_handleRequest (c : Call) (hr : h.AtRest) :
    wp contract (handleRequest c) (fun _ => Held.AtRest) h := by
  unfold handleRequest
  show wp contract (if _ then _ else _) _ _
  split_ifs
  · exact hr
  · exact wp_handleGetRequest hr
  · exact wp_handleSetRequest hr
  · exact wp_handleDelRequest hr
  · exact wp_handleClrRequest hr
  · exact wp_handleLstRequest hr
  · exact wp_handleNfoRequest hr
  · exact hr

end Guarded

end Cik

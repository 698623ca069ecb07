import Cik.Source.Entry

/-!
# Where entries are put

Whatever is set, unset and walked over, the entries of a key that are left in a map lie
in the order in which they were set: the one that was set last is the first on the way
from the key's home slot (`Probing.Recent`). So a key in two slots does no harm to a
search, which meets the newest entry first; this is what the comment on duplicate keys in
`set_locked_cache_entry` relies on (`placement`). The times are not in the map; they are
noted beside it.
-/

namespace Cik

open Probing CacheEntryHashMap

/-- An operation on a hash map. -/
inductive MapOp where
  /-- `set_locked_cache_entry` of a new entry. -/
  | set (entry : CacheEntry)
  /-- `lock_and_unset_cache_entry`. -/
  | unset (key : CacheKey)
  /-- `walk_entries`. -/
  | walk {σ : Type} (callback : CacheEntry → σ → Bool × σ) (data : σ)

/-- The slot that `set_locked_cache_entry` stops at. -/
def slotFor (map : CacheEntryHashMap) (entry : CacheEntry) : Option (Fin CACHE_ENTRY_MAP_SIZE) :=
  scan (isOpenAt map (getKeyHash entry.key) entry.key) (homeSlot entry.key)

/-- A hash map with the times at which its slots were set. -/
structure DatedMap where
  /-- The map. -/
  map : CacheEntryHashMap
  /-- When a slot was last set. -/
  since : Fin CACHE_ENTRY_MAP_SIZE → ℕ
  /-- How often a slot was set. -/
  clock : ℕ

namespace DatedMap

/-- The empty map. -/
def init : DatedMap := ⟨initCacheEntryMap, fun _ => 0, 0⟩

/-- An operation is done, and when a slot was set the time is noted. -/
def step (m : DatedMap) : MapOp → DatedMap
  | .set entry =>
    match slotFor m.map entry, setLockedCacheEntry m.map entry with
    | some pos, some (_, map) => ⟨map, Function.update m.since pos m.clock, m.clock + 1⟩
    | _, _ => m
  | .unset key =>
    match lockAndUnsetCacheEntry m.map key with
    | some (_, map) => { m with map := map }
    | none => m
  | .walk callback data => { m with map := (walkEntries callback m.map data).1 }

/-- The operations are done one after the other. -/
def run (m : DatedMap) (ops : List MapOp) : DatedMap := ops.foldl step m

/-- The slots of each key lie in the order in which they were set. -/
def InOrder (m : DatedMap) : Prop := Recent Slot.key homeSlot m.map.slots m.since m.clock

variable {m : DatedMap} {map map' : CacheEntryHashMap} {key : CacheKey} {entry : CacheEntry}
  {pos : Fin CACHE_ENTRY_MAP_SIZE}

theorem slotFor_eq_some_iff : slotFor map entry = some pos ↔
    IsFirst (map.OpenAt entry.key) (homeSlot entry.key) pos := by
  rw [slotFor, scan_eq_some_iff, isFirst_congr fun _ => isOpenAt_iff]

/-- The entry is put into the slot that the search stops at. -/
theorem setLockedCacheEntry_eq : setLockedCacheEntry map entry =
    (slotFor map entry).map fun pos => ((map.slots pos).map Slot.entry, map.put pos entry) := rfl

theorem slots_walkStep {σ : Type} (callback : CacheEntry → σ → Bool × σ)
    (st : CacheEntryHashMap × σ) (p pos : Fin CACHE_ENTRY_MAP_SIZE) (s : Slot)
    (h : (walkStep callback st p).1.slots pos = some s) :
    st.1.slots pos = some s := by
  unfold walkStep at h
  split at h
  · exact h
  · split at h
    · rw [clear_slots] at h
      by_cases hp : pos = p
      · rw [hp, Function.update_self] at h
        cases h
      · rwa [Function.update_of_ne hp] at h
    · exact h

/-- A walk takes entries out, and changes no other slot. -/
theorem slots_walkEntries {σ : Type} (callback : CacheEntry → σ → Bool × σ)
    (map : CacheEntryHashMap) (data : σ) (pos : Fin CACHE_ENTRY_MAP_SIZE) (s : Slot) :
    (walkEntries callback map data).1.slots pos = some s →
      map.slots pos = some s := by
  have hfold (l : List (Fin CACHE_ENTRY_MAP_SIZE)) (st : CacheEntryHashMap × σ) :
      (l.foldl (walkStep callback) st).1.slots pos = some s → st.1.slots pos = some s := by
    induction l generalizing st with
    | nil => exact id
    | cons p l ih => exact fun h => slots_walkStep callback st p pos s (ih _ h)
  rw [walkEntries]
  exact hfold _ (map, data)

theorem inOrder_init : init.InOrder :=
  ⟨fun _ _ _ hp => (by obtain ⟨_, he, _⟩ := hp; cases he), fun _ _ he => (by cases he)⟩

/-- An operation keeps the order. -/
theorem InOrder.step (h : m.InOrder) (op : MapOp) : (m.step op).InOrder := by
  cases op with
  | set entry =>
    rw [DatedMap.step, setLockedCacheEntry_eq]
    cases hs : slotFor m.map entry with
    | none => exact h
    | some pos => exact Recent.update h rfl (slotFor_eq_some_iff.mp hs)
  | unset key =>
    rw [DatedMap.step]
    cases hu : lockAndUnsetCacheEntry m.map key with
    | none => exact h
    | some r =>
      obtain ⟨entry, map'⟩ := r
      obtain ⟨q, -, -, rfl⟩ := lockAndUnsetCacheEntry_eq_some_iff.mp hu
      refine Recent.mono h fun p e he => ?_
      by_cases hp : p = q
      · subst hp
        simp at he
      · simpa [hp] using he
  | walk callback data =>
    rw [DatedMap.step, InOrder]
    dsimp only
    exact Recent.mono h (slots_walkEntries callback m.map data)

/-- So does any number of them. -/
theorem InOrder.run (h : m.InOrder) (ops : List MapOp) : (m.run ops).InOrder := by
  induction ops generalizing m with
  | nil => exact h
  | cons op ops ih => exact ih (h.step op)

/-- What holds of a hash map at all times. -/
structure Placed (m : DatedMap) : Prop where
  /-- The hash of a slot in use is that of its entry's key. -/
  hash : ∀ pos s, m.map.slots pos = some s → s.hash = getKeyHash s.entry.key
  /-- A new entry is refused if and only if all slots hold other keys. -/
  refused : ∀ entry, setLockedCacheEntry m.map entry = none ↔
    ∀ pos, ∃ s, m.map.slots pos = some s ∧ s.entry.key ≠ entry.key
  /-- Then nothing changes. -/
  unchanged : ∀ entry, setLockedCacheEntry m.map entry = none → m.step (.set entry) = m
  /-- Otherwise it goes to one slot, whose entry it replaces. -/
  set : ∀ entry old map', setLockedCacheEntry m.map entry = some (old, map') → ∃ pos,
    (m.step (.set entry)).map = map' ∧
    (m.step (.set entry)).since = Function.update m.since pos m.clock ∧
      map'.slots pos = some (Slot.ofEntry entry) ∧ (∀ q, q ≠ pos → map'.slots q = m.map.slots q) ∧
      old = (m.map.slots pos).map Slot.entry ∧ ∀ e ∈ old, e.key = entry.key
  /-- The slots of a key lie in the order in which they were set, the last one first. -/
  order : ∀ key p q, m.map.HoldsAt key p → m.map.HoldsAt key q →
    rank (homeSlot key) p < rank (homeSlot key) q → m.since q < m.since p
  /-- A search fails if and only if no slot holds the key. -/
  missed : ∀ key, lockAndGetCacheEntry m.map key = none ↔ ∀ pos, ¬ m.map.HoldsAt key pos
  /-- Otherwise it finds the entry that was set last of those that are left. -/
  found : ∀ key pos entry, lockAndGetCacheEntry m.map key = some (pos, entry) →
    m.map.HoldsAt key pos ∧ (m.map.slots pos).map Slot.entry = some entry ∧
    ∀ q, m.map.HoldsAt key q → q ≠ pos → m.since q < m.since pos
  /-- The entry that a search finds is the one that is taken out. -/
  unset : ∀ key, lockAndUnsetCacheEntry m.map key =
    (lockAndGetCacheEntry m.map key).map fun found => (found.2, m.map.clear found.1)

theorem InOrder.placed (h : m.InOrder) : m.Placed where
  hash _ s _ := s.hash_eq
  refused := by
    intro entry
    rw [setLockedCacheEntry_eq_none_iff]
    refine forall_congr' fun pos => ?_
    unfold OpenAt Open Holds
    cases hs : m.map.slots pos with
    | none => simp
    | some s => simp [Slot.key]
  unchanged := by
    intro entry hnone
    rw [DatedMap.step, hnone]
    cases slotFor m.map entry <;> rfl
  set := by
    intro entry old map' hsome
    rw [setLockedCacheEntry_eq] at hsome
    obtain ⟨pos, hpos, he⟩ := Option.map_eq_some_iff.mp hsome
    obtain ⟨rfl, rfl⟩ := Prod.mk.inj he
    refine ⟨pos, ?_, ?_, ?_, fun q hq => ?_, rfl, fun e hold => ?_⟩
    · rw [DatedMap.step, setLockedCacheEntry_eq, hpos]
      rfl
    · rw [DatedMap.step, setLockedCacheEntry_eq, hpos]
      rfl
    · rw [put_slots, Function.update_self]
    · rw [put_slots, Function.update_of_ne hq]
    · obtain ⟨s, hs, rfl⟩ := Option.map_eq_some_iff.mp hold
      rcases (slotFor_eq_some_iff.mp hpos).1 with hfree | ⟨s', hs', hk⟩
      · rw [hfree] at hs
        cases hs
      · rw [hs] at hs'
        obtain rfl := Option.some.inj hs'
        exact hk
  order := h.order
  missed := by
    intro key
    rw [lockAndGetCacheEntry_eq_none_iff, current_eq_none_iff]
  found := by
    intro key pos entry hget
    obtain ⟨hfirst, hentry⟩ := lockAndGetCacheEntry_eq_some_iff.mp hget
    exact ⟨hfirst.1, hentry, fun q hq hne => Recent.isFirst h hfirst hq hne⟩
  unset := by
    intro key
    rw [lockAndUnsetCacheEntry, lockAndGetCacheEntry, Option.map_bind]
    refine congrArg _ (funext fun pos => ?_)
    rw [Function.comp, Option.map_map]
    rfl

/-- In every state of a hash map that operations lead to from the empty one. -/
theorem placement (ops : List MapOp) : (init.run ops).Placed := (inOrder_init.run ops).placed

end DatedMap

end Cik

import Cik.Source.Types
import Cik.Library.Probing
import Mathlib.Order.Fin.Basic

/-!
# The hash maps

`entry.c`. A hash map has a fixed number of slots; a slot in use has a hash and an
entry. A key is searched for from slot `hash % CACHE_ENTRY_MAP_SIZE` on, one slot
after the other (`Probing`).

The functions here are run one at a time, so the guards of slots and entries are not
modelled; a caller that "owns the entry lock" is given the slot. The test of
`set_locked_cache_entry` for an entry that is already in the map is left out:
`handle_set_request` calls it with an entry that it has just reserved.
-/

namespace Cik

open Probing

/-- `get_hash`. -/
def getHash (base : List UInt8) : UInt32 :=
  base.foldl (fun hash b => ((hash <<< 5) + hash) ^^^ b.toUInt32) 5381

/-- `get_key_hash`. -/
def getKeyHash (key : CacheKey) : UInt32 := getHash key

/-- A slot in use: `hashes[pos]` and `entries[pos]`. -/
structure Slot where
  /-- The hash. -/
  hash : UInt32
  /-- The entry. -/
  entry : CacheEntry
  /-- The hash is that of the entry's key. -/
  hash_eq : hash = getKeyHash entry.key
  deriving DecidableEq

/-- The key of a slot's entry. -/
def Slot.key (s : Slot) : CacheKey := s.entry.key

/-- The slot in use for an entry. -/
def Slot.ofEntry (entry : CacheEntry) : Slot := ⟨getKeyHash entry.key, entry, rfl⟩

@[simp] theorem Slot.ofEntry_entry (entry : CacheEntry) : (Slot.ofEntry entry).entry = entry := rfl

/-- A hash map. A slot that `mask` says is not in use is `none`. -/
structure CacheEntryHashMap where
  /-- The slots. -/
  slots : Fin CACHE_ENTRY_MAP_SIZE → Option Slot

namespace CacheEntryHashMap

/-- `map->mask[pos] = true; map->hashes[pos] = hash; map->entries[pos] = entry`. -/
def put (map : CacheEntryHashMap) (pos : Fin CACHE_ENTRY_MAP_SIZE) (entry : CacheEntry) :
    CacheEntryHashMap :=
  ⟨Function.update map.slots pos (some (Slot.ofEntry entry))⟩

/-- `map->mask[pos] = false; map->hashes[pos] = 0; map->entries[pos] = NULL`. -/
def clear (map : CacheEntryHashMap) (pos : Fin CACHE_ENTRY_MAP_SIZE) : CacheEntryHashMap :=
  ⟨Function.update map.slots pos none⟩

end CacheEntryHashMap

/-- `init_cache_entry_map`. -/
def initCacheEntryMap : CacheEntryHashMap := ⟨fun _ => none⟩

/-- `slot = hash % CACHE_ENTRY_MAP_SIZE`. -/
def homeSlot (key : CacheKey) : Fin CACHE_ENTRY_MAP_SIZE :=
  ⟨(getKeyHash key).toNat % CACHE_ENTRY_MAP_SIZE, Nat.mod_lt _ (by decide)⟩

/-- The slot is in use, has the hash, and its entry has the key. -/
def matchesAt (map : CacheEntryHashMap) (hash : UInt32) (key : CacheKey)
    (pos : Fin CACHE_ENTRY_MAP_SIZE) : Bool :=
  match map.slots pos with
  | some s => s.hash == hash && s.entry.key == key
  | none => false

/-- The slot is free, or it matches. -/
def isOpenAt (map : CacheEntryHashMap) (hash : UInt32) (key : CacheKey)
    (pos : Fin CACHE_ENTRY_MAP_SIZE) : Bool :=
  match map.slots pos with
  | some s => s.hash == hash && s.entry.key == key
  | none => true

/-- `lock_and_get_cache_entry`: the slot of the entry, and the entry. -/
def lockAndGetCacheEntry (map : CacheEntryHashMap) (key : CacheKey) :
    Option (Fin CACHE_ENTRY_MAP_SIZE × CacheEntry) :=
  (scan (matchesAt map (getKeyHash key) key) (homeSlot key)).bind fun pos =>
    (map.slots pos).map fun s => (pos, s.entry)

/-- `lock_and_unset_cache_entry`: the entry, and the map without it. -/
def lockAndUnsetCacheEntry (map : CacheEntryHashMap) (key : CacheKey) :
    Option (CacheEntry × CacheEntryHashMap) :=
  (scan (matchesAt map (getKeyHash key) key) (homeSlot key)).bind fun pos =>
    (map.slots pos).map fun s => (s.entry, map.clear pos)

/-- `set_locked_cache_entry`: `none` when it returns false, otherwise `*old_entry` and
the map with the entry. -/
def setLockedCacheEntry (map : CacheEntryHashMap) (entry : CacheEntry) :
    Option (Option CacheEntry × CacheEntryHashMap) :=
  (scan (isOpenAt map (getKeyHash entry.key) entry.key) (homeSlot entry.key)).map fun pos =>
    ((map.slots pos).map Slot.entry, map.put pos entry)

/-- One round of `walk_entries`. -/
def walkStep {σ : Type} (callback : CacheEntry → σ → Bool × σ) (st : CacheEntryHashMap × σ)
    (pos : Fin CACHE_ENTRY_MAP_SIZE) : CacheEntryHashMap × σ :=
  match st.1.slots pos with
  | none => st
  | some s =>
    match callback s.entry st.2 with
    | (true, data) => (st.1.clear pos, data)
    | (false, data) => (st.1, data)

/-- `walk_entries`: a callback that returns true has the slot cleared. -/
def walkEntries {σ : Type} (callback : CacheEntry → σ → Bool × σ)
    (map : CacheEntryHashMap) (data : σ) :
    CacheEntryHashMap × σ :=
  (List.finRange CACHE_ENTRY_MAP_SIZE).foldl (walkStep callback) (map, data)

/-! ### What a search finds -/

namespace CacheEntryHashMap

/-- Slot `pos` holds `key`. -/
abbrev HoldsAt (map : CacheEntryHashMap) (key : CacheKey) (pos : Fin CACHE_ENTRY_MAP_SIZE) : Prop :=
  Holds Slot.key map.slots key pos

/-- Slot `pos` is free or holds `key`. -/
abbrev OpenAt (map : CacheEntryHashMap) (key : CacheKey) (pos : Fin CACHE_ENTRY_MAP_SIZE) : Prop :=
  Open Slot.key map.slots key pos

/-- No key is in two slots. -/
def KeysUnique (map : CacheEntryHashMap) : Prop := Unique Slot.key map.slots

/-- The current entry of a key: the one a search finds. -/
def current (map : CacheEntryHashMap) (key : CacheKey) : Option CacheEntry :=
  (lockAndGetCacheEntry map key).map Prod.snd

@[simp] theorem put_slots (map : CacheEntryHashMap) (pos : Fin CACHE_ENTRY_MAP_SIZE)
    (entry : CacheEntry) :
    (map.put pos entry).slots =
      Function.update map.slots pos (some (Slot.ofEntry entry)) := rfl

@[simp] theorem clear_slots (map : CacheEntryHashMap) (pos : Fin CACHE_ENTRY_MAP_SIZE) :
    (map.clear pos).slots = Function.update map.slots pos none := rfl

theorem holdsAt_clear {map : CacheEntryHashMap} {key : CacheKey}
    {pos q : Fin CACHE_ENTRY_MAP_SIZE} :
    (map.clear pos).HoldsAt key q ↔ q ≠ pos ∧ map.HoldsAt key q := holds_update_none

theorem holdsAt_put {map : CacheEntryHashMap} {pos q : Fin CACHE_ENTRY_MAP_SIZE}
    {entry : CacheEntry} :
    (map.put pos entry).HoldsAt entry.key q ↔ q = pos ∨ map.HoldsAt entry.key q :=
  holds_update (e := Slot.ofEntry entry) rfl

theorem holdsAt_put_of_ne {map : CacheEntryHashMap} {key : CacheKey}
    {pos q : Fin CACHE_ENTRY_MAP_SIZE} {entry : CacheEntry} (ho : map.OpenAt entry.key pos)
    (hne : key ≠ entry.key) :
    (map.put pos entry).HoldsAt key q ↔ map.HoldsAt key q :=
  holds_update_of_ne (e := Slot.ofEntry entry) rfl ho hne

@[ext] theorem ext {map map' : CacheEntryHashMap} (h : map.slots = map'.slots) : map = map' := by
  cases map
  cases map'
  exact congrArg mk h

end CacheEntryHashMap

open CacheEntryHashMap

variable {map map' : CacheEntryHashMap} {key key' : CacheKey} {pos : Fin CACHE_ENTRY_MAP_SIZE}
  {entry old : CacheEntry}

theorem matchesAt_iff : matchesAt map (getKeyHash key) key pos = true ↔ map.HoldsAt key pos := by
  unfold matchesAt HoldsAt Holds
  cases h : map.slots pos with
  | none => simp
  | some s =>
    have hs := s.hash_eq
    simp only [Bool.and_eq_true, beq_iff_eq, Option.some.injEq, exists_eq_left', Slot.key]
    exact ⟨And.right, fun hk => ⟨by rw [hs, hk], hk⟩⟩

theorem isOpenAt_iff : isOpenAt map (getKeyHash key) key pos = true ↔ map.OpenAt key pos := by
  have hm := @matchesAt_iff map key pos
  unfold OpenAt Open
  unfold matchesAt HoldsAt at hm
  unfold isOpenAt
  cases h : map.slots pos with
  | none => simp
  | some s =>
    rw [h] at hm
    simpa using hm

theorem lockAndGetCacheEntry_eq_some_iff :
    lockAndGetCacheEntry map key = some (pos, entry) ↔
      IsFirst (map.HoldsAt key) (homeSlot key) pos ∧
      (map.slots pos).map Slot.entry = some entry := by
  simp only [lockAndGetCacheEntry, Option.bind_eq_some_iff, Option.map_eq_some_iff,
    scan_eq_some_iff, isFirst_congr fun _ => matchesAt_iff, Prod.mk.injEq]
  constructor
  · rintro ⟨p, hp, s, hs, rfl, rfl⟩
    exact ⟨hp, s, hs, rfl⟩
  · rintro ⟨hp, s, hs, rfl⟩
    exact ⟨pos, hp, s, hs, rfl, rfl⟩

theorem current_eq_some_iff :
    map.current key = some entry ↔
      ∃ pos, IsFirst (map.HoldsAt key) (homeSlot key) pos ∧
        (map.slots pos).map Slot.entry = some entry := by
  rw [current, Option.map_eq_some_iff]
  simp only [Prod.exists]
  constructor
  · rintro ⟨p, e, h, rfl⟩
    exact ⟨p, lockAndGetCacheEntry_eq_some_iff.mp h⟩
  · rintro ⟨p, h⟩
    exact ⟨p, entry, lockAndGetCacheEntry_eq_some_iff.mpr h, rfl⟩

/-- A key is unbound when no slot holds it. -/
theorem current_eq_none_iff : map.current key = none ↔ ∀ pos, ¬ map.HoldsAt key pos := by
  constructor
  · intro h p hp
    obtain ⟨q, hq⟩ := exists_isFirst (homeSlot key) ⟨p, hp⟩
    obtain ⟨s, hs, -⟩ := hq.1
    have := current_eq_some_iff.mpr ⟨q, hq, by rw [hs]; rfl⟩
    rw [h] at this
    cases this
  · intro h
    cases hc : map.current key with
    | none => rfl
    | some e =>
      obtain ⟨p, hp, -⟩ := current_eq_some_iff.mp hc
      exact absurd hp.1 (h p)

theorem lockAndGetCacheEntry_eq_none_iff : lockAndGetCacheEntry map key = none ↔
    map.current key = none := by
  simp [current]

theorem current_key (h : map.current key = some entry) : entry.key = key := by
  obtain ⟨p, hp, hs⟩ := current_eq_some_iff.mp h
  obtain ⟨s, hs', hk⟩ := hp.1
  rw [hs', Option.map_some, Option.some.injEq] at hs
  rw [← hs, ← hk, Slot.key]

/-- What a search finds depends on the slots that hold the key only. -/
theorem current_congr (h : ∀ p, (map.HoldsAt key p ∨ map'.HoldsAt key p) →
    map.slots p = map'.slots p) :
    map.current key = map'.current key := by
  have hh (p : Fin CACHE_ENTRY_MAP_SIZE) : map.HoldsAt key p ↔ map'.HoldsAt key p := by
    constructor
    · intro hp
      have := h p (Or.inl hp)
      unfold HoldsAt Holds at hp ⊢
      rwa [← this]
    · intro hp
      have := h p (Or.inr hp)
      unfold HoldsAt Holds at hp ⊢
      rwa [this]
  refine Option.ext fun e => ?_
  rw [current_eq_some_iff, current_eq_some_iff]
  refine exists_congr fun p => ?_
  rw [isFirst_congr hh]
  refine and_congr_right fun hp => ?_
  rw [h p (Or.inr hp.1)]

/-- When no key is in two slots, the current entry is the one in the slot that holds the key. -/
theorem current_eq_some_iff_of_unique (hu : map.KeysUnique) :
    map.current key = some entry ↔
      ∃ pos, map.HoldsAt key pos ∧ (map.slots pos).map Slot.entry = some entry := by
  rw [current_eq_some_iff]
  exact exists_congr fun p => and_congr_left fun _ => ⟨fun h => h.1, fun h => hu.isFirst h _⟩

/-! ### What the operations do -/

theorem lockAndUnsetCacheEntry_eq_some_iff :
    lockAndUnsetCacheEntry map key = some (entry, map') ↔
      ∃ pos, IsFirst (map.HoldsAt key) (homeSlot key) pos ∧
        (map.slots pos).map Slot.entry = some entry ∧ map' = map.clear pos := by
  simp only [lockAndUnsetCacheEntry, Option.bind_eq_some_iff, Option.map_eq_some_iff,
    scan_eq_some_iff, isFirst_congr fun _ => matchesAt_iff, Prod.mk.injEq]
  constructor
  · rintro ⟨p, hp, s, hs, rfl, rfl⟩
    exact ⟨p, hp, ⟨s, hs, rfl⟩, rfl⟩
  · rintro ⟨p, hp, ⟨s, hs, rfl⟩, rfl⟩
    exact ⟨p, hp, s, hs, rfl, rfl⟩

theorem lockAndUnsetCacheEntry_eq_none_iff :
    lockAndUnsetCacheEntry map key = none ↔ map.current key = none := by
  rw [← lockAndGetCacheEntry_eq_none_iff]
  unfold lockAndUnsetCacheEntry lockAndGetCacheEntry
  cases scan (matchesAt map (getKeyHash key) key) (homeSlot key) <;> simp

/-- Unsetting takes the current entry of the key. -/
theorem lockAndUnsetCacheEntry_current (h : lockAndUnsetCacheEntry map key = some (entry, map')) :
    map.current key = some entry := by
  obtain ⟨p, hp, hs, -⟩ := lockAndUnsetCacheEntry_eq_some_iff.mp h
  exact current_eq_some_iff.mpr ⟨p, hp, hs⟩

theorem setLockedCacheEntry_eq_some_iff {old : Option CacheEntry} :
    setLockedCacheEntry map entry = some (old, map') ↔
      ∃ pos, IsFirst (map.OpenAt entry.key) (homeSlot entry.key) pos ∧
        old = (map.slots pos).map Slot.entry ∧ map' = map.put pos entry := by
  simp only [setLockedCacheEntry, Option.map_eq_some_iff, scan_eq_some_iff,
    isFirst_congr fun _ => isOpenAt_iff, Prod.mk.injEq]
  exact exists_congr fun p => and_congr_right fun _ => and_congr eq_comm eq_comm

/-- There is no slot for an entry when other keys are in all of them. -/
theorem setLockedCacheEntry_eq_none_iff :
    setLockedCacheEntry map entry = none ↔ ∀ pos, ¬ map.OpenAt entry.key pos := by
  simp only [setLockedCacheEntry, Option.map_eq_none_iff, scan_eq_none_iff]
  refine forall_congr' fun p => ?_
  rw [← isOpenAt_iff, Bool.not_eq_true]

/-- The entry replaced has the same key. -/
theorem setLockedCacheEntry_key {old : CacheEntry}
    (h : setLockedCacheEntry map entry = some (some old, map')) :
    old.key = entry.key := by
  obtain ⟨pos, hp, hold, -⟩ := setLockedCacheEntry_eq_some_iff.mp h
  obtain ⟨sl, hsl, rfl⟩ := Option.map_eq_some_iff.mp hold.symm
  obtain hnone | ⟨sl', hsl', hk⟩ := hp.1
  · exact (nomatch hnone.symm.trans hsl)
  · exact Option.some.inj (hsl'.symm.trans hsl) ▸ hk

/-- The entry set is the current one of its key. -/
theorem setLockedCacheEntry_current {old : Option CacheEntry}
    (h : setLockedCacheEntry map entry = some (old, map')) :
    map'.current entry.key = some entry := by
  obtain ⟨p, hp, -, rfl⟩ := setLockedCacheEntry_eq_some_iff.mp h
  refine current_eq_some_iff.mpr ⟨p, isFirst_holds_update (e := Slot.ofEntry entry) rfl hp, ?_⟩
  rw [put_slots, Function.update_self, Option.map_some, Slot.ofEntry_entry]

/-- Putting an entry where its key may be leaves the other keys as they were. -/
theorem put_current_of_ne (ho : map.OpenAt entry.key pos) (hne : key ≠ entry.key) :
    (map.put pos entry).current key = map.current key := by
  refine (current_congr fun q hq => ?_).symm
  have hq' : map.HoldsAt key q := hq.elim id fun hq => (holdsAt_put_of_ne ho hne).mp hq
  have hqp : q ≠ pos := by
    rintro rfl
    rcases ho with hf | ho
    · obtain ⟨s, hs, -⟩ := hq'
      rw [hf] at hs
      cases hs
    · exact hne (hq'.key_eq ho)
  rw [put_slots, Function.update_of_ne hqp]

/-- Setting leaves the other keys as they were. -/
theorem setLockedCacheEntry_current_of_ne {old : Option CacheEntry}
    (h : setLockedCacheEntry map entry = some (old, map')) (hne : key ≠ entry.key) :
    map'.current key = map.current key := by
  obtain ⟨p, hp, -, rfl⟩ := setLockedCacheEntry_eq_some_iff.mp h
  exact put_current_of_ne hp.1 hne

/-- Writing to the current entry in place. -/
theorem put_current (h : lockAndGetCacheEntry map key = some (pos, old)) (hk : entry.key = key) :
    (map.put pos entry).current key = some entry := by
  subst hk
  obtain ⟨hp, hs⟩ := lockAndGetCacheEntry_eq_some_iff.mp h
  refine current_eq_some_iff.mpr ⟨pos, ⟨holdsAt_put.mpr (Or.inl rfl), fun q hq hh => ?_⟩, ?_⟩
  · rcases holdsAt_put.mp hh with rfl | hh
    · omega
    · exact hp.2 q hq hh
  · rw [put_slots, Function.update_self, Option.map_some, Slot.ofEntry_entry]

/-! ### Walks -/

/-- The entries of a map, in the order of the slots. -/
def CacheEntryHashMap.entries (map : CacheEntryHashMap) : List CacheEntry :=
  (List.finRange CACHE_ENTRY_MAP_SIZE).filterMap fun pos => (map.slots pos).map Slot.entry

theorem CacheEntryHashMap.mem_entries : entry ∈ map.entries ↔
    ∃ pos, (map.slots pos).map Slot.entry = some entry := by
  simp [entries, List.mem_filterMap]

/-- A walk over some of the slots, when what the callback answers depends on the entry alone. -/
theorem foldl_walkStep {σ : Type} {callback : CacheEntry → σ → Bool × σ} {p : CacheEntry → Bool}
    (hp : ∀ e data, (callback e data).1 = p e) {l : List (Fin CACHE_ENTRY_MAP_SIZE)} (hl : l.Nodup)
    (map : CacheEntryHashMap) (data : σ) :
    l.foldl (walkStep callback) (map, data) =
      (⟨fun pos => if pos ∈ l then (map.slots pos).filter fun s => !p s.entry else map.slots pos⟩,
        (l.filterMap fun pos => (map.slots pos).map Slot.entry).foldl
          (fun data e => (callback e data).2) data) := by
  induction l generalizing map data with
  | nil => simp
  | cons a l ih =>
    obtain ⟨hal, hl⟩ := List.nodup_cons.mp hl
    rw [List.foldl_cons]
    cases hs : map.slots a with
    | none =>
      have hw : walkStep callback (map, data) a = (map, data) := by simp [walkStep, hs]
      rw [hw, ih hl, List.filterMap_cons_none (by simp [hs])]
      refine Prod.ext (CacheEntryHashMap.ext (funext fun q => ?_)) rfl
      by_cases hq : q = a
      · subst hq
        simp [hs, hal]
      · simp [hq]
    | some s =>
      -- what the walk does with slot `a` it does to no slot of the rest
      have hrest (m : CacheEntryHashMap) (hm : ∀ q, q ≠ a → m.slots q = map.slots q) :
          (l.filterMap fun pos => (m.slots pos).map Slot.entry) =
            l.filterMap fun pos => (map.slots pos).map Slot.entry :=
        List.filterMap_congr fun q hq => by rw [hm q fun h => hal (h ▸ hq)]
      have hpe := hp s.entry data
      rw [List.filterMap_cons_some (by rw [hs]; rfl), List.foldl_cons]
      rcases hcb : callback s.entry data with ⟨b, data'⟩
      rw [hcb] at hpe
      have hw : walkStep callback (map, data) a = (if b then map.clear a else map, data') := by
        cases b <;> simp [walkStep, hs, hcb]
      rw [hw, ih hl]
      refine Prod.ext (CacheEntryHashMap.ext (funext fun q => ?_)) ?_
      · by_cases hq : q = a
        · subst hq
          cases b <;> simp [hal, hs, Option.filter, ← hpe]
        · cases b <;> simp [hq]
      · rw [hrest]
        intro q hq
        cases b <;> simp [hq]

/-- A walk, when what the callback answers depends on the entry alone: the slots whose
entries it answers true for are cleared, and it has seen every entry in turn. -/
theorem walkEntries_eq {σ : Type} {callback : CacheEntry → σ → Bool × σ} {p : CacheEntry → Bool}
    (hp : ∀ e data, (callback e data).1 = p e) (map : CacheEntryHashMap) (data : σ) :
    walkEntries callback map data =
      (⟨fun pos => (map.slots pos).filter fun s => !p s.entry⟩,
        map.entries.foldl (fun data e => (callback e data).2) data) := by
  rw [walkEntries, foldl_walkStep hp (List.nodup_finRange _)]
  refine Prod.ext (CacheEntryHashMap.ext (funext fun q => ?_)) rfl
  simp

end Cik

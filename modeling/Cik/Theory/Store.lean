import Cik.Source.Controller

/-!
# The store

What the operations of the controller do to the hash maps and to the tag index, stated
by what a search for a key finds (`Store.current`) and by the pairs of the index
(`TagTree.HasKey`). All ways of removing entries come to taking the entries with some
property out of a map (`CacheEntryHashMap.without`): the walks over the entries
(`clearEntries_eq`) and DEL with its loop (`unsetRest_eq`).
-/

namespace Cik

open Probing CacheEntryHashMap

/-! ### Maps -/

/-- The map without the entries that have a property. -/
def CacheEntryHashMap.without (map : CacheEntryHashMap) (p : CacheEntry → Bool) :
    CacheEntryHashMap :=
  ⟨fun pos => (map.slots pos).filter fun s => !p s.entry⟩

@[simp] theorem without_slots (map : CacheEntryHashMap) (p : CacheEntry → Bool)
    (pos : Fin CACHE_ENTRY_MAP_SIZE) :
    (map.without p).slots pos = (map.slots pos).filter fun s => !p s.entry := rfl

section Without

variable {map : CacheEntryHashMap} {p : CacheEntry → Bool} {key : CacheKey}
  {pos : Fin CACHE_ENTRY_MAP_SIZE}

theorem holdsAt_without : (map.without p).HoldsAt key pos ↔
    ∃ s, map.slots pos = some s ∧ s.key = key ∧ p s.entry = false := by
  unfold HoldsAt Holds
  simp only [without_slots, Option.filter_eq_some_iff, Bool.not_eq_true']
  exact exists_congr fun s => by rw [and_assoc, and_comm (a := p s.entry = false)]

theorem HoldsAt.of_without (h : (map.without p).HoldsAt key pos) : map.HoldsAt key pos := by
  obtain ⟨s, hs, hk, -⟩ := holdsAt_without.mp h
  exact ⟨s, hs, hk⟩

theorem KeysUnique.without (hu : map.KeysUnique) (p : CacheEntry → Bool) :
    (map.without p).KeysUnique :=
  fun k a b ha hb => hu k a b (HoldsAt.of_without ha) (HoldsAt.of_without hb)

/-- When no key is in two slots, a search finds the entry it found before, unless that was taken
out. -/
theorem current_without (hu : map.KeysUnique) (p : CacheEntry → Bool) (key : CacheKey) :
    (map.without p).current key = (map.current key).filter fun e => !p e := by
  refine Option.ext fun e => ?_
  rw [current_eq_some_iff_of_unique (KeysUnique.without hu p), Option.filter_eq_some_iff,
    current_eq_some_iff_of_unique hu]
  constructor
  · rintro ⟨q, hq, he⟩
    obtain ⟨s, hs, hk, hp⟩ := holdsAt_without.mp hq
    have hse : s.entry = e := by
      simpa [hs, hp] using he
    exact ⟨⟨q, ⟨s, hs, hk⟩, by rw [hs, Option.map_some, hse]⟩, by simp [← hse, hp]⟩
  · rintro ⟨⟨q, ⟨s, hs, hk⟩, he⟩, hp⟩
    rw [hs, Option.map_some, Option.some.injEq] at he
    subst he
    have hp' : p s.entry = false := by simpa using hp
    exact ⟨q, holdsAt_without.mpr ⟨s, hs, hk, hp'⟩, by simp [hs, hp']⟩

/-- The entries of one key are taken out. -/
abbrev CacheEntryHashMap.withoutKey (map : CacheEntryHashMap) (key : CacheKey) :
    CacheEntryHashMap :=
  map.without fun e => e.key == key

theorem current_withoutKey (map : CacheEntryHashMap) (key key' : CacheKey) :
    (map.withoutKey key).current key' = if key' = key then none else map.current key' := by
  split_ifs with h
  · subst h
    refine current_eq_none_iff.mpr fun q hq => ?_
    obtain ⟨s, -, hk, hp⟩ := holdsAt_without.mp hq
    simp only [beq_eq_false_iff_ne] at hp
    exact hp hk
  · refine (current_congr fun q hq => ?_).symm
    have hq' : map.HoldsAt key' q := hq.elim id HoldsAt.of_without
    obtain ⟨s, hs, hk⟩ := hq'
    have hne : s.entry.key ≠ key := fun he => h (hk ▸ he)
    simp [hs, hne, Option.filter_some]

theorem withoutKey_clear (h : map.HoldsAt key pos) :
    (map.clear pos).withoutKey key = map.withoutKey key := by
  refine CacheEntryHashMap.ext (funext fun q => ?_)
  by_cases hq : q = pos
  · subst hq
    obtain ⟨s, hs, hk⟩ := h
    simp only [Slot.key] at hk
    simp [hs, hk, Option.filter_some]
  · simp [hq]

/-- The loop of `delete_entry_by_key` leaves no entry of the key, when the entries of the key lie
no nearer to its home than the rounds left allow. -/
theorem unsetRest_spec {fuel : ℕ}
    (h : ∀ q, map.HoldsAt key q → CACHE_ENTRY_MAP_SIZE ≤ rank (homeSlot key) q + fuel) :
    unsetRest fuel map key = map.withoutKey key := by
  have hnone (m : CacheEntryHashMap) (hm : ∀ q, ¬ m.HoldsAt key q) : m.withoutKey key = m := by
    refine CacheEntryHashMap.ext (funext fun q => ?_)
    cases hs : m.slots q with
    | none => simp [hs]
    | some s =>
      have : s.entry.key ≠ key := fun hk => hm q ⟨s, hs, hk⟩
      simp [hs, this]
  induction fuel generalizing map with
  | zero =>
    refine (hnone map fun q hq => ?_).symm
    have := h q hq
    have := rank_lt (homeSlot key) q
    omega
  | succ fuel ih =>
    rw [unsetRest]
    cases hu : lockAndUnsetCacheEntry map key with
    | none =>
      exact (hnone map (current_eq_none_iff.mp (lockAndUnsetCacheEntry_eq_none_iff.mp hu))).symm
    | some r =>
      obtain ⟨entry, map'⟩ := r
      obtain ⟨q, hq, -, rfl⟩ := lockAndUnsetCacheEntry_eq_some_iff.mp hu
      -- the entries left lie behind the one taken out
      change unsetRest fuel (map.clear q) key = _
      rw [ih fun a ha => ?_, withoutKey_clear hq.1]
      · obtain ⟨hne, ha⟩ := holdsAt_clear.mp ha
        have h₁ : ¬ rank (homeSlot key) a < rank (homeSlot key) q := fun hlt => hq.2 a hlt ha
        have h₂ : rank (homeSlot key) a ≠ rank (homeSlot key) q := fun he => hne (rank_inj _ he)
        have := h q hq.1
        omega

/-- After DEL's first search took an entry, its loop takes all others. -/
theorem unsetRest_eq (map : CacheEntryHashMap) (key : CacheKey) :
    unsetRest CACHE_ENTRY_MAP_SIZE map key = map.withoutKey key :=
  unsetRest_spec fun _ _ => Nat.le_add_left _ _

theorem withoutKey_of_unset {entry : CacheEntry} {map' : CacheEntryHashMap}
    (h : lockAndUnsetCacheEntry map key = some (entry, map')) :
    map'.withoutKey key = map.withoutKey key := by
  obtain ⟨q, hq, -, rfl⟩ := lockAndUnsetCacheEntry_eq_some_iff.mp h
  exact withoutKey_clear hq.1

end Without

/-! ### Tags -/

theorem hasKey_removeKeyFromTags {tree : TagTree} {tags : List CacheTag} {key key' : CacheKey}
    {tag : CacheTag} :
    (removeKeyFromTags tree tags key).HasKey tag key' ↔ ¬ (tag ∈ tags ∧ key' = key) ∧
    tree.HasKey tag key' := by
  unfold removeKeyFromTags
  induction tags generalizing tree with
  | nil => simp
  | cons t tags ih =>
    rw [List.foldl_cons, ih, hasKey_removeKeyFromTag, List.mem_cons]
    tauto

theorem hasKey_addKeyToTags {tree : TagTree} {tags : List CacheTag} {key key' : CacheKey}
    {tag : CacheTag} :
    (addKeyToTags tree tags key).HasKey tag key' ↔ (tag ∈ tags ∧ key' = key) ∨
    tree.HasKey tag key' := by
  unfold addKeyToTags
  induction tags generalizing tree with
  | nil => simp
  | cons t tags ih =>
    rw [List.foldl_cons, ih, hasKey_addKeyToTag, List.mem_cons]
    tauto

/-! ### Stores -/

namespace Store

variable {s : Store} {key key' : CacheKey} {entry : CacheEntry}

/-- The current entry of a key: the one a search finds. -/
def current (s : Store) (key : CacheKey) : Option CacheEntry := (s.mapOf key).current key

/-- The entries of the store, in the order of the maps and their slots. -/
def entries (s : Store) : List CacheEntry := (List.finRange NUM_CACHE_ENTRY_MAPS).flatMap fun i =>
  (s.maps i).entries

/-- The store without the entries that have a property, with the index given. -/
def without (s : Store) (p : CacheEntry → Bool) (tags : TagTree) : Store :=
  ⟨fun i => (s.maps i).without p, tags⟩

@[simp] theorem without_tags (s : Store) (p : CacheEntry → Bool) (tags : TagTree) :
    (s.without p tags).tags = tags :=
  rfl

@[simp] theorem setMapOf_tags (s : Store) (key : CacheKey) (map : CacheEntryHashMap) :
    (s.setMapOf key map).tags = s.tags := rfl

theorem mapOf_setMapOf (s : Store) (key key' : CacheKey) (map : CacheEntryHashMap) :
    (s.setMapOf key map).mapOf key' = if getMapForKey key' = getMapForKey key then map
      else s.mapOf key' := by
  simp only [mapOf, setMapOf, Function.update_apply]

@[simp] theorem mapOf_setMapOf_self (s : Store) (key : CacheKey) (map : CacheEntryHashMap) :
    (s.setMapOf key map).mapOf key = map := by simp [mapOf_setMapOf]

theorem current_setMapOf_self (s : Store) (key : CacheKey) (map : CacheEntryHashMap) :
    (s.setMapOf key map).current key = map.current key := by rw [current, mapOf_setMapOf_self]

/-- Changing the map of a key in a way that another key does not see. -/
theorem current_setMapOf_of_ne {map : CacheEntryHashMap}
    (h : getMapForKey key' = getMapForKey key → map.current key' = (s.mapOf key).current key') :
    (s.setMapOf key map).current key' = s.current key' := by
  rw [current, mapOf_setMapOf]
  split_ifs with hm
  · rw [h hm, current, mapOf, mapOf, hm]
  · rfl

theorem current_key (h : s.current key = some entry) : entry.key = key := Cik.current_key h

@[simp] theorem current_init (key : CacheKey) : Store.init.current key = none :=
  current_eq_none_iff.mpr fun _ ⟨_, hs, _⟩ => nomatch hs

end Store

open Store

variable {s : Store} {key key' : CacheKey} {entry : CacheEntry}

/-! ### GET, and SET of the expiry time -/

/-- The store with the current entry of a key written over in place. -/
def Store.touch (s : Store) (key : CacheKey) (pos : Fin CACHE_ENTRY_MAP_SIZE) (entry : CacheEntry) :
    Store :=
  s.setMapOf key ((s.mapOf key).put pos entry)

section Touch

variable {pos : Fin CACHE_ENTRY_MAP_SIZE} {old : CacheEntry}

theorem current_touch (h : lockAndGetCacheEntry (s.mapOf key) key = some (pos, old))
    (hk : entry.key = key) (key' : CacheKey) :
    (s.touch key pos entry).current key' = if key' = key then some entry else s.current key' := by
  split_ifs with hne
  · subst hne
    rw [touch, current_setMapOf_self, put_current h hk]
  · refine current_setMapOf_of_ne fun _ => put_current_of_ne ?_ (hk ▸ hne)
    obtain ⟨hp, -⟩ := lockAndGetCacheEntry_eq_some_iff.mp h
    exact Or.inr (hk ▸ hp.1)

@[simp] theorem touch_tags : (s.touch key pos entry).tags = s.tags := rfl

theorem current_of_get (h : lockAndGetCacheEntry (s.mapOf key) key = some (pos, old)) :
    s.current key = some old := by
  rw [Store.current, CacheEntryHashMap.current, h, Option.map_some]

theorem key_of_get (h : lockAndGetCacheEntry (s.mapOf key) key = some (pos, old)) : old.key = key :=
  Store.current_key (current_of_get h)

theorem current_of_get_none (h : lockAndGetCacheEntry (s.mapOf key) key = none) :
    s.current key = none :=
  lockAndGetCacheEntry_eq_none_iff.mp h

end Touch

/-! ### SET -/

/-- A SET that finds a slot makes its entry the current one of its key, takes the key off the tags
of the entry it finds there, and puts it on its own tags; one that finds none changes nothing. -/
theorem setEntry_spec (s : Store) (entry : CacheEntry) :
    (setLockedCacheEntry (s.mapOf entry.key) entry = none ∧ setEntry s entry = (.outOfMemory, s)) ∨
    (∃ old map, setLockedCacheEntry (s.mapOf entry.key) entry = some (old, map) ∧
      setEntry s entry = (.ok, { s.setMapOf entry.key map with
        tags := addKeyToTags (old.elim s.tags fun old => removeKeyFromTags s.tags old.tags old.key)
          entry.tags entry.key })) := by
  unfold setEntry
  cases h : setLockedCacheEntry (s.mapOf entry.key) entry with
  | none => exact Or.inl ⟨rfl, rfl⟩
  | some r =>
    obtain ⟨old, map⟩ := r
    refine Or.inr ⟨old, map, rfl, ?_⟩
    cases old <;> rfl

theorem current_setEntry (h : (setEntry s entry).1 = .ok) (key : CacheKey) :
    (setEntry s entry).2.current key = if key = entry.key then some entry else s.current key := by
  obtain ⟨-, he⟩ | ⟨old, map, hset, he⟩ := setEntry_spec s entry
  · rw [he] at h
    cases h
  rw [he]
  change (s.setMapOf entry.key map).current key = _
  split_ifs with hne
  · subst hne
    rw [current_setMapOf_self, setLockedCacheEntry_current hset]
  · exact current_setMapOf_of_ne fun _ => setLockedCacheEntry_current_of_ne hset hne

/-- The status of a SET's last part. -/
theorem setEntry_status (s : Store) (entry : CacheEntry) :
    (setEntry s entry).1 = .ok ∨
    ((setEntry s entry).1 = .outOfMemory ∧ (setEntry s entry).2 = s) := by
  obtain ⟨-, he⟩ | ⟨old, map, -, he⟩ := setEntry_spec s entry
  · rw [he]
    exact Or.inr ⟨rfl, rfl⟩
  · rw [he]
    exact Or.inl rfl

/-- A SET's last part succeeds when a slot is open for its key. -/
theorem setEntry_ok_iff : (setEntry s entry).1 = .ok ↔
    ∃ pos, (s.mapOf entry.key).OpenAt entry.key pos := by
  obtain ⟨hfull, he⟩ | ⟨old, map, hset, he⟩ := setEntry_spec s entry
  · rw [he]
    exact iff_of_false (by simp) fun ⟨pos, hp⟩ => setLockedCacheEntry_eq_none_iff.mp hfull pos hp
  · rw [he]
    obtain ⟨pos, hp, -⟩ := setLockedCacheEntry_eq_some_iff.mp hset
    exact iff_of_true rfl ⟨pos, hp.1⟩

/-! ### DEL -/

/-- DEL takes all entries of its key out of the key's map, and the key off the tags of the current
one. -/
theorem deleteEntryByKey_spec (s : Store) (key : CacheKey) :
    (s.current key = none ∧ deleteEntryByKey s key = (.notFound, s)) ∨
    (∃ entry, s.current key = some entry ∧
      deleteEntryByKey s key = (.ok, { s.setMapOf key ((s.mapOf key).withoutKey key) with
        tags := removeKeyFromTags s.tags entry.tags key })) := by
  unfold deleteEntryByKey
  cases h : lockAndUnsetCacheEntry (s.mapOf key) key with
  | none => exact Or.inl ⟨lockAndUnsetCacheEntry_eq_none_iff.mp h, rfl⟩
  | some r =>
    obtain ⟨entry, map⟩ := r
    have hc := lockAndUnsetCacheEntry_current h
    refine Or.inr ⟨entry, hc, ?_⟩
    simp only [unsetRest_eq, withoutKey_of_unset h, Cik.current_key hc]

theorem current_deleteEntryByKey (s : Store) (key key' : CacheKey) :
    (deleteEntryByKey s key).2.current key' = if key' = key then none else s.current key' := by
  obtain ⟨hc, he⟩ | ⟨entry, -, he⟩ := deleteEntryByKey_spec s key
  · rw [he]
    split_ifs with h
    · rw [h, hc]
    · rfl
  · rw [he]
    change (s.setMapOf key _).current key' = _
    split_ifs with h
    · subst h
      rw [current_setMapOf_self, current_withoutKey, if_pos rfl]
    · exact current_setMapOf_of_ne fun _ => by rw [current_withoutKey, if_neg h]

/-! ### Walks -/

/-- A walk over all entries, when what the callback answers depends on the entry alone. -/
theorem walkAllEntries_eq {σ : Type} {cb : CacheEntry → σ → Bool × σ} {p : CacheEntry → Bool}
    (hp : ∀ e data, (cb e data).1 = p e) (s : Store) (data : σ) :
    walkAllEntries cb s.maps data =
      (fun i => (s.maps i).without p, s.entries.foldl (fun data e => (cb e data).2) data) := by
  -- the walk over some of the maps
  have hwalk {f : (Fin NUM_CACHE_ENTRY_MAPS → CacheEntryHashMap) × σ → Fin NUM_CACHE_ENTRY_MAPS →
        (Fin NUM_CACHE_ENTRY_MAPS → CacheEntryHashMap) × σ}
      (hf : ∀ st i,
        f st i = (Function.update st.1 i (walkEntries cb (st.1 i) st.2).1,
        (walkEntries cb (st.1 i) st.2).2))
      (l : List (Fin NUM_CACHE_ENTRY_MAPS)) (hl : l.Nodup)
      (maps : Fin NUM_CACHE_ENTRY_MAPS → CacheEntryHashMap) (data : σ) :
      l.foldl f (maps, data) =
        (fun i => if i ∈ l then (maps i).without p else maps i,
          (l.flatMap fun i => (maps i).entries).foldl (fun data e => (cb e data).2) data) := by
    induction l generalizing maps data with
    | nil => simp
    | cons a l ih =>
      obtain ⟨hal, hl⟩ := List.nodup_cons.mp hl
      have hrest : (l.flatMap fun i => (Function.update maps a ((maps a).without p) i).entries) =
          l.flatMap fun i => (maps i).entries := by
        refine List.flatMap_congr fun i hi => ?_
        rw [Function.update_of_ne fun he : i = a => hal (he ▸ hi)]
      rw [List.foldl_cons, hf, walkEntries_eq hp]
      simp only
      rw [show (⟨fun pos => ((maps a).slots pos).filter fun s => !p s.entry⟩ : CacheEntryHashMap) =
        (maps a).without p from rfl, ih hl, hrest, List.flatMap_cons, List.foldl_append]
      refine Prod.ext (funext fun i => ?_) rfl
      by_cases hi : i = a
      · subst hi
        simp [hal]
      · simp [hi]
  rw [walkAllEntries, hwalk (fun _ _ => rfl) _ (List.nodup_finRange _)]
  simp [Store.entries]

/-- The index after the key of every entry of a list was taken off the entry's tags. -/
def unindex (tags : TagTree) (entries : List CacheEntry) : TagTree :=
  entries.foldl (fun tags e => removeKeyFromTags tags e.tags e.key) tags

theorem hasKey_unindex {tags : TagTree} {l : List CacheEntry} {tag : CacheTag} {key : CacheKey} :
    (unindex tags l).HasKey tag key ↔ (∀ e ∈ l, e.key = key → tag ∉ e.tags) ∧
    tags.HasKey tag key := by
  unfold unindex
  induction l generalizing tags with
  | nil => simp
  | cons e l ih =>
    rw [List.foldl_cons, ih, hasKey_removeKeyFromTags, List.forall_mem_cons]
    constructor
    · rintro ⟨h₁, h₂, h₃⟩
      exact ⟨⟨fun hk ht => h₂ ⟨ht, hk.symm⟩, h₁⟩, h₃⟩
    · rintro ⟨⟨h₂, h₁⟩, h₃⟩
      exact ⟨h₁, fun ⟨ht, hk⟩ => h₂ hk.symm ht, h₃⟩

/-- A walk that clears the entries with some property. -/
theorem clearEntries_eq {cb : CacheEntry → TagTree → Bool × TagTree} {p : CacheEntry → Bool}
    (hcb : ∀ e tags, cb e tags = if p e then clearAllCallback e tags else (false, tags))
    (s : Store) :
    clearEntries cb s = s.without p (unindex s.tags (s.entries.filter p)) := by
  have hp (e : CacheEntry) (tags : TagTree) : (cb e tags).1 = p e := by
    rw [hcb]
    cases p e <;> rfl
  have hfold (l : List CacheEntry) (tags : TagTree) :
      l.foldl (fun tags e => (cb e tags).2) tags = unindex tags (l.filter p) := by
    induction l generalizing tags with
    | nil => rfl
    | cons e l ih =>
      rw [List.foldl_cons, ih, hcb]
      cases hpe : p e <;> simp [hpe, unindex, clearAllCallback]
  rw [clearEntries, walkAllEntries_eq hp, hfold, Store.without]

end Cik

import Cik.Library.Runs
import Cik.Theory.Handling

/-!
# Sound stores

A store is sound (`Store.Sound`) when every entry is in the map of its key, no key is
in two slots, and the tag index says just which current entry has which tags. All
requests keep a store sound but for one: a SET puts a second entry of its key in front
of the first when a slot nearer to the key's home is free by then
(`CacheEntryHashMap.NoHoleBefore` says that none is). What a request may put into a
slot is said once, by `Cmd.Makes` (`exec_slots`); what holds of all entries follows
from it (`Store.All.exec`).
-/

namespace Cik

open Probing CacheEntryHashMap

/-! ### What is in the slots -/

/-- The entry in a slot of the store. -/
def Store.slot (s : Store) (i : Fin NUM_CACHE_ENTRY_MAPS) (pos : Fin CACHE_ENTRY_MAP_SIZE) :
    Option CacheEntry :=
  ((s.maps i).slots pos).map Slot.entry

/-- A property of all entries, and of where they are. -/
def Store.All (P : Fin NUM_CACHE_ENTRY_MAPS → CacheEntry → Prop) (s : Store) : Prop :=
  ∀ i pos e, s.slot i pos = some e → P i e

/-- What a request may put into a slot. -/
def Cmd.Makes (env : Env) (s : Store) : Cmd → CacheEntry → Prop
  | get key _, e => ∃ old, s.current key = some old ∧ e = { old with nhits := old.nhits + 1 }
  | set key tags value ttl, e =>
      e = ⟨key, tags, value, env.now, expiryOf env.now ttl, 0⟩ ∧
        (env.reserve (requestSize key tags value)).isSome
  | setTtl key ttl, e =>
    ∃ old, s.current key = some old ∧ e = { old with expires := expiryOf env.now ttl }
  | _, _ => False

/-- Every slot is as it was, or free, or has a new entry in the map of its key. -/
def Store.Changes (P : CacheEntry → Prop) (s s' : Store) : Prop :=
  ∀ i pos, s'.slot i pos = s.slot i pos ∨ s'.slot i pos = none ∨
    ∃ e, s'.slot i pos = some e ∧ P e ∧ i = getMapForKey e.key

section Slots

variable {env : Env} {s s' s'' : Store} {key : CacheKey} {entry : CacheEntry}
  {map : CacheEntryHashMap} {P : CacheEntry → Prop}

theorem Store.Changes.refl (s : Store) : Store.Changes P s s := fun _ _ => Or.inl rfl

theorem slot_setMapOf (i : Fin NUM_CACHE_ENTRY_MAPS) (pos : Fin CACHE_ENTRY_MAP_SIZE)
    (tags : TagTree) :
    Store.slot { s.setMapOf key map with tags := tags } i pos =
      if i = getMapForKey key then (map.slots pos).map Slot.entry else s.slot i pos := by
  simp only [Store.slot, Store.setMapOf, Function.update_apply]
  split_ifs <;> rfl

theorem changes_put (pos : Fin CACHE_ENTRY_MAP_SIZE) (tags : TagTree) (hn : P entry)
    (hk : entry.key = key) :
    Store.Changes P s { s.setMapOf key ((s.mapOf key).put pos entry) with tags := tags } := by
  intro i q
  rw [slot_setMapOf]
  split_ifs with hi
  · subst hi
    by_cases hq : q = pos
    · subst hq
      exact Or.inr (Or.inr ⟨entry, by simp, hn, by rw [hk]⟩)
    · exact Or.inl (by simp [hq, Store.slot, Store.mapOf])
  · exact Or.inl rfl

theorem slot_without (p : CacheEntry → Bool) (pos : Fin CACHE_ENTRY_MAP_SIZE) :
    ((map.without p).slots pos).map Slot.entry =
      ((map.slots pos).map Slot.entry).filter fun e => !p e := by
  rw [without_slots]
  cases map.slots pos with
  | none => rfl
  | some s => cases hp : p s.entry <;> simp [Option.filter_some, hp]

theorem filter_eq_self_or_none (o : Option CacheEntry) (p : CacheEntry → Bool) : o.filter p = o ∨
    o.filter p = none := by
  cases o with
  | none => exact Or.inl rfl
  | some e => cases hp : p e <;> simp [Option.filter_some, hp]

theorem changes_without (p : CacheEntry → Bool) (tags : TagTree) :
    Store.Changes P s (s.without p tags) := fun i pos => by
  have h := filter_eq_self_or_none (s.slot i pos) fun e => !p e
  have hs : (s.without p tags).slot i pos = (s.slot i pos).filter fun e => !p e :=
    slot_without p pos
  rw [hs]
  exact h.imp id Or.inl

theorem changes_deleteEntryByKey (s : Store) (key : CacheKey) :
    Store.Changes P s (deleteEntryByKey s key).2 := by
  obtain ⟨-, h⟩ | ⟨entry, -, h⟩ := deleteEntryByKey_spec s key
  · rw [h]
    exact .refl s
  · rw [h]
    intro i pos
    simp only [slot_setMapOf]
    split_ifs with hi
    · subst hi
      rw [slot_without]
      exact (filter_eq_self_or_none _ _).imp id Or.inl
    · exact Or.inl rfl

theorem Store.Changes.trans_none (h₁ : Store.Changes (fun _ => False) s s')
    (h₂ : Store.Changes (fun _ => False) s' s'') : Store.Changes (fun _ => False) s s'' := by
  intro i pos
  rcases h₂ i pos with h | h | ⟨e, -, hf, -⟩
  · rw [h]
    exact h₁ i pos
  · exact Or.inr (Or.inl h)
  · exact hf.elim

theorem changes_deleteKeys (s : Store) (keys : List CacheKey) :
    Store.Changes (fun _ => False) s (deleteKeys s keys) := by
  unfold deleteKeys
  induction keys generalizing s with
  | nil => exact .refl s
  | cons key keys ih => exact (changes_deleteEntryByKey s key).trans_none (ih _)

theorem changes_cleared (s : Store) (now : Time) {mode : UInt8} (h : mode ≤ CLEAR_MODE_MATCH_ANY)
    (tags : List CacheTag) : Store.Changes (fun _ => False) s (s.cleared now mode tags) := by
  rcases mode_cases h with rfl | rfl | rfl | rfl | rfl
  · rw [cleared_all]
    exact changes_without _ _
  · rw [cleared_old]
    exact changes_without _ _
  · rw [cleared_matchNone]
    exact changes_without _ _
  · rw [cleared_matchAll]
    exact changes_deleteKeys s _
  · rw [cleared_matchAny]
    exact changes_deleteKeys s _

theorem changes_setEntry (hn : P entry) : Store.Changes P s (setEntry s entry).2 := by
  obtain ⟨-, h⟩ | ⟨old, map, hset, h⟩ := setEntry_spec s entry
  · rw [h]
    exact .refl s
  · rw [h]
    obtain ⟨pos, -, -, rfl⟩ := setLockedCacheEntry_eq_some_iff.mp hset
    exact changes_put pos _ hn rfl

/-- What a request does to the slots. -/
theorem exec_slots (env : Env) (s : Store) {c : Cmd} (hc : c.WF) :
    Store.Changes (c.Makes env s) s (c.exec env s).2 := by
  cases c with
  | get key ignore =>
    simp only [Cmd.exec]
    cases hg : lockAndGetCacheEntry (s.mapOf key) key with
    | none => exact .refl s
    | some found =>
      obtain ⟨pos, entry⟩ := found
      have hk := key_of_get hg
      simp only
      by_cases he : ignore = false ∧ entry.Expired env.now
      · rw [if_pos he]
        exact .refl s
      · rw [if_neg he]
        exact changes_put pos s.tags ⟨entry, current_of_get hg, rfl⟩ hk
  | set key tags value ttl =>
    simp only [Cmd.exec]
    cases hr : env.reserve (requestSize key tags value) with
    | none => exact .refl s
    | some n => exact changes_setEntry ⟨rfl, by rw [hr]; rfl⟩
  | setTtl key ttl =>
    simp only [Cmd.exec]
    cases hg : lockAndGetCacheEntry (s.mapOf key) key with
    | none => exact .refl s
    | some found =>
      obtain ⟨pos, entry⟩ := found
      have hk := key_of_get hg
      exact changes_put pos s.tags ⟨entry, current_of_get hg, rfl⟩ hk
  | del key => exact changes_deleteEntryByKey s key
  | clr mode tags => exact changes_cleared s env.now hc.1 tags
  | lst mode tags => exact .refl s
  | nfo key =>
    simp only [Cmd.exec]
    split_ifs
    · exact .refl s
    · cases s.current key <;> exact .refl s

/-- What holds of all entries, and of all entries that a request makes, holds of all entries after
it. -/
theorem Store.All.exec {P : Fin NUM_CACHE_ENTRY_MAPS → CacheEntry → Prop} {c : Cmd}
    (h : s.All P) (hc : c.WF) (hm : ∀ e, c.Makes env s e → P (getMapForKey e.key) e) :
    (c.exec env s).2.All P := by
  intro i pos e he
  rcases exec_slots env s hc i pos with hs | hs | ⟨e', hs, hn, rfl⟩
  · exact h i pos e (hs ▸ he)
  · rw [hs] at he
    cases he
  · rw [hs, Option.some.injEq] at he
    exact he ▸ hm e' hn

theorem Store.All.init (P : Fin NUM_CACHE_ENTRY_MAPS → CacheEntry → Prop) : Store.init.All P :=
  fun _ _ _ he => nomatch he

/-- What holds of all entries holds of the current entry of a key. -/
theorem Store.All.current {P : Fin NUM_CACHE_ENTRY_MAPS → CacheEntry → Prop} (h : s.All P)
    (hc : s.current key = some entry) : P (getMapForKey key) entry := by
  obtain ⟨pos, -, he⟩ := current_eq_some_iff.mp hc
  exact h _ pos entry he

end Slots

/-- The parts of an entry are ones that can be sent, and it fits the biggest bucket. -/
structure CacheEntry.WF (e : CacheEntry) : Prop where
  /-- The key. -/
  key : IsName e.key
  /-- The tags. -/
  tags : AreTags e.tags
  /-- The size. -/
  size : exactSize e.key e.tags e.value ≤ MAX_BUCKET_SIZE

theorem CacheEntry.WF.value_le {e : CacheEntry} (h : e.WF) : e.value.length ≤ MAX_BUCKET_SIZE :=
  le_trans (Nat.le_add_left _ _) h.size

/-- An entry for which memory was reserved fits the biggest bucket, when its size did not wrap
round. -/
theorem exactSize_le {env : Env} {key : CacheKey} {tags : List CacheTag} {value : CacheValue}
    (hk : IsName key) (hv : value.length < 2 ^ 32) (hs : exactSize key tags value < 2 ^ 32)
    (hr : (env.reserve (requestSize key tags value)).isSome) :
    exactSize key tags value ≤ MAX_BUCKET_SIZE := by
  obtain ⟨n, hn⟩ := Option.isSome_iff_exists.mp hr
  have hfit := env.fits _ _ hn
  rw [requestSize_toNat hk hv, Nat.mod_eq_of_lt hs] at hfit
  omega

/-- All entries are well formed after a request whose entry has a size below `2 ^ 32`. -/
theorem Store.All.exec_wf {env : Env} {s : Store} {c : Cmd} (h : s.All fun _ e => e.WF) (hc : c.WF)
    (hs : c.Sized) :
    (c.exec env s).2.All fun _ e => e.WF := by
  refine h.exec hc fun e he => ?_
  cases c with
  | get key ignore =>
    obtain ⟨old, ho, rfl⟩ := he
    obtain ⟨h₁, h₂, h₃⟩ := h.current ho
    exact ⟨h₁, h₂, h₃⟩
  | set key tags value ttl =>
    obtain ⟨rfl, hr⟩ := he
    exact ⟨hc.1, hc.2.1, exactSize_le hc.1 hc.2.2 hs hr⟩
  | setTtl key ttl =>
    obtain ⟨old, ho, rfl⟩ := he
    obtain ⟨h₁, h₂, h₃⟩ := h.current ho
    exact ⟨h₁, h₂, h₃⟩
  | _ => exact he.elim

/-! ### Soundness -/

/-- No slot before the one that a search for the key finds is free. -/
def CacheEntryHashMap.NoHoleBefore (map : CacheEntryHashMap) (key : CacheKey) : Prop :=
  ∀ pos entry, lockAndGetCacheEntry map key = some (pos, entry) →
    ∀ q, rank (homeSlot key) q < rank (homeSlot key) pos → map.slots q ≠ none

/-- There is no such slot when the key is unbound. -/
theorem noHoleBefore_of_unbound {s : Store} {key : CacheKey} (h : s.current key = none) :
    (s.mapOf key).NoHoleBefore key := by
  intro pos entry hg
  rw [current_of_get hg] at h
  cases h

/-- Every entry is in the map of its key. -/
def Store.Located (s : Store) : Prop := s.All fun i e => getMapForKey e.key = i

/-- No key is in two slots. -/
def Store.KeysUnique (s : Store) : Prop := ∀ i, (s.maps i).KeysUnique

/-- The tag index has just the keys and tags of the current entries. -/
def Store.IndexExact (s : Store) : Prop :=
  ∀ tag key, s.tags.HasKey tag key ↔ ∃ e, s.current key = some e ∧ tag ∈ e.tags

/-- A sound store. -/
structure Store.Sound (s : Store) : Prop where
  /-- Every entry is in the map of its key. -/
  located : s.Located
  /-- No key is in two slots. -/
  unique : s.KeysUnique
  /-- The index is exact. -/
  exact : s.IndexExact

section Sound

variable {env : Env} {s : Store} {key : CacheKey} {entry : CacheEntry}

theorem sound_init : Store.init.Sound where
  located := .init _
  unique := fun _ _ _ _ ⟨_, hs, _⟩ => nomatch hs
  exact := fun tag key => by
    rw [Store.current_init]
    exact iff_of_false not_hasKey_initTagTree fun ⟨_, h, _⟩ => nomatch h

theorem mem_entries_iff : entry ∈ s.entries ↔ ∃ i pos, s.slot i pos = some entry := by
  simp only [Store.entries, List.mem_flatMap, List.mem_finRange, true_and, mem_entries, Store.slot]

/-- In a sound store the entries are the current ones. -/
theorem Store.Sound.mem_entries (h : s.Sound) : entry ∈ s.entries ↔
    s.current entry.key = some entry := by
  have hu : (s.mapOf entry.key).KeysUnique := h.unique _
  rw [mem_entries_iff, Store.current, current_eq_some_iff_of_unique hu]
  constructor
  · rintro ⟨i, pos, he⟩
    obtain rfl := h.located i pos entry he
    obtain ⟨sl, hsl, rfl⟩ := Option.map_eq_some_iff.mp he
    exact ⟨pos, ⟨sl, hsl, rfl⟩, he⟩
  · rintro ⟨pos, -, he⟩
    exact ⟨_, pos, he⟩

/-- Writing over the current entry of a key in place, with the same key and tags. -/
theorem Store.Sound.touch (h : s.Sound) {pos : Fin CACHE_ENTRY_MAP_SIZE} {old : CacheEntry}
    (hg : lockAndGetCacheEntry (s.mapOf key) key = some (pos, old)) (hk : entry.key = key)
    (ht : entry.tags = old.tags) : (s.touch key pos entry).Sound where
  located := by
    intro i q e he
    rcases changes_put (s := s) (P := fun e => e = entry) pos s.tags rfl hk i q
      with hs | hs | ⟨e', hs, -, rfl⟩
    · exact h.located i q e (hs ▸ he)
    · exact nomatch hs.symm.trans he
    · obtain rfl := Option.some.inj (hs.symm.trans he)
      rfl
  unique := by
    have hp := (lockAndGetCacheEntry_eq_some_iff.mp hg).1
    intro i
    simp only [Store.touch, Store.setMapOf, Function.update_apply]
    split_ifs with hi
    · exact (h.unique _).update (e := Slot.ofEntry entry) hk (Or.inr hp.1)
        fun q hq => h.unique _ _ _ _ hq hp.1
    · exact h.unique i
  exact := by
    intro tag key'
    rw [touch_tags, h.exact tag key', current_touch hg hk key']
    split_ifs with hk'
    · rw [hk', current_of_get hg]
      simp [ht]
    · rfl

/-- An entry that is put where a search for its key ends, if no slot before that is free, replaces
the current one. -/
theorem setLockedCacheEntry_inPlace {map map' : CacheEntryHashMap} {old : Option CacheEntry}
    (hu : map.KeysUnique) (hn : map.NoHoleBefore entry.key)
    (h : setLockedCacheEntry map entry = some (old, map')) :
    ∃ pos, IsFirst (map.OpenAt entry.key) (homeSlot entry.key) pos ∧ map' = map.put pos entry ∧
      (∀ q, map.HoldsAt entry.key q → q = pos) ∧ old = map.current entry.key := by
  obtain ⟨pos, hp, hold, rfl⟩ := setLockedCacheEntry_eq_some_iff.mp h
  -- the slot taken is the one the key is in, if it is in one
  have hpos (q : Fin CACHE_ENTRY_MAP_SIZE) (hq : map.HoldsAt entry.key q) : q = pos := by
    have hfirst := hu.isFirst hq (homeSlot entry.key)
    obtain ⟨sl, hsl, hslk⟩ := hq
    have hget : lockAndGetCacheEntry map entry.key = some (q, sl.entry) :=
      lockAndGetCacheEntry_eq_some_iff.mpr ⟨hfirst, by rw [hsl]; rfl⟩
    apply rank_inj (homeSlot entry.key)
    have h₁ : ¬ rank (homeSlot entry.key) q < rank (homeSlot entry.key) pos :=
      fun hlt => hp.2 q hlt (Or.inr ⟨sl, hsl, hslk⟩)
    have h₂ : ¬ rank (homeSlot entry.key) pos < rank (homeSlot entry.key) q := fun hlt =>
      hp.1.elim (hn q _ hget pos hlt) fun hh => hfirst.2 pos hlt hh
    omega
  refine ⟨pos, hp, rfl, hpos, ?_⟩
  rw [hold]
  cases hc : map.current entry.key with
  | none =>
    rw [hp.1.resolve_right (current_eq_none_iff.mp hc pos)]
    rfl
  | some e =>
    obtain ⟨q, hq, he⟩ := current_eq_some_iff.mp hc
    rw [← hpos q hq.1, he]

/-- A SET that leaves no older entry of its key behind. -/
theorem Store.Sound.setEntry (h : s.Sound) (hn : (s.mapOf entry.key).NoHoleBefore entry.key) :
    (setEntry s entry).2.Sound := by
  obtain ⟨-, he⟩ | ⟨old, map, hset, he⟩ := setEntry_spec s entry
  · rw [he]
    exact h
  have hok : (Cik.setEntry s entry).1 = .ok := by rw [he]
  have hcur := current_setEntry hok
  have hunique : (s.mapOf entry.key).KeysUnique := h.unique _
  obtain ⟨pos, hp, rfl, hpos, hold⟩ := setLockedCacheEntry_inPlace hunique hn hset
  have holdcur : old = s.current entry.key := hold
  rw [he] at hcur ⊢
  refine ⟨?_, ?_, ?_⟩
  · intro i q e hs
    rcases changes_put (s := s) (P := fun e => e = entry) pos _ rfl rfl i q
      with hs' | hs' | ⟨e', hs', -, rfl⟩
    · exact h.located i q e (hs' ▸ hs)
    · exact nomatch hs'.symm.trans hs
    · obtain rfl := Option.some.inj (hs'.symm.trans hs)
      rfl
  · intro i
    simp only [Store.setMapOf, Function.update_apply]
    split_ifs with hi
    · exact (h.unique _).update (e := Slot.ofEntry entry) rfl hp.1 hpos
    · exact h.unique i
  · intro tag key
    rw [hcur key, hasKey_addKeyToTags]
    have hrest :
      (old.elim s.tags fun old => removeKeyFromTags s.tags old.tags old.key).HasKey tag key ↔
        key ≠ entry.key ∧ s.tags.HasKey tag key := by
      rw [holdcur]
      cases hc : s.current entry.key with
      | none =>
        refine (and_iff_right_of_imp fun hh hk => ?_).symm
        obtain ⟨e, he', -⟩ := (h.exact tag key).mp hh
        rw [hk, hc] at he'
        cases he'
      | some e =>
        rw [Option.elim_some, hasKey_removeKeyFromTags, Store.current_key hc]
        refine and_congr_left fun hh => ?_
        obtain ⟨e', he', ht⟩ := (h.exact tag key).mp hh
        constructor
        · rintro hnot rfl
          rw [hc, Option.some.injEq] at he'
          exact hnot ⟨he' ▸ ht, rfl⟩
        · exact fun hne hand => hne hand.2
    rw [hrest]
    split_ifs with hk
    · simp [hk]
    · simp [hk, h.exact tag key]

theorem Store.Sound.deleteEntryByKey (h : s.Sound) (key : CacheKey) :
    (deleteEntryByKey s key).2.Sound := by
  have hcur := current_deleteEntryByKey s key
  obtain ⟨-, he⟩ | ⟨entry, hc, he⟩ := deleteEntryByKey_spec s key
  · rw [he]
    exact h
  have hslots := changes_deleteEntryByKey (P := fun _ => False) s key
  rw [he] at hcur hslots ⊢
  refine ⟨?_, ?_, ?_⟩
  · intro i q e hs
    rcases hslots i q with hs' | hs' | ⟨e', -, hf, -⟩
    · exact h.located i q e (hs' ▸ hs)
    · exact nomatch hs'.symm.trans hs
    · exact hf.elim
  · intro i
    simp only [Store.setMapOf, Function.update_apply]
    split_ifs with hi
    · exact KeysUnique.without (h.unique _) _
    · exact h.unique i
  · intro tag key'
    rw [hcur key', hasKey_removeKeyFromTags, h.exact tag key']
    split_ifs with hk
    · subst hk
      simp [hc]
    · simp [hk]

theorem Store.Sound.deleteKeys (h : s.Sound) (keys : List CacheKey) :
    (deleteKeys s keys).Sound := by
  unfold Cik.deleteKeys
  induction keys generalizing s with
  | nil => exact h
  | cons key keys ih => exact ih (h.deleteEntryByKey key)

theorem Store.Sound.current_without (h : s.Sound) (p : CacheEntry → Bool) (tags : TagTree)
    (key : CacheKey) :
    (s.without p tags).current key = (s.current key).filter fun e => !p e :=
  Cik.current_without (h.unique _) p key

/-- A walk that clears entries and takes their keys off their tags. -/
theorem Store.Sound.without (h : s.Sound) (p : CacheEntry → Bool) :
    (s.without p (unindex s.tags (s.entries.filter p))).Sound where
  located := by
    intro i q e hs
    rcases changes_without (P := fun _ => False) (s := s) p
        (unindex s.tags (s.entries.filter p)) i q with
      hs' | hs' | ⟨e', -, hf, -⟩
    · exact h.located i q e (hs' ▸ hs)
    · exact nomatch hs'.symm.trans hs
    · exact hf.elim
  unique := fun i => KeysUnique.without (h.unique i) p
  exact := by
    intro tag key
    rw [h.current_without, Store.without_tags, hasKey_unindex, h.exact tag key]
    simp only [Option.filter_eq_some_iff, Bool.not_eq_true', List.mem_filter, h.mem_entries]
    constructor
    · rintro ⟨hnot, e, hc, ht⟩
      refine ⟨e, ⟨hc, ?_⟩, ht⟩
      have hk := Store.current_key hc
      by_contra hp
      exact hnot e ⟨hk.symm ▸ hc, by simpa using hp⟩ hk ht
    · rintro ⟨e, ⟨hc, hp⟩, ht⟩
      refine ⟨?_, e, hc, ht⟩
      rintro e' ⟨hc', hp'⟩ rfl -
      rw [hc, Option.some.injEq] at hc'
      rw [hc', hp'] at hp
      cases hp

theorem Store.Sound.cleared (h : s.Sound) (now : Time) {mode : UInt8}
    (hm : mode ≤ CLEAR_MODE_MATCH_ANY) (tags : List CacheTag) :
    (s.cleared now mode tags).Sound := by
  rcases mode_cases hm with rfl | rfl | rfl | rfl | rfl
  · rw [cleared_all]
    exact h.without _
  · rw [cleared_old]
    exact h.without _
  · rw [cleared_matchNone]
    exact h.without _
  · rw [cleared_matchAll]
    exact h.deleteKeys _
  · rw [cleared_matchAny]
    exact h.deleteKeys _

/-- A SET that would put its entry in front of an older one of the key meets this not. -/
def Cmd.InPlace (s : Store) : Cmd → Prop
  | set key _ _ _ => (s.mapOf key).NoHoleBefore key
  | _ => True

/-- Every request keeps a store sound, unless it is a SET that leaves an older entry of its key
behind. -/
theorem Store.Sound.exec (h : s.Sound) {c : Cmd} (hc : c.WF) (hp : c.InPlace s) :
    (c.exec env s).2.Sound := by
  cases c with
  | get key ignore =>
    simp only [Cmd.exec]
    cases hg : lockAndGetCacheEntry (s.mapOf key) key with
    | none => exact h
    | some found =>
      obtain ⟨pos, entry⟩ := found
      have hk := key_of_get hg
      simp only
      by_cases he : ignore = false ∧ entry.Expired env.now
      · rw [if_pos he]
        exact h
      · rw [if_neg he]
        exact h.touch hg hk rfl
  | set key tags value ttl =>
    simp only [Cmd.exec]
    cases env.reserve (requestSize key tags value) with
    | none => exact h
    | some n => exact h.setEntry hp
  | setTtl key ttl =>
    simp only [Cmd.exec]
    cases hg : lockAndGetCacheEntry (s.mapOf key) key with
    | none => exact h
    | some found =>
      obtain ⟨pos, entry⟩ := found
      have hk := key_of_get hg
      exact h.touch hg hk rfl
  | del key => exact h.deleteEntryByKey key
  | clr mode tags => exact h.cleared env.now hc.1 tags
  | lst mode tags => exact h
  | nfo key =>
    simp only [Cmd.exec]
    split_ifs
    · exact h
    · cases s.current key <;> exact h

end Sound

/-- A request that leaves no older entry of its key behind, and no size that wraps round. -/
def Served.Orderly (s : Store) (q : Served) : Prop := q.cmd.InPlace s ∧ q.cmd.Sized

/-- Whatever requests are handled, if they are orderly the store is sound and its entries well
formed. -/
theorem sound_of_orderly {l : List Served} {s s₀ : Store}
    (h : Run (Provided Served.Orderly Served.Step) s₀ l s)
    (h₀ : s₀.Sound ∧ s₀.All fun _ e => e.WF) : s.Sound ∧ s.All fun _ e => e.WF := by
  refine h.invariant (I := fun s => s.Sound ∧ s.All fun _ e => e.WF) ?_ h₀
  rintro s q s' ⟨hsound, hwf⟩ ⟨⟨hp, hsized⟩, hstep⟩
  rw [hstep.eq_exec]
  exact ⟨hsound.exec q.wf hp, hwf.exec_wf q.wf hsized⟩

/-- Whatever requests are handled, the entries are well formed if no size wraps round. -/
theorem wf_of_sized {l : List Served} {s s₀ : Store}
    (h : Run (Provided (fun _ q => q.cmd.Sized) Served.Step) s₀ l s) (h₀ : s₀.All fun _ e => e.WF) :
    s.All fun _ e => e.WF := by
  refine h.invariant (I := Store.All fun _ e => e.WF) ?_ h₀
  rintro s q s' hs ⟨hsized, hstep⟩
  rw [hstep.eq_exec]
  exact hs.exec_wf q.wf hsized

theorem sound_init_wf : Store.init.Sound ∧ Store.init.All fun _ e => e.WF := ⟨sound_init, .init _⟩

end Cik

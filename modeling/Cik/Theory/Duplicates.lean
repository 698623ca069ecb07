import Cik.Theory.Soundness
import Mathlib.Order.Fin.Basic

/-!
# A key in two slots

Two keys have the same home slot. The first is set, then the second, which goes to the
slot behind; the first is deleted; and the second is set again, into the slot that has
become free. Now it is in two slots, and the index has the tags of both its entries
(`leftBehind_slots`, `hasKey_leftBehind`).
-/

namespace Cik

open Probing CacheEntryHashMap

/-- Two keys with the same map and the same home slot. -/
structure Collide (a k : CacheKey) : Prop where
  /-- They are not the same. -/
  ne : a ≠ k
  /-- They have the same map. -/
  map_eq : getMapForKey a = getMapForKey k
  /-- They have the same home slot. -/
  slot_eq : homeSlot a = homeSlot k
  /-- The slot behind is another one. -/
  next_ne : next (homeSlot k) ≠ homeSlot k

/-- The store after `ea` was set, then `e₁`, then `ea` deleted, then `e₂` set. -/
def leftBehind (ea e₁ e₂ : CacheEntry) : Store :=
  (setEntry (deleteEntryByKey (setEntry (setEntry Store.init ea).2 e₁).2 ea.key).2 e₂).2

/-- A store of which all maps but that of a key are empty. -/
def oneMap (key : CacheKey) (map : CacheEntryHashMap) (tags : TagTree) : Store :=
  { Store.init.setMapOf key map with tags := tags }

section OneMap

variable {key key' : CacheKey} {map : CacheEntryHashMap} {tags : TagTree} {e : CacheEntry}

@[simp] theorem oneMap_tags : (oneMap key map tags).tags = tags := rfl

theorem oneMap_init : oneMap key initCacheEntryMap initTagTree = Store.init := by
  have hm :
      Function.update Store.init.maps (getMapForKey key) initCacheEntryMap = Store.init.maps :=
    Function.update_eq_self (getMapForKey key) Store.init.maps
  rw [oneMap, Store.setMapOf, hm]
  rfl

theorem maps_oneMap_self : (oneMap key map tags).maps (getMapForKey key) = map := by
  simp only [oneMap, Store.setMapOf, Function.update_self]

theorem maps_oneMap_of_ne {i : Fin NUM_CACHE_ENTRY_MAPS} (h : i ≠ getMapForKey key) :
    (oneMap key map tags).maps i = initCacheEntryMap := by
  simp only [oneMap, Store.setMapOf, Function.update_of_ne h]
  rfl

theorem mapOf_oneMap (h : getMapForKey key' = getMapForKey key) :
    (oneMap key map tags).mapOf key' = map := by
  have := Store.mapOf_setMapOf Store.init key key' map
  rwa [if_pos h] at this

theorem setMapOf_oneMap (h : getMapForKey key' = getMapForKey key) (map' : CacheEntryHashMap)
    (tags' : TagTree) :
    { (oneMap key map tags).setMapOf key' map' with tags := tags' } = oneMap key map' tags' := by
  simp only [oneMap, Store.setMapOf, h, Function.update_idem]

/-- A SET into the slot that is free and first in the search. -/
theorem setEntry_oneMap (map : CacheEntryHashMap) (tags : TagTree)
    (hm : getMapForKey e.key = getMapForKey key) {pos : Fin CACHE_ENTRY_MAP_SIZE}
    (hp : IsFirst (map.OpenAt e.key) (homeSlot e.key) pos) (hf : map.slots pos = none) :
    setEntry (oneMap key map tags) e =
    (.ok, oneMap key (map.put pos e) (addKeyToTags tags e.tags e.key)) := by
  have hset :
      setLockedCacheEntry ((oneMap key map tags).mapOf e.key) e = some (none, map.put pos e) := by
    rw [mapOf_oneMap hm]
    exact setLockedCacheEntry_eq_some_iff.mpr ⟨pos, hp, by rw [hf]; rfl, rfl⟩
  obtain ⟨h, -⟩ | ⟨old, map', h, he⟩ := setEntry_spec (oneMap key map tags) e
  · rw [hset] at h
    cases h
  · rw [hset, Option.some.injEq, Prod.mk.injEq] at h
    obtain ⟨rfl, rfl⟩ := h
    rw [he, setMapOf_oneMap hm]
    rfl

theorem deleteEntryByKey_oneMap (tags : TagTree) (hm : getMapForKey key' = getMapForKey key)
    (hc : map.current key' = some e) :
    deleteEntryByKey (oneMap key map tags) key' =
      (.ok, oneMap key (map.withoutKey key') (removeKeyFromTags tags e.tags key')) := by
  obtain ⟨h, -⟩ | ⟨entry, h, he⟩ := deleteEntryByKey_spec (oneMap key map tags) key'
  · rw [Store.current, mapOf_oneMap hm, hc] at h
    cases h
  · rw [Store.current, mapOf_oneMap hm, hc, Option.some.injEq] at h
    rw [he, mapOf_oneMap hm, setMapOf_oneMap hm, ← h]
    rfl

end OneMap

section Lists

variable {α β : Type}

theorem filterMap_finRange_two {n : ℕ} {f : Fin n → Option α} {a b : Fin n} {x y : α} (hab : a < b)
    (ha : f a = some x) (hb : f b = some y) (h : ∀ i, i ≠ a → i ≠ b → f i = none) :
    (List.finRange n).filterMap f = [x, y] := by
  have hnil (l : List (Fin n)) (hl : ∀ i ∈ l, i ≠ a ∧ i ≠ b) : l.filterMap f = [] :=
    List.filterMap_eq_nil_iff.mpr fun i hi => h i (hl i hi).1 (hl i hi).2
  obtain ⟨u, v, huv⟩ := List.append_of_mem (List.mem_finRange a)
  have hlt := List.pairwise_lt_finRange n
  have hb' := List.mem_finRange b
  rw [huv] at hlt hb' ⊢
  obtain ⟨-, hv, hu⟩ := List.pairwise_append.mp hlt
  obtain ⟨hav, hv⟩ := List.pairwise_cons.mp hv
  have hbv : b ∈ v := by
    rcases List.mem_append.mp hb' with hbu | hbv
    · exact absurd (hu b hbu a List.mem_cons_self) (not_lt.mpr (le_of_lt hab))
    · exact (List.mem_cons.mp hbv).resolve_left (ne_of_gt hab)
  obtain ⟨v, w, rfl⟩ := List.append_of_mem hbv
  obtain ⟨-, hw, hvb⟩ := List.pairwise_append.mp hv
  obtain ⟨hbw, -⟩ := List.pairwise_cons.mp hw
  rw [List.filterMap_append, List.filterMap_cons_some ha, List.filterMap_append,
    List.filterMap_cons_some hb, hnil u, hnil v, hnil w]
  · rfl
  · exact fun i hi => ⟨ne_of_gt (hav i (by simp [hi])), ne_of_gt (hbw i hi)⟩
  · exact fun i hi => ⟨ne_of_gt (hav i (by simp [hi])), ne_of_lt (hvb i hi b List.mem_cons_self)⟩
  · exact fun i hi =>
      ⟨ne_of_lt (hu i hi a List.mem_cons_self),
      ne_of_lt (lt_trans (hu i hi a List.mem_cons_self) hab)⟩

theorem flatMap_of_nodup {l : List α} {f : α → List β} {a : α} (hl : l.Nodup) (ha : a ∈ l)
    (h : ∀ i, i ≠ a → f i = []) : l.flatMap f = f a := by
  induction l with
  | nil => cases ha
  | cons b l ih =>
    obtain ⟨hb, hl⟩ := List.nodup_cons.mp hl
    rw [List.flatMap_cons]
    rcases List.mem_cons.mp ha with rfl | ha
    · rw [List.flatMap_eq_nil_iff.mpr fun i hi => h i fun he => hb (he ▸ hi), List.append_nil]
    · rw [h b fun he => hb (he ▸ ha), List.nil_append, ih hl ha]

end Lists

section LeftBehind

variable {ea e₁ e₂ : CacheEntry}

/-- The map after the four requests. -/
def twoSlots (e₁ e₂ : CacheEntry) : CacheEntryHashMap :=
  (initCacheEntryMap.put (next (homeSlot e₁.key)) e₁).put (homeSlot e₁.key) e₂

/-- The index after the four requests. -/
def twoTags (ea e₁ e₂ : CacheEntry) : TagTree :=
  addKeyToTags
    (removeKeyFromTags (addKeyToTags (addKeyToTags initTagTree ea.tags ea.key) e₁.tags e₁.key)
    ea.tags ea.key) e₂.tags e₂.key

theorem openAt_init (key : CacheKey) (pos : Fin CACHE_ENTRY_MAP_SIZE) :
    initCacheEntryMap.OpenAt key pos := Or.inl rfl

/-- A store with one entry. -/
theorem setEntry_init (e : CacheEntry) : setEntry Store.init e =
    (.ok, oneMap e.key (initCacheEntryMap.put (homeSlot e.key) e)
      (addKeyToTags initTagTree e.tags e.key)) := by
  have hset :=
    @setEntry_oneMap e.key e initCacheEntryMap initTagTree rfl _
    (isFirst_start (openAt_init e.key _)) rfl
  rwa [oneMap_init] at hset

/-- The four requests succeed, and leave the key of `e₁` in two slots. -/
theorem leftBehind_eq (h : Collide ea.key e₁.key) (hk : e₂.key = e₁.key) :
    leftBehind ea e₁ e₂ = oneMap e₁.key (twoSlots e₁ e₂) (twoTags ea e₁ e₂) ∧
      (setEntry Store.init ea).1 = .ok ∧ (setEntry (setEntry Store.init ea).2 e₁).1 = .ok ∧
      (deleteEntryByKey (setEntry (setEntry Store.init ea).2 e₁).2 ea.key).1 = .ok ∧
      (setEntry (deleteEntryByKey (setEntry (setEntry Store.init ea).2 e₁).2 ea.key).2 e₂).1 =
      .ok := by
  obtain ⟨hne, hm, hs, hn⟩ := h
  -- the first key gets its home slot
  have h₁ :=
    setEntry_oneMap initCacheEntryMap initTagTree hm (isFirst_start (openAt_init ea.key _)) rfl
  rw [oneMap_init] at h₁
  -- the second one the slot behind
  have htaken : ¬ (initCacheEntryMap.put (homeSlot ea.key) ea).OpenAt e₁.key (homeSlot e₁.key) := by
    rintro (hf | ⟨sl, hsl, hslk⟩)
    · simp [hs] at hf
    · simp only [put_slots, hs, Function.update_self, Option.some.injEq] at hsl
      exact hne (by rw [← hslk, ← hsl]; rfl)
  have hfree :
      (initCacheEntryMap.put (homeSlot ea.key) ea).slots (next (homeSlot e₁.key)) = none := by
    rw [put_slots, hs, Function.update_of_ne hn]
    rfl
  have h₂ :=
    setEntry_oneMap (initCacheEntryMap.put (homeSlot ea.key) ea)
    (addKeyToTags initTagTree ea.tags ea.key) rfl (isFirst_next htaken (Or.inl hfree) hn) hfree
  -- the first one is found and taken out
  have hheld :
    ((initCacheEntryMap.put (homeSlot ea.key) ea).put (next (homeSlot e₁.key)) e₁).HoldsAt ea.key
      (homeSlot ea.key) := by
    refine ⟨Slot.ofEntry ea, ?_, rfl⟩
    rw [put_slots, hs, Function.update_of_ne (Ne.symm hn), put_slots, Function.update_self]
  have hcur :
    ((initCacheEntryMap.put (homeSlot ea.key) ea).put (next (homeSlot e₁.key)) e₁).current ea.key =
      some ea := by
    refine current_eq_some_iff.mpr ⟨homeSlot ea.key, isFirst_start hheld, ?_⟩
    rw [put_slots, hs, Function.update_of_ne (Ne.symm hn), put_slots, Function.update_self]
    rfl
  have h₃ := deleteEntryByKey_oneMap
    (addKeyToTags (addKeyToTags initTagTree ea.tags ea.key) e₁.tags e₁.key) hm hcur
  have hrest :
    ((initCacheEntryMap.put (homeSlot ea.key) ea).put (next (homeSlot e₁.key)) e₁).withoutKey
    ea.key =
      initCacheEntryMap.put (next (homeSlot e₁.key)) e₁ := by
    refine CacheEntryHashMap.ext (funext fun q => ?_)
    rw [without_slots, put_slots, put_slots, put_slots, hs]
    by_cases hq : q = next (homeSlot e₁.key)
    · subst hq
      simp [Option.filter_some, Ne.symm hne]
    · by_cases hq' : q = homeSlot e₁.key
      · subst hq'
        simp [hq, Option.filter_some, initCacheEntryMap]
      · simp [hq, hq', initCacheEntryMap]
  rw [hrest] at h₃
  -- and the second one goes to its home slot
  have hfree' :
      (initCacheEntryMap.put (next (homeSlot e₁.key)) e₁).slots (homeSlot e₁.key) = none := by
    rw [put_slots, Function.update_of_ne (Ne.symm hn)]
    rfl
  have hhome :
    IsFirst ((initCacheEntryMap.put (next (homeSlot e₁.key)) e₁).OpenAt e₂.key) (homeSlot e₂.key)
      (homeSlot e₁.key) := by
    rw [hk]
    exact isFirst_start (Or.inl hfree')
  have h₄ := setEntry_oneMap (initCacheEntryMap.put (next (homeSlot e₁.key)) e₁)
    (removeKeyFromTags (addKeyToTags (addKeyToTags initTagTree ea.tags ea.key) e₁.tags e₁.key)
      ea.tags ea.key)
    (by rw [hk]) hhome hfree'
  rw [leftBehind, h₁, h₂, h₃, h₄]
  exact ⟨rfl, rfl, rfl, rfl, rfl⟩

/-- The current entry of the key is the newer one. -/
theorem current_leftBehind (h : Collide ea.key e₁.key) (hk : e₂.key = e₁.key) :
    (leftBehind ea e₁ e₂).current e₁.key = some e₂ := by
  have := current_setEntry (leftBehind_eq h hk).2.2.2.2 e₁.key
  rwa [hk, if_pos rfl] at this

/-- The index has the tags of both entries. -/
theorem hasKey_leftBehind (h : Collide ea.key e₁.key) (hk : e₂.key = e₁.key) (tag : CacheTag)
    (key : CacheKey) :
    (leftBehind ea e₁ e₂).tags.HasKey tag key ↔ key = e₁.key ∧ (tag ∈ e₁.tags ∨ tag ∈ e₂.tags) := by
  have hne := h.ne
  rw [(leftBehind_eq h hk).1, oneMap_tags, twoTags, hasKey_addKeyToTags, hasKey_removeKeyFromTags,
    hasKey_addKeyToTags, hasKey_addKeyToTags, hk]
  simp only [not_hasKey_initTagTree, or_false]
  constructor
  · rintro (⟨h₂, rfl⟩ | ⟨hnot, ⟨h₁, rfl⟩ | ha⟩)
    · exact ⟨rfl, Or.inr h₂⟩
    · exact ⟨rfl, Or.inl h₁⟩
    · exact absurd ha hnot
  · rintro ⟨rfl, h₁ | h₂⟩
    · exact Or.inr ⟨fun hand => hne hand.2.symm, Or.inl ⟨h₁, rfl⟩⟩
    · exact Or.inl ⟨h₂, rfl⟩

/-- The newer entry of the key lies before the older one, and there are no others. -/
theorem entries_leftBehind (h : Collide ea.key e₁.key) (hk : e₂.key = e₁.key)
    (hlt : homeSlot e₁.key < next (homeSlot e₁.key)) :
    (leftBehind ea e₁ e₂).entries = [e₂, e₁] := by
  rw [(leftBehind_eq h hk).1, Store.entries,
    flatMap_of_nodup (List.nodup_finRange _) (List.mem_finRange (getMapForKey e₁.key)),
    maps_oneMap_self]
  · refine filterMap_finRange_two hlt ?_ ?_ ?_
    · rw [twoSlots, put_slots, Function.update_self]
      rfl
    · rw [twoSlots, put_slots, Function.update_of_ne (ne_of_gt hlt), put_slots,
        Function.update_self]
      rfl
    · intro i h₁ h₂
      rw [twoSlots, put_slots, Function.update_of_ne h₁, put_slots, Function.update_of_ne h₂]
      rfl
  · intro i hi
    rw [maps_oneMap_of_ne hi, CacheEntryHashMap.entries]
    exact List.filterMap_eq_nil_iff.mpr fun _ _ => rfl

end LeftBehind

/-! ### An example -/

/-- The key `@+`. -/
def keyA : CacheKey := [0x2B, 0x40]

/-- The key `rU`. -/
def keyK : CacheKey := [0x55, 0x72]

theorem collide_keys : Collide keyA keyK := ⟨by decide, by decide, by decide, by decide⟩

/-- The entry of the first key. -/
def entryA : CacheEntry := ⟨keyA, [], [0x61], 0, CACHE_EXPIRES_INIT, 0⟩

/-- The older entry of the second key, with the tag `1`. -/
def entryOld : CacheEntry := ⟨keyK, [[0x31]], [0x6F], 0, CACHE_EXPIRES_INIT, 0⟩

/-- The newer entry of the second key, with the tag `2`. -/
def entryNew : CacheEntry := ⟨keyK, [[0x32]], [0x6E], 0, CACHE_EXPIRES_INIT, 0⟩

/-- The process at start-up. -/
def startEnv : Env := Memory.env (initMemory 0) 0

/-- The SET that makes an entry that does not expire. -/
def setOf (e : CacheEntry) : Cmd := .set e.key e.tags e.value 0xFFFFFFFF

/-- The four requests. -/
def duplicating : List Served :=
  [.alone (setOf entryA) ⟨by decide, by decide, by decide⟩ startEnv,
    .alone (setOf entryOld) ⟨by decide, by decide, by decide⟩ startEnv,
    .alone (.del keyA) (by decide : IsName keyA) startEnv,
    .alone (setOf entryNew) ⟨by decide, by decide, by decide⟩ startEnv]

/-- The store that they leave. -/
def duplicated : Store := leftBehind entryA entryOld entryNew

/-- A SET of an entry, handled at start-up. -/
theorem exec_setOf {e : CacheEntry} (he : e = ⟨e.key, e.tags, e.value, 0, CACHE_EXPIRES_INIT, 0⟩)
    (hk : IsName e.key) (hs : exactSize e.key e.tags e.value ≤ MAX_BUCKET_SIZE) (s : Store) :
    (setOf e).exec startEnv s = setEntry s e := by
  refine (exec_set ((env_initMemory_grants 0 0).requestSize hk hs)).trans (congrArg (setEntry s) ?_)
  rw [he]
  rfl

theorem step_setOf {e : CacheEntry} (he : e = ⟨e.key, e.tags, e.value, 0, CACHE_EXPIRES_INIT, 0⟩)
    (wf : (setOf e).WF) (hs : exactSize e.key e.tags e.value ≤ MAX_BUCKET_SIZE) (s : Store) :
    Served.Step s (.alone (setOf e) wf startEnv) (setEntry s e).2 :=
  exec_setOf he wf.1 hs s ▸ Served.step_exec (.alone (setOf e) wf startEnv) s

theorem duplicating_run : Run Served.Step Store.init duplicating duplicated :=
  .cons (step_setOf rfl _ (by decide) _) (.cons (step_setOf rfl _ (by decide) _)
    (.cons (Served.step_exec (.alone (.del keyA) (by decide : IsName keyA) startEnv) _)
      (.cons (step_setOf rfl _ (by decide) _) (.nil _))))

end Cik

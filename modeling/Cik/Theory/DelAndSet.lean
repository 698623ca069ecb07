import Cik.Theory.ListedKeys

/-!
# A DEL and a SET of one key

Two workers, one of which handles a DEL and one a SET of the same key. A step is a search
of the map, or a change of one key list. The DEL unmaps the entry, takes the key off its
tags, and then searches for the key again until it finds nothing. The SET maps its entry,
takes the key off the tags of the entry that was there, and puts it on those of its own;
until it returns, it has its entry locked, so that the DEL cannot unmap it.

When the SET maps its entry after the DEL has unmapped the older one and before it has
searched again, the DEL finds the new entry and removes it too, but not the key from its
tags (`not_exact_between`). Otherwise the index is exact when both have returned, for
every order of the steps (`exact_of_not_between`).
-/

namespace Cik

open Probing CacheEntryHashMap

/-- Where the worker of the DEL is. -/
inductive DelLoc where
  /-- At the first `lock_and_unset_cache_entry`. -/
  | start
  /-- At `remove_key_from_tag`, with the tags that are left, and behind it at the other
  `lock_and_unset_cache_entry`. -/
  | removing (rest : List CacheTag)
  /-- It has returned. -/
  | returned

/-- Where the worker of the SET is. -/
inductive SetLoc where
  /-- At `set_locked_cache_entry`. -/
  | start
  /-- At `remove_key_from_tag`, with the tags of the older entry that are left. -/
  | removing (rest : List CacheTag)
  /-- At `add_key_to_tag`, with the tags that are left. -/
  | adding (rest : List CacheTag)
  /-- It has returned. -/
  | returned

/-- The DEL is not between its first search and its return. -/
def DelLoc.Idle : DelLoc → Prop
  | removing _ => False
  | _ => True

/-- The SET has not mapped its entry, or it has unlocked it. -/
def SetLoc.Unlocked : SetLoc → Prop
  | start => True
  | returned => True
  | _ => False

/-- The two workers, and the store. -/
structure DelSet where
  /-- The worker of the DEL. -/
  del : DelLoc
  /-- The worker of the SET. -/
  set : SetLoc
  /-- The store. -/
  store : Store

/-- Whose step it is, and whether it is the one that maps the entry. -/
inductive DelSetEvent where
  /-- The DEL's. -/
  | del
  /-- `set_locked_cache_entry` of the SET. -/
  | map
  /-- Another one of the SET's. -/
  | set

/-- The steps, for the entry of the SET. What is mapped while the SET has its entry locked is this
entry. -/
inductive DelSetStep (entry : CacheEntry) : DelSet → DelSetEvent → DelSet → Prop where
  /-- The DEL unmaps the entry. -/
  | unmap {set : SetLoc} {s : Store} {e : CacheEntry} {map : CacheEntryHashMap}
      (hfree : set.Unlocked)
      (h : lockAndUnsetCacheEntry (s.mapOf entry.key) entry.key = some (e, map)) :
      DelSetStep entry ⟨.start, set, s⟩ .del ⟨.removing e.tags, set, s.setMapOf entry.key map⟩
  /-- There is none. -/
  | notFound {set : SetLoc} {s : Store}
      (h : lockAndUnsetCacheEntry (s.mapOf entry.key) entry.key = none) :
      DelSetStep entry ⟨.start, set, s⟩ .del ⟨.returned, set, s⟩
  /-- The DEL takes the key off a tag. -/
  | unindex {set : SetLoc} {s : Store} {tag : CacheTag} {rest : List CacheTag} :
      DelSetStep entry ⟨.removing (tag :: rest), set, s⟩ .del
        ⟨.removing rest, set, { s with tags := removeKeyFromTag s.tags tag entry.key }⟩
  /-- The DEL has unlocked and released the entry, and unmaps another one. -/
  | again {set : SetLoc} {s : Store} {e : CacheEntry} {map : CacheEntryHashMap}
      (hfree : set.Unlocked)
      (h : lockAndUnsetCacheEntry (s.mapOf entry.key) entry.key = some (e, map)) :
      DelSetStep entry ⟨.removing [], set, s⟩ .del ⟨.removing [], set, s.setMapOf entry.key map⟩
  /-- There is none. -/
  | deleted {set : SetLoc} {s : Store}
      (h : lockAndUnsetCacheEntry (s.mapOf entry.key) entry.key = none) :
      DelSetStep entry ⟨.removing [], set, s⟩ .del ⟨.returned, set, s⟩
  /-- The SET maps its entry. -/
  | map {del : DelLoc} {s : Store} {old : Option CacheEntry} {map : CacheEntryHashMap}
      (h : setLockedCacheEntry (s.mapOf entry.key) entry = some (old, map)) :
      DelSetStep entry ⟨del, .start, s⟩ .map
        ⟨del, old.elim (.adding entry.tags) fun old => .removing old.tags, s.setMapOf entry.key map⟩
  /-- There is no slot for it. -/
  | full {del : DelLoc} {s : Store} (h : setLockedCacheEntry (s.mapOf entry.key) entry = none) :
      DelSetStep entry ⟨del, .start, s⟩ .set ⟨del, .returned, s⟩
  /-- The SET takes the key off a tag of the older entry. -/
  | reindex {del : DelLoc} {s : Store} {tag : CacheTag} {rest : List CacheTag} :
      DelSetStep entry ⟨del, .removing (tag :: rest), s⟩ .set
        ⟨del, .removing rest, { s with tags := removeKeyFromTag s.tags tag entry.key }⟩
  /-- It has unlocked and released the older entry. -/
  | replaced {del : DelLoc} {s : Store} :
      DelSetStep entry ⟨del, .removing [], s⟩ .set ⟨del, .adding entry.tags, s⟩
  /-- The SET puts the key on a tag. -/
  | index {del : DelLoc} {s : Store} {tag : CacheTag} {rest : List CacheTag} :
      DelSetStep entry ⟨del, .adding (tag :: rest), s⟩ .set
        ⟨del, .adding rest, { s with tags := addKeyToTag s.tags tag entry.key }⟩
  /-- It unlocks its entry. -/
  | stored {del : DelLoc} {s : Store} :
      DelSetStep entry ⟨del, .adding [], s⟩ .set ⟨del, .returned, s⟩

/-- The index is exact for a key: it is on the lists of just the tags of its entry. -/
def Store.ExactFor (s : Store) (key : CacheKey) : Prop :=
  ∀ tag, s.tags.HasKey tag key ↔ ∃ e, s.current key = some e ∧ tag ∈ e.tags

/-- The SET does not map its entry between the DEL's removal and its last search, or the entry has
no tags. -/
def NotBetween (entry : CacheEntry) (x : DelSet) : DelSetEvent → Prop
  | .map => x.del.Idle ∨ entry.tags = []
  | _ => True

/-! ### What holds between the steps -/

/-- Where the two workers are, and what holds of the store then. -/
inductive DelSet.Phase (entry : CacheEntry) (s : Store) : DelLoc → SetLoc → Prop where
  /-- Neither has begun what it has not finished. -/
  | idle {del : DelLoc} {set : SetLoc} (hdel : del.Idle) (hset : set.Unlocked)
      (h : s.ExactFor entry.key) :
      Phase entry s del set
  /-- The SET has mapped its entry, and takes the key off the tags of the older one. -/
  | replacing {del : DelLoc} {rest : List CacheTag} (hdel : del.Idle)
      (hcur : s.current entry.key = some entry) (h : ∀ tag, s.tags.HasKey tag entry.key →
        tag ∈ rest) : Phase entry s del (.removing rest)
  /-- The SET puts the key on its tags. -/
  | adding {del : DelLoc} {done rest : List CacheTag} (hdel : del.Idle)
      (hcur : s.current entry.key = some entry) (htags : done ++ rest = entry.tags)
      (h : ∀ tag, s.tags.HasKey tag entry.key ↔ tag ∈ done) :
      Phase entry s del (.adding rest)
  /-- The DEL has unmapped the entry, and takes the key off its tags. -/
  | deleting {rest : List CacheTag} {set : SetLoc} (hset : set.Unlocked)
      (hcur : s.current entry.key = none) (h : ∀ tag, s.tags.HasKey tag entry.key → tag ∈ rest) :
      Phase entry s (.removing rest) set
  /-- The SET has mapped an entry without tags in the meantime. -/
  | untagged {rest : List CacheTag} {set : SetLoc} (htags : entry.tags = [])
      (hset : set = .adding [] ∨ set = .returned) (hcur : s.current entry.key = some entry)
      (h : ∀ tag, s.tags.HasKey tag entry.key → tag ∈ rest) :
      Phase entry s (.removing rest) set

/-- What holds of the two workers and the store. -/
structure DelSet.Kept (entry : CacheEntry) (x : DelSet) : Prop where
  /-- The key is in one slot at most. -/
  unique : (x.store.mapOf entry.key).KeysUnique
  /-- Until the SET has mapped its entry, no slot before the key's is free. -/
  place : x.set = .start → (x.store.mapOf entry.key).NoHoleBefore entry.key
  /-- Where they are. -/
  phase : Phase entry x.store x.del x.set

section Kept

variable {entry e : CacheEntry} {key : CacheKey} {map map' : CacheEntryHashMap} {x x' : DelSet}

/-- An entry that is the only one of its key is unmapped: there is room for another one, and the key
has none. -/
theorem unset_alone (halone : ∀ p q, map.HoldsAt key p → map.HoldsAt key q → p = q)
    (h : lockAndUnsetCacheEntry map key = some (e, map')) : (∃ pos, map'.OpenAt key pos) ∧
    map'.current key = none := by
  obtain ⟨pos, hp, -, rfl⟩ := lockAndUnsetCacheEntry_eq_some_iff.mp h
  refine ⟨⟨pos, Or.inl ?_⟩, current_eq_none_iff.mpr fun q hq => ?_⟩
  · rw [clear_slots, Function.update_self]
  · obtain ⟨hne, hq⟩ := holdsAt_clear.mp hq
    exact hne (halone q pos hq hp.1)

theorem unset_unique (hu : map.KeysUnique) (h : lockAndUnsetCacheEntry map key = some (e, map')) :
    map'.KeysUnique ∧ map'.current key = none := by
  refine ⟨?_, (unset_alone (hu key) h).2⟩
  obtain ⟨pos, -, -, rfl⟩ := lockAndUnsetCacheEntry_eq_some_iff.mp h
  exact hu.update_none

/-- A search that unmaps the entry of the key. -/
theorem exists_unset (hcur : map.current key = some e) :
    ∃ map', lockAndUnsetCacheEntry map key = some (e, map') := by
  cases h : lockAndUnsetCacheEntry map key with
  | none => exact (nomatch (lockAndUnsetCacheEntry_eq_none_iff.mp h).symm.trans hcur)
  | some r =>
    obtain ⟨e', map'⟩ := r
    obtain rfl := Option.some.inj ((lockAndUnsetCacheEntry_current h).symm.trans hcur)
    exact ⟨map', rfl⟩

/-- The DEL unmaps an entry: the key has none, and is in the lists of the tags that it had. -/
theorem kept_unmapped {s : Store} {set : SetLoc} {rest : List CacheTag} (hset : set.Unlocked)
    (hu : (s.mapOf entry.key).KeysUnique)
    (h : lockAndUnsetCacheEntry (s.mapOf entry.key) entry.key = some (e, map))
    (hrest : ∀ tag, s.tags.HasKey tag entry.key → tag ∈ rest) :
    DelSet.Kept entry ⟨.removing rest, set, s.setMapOf entry.key map⟩ := by
  obtain ⟨hu', hnone⟩ := unset_unique hu h
  have hcur : (s.setMapOf entry.key map).current entry.key = none := by
    rwa [Store.current_setMapOf_self]
  refine ⟨?_, fun _ => noHoleBefore_of_unbound hcur, .deleting hset hcur hrest⟩
  simpa only [Store.mapOf_setMapOf_self] using hu'

/-- The SET maps its entry in place of the current one. -/
theorem kept_mapped {s : Store} {del : DelLoc} {old : Option CacheEntry}
    (h : DelSet.Kept entry ⟨del, .start, s⟩)
    (hset : setLockedCacheEntry (s.mapOf entry.key) entry = some (old, map)) :
    ((s.setMapOf entry.key map).mapOf entry.key).KeysUnique ∧
      (s.setMapOf entry.key map).current entry.key = some entry ∧ old = s.current entry.key := by
  obtain ⟨pos, hopen, hmap, hpos, hold⟩ := setLockedCacheEntry_inPlace h.unique (h.place rfl) hset
  refine ⟨?_, ?_, hold⟩
  · rw [Store.mapOf_setMapOf_self, hmap]
    exact h.unique.update (e := Slot.ofEntry entry) rfl hopen.1 hpos
  · rw [Store.current_setMapOf_self]
    exact setLockedCacheEntry_current hset

/-! ### What a phase says of the store -/

namespace DelSet.Phase

variable {s : Store} {del : DelLoc} {set : SetLoc} {rest : List CacheTag}

theorem exact (h : Phase entry s del set) (hdel : del.Idle) (hset : set.Unlocked) :
    s.ExactFor entry.key := by
  cases h with
  | idle _ _ h => exact h
  | replacing => exact hset.elim
  | adding => exact hset.elim
  | deleting => exact hdel.elim
  | untagged => exact hdel.elim

theorem unlocked (h : Phase entry s del set) (hcur : s.current entry.key = none) :
    set.Unlocked := by
  cases h with
  | idle _ hset => exact hset
  | replacing _ hsome => exact (nomatch hcur.symm.trans hsome)
  | adding _ hsome => exact (nomatch hcur.symm.trans hsome)
  | deleting hset => exact hset
  | untagged _ _ hsome => exact (nomatch hcur.symm.trans hsome)

theorem mem_of_removing (h : Phase entry s (.removing rest) set) (tag : CacheTag)
    (ht : s.tags.HasKey tag entry.key) :
    tag ∈ rest := by
  cases h with
  | idle hdel => exact hdel.elim
  | replacing hdel => exact hdel.elim
  | adding hdel => exact hdel.elim
  | deleting _ _ h => exact h tag ht
  | untagged _ _ _ h => exact h tag ht

/-- The SET is in the middle of the older entry's tags. -/
theorem of_set_removing (h : Phase entry s del (.removing rest)) :
    del.Idle ∧ s.current entry.key = some entry ∧ ∀ tag, s.tags.HasKey tag entry.key →
    tag ∈ rest := by
  cases h with
  | idle _ hset => exact hset.elim
  | replacing hdel hcur h => exact ⟨hdel, hcur, h⟩
  | deleting hset => exact hset.elim
  | untagged _ hset => exact hset.elim (fun h => (nomatch h)) fun h => (nomatch h)

end DelSet.Phase

/-- The key is taken off a list. -/
theorem mem_of_removeKeyFromTag {tree : TagTree} {tag tag' : CacheTag} {rest : List CacheTag}
    (h : ∀ tag', tree.HasKey tag' key → tag' ∈ tag :: rest)
    (ht : (removeKeyFromTag tree tag key).HasKey tag' key) :
    tag' ∈ rest := by
  obtain ⟨hne, ht⟩ := hasKey_removeKeyFromTag.mp ht
  exact (List.mem_cons.mp (h tag' ht)).resolve_left fun he => hne ⟨he, rfl⟩

/-- Every step keeps it. -/
theorem DelSet.Kept.step {a : DelSetEvent} (h : x.Kept entry)
    (hs : Provided (NotBetween entry) (DelSetStep entry) x a x') :
    x'.Kept entry := by
  obtain ⟨hcond, hs⟩ := hs
  obtain ⟨hunique, hplace, hphase⟩ := h
  cases hs with
  | @unmap set s e map hfree hun =>
    have hcur : s.current entry.key = some e := lockAndUnsetCacheEntry_current hun
    refine kept_unmapped hfree hunique hun fun tag ht => ?_
    obtain ⟨e', he', hin⟩ := (hphase.exact trivial hfree tag).mp ht
    exact Option.some.inj (hcur.symm.trans he') ▸ hin
  | notFound hun =>
    have hset := hphase.unlocked (lockAndUnsetCacheEntry_eq_none_iff.mp hun)
    exact ⟨hunique, hplace, .idle trivial hset (hphase.exact trivial hset)⟩
  | @unindex set s tag rest =>
    have hrest :=
      fun tag' => @mem_of_removeKeyFromTag entry.key s.tags tag tag' rest hphase.mem_of_removing
    cases hphase with
    | idle hdel => exact hdel.elim
    | replacing hdel => exact hdel.elim
    | adding hdel => exact hdel.elim
    | deleting hset hcur => exact ⟨hunique, hplace, .deleting hset hcur hrest⟩
    | untagged htags hset hcur => exact ⟨hunique, hplace, .untagged htags hset hcur hrest⟩
  | again hfree hun => exact kept_unmapped hfree hunique hun hphase.mem_of_removing
  | @deleted set s hun =>
    have hcur : s.current entry.key = none := lockAndUnsetCacheEntry_eq_none_iff.mp hun
    refine ⟨hunique, hplace, .idle trivial (hphase.unlocked hcur) fun tag =>
      iff_of_false (fun ht => ?_) ?_⟩
    · exact List.not_mem_nil (hphase.mem_of_removing tag ht)
    · rintro ⟨e, he, -⟩
      exact (nomatch hcur.symm.trans he)
  | @map del s old map hset =>
    obtain ⟨hunique', hcur, hold⟩ := kept_mapped ⟨hunique, hplace, hphase⟩ hset
    cases hphase with
    | idle hdel _ hexact =>
      cases old with
      | none =>
        refine ⟨hunique', fun h => (nomatch h), .adding hdel hcur (List.nil_append _) fun tag => ?_⟩
        refine iff_of_false (fun ht => ?_) List.not_mem_nil
        obtain ⟨e, he, -⟩ := (hexact tag).mp ht
        exact (nomatch hold.trans he)
      | some old =>
        refine ⟨hunique', fun h => (nomatch h), .replacing hdel hcur fun tag ht => ?_⟩
        obtain ⟨e, he, hin⟩ := (hexact tag).mp ht
        exact Option.some.inj (hold.trans he) ▸ hin
    | deleting _ hnone h =>
      obtain rfl := hold.trans hnone
      have htags : entry.tags = [] := hcond.resolve_left fun hdel => hdel
      refine ⟨hunique', fun h => (nomatch h), .untagged htags (Or.inl ?_) hcur h⟩
      rw [Option.elim_none, htags]
    | untagged _ hset => exact hset.elim (fun h => (nomatch h)) fun h => (nomatch h)
  | full =>
    cases hphase with
    | idle hdel _ hexact => exact ⟨hunique, fun h => (nomatch h), .idle hdel trivial hexact⟩
    | deleting _ hcur h => exact ⟨hunique, fun h => (nomatch h), .deleting trivial hcur h⟩
    | untagged _ hset => exact hset.elim (fun h => (nomatch h)) fun h => (nomatch h)
  | reindex =>
    obtain ⟨hdel, hcur, h⟩ := hphase.of_set_removing
    exact ⟨hunique, fun h => (nomatch h), .replacing hdel hcur fun _ => mem_of_removeKeyFromTag h⟩
  | replaced =>
    obtain ⟨hdel, hcur, h⟩ := hphase.of_set_removing
    refine ⟨hunique, fun h => (nomatch h), .adding hdel hcur (List.nil_append _) fun tag => ?_⟩
    exact iff_of_false (fun ht => List.not_mem_nil (h tag ht)) List.not_mem_nil
  | @index del s tag rest =>
    cases hphase with
    | idle _ hset => exact hset.elim
    | deleting hset => exact hset.elim
    | untagged _ hset => exact hset.elim (fun h => (nomatch h)) fun h => (nomatch h)
    | @adding _ done _ hdel hcur htags h =>
      have htags' : (done ++ [tag]) ++ rest = entry.tags := by simpa using htags
      refine ⟨hunique, fun h => (nomatch h), .adding hdel hcur htags' fun tag' => ?_⟩
      simp only [hasKey_addKeyToTag, h tag', List.mem_append, List.mem_singleton, and_true]
      exact or_comm
  | stored =>
    cases hphase with
    | idle _ hset => exact hset.elim
    | deleting hset => exact hset.elim
    | untagged htags _ hcur h =>
      exact ⟨hunique, fun h => (nomatch h), .untagged htags (Or.inr rfl) hcur h⟩
    | @adding _ done _ hdel hcur htags h =>
      refine ⟨hunique, fun h => (nomatch h), .idle hdel trivial fun tag => ?_⟩
      rw [List.append_nil] at htags
      simp only [hcur, Option.some.injEq, exists_eq_left', h tag, htags]

/-- **A DEL and a SET of one key.** When both have returned, in whatever order their steps were
taken, the key is on the lists of just the tags of its entry. -/
theorem exact_of_not_between {s₀ : Store} {l : List DelSetEvent} (hu : s₀.KeysUnique)
    (hexact : s₀.IndexExact) (hplace : (s₀.mapOf entry.key).NoHoleBefore entry.key)
    (h : Run (Provided (NotBetween entry) (DelSetStep entry)) ⟨.start, .start, s₀⟩ l x)
    (hdel : x.del = .returned) (hset : x.set = .returned) : x.store.ExactFor entry.key := by
  have h₀ : DelSet.Kept entry ⟨.start, .start, s₀⟩ :=
    ⟨hu _, fun _ => hplace, .idle trivial trivial fun tag => hexact tag entry.key⟩
  obtain ⟨-, -, hphase⟩ := h.invariant (fun _ _ _ hk hs => DelSet.Kept.step hk hs) h₀
  rw [hdel, hset] at hphase
  exact hphase.exact trivial trivial

end Kept

/-! ### One after the other -/

theorem setMapOf_mapOf (s : Store) (key : CacheKey) : s.setMapOf key (s.mapOf key) = s := by
  rw [Store.setMapOf, Store.mapOf, Function.update_eq_self]

theorem setMapOf_setMapOf (s : Store) (key : CacheKey) (map map' : CacheEntryHashMap) :
    (s.setMapOf key map).setMapOf key map' = s.setMapOf key map' := by
  simp only [Store.setMapOf, Function.update_idem]

section Alone

variable (entry : CacheEntry) {C : DelSet → DelSetEvent → Prop} (hC : ∀ x a, a ≠ .map → C x a)

include hC

theorem run_unindex (set : SetLoc) (s : Store) (tags rest : List CacheTag) :
    Run (Provided C (DelSetStep entry)) ⟨.removing (tags ++ rest), set, s⟩ (tags.map fun _ => .del)
      ⟨.removing rest, set, { s with tags := removeKeyFromTags s.tags tags entry.key }⟩ := by
  induction tags generalizing s with
  | nil => exact .nil _
  | cons tag tags ih => exact .cons ⟨hC _ _ nofun, .unindex⟩ (ih _)

theorem run_reindex (del : DelLoc) (s : Store) (tags : List CacheTag) :
    Run (Provided C (DelSetStep entry)) ⟨del, .removing tags, s⟩ (tags.map fun _ => .set)
      ⟨del, .removing [], { s with tags := removeKeyFromTags s.tags tags entry.key }⟩ := by
  induction tags generalizing s with
  | nil => exact .nil _
  | cons tag tags ih => exact .cons ⟨hC _ _ nofun, .reindex⟩ (ih _)

theorem run_index (del : DelLoc) (s : Store) (tags : List CacheTag) :
    Run (Provided C (DelSetStep entry)) ⟨del, .adding tags, s⟩ (tags.map fun _ => .set)
      ⟨del, .adding [], { s with tags := addKeyToTags s.tags tags entry.key }⟩ := by
  induction tags generalizing s with
  | nil => exact .nil _
  | cons tag tags ih => exact .cons ⟨hC _ _ nofun, .index⟩ (ih _)

/-- With no step of the DEL between its steps, the SET does what it does when it is handled at
once. -/
theorem run_set (del : DelLoc) (s : Store) (hm : C ⟨del, .start, s⟩ .map) : ∃ l,
    Run (Provided C (DelSetStep entry)) ⟨del, .start, s⟩ l
      ⟨del, .returned, (setEntry s entry).2⟩ := by
  obtain ⟨hset, he⟩ | ⟨old, map, hset, he⟩ := setEntry_spec s entry
  · rw [he]
    exact ⟨[.set], .cons ⟨hC _ _ nofun, .full hset⟩ (.nil _)⟩
  rw [he]
  have hstored (t : Store) : Run (Provided C (DelSetStep entry)) ⟨del, .adding entry.tags, t⟩ _
      ⟨del, .returned, { t with tags := addKeyToTags t.tags entry.tags entry.key }⟩ :=
    (run_index entry hC del t entry.tags).snoc (a := .set) ⟨hC _ _ nofun, .stored⟩
  cases old with
  | none => exact ⟨_, .cons ⟨hm, .map hset⟩ (hstored _)⟩
  | some old =>
    have hreindex := (run_reindex entry hC del (s.setMapOf entry.key map) old.tags).snoc (a := .set)
      ⟨hC _ _ nofun, .replaced⟩
    rw [Option.elim_some, setLockedCacheEntry_key hset]
    exact ⟨_, .cons ⟨hm, .map hset⟩ (hreindex.append (hstored _))⟩

theorem run_again (set : SetLoc) (hset : set.Unlocked) (fuel : ℕ) (s : Store) : ∃ l,
    Run (Provided C (DelSetStep entry)) ⟨.removing [], set, s⟩ l
      ⟨.removing [], set, s.setMapOf entry.key (unsetRest fuel (s.mapOf entry.key) entry.key)⟩ := by
  induction fuel generalizing s with
  | zero =>
    rw [unsetRest, setMapOf_mapOf]
    exact ⟨[], .nil _⟩
  | succ fuel ih =>
    rw [unsetRest]
    cases hun : lockAndUnsetCacheEntry (s.mapOf entry.key) entry.key with
    | none =>
      simp only [setMapOf_mapOf]
      exact ⟨[], .nil _⟩
    | some r =>
      obtain ⟨e, map⟩ := r
      obtain ⟨l, h⟩ := ih (s.setMapOf entry.key map)
      rw [Store.mapOf_setMapOf_self, setMapOf_setMapOf] at h
      exact ⟨_, .cons (a := .del) ⟨hC _ _ (by simp), .again hset hun⟩ h⟩

/-- The DEL searches until there is no entry. -/
theorem run_deleted (set : SetLoc) (hset : set.Unlocked) (s : Store) : ∃ l,
    Run (Provided C (DelSetStep entry)) ⟨.removing [], set, s⟩ l
      ⟨.returned, set, s.setMapOf entry.key ((s.mapOf entry.key).withoutKey entry.key)⟩ := by
  obtain ⟨l, h⟩ := run_again entry hC set hset CACHE_ENTRY_MAP_SIZE s
  rw [unsetRest_eq] at h
  have hnone : ((s.mapOf entry.key).withoutKey entry.key).current entry.key = none := by
    rw [current_withoutKey, if_pos rfl]
  refine ⟨_, h.snoc (a := .del) ⟨hC _ _ nofun, .deleted ?_⟩⟩
  rw [Store.mapOf_setMapOf_self]
  exact lockAndUnsetCacheEntry_eq_none_iff.mpr hnone

/-- With no step of the SET between its steps, the DEL does what it does when it is handled at
once. -/
theorem run_del (set : SetLoc) (hset : set.Unlocked) (s : Store) : ∃ l,
    Run (Provided C (DelSetStep entry)) ⟨.start, set, s⟩ l
      ⟨.returned, set, (deleteEntryByKey s entry.key).2⟩ := by
  unfold deleteEntryByKey
  cases hun : lockAndUnsetCacheEntry (s.mapOf entry.key) entry.key with
  | none => exact ⟨[.del], .cons ⟨hC _ _ nofun, .notFound hun⟩ (.nil _)⟩
  | some r =>
    obtain ⟨e, map⟩ := r
    have hindex := run_unindex entry hC set (s.setMapOf entry.key map) e.tags []
    rw [List.append_nil] at hindex
    obtain ⟨l, h⟩ : ∃ l, Run (Provided C (DelSetStep entry)) _ l
        ⟨.returned, set, { (s.setMapOf entry.key map).setMapOf entry.key
          (((s.setMapOf entry.key map).mapOf entry.key).withoutKey entry.key) with
            tags := removeKeyFromTags s.tags e.tags entry.key }⟩ :=
      run_deleted entry hC set hset
        { s.setMapOf entry.key map with tags := removeKeyFromTags s.tags e.tags entry.key }
    rw [Store.mapOf_setMapOf_self, setMapOf_setMapOf] at h
    simp only [unsetRest_eq, current_key (lockAndUnsetCacheEntry_current hun)]
    exact ⟨_, .cons (a := .del) ⟨hC _ _ nofun, .unmap hset hun⟩ (hindex.append h)⟩

end Alone

/-! ### The SET between the DEL's searches -/

/-- After an entry was taken out there is room. -/
theorem setEntry_unset {s : Store} {entry e : CacheEntry} {map : CacheEntryHashMap}
    (h : lockAndUnsetCacheEntry (s.mapOf entry.key) entry.key = some (e, map)) :
    (setEntry (s.setMapOf entry.key map) entry).1 = .ok := by
  obtain ⟨pos, -, -, rfl⟩ := lockAndUnsetCacheEntry_eq_some_iff.mp h
  obtain ⟨hset, -⟩ | ⟨old, map', -, he⟩ :=
    setEntry_spec (s.setMapOf entry.key ((s.mapOf entry.key).clear pos)) entry
  · refine absurd (Or.inl ?_) (setLockedCacheEntry_eq_none_iff.mp hset pos)
    rw [Store.mapOf_setMapOf_self, clear_slots, Function.update_self]
  · rw [he]

/-- The SET comes when the DEL has unmapped the older entry: the key has no entry in the end, but it
is on the lists of the tags that only the new entry had. -/
theorem run_between {s : Store} {entry e : CacheEntry} {tag : CacheTag}
    (hcur : s.current entry.key = some e) (ht : tag ∈ entry.tags) (hn : tag ∉ e.tags) :
    ∃ l x, Run (DelSetStep entry) ⟨.start, .start, s⟩ l x ∧
      x.del = .returned ∧ x.set = .returned ∧ x.store.current entry.key = none ∧
      x.store.tags.HasKey tag entry.key := by
  have hC (x : DelSet) (a : DelSetEvent) (_ : a ≠ .map) : True := trivial
  obtain ⟨map, hun⟩ := exists_unset hcur
  -- the SET is handled, and then the DEL goes on
  obtain ⟨l₁, hset⟩ := run_set entry hC (.removing e.tags) (s.setMapOf entry.key map) trivial
  have hok := setEntry_unset hun
  have hkey : (setEntry (s.setMapOf entry.key map) entry).2.tags.HasKey tag entry.key := by
    obtain ⟨-, he⟩ | ⟨old, map', -, he⟩ := setEntry_spec (s.setMapOf entry.key map) entry
    · rw [he] at hok
      cases hok
    · rw [he]
      exact hasKey_addKeyToTags.mpr (Or.inl ⟨ht, rfl⟩)
  generalize (setEntry (s.setMapOf entry.key map) entry).2 = t at hset hkey
  have hindex := run_unindex entry hC .returned t e.tags []
  rw [List.append_nil] at hindex
  obtain ⟨l₂, hdel⟩ := run_deleted entry hC .returned trivial
    { t with tags := removeKeyFromTags t.tags e.tags entry.key }
  have hrun := (hset.append (hindex.append hdel)).mono fun _ _ _ h => h.2
  refine ⟨_, _, .cons (.unmap trivial hun) hrun, rfl, rfl, ?_, ?_⟩
  · rw [Store.current_setMapOf_self, current_withoutKey, if_pos rfl]
  · exact hasKey_removeKeyFromTags.mpr ⟨fun h => hn h.1, hkey⟩

/-! ### An example -/

/-- The DEL comes first, then the SET. -/
theorem exact_storeOld :
    (setEntry (deleteEntryByKey storeOld entryNew.key).2 entryNew).2.ExactFor entryNew.key := by
  have hC (x : DelSet) (a : DelSetEvent) (ha : a ≠ .map) : NotBetween entryNew x a := by
    cases a with
    | map => exact absurd rfl ha
    | _ => trivial
  obtain ⟨l₁, hdel⟩ := run_del entryNew hC .start trivial storeOld
  obtain ⟨l₂, hset⟩ :=
    run_set entryNew hC .returned (deleteEntryByKey storeOld entryNew.key).2 (Or.inl trivial)
  have hexact :=
    exact_of_not_between storeOld_sound.unique storeOld_sound.exact noHoleBefore_storeOld
    (hdel.append hset) rfl rfl
  dsimp only at hexact
  exact hexact

/-- When the SET maps its entry after the DEL has unmapped the older one and before it searches
again, the DEL removes the new entry, and the key stays on the list of its tag. -/
theorem not_exact_between :
    ¬ ∀ (entry : CacheEntry) (s₀ : Store) (l : List DelSetEvent) (x : DelSet), s₀.KeysUnique →
    s₀.IndexExact → (∃ e, s₀.current entry.key = some e) →
    (s₀.mapOf entry.key).NoHoleBefore entry.key → Run (DelSetStep entry) ⟨.start, .start, s₀⟩ l x →
    x.del = .returned → x.set = .returned → x.store.ExactFor entry.key := by
  intro h
  obtain ⟨l, x, hrun, hdel, hset, hnone, htag⟩ :=
    @run_between storeOld entryNew entryOld [0x32] current_storeOld
    (by decide) (by decide)
  have hexact :=
    h entryNew storeOld l x storeOld_sound.unique storeOld_sound.exact ⟨entryOld, current_storeOld⟩
    noHoleBefore_storeOld hrun hdel hset
  obtain ⟨e, he, -⟩ := (hexact [0x32]).mp htag
  exact (nomatch hnone.symm.trans he)

end Cik

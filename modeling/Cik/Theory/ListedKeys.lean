import Cik.Theory.Clearing

/-!
# A CLR by tag while others SET

The worker of a CLR by tag copies the key lists of the tags, one after the other, and
deletes the keys that it found. SETs of other workers come before, between and after these
steps. The entries that are deleted are those that the keys have by then, whatever the
lists said before: an entry that was set in the meantime is removed although it has not got
the tags (`not_removes_met`). When each SET takes the place of the older entry of its key,
and gives a key that is already listed tags with which it is listed in the end only if it
is to be, all entries that are removed have the tags (`removes_met_of_spares`).
-/

namespace Cik

open Probing CacheEntryHashMap

/-- The modes of a CLR by tag. -/
inductive MatchMode where
  /-- `CLEAR_MODE_MATCH_ALL`. -/
  | all
  /-- `CLEAR_MODE_MATCH_ANY`. -/
  | any

namespace MatchMode

/-- `ClearMode`. -/
def code : MatchMode → UInt8
  | all => CLEAR_MODE_MATCH_ALL
  | any => CLEAR_MODE_MATCH_ANY

/-- What becomes of the keys found so far when the list of the next tag is there. -/
def combine : MatchMode → List CacheKey → List CacheKey → List CacheKey
  | all => retainKeys
  | any => mergeKeys

/-- An entry with these tags is to be removed. -/
def Met (tags : List CacheTag) : MatchMode → List CacheTag → Prop
  | all, own => ∀ tag ∈ tags, tag ∈ own
  | any, own => ∃ tag ∈ tags, tag ∈ own

end MatchMode

/-- Where the worker is. -/
inductive ClrLoc where
  /-- It copies lists: the keys found in those it has copied, if any, and the tags that are left. -/
  | copying (found : Option (List CacheKey)) (rest : List CacheTag)
  /-- It deletes keys. -/
  | deleting (keys : List CacheKey)

namespace ClrLoc

/-- The keys that are listed. -/
def keys : ClrLoc → List CacheKey
  | copying found _ => found.getD []
  | deleting keys => keys

/-- The tags whose lists are not copied yet. -/
def rest : ClrLoc → List CacheTag
  | copying _ rest => rest
  | deleting _ => []

end ClrLoc

/-- The worker, and the store. -/
structure ClrState where
  /-- The worker. -/
  loc : ClrLoc
  /-- The store. -/
  store : Store

/-- What is done. -/
inductive ClrEvent where
  /-- A list is copied. -/
  | copy
  /-- The last list has been copied. -/
  | list
  /-- A key is deleted. -/
  | delete (key : CacheKey)
  /-- Another worker's SET. -/
  | set (q : Served)

/-- A SET, also one of the expiry time only. -/
def Cmd.IsSet : Cmd → Prop
  | set .. => True
  | setTtl .. => True
  | _ => False

/-- The steps. -/
inductive ClrStep (mode : MatchMode) : ClrState → ClrEvent → ClrState → Prop where
  /-- `get_key_list_copy_by_tag`, for the first tag. -/
  | first {s : Store} {tag : CacheTag} {rest : List CacheTag} :
      ClrStep mode ⟨.copying none (tag :: rest), s⟩ .copy
        ⟨.copying (some (getKeyListCopyByTag s.tags tag)) rest, s⟩
  /-- `get_key_list_copy_by_tag`, for another one. -/
  | next {s : Store} {found : List CacheKey} {tag : CacheTag} {rest : List CacheTag} :
      ClrStep mode ⟨.copying (some found) (tag :: rest), s⟩ .copy
        ⟨.copying (some (mode.combine found (getKeyListCopyByTag s.tags tag))) rest, s⟩
  /-- The keys are there. -/
  | list {s : Store} {found : Option (List CacheKey)} :
      ClrStep mode ⟨.copying found [], s⟩ .list ⟨.deleting (found.getD []), s⟩
  /-- `delete_entry_by_key`. -/
  | delete {s : Store} {key : CacheKey} {keys : List CacheKey} :
      ClrStep mode ⟨.deleting (key :: keys), s⟩ (.delete key)
        ⟨.deleting keys, (deleteEntryByKey s key).2⟩
  /-- A SET. -/
  | set {loc : ClrLoc} {s : Store} {q : Served} (h : q.cmd.IsSet) :
      ClrStep mode ⟨loc, s⟩ (.set q) ⟨loc, (q.handle s).ctx.store⟩

/-- A key with an entry with these tags is deleted only if it is to be: it has the tags, or it will
be found that it has not. -/
def MatchMode.Allows (tags rest : List CacheTag) : MatchMode → List CacheTag → Prop
  | all, own => all.Met tags own ∨ ∃ tag ∈ rest, tag ∉ own
  | any, own => any.Met tags own

/-- A SET takes the place of the older entry of its key and has a size that does not wrap, and if
the key is listed, it is allowed the tags. -/
def Spares (mode : MatchMode) (tags : List CacheTag) (x : ClrState) : ClrEvent → Prop
  | .set q => Served.Orderly x.store q ∧
      ∀ key own value ttl, q.cmd = .set key own value ttl → key ∈ x.loc.keys →
      mode.Allows tags x.loc.rest own
  | _ => True

section Listed

variable {mode : MatchMode} {tags : List CacheTag} {s : Store} {key : CacheKey} {e : CacheEntry}
  {x x' : ClrState}

/-! ### SETs -/

/-- What a key has after a SET has the tags that it had before, or those of the SET. -/
theorem current_of_set {c : Cmd} {env : Env} (hc : c.IsSet)
    (h : (c.exec env s).2.current key = some e) :
    (∃ old, s.current key = some old ∧ old.tags = e.tags) ∨
    ∃ value ttl, c = .set key e.tags value ttl := by
  cases c with
  | set key' own value ttl =>
    simp only [Cmd.exec] at h
    cases hr : env.reserve (requestSize key' own value) with
    | none =>
      rw [hr] at h
      exact Or.inl ⟨e, h, rfl⟩
    | some n =>
      rw [hr] at h
      obtain ⟨-, he⟩ | ⟨old, map, -, he⟩ :=
        setEntry_spec s ⟨key', own, value, env.now, expiryOf env.now ttl, 0⟩
      · simp only [he] at h
        exact Or.inl ⟨e, h, rfl⟩
      · simp only at h
        rw [current_setEntry (congrArg Prod.fst he)] at h
        split_ifs at h with hk
        · obtain rfl := Option.some.inj h
          exact Or.inr ⟨value, ttl, by rw [hk]⟩
        · exact Or.inl ⟨e, h, rfl⟩
  | setTtl key' ttl =>
    simp only [Cmd.exec] at h
    cases hg : lockAndGetCacheEntry (s.mapOf key') key' with
    | none =>
      rw [hg] at h
      exact Or.inl ⟨e, h, rfl⟩
    | some r =>
      obtain ⟨pos, old⟩ := r
      rw [hg] at h
      simp only at h
      have hkey : old.key = key' := key_of_get hg
      rw [@current_touch s key' { old with expires := expiryOf env.now ttl } pos _ hg hkey] at h
      split_ifs at h with hk
      · obtain rfl := Option.some.inj h
        exact Or.inl ⟨old, hk ▸ current_of_get hg, rfl⟩
      · exact Or.inl ⟨e, h, rfl⟩
  | _ => exact hc.elim

/-! ### What is listed -/

/-- What holds of the worker and the store. -/
structure ClrState.Kept (mode : MatchMode) (tags : List CacheTag) (x : ClrState) : Prop where
  /-- The store is sound. -/
  sound : x.store.Sound
  /-- The tags that are left are the last ones. -/
  suffix : x.loc.rest <:+ tags
  /-- At the beginning they are all. -/
  begin : ∀ rest, x.loc = .copying none rest → rest = tags
  /-- A listed key is deleted only if it is to be. -/
  allowed : ∀ key ∈ x.loc.keys, ∀ e, x.store.current key = some e →
    mode.Allows tags x.loc.rest e.tags

/-- An entry is on the lists of its tags. -/
theorem Store.Sound.mem_copy {tag : CacheTag} (h : s.Sound) (hc : s.current key = some e)
    (hm : key ∈ getKeyListCopyByTag s.tags tag) : tag ∈ e.tags := by
  obtain ⟨e', he', ht⟩ := (h.exact tag key).mp hm
  rw [hc, Option.some.injEq] at he'
  exact he' ▸ ht

theorem kept_begin (h : s.Sound) : ClrState.Kept mode tags ⟨.copying none tags, s⟩ where
  sound := h
  suffix := List.suffix_rfl
  begin := fun _ h => (ClrLoc.copying.inj h).2.symm
  allowed := fun _ hk => absurd hk List.not_mem_nil

/-- Every step keeps it. -/
theorem ClrState.Kept.step {a : ClrEvent} (h : x.Kept mode tags)
    (hs : Provided (Spares mode tags) (ClrStep mode) x a x') :
    x'.Kept mode tags := by
  obtain ⟨hspares, hs⟩ := hs
  cases hs with
  | @first s tag rest =>
    obtain rfl := h.begin _ rfl
    refine ⟨h.sound, (List.suffix_cons tag rest), fun _ h => (nomatch h), fun key hk e hc => ?_⟩
    have ht := h.sound.mem_copy hc hk
    cases mode with
    | any => exact ⟨tag, List.mem_cons_self, ht⟩
    | all =>
      by_cases hall : ∀ tag' ∈ rest, tag' ∈ e.tags
      · exact Or.inl (List.forall_mem_cons.mpr ⟨ht, hall⟩)
      · simp only [not_forall] at hall
        obtain ⟨tag', hm, hn⟩ := hall
        exact Or.inr ⟨tag', hm, hn⟩
  | @next s found tag rest =>
    have hsuf : tag :: rest <:+ tags := h.suffix
    refine ⟨h.sound, (List.suffix_cons tag rest).trans hsuf, fun _ h => (nomatch h),
      fun key hk e hc => ?_⟩
    cases mode with
    | any =>
      rcases mem_mergeKeys.mp hk with hk | hk
      · exact h.allowed key hk e hc
      · exact ⟨tag, hsuf.mem List.mem_cons_self, h.sound.mem_copy hc hk⟩
    | all =>
      obtain ⟨hf, hk⟩ := mem_retainKeys.mp hk
      refine (h.allowed key hf e hc).imp id ?_
      rintro ⟨tag', hm, hn⟩
      rcases List.mem_cons.mp hm with rfl | hm
      · exact absurd (h.sound.mem_copy hc hk) hn
      · exact ⟨tag', hm, hn⟩
  | list => exact ⟨h.sound, List.nil_suffix, fun _ h => (nomatch h), h.allowed⟩
  | @delete s key keys =>
    refine ⟨h.sound.deleteEntryByKey key, List.nil_suffix, fun _ h => (nomatch h),
      fun key' hk e hc => ?_⟩
    rw [current_deleteEntryByKey] at hc
    split_ifs at hc
    exact h.allowed key' (List.mem_cons_of_mem _ hk) e hc
  | @set loc s q hset =>
    obtain ⟨⟨hplace, -⟩, hallow⟩ := hspares
    have hstore : (q.handle s).ctx.store = (q.cmd.exec q.env s).2 := (q.answers s).store
    rw [hstore]
    refine ⟨h.sound.exec q.wf hplace, h.suffix, h.begin, fun key hk e hc => ?_⟩
    obtain ⟨old, hold, heq⟩ | ⟨value, ttl, hq⟩ := current_of_set hset hc
    · exact heq ▸ h.allowed key hk old hold
    · exact hallow key e.tags value ttl hq hk

/-! ### What is removed -/

/-- In a sound store a deletion takes out the current entry of the key. -/
theorem current_of_removed {i : Fin NUM_CACHE_ENTRY_MAPS}
    {pos : Fin CACHE_ENTRY_MAP_SIZE} (h : s.Sound) (he : s.slot i pos = some e)
    (hgone : (deleteEntryByKey s key).2.slot i pos ≠ some e) : s.current key = some e := by
  have hcur := h.mem_entries.mp (mem_entries_iff.mpr ⟨i, pos, he⟩)
  by_cases hk : e.key = key
  · exact hk ▸ hcur
  obtain ⟨-, hd⟩ | ⟨entry, -, hd⟩ := deleteEntryByKey_spec s key
  · rw [hd] at hgone
    exact absurd he hgone
  · refine absurd ?_ hgone
    rw [hd, slot_setMapOf]
    split_ifs with hi
    · subst hi
      have he' : ((s.mapOf key).slots pos).map Slot.entry = some e := he
      rw [slot_without, he', Option.filter_some, if_pos (by simpa using hk)]
    · exact he

/-- **A CLR by tag while others SET.** Whatever the order of the steps, in every state reached a
deletion takes out entries that are to be removed at that moment. -/
theorem removes_met_of_spares {s₀ : Store} {l : List ClrEvent} (h₀ : s₀.Sound)
    (h : Run (Provided (Spares mode tags) (ClrStep mode)) ⟨.copying none tags, s₀⟩ l x)
    (hs : ClrStep mode x (.delete key) x') (i : Fin NUM_CACHE_ENTRY_MAPS)
    (pos : Fin CACHE_ENTRY_MAP_SIZE) (he : x.store.slot i pos = some e)
    (hgone : x'.store.slot i pos ≠ some e) : mode.Met tags e.tags := by
  have hkept := h.invariant (fun _ _ _ hk hs => ClrState.Kept.step hk hs) (kept_begin h₀)
  cases hs with
  | @delete s _ keys =>
    have hc := current_of_removed hkept.sound he hgone
    have hallowed := hkept.allowed key List.mem_cons_self e hc
    cases mode with
    | any => exact hallowed
    | all =>
      refine hallowed.resolve_right ?_
      rintro ⟨tag, hm, -⟩
      exact List.not_mem_nil hm

/-! ### A CLR alone -/

theorem run_copies (s : Store) (found : List CacheKey) (rest : List CacheTag) :
    Run (ClrStep mode) ⟨.copying (some found) rest, s⟩ (rest.map fun _ => .copy)
      ⟨.copying
        (some
          (rest.foldl (fun found tag => mode.combine found (getKeyListCopyByTag s.tags tag)) found))
            [], s⟩ := by
  induction rest generalizing found with
  | nil => exact .nil _
  | cons tag rest ih => exact .cons .next (ih _)

theorem run_deletes (s : Store) (keys : List CacheKey) :
    Run (ClrStep mode) ⟨.deleting keys, s⟩ (keys.map .delete)
      ⟨.deleting [], deleteKeys s keys⟩ := by
  induction keys generalizing s with
  | nil => exact .nil _
  | cons key keys ih => exact .cons .delete (ih _)

/-- With no other worker between its steps, the CLR does what it does when it is handled at once. -/
theorem run_alone (mode : MatchMode) (tags : List CacheTag) (s : Store) (now : Time) :
    ∃ l, (∀ q, ClrEvent.set q ∉ l) ∧
      Run (ClrStep mode) ⟨.copying none tags, s⟩ l
        ⟨.deleting [], s.cleared now mode.code tags⟩ := by
  cases tags with
  | nil =>
    have hnil : s.cleared now mode.code [] = deleteKeys s [] := by
      cases mode with
      | all => exact cleared_matchAll ..
      | any => exact cleared_matchAny ..
    rw [hnil]
    exact ⟨[.list], fun q h => (nomatch List.mem_singleton.mp h), .cons .list (.nil _)⟩
  | cons tag rest =>
    have hall : s.cleared now mode.code (tag :: rest) = deleteKeys s
        (rest.foldl (fun found tag => mode.combine found (getKeyListCopyByTag s.tags tag))
          (getKeyListCopyByTag s.tags tag)) := by
      cases mode with
      | all => exact cleared_matchAll ..
      | any => exact cleared_matchAny ..
    rw [hall]
    refine ⟨_, ?_, .cons .first ((run_copies s _ rest).append (.cons .list (run_deletes s _)))⟩
    simp

end Listed

/-! ### An example -/

/-- The older entry of the key, alone. -/
def storeOld : Store := (setEntry Store.init entryOld).2

theorem storeOld_sound : storeOld.Sound :=
  sound_init.setEntry (noHoleBefore_of_unbound (Store.current_init keyK))

theorem copy_storeOld : getKeyListCopyByTag storeOld.tags [0x31] = [keyK] := by
  rw [storeOld, setEntry_init]
  rfl

theorem current_storeOld : storeOld.current keyK = some entryOld := by
  rw [storeOld, current_setEntry (congrArg Prod.fst (setEntry_init entryOld))]
  exact if_pos rfl

theorem noHoleBefore_storeOld : (storeOld.mapOf keyK).NoHoleBefore keyK := by
  have hmap : storeOld.mapOf keyK = initCacheEntryMap.put (homeSlot keyK) entryOld := by
    rw [storeOld, setEntry_init]
    exact mapOf_oneMap rfl
  have hhome : (storeOld.mapOf keyK).HoldsAt keyK (homeSlot keyK) := by
    rw [hmap]
    exact holdsAt_put.mpr (Or.inl rfl)
  intro pos e hget q hq
  have hpos := (lockAndGetCacheEntry_eq_some_iff.mp hget).1.unique (isFirst_start hhome)
  rw [hpos, rank_self] at hq
  exact absurd hq (Nat.not_lt_zero _)

/-- The list is copied. -/
theorem run_listed :
    Run (Provided (Spares .any [[0x31]]) (ClrStep .any))
      ⟨.copying none [[0x31]], storeOld⟩ [.copy, .list]
    ⟨.deleting [keyK], storeOld⟩ := by
  have hrun :
    Run (Provided (Spares .any [[0x31]]) (ClrStep .any))
    ⟨.copying none [[0x31]], storeOld⟩ [.copy, .list]
      ⟨.deleting (getKeyListCopyByTag storeOld.tags [0x31]), storeOld⟩ :=
    .cons ⟨trivial, .first⟩ (.cons ⟨trivial, .list⟩ (.nil _))
  rwa [copy_storeOld] at hrun

/-- Another worker sets the key again. -/
theorem current_set_storeOld {q : Served} {e : CacheEntry} (hq : q.cmd = setOf e)
    (henv : q.env = startEnv) (hk : e.key = keyK)
    (he : e = ⟨e.key, e.tags, e.value, 0, CACHE_EXPIRES_INIT, 0⟩)
    (hs : exactSize e.key e.tags e.value ≤ MAX_BUCKET_SIZE) :
    (q.handle storeOld).ctx.store.current keyK = some e := by
  have hok : (setEntry storeOld e).1 = .ok := by
    obtain ⟨pos, hfirst, -⟩ := current_eq_some_iff.mp current_storeOld
    rw [← hk] at hfirst
    exact setEntry_ok_iff.mpr ⟨pos, Or.inr hfirst.1⟩
  rw [(q.answers storeOld).store, hq, henv, exec_setOf he (hk ▸ by decide) hs, current_setEntry hok,
    if_pos hk.symm]

/-- A deletion takes the current entry of the key out of its slot. -/
theorem exists_removed {s : Store} {key : CacheKey} {e : CacheEntry} (hc : s.current key = some e) :
    ∃ i pos, s.slot i pos = some e ∧ (deleteEntryByKey s key).2.slot i pos ≠ some e := by
  obtain ⟨pos, -, he⟩ := current_eq_some_iff.mp hc
  refine ⟨getMapForKey key, pos, he, fun hkept => ?_⟩
  have hnone : (deleteEntryByKey s key).2.current key = none := by
    rw [current_deleteEntryByKey, if_pos rfl]
  obtain ⟨sl, hsl, heq⟩ := Option.map_eq_some_iff.mp hkept
  exact current_eq_none_iff.mp hnone pos
    ⟨sl, hsl, (congrArg CacheEntry.key heq).trans (Store.current_key hc)⟩

/-- A newer entry of the key that keeps the tag `1`, and has the tag `3`. -/
def entryBoth : CacheEntry := ⟨keyK, [[0x31], [0x33]], [0x6E], 0, CACHE_EXPIRES_INIT, 0⟩

/-- The key is set again between the copy of the list and the deletion, and keeps its tag: the newer
entry is removed. -/
theorem removes_met_storeOld :
    ∃ (q : Served) (x : ClrState) (i : Fin NUM_CACHE_ENTRY_MAPS) (pos : Fin CACHE_ENTRY_MAP_SIZE),
    q.cmd = setOf entryBoth ∧
    Run (Provided (Spares .any [[0x31]]) (ClrStep .any)) ⟨.copying none [[0x31]], storeOld⟩
      [.copy, .list, .set q] x ∧
    x.store.slot i pos = some entryBoth ∧
    (deleteEntryByKey x.store keyK).2.slot i pos ≠ some entryBoth ∧
    MatchMode.any.Met [[0x31]] entryBoth.tags := by
  let q : Served := .alone (setOf entryBoth) ⟨by decide, by decide, by decide⟩ startEnv
  have hc : (q.handle storeOld).ctx.store.current keyK = some entryBoth :=
    current_set_storeOld rfl rfl rfl rfl (by decide)
  have hspares : Spares .any [[0x31]] ⟨.deleting [keyK], storeOld⟩ (.set q) := by
    refine ⟨⟨noHoleBefore_storeOld,
      (by decide : exactSize keyK entryBoth.tags entryBoth.value < 2 ^ 32)⟩, ?_⟩
    rintro key own value ttl heq -
    obtain ⟨-, rfl, -⟩ := Cmd.set.inj heq
    exact ⟨[0x31], List.mem_cons_self, List.mem_cons_self⟩
  have hrun := run_listed.snoc ⟨hspares, @ClrStep.set .any _ _ q trivial⟩
  obtain ⟨i, pos, he, hgone⟩ := exists_removed hc
  exact ⟨q, _, i, pos, rfl, hrun, he, hgone,
    removes_met_of_spares storeOld_sound hrun .delete i pos he hgone⟩

/-- When another worker sets the key between the copy of the list and the deletion, with another
tag, the new entry is removed. -/
theorem not_removes_met :
    ¬ ∀ (s₀ : Store) (l : List ClrEvent) (x x' : ClrState) (key : CacheKey) (e : CacheEntry)
    (i : Fin NUM_CACHE_ENTRY_MAPS) (pos : Fin CACHE_ENTRY_MAP_SIZE), s₀.Sound →
    Run (ClrStep .any) ⟨.copying none [[0x31]], s₀⟩ l x → ClrStep .any x (.delete key) x' →
    x.store.slot i pos = some e → x'.store.slot i pos ≠ some e →
    MatchMode.any.Met [[0x31]] e.tags := by
  intro h
  let q : Served := .alone (setOf entryNew) ⟨by decide, by decide, by decide⟩ startEnv
  have hc : (q.handle storeOld).ctx.store.current keyK = some entryNew :=
    current_set_storeOld rfl rfl rfl rfl (by decide)
  obtain ⟨i, pos, he, hgone⟩ := exists_removed hc
  have hrun := (run_listed.mono fun _ _ _ h => h.2).snoc (@ClrStep.set .any _ _ q trivial)
  obtain ⟨tag, ht, hin⟩ := h storeOld _ _ _ keyK entryNew i pos storeOld_sound hrun .delete he hgone
  rw [List.mem_singleton.mp ht] at hin
  exact absurd hin (by decide)

end Cik

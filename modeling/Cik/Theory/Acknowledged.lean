import Cik.Source.Scarcity
import Cik.Theory.Clearing

/-!
# Acknowledged SETs and the tag index

When memory runs out while the tags of an entry are indexed, the SET is acknowledged all
the same, and the entry is in the map but not under the tag whose element was refused. A
CLR by that tag does not remove it (`not_setIsTagged`). The index is right exactly when
one of the elements for each tag is granted, or the tag has the key already
(`setIsTagged_iff`).
-/

namespace Cik

open Probing

namespace Scarce

variable {grant : Grant} {grants : ℕ → Grant} {tree tree' : TagTree} {tag tag' : CacheTag}
  {tags : List CacheTag} {key key' : CacheKey}

/-! ### The index -/

theorem mem_insertKey {granted : Bool} {node : TagNode} :
    key' ∈ (insertKey granted node key).keys ↔ (key' = key ∧ granted = true) ∨
    key' ∈ node.keys := by
  have hkeys : (insertKey granted node key).keys = (insertIfUnique granted node.keys key).1 := rfl
  rw [hkeys, insertIfUnique_eq]
  cases granted
  · simp
  · simp [mem_insertIfUnique]

/-- `add_key_to_tag` does not return when it has to make a node and is refused it. -/
theorem addKeyToTag_eq_none_iff :
    addKeyToTag grant tree tag key = none ↔ getTagIfExists tree tag = none ∧
    grant.node = false := by
  rw [addKeyToTag, Option.map_eq_none_iff, getOrCreateNode]
  cases getTagIfExists tree tag <;> simp

/-- Otherwise it works on the tree with a node for the tag. -/
theorem addKeyToTag_eq_some (h : addKeyToTag grant tree tag key = some tree') :
    tree' = modifyNode (Cik.getOrCreateNode tree tag) tag fun node =>
    insertKey grant.elem node key := by
  obtain ⟨created, hc, rfl⟩ := Option.map_eq_some_iff.mp h
  rw [getOrCreateNode] at hc
  cases hn : getTagIfExists tree tag with
  | none =>
    rw [hn] at hc
    cases hg : grant.node <;> simp_all
  | some node =>
    rw [hn] at hc
    rw [getOrCreateNode_of_exists hn, Option.some.inj hc]

/-- What it adds is the pair, if the element is granted. -/
theorem hasKey_addKeyToTag (h : addKeyToTag grant tree tag key = some tree') :
    tree'.HasKey tag' key' ↔ (tag' = tag ∧ key' = key ∧ grant.elem = true) ∨
    tree.HasKey tag' key' := by
  rw [addKeyToTag_eq_some h]
  simp only [TagTree.hasKey_iff, getTagIfExists_modifyNode, getTagIfExists_getOrCreateNode]
  by_cases ht : tag' = tag
  · subst ht
    cases getTagIfExists tree tag' <;> simp [mem_insertKey, TagNode.empty]
  · simp [ht]

/-- Afterwards the tag has a node, and the others have one if they had. -/
theorem getTagIfExists_addKeyToTag (h : addKeyToTag grant tree tag key = some tree') :
    getTagIfExists tree' tag' = none ↔ tag' ≠ tag ∧ getTagIfExists tree tag' = none := by
  rw [addKeyToTag_eq_some h]
  simp only [getTagIfExists_modifyNode, getTagIfExists_getOrCreateNode]
  by_cases ht : tag' = tag
  · simp [ht]
  · simp [ht]

/-- Among the tags there is one whose node is to be made and is refused. -/
def NodeRefused (grants : ℕ → Grant) (tree : TagTree) (tags : List CacheTag) : Prop :=
  ∃ t tag, tags[t]? = some tag ∧ getTagIfExists tree tag = none ∧ tag ∉ tags.take t ∧
    (grants t).node = false

/-- The element for the tag is granted, at one of the places where the tag is. -/
def ElemGranted (grants : ℕ → Grant) (tags : List CacheTag) (tag : CacheTag) : Prop :=
  ∃ t, tags[t]? = some tag ∧ (grants t).elem = true

theorem elemGranted_cons : ElemGranted grants (tag :: tags) tag' ↔
    (tag' = tag ∧ (grants 0).elem = true) ∨ ElemGranted (fun t => grants (t + 1)) tags tag' := by
  constructor
  · rintro ⟨_ | t, ht, hg⟩
    · exact Or.inl ⟨(Option.some.inj ht).symm, hg⟩
    · exact Or.inr ⟨t, ht, hg⟩
  · rintro (⟨rfl, hg⟩ | ⟨t, ht, hg⟩)
    · exact ⟨0, rfl, hg⟩
    · exact ⟨t + 1, ht, hg⟩

/-- A node that is refused is the first one or one of the others. -/
theorem nodeRefused_cons : NodeRefused grants tree (tag :: tags) ↔
    (getTagIfExists tree tag = none ∧ (grants 0).node = false) ∨
      ∃ t tag', tags[t]? = some tag' ∧ (tag' ≠ tag ∧ getTagIfExists tree tag' = none) ∧
        tag' ∉ tags.take t ∧ (grants (t + 1)).node = false := by
  constructor
  · rintro ⟨_ | t, tag', ht, hn, hfirst, hg⟩
    · rw [Option.some.inj ht]
      exact Or.inl ⟨hn, hg⟩
    · rw [List.take_succ_cons, List.mem_cons, not_or] at hfirst
      exact Or.inr ⟨t, tag', ht, ⟨hfirst.1, hn⟩, hfirst.2, hg⟩
  · rintro (⟨hn, hg⟩ | ⟨t, tag', ht, ⟨hne, hn⟩, hfirst, hg⟩)
    · exact ⟨0, tag, rfl, hn, List.not_mem_nil, hg⟩
    · refine ⟨t + 1, tag', ht, hn, ?_, hg⟩
      rw [List.take_succ_cons, List.mem_cons, not_or]
      exact ⟨hne, hfirst⟩

/-- The loop does not return exactly when a node is refused. -/
theorem addKeyToTags_eq_none_iff : addKeyToTags grants tree tags key = none ↔
    NodeRefused grants tree tags := by
  induction tags generalizing grants tree with
  | nil =>
    refine iff_of_false nofun ?_
    rintro ⟨t, tag, ht, -⟩
    cases ht
  | cons tag tags ih =>
    rw [addKeyToTags, nodeRefused_cons]
    cases h : addKeyToTag (grants 0) tree tag key with
    | none => exact iff_of_true rfl (Or.inl (addKeyToTag_eq_none_iff.mp h))
    | some tree' =>
      have hnot : ¬ (getTagIfExists tree tag = none ∧ (grants 0).node = false) := by
        intro hr
        rw [addKeyToTag_eq_none_iff.mpr hr] at h
        cases h
      rw [Option.bind_some, ih, or_iff_right hnot, NodeRefused]
      simp only [getTagIfExists_addKeyToTag h]

/-- What the loop adds is the key, to the tags for which an element is granted. -/
theorem hasKey_addKeyToTags (h : addKeyToTags grants tree tags key = some tree') :
    tree'.HasKey tag' key' ↔ (key' = key ∧ ElemGranted grants tags tag') ∨
    tree.HasKey tag' key' := by
  induction tags generalizing grants tree with
  | nil =>
    rw [Option.some.inj h]
    refine (or_iff_right ?_).symm
    rintro ⟨-, t, ht, -⟩
    cases ht
  | cons tag tags ih =>
    rw [addKeyToTags] at h
    obtain ⟨tree₁, h₁, h₂⟩ := Option.bind_eq_some_iff.mp h
    rw [ih h₂, hasKey_addKeyToTag h₁, elemGranted_cons]
    tauto

/-! ### The request -/

/-- The entry that a SET makes, when it has been read and there is memory for it. -/
def entryOf (env : Env) (ctx : Ctx) (r : Request) : Option CacheEntry :=
  match readRequestKey ctx.client r.sKlen with
  | (.ok, key, client) =>
    match readTagsUsingPayloadBuffer ⟨ctx.store, client, ctx.payload_buffer⟩ r.sNtags with
    | (.ok, slices, c) =>
      match env.reserve (entrySize (setTotalSize (slices.map Slice.nmemb) r.sKlen (ntohl r.sVlen)))
          with
      | none => none
      | some _ =>
        match readRequestPayload c.client (ntohl r.sVlen).toNat with
        | (.ok, value, _) =>
          some ⟨key, slices.map fun tag => tag.bytes c.payload_buffer.base, value, env.now,
            expiryOf env.now (ntohl r.sTtl), 0⟩
        | _ => none
    | _ => none
  | _ => none

variable {env : Env} {ctx : Ctx} {r : Request} {entry : CacheEntry} {h : Handled} {s : Store}
  {status : StatusCode}

/-- A SET that has made an entry does with it what `setEntry` does; another one is refused. -/
theorem handleSetRequest_cases (hflag : r.sFlags &&& SET_FLAG_ONLY_TTL = 0) :
    (∃ entry client buffer, entryOf env ctx r = some entry ∧
      handleSetRequest grants env ctx r =
      (setEntry grants ctx.store entry).map fun (status, store) =>
        ⟨status, .null, ⟨store, client, buffer⟩⟩) ∨
    (entryOf env ctx r = none ∧ ∃ h, handleSetRequest grants env ctx r = some h ∧
      h.status ≠ .ok) := by
  unfold entryOf handleSetRequest
  dsimp only
  obtain ⟨status, key, client⟩ := readRequestKey ctx.client r.sKlen
  cases status with
  | ok =>
    have hstore :
      (readTagsUsingPayloadBuffer ⟨ctx.store, client, ctx.payload_buffer⟩ r.sNtags).2.2.store =
      ctx.store := rfl
    revert hstore
    dsimp only
    rw [if_neg (not_not.mpr hflag)]
    obtain ⟨status, slices, c⟩ :=
      readTagsUsingPayloadBuffer ⟨ctx.store, client, ctx.payload_buffer⟩ r.sNtags
    intro hstore
    cases status with
    | ok =>
      dsimp only
      cases env.reserve (entrySize (setTotalSize (slices.map Slice.nmemb) r.sKlen (ntohl r.sVlen)))
          with
      | none => exact Or.inr ⟨rfl, _, rfl, nofun⟩
      | some n =>
        dsimp only
        obtain ⟨status, value, client⟩ := readRequestPayload c.client (ntohl r.sVlen).toNat
        cases status with
        | ok =>
          dsimp only at hstore
          rw [← hstore]
          exact Or.inl ⟨_, _, _, rfl, rfl⟩
        | _ => exact Or.inr ⟨rfl, _, rfl, nofun⟩
    | _ => exact Or.inr ⟨rfl, _, rfl, nofun⟩
  | _ => exact Or.inr ⟨rfl, _, rfl, nofun⟩

theorem handleSetRequest_of_entry (hflag : r.sFlags &&& SET_FLAG_ONLY_TTL = 0)
    (he : entryOf env ctx r = some entry) :
    ∃ client buffer,
    handleSetRequest grants env ctx r = (setEntry grants ctx.store entry).map fun (status, store) =>
      ⟨status, .null, ⟨store, client, buffer⟩⟩ := by
  obtain ⟨entry', client, buffer, he', hrun⟩ | ⟨hnone, -⟩ :=
    @handleSetRequest_cases grants env ctx r hflag
  · obtain rfl := Option.some.inj (he.symm.trans he')
    exact ⟨client, buffer, hrun⟩
  · exact (nomatch hnone.symm.trans he)

/-- A SET that is acknowledged has made an entry. -/
theorem entryOf_of_ok (hflag : r.sFlags &&& SET_FLAG_ONLY_TTL = 0)
    (hrun : handleSetRequest grants env ctx r = some h) (hok : h.status = .ok) :
    ∃ entry, entryOf env ctx r = some entry := by
  obtain ⟨entry, -, -, he, -⟩ | ⟨-, h', hrun', hno⟩ :=
    @handleSetRequest_cases grants env ctx r hflag
  · exact ⟨entry, he⟩
  · obtain rfl := Option.some.inj (hrun.symm.trans hrun')
    exact absurd hok hno

/-! ### Acknowledged entries -/

/-- The key of the entry is in the list of each of its tags, and a CLR by any tag of the entry,
among others or not, removes the key. -/
def Tagged (s : Store) (entry : CacheEntry) : Prop :=
  ∀ tag ∈ entry.tags, s.tags.HasKey tag entry.key ∧
    ∀ (clr : Served) (wanted : List CacheTag), clr.cmd = .clr CLEAR_MODE_MATCH_ANY wanted →
    tag ∈ wanted →
      (clr.handle s).ctx.store.current entry.key = none

/-- If the SET returns, and is acknowledged, the entry that it made is the one of its key, and is
found through its tags. -/
def SetIsTagged (grants : ℕ → Grant) (env : Env) (ctx : Ctx) (r : Request) : Prop :=
  ∀ h, handleSetRequest grants env ctx r = some h → h.status = .ok →
    ∃ entry, entryOf env ctx r = some entry ∧ h.ctx.store.current entry.key = some entry ∧
    Tagged h.ctx.store entry

/-- There is no slot for the entry, a node for one of its tags is refused, or for each of its tags
an element is granted or the key is there already, and not because of the entry that is replaced. -/
def Indexes (grants : ℕ → Grant) (s : Store) (entry : CacheEntry) : Prop :=
  ∀ old map, setLockedCacheEntry (s.mapOf entry.key) entry = some (old, map) →
    NodeRefused grants s.tags entry.tags ∨
      ∀ tag ∈ entry.tags, ElemGranted grants entry.tags tag ∨
        (s.tags.HasKey tag entry.key ∧ ∀ e, old = some e → tag ∉ e.tags)

/-! ### The index after a SET -/

theorem getTagIfExists_removeKeyFromTags :
    getTagIfExists (removeKeyFromTags tree tags key) tag = none ↔
    getTagIfExists tree tag = none := by
  unfold removeKeyFromTags
  induction tags generalizing tree with
  | nil => rfl
  | cons t tags ih =>
    rw [List.foldl_cons, ih, removeKeyFromTag]
    cases hn : getTagIfExists tree t with
    | none => rfl
    | some node =>
      dsimp only
      rw [getTagIfExists_modifyNode]
      split_ifs with ht
      · rw [ht, Option.map_eq_none_iff]
      · rfl

/-- The index without the entry that is replaced. -/
def withoutOld (tree : TagTree) : Option CacheEntry → TagTree
  | none => tree
  | some old => removeKeyFromTags tree old.tags old.key

theorem nodeRefused_withoutOld {old : Option CacheEntry} :
    NodeRefused grants (withoutOld tree old) tags ↔ NodeRefused grants tree tags := by
  cases old with
  | none => rfl
  | some old =>
    unfold NodeRefused withoutOld
    simp only [getTagIfExists_removeKeyFromTags]

theorem hasKey_withoutOld {old : Option CacheEntry} {map : CacheEntryHashMap}
    (h : setLockedCacheEntry (s.mapOf entry.key) entry = some (old, map)) :
    (withoutOld s.tags old).HasKey tag entry.key ↔ s.tags.HasKey tag entry.key ∧ ∀ e, old = some e →
    tag ∉ e.tags := by
  cases old with
  | none => simp [withoutOld]
  | some e =>
    rw [withoutOld, hasKey_removeKeyFromTags, setLockedCacheEntry_key h, and_comm]
    simp

/-- What `setEntry` comes to when there is a slot. -/
theorem setEntry_of_slot {old : Option CacheEntry} {map : CacheEntryHashMap}
    (h : setLockedCacheEntry (s.mapOf entry.key) entry = some (old, map)) :
    setEntry grants s entry =
      (addKeyToTags grants (withoutOld s.tags old) entry.tags entry.key).map fun tags =>
        (.ok, { s.setMapOf entry.key map with tags := tags }) := by
  unfold setEntry
  rw [h]
  cases old <;> rfl

/-- With the key in the list of a tag, a CLR by the tag removes the key. -/
theorem current_clr {clr : Served} {wanted : List CacheTag}
    (hclr : clr.cmd = .clr CLEAR_MODE_MATCH_ANY wanted) (hw : tag ∈ wanted)
    (h : s.tags.HasKey tag key) : (clr.handle s).ctx.store.current key = none := by
  have hmem : key ∈ getKeysMatchingAnyTag s.tags wanted :=
    mem_getKeysMatchingAnyTag.mpr ⟨tag, hw, h⟩
  rw [clr_store hclr, cleared_matchAny, current_deleteKeys, if_pos hmem]

/-- An acknowledged entry is the one of its key, and is in the lists that had the key or got it. -/
theorem setEntry_ok {old : Option CacheEntry} {map : CacheEntryHashMap} {s' : Store}
    (h : setLockedCacheEntry (s.mapOf entry.key) entry = some (old, map))
    (hset : setEntry grants s entry = some (status, s')) :
    s'.current entry.key = some entry ∧ ∀ tag, s'.tags.HasKey tag entry.key ↔
      ElemGranted grants entry.tags tag ∨
      (s.tags.HasKey tag entry.key ∧ ∀ e, old = some e → tag ∉ e.tags) := by
  rw [setEntry_of_slot h] at hset
  obtain ⟨tree, hadd, heq⟩ := Option.map_eq_some_iff.mp hset
  obtain ⟨-, rfl⟩ := Prod.mk.inj heq
  refine ⟨?_, fun tag => ?_⟩
  · exact (Store.current_setMapOf_self s entry.key map).trans (setLockedCacheEntry_current h)
  · have htags : tree.HasKey tag entry.key ↔ _ := hasKey_addKeyToTags hadd
    rw [hasKey_withoutOld h, and_iff_right rfl] at htags
    exact htags

/-- The property of a SET is one of the entry that it makes. -/
theorem setIsTagged_iff (grants : ℕ → Grant) (env : Env) (ctx : Ctx) (r : Request)
    (hflag : r.sFlags &&& SET_FLAG_ONLY_TTL = 0) :
    SetIsTagged grants env ctx r ↔ ∀ entry, entryOf env ctx r = some entry →
    Indexes grants ctx.store entry := by
  constructor
  · intro htagged entry he old map hslot
    obtain ⟨client, buffer, hrun⟩ := @handleSetRequest_of_entry grants _ _ _ _ hflag he
    by_cases hnode : NodeRefused grants ctx.store.tags entry.tags
    · exact Or.inl hnode
    refine Or.inr fun tag ht => ?_
    obtain ⟨tree, htree⟩ := Option.ne_none_iff_exists'.mp fun hn =>
      hnode (nodeRefused_withoutOld.mp (addKeyToTags_eq_none_iff.mp hn))
    have hset : setEntry grants ctx.store entry = _ := setEntry_of_slot hslot
    rw [htree, Option.map_some] at hset
    rw [hset, Option.map_some] at hrun
    obtain ⟨entry', he', -, hx⟩ := htagged _ hrun rfl
    obtain rfl : entry = entry' := Option.some.inj (he.symm.trans he')
    exact ((setEntry_ok hslot hset).2 tag).mp (hx tag ht).1
  · intro hindex h hrun hok
    obtain ⟨entry, he⟩ := entryOf_of_ok hflag hrun hok
    obtain ⟨client, buffer, heq⟩ := @handleSetRequest_of_entry grants _ _ _ _ hflag he
    rw [heq] at hrun
    obtain ⟨⟨status, s'⟩, hset, rfl⟩ := Option.map_eq_some_iff.mp hrun
    cases hslot : setLockedCacheEntry (ctx.store.mapOf entry.key) entry with
    | none =>
      rw [setEntry, hslot] at hset
      obtain ⟨rfl, -⟩ := Prod.mk.inj (Option.some.inj hset)
      cases hok
    | some found =>
      obtain ⟨old, map⟩ := found
      obtain ⟨hcur, htags⟩ := setEntry_ok hslot hset
      have hnode : ¬ NodeRefused grants ctx.store.tags entry.tags := by
        intro hnode
        rw [setEntry_of_slot hslot, addKeyToTags_eq_none_iff.mpr (nodeRefused_withoutOld.mpr hnode)]
          at hset
        cases hset
      refine ⟨entry, he, hcur, fun tag ht => ?_⟩
      have hkey := (htags tag).mpr ((hindex entry he old map hslot).resolve_left hnode tag ht)
      exact ⟨hkey, fun clr wanted hclr hw => current_clr hclr hw hkey⟩

/-- Of a well-formed SET that is granted memory it is the entry that is asked for. -/
theorem entryOf_set {value : CacheValue} {ttl : UInt32} {rest : List UInt8}
    (hc : (Cmd.set key tags value ttl).WF) (hf : (Cmd.set key tags value ttl).Fields r)
    (hin : ctx.client.input = (Cmd.set key tags value ttl).body ++ rest)
    (hcap : ctx.payload_buffer.cap = MAX_BUCKET_SIZE)
    (hres : (env.reserve (requestSize key tags value)).isSome) :
    entryOf env ctx r = some ⟨key, tags, value, env.now, expiryOf env.now ttl, 0⟩ := by
  obtain ⟨hk, ht, hv⟩ := hc
  obtain ⟨hkl, hnt, hvl, httl, -⟩ := hf
  simp only [Cmd.body, List.append_assoc] at hin
  obtain ⟨r₁, h₁⟩ := readRequestKey_spec hk hin hkl
  have hin₁ := Client.advance_input hin (n := key.length) (by simp) r₁
  have hcap₁ :
    (Ctx.mk ctx.store (ctx.client.advance key.length r₁) ctx.payload_buffer).payload_buffer.cap =
      MAX_BUCKET_SIZE := hcap
  obtain ⟨r₂, slices, base, h₂, hm, hb, -⟩ := readTagsUsingPayloadBuffer_spec ht hin₁ hcap₁ hnt
  have hin₂ := Client.advance_input hin₁ rfl r₂
  obtain ⟨r₃, h₃⟩ := readRequestPayload_append hin₂ (n := (ntohl r.sVlen).toNat) hvl
  have hsize : entrySize (setTotalSize (slices.map Slice.nmemb) r.sKlen (ntohl r.sVlen)) =
      requestSize key tags value := by
    rw [hm, requestSize, ← hkl, ← hvl, UInt8.ofNat_toNat, UInt32.ofNat_toNat]
  obtain ⟨n, hn⟩ := Option.isSome_iff_exists.mp hres
  unfold entryOf
  simp only [h₁, h₂, hsize, hn, h₃, hb, httl]

/-! ### One tag -/

/-- A SET of `a` to `X`, with the tag `t`. -/
def setTagged : Cmd := .set [0x61] [[0x74]] [0x58] 0

theorem setTagged_wf : setTagged.WF := ⟨by decide, by decide, by decide⟩

/-- It is alone in its stream, and the store is empty. -/
def ctxTagged : Ctx :=
  ⟨Store.init, openFile setTagged.body, reserveBiggestPossiblePayload fun _ => 0⟩

theorem flag_setTagged : setTagged.request.sFlags &&& SET_FLAG_ONLY_TTL = 0 :=
  (Cmd.header_request setTagged_wf).fields.2.2.2.2

theorem entryOf_setTagged : entryOf (Memory.env (initMemory 0) 0) ctxTagged setTagged.request =
    some ⟨[0x61], [[0x74]], [0x58], 0, expiryOf 0 0, 0⟩ := by
  have hsize : (requestSize [0x61] [[0x74]] [0x58]).toNat ≤ MAX_BUCKET_SIZE := by
    rw [requestSize_toNat (by decide) (by decide)]
    decide
  have hin : ctxTagged.client.input = setTagged.body ++ [] := (List.append_nil _).symm
  exact entryOf_set setTagged_wf (Cmd.header_request setTagged_wf).fields hin rfl
    (env_initMemory_grants 0 0 _ hsize)

/-- When nothing is refused the SET is found through its tag. -/
theorem setIsTagged_plenty :
    SetIsTagged plenty (Memory.env (initMemory 0) 0) ctxTagged setTagged.request :=
  (setIsTagged_iff plenty _ _ _ flag_setTagged).mpr fun entry he old map hslot => by
    obtain rfl := Option.some.inj (entryOf_setTagged.symm.trans he)
    refine Or.inr fun tag ht => Or.inl ⟨0, ?_, rfl⟩
    rw [List.mem_singleton.mp ht]
    rfl

/-- The node is granted, the element is not. -/
def noElem : ℕ → Grant := fun _ => ⟨true, false⟩

/-- The SET is acknowledged without its tag. -/
theorem not_setIsTagged : ¬ ∀ (grants : ℕ → Grant) (env : Env) (ctx : Ctx) (r : Request),
    r.sFlags &&& SET_FLAG_ONLY_TTL = 0 → SetIsTagged grants env ctx r := by
  intro h
  have htagged := h noElem (Memory.env (initMemory 0) 0) ctxTagged setTagged.request flag_setTagged
  obtain ⟨client, buffer, hrun⟩ :=
    @handleSetRequest_of_entry noElem _ _ _ _ flag_setTagged entryOf_setTagged
  -- the map is empty, and the entry gets a slot
  have hfirst := isFirst_start (openAt_init [0x61] (homeSlot [0x61]))
  have hslot :
    setLockedCacheEntry (Store.init.mapOf [0x61]) ⟨[0x61], [[0x74]], [0x58], 0, expiryOf 0 0, 0⟩ =
      some (none,
        initCacheEntryMap.put (homeSlot [0x61]) ⟨[0x61], [[0x74]], [0x58], 0, expiryOf 0 0, 0⟩) :=
    setLockedCacheEntry_eq_some_iff.mpr ⟨_, hfirst, rfl, rfl⟩
  -- its tag gets a node, but no element
  obtain ⟨tree, htree⟩ : ∃ tree, addKeyToTags noElem initTagTree [[0x74]] [0x61] = some tree := by
    refine Option.ne_none_iff_exists'.mp fun hn => ?_
    obtain ⟨t, tag, -, -, -, hg⟩ := addKeyToTags_eq_none_iff.mp hn
    cases hg
  have hset : setEntry noElem Store.init _ = _ := setEntry_of_slot hslot
  have hinit : withoutOld Store.init.tags none = initTagTree := rfl
  rw [hinit, htree, Option.map_some] at hset
  have hstore : ctxTagged.store = Store.init := rfl
  rw [hstore, hset, Option.map_some] at hrun
  obtain ⟨entry, he, -, hx⟩ := htagged _ hrun rfl
  obtain rfl := Option.some.inj (entryOf_setTagged.symm.trans he)
  rcases ((setEntry_ok hslot hset).2 [0x74]).mp (hx [0x74] (List.mem_singleton_self _)).1
    with ⟨t, -, hg⟩ | ⟨hkey, -⟩
  · cases hg
  · exact not_hasKey_initTagTree hkey

end Scarce

end Cik

import Cik.Theory.Duplicates

/-!
# The tag index

The tag index is exact as long as no SET leaves an older entry of its key behind
(`Served.Orderly`); then a LST by tag lists just the keys whose current entries have the
tags, a LST of the tags just the tags of current entries, and a CLR by tag misses
none (`index_exact_of_orderly`). A SET that leaves an older entry behind leaves the
older entry's tags in the index too (`not_index_exact`).
-/

namespace Cik

variable {s : Store} {key : CacheKey} {tag : CacheTag} {tags : List CacheTag}

/-! ### Names in the index -/

theorem listNames_allTags (s : Store) (tags : List CacheTag) :
    s.listNames LIST_MODE_ALL_TAGS tags = s.tags.usedTags := by
  rw [Store.listNames, if_neg (by decide), if_pos rfl]

theorem listNames_matchAll (s : Store) (tags : List CacheTag) :
    s.listNames LIST_MODE_MATCH_ALL tags = getKeysMatchingAllTags s.tags tags := by
  rw [Store.listNames, if_neg (by decide), if_neg (by decide), if_neg (by decide), if_pos rfl]

theorem listNames_matchAny (s : Store) (tags : List CacheTag) :
    s.listNames LIST_MODE_MATCH_ANY tags = getKeysMatchingAnyTag s.tags tags := by
  rw [Store.listNames, if_neg (by decide), if_neg (by decide), if_neg (by decide),
    if_neg (by decide)]

/-- The tags that are listed are those of current entries. -/
theorem mem_listNames_allTags (h : s.IndexExact) :
    tag ∈ s.listNames LIST_MODE_ALL_TAGS tags ↔ ∃ key e, s.current key = some e ∧ tag ∈ e.tags := by
  rw [listNames_allTags, TagTree.usedTags, mem_walked_tags_iff]
  exact exists_congr fun key => h tag key

/-- The keys that are listed are those whose current entry has one of the tags. -/
theorem mem_listNames_matchAny (h : s.IndexExact) :
    key ∈ s.listNames LIST_MODE_MATCH_ANY tags ↔ ∃ e, s.current key = some e ∧
      ∃ tag ∈ tags, tag ∈ e.tags := by
  rw [listNames_matchAny, mem_getKeysMatchingAnyTag]
  simp only [h _ key]
  constructor
  · rintro ⟨tag, ht, e, hc, he⟩
    exact ⟨e, hc, tag, ht, he⟩
  · rintro ⟨e, hc, tag, ht, he⟩
    exact ⟨tag, ht, e, hc, he⟩

/-- The keys that are listed are those whose current entry has all of the tags, and there is one. -/
theorem mem_listNames_matchAll (h : s.IndexExact) :
    key ∈ s.listNames LIST_MODE_MATCH_ALL tags ↔
      tags ≠ [] ∧ ∃ e, s.current key = some e ∧ ∀ tag ∈ tags, tag ∈ e.tags := by
  rw [listNames_matchAll, mem_getKeysMatchingAllTags]
  refine and_congr_right fun hne => ?_
  simp only [h _ key]
  constructor
  · intro hall
    obtain ⟨tag, ht⟩ := List.exists_mem_of_ne_nil _ hne
    obtain ⟨e, hc, -⟩ := hall tag ht
    refine ⟨e, hc, fun tag' ht' => ?_⟩
    obtain ⟨e', hc', he'⟩ := hall tag' ht'
    rw [hc, Option.some.injEq] at hc'
    exact hc' ▸ he'
  · rintro ⟨e, hc, hall⟩ tag ht
    exact ⟨e, hc, hall tag ht⟩

/-- All names in the index can be sent. -/
theorem listNames_isName (h : s.IndexExact) (hwf : s.All fun _ e => e.WF) {mode : UInt8}
    (hm : mode = LIST_MODE_ALL_TAGS ∨ mode = LIST_MODE_MATCH_ALL ∨ mode = LIST_MODE_MATCH_ANY) :
    ∀ name ∈ s.listNames mode tags, IsName name := by
  intro name hn
  obtain rfl | rfl | rfl := hm
  · obtain ⟨key, e, hc, ht⟩ := (mem_listNames_allTags h).mp hn
    exact (hwf.current hc).tags.2 name ht
  · obtain ⟨-, e, hc, -⟩ := (mem_listNames_matchAll h).mp hn
    exact Store.current_key hc ▸ (hwf.current hc).key
  · obtain ⟨e, hc, -⟩ := (mem_listNames_matchAny h).mp hn
    exact Store.current_key hc ▸ (hwf.current hc).key

/-- What a LST by the index sends. -/
theorem lst_payload (h : s.IndexExact) (hwf : s.All fun _ e => e.WF) {q : Served} {mode : UInt8}
    (hq : q.cmd = .lst mode tags)
    (hm : mode = LIST_MODE_ALL_TAGS ∨ mode = LIST_MODE_MATCH_ALL ∨ mode = LIST_MODE_MATCH_ANY)
    (hok : (q.handle s).status = .ok) (stale : StaleReads) :
    (q.handle s).payloadBytes stale = (s.listNames mode tags).flatMap wireName := by
  obtain ⟨cmd, wf, env, r, hr, client, rest, hin, buffer, hcap⟩ := q
  obtain rfl : cmd = .lst mode tags := hq
  have heq : handleRequest env ⟨s, client, buffer⟩ r = handleLstRequest ⟨s, client, buffer⟩ r :=
    handleRequest_eq hr
  simp only [Served.handle, heq] at hok ⊢
  have hne : mode ≠ LIST_MODE_MATCH_NONE := by
    obtain rfl | rfl | rfl := hm <;> decide
  have hcap' : (Ctx.mk s client buffer).payload_buffer.cap = MAX_BUCKET_SIZE := hcap
  exact handleLstRequest_reply wf hr.fields hin hcap' hne (listNames_isName h hwf hm) hok stale

/-! ### CLR by tag -/

/-- A list of keys is deleted. -/
theorem current_deleteKeys (s : Store) (keys : List CacheKey) (key : CacheKey) :
    (deleteKeys s keys).current key = if key ∈ keys then none else s.current key := by
  unfold deleteKeys
  induction keys generalizing s with
  | nil => simp
  | cons k keys ih =>
    rw [List.foldl_cons, ih, current_deleteEntryByKey]
    by_cases h₁ : key ∈ keys <;> by_cases h₂ : key = k <;> simp [h₁, h₂]

/-- In every state that orderly requests lead to the index is exact: a LST by tag lists the keys
whose current entries have the tags, a LST of the tags those that current entries have, and a CLR by
tag takes every entry that has one. -/
theorem index_exact_of_orderly {l : List Served}
    (h : Run (Provided Served.Orderly Served.Step) Store.init l s) :
    s.IndexExact ∧
      (∀ (q : Served) (tags : List CacheTag) (stale : StaleReads), (q.handle s).status = .ok →
        (q.cmd = .lst LIST_MODE_MATCH_ANY tags → ∃ keys : List CacheKey,
          (q.handle s).payloadBytes stale = keys.flatMap wireName ∧ ∀ key, key ∈ keys ↔
          ∃ e, s.current key = some e ∧ ∃ tag ∈ tags, tag ∈ e.tags) ∧
        (q.cmd = .lst LIST_MODE_MATCH_ALL tags → ∃ keys : List CacheKey,
          (q.handle s).payloadBytes stale = keys.flatMap wireName ∧ ∀ key, key ∈ keys ↔ tags ≠ [] ∧
          ∃ e, s.current key = some e ∧ ∀ tag ∈ tags, tag ∈ e.tags) ∧
        (q.cmd = .lst LIST_MODE_ALL_TAGS tags → ∃ names : List CacheTag,
          (q.handle s).payloadBytes stale = names.flatMap wireName ∧ ∀ tag, tag ∈ names ↔
          ∃ key e, s.current key = some e ∧ tag ∈ e.tags)) ∧
      ∀ (q : Served) (tags : List CacheTag), q.cmd = .clr CLEAR_MODE_MATCH_ANY tags → ∀ key e tag,
        s.current key = some e → tag ∈ e.tags → tag ∈ tags →
        (q.handle s).ctx.store.current key = none := by
  obtain ⟨hsound, hwf⟩ := sound_of_orderly h sound_init_wf
  have hx := hsound.exact
  refine ⟨hx, fun q tags stale hok => ⟨fun hq => ?_, fun hq => ?_, fun hq => ?_⟩,
    fun q tags hq key e tag hc he ht => ?_⟩
  · exact ⟨_, lst_payload hx hwf hq (by simp) hok stale, fun _ => mem_listNames_matchAny hx⟩
  · exact ⟨_, lst_payload hx hwf hq (by simp) hok stale, fun _ => mem_listNames_matchAll hx⟩
  · exact ⟨_, lst_payload hx hwf hq (by simp) hok stale, fun _ => mem_listNames_allTags hx⟩
  · have hmem : key ∈ getKeysMatchingAnyTag s.tags tags :=
      mem_getKeysMatchingAnyTag.mpr ⟨tag, ht, (hx tag key).mpr ⟨e, hc, he⟩⟩
    rw [(q.answers s).store, hq]
    simp only [Cmd.exec, cleared_matchAny]
    rw [current_deleteKeys, if_pos hmem]

/-- A SET into the empty store leaves the index exact. -/
theorem index_exact_of_orderly_set : ∃ s : Store,
    Served.Step Store.init (.alone (setOf entryOld) ⟨by decide, by decide, by decide⟩ startEnv) s ∧
    s.IndexExact := by
  have hplace : (setOf entryOld).InPlace Store.init :=
    noHoleBefore_of_unbound (Store.current_init keyK)
  have hsized : (setOf entryOld).Sized := (by decide : exactSize keyK [[0x31]] [0x6F] < 2 ^ 32)
  exact ⟨_, rfl, (index_exact_of_orderly (.cons ⟨⟨hplace, hsized⟩, rfl⟩ (.nil _))).1⟩

/-- A request that changes what is stored. -/
def Cmd.IsUpdate : Cmd → Prop
  | set .. => True
  | setTtl .. => True
  | del _ => True
  | clr .. => True
  | _ => False

theorem duplicating_granted : ∀ q ∈ duplicating, q.cmd.IsUpdate ∧ q.cmd.Sized ∧ q.env.Grants := by
  have hg : startEnv.Grants := env_initMemory_grants 0 0
  intro q hq
  simp only [duplicating, List.mem_cons, List.not_mem_nil, or_false] at hq
  obtain rfl | rfl | rfl | rfl := hq
  · exact ⟨trivial, (by decide : exactSize keyA [] [0x61] < 2 ^ 32), hg⟩
  · exact ⟨trivial, (by decide : exactSize keyK [[0x31]] [0x6F] < 2 ^ 32), hg⟩
  · exact ⟨trivial, trivial, hg⟩
  · exact ⟨trivial, (by decide : exactSize keyK [[0x32]] [0x6E] < 2 ^ 32), hg⟩

/-- A SET into a slot that has become free leaves the key on the tags of its older entry. -/
theorem not_index_exact : ¬ ∀ (l : List Served) (s : Store), Run Served.Step Store.init l s →
    (∀ q ∈ l, q.cmd.IsUpdate ∧ q.cmd.Sized ∧ q.env.Grants) → s.IndexExact := by
  intro h
  have hx := h _ _ duplicating_run duplicating_granted [0x31] keyK
  have hkey : duplicated.tags.HasKey [0x31] keyK :=
    (@hasKey_leftBehind entryA entryOld entryNew collide_keys rfl _ _).mpr
      ⟨rfl, Or.inl (by decide)⟩
  obtain ⟨e, hc, ht⟩ := hx.mp hkey
  have hcur : duplicated.current keyK = some entryNew :=
    @current_leftBehind entryA entryOld entryNew collide_keys rfl
  rw [hcur, Option.some.injEq] at hc
  subst hc
  exact absurd ht (by decide)

end Cik

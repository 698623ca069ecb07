import Cik.Theory.TagIndex

/-!
# What a CLR removes

A CLR by walk tests every entry it meets, a CLR by tag asks the index for keys and
deletes these. In a sound store both come to the same: the keys are unbound whose
current entries the mode names, and the others keep theirs (`current_cleared`). So it
is in every state that orderly requests lead to (`clrExact_of_orderly`). When an older
entry of a key was left behind, the index still has its tags, and a CLR by one of them
deletes the key's current entry, which has not got the tag (`not_clrExact`).
-/

namespace Cik

/-- The entries that a CLR is to remove. -/
def CacheEntry.ClearedBy (e : CacheEntry) (now : Time) (mode : UInt8) (tags : List CacheTag) :
    Prop :=
  mode = CLEAR_MODE_ALL ∨ (mode = CLEAR_MODE_OLD ∧ e.Expired now) ∨
    (mode = CLEAR_MODE_MATCH_NONE ∧ ∀ tag ∈ tags, tag ∉ e.tags) ∨
    (mode = CLEAR_MODE_MATCH_ALL ∧ tags ≠ [] ∧ ∀ tag ∈ tags, tag ∈ e.tags) ∨
    (mode = CLEAR_MODE_MATCH_ANY ∧ ∃ tag ∈ tags, tag ∈ e.tags)

instance (e : CacheEntry) (now : Time) (mode : UInt8) (tags : List CacheTag) :
    Decidable (e.ClearedBy now mode tags) :=
  inferInstanceAs (Decidable (_ ∨ _))

/-- After any CLR, a GET that ignores expiry times does not find a key that was not bound or whose
entry the CLR is to remove, and finds all others with their values. -/
def Store.ClrExact (s : Store) : Prop :=
  ∀ (clr get : Served) (mode : UInt8) (tags : List CacheTag) (key : CacheKey) (stale : StaleReads),
    clr.cmd = .clr mode tags → get.cmd = .get key true →
      let reply := get.handle (clr.handle s).ctx.store
      (s.current key = none → reply.status = .notFound) ∧
        ∀ e, s.current key = some e →
          (e.ClearedBy clr.env.now mode tags → reply.status = .notFound) ∧
            (¬ e.ClearedBy clr.env.now mode tags → reply.status = .ok ∧
              reply.payloadBytes stale = e.value)

section Clearing

variable {s : Store} {key : CacheKey} {e : CacheEntry}

theorem CacheEntry.hasNone_iff {tags : List CacheTag} : e.hasNone tags = true ↔
    ∀ tag ∈ tags, tag ∉ e.tags := by
  simp [CacheEntry.hasNone]

/-- In a sound store a CLR unbinds the keys whose entries it is to remove, and no others. -/
theorem current_cleared (h : s.Sound) (now : Time) {mode : UInt8} (hm : mode ≤ CLEAR_MODE_MATCH_ANY)
    (tags : List CacheTag) (key : CacheKey) : (s.cleared now mode tags).current key =
      (s.current key).filter fun e => !decide (e.ClearedBy now mode tags) := by
  -- a walk takes out the entries that pass its test
  have hwalk (p : CacheEntry → Bool) (tags' : TagTree) (hp : ∀ e, p e = true ↔
    e.ClearedBy now mode tags) :
      (s.without p tags').current key = (s.current key).filter fun e =>
      !decide (e.ClearedBy now mode tags) := by
    rw [h.current_without]
    congr 1
    refine funext fun e => congrArg _ ?_
    rw [Bool.eq_iff_iff, hp, decide_eq_true_iff]
  -- the index names the keys whose current entries have the tags
  have hkeys (keys : List CacheKey)
      (hk : key ∈ keys ↔ ∃ e, s.current key = some e ∧ e.ClearedBy now mode tags) :
      (deleteKeys s keys).current key = (s.current key).filter fun e =>
      !decide (e.ClearedBy now mode tags) := by
    rw [current_deleteKeys]
    cases hc : s.current key with
    | none => simp
    | some e =>
      rw [hc] at hk
      simp only [Option.some.injEq, exists_eq_left'] at hk
      by_cases hcl : e.ClearedBy now mode tags <;> simp [hk, hcl, Option.filter_some]
  obtain rfl | rfl | rfl | rfl | rfl := mode_cases hm
  · rw [cleared_all]
    exact hwalk _ _ fun e => by simp [CacheEntry.ClearedBy]
  · rw [cleared_old]
    refine hwalk _ _ fun e => ?_
    rw [decide_eq_true_iff, CacheEntry.ClearedBy]
    simp [CLEAR_MODE_ALL, CLEAR_MODE_OLD, CLEAR_MODE_MATCH_NONE, CLEAR_MODE_MATCH_ALL,
      CLEAR_MODE_MATCH_ANY]
  · rw [cleared_matchNone]
    refine hwalk _ _ fun e => ?_
    rw [CacheEntry.hasNone_iff, CacheEntry.ClearedBy]
    simp [CLEAR_MODE_ALL, CLEAR_MODE_OLD, CLEAR_MODE_MATCH_NONE, CLEAR_MODE_MATCH_ALL,
      CLEAR_MODE_MATCH_ANY]
  · rw [cleared_matchAll]
    refine hkeys _ ?_
    rw [← listNames_matchAll, mem_listNames_matchAll h.exact]
    simp [CacheEntry.ClearedBy, CLEAR_MODE_ALL, CLEAR_MODE_OLD, CLEAR_MODE_MATCH_NONE,
      CLEAR_MODE_MATCH_ALL, CLEAR_MODE_MATCH_ANY, and_left_comm]
  · rw [cleared_matchAny]
    refine hkeys _ ?_
    rw [← listNames_matchAny, mem_listNames_matchAny h.exact]
    simp [CacheEntry.ClearedBy, CLEAR_MODE_ALL, CLEAR_MODE_OLD, CLEAR_MODE_MATCH_NONE,
      CLEAR_MODE_MATCH_ALL, CLEAR_MODE_MATCH_ANY]

/-- A GET that ignores expiry times does not find an unbound key. -/
theorem get_of_none {get : Served} (hg : get.cmd = .get key true) (hc : s.current key = none) :
    (get.handle s).status = .notFound := by
  rw [(get.answers s).status, hg]
  simp only [Cmd.exec, lockAndGetCacheEntry_eq_none_iff.mpr hc]

/-- A GET that ignores expiry times finds a bound key. -/
theorem get_of_some {get : Served} (hg : get.cmd = .get key true) (hc : s.current key = some e)
    (hv : e.value.length ≤ MAX_BUCKET_SIZE) (stale : StaleReads) :
    (get.handle s).status = .ok ∧ (get.handle s).payloadBytes stale = e.value := by
  obtain ⟨cmd, wf, env, r, hr, client, rest, hin, buffer, hcap⟩ := get
  obtain rfl : cmd = .get key true := hg
  have heq : handleRequest env ⟨s, client, buffer⟩ r = handleGetRequest env ⟨s, client, buffer⟩ r :=
    handleRequest_eq hr
  have hcap' : (Ctx.mk s client buffer).payload_buffer.cap = MAX_BUCKET_SIZE := hcap
  obtain ⟨ha, hp⟩ : (handleGetRequest env ⟨s, client, buffer⟩ r).Answers _ _ ∧ _ :=
    handleGetRequest_answers wf hr.fields hin hcap'
  have hnot : ¬ e.value.length > MAX_BUCKET_SIZE := not_lt.mpr hv
  simp only [Served.handle, heq]
  refine ⟨?_, ?_⟩
  · obtain ⟨⟨pos, old⟩, hget, rfl⟩ := Option.map_eq_some_iff.mp hc
    rw [ha.status]
    simp only [Cmd.exec, hget]
    rw [if_neg (by simp), if_neg hnot]
  · rw [hp]
    simp only [getReply, hc]
    rw [if_neg (by simp), if_neg hnot]

theorem clr_store {clr : Served} {mode : UInt8} {tags : List CacheTag}
    (h : clr.cmd = .clr mode tags) (s : Store) :
    (clr.handle s).ctx.store = s.cleared clr.env.now mode tags := by
  rw [(clr.answers s).store, h]
  rfl

/-- A CLR removes exactly what its mode names, in every state that orderly requests lead to. -/
theorem clrExact_of_orderly {l : List Served}
    (h : Run (Provided Served.Orderly Served.Step) Store.init l s) :
    s.ClrExact := by
  obtain ⟨hsound, hwf⟩ := sound_of_orderly h sound_init_wf
  intro clr get mode tags key stale hclr hget
  have hm : mode ≤ CLEAR_MODE_MATCH_ANY := by
    have hw := clr.wf
    rw [hclr] at hw
    exact hw.1
  have hcur : (clr.handle s).ctx.store.current key =
      (s.current key).filter fun e => !decide (e.ClearedBy clr.env.now mode tags) := by
    rw [clr_store hclr]
    exact current_cleared hsound clr.env.now hm tags key
  refine ⟨fun hc => get_of_none hget ?_,
    fun e hc => ⟨fun hcl => get_of_none hget ?_, fun hcl => ?_⟩⟩
  · rw [hcur, hc, Option.filter_none]
  · rw [hcur, hc, Option.filter_some, if_neg (by simpa using hcl)]
  · refine get_of_some hget ?_ (hwf.current hc).value_le stale
    rw [hcur, hc, Option.filter_some, if_pos (by simpa using hcl)]

end Clearing

/-- After a SET into the empty store. -/
theorem clrExact_of_orderly_set : ∃ s : Store,
    Served.Step Store.init (.alone (setOf entryOld) ⟨by decide, by decide, by decide⟩ startEnv) s ∧
    s.ClrExact := by
  have hplace : (setOf entryOld).InPlace Store.init :=
    noHoleBefore_of_unbound (Store.current_init keyK)
  have hsized : (setOf entryOld).Sized := (by decide : exactSize keyK [[0x31]] [0x6F] < 2 ^ 32)
  exact ⟨_, rfl, clrExact_of_orderly (.cons ⟨⟨hplace, hsized⟩, rfl⟩ (.nil _))⟩

/-- When a SET has left an older entry behind, a CLR by a tag that only this one has deletes the
key. -/
theorem not_clrExact : ¬ ∀ (l : List Served) (s : Store), Run Served.Step Store.init l s →
    (∀ q ∈ l, q.cmd.Sized ∧ q.env.Grants) → s.ClrExact := by
  intro h
  have hx := h _ _ duplicating_run fun q hq => (duplicating_granted q hq).2
  let clr : Served := .alone (.clr CLEAR_MODE_MATCH_ANY [[0x31]]) ⟨by decide, by decide⟩ startEnv
  let get : Served := .alone (.get keyK true) (by decide : IsName keyK) startEnv
  have hcur : duplicated.current keyK = some entryNew :=
    @current_leftBehind entryA entryOld entryNew collide_keys rfl
  have hkept :=
    (((hx clr get CLEAR_MODE_MATCH_ANY [[0x31]] keyK ⟨0, []⟩ rfl rfl).2 entryNew hcur).2
    (by decide)).1
  -- the index still has the older entry's tag
  have hmem : keyK ∈ getKeysMatchingAnyTag duplicated.tags [[0x31]] :=
    mem_getKeysMatchingAnyTag.mpr ⟨[0x31], List.mem_singleton_self _,
      (@hasKey_leftBehind entryA entryOld entryNew collide_keys rfl _ _).mpr
        ⟨rfl, Or.inl (by decide)⟩⟩
  have hgone : (clr.handle duplicated).ctx.store.current keyK = none := by
    rw [clr_store rfl, cleared_matchAny, current_deleteKeys, if_pos hmem]
  rw [get_of_none rfl hgone] at hkept
  cases hkept

end Cik

import Cik.Interleaving.Searching
import Cik.Theory.DelAndSet
import Cik.Theory.Sizes

/-!
# The handlers, one worker at a time

The functions of `controller.c`, run by a worker while the others do nothing, answer what
the functions of the same names in `Cik.Source.Controller` answer, do to what the process
represents what those do to the store, and read from the client what those read.
-/

namespace Cik

namespace Guarded

variable {τ : Type*} {env : Env} {t : τ} {s s' : Process τ} {client : Client}
  {hand : Multiset ℕ} {st : Store} {locked : Set ℕ} {key : CacheKey} {e : ℕ} {buffer : Payload}
    {request : Request}

/-- The worker has answered, and left the process and the client, as a handler does. -/
structure Reply.Agrees (reply : Reply) (x : Process τ × Client) (handled : Handled) : Prop where
  /-- The status. -/
  status : reply.status = handled.status
  /-- `*response_payload`. -/
  response_payload : reply.response_payload = handled.response_payload
  /-- The worker's payload buffer. -/
  payload_buffer : reply.payload_buffer = handled.ctx.payload_buffer
  /-- The client. -/
  client : x.2 = handled.ctx.client
  /-- The process represents the store. -/
  rep : Rep 0 x.1 handled.ctx.store
  /-- No guard is set. -/
  free : Free ∅ x.1

/-- The worker handles a request as the handler does. -/
abbrev Handles (env : Env) (t : τ) (s : Process τ) (client : Client) (p : Program Reply)
    (handled : Handled) : Prop :=
  Ends env t (fun reply x => reply.Agrees x handled) (s, client) p

/-! ### Keys and tags of a request -/

theorem ends_readRequestKey {klen : UInt8} (hk : klen ≠ 0)
    {Q : StatusCode × CacheKey → Process τ × Client → Prop}
    (hQ : ∀ status key client', Cik.readRequestKey client klen = (status, key, client') →
      key.length ≤ 255 → Q (status, key) (s, client')) :
    Ends env t Q (s, client) (readRequestKey klen) := by
  refine .bind (ends_read ?_)
  rcases hr : readRequestPayload client klen.toNat with ⟨status, bs, client'⟩
  unfold Cik.readRequestKey at hQ
  rw [hr] at hQ
  have hlen := UInt8.toNat_lt klen
  cases status with
  | ok =>
    dsimp only
    rw [if_neg hk]
    refine .pure (hQ _ _ _ rfl ?_)
    rw [ByteMemory.length_read]
    omega
  | _ => exact .pure (hQ _ _ _ rfl (Nat.zero_le _))

/-- The loop over the tags only adds to them. -/
theorem mem_readTagsLoop {ntags : ℕ} {base : ByteMemory} {a cap : ℕ}
    {tags : List Slice} {tag : Slice} (h : tag ∈ tags) :
    tag ∈ (Cik.readTagsLoop ntags client base a cap tags).tags := by
  induction ntags generalizing client base a cap tags with
  | zero => exact h
  | succ ntags ih =>
    unfold Cik.readTagsLoop
    rcases readRequestPayload client 1 with ⟨status, bs, client₁⟩
    cases status with
    | ok =>
      dsimp only
      split_ifs
      · exact h
      · rcases readRequestPayload client₁ (bs.headD 0).toNat with ⟨status, bs', client₂⟩
        cases status with
        | ok => exact ih (List.mem_append_left _ h)
        | _ => exact h
    | _ => exact h

/-- The loop over the tags does what it does when none of them is empty, and no tag is longer than
a length byte says. -/
theorem ends_readTagsLoop {ntags : ℕ} {base : ByteMemory} {a cap : ℕ} {tags : List Slice}
    (htags : ∀ tag ∈ tags, tag.nmemb ≤ 255)
    (hne : (Cik.readTagsLoop ntags client base a cap tags).hasEmpty = false)
    {Q : StatusCode × List Slice × ByteMemory × ℕ → Process τ × Client → Prop}
    (hQ : ∀ r, Cik.readTagsLoop ntags client base a cap tags = r →
      (∀ tag ∈ r.tags, tag.nmemb ≤ 255) → Q (r.status, r.tags, r.base, r.buffer_cap)
      (s, r.client)) :
    Ends env t Q (s, client) (readTagsLoop ntags base a cap tags) := by
  induction ntags generalizing client base a cap tags with
  | zero => exact .pure (hQ _ rfl htags)
  | succ ntags ih =>
    unfold Cik.readTagsLoop at hQ hne
    refine .bind (ends_read ?_)
    rcases hr : readRequestPayload client 1 with ⟨status, bs, client₁⟩
    rw [hr] at hQ hne
    cases status with
    | ok =>
      dsimp only at hQ hne ⊢
      by_cases hcap : (bs.headD 0).toNat > cap
      · rw [if_pos hcap] at hQ ⊢
        exact .pure (hQ _ rfl htags)
      · rw [if_neg hcap] at hQ hne ⊢
        refine .bind (ends_read ?_)
        rcases hr' : readRequestPayload client₁ (bs.headD 0).toNat with ⟨status, bs', client₂⟩
        rw [hr'] at hQ hne
        cases status with
        | ok =>
          have hlen := UInt8.toNat_lt (bs.headD 0)
          dsimp only at hQ hne ⊢
          -- the tag stays among those that are read
          have hzero : bs.headD 0 ≠ 0 := fun hzero => by
            refine List.any_eq_false.mp hne _
              (mem_readTagsLoop (List.mem_append_right tags (List.mem_singleton_self _))) ?_
            rw [hzero]
            rfl
          rw [if_neg hzero]
          refine ih (fun tag htag => ?_) hne hQ
          rcases List.mem_append.mp htag with htag | htag
          · exact htags tag htag
          · rw [List.mem_singleton.mp htag]
            exact Nat.le_of_lt_succ hlen
        | _ => exact .pure (hQ _ rfl htags)
    | _ => exact .pure (hQ _ rfl htags)

theorem ends_readTagsUsingPayloadBuffer {ntags : UInt8}
    (hne : (Cik.readTagsLoop ntags.toNat client buffer.base 0 buffer.cap []).hasEmpty = false)
    {Q : StatusCode × List Slice × Payload → Process τ × Client → Prop}
    (hQ : ∀ status slices client' buffer',
      (∀ st, Cik.readTagsUsingPayloadBuffer ⟨st, client, buffer⟩ ntags =
        (status, slices, ⟨st, client', buffer'⟩)) → (∀ tag ∈ slices, tag.nmemb ≤ 255) →
      Q (status, slices, buffer') (s, client')) :
    Ends env t Q (s, client) (readTagsUsingPayloadBuffer buffer ntags) := by
  refine .bind
    (ends_readTagsLoop (by simp) hne fun r hr hlen => .pure (hQ _ _ _ _ (fun st => ?_) hlen))
  rw [Cik.readTagsUsingPayloadBuffer]
  dsimp only
  rw [hr]

/-! ### An entry in its map -/

/-- The entry with the key is written by the worker that has locked it. -/
theorem Rep.touchLocked (h : Rep hand s st) {pos : Fin CACHE_ENTRY_MAP_SIZE} {m : MapSlot}
    {v : CacheEntry} (hm : s.slots (getMapForKey key, pos) = some m)
    (hv : v.key = (s.entries m.entry).key) :
    Rep hand { s.setHolder (.entry m.entry) (some t) with
      entries := Function.update (s.setHolder (.entry m.entry) (some t)).entries m.entry v }
      (st.setMapOf key ((st.mapOf key).put pos v)) := by
  have hrep : Rep hand (s.setHolder (.entry m.entry) (some t)) st := Rep.setHolder_iff.mpr h
  exact hrep.touch (p := (getMapForKey key, pos)) (by rw [Process.setHolder_slots, hm])
    (by rwa [Process.setHolder_entries])

/-- The guard of an entry is released after the entry was written. -/
theorem Free.leaveEntry (hF : Free ∅ s) (e : ℕ) (entries : ℕ → CacheEntry) :
    Free ∅ (({ s.setHolder (.entry e) (some t) with entries := entries } : Process τ).setHolder
      (.entry e) none) := by
  have hlock : Free (insert e ∅) (s.setHolder (.entry e) (some t)) := hF.lock _
  exact Free.unlock (s := { s.setHolder (.entry e) (some t) with entries := entries }) hlock

/-! ### GET -/

/-- The hit is counted, and the value is copied to the buffer. -/
theorem handles_hit (h : Rep 0 s st) (hF : Free ∅ s) {pos : Fin CACHE_ENTRY_MAP_SIZE} {m : MapSlot}
    (hm : s.slots (getMapForKey key, pos) = some m) {entry : CacheEntry}
    (he : s.entries m.entry = entry) :
    Handles env t (s.setHolder (.entry m.entry) (some t)) client (do
      writeEntry m.entry { entry with nhits := entry.nhits + 1 }
      unlock (.entry m.entry)
      if entry.value.length > buffer.cap then return ⟨.bug, .null, buffer⟩
      else if entry.value.length > 0 then
        return ⟨.ok, .payloadBuffer,
          ⟨buffer.base.write 0 entry.value, entry.value.length, buffer.cap⟩⟩
      else return ⟨.ok, .null, buffer⟩)
      (let ctx :
        Ctx :=
  ⟨st.setMapOf key ((st.mapOf key).put pos { entry with nhits := entry.nhits + 1 }), client, buffer⟩
      if entry.value.length > buffer.cap then ⟨.bug, .null, ctx⟩
      else if entry.value.length > 0 then
        ⟨.ok, .payloadBuffer, { ctx with
          payload_buffer := ⟨buffer.base.write 0 entry.value, entry.value.length, buffer.cap⟩ }⟩
      else ⟨.ok, .null, ctx⟩) := by
  have hrep := h.touchLocked (t := t) (v := { entry with nhits := entry.nhits + 1 }) hm (by rw [he])
  refine .bind (ends_writeEntry (.bind (ends_unlock ?_)))
  split_ifs <;> exact .pure ⟨rfl, rfl, rfl, rfl, Rep.setHolder_iff.mpr hrep, hF.leaveEntry _ _⟩

theorem handles_get (h : Rep 0 s st) (hF : Free ∅ s) (hk : request.gKlen ≠ 0) :
    Handles env t s client (handleGetRequest buffer request)
      (Cik.handleGetRequest env ⟨st, client, buffer⟩ request) := by
  unfold Cik.handleGetRequest
  refine .bind (ends_readRequestKey hk fun status key client' hr hlen => ?_)
  dsimp only
  rw [hr]
  cases status with
  | ok =>
    refine .bind
      (ends_lockAndGetCacheEntry h hF (by simp) (fun hnone => ?_) fun pos m hsome hm => ?_)
    · dsimp only
      rw [hnone]
      exact .pure ⟨rfl, rfl, rfl, rfl, h, hF⟩
    · dsimp only
      rw [hsome]
      refine .bind (ends_readEntry ?_)
      rw [Process.setHolder_entries]
      by_cases htest : ~~~request.gFlags &&& GET_FLAG_IGNORE_EXPIRES ≠ 0 ∧
        (s.entries m.entry).expires ≠ CACHE_EXPIRES_INIT
      · rw [if_pos htest]
        refine .bind (ends_time (.bind (.pure ?_)))
        by_cases hexp : (s.entries m.entry).expires < env.now
        · rw [if_pos (decide_eq_true hexp)]
          refine .bind (ends_unlock (.pure ?_))
          dsimp only
          rw [if_pos ⟨htest.1, htest.2, hexp⟩]
          exact ⟨rfl, rfl, rfl, rfl, Rep.setHolder_iff.mpr (Rep.setHolder_iff.mpr h),
            hF.leaveEntry _ s.entries⟩
        · rw [if_neg (by simpa using hexp)]
          dsimp only
          rw [if_neg fun hall => hexp hall.2.2]
          exact handles_hit h hF hm rfl
      · rw [if_neg htest]
        refine .bind (.pure ?_)
        rw [if_neg (by simp)]
        dsimp only
        rw [if_neg fun hall => htest ⟨hall.1, hall.2.1⟩]
        exact handles_hit h hF hm rfl
  | _ => exact .pure ⟨rfl, rfl, rfl, rfl, h, hF⟩

/-! ### SET -/

theorem ends_renewTtl {ttl : UInt32} (h : Rep 0 s st) (hF : Free ∅ s)
    {Q : StatusCode → Process τ × Client → Prop}
    (hnone : Cik.lockAndGetCacheEntry (st.mapOf key) key = none → Q .notFound (s, client))
    (hsome : ∀ pos entry s', Cik.lockAndGetCacheEntry (st.mapOf key) key = some (pos, entry) →
      Rep 0 s'
      (st.setMapOf key ((st.mapOf key).put pos { entry with expires := expiryOf env.now ttl })) →
      Free ∅ s' → Q .ok (s', client)) : Ends env t Q (s, client) (renewTtl key ttl) := by
  refine .bind
    (ends_lockAndGetCacheEntry h hF (by simp) (fun hn => .pure (hnone hn)) fun pos m hs hm => ?_)
  have hrep :=
    h.touchLocked (t := t) (v := { s.entries m.entry with expires := expiryOf env.now ttl }) hm rfl
  have hdone := hsome _ _ _ hs (Rep.setHolder_iff.mpr hrep) (hF.leaveEntry _ _)
  refine .bind (ends_readEntry ?_)
  rw [Process.setHolder_entries] at hdone ⊢
  unfold expiryOf at hdone
  split_ifs at hdone ⊢
  · exact .bind (ends_writeEntry (.bind (ends_unlock (.pure hdone))))
  · exact .bind (ends_time (.bind (ends_writeEntry (.bind (ends_unlock (.pure hdone))))))

/-- An entry of the worker is released. -/
theorem ends_releaseEntry {α : Type} {rest : Program α} {Q : α → Process τ × Client → Prop}
    (h : Rep (e ::ₘ hand) s st) (hF : Free (insert e locked) s)
    (hQ : ∀ s', Rep hand s' st → Free locked s' → s'.entries = s.entries →
      Ends env t Q (s', client) rest) :
    Ends env t Q (s, client) (do unlock (.entry e); release e; rest) := by
  have hrep : Rep (e ::ₘ hand) (s.setHolder (.entry e) none) st := Rep.setHolder_iff.mpr h
  refine .bind (ends_unlock (.bind (ends_releaseOwn hrep hF.unlock.list fun s' h' hb' _ => ?_)))
  exact hQ s' h' (hb'.free hF.unlock) (by rw [hb'.entries, Process.setHolder_entries])

/-- The entry in its map, and the keys and tags of it in the index. -/
theorem ends_setEntry (h : Rep {e} s st) (hF : Free (insert e ∅) s)
    (hkey : (s.entries e).key.length ≤ 255) (htags : ∀ tag ∈ (s.entries e).tags, tag.length ≤ 255)
    {Q : StatusCode → Process τ × Client → Prop}
    (hQ : ∀ s', Rep 0 s' (Cik.setEntry st (s.entries e)).2 → Free ∅ s' →
      Q (Cik.setEntry st (s.entries e)).1 (s', client)) :
    Ends env t Q (s, client) (setEntry e) := by
  -- what is done once the entry is in its map
  have hadd (st' : Store) (s' : Process τ) (h' : Rep 0 s' st') (hF' : Free (insert e ∅) s')
    (he : s'.entries e = s.entries e)
      (hst : Cik.setEntry st (s.entries e) =
        (.ok, ⟨st'.maps, Cik.addKeyToTags st'.tags (s.entries e).tags (s.entries e).key⟩)) :
      Ends env t Q (s', client) (do
        let entry ← readEntry e
        addKeyToTags entry.key entry.tags
        unlock (.entry e)
        return .ok) := by
    rw [hst] at hQ
    refine .bind (ends_readEntry (.bind ?_))
    rw [he]
    refine ends_addKeyToTags h' hF'.unlocked hkey htags fun s'' h'' hb'' =>
      .bind (ends_unlock (.pure ?_))
    exact hQ _ (Rep.setHolder_iff.mpr h'') (hb''.free hF').unlock
  have hL : ∀ e' ∈ (insert e ∅ : Set ℕ), e' ∈ e ::ₘ 0 := by simp
  refine .bind (ends_setLockedCacheEntry h hF hL (fun hnone => ?_) (fun map s' hset h' hF' he => ?_)
    fun old map s' hset h' hF' he => ?_)
  · have hst : Cik.setEntry st (s.entries e) = (.outOfMemory, st) := by rw [Cik.setEntry, hnone]
    rw [hst] at hQ
    exact ends_releaseEntry h hF fun s' h' hF' _ => .pure (hQ s' h' hF')
  · refine hadd _ s' h' hF' (by rw [he]) ?_
    rw [Cik.setEntry, hset]
  · refine .bind (ends_readEntry (.bind ?_))
    rw [he]
    refine ends_removeKeyFromTags h' hF'.unlocked fun s₁ h₁ hb₁ => ?_
    refine ends_releaseEntry h₁ (hb₁.free hF') fun s₂ h₂ hF₂ he₂ => ?_
    refine hadd _ s₂ h₂ hF₂ (by rw [he₂, hb₁.entries, he]) ?_
    rw [Cik.setEntry, hset]

/-- There is memory for an entry unless it is bigger than the biggest bucket. -/
theorem ends_reserveAndLockEntry {size : UInt64} (hg : env.Grants) (h : Rep hand s st)
    (hF : Free locked s) {Q : Option ℕ → Process τ × Client → Prop}
    (hnone : env.reserve (entrySize size) = none → Q none (s, client))
    (hsome : ∀ n e now s', env.reserve (entrySize size) = some n → Rep (e ::ₘ hand) s' st →
      Free (insert e locked) s' → s'.entries e = cacheEntryInit now → Q (some e) (s', client)) :
    Ends env t Q (s, client) (reserveAndLockEntry size) := by
  by_cases hsize : (entrySize size).toNat ≤ MAX_BUCKET_SIZE
  · obtain ⟨n, hn⟩ := Option.isSome_iff_exists.mp (hg _ hsize)
    refine .bind (ends_reserveMemory h.finite hF.list hsize fun e partition he hroot => ?_)
    refine .bind (ends_initEntry fun now => .bind (ends_lock (Function.update_self ..) (.pure ?_)))
    have hrep :=
      (h.reserve he hroot partition).write (Multiset.mem_cons_self e hand) (cacheEntryInit now)
    refine hsome n e now _ hn (Rep.setHolder_iff.mpr hrep) ?_ ?_
    · have hfree : Free (insert e locked) (Process.setHolder { s with
        live := Function.update s.live e true
        partition := partition
        entries := Function.update s.entries e (cacheEntryInit now) } (.entry e) (some t)) :=
          Free.lock hF (some t)
      rw [← Process.setHolder_setHolder (w := none)] at hfree
      exact hfree
    · rw [Process.setHolder_entries]
      exact Function.update_self ..
  · have hfind : partitionSizes.find? ((entrySize size).toNat ≤ ·) = none := by
      rw [List.find?_eq_none]
      intro p hp
      have hle : p ≤ MAX_BUCKET_SIZE := le_of_mem_sizesFrom hp
      simp only [decide_eq_true_eq]
      omega
    have hres : env.reserve (entrySize size) = none := by
      rw [Option.eq_none_iff_forall_ne_some]
      intro n hn
      have := env.fits _ _ hn
      omega
    refine .bind ?_
    rw [reserveMemory, hfind]
    exact .pure (.pure (hnone hres))

/-- A SET whose entry has less than `2 ^ 32` bytes writes nothing past its block. -/
theorem not_overruns_of_lt {tagLengths : List ℕ} {klen : UInt8} {vlen : UInt32} {e bytes : ℕ}
    (hlt : (layoutEntry tagLengths klen vlen).stop < 2 ^ 32)
    (hle : bytes ≤ (layoutEntry tagLengths klen vlen).stop) :
    (Op.fill e (entrySize (setTotalSize tagLengths klen vlen)) bytes).overruns = false := by
  have hsize := entrySize_setTotalSize tagLengths klen vlen
  rw [← layoutEntry_stop, Nat.mod_eq_of_lt hlt] at hsize
  cases hfind :
      partitionSizes.find? ((entrySize (setTotalSize tagLengths klen vlen)).toNat ≤ ·) with
  | none => rw [Op.overruns, hfind, Option.any_none]
  | some p =>
    have hp : (entrySize (setTotalSize tagLengths klen vlen)).toNat ≤ p := by
      simpa using List.find?_some hfind
    rw [Op.overruns, hfind, Option.any_some, decide_eq_false_iff_not]
    omega

theorem ends_storeEntry {size : UInt64} {stop : ℕ} {vlen ttl : UInt32} {tags : List CacheTag}
    (hg : env.Grants)
    (hfit : ∀ e bytes, bytes ≤ stop → (Op.fill e (entrySize size) bytes).overruns = false)
    (h : Rep 0 s st) (hF : Free ∅ s) (hkey : key.length ≤ 255)
    (htags : ∀ tag ∈ tags, tag.length ≤ 255) {Q : StatusCode → Process τ × Client → Prop}
    (hnone : env.reserve (entrySize size) = none → Q .outOfMemory (s, client))
    (hset : ∀ n value client' s', env.reserve (entrySize size) = some n →
      readRequestPayload client vlen.toNat = (.ok, value, client') →
      Rep 0 s' (Cik.setEntry st ⟨key, tags, value, env.now, expiryOf env.now ttl, 0⟩).2 →
      Free ∅ s' → Q (Cik.setEntry st ⟨key, tags, value, env.now, expiryOf env.now ttl, 0⟩).1
      (s', client'))
    (hfail : ∀ n status bs client' s', env.reserve (entrySize size) = some n →
      readRequestPayload client vlen.toNat = (status, bs, client') → status ≠ .ok →
      Rep 0 s' st → Free ∅ s' → Q status (s', client')) :
    Ends env t Q (s, client) (storeEntry key tags size stop vlen ttl) := by
  refine .bind
    (ends_reserveAndLockEntry hg h hF (fun hn => .pure (hnone hn))
      fun n e now s₁ hn h₁ hF₁ he₁ => ?_)
  have he : e ∈ e ::ₘ (0 : Multiset ℕ) := Multiset.mem_cons_self e 0
  refine .bind (ends_readEntry (.bind (ends_writeEntry (.bind (ends_read ?_)))))
  rw [he₁]
  have h₂ := h₁.write he { cacheEntryInit now with key := key, tags := tags }
  rcases hr : readRequestPayload client vlen.toNat with ⟨status, value, client'⟩
  cases status with
  | ok =>
    refine .bind
      (ends_fill (hfit e _ (Nat.le_refl _)) (.bind (ends_time (.bind (ends_writeEntry ?_)))))
    have h₃ := h₂.write he ⟨key, tags, value, env.now, expiryOf env.now ttl, 0⟩
    refine ends_setEntry h₃ hF₁ (by simpa using hkey) (by simpa using htags) fun s' h' hF' => ?_
    simp only [Function.update_self] at h' ⊢
    exact hset n value client' s' hn hr h' hF'
  | _ =>
    refine .bind (ends_fill (hfit e _ (Nat.sub_le _ _)) ?_)
    exact ends_releaseEntry h₂ hF₁ fun s' h' hF' _ => .pure (hfail _ _ _ _ _ hn hr (by simp) h' hF')

theorem handles_set (hg : env.Grants) (h : Rep 0 s st) (hF : Free ∅ s) (hk : request.sKlen ≠ 0)
    (hne : (setTagsRead client buffer request).any TagsRead.hasEmpty = false)
    (hlt : ((setTagsRead client buffer request).any fun r =>
      2 ^ 32 ≤ (layoutEntry (r.tags.map Slice.nmemb) request.sKlen (ntohl request.sVlen)).stop) =
      false) :
    Handles env t s client (handleSetRequest buffer request)
      (Cik.handleSetRequest env ⟨st, client, buffer⟩ request) := by
  unfold Cik.handleSetRequest
  unfold setTagsRead at hne hlt
  refine .bind (ends_readRequestKey hk fun status key client₁ hr hlen => ?_)
  dsimp only
  rw [hr] at hne hlt ⊢
  cases status with
  | ok =>
    dsimp only at hne hlt ⊢
    split_ifs at hne hlt ⊢
    · refine .bind
        (ends_renewTtl h hF (fun hnone => .pure ?_) fun pos entry s' hsome h' hF' => .pure ?_)
      · rw [hnone]
        exact ⟨rfl, rfl, rfl, rfl, h, hF⟩
      · rw [hsome]
        exact ⟨rfl, rfl, rfl, rfl, h', hF'⟩
    · rw [Option.any_some] at hne hlt
      refine .bind
        (ends_readTagsUsingPayloadBuffer hne fun status slices client₂ buffer' ht hslices => ?_)
      have hread :
          (Cik.readTagsLoop request.sNtags.toNat client₁ buffer.base 0 buffer.cap []).tags =
          slices :=
        congrArg (fun r => r.2.1) (ht st)
      rw [hread, decide_eq_false_iff_not, not_le] at hlt
      rw [ht]
      cases status with
      | ok =>
        have htags : ∀ tag ∈ slices.map fun tag => tag.bytes buffer'.base, tag.length ≤ 255 := by
          intro tag htag
          obtain ⟨slice, hslice, rfl⟩ := List.mem_map.mp htag
          rw [Slice.bytes, ByteMemory.length_read]
          exact hslices slice hslice
        dsimp only
        refine .bind
          (ends_storeEntry hg (fun e bytes => not_overruns_of_lt hlt) h hF hlen htags
          (fun hn => .pure ?_) (fun n value client' s' hn hv h' hF' => .pure ?_)
          fun n status bs client' s' hn hv hne h' hF' => .pure ?_)
        · rw [hn]
          exact ⟨rfl, rfl, rfl, rfl, h, hF⟩
        · rw [hn, hv]
          exact ⟨rfl, rfl, rfl, rfl, h', hF'⟩
        · rw [hn, hv]
          cases status with
          | ok => exact absurd rfl hne
          | _ => exact ⟨rfl, rfl, rfl, rfl, h', hF'⟩
      | _ => exact .pure ⟨rfl, rfl, rfl, rfl, h, hF⟩
  | _ => exact .pure ⟨rfl, rfl, rfl, rfl, h, hF⟩

/-! ### DEL -/

/-- How many slots of a map have an entry. -/
def occupied (map : CacheEntryHashMap) : ℕ :=
  (Finset.univ.filter fun pos => (map.slots pos).isSome = true).card

/-- An entry that is taken out of a map leaves its slot empty. -/
theorem occupied_lt {map map' : CacheEntryHashMap} {entry : CacheEntry}
    (h : Cik.lockAndUnsetCacheEntry map key = some (entry, map')) :
    occupied map' < occupied map := by
  obtain ⟨pos, -, hentry, rfl⟩ := lockAndUnsetCacheEntry_eq_some_iff.mp h
  obtain ⟨slot, hslot, -⟩ := Option.map_eq_some_iff.mp hentry
  refine Finset.card_lt_card
    (Finset.ssubset_iff_of_subset (fun q hq => ?_) |>.mpr ⟨pos, by simp [hslot], fun hpos => ?_⟩)
  · rw [Finset.mem_filter] at hq ⊢
    refine ⟨Finset.mem_univ q, ?_⟩
    by_cases hqp : q = pos
    · rw [hqp, hslot]
      rfl
    · rw [CacheEntryHashMap.clear_slots, Function.update_of_ne hqp] at hq
      exact hq.2
  · rw [Finset.mem_filter, CacheEntryHashMap.clear_slots, Function.update_self] at hpos
    cases hpos.2

/-- What is left of a store when the entries of a key are taken out of its map. -/
def withoutKey (st : Store) (key : CacheKey) : Store :=
  st.setMapOf key ((st.mapOf key).withoutKey key)

theorem withoutKey_eq {map : CacheEntryHashMap} {entry : CacheEntry}
    (h : Cik.lockAndUnsetCacheEntry (st.mapOf key) key = some (entry, map)) :
    withoutKey (st.setMapOf key map) key = withoutKey st key := by
  rw [withoutKey, withoutKey, Store.mapOf_setMapOf_self, setMapOf_setMapOf, withoutKey_of_unset h]

theorem withoutKey_eq_self (h : Cik.lockAndUnsetCacheEntry (st.mapOf key) key = none) :
    withoutKey st key = st := by
  have hrest (fuel : ℕ) : unsetRest fuel (st.mapOf key) key = st.mapOf key := by
    cases fuel with
    | zero => rfl
    | succ fuel => rw [unsetRest, h]
  rw [withoutKey, ← unsetRest_eq, hrest, setMapOf_mapOf]

/-- An entry is released, and so are all others of its key that are in the map. -/
theorem ends_releaseAll (h : Rep (e ::ₘ hand) s st) (hF : Free (insert e ∅) s)
    {Q : Unit → Process τ × Client → Prop}
    (hQ : ∀ s', Rep hand s' (withoutKey st key) → Free ∅ s' → Q () (s', client)) :
    Ends env t Q (s, client) (releaseAll key e) := by
  refine Completes.iterate_of (fun n e x => ∃ s₁ st₁, x = (s₁, client) ∧ Rep (e ::ₘ hand) s₁ st₁ ∧
    Free (insert e ∅) s₁ ∧ withoutKey st₁ key = withoutKey st key ∧ occupied (st₁.mapOf key) = n)
      (fun n e x hx => ?_) ⟨s, st, rfl, h, hF, rfl, rfl⟩
  obtain ⟨s₁, st₁, rfl, h₁, hF₁, hst₁, rfl⟩ := hx
  refine ends_releaseEntry h₁ hF₁ fun s₂ h₂ hF₂ _ => ?_
  refine .bind
    (ends_lockAndUnsetCacheEntry h₂ hF₂ (by simp)
    (fun hnone => .pure ?_) fun e' map s₃ hsome h₃ hF₃ _ => .pure ?_)
  · rw [withoutKey_eq_self hnone] at hst₁
    exact hQ s₂ (hst₁ ▸ h₂) hF₂
  · refine ⟨occupied map, occupied_lt hsome, s₃, _, rfl, h₃, hF₃, ?_, ?_⟩
    · rw [withoutKey_eq hsome, hst₁]
    · rw [Store.mapOf_setMapOf_self]

theorem ends_deleteEntryByKey (h : Rep hand s st) (hF : Free ∅ s)
    {Q : StatusCode → Process τ × Client → Prop}
    (hQ : ∀ s', Rep hand s' (Cik.deleteEntryByKey st key).2 → Free ∅ s' →
      Q (Cik.deleteEntryByKey st key).1 (s', client)) :
    Ends env t Q (s, client) (deleteEntryByKey key) := by
  refine .bind
    (ends_lockAndUnsetCacheEntry h hF (by simp)
    (fun hnone => .pure ?_) fun e map s₁ hsome h₁ hF₁ he₁ => ?_)
  · rw [Cik.deleteEntryByKey, hnone] at hQ
    exact hQ s h hF
  · rw [Cik.deleteEntryByKey, hsome] at hQ
    dsimp only at hQ
    refine .bind (ends_readEntry (.bind ?_))
    rw [he₁]
    refine ends_removeKeyFromTags h₁ hF₁.unlocked fun s₂ h₂ hb₂ => ?_
    refine .bind (ends_releaseAll h₂ (hb₂.free hF₁) fun s' h' hF' => .pure (hQ s' ?_ hF'))
    rw [unsetRest_eq, ← Store.mapOf_setMapOf_self st key map, ← setMapOf_setMapOf st key map]
    exact h'

theorem handles_del (h : Rep 0 s st) (hF : Free ∅ s) (hk : request.dKlen ≠ 0) :
    Handles env t s client (handleDelRequest buffer request)
      (Cik.handleDelRequest ⟨st, client, buffer⟩ request) := by
  unfold Cik.handleDelRequest
  refine .bind (ends_readRequestKey hk fun status key client₁ hr hlen => ?_)
  dsimp only
  rw [hr]
  cases status with
  | ok =>
    exact .bind (ends_deleteEntryByKey h hF fun s' h' hF' => .pure ⟨rfl, rfl, rfl, rfl, h', hF'⟩)
  | _ => exact .pure ⟨rfl, rfl, rfl, rfl, h, hF⟩

/-! ### CLR -/

theorem ends_clearUnless (keep : CacheEntry → Bool) (h : Rep 0 s st) (hF : Free ∅ s)
    {Q : Unit → Process τ × Client → Prop}
    (hQ : ∀ s', Rep 0 s' (clearEntries (clearing keep) st) → Free ∅ s' → Q () (s', client)) :
    Ends env t Q (s, client) (walkAllEntries (clearUnless keep) ()) := by
  refine (ends_walkAllEntries (visits_clear keep (by simp)) ⟨s, rfl, h, hF⟩).mono ?_
  rintro _ x ⟨s', rfl, h', hF'⟩
  exact hQ s' h' hF'

theorem clearing_old (now : Time) : clearing (keepsOld now) = clearOldCallback now := by
  funext entry tags
  simp only [clearing, keepsOld, clearOldCallback, decide_eq_true_eq]

theorem ends_deleteKeys {keys : List KeyElem} (h : Rep hand s st) (hF : Free ∅ s)
    {Q : Unit → Process τ × Client → Prop}
    (hQ : ∀ s', Rep hand s' (Cik.deleteKeys st (keysOf keys)) → Free ∅ s' → Q () (s', client)) :
    Ends env t Q (s, client) (deleteKeys keys) := by
  induction keys generalizing s st with
  | nil => exact .pure (hQ s h hF)
  | cons elem next ih => exact .bind (ends_deleteEntryByKey h hF fun s₁ h₁ hF₁ => ih h₁ hF₁ hQ)

/-- A query answers a list of these keys, which is the worker's. -/
def Finds (env : Env) (t : τ) (s : Process τ) (client : Client) (st : Store) (found : List CacheKey)
    (keys : Program (List KeyElem)) : Prop :=
  Ends env t (fun l x => keysOf l = found ∧ ∃ s', x = (s', client) ∧ Rep (bases l + 0) s' st ∧
    Beside s s') (s, client) keys

theorem finds_any (tags : List CacheTag) (h : Rep 0 s st) (hF : Free ∅ s) :
    Finds env t s client st (Cik.getKeysMatchingAnyTag st.tags tags) (getKeysMatchingAnyTag tags) :=
  ends_getKeysMatchingAnyTag h hF.unlocked fun _ s' hl h' hb' => ⟨hl, s', rfl, h', hb'⟩

theorem finds_all (tags : List CacheTag) (h : Rep 0 s st) (hF : Free ∅ s) :
    Finds env t s client st (Cik.getKeysMatchingAllTags st.tags tags)
      (getKeysMatchingAllTags tags) :=
  ends_getKeysMatchingAllTags h hF.unlocked fun _ s' hl h' hb' => ⟨hl, s', rfl, h', hb'⟩

/-- The keys that a query answers are deleted. -/
theorem handles_deleteKeyList {keys : Program (List KeyElem)} {found : List CacheKey}
    (hF : Free ∅ s) (hk : Finds env t s client st found keys) :
    Handles env t s client (do deleteKeyList keys; return ⟨.ok, .null, buffer⟩)
      ⟨.ok, .null, ⟨Cik.deleteKeys st found, client, buffer⟩⟩ := by
  refine .bind (.bind (hk.mono fun l x hx => ?_))
  obtain ⟨rfl, s₁, rfl, h₁, hb₁⟩ := hx
  refine .bind (ends_deleteKeys h₁ (hb₁.free hF) fun s₂ h₂ hF₂ => ?_)
  exact ends_releaseKeyList h₂ hF₂.list fun s' h' hb' =>
    .pure ⟨rfl, rfl, rfl, rfl, h', hb'.free hF₂⟩

theorem handles_clr (h : Rep 0 s st) (hF : Free ∅ s)
    (hne : (Cik.readTagsLoop request.cNtags.toNat client buffer.base 0 buffer.cap []).hasEmpty =
      false) :
    Handles env t s client (handleClrRequest buffer request)
      (Cik.handleClrRequest env ⟨st, client, buffer⟩ request) := by
  unfold Cik.handleClrRequest
  refine .bind (ends_readTagsUsingPayloadBuffer hne fun status slices client₁ buffer' ht _ => ?_)
  dsimp only
  rw [ht]
  cases status with
  | ok =>
    dsimp only
    split_ifs
    · exact .bind (ends_clearUnless _ h hF fun s' h' hF' => .pure ⟨rfl, rfl, rfl, rfl, h', hF'⟩)
    · refine .bind (ends_time (.bind (ends_clearUnless _ h hF fun s' h' hF' => .pure ?_)))
      rw [clearing_old] at h'
      exact ⟨rfl, rfl, rfl, rfl, h', hF'⟩
    · exact .bind (ends_clearUnless _ h hF fun s' h' hF' => .pure ⟨rfl, rfl, rfl, rfl, h', hF'⟩)
    · exact handles_deleteKeyList hF (finds_all _ h hF)
    · exact handles_deleteKeyList hF (finds_any _ h hF)
    · exact .pure ⟨rfl, rfl, rfl, rfl, h, hF⟩
  | _ => exact .pure ⟨rfl, rfl, rfl, rfl, h, hF⟩

/-! ### LST -/

theorem ends_look {σ : Type} {callback : CacheEntry → σ → Bool × σ}
    (hc : ∀ e d, (callback e d).1 = false) {data : σ} (h : Rep 0 s st) (hF : Free ∅ s) :
    Ends env t (fun data' x => x = (s, client) ∧
      data' = (Cik.walkAllEntries callback st.maps data).2) (s, client)
      (walkAllEntries (look callback) data) := by
  refine (ends_walkAllEntries (visits_look hc h hF (by simp)) ⟨rfl, rfl, rfl⟩).mono ?_
  rintro data' x ⟨hx, -, hdata⟩
  exact ⟨hx, hdata⟩

/-- The keys that a query answers are listed. -/
theorem handles_listKeyList {keys : Program (List KeyElem)} {found : List CacheKey}
    {whole : ListData} (hF : Free ∅ s) (hk : Finds env t s client st found keys) :
    Handles env t s client (do return .listed (← listKeyList keys whole) buffer.cap)
      ⟨(listKeys found whole).status, .payloadBuffer,
        Ctx.listed ⟨st, client, buffer⟩ (listKeys found whole) (listKeys found whole).nmemb⟩ := by
  refine .bind (.bind (hk.mono fun l x hx => ?_))
  obtain ⟨rfl, s₁, rfl, h₁, hb₁⟩ := hx
  refine .bind (ends_releaseKeyList h₁ (hb₁.free hF).list fun s' h' hb' => .pure (.pure ?_))
  exact ⟨rfl, rfl, rfl, rfl, h', hb'.free (hb₁.free hF)⟩

theorem handles_lst (h : Rep 0 s st) (hF : Free ∅ s)
    (hne : (Cik.readTagsLoop request.cNtags.toNat client buffer.base 0 buffer.cap []).hasEmpty =
      false) :
    Handles env t s client (handleLstRequest buffer request)
      (Cik.handleLstRequest ⟨st, client, buffer⟩ request) := by
  unfold Cik.handleLstRequest
  refine .bind (ends_readTagsUsingPayloadBuffer hne fun status slices client₁ buffer' ht _ => ?_)
  dsimp only
  rw [ht]
  cases status with
  | ok =>
    dsimp only
    split_ifs
    · refine .bind ((ends_look listAllKeysCallback_fst h hF).mono fun data x hx => ?_)
      obtain ⟨rfl, hdata⟩ := hx
      rw [← hdata]
      exact .pure ⟨rfl, rfl, rfl, rfl, h, hF⟩
    · exact .bind
        (ends_walkAllTags h hF.unlocked fun s' h' hb' =>
        .pure ⟨rfl, rfl, rfl, rfl, h', hb'.free hF⟩)
    · refine .bind ((ends_look (listNonMatchingCallback_fst slices) h hF).mono fun data x hx => ?_)
      obtain ⟨rfl, hdata⟩ := hx
      rw [← hdata]
      exact .pure ⟨rfl, rfl, rfl, rfl, h, hF⟩
    · exact handles_listKeyList hF (finds_all _ h hF)
    · exact handles_listKeyList hF (finds_any _ h hF)
    · exact .pure ⟨rfl, rfl, rfl, rfl, h, hF⟩
  | _ => exact .pure ⟨rfl, rfl, rfl, rfl, h, hF⟩

/-! ### NFO -/

theorem handles_nfo (h : Rep 0 s st) (hF : Free ∅ s) :
    Handles env t s client (handleNfoRequest buffer request)
      (Cik.handleNfoRequest env ⟨st, client, buffer⟩ request) := by
  unfold Cik.handleNfoRequest
  change Handles env t s client (if request.nKlen > 0 then _ else _)
    (if request.nKlen > 0 then _ else _)
  split_ifs with hk
  · refine .bind
      (ends_readRequestKey (fun hzero => absurd hk (by simp [hzero]))
        fun status key client₁ hr _ => ?_)
    dsimp only
    rw [hr]
    cases status with
    | ok =>
      refine .bind
        (ends_lockAndGetCacheEntry h hF (by simp) (fun hnone => ?_) fun pos m hsome hm => ?_)
      · dsimp only
        rw [hnone]
        exact .pure ⟨rfl, rfl, rfl, rfl, h, hF⟩
      · dsimp only
        rw [hsome]
        refine .bind (ends_readEntry (.bind (ends_unlock (.pure ?_))))
        rw [Process.setHolder_entries]
        exact ⟨rfl, rfl, rfl, rfl, Rep.setHolder_iff.mpr (Rep.setHolder_iff.mpr h),
          hF.leaveEntry _ s.entries⟩
    | _ => exact .pure ⟨rfl, rfl, rfl, rfl, h, hF⟩
  · exact .bind (ends_info (.pure ⟨rfl, rfl, rfl, rfl, h, hF⟩))

/-! ### All requests -/

/-- A worker that has the process to itself handles a request as it is handled in the store, when no
name in it is empty and a SET makes an entry that fits in its block. -/
theorem handles_request (hg : env.Grants) (h : Rep 0 s st) (hF : Free ∅ s) (c : Call)
    (hne : readsEmptyName client c.payload_buffer c.request = false)
    (hlt : makesOverlong client c.payload_buffer c.request = false) :
    Handles env t s client (handleRequest c)
      (Cik.handleRequest env ⟨st, client, c.payload_buffer⟩ c.request) := by
  unfold Cik.handleRequest handleRequest
  unfold readsEmptyName at hne
  dsimp only
  split_ifs at hne ⊢ with hctl hget hset
  · exact .pure ⟨rfl, rfl, rfl, rfl, h, hF⟩
  · exact handles_get h hF (by simpa using hne)
  · rw [makesOverlong, if_neg hctl, if_pos hset] at hlt
    rw [Bool.or_eq_false_iff] at hne
    exact handles_set hg h hF (by simpa using hne.1) hne.2 hlt
  · exact handles_del h hF (by simpa using hne)
  · exact handles_clr h hF hne
  · exact handles_lst h hF hne
  · exact handles_nfo h hF
  · exact .pure ⟨rfl, rfl, rfl, rfl, h, hF⟩

end Guarded

end Cik

import Cik.Theory.InStep

/-!
# The payload that the worker is to send

A handler says by `*response_payload` where the worker is to send the payload from, and
the worker follows this pointer when the handler has returned. So it has to be `NULL` or
the address of the worker's buffer, with no more bytes in use than there are
(`Handled.Live`). It is, for each handler and each way to leave it, except that a LST of
the keys without some tags leaves the address of its own variable (`live_iff`).
-/

namespace Cik

/-- `*response_payload` is `NULL`, or the worker's buffer, of which no more is in use than there
is. -/
def Handled.Live (h : Handled) : Prop :=
  h.response_payload = .null ∨
    (h.response_payload = .payloadBuffer ∧ h.ctx.payload_buffer.nmemb ≤ h.ctx.payload_buffer.cap)

/-- The worker, which follows the pointer unless it closes the connection, reads what is there. -/
def Handled.ReadsLive (h : Handled) : Prop := h.status.has MASK_INTERNAL_ERROR = false → h.Live

/-- A LST of the keys without some tags, which are there and fit the buffer. -/
def Request.Dangles (r : Request) (cap : ℕ) (input : List UInt8) : Prop :=
  r.HasControl ∧ r.op = CMD_BYTE_LST ∧ r.cMode = LIST_MODE_MATCH_NONE ∧
    ∃ tags, r.TagsAre cap input tags

theorem Handled.readsLive_of_null {h : Handled} (hp : h.response_payload = .null) : h.ReadsLive :=
  fun _ => Or.inl hp

theorem Handled.readsLive_of_le {h : Handled} (hp : h.response_payload = .payloadBuffer)
    (hle : h.ctx.payload_buffer.nmemb ≤ h.ctx.payload_buffer.cap) : h.ReadsLive :=
  fun _ => Or.inr ⟨hp, hle⟩

section Handlers

variable {env : Env} {ctx : Ctx} {r : Request}

theorem handleGetRequest_readsLive : (handleGetRequest env ctx r).ReadsLive := by
  unfold handleGetRequest
  dsimp only
  obtain ⟨status, key, client⟩ := readRequestKey ctx.client r.gKlen
  cases status with
  | ok =>
    dsimp only
    cases lockAndGetCacheEntry (ctx.store.mapOf key) key with
    | none => exact Handled.readsLive_of_null rfl
    | some found =>
      obtain ⟨pos, entry⟩ := found
      dsimp only
      split_ifs with hexp hbig hpos
      · exact Handled.readsLive_of_null rfl
      · exact Handled.readsLive_of_null rfl
      · exact Handled.readsLive_of_le rfl (Nat.le_of_not_gt hbig)
      · exact Handled.readsLive_of_null rfl
  | _ => exact Handled.readsLive_of_null rfl

theorem handleNfoRequest_readsLive (hcap : sizeofNFOResponsePayload ≤ ctx.payload_buffer.cap) :
    (handleNfoRequest env ctx r).ReadsLive := by
  unfold handleNfoRequest
  dsimp only
  split_ifs
  · obtain ⟨status, key, client⟩ := readRequestKey ctx.client r.nKlen
    cases status with
    | ok =>
      dsimp only
      cases lockAndGetCacheEntry (ctx.store.mapOf key) key with
      | none => exact Handled.readsLive_of_le rfl hcap
      | some found =>
        obtain ⟨hfits, hn⟩ := nfoTags_spec found.2.tags ((ctx.payload_buffer.base.write 0
          (store64 (htonll found.2.expires))).write 8 (store64 (htonll found.2.mtime)))
          sizeofNFOResponsePayload sizeofNFOResponsePayload hcap
        intro hopen
        dsimp only at hopen ⊢
        rw [hfits] at hopen
        by_cases hroom : sizeofNFOResponsePayload + wireLength found.2.tags ≤ ctx.payload_buffer.cap
        · refine Or.inr ⟨rfl, ?_⟩
          dsimp only
          rw [hn hroom]
          exact hroom
        · -- it is closed with `STATUS_BUG`
          rw [decide_eq_false hroom] at hopen
          exact absurd hopen (by decide)
    | _ => exact Handled.readsLive_of_le rfl hcap
  · exact Handled.readsLive_of_le rfl hcap

/-- A LST sends the worker's buffer unless it is of the keys without some tags. -/
theorem handleLstRequest_readsLive_iff
    (hne :
      (readTagsLoop r.cNtags.toNat ctx.client ctx.payload_buffer.base 0 ctx.payload_buffer.cap
        []).hasEmpty = false) :
    (handleLstRequest ctx r).ReadsLive ↔
    ¬ (r.cMode = LIST_MODE_MATCH_NONE ∧
      ∃ tags, r.TagsAre ctx.payload_buffer.cap ctx.client.input tags) := by
  rcases hread : readTagsUsingPayloadBuffer ctx r.cNtags with ⟨status, slices, c⟩
  have hiff := Request.tagsAre_iff hread hne
  by_cases hok : status = .ok
  swap
  · exact iff_of_true (Handled.readsLive_of_null (handleLstRequest_unread hread hok)) fun h =>
      hok (hiff.mpr h.2)
  subst hok
  by_cases hm : r.cMode = LIST_MODE_MATCH_NONE
  · obtain ⟨hptr, hopen⟩ := handleLstRequest_matchNone hm (by rw [hread])
    refine iff_of_false (fun h => ?_) (not_not.mpr ⟨hm, hiff.mp rfl⟩)
    rcases h hopen with hnull | ⟨hbuffer, -⟩
    · nomatch hptr.symm.trans hnull
    · nomatch hptr.symm.trans hbuffer
  refine iff_of_true ?_ fun h => hm h.1
  by_cases hmode : r.cMode ≤ LIST_MODE_MATCH_ANY
  · rw [handleLstRequest_eq hread hmode, if_neg hm, if_neg hm, lstPayload_walk slices hmode hm]
    refine Handled.readsLive_of_le rfl ?_
    -- what is written is a listing
    generalize c.store.listNames r.cMode (slices.map fun tag => tag.bytes c.payload_buffer.base) =
      names
    have hl :
        Lists False c.payload_buffer.base 0 c.payload_buffer.cap _
        (listing c.payload_buffer.cap names) :=
      foldl_lists (lists_nil ..) nofun
    exact hl.nmemb.trans_le length_listing_le
  · rw [handleLstRequest_unknown hread hmode]
    exact Handled.readsLive_of_null rfl

theorem handleRequest_readsLive_iff (hcap : sizeofNFOResponsePayload ≤ ctx.payload_buffer.cap)
    (hne : readsEmptyName ctx.client ctx.payload_buffer r = false) :
    (handleRequest env ctx r).ReadsLive ↔ ¬ r.Dangles ctx.payload_buffer.cap ctx.client.input := by
  have hother (hlst : r.op ≠ CMD_BYTE_LST) : ¬ r.Dangles ctx.payload_buffer.cap ctx.client.input :=
    fun h => hlst h.2.1
  unfold handleRequest
  split_ifs with hctl hget hset hdel hclr hlst hnfo
  · exact iff_of_true (Handled.readsLive_of_null rfl) fun h => Request.not_hasControl hctl h.1
  · exact iff_of_true handleGetRequest_readsLive (hother (by rw [hget]; decide))
  · exact iff_of_true (Handled.readsLive_of_null handleSetRequest_response_payload)
      (hother (by rw [hset]; decide))
  · exact iff_of_true (Handled.readsLive_of_null handleDelRequest_response_payload)
      (hother (by rw [hdel]; decide))
  · exact iff_of_true (Handled.readsLive_of_null handleClrRequest_response_payload)
      (hother (by rw [hclr]; decide))
  · push Not at hctl
    rw [readsEmptyName_lst hctl hlst] at hne
    rw [handleLstRequest_readsLive_iff hne, Request.Dangles,
      and_iff_right (show r.HasControl from hctl), and_iff_right hlst]
  · exact iff_of_true (handleNfoRequest_readsLive hcap) (hother hlst)
  · exact iff_of_true (Handled.readsLive_of_null rfl) (hother hlst)

/-- No name in such a request is empty. -/
theorem Request.Dangles.names (h : r.Dangles ctx.payload_buffer.cap ctx.client.input) :
    readsEmptyName ctx.client ctx.payload_buffer r = false := by
  obtain ⟨hctl, hop, -, htags⟩ := h
  rw [readsEmptyName_lst hctl hop]
  exact (Request.exists_tagsAre_iff.mp htags).2

/-- When a handler has returned, which it does not when it comes to an empty name, the worker reads
its buffer or nothing, unless the request is a LST of the keys without some tags, whose payload lies
in a variable of the handler. -/
theorem live_iff (env : Env) (ctx : Ctx) (r : Request)
    (hcap : sizeofNFOResponsePayload ≤ ctx.payload_buffer.cap) :
    (readsEmptyName ctx.client ctx.payload_buffer r = false → (handleRequest env ctx r).ReadsLive) ↔
      ¬ r.Dangles ctx.payload_buffer.cap ctx.client.input := by
  constructor
  · intro h hdangles
    exact (handleRequest_readsLive_iff hcap hdangles.names).mp (h hdangles.names) hdangles
  · intro h hne
    exact (handleRequest_readsLive_iff hcap hne).mpr h

end Handlers

/-- An NFO about the server. -/
theorem live_nfo : (handleRequest (Memory.env (initMemory 0) 0)
    ⟨Store.init, openFile [], reserveBiggestPossiblePayload fun _ => 0⟩
      (Cmd.nfo []).request).ReadsLive :=
  (live_iff _ ⟨Store.init, openFile [], reserveBiggestPossiblePayload fun _ => 0⟩ _ (by decide)).mpr
    (fun h => absurd h.2.1 (by decide)) (by decide)

/-- A LST of the keys without no tag at all. -/
theorem not_live_matchNone : readsEmptyName (openFile []) (reserveBiggestPossiblePayload fun _ => 0)
      (Cmd.lst LIST_MODE_MATCH_NONE []).request = false ∧
    ¬ (handleRequest (Memory.env (initMemory 0) 0)
      ⟨Store.init, openFile [], reserveBiggestPossiblePayload fun _ => 0⟩
      (Cmd.lst LIST_MODE_MATCH_NONE []).request).ReadsLive := by
  have hne : readsEmptyName (openFile []) (reserveBiggestPossiblePayload fun _ => 0)
    (Cmd.lst LIST_MODE_MATCH_NONE []).request = false := by decide
  refine ⟨hne, fun h => (handleRequest_readsLive_iff ?_ hne).mp h ?_⟩
  · decide
  · exact ⟨⟨by decide, by decide, by decide⟩,
      by decide, by decide, [], by decide, by decide, List.nil_prefix,
      Nat.zero_le _⟩

end Cik

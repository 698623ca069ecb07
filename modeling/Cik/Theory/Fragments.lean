import Cik.Theory.LivePayload

/-!
# How a stream is cut does not show

A read may get any part of what it was asked for and a send may take any part of what it
was given, but the loops around them go on until all is read or sent. So two runs on the
same stream that are cut differently (`Schedule`) have the same status, leave the same
maps and send the same bytes. Each handler reads from the client in the same places
whatever the schedule, which is followed through all of them (`Ctx.Same`).

A LST of the keys without some tags sends what it reads through a pointer to a variable
that is gone, and of that nothing can be said (`fragments_iff`).
-/

namespace Cik

/-! ### Schedules -/

/-- How much a read and a send transfer: at least a byte, and at most this. -/
structure Schedule where
  /-- The `k`th read. -/
  reads : ℕ → ℕ
  /-- The `k`th send. -/
  sends : ℕ → ℕ

/-- The client whose reads and sends are cut like this. -/
def Client.on (c : Client) (x : Schedule) : Client :=
  { c with reads := x.reads, sends := fun i => some (max 1 (x.sends i)) }

/-- Two clients are the same but for their schedules. -/
def Client.Same (c c' : Client) : Prop :=
  ∃ reads sends, c' = { c with reads := reads, sends := sends }

/-- Two states are the same but for the schedule of the client. -/
structure Ctx.Same (ctx ctx' : Ctx) : Prop where
  /-- The store. -/
  store : ctx.store = ctx'.store
  /-- The client. -/
  client : ctx.client.Same ctx'.client
  /-- The buffer. -/
  buffer : ctx.payload_buffer = ctx'.payload_buffer

/-- Two handlers have returned the same. -/
structure Handled.Same (h h' : Handled) : Prop where
  /-- The status. -/
  status : h.status = h'.status
  /-- Where the payload is. -/
  pointer : h.response_payload = h'.response_payload
  /-- The state. -/
  ctx : h.ctx.Same h'.ctx

theorem Client.same_on (c : Client) (x y : Schedule) : (c.on x).Same (c.on y) :=
  ⟨y.reads, fun i => some (max 1 (y.sends i)), rfl⟩

theorem Client.flows_on (c : Client) (x : Schedule) : (c.on x).Flows :=
  fun i => ⟨max 1 (x.sends i), Nat.lt_of_lt_of_le Nat.one_pos (Nat.le_max_left _ _), rfl⟩

/-! ### Reading -/

section Reading

variable {c c' : Client}

theorem readRequestPayload_same (h : c.Same c') (n : ℕ) : ∃ status bs d d',
    readRequestPayload c n = (status, bs, d) ∧ readRequestPayload c' n = (status, bs, d') ∧
    d.Same d' := by
  obtain ⟨reads, sends, rfl⟩ := h
  rcases Nat.lt_or_ge c.input.length n with hlt | hle
  · obtain ⟨r₁, h₁⟩ := readRequestPayload_of_lt hlt
    obtain ⟨r₂, h₂⟩ := @readRequestPayload_of_lt { c with reads := reads, sends := sends } n hlt
    exact ⟨_, _, _, _, h₁, h₂, r₂, sends, rfl⟩
  · obtain ⟨r₁, h₁⟩ := readRequestPayload_of_le hle
    obtain ⟨r₂, h₂⟩ := @readRequestPayload_of_le { c with reads := reads, sends := sends } n hle
    exact ⟨_, _, _, _, h₁, h₂, r₂, sends, rfl⟩

theorem readRequestKey_same (h : c.Same c') (klen : UInt8) : ∃ status key d d',
    readRequestKey c klen = (status, key, d) ∧ readRequestKey c' klen = (status, key, d') ∧
    d.Same d' := by
  obtain ⟨status, bs, d, d', h₁, h₂, hd⟩ := readRequestPayload_same h klen.toNat
  rw [readRequestKey, readRequestKey, h₁, h₂]
  cases status <;> exact ⟨_, _, _, _, rfl, rfl, hd⟩

theorem readTagsLoop_same (h : c.Same c') (ntags : ℕ) (base : ByteMemory) (buffer cap : ℕ)
    (acc : List Slice) :
    ∃ status tags d d' base' left,
    readTagsLoop ntags c base buffer cap acc = ⟨status, tags, d, base', left⟩ ∧
      readTagsLoop ntags c' base buffer cap acc = ⟨status, tags, d', base', left⟩ ∧ d.Same d' := by
  induction ntags generalizing c c' base buffer cap acc with
  | zero => exact ⟨_, _, _, _, _, _, rfl, rfl, h⟩
  | succ ntags ih =>
    obtain ⟨status, bs, d, d', h₁, h₂, hd⟩ := readRequestPayload_same h 1
    rw [readTagsLoop, readTagsLoop, h₁, h₂]
    cases status with
    | ok =>
      dsimp only
      split_ifs
      · exact ⟨_, _, _, _, _, _, rfl, rfl, hd⟩
      · obtain ⟨status, bs', e, e', h₃, h₄, he⟩ := readRequestPayload_same hd (bs.headD 0).toNat
        rw [h₃, h₄]
        cases status with
        | ok => exact ih he ..
        | _ => exact ⟨_, _, _, _, _, _, rfl, rfl, he⟩
    | _ => exact ⟨_, _, _, _, _, _, rfl, rfl, hd⟩

end Reading

section Handlers

variable {env : Env} {ctx ctx' : Ctx} {r : Request}

theorem Ctx.Same.exists_eq (h : ctx.Same ctx') : ∃ s c c' b, ctx = ⟨s, c, b⟩ ∧ ctx' = ⟨s, c', b⟩ ∧
    c.Same c' := by
  obtain ⟨s, c, b⟩ := ctx
  obtain ⟨s', c', b'⟩ := ctx'
  obtain rfl : s = s' := h.store
  obtain rfl : b = b' := h.buffer
  exact ⟨s, c, c', b, rfl, rfl, h.client⟩

theorem readTagsUsingPayloadBuffer_same (h : ctx.Same ctx') (ntags : UInt8) : ∃ status slices d d',
    readTagsUsingPayloadBuffer ctx ntags = (status, slices, d) ∧
      readTagsUsingPayloadBuffer ctx' ntags = (status, slices, d') ∧ d.Same d' := by
  obtain ⟨s, c, c', b, rfl, rfl, hc⟩ := h.exists_eq
  obtain ⟨status, tags, d, d', base, left, h₁, h₂, hd⟩ :=
    readTagsLoop_same hc ntags.toNat b.base 0 b.cap []
  unfold readTagsUsingPayloadBuffer
  dsimp only
  rw [h₁, h₂]
  exact ⟨_, _, _, _, rfl, rfl, rfl, hd, rfl⟩

/-- Two states with the same client but for its schedule. -/
theorem same_mk {c c' : Client} (h : c.Same c') (status : StatusCode) (p : PayloadPtr) (s : Store)
    (b : Payload) :
    (Handled.mk status p ⟨s, c, b⟩).Same ⟨status, p, ⟨s, c', b⟩⟩ := ⟨rfl, rfl, rfl, h, rfl⟩

theorem handleGetRequest_same (h : ctx.Same ctx') :
    (handleGetRequest env ctx r).Same (handleGetRequest env ctx' r) := by
  obtain ⟨s, c, c', b, rfl, rfl, hc⟩ := h.exists_eq
  obtain ⟨status, key, d, d', h₁, h₂, hd⟩ := readRequestKey_same hc r.gKlen
  unfold handleGetRequest
  dsimp only
  rw [h₁, h₂]
  cases status with
  | ok =>
    dsimp only
    cases lockAndGetCacheEntry (s.mapOf key) key with
    | none => exact same_mk hd ..
    | some found =>
      dsimp only
      split_ifs <;> exact same_mk hd ..
  | _ => exact same_mk hd ..

theorem handleSetRequest_same (h : ctx.Same ctx') :
    (handleSetRequest env ctx r).Same (handleSetRequest env ctx' r) := by
  obtain ⟨s, c, c', b, rfl, rfl, hc⟩ := h.exists_eq
  obtain ⟨status, key, d, d', h₁, h₂, hd⟩ := readRequestKey_same hc r.sKlen
  unfold handleSetRequest
  dsimp only
  rw [h₁, h₂]
  cases status with
  | ok =>
    dsimp only
    split_ifs
    · cases lockAndGetCacheEntry (s.mapOf key) key <;> exact same_mk hd ..
    · have hctx : (Ctx.mk s d b).Same ⟨s, d', b⟩ := ⟨rfl, hd, rfl⟩
      obtain ⟨status, slices, e, e', h₃, h₄, he⟩ := readTagsUsingPayloadBuffer_same hctx r.sNtags
      obtain ⟨s, c, c', b, rfl, rfl, hc⟩ := he.exists_eq
      rw [h₃, h₄]
      cases status with
      | ok =>
        dsimp only
        cases env.reserve
            (entrySize (setTotalSize (slices.map Slice.nmemb) r.sKlen (ntohl r.sVlen))) with
        | none => exact same_mk hc ..
        | some n =>
          obtain ⟨status, value, f, f', h₅, h₆, hf⟩ :=
            readRequestPayload_same hc (ntohl r.sVlen).toNat
          dsimp only
          rw [h₅, h₆]
          cases status <;> exact same_mk hf ..
      | _ => exact same_mk hc ..
  | _ => exact same_mk hd ..

theorem handleDelRequest_same (h : ctx.Same ctx') :
    (handleDelRequest ctx r).Same (handleDelRequest ctx' r) := by
  obtain ⟨s, c, c', b, rfl, rfl, hc⟩ := h.exists_eq
  obtain ⟨status, key, d, d', h₁, h₂, hd⟩ := readRequestKey_same hc r.dKlen
  unfold handleDelRequest
  dsimp only
  rw [h₁, h₂]
  cases status <;> exact same_mk hd ..

theorem handleClrRequest_same (h : ctx.Same ctx') :
    (handleClrRequest env ctx r).Same (handleClrRequest env ctx' r) := by
  obtain ⟨status, slices, d, d', h₁, h₂, hd⟩ := readTagsUsingPayloadBuffer_same h r.cNtags
  obtain ⟨s, c, c', b, rfl, rfl, hc⟩ := hd.exists_eq
  unfold handleClrRequest
  rw [h₁, h₂]
  cases status with
  | ok =>
    dsimp only
    split_ifs <;> exact same_mk hc ..
  | _ => exact same_mk hc ..

theorem handleLstRequest_same (h : ctx.Same ctx') :
    (handleLstRequest ctx r).Same (handleLstRequest ctx' r) := by
  obtain ⟨status, slices, d, d', h₁, h₂, hd⟩ := readTagsUsingPayloadBuffer_same h r.cNtags
  obtain ⟨s, c, c', b, rfl, rfl, hc⟩ := hd.exists_eq
  unfold handleLstRequest
  rw [h₁, h₂]
  cases status with
  | ok =>
    dsimp only
    split_ifs <;> exact same_mk hc ..
  | _ => exact same_mk hc ..

theorem handleNfoRequest_same (h : ctx.Same ctx') :
    (handleNfoRequest env ctx r).Same (handleNfoRequest env ctx' r) := by
  obtain ⟨s, c, c', b, rfl, rfl, hc⟩ := h.exists_eq
  obtain ⟨status, key, d, d', h₁, h₂, hd⟩ := readRequestKey_same hc r.nKlen
  unfold handleNfoRequest
  dsimp only
  split_ifs
  · rw [h₁, h₂]
    cases status with
    | ok =>
      dsimp only
      cases lockAndGetCacheEntry (s.mapOf key) key <;> exact same_mk hd ..
    | _ => exact same_mk hd ..
  · exact same_mk hc ..

/-- How the stream is cut makes no difference to whether a name is empty. -/
theorem readsEmptyName_same (h : ctx.Same ctx') (r : Request) :
    readsEmptyName ctx.client ctx.payload_buffer r =
    readsEmptyName ctx'.client ctx'.payload_buffer r := by
  obtain ⟨s, c, c', b, rfl, rfl, hc⟩ := h.exists_eq
  have htags {c c' : Client} (hc : c.Same c') (n : ℕ) :
      (readTagsLoop n c b.base 0 b.cap []).hasEmpty =
      (readTagsLoop n c' b.base 0 b.cap []).hasEmpty := by
    obtain ⟨status, tags, d, d', base, left, h₁, h₂, -⟩ := readTagsLoop_same hc n b.base 0 b.cap []
    rw [h₁, h₂]
    rfl
  have hset :
      (setTagsRead c b r).any TagsRead.hasEmpty = (setTagsRead c' b r).any TagsRead.hasEmpty := by
    obtain ⟨status, key, d, d', h₁, h₂, hd⟩ := readRequestKey_same hc r.sKlen
    rw [setTagsRead, setTagsRead, h₁, h₂]
    cases status with
    | ok =>
      dsimp only
      split_ifs
      · rfl
      · exact htags hd _
    | _ => rfl
  dsimp only
  rw [readsEmptyName, readsEmptyName, hset, htags hc]

/-- Whatever the request, how the stream is cut makes no difference to its handler. -/
theorem handleRequest_same (h : ctx.Same ctx') :
    (handleRequest env ctx r).Same (handleRequest env ctx' r) := by
  unfold handleRequest
  split_ifs
  · exact ⟨rfl, rfl, h⟩
  · exact handleGetRequest_same h
  · exact handleSetRequest_same h
  · exact handleDelRequest_same h
  · exact handleClrRequest_same h
  · exact handleLstRequest_same h
  · exact handleNfoRequest_same h
  · exact ⟨rfl, rfl, h⟩

end Handlers

/-! ### The payload -/

section Pointer

variable {env : Env} {ctx : Ctx} {r : Request}

theorem handleGetRequest_ne_alt : (handleGetRequest env ctx r).response_payload ≠ .altPayload := by
  unfold handleGetRequest
  dsimp only
  obtain ⟨status, key, client⟩ := readRequestKey ctx.client r.gKlen
  cases status with
  | ok =>
    dsimp only
    cases lockAndGetCacheEntry (ctx.store.mapOf key) key with
    | none => nofun
    | some found =>
      dsimp only
      split_ifs <;> nofun
  | _ => nofun

theorem handleNfoRequest_ne_alt : (handleNfoRequest env ctx r).response_payload ≠ .altPayload := by
  unfold handleNfoRequest
  dsimp only
  split_ifs
  · obtain ⟨status, key, client⟩ := readRequestKey ctx.client r.nKlen
    cases status with
    | ok =>
      dsimp only
      cases lockAndGetCacheEntry (ctx.store.mapOf key) key <;> nofun
    | _ => nofun
  · nofun

theorem handleLstRequest_ne_alt
    (hne :
      (readTagsLoop r.cNtags.toNat ctx.client ctx.payload_buffer.base 0 ctx.payload_buffer.cap
        []).hasEmpty = false)
    (h : ¬ (r.cMode = LIST_MODE_MATCH_NONE ∧
      ∃ tags, r.TagsAre ctx.payload_buffer.cap ctx.client.input tags)) :
    (handleLstRequest ctx r).response_payload ≠ .altPayload := by
  rcases hread : readTagsUsingPayloadBuffer ctx r.cNtags with ⟨status, slices, c⟩
  by_cases hok : status = .ok
  · have hm : r.cMode ≠ LIST_MODE_MATCH_NONE :=
      fun hm => h ⟨hm, (Request.tagsAre_iff hread hne).mp hok⟩
    subst hok
    unfold handleLstRequest
    rw [hread]
    dsimp only
    rw [if_neg hm]
    split_ifs <;> nofun
  · rw [handleLstRequest_unread hread hok]
    nofun

/-- No other request leaves the address of a variable of its handler. -/
theorem handleRequest_ne_alt (hne : readsEmptyName ctx.client ctx.payload_buffer r = false)
    (h : ¬ r.Dangles ctx.payload_buffer.cap ctx.client.input) :
    (handleRequest env ctx r).response_payload ≠ .altPayload := by
  unfold handleRequest
  split_ifs with hctl hget hset hdel hclr hlst hnfo
  · nofun
  · exact handleGetRequest_ne_alt
  · rw [handleSetRequest_response_payload]
    nofun
  · rw [handleDelRequest_response_payload]
    nofun
  · rw [handleClrRequest_response_payload]
    nofun
  · push Not at hctl
    rw [readsEmptyName_lst hctl hlst] at hne
    exact handleLstRequest_ne_alt hne fun hbad => h ⟨hctl, hlst, hbad⟩
  · exact handleNfoRequest_ne_alt
  · nofun

end Pointer

/-- The same response and the same payload, if what is read through the pointer is the same. -/
theorem Handled.Same.reply {h h' : Handled} (hs : h.Same h') {stale stale' : StaleReads}
    (hstale : h.response_payload = .altPayload → stale = stale') :
    h.response stale ++ h.payloadBytes stale = h'.response stale' ++ h'.payloadBytes stale' := by
  unfold Handled.response Handled.payloadSize Handled.payloadBytes
  rw [← hs.status, ← hs.pointer, ← hs.ctx.buffer]
  cases hp : h.response_payload with
  | null => rfl
  | payloadBuffer => rfl
  | altPayload =>
    obtain rfl := hstale hp
    rfl

/-! ### Whole requests -/

/-- The status that reading a request and handling it come to. -/
def requestStatus (env : Env) (ctx : Ctx) : StatusCode :=
  match readRequestPayload ctx.client 16 with
  | (.ok, bs, client) => (handleRequest env (ctx.withClient client) (Request.ofBytes bs)).status
  | (status, _, _) => status

/-- Two runs come to the same. -/
structure SameOutcome (env : Env) (stale stale' : StaleReads) (ctx ctx' : Ctx) : Prop where
  /-- The status. -/
  status : requestStatus env ctx = requestStatus env ctx'
  /-- The store. -/
  store : (processRequest env stale ctx).store = (processRequest env stale' ctx').store
  /-- The bytes sent. -/
  sent : (processRequest env stale ctx).client.sent = (processRequest env stale' ctx').client.sent
  /-- Whether the connection is open. -/
  isOpen :
    (processRequest env stale ctx).client.isOpen = (processRequest env stale' ctx').client.isOpen

theorem store_writeReply (h : Handled) (stale : StaleReads) :
    (writeReply stale h).store = h.ctx.store := by
  unfold writeReply
  dsimp only
  split_ifs <;> rfl

section Outcome

variable {env : Env} {stale stale' : StaleReads} {ctx ctx' : Ctx} {status : StatusCode}
  {bs : List UInt8} {d d' : Client}

/-- The header is there. -/
theorem processRequest_of_ok (h : readRequestPayload ctx.client 16 = (.ok, bs, d)) :
    processRequest env stale ctx = if readsEmptyName d ctx.payload_buffer (Request.ofBytes bs)
      then ctx.withClient d.close
    else
      let h := handleRequest env (ctx.withClient d) (Request.ofBytes bs)
      if h.status.has MASK_INTERNAL_ERROR then h.ctx.withClient h.ctx.client.close
          else writeReply stale h := by
  rw [processRequest, h]
  rfl

/-- It is not, and the connection is closed. -/
theorem processRequest_of_ne_ok (h : readRequestPayload ctx.client 16 = (status, bs, d))
    (hne : status ≠ .ok) :
    processRequest env stale ctx = ctx.withClient d.close ∧ requestStatus env ctx = status := by
  have hint := (status_readRequestPayload ctx.client 16).resolve_left
  rw [h] at hint
  constructor
  · rw [processRequest, h]
    exact if_pos (hint hne)
  · rw [requestStatus, h]
    cases status <;> first | rfl | exact absurd rfl hne

theorem SameOutcome.of_ne_ok (h : ctx.Same ctx')
    (h₁ : readRequestPayload ctx.client 16 = (status, bs, d))
    (h₂ : readRequestPayload ctx'.client 16 = (status, bs, d')) (hd : d.Same d')
    (hne : status ≠ .ok) :
    SameOutcome env stale stale' ctx ctx' := by
  obtain ⟨hp, hst⟩ := @processRequest_of_ne_ok env stale ctx status bs d h₁ hne
  obtain ⟨hp', hst'⟩ := @processRequest_of_ne_ok env stale' ctx' status bs d' h₂ hne
  obtain ⟨reads, sends, rfl⟩ := hd
  refine ⟨hst.trans hst'.symm, ?_, ?_, ?_⟩
  all_goals rw [hp, hp']
  · exact h.store
  · rfl
  · rfl

/-- The process does not survive the request. -/
theorem SameOutcome.of_empty (h : ctx.Same ctx')
    (h₁ : readRequestPayload ctx.client 16 = (.ok, bs, d))
    (h₂ : readRequestPayload ctx'.client 16 = (.ok, bs, d')) (hd : d.Same d')
    (hne : readsEmptyName d ctx.payload_buffer (Request.ofBytes bs) = true) :
    SameOutcome env stale stale' ctx ctx' := by
  have hctx : (ctx.withClient d).Same (ctx'.withClient d') := ⟨h.store, hd, h.buffer⟩
  have hne' : readsEmptyName d' ctx'.payload_buffer (Request.ofBytes bs) = true :=
    (readsEmptyName_same hctx (Request.ofBytes bs)).symm.trans hne
  have hp := @processRequest_of_ok env stale ctx bs d h₁
  have hp' := @processRequest_of_ok env stale' ctx' bs d' h₂
  rw [if_pos hne] at hp
  rw [if_pos hne'] at hp'
  have hstatus : requestStatus env ctx = requestStatus env ctx' := by
    rw [requestStatus, requestStatus, h₁, h₂]
    exact (handleRequest_same hctx).status
  obtain ⟨reads, sends, rfl⟩ := hd
  refine ⟨hstatus, ?_, ?_, ?_⟩
  all_goals rw [hp, hp']
  · exact h.store
  · rfl
  · rfl

theorem SameOutcome.of_ok (h₁ : readRequestPayload ctx.client 16 = (.ok, bs, d))
    (h₂ : readRequestPayload ctx'.client 16 = (.ok, bs, d')) (hf : d.Flows) (hf' : d'.Flows)
    (hne : readsEmptyName d ctx.payload_buffer (Request.ofBytes bs) = false)
    (hne' : readsEmptyName d' ctx'.payload_buffer (Request.ofBytes bs) = false)
    (hh : (handleRequest env (ctx.withClient d) (Request.ofBytes bs)).Same
      (handleRequest env (ctx'.withClient d') (Request.ofBytes bs)))
    (hstale : (handleRequest env (ctx.withClient d) (Request.ofBytes bs)).response_payload =
      .altPayload → stale = stale') :
    SameOutcome env stale stale' ctx ctx' := by
  have hstatus : requestStatus env ctx = requestStatus env ctx' := by
    rw [requestStatus, requestStatus, h₁, h₂]
    exact hh.status
  have hflows (ctx : Ctx) {d : Client} (hd : d.Flows) :
      (handleRequest env (ctx.withClient d) (Request.ofBytes bs)).ctx.client.Flows := by
    intro i
    rw [(handleRequest_readTo env _ _).sends_eq]
    exact hd i
  have hw := writeReply_of_flows stale (hflows ctx hf)
  have hw' := writeReply_of_flows stale' (hflows ctx' hf')
  have hreply := hh.reply hstale
  have hp := @processRequest_of_ok env stale ctx bs d h₁
  have hp' := @processRequest_of_ok env stale' ctx' bs d' h₂
  rw [if_neg (Bool.eq_false_iff.mp hne)] at hp
  rw [if_neg (Bool.eq_false_iff.mp hne')] at hp'
  -- the two handlers have returned the same
  revert hw hw' hreply hp hp' hh
  generalize handleRequest env (ctx.withClient d) (Request.ofBytes bs) = r
  generalize handleRequest env (ctx'.withClient d') (Request.ofBytes bs) = r'
  intro hh hw hw' hreply hp hp'
  obtain ⟨sends, hw⟩ := hw
  obtain ⟨sends', hw'⟩ := hw'
  obtain ⟨reads, sends'', hclient⟩ := hh.ctx.client
  rw [hclient, ← hreply] at hw'
  have hsent : r'.ctx.client.sent = r.ctx.client.sent := by rw [hclient]
  dsimp only at hp hp'
  refine ⟨hstatus, ?_, ?_, ?_⟩
  all_goals
    rw [hp, hp', ← hh.status]
    split_ifs
  · exact hh.ctx.store
  · rw [store_writeReply, store_writeReply]
    exact hh.ctx.store
  · exact hsent.symm
  · rw [hw, hw']
  · rfl
  · rw [hw, hw']

/-- Two runs on the same stream, whatever the schedules. -/
theorem sameOutcome (h : ctx.Same ctx') (hf : ctx.client.Flows) (hf' : ctx'.client.Flows)
    (hstale : ∀ bs d, readRequestPayload ctx.client 16 = (.ok, bs, d) →
      readsEmptyName d ctx.payload_buffer (Request.ofBytes bs) = false →
      (handleRequest env (ctx.withClient d) (Request.ofBytes bs)).response_payload = .altPayload →
      stale = stale') :
    SameOutcome env stale stale' ctx ctx' := by
  obtain ⟨status, bs, d, d', h₁, h₂, hd⟩ := readRequestPayload_same h.client 16
  by_cases hok : status = .ok
  · subst hok
    have hctx : (ctx.withClient d).Same (ctx'.withClient d') := ⟨h.store, hd, h.buffer⟩
    have hflows {c d : Client} (hc : c.Flows) (hread : c.ReadTo d) : d.Flows := by
      intro i
      rw [hread.sends_eq]
      exact hc i
    have hread := Client.ReadTo.readRequestPayload ctx.client 16
    have hread' := Client.ReadTo.readRequestPayload ctx'.client 16
    rw [h₁] at hread
    rw [h₂] at hread'
    cases hne : readsEmptyName d ctx.payload_buffer (Request.ofBytes bs) with
    | true => exact .of_empty h h₁ h₂ hd hne
    | false =>
      have hne' := (readsEmptyName_same hctx (Request.ofBytes bs)).symm.trans hne
      exact .of_ok h₁ h₂ (hflows hf hread) (hflows hf' hread') hne hne' (handleRequest_same hctx)
        (hstale bs d h₁ hne)
  · exact .of_ne_ok h h₁ h₂ hd hok

end Outcome

/-- What is read is a LST of the keys without some tags, which are there and fit the buffer. -/
def Dangling (cap : ℕ) (input : List UInt8) : Prop :=
  16 ≤ input.length ∧ (Request.ofBytes (input.take 16)).Dangles cap (input.drop 16)

/-- Exactly the next bytes are read, or it is found that there are not enough. -/
def ReadsExactly (c : Client) (n : ℕ) : Prop :=
  (n ≤ c.input.length →
    ∃ reads, readRequestPayload c n = (.ok, c.input.take n, c.advance n reads)) ∧
    (c.input.length < n → (readRequestPayload c n).1 = .connectionClosed)

section Schedules

variable {env : Env} {s : Store} {client : Client} {buffer : Payload}

theorem same_on (x y : Schedule) : (Ctx.mk s (client.on x) buffer).Same ⟨s, client.on y, buffer⟩ :=
  ⟨rfl, client.same_on x y, rfl⟩

/-- What is read through the pointer is seen. -/
theorem not_sameOutcome (h : Dangling buffer.cap client.input) (x : Schedule) :
    ¬ SameOutcome env ⟨0, []⟩ ⟨0, [0]⟩ ⟨s, client.on x, buffer⟩ ⟨s, client.on x, buffer⟩ := by
  obtain ⟨hle, hctl, hop, hm, htags⟩ := h
  intro hsame
  have hle' : 16 ≤ (client.on x).input.length := hle
  obtain ⟨reads, hread⟩ : ∃ reads, readRequestPayload (client.on x) 16 =
    (.ok, client.input.take 16, (client.on x).advance 16 reads) := readRequestPayload_of_le hle'
  obtain ⟨hptr, hopen⟩ := @handleLstRequest_matchNone ⟨s, (client.on x).advance 16 reads, buffer⟩
    (Request.ofBytes (client.input.take 16)) hm (Request.exists_tagsAre_iff.mp htags).1
  rw [← handleRequest_lst env hctl hop] at hptr hopen
  have hflows : (handleRequest env ⟨s, (client.on x).advance 16 reads, buffer⟩
      (Request.ofBytes (client.input.take 16))).ctx.client.Flows := by
    intro i
    rw [(handleRequest_readTo env _ _).sends_eq]
    exact client.flows_on x i
  have hproc (stale : StaleReads) :=
    @processRequest_of_ok env stale ⟨s, client.on x, buffer⟩ _ _ hread
  have hnames :=
    @Request.Dangles.names ⟨s, (client.on x).advance 16 reads, buffer⟩ _ ⟨hctl, hop, hm, htags⟩
  have hsent := hsame.sent
  rw [hproc, hproc, if_neg (Bool.eq_false_iff.mp hnames), if_neg (Bool.eq_false_iff.mp hnames)]
    at hsent
  dsimp only [Ctx.withClient] at hsent
  rw [if_neg (Bool.eq_false_iff.mp hopen), if_neg (Bool.eq_false_iff.mp hopen),
    sent_writeReply_of_flows _ hflows, sent_writeReply_of_flows _ hflows, Handled.response,
    Handled.response, Handled.payloadSize, Handled.payloadSize, Handled.payloadBytes,
    Handled.payloadBytes, hptr] at hsent
  cases List.append_cancel_left (List.append_cancel_left hsent)

/-- What was read of another request. -/
theorem not_dangles_of_read {x : Schedule} {bs : List UInt8} {d : Client}
    (h : ¬ Dangling buffer.cap client.input)
    (hread : readRequestPayload (client.on x) 16 = (.ok, bs, d)) :
    ¬ (Request.ofBytes bs).Dangles buffer.cap d.input := by
  rcases Nat.lt_or_ge (client.on x).input.length 16 with hlt | hle
  · obtain ⟨reads, hr⟩ := readRequestPayload_of_lt hlt
    rw [hr, Prod.mk.injEq] at hread
    exact absurd hread.1 (client.on x).endStatus_ne_ok
  · obtain ⟨reads, hr⟩ := readRequestPayload_of_le hle
    rw [hr, Prod.mk.injEq, Prod.mk.injEq] at hread
    obtain ⟨-, rfl, rfl⟩ := hread
    exact fun hdangles => h ⟨hle, hdangles⟩

/-- How the stream is cut changes neither the status nor the store nor what is sent; only a LST of
the keys without some tags may send one thing or another. A read of `n` bytes gets the next `n`, or
finds that there are fewer. -/
theorem fragments_iff (env : Env) (s : Store) (client : Client) (buffer : Payload)
    (hclosed : client.isClosed = true) :
    ((∀ (x y : Schedule) (stale stale' : StaleReads),
        SameOutcome env stale stale' ⟨s, client.on x, buffer⟩ ⟨s, client.on y, buffer⟩) ↔
      ¬ Dangling buffer.cap client.input) ∧
    (∀ (x y : Schedule) (stale : StaleReads),
      SameOutcome env stale stale ⟨s, client.on x, buffer⟩ ⟨s, client.on y, buffer⟩) ∧
    ∀ (x : Schedule) (n : ℕ), ReadsExactly (client.on x) n := by
  refine ⟨⟨fun h hdangling => ?_, fun h x y stale stale' => ?_⟩, fun x y stale => ?_,
    fun x n => ⟨fun hle => ?_, fun hlt => ?_⟩⟩
  · exact not_sameOutcome hdangling ⟨fun _ => 1, fun _ => 1⟩ (h _ _ _ _)
  · refine sameOutcome (same_on x y) (client.flows_on x)
      (client.flows_on y) fun bs d hread hne halt => ?_
    exact absurd halt (handleRequest_ne_alt hne (not_dangles_of_read h hread))
  · exact sameOutcome (same_on x y) (client.flows_on x) (client.flows_on y) fun _ _ _ _ _ => rfl
  · exact readRequestPayload_of_le hle
  · obtain ⟨reads, hread⟩ := readRequestPayload_of_lt hlt
    rw [hread]
    exact if_pos hclosed

end Schedules

/-- A DEL, read and answered in any pieces. -/
theorem fragments_del :
    ¬ Dangling (reserveBiggestPossiblePayload fun _ => 0).cap
      ((Cmd.del [0x61]).request.toBytes ++ [0x61]) ∧ ∀ (x y : Schedule) (stale stale' : StaleReads),
      SameOutcome (Memory.env (initMemory 0) 0) stale stale'
        ⟨Store.init, (openFile ((Cmd.del [0x61]).request.toBytes ++ [0x61])).on x,
          reserveBiggestPossiblePayload fun _ => 0⟩
        ⟨Store.init, (openFile ((Cmd.del [0x61]).request.toBytes ++ [0x61])).on y,
          reserveBiggestPossiblePayload fun _ => 0⟩ := by
  have hdangling :
      ¬ Dangling (reserveBiggestPossiblePayload fun _ => 0).cap
      ((Cmd.del [0x61]).request.toBytes ++ [0x61]) := by
    rintro ⟨-, -, hop, -⟩
    exact absurd hop (by decide)
  exact ⟨hdangling,
    (fragments_iff _ _ (openFile ((Cmd.del [0x61]).request.toBytes ++ [0x61])) _ rfl).1.mpr
    hdangling⟩

/-- A LST of the keys without no tag at all. -/
theorem not_fragments_matchNone : ¬ ∀ (x y : Schedule) (stale stale' : StaleReads),
    SameOutcome (Memory.env (initMemory 0) 0) stale stale'
      ⟨Store.init, (openFile (Cmd.lst LIST_MODE_MATCH_NONE []).request.toBytes).on x,
        reserveBiggestPossiblePayload fun _ => 0⟩
      ⟨Store.init, (openFile (Cmd.lst LIST_MODE_MATCH_NONE []).request.toBytes).on y,
        reserveBiggestPossiblePayload fun _ => 0⟩ := by
  intro h
  refine not_sameOutcome ?_ ⟨fun _ => 1, fun _ => 1⟩ (h _ _ _ _)
  exact ⟨by
    decide, ⟨by decide, by decide, by decide⟩,
    by decide, by decide, [], by decide, by decide, List.nil_prefix,
    Nat.zero_le _⟩

end Cik

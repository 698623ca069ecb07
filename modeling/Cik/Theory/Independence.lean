import Cik.Theory.Handling
import Cik.Theory.Reading

/-!
# What a reply depends on

A worker uses one buffer for all its requests, so it holds what earlier requests have
left. Two runs of one request that differ in the buffer alone get the same replies,
whatever the store, unless the request is an NFO about a key that is not there, whose
reply sends the beginning of the buffer as it was, or a LST of the keys without some
tags, whose reply is sent through a pointer to a variable that is gone
(`replies_alike_iff`).
-/

namespace Cik

open ByteMemory

/-- Reversing a range at the end of what memories agree on. -/
theorem AgreeBelow.reverseBytes {m m' : ByteMemory} {p len : ℕ}
    (h : AgreeBelow (p + len) m m') {n : UInt32} (hn : n.toNat = len % 2 ^ 32) :
    AgreeBelow (p + len) (reverseBytes m p n) (reverseBytes m' p n) := by
  intro a ha
  have hlast : (n - 1).toNat = (2 ^ 32 - 1 + n.toNat) % 2 ^ 32 := by
    rw [UInt32.toNat_sub]
    rfl
  rw [Cik.reverseBytes, Cik.reverseBytes, reverseLoop_apply _ _ _ _ _ (by omega),
    reverseLoop_apply _ _ _ _ _ (by omega)]
  split_ifs with hin
  · exact h _ (by omega)
  · exact h a ha

/-- The state differs in the buffer alone, and the buffer is as big. -/
structure Ctx.Alike (ctx ctx' : Ctx) : Prop where
  /-- The store. -/
  store : ctx.store = ctx'.store
  /-- The client. -/
  client : ctx.client = ctx'.client
  /-- The size of the buffer. -/
  cap : ctx.payload_buffer.cap = ctx'.payload_buffer.cap

/-! ### Tags -/

/-- Two outcomes of reading tags are the same, and the tags that were read lie where the buffers
agree. -/
structure TagsRead.Alike (r r' : TagsRead) (size : ℕ) : Prop where
  /-- The status. -/
  status : r.status = r'.status
  /-- The tags. -/
  tags : r.tags = r'.tags
  /-- The client. -/
  client : r.client = r'.client
  /-- What is left of the buffer. -/
  buffer_cap : r.buffer_cap = r'.buffer_cap
  /-- The buffers agree on what was read. -/
  agree : r.status = .ok → r.buffer_cap ≤ size ∧ AgreeBelow (size - r.buffer_cap) r.base r'.base ∧
    ∀ tag ∈ r.tags, tag.base + tag.nmemb ≤ size - r.buffer_cap

theorem readTagsLoop_alike (ntags : ℕ) (c : Client) {base base' : ByteMemory} {buffer : ℕ} (cap : ℕ)
    {acc : List Slice} (h : AgreeBelow buffer base base')
    (hacc : ∀ tag ∈ acc, tag.base + tag.nmemb ≤ buffer) :
    (readTagsLoop ntags c base buffer cap acc).Alike (readTagsLoop ntags c base' buffer cap acc)
      (buffer + cap) := by
  induction ntags generalizing c base base' buffer cap acc with
  | zero =>
    refine ⟨rfl, rfl, rfl, rfl, fun _ => ⟨Nat.le_add_left _ _, ?_⟩⟩
    have hsub : buffer + cap - cap = buffer := Nat.add_sub_cancel _ _
    rw [readTagsLoop, readTagsLoop]
    dsimp only
    rw [hsub]
    exact ⟨h, hacc⟩
  | succ ntags ih =>
    rw [readTagsLoop, readTagsLoop]
    obtain ⟨status, bs, c₁⟩ := readRequestPayload c 1
    cases status with
    | ok =>
      dsimp only
      split_ifs with hcap
      · exact ⟨rfl, rfl, rfl, rfl, by simp⟩
      · cases hr : readRequestPayload c₁ (bs.headD 0).toNat with
        | mk status r₂ =>
          obtain ⟨bs₂, c₂⟩ := r₂
          cases status with
          | ok =>
            -- the tag is written over whatever was there
            have hlen := length_of_readRequestPayload hr
            have hw := h.write bs₂
            rw [hlen] at hw
            have hrev := AgreeBelow.reverseBytes hw (n := (bs.headD 0).toUInt32) (by
              have := (bs.headD 0).toNat_lt
              rw [UInt8.toNat_toUInt32]
              omega)
            have hsize :
              buffer + cap = buffer + (bs.headD 0).toNat + (cap - (bs.headD 0).toNat) := by omega
            rw [hsize]
            refine ih c₂ _ hrev fun tag ht => ?_
            rcases List.mem_append.mp ht with ht | ht
            · exact (hacc tag ht).trans (Nat.le_add_right _ _)
            · obtain rfl := List.mem_singleton.mp ht
              exact Nat.le_refl _
          | _ => exact ⟨rfl, rfl, rfl, rfl, by simp⟩
    | _ => exact ⟨rfl, rfl, rfl, rfl, by simp⟩

/-- Reading tags comes to the same, and the buffers agree on the tags. -/
theorem readTagsUsingPayloadBuffer_alike {ctx ctx' : Ctx} (h : ctx.Alike ctx') (ntags : UInt8) :
    ∃ status slices c c', readTagsUsingPayloadBuffer ctx ntags = (status, slices, c) ∧
      readTagsUsingPayloadBuffer ctx' ntags = (status, slices, c') ∧ c.Alike c' ∧
      (status = .ok → c.payload_buffer.nmemb = c'.payload_buffer.nmemb ∧
        (slices.map fun tag => tag.bytes c.payload_buffer.base) =
          slices.map fun tag => tag.bytes c'.payload_buffer.base) := by
  obtain ⟨s, c, ⟨base, nmemb, cap⟩⟩ := ctx
  obtain ⟨s', c', ⟨base', nmemb', cap'⟩⟩ := ctx'
  obtain ⟨rfl, rfl, rfl⟩ : s = s' ∧ c = c' ∧ cap = cap' := ⟨h.store, h.client, h.cap⟩
  have hr := @readTagsLoop_alike ntags.toNat c base base' 0 cap [] (.zero _ _) fun _ h => nomatch h
  refine ⟨_, _, _, (readTagsUsingPayloadBuffer ⟨s, c, ⟨base', nmemb', cap⟩⟩ ntags).2.2, rfl,
    Prod.ext hr.status.symm (Prod.ext hr.tags.symm rfl), ⟨rfl, hr.client, rfl⟩, fun hok => ?_⟩
  obtain ⟨-, hagree, hle⟩ := hr.agree hok
  rw [Nat.zero_add] at hagree hle
  refine ⟨?_, List.map_congr_left fun tag ht => hagree.read (hle tag ht)⟩
  have hok' := hr.status.symm.trans hok
  rw [readTagsUsingPayloadBuffer]
  dsimp only
  rw [if_pos hok, if_pos hok', hr.buffer_cap]

/-! ### Handlers -/

/-- Two replies are the same; if they are to be sent from the buffer, the buffers agree on them.
When the connection is closed instead, nothing is sent. -/
structure Handled.Alike (h h' : Handled) : Prop where
  /-- The status. -/
  status : h.status = h'.status
  /-- Where the payload is sent from. -/
  pointer : h.response_payload = h'.response_payload
  /-- This is not a variable that is gone. -/
  valid : h.response_payload ≠ .altPayload
  /-- The client. -/
  client : h.ctx.client = h'.ctx.client
  /-- The payload. -/
  payload : h.status.has MASK_INTERNAL_ERROR = false → h.response_payload = .payloadBuffer →
    h.ctx.payload_buffer.nmemb = h'.ctx.payload_buffer.nmemb ∧
      AgreeBelow h.ctx.payload_buffer.nmemb h.ctx.payload_buffer.base h'.ctx.payload_buffer.base

/-- Replies without a payload. -/
theorem Handled.Alike.null {h h' : Handled} (hs : h.status = h'.status)
    (hp : h.response_payload = .null) (hp' : h'.response_payload = .null)
    (hc : h.ctx.client = h'.ctx.client) : h.Alike h' where
  status := hs
  pointer := hp.trans hp'.symm
  valid := fun ha => by rw [hp] at ha; cases ha
  client := hc
  payload := fun _ hb => by rw [hp] at hb; cases hb

section Handlers

variable {env : Env} {ctx ctx' : Ctx} {r : Request}

theorem handleGetRequest_alike (h : ctx.Alike ctx') :
    (handleGetRequest env ctx r).Alike (handleGetRequest env ctx' r) := by
  obtain ⟨s, c, ⟨base, nmemb, cap⟩⟩ := ctx
  obtain ⟨s', c', ⟨base', nmemb', cap'⟩⟩ := ctx'
  obtain ⟨rfl, rfl, rfl⟩ : s = s' ∧ c = c' ∧ cap = cap' := ⟨h.store, h.client, h.cap⟩
  unfold handleGetRequest
  dsimp only
  obtain ⟨status, key, client⟩ := readRequestKey c r.gKlen
  cases status with
  | ok =>
    dsimp only
    cases lockAndGetCacheEntry (s.mapOf key) key with
    | none => exact .null rfl rfl rfl rfl
    | some found =>
      dsimp only
      split_ifs
      · exact .null rfl rfl rfl rfl
      · exact .null rfl rfl rfl rfl
      · refine ⟨rfl, rfl, nofun, rfl, fun _ _ => ⟨rfl, ?_⟩⟩
        have hw := (AgreeBelow.zero base base').write found.2.value
        rwa [Nat.zero_add] at hw
      · exact .null rfl rfl rfl rfl
  | _ => exact .null rfl rfl rfl rfl

theorem handleSetRequest_alike (h : ctx.Alike ctx') :
    (handleSetRequest env ctx r).Alike (handleSetRequest env ctx' r) := by
  obtain ⟨s, c, b⟩ := ctx
  obtain ⟨s', c', b'⟩ := ctx'
  obtain ⟨rfl, rfl⟩ : s = s' ∧ c = c' := ⟨h.store, h.client⟩
  unfold handleSetRequest
  dsimp only
  obtain ⟨status, key, client⟩ := readRequestKey c r.sKlen
  cases status with
  | ok =>
    dsimp only
    split_ifs
    · cases lockAndGetCacheEntry (s.mapOf key) key <;> exact .null rfl rfl rfl rfl
    · have hkey : (Ctx.mk s client b).Alike ⟨s, client, b'⟩ := ⟨rfl, rfl, h.cap⟩
      obtain ⟨status, slices, c, c', h₁, h₂, ha, hok⟩ :=
        readTagsUsingPayloadBuffer_alike hkey r.sNtags
      rw [h₁, h₂]
      cases status with
      | ok =>
        dsimp only
        cases env.reserve
            (entrySize (setTotalSize (slices.map Slice.nmemb) r.sKlen (ntohl r.sVlen))) with
        | none => exact .null rfl rfl rfl ha.client
        | some n =>
          dsimp only
          rw [ha.client, ha.store, (hok rfl).2]
          obtain ⟨status, value, client⟩ := readRequestPayload c'.client (ntohl r.sVlen).toNat
          cases status <;> exact .null rfl rfl rfl rfl
      | _ => exact .null rfl rfl rfl ha.client
  | _ => exact .null rfl rfl rfl rfl

theorem handleDelRequest_alike (h : ctx.Alike ctx') :
    (handleDelRequest ctx r).Alike (handleDelRequest ctx' r) := by
  unfold handleDelRequest
  rw [h.store, h.client]
  obtain ⟨status, key, client⟩ := readRequestKey ctx'.client r.dKlen
  cases status <;> exact .null rfl rfl rfl rfl

theorem handleClrRequest_alike (h : ctx.Alike ctx') :
    (handleClrRequest env ctx r).Alike (handleClrRequest env ctx' r) := by
  obtain ⟨status, slices, c, c', h₁, h₂, ha, -⟩ := readTagsUsingPayloadBuffer_alike h r.cNtags
  unfold handleClrRequest
  rw [h₁, h₂]
  cases status with
  | ok =>
    have hs (status : StatusCode) (s s' : Store) :
      (Handled.mk status .null { c with store := s }).Alike
        ⟨status, .null, { c' with store := s' }⟩ := .null rfl rfl rfl ha.client
    dsimp only
    split_ifs
    · exact hs _ _ _
    · exact hs _ _ _
    · exact hs _ _ _
    · exact hs _ _ _
    · exact hs _ _ _
    · exact hs _ c.store c'.store
  | _ => exact .null rfl rfl rfl ha.client

/-! ### Listings -/

/-- Two listings are the same as far as they are written. -/
structure ListData.Alike (data data' : ListData) : Prop where
  /-- The status. -/
  status : data.status = data'.status
  /-- Where the payload begins. -/
  offset : data.offset = data'.offset
  /-- How many bytes are written. -/
  nmemb : data.nmemb = data'.nmemb
  /-- How many there is room for. -/
  cap : data.cap = data'.cap
  /-- The bytes. -/
  agree : AgreeBelow (data.offset + data.nmemb) data.base data'.base

/-- A name is written over whatever was there. -/
theorem AgreeBelow.writeName {m m' : ByteMemory} {p : ℕ} (h : AgreeBelow p m m')
    (name : List UInt8) :
    AgreeBelow (p + 1 + name.length) (writeName m p name) (writeName m' p name) := by
  have hw := (h.write [UInt8.ofNat name.length]).write name
  exact AgreeBelow.reverseBytes hw UInt32.toNat_ofNat'

theorem ListData.Alike.putName {data data' : ListData} (h : data.Alike data') (name : List UInt8) :
    (putName name data).Alike (putName name data') := by
  obtain ⟨status, base, offset, nmemb, cap⟩ := data
  obtain ⟨status', base', offset', nmemb', cap'⟩ := data'
  obtain ⟨rfl, rfl, rfl, rfl⟩ : status = status' ∧ offset = offset' ∧ nmemb = nmemb' ∧ cap = cap' :=
    ⟨h.status, h.offset, h.nmemb, h.cap⟩
  rw [putName_eq, putName_eq]
  dsimp only
  split_ifs
  · exact ⟨rfl, rfl, rfl, rfl, h.agree⟩
  · refine ⟨rfl, rfl, rfl, rfl, ?_⟩
    have hw := AgreeBelow.writeName h.agree name
    rwa [Nat.add_assoc (offset + nmemb), Nat.add_assoc offset, ← Nat.add_assoc nmemb] at hw

theorem ListData.Alike.foldl {data data' : ListData} (h : data.Alike data')
    (names : List (List UInt8)) :
    (names.foldl
      (fun data name => if data.status ≠ .ok then data else Cik.putName name data) data).Alike
      (names.foldl
        (fun data name => if data.status ≠ .ok then data else Cik.putName name data) data') := by
  induction names generalizing data data' with
  | nil => exact h
  | cons name names ih =>
    rw [List.foldl_cons, List.foldl_cons]
    refine ih ?_
    rw [h.status]
    split_ifs
    · exact h
    · exact h.putName name

theorem handleLstRequest_unknown {slices : List Slice} {c : Ctx}
    (h : readTagsUsingPayloadBuffer ctx r.cNtags = (.ok, slices, c))
    (hmode : ¬ r.cMode ≤ LIST_MODE_MATCH_ANY) :
    handleLstRequest ctx r = ⟨.protocolError, .null, c⟩ := by
  have hne (mode : UInt8) (hle : mode ≤ LIST_MODE_MATCH_ANY) : r.cMode ≠ mode :=
    fun heq => hmode (heq ▸ hle)
  unfold handleLstRequest
  rw [h]
  dsimp only
  rw [if_neg (hne _ (by decide)), if_neg (hne _ (by decide)), if_neg (hne _ (by decide)),
    if_neg (hne _ (by decide)), if_neg (hne _ (by decide))]

/-- A LST that is not of the keys without some tags. -/
theorem handleLstRequest_alike (h : ctx.Alike ctx')
    (hne : (readTagsUsingPayloadBuffer ctx r.cNtags).1 = .ok → r.cMode ≠ LIST_MODE_MATCH_NONE) :
    (handleLstRequest ctx r).Alike (handleLstRequest ctx' r) := by
  obtain ⟨status, slices, c, c', h₁, h₂, ha, hok⟩ := readTagsUsingPayloadBuffer_alike h r.cNtags
  by_cases hs : status = .ok
  · subst hs
    have hm := hne (by rw [h₁])
    by_cases hmode : r.cMode ≤ LIST_MODE_MATCH_ANY
    · rw [handleLstRequest_eq h₁ hmode, handleLstRequest_eq h₂ hmode]
      have hl : (lstPayload c slices r.cMode).Alike (lstPayload c' slices r.cMode) := by
        rw [lstPayload_walk slices hmode hm, lstPayload_walk slices hmode hm, ha.store,
          (hok rfl).2, ha.cap]
        have h₀ (cap : ℕ) : (ListData.mk .ok c.payload_buffer.base 0 0 cap).Alike
            ⟨.ok, c'.payload_buffer.base, 0, 0, cap⟩ := ⟨rfl, rfl, rfl, rfl, .zero _ _⟩
        exact (h₀ _).foldl _
      refine ⟨hl.status, rfl, by rw [if_neg hm]; nofun, ha.client, fun _ _ => ⟨?_, ?_⟩⟩
      · simp only [Ctx.listed, if_neg hm]
        exact hl.nmemb
      · simp only [Ctx.listed, if_neg hm]
        exact hl.agree.mono (Nat.le_add_left _ _)
    · rw [handleLstRequest_unknown h₁ hmode, handleLstRequest_unknown h₂ hmode]
      exact .null rfl rfl rfl ha.client
  · unfold handleLstRequest
    rw [h₁, h₂]
    cases status with
    | ok => exact absurd rfl hs
    | _ => exact .null rfl rfl rfl ha.client

/-! ### NFO -/

@[simp] theorem length_store64 (x : UInt64) : (store64 x).length = 8 := ByteOrder.length_leBytes ..

theorem nfoTags_alike (tags : List CacheTag) {m m' : ByteMemory} {p : ℕ}
    (h : AgreeBelow p m m') (cap : ℕ) :
    (nfoTags tags m p p cap).2 = (nfoTags tags m' p p cap).2 ∧
      AgreeBelow (nfoTags tags m p p cap).2.1 (nfoTags tags m p p cap).1
        (nfoTags tags m' p p cap).1 := by
  induction tags generalizing m m' p with
  | nil => exact ⟨rfl, h⟩
  | cons tag tags ih =>
    rw [nfoTags, nfoTags]
    split_ifs with hfit
    · exact ⟨rfl, h⟩
    · exact ih (AgreeBelow.writeName h tag)

/-- An NFO, unless it is about a key that is not there. -/
theorem handleNfoRequest_alike (h : ctx.Alike ctx') (hfound : 0 < r.nKlen → ∀ key client,
    readRequestKey ctx.client r.nKlen = (.ok, key, client) →
    lockAndGetCacheEntry (ctx.store.mapOf key) key ≠ none) :
    (handleNfoRequest env ctx r).Alike (handleNfoRequest env ctx' r) := by
  obtain ⟨s, c, ⟨base, nmemb, cap⟩⟩ := ctx
  obtain ⟨s', c', ⟨base', nmemb', cap'⟩⟩ := ctx'
  obtain ⟨rfl, rfl, rfl⟩ : s = s' ∧ c = c' ∧ cap = cap' := ⟨h.store, h.client, h.cap⟩
  unfold handleNfoRequest
  dsimp only
  by_cases hpos : r.nKlen > 0
  · rw [if_pos hpos, if_pos hpos]
    cases hread : readRequestKey c r.nKlen with
    | mk status read =>
      obtain ⟨key, client⟩ := read
      have hint := status_readRequestPayload c r.nKlen.toNat
      rw [← status_readRequestKey, hread] at hint
      cases status with
      | ok =>
        dsimp only
        cases hget : lockAndGetCacheEntry (s.mapOf key) key with
        | none => exact absurd hget (hfound hpos key client hread)
        | some found =>
          -- the times are written over the first sixteen bytes, the tags behind them
          have htimes :=
            ((AgreeBelow.zero base base').write (store64 (htonll found.2.expires))).write
            (store64 (htonll found.2.mtime))
          rw [length_store64, length_store64] at htimes
          obtain ⟨htags, hagree⟩ := nfoTags_alike found.2.tags htimes cap
          dsimp only [Nat.zero_add, Nat.reduceAdd] at htags hagree ⊢
          rw [sizeofNFOResponsePayload]
          revert htags hagree
          generalize nfoTags found.2.tags _ 16 16 cap = written
          generalize nfoTags found.2.tags _ 16 16 cap = written'
          intro htags hagree
          obtain ⟨base₁, rest⟩ := written
          obtain ⟨base₂, rest'⟩ := written'
          obtain rfl : rest = rest' := htags
          exact ⟨rfl, rfl, nofun, rfl, fun _ _ => ⟨rfl, hagree⟩⟩
      | _ =>
        refine ⟨rfl, rfl, nofun, rfl, fun hopen => ?_⟩
        exact absurd (hopen.symm.trans (hint.resolve_left nofun)) Bool.false_ne_true
  · rw [if_neg hpos, if_neg hpos]
    refine ⟨rfl, rfl, nofun, rfl, fun _ _ => ⟨rfl, ?_⟩⟩
    have hinfo := (AgreeBelow.zero base base').write (store32 (htonl env.info.bytes_reserved) ++
      store32 (htonl env.info.bytes_used) ++ store32 (htonl env.info.bytes_free) ++
      store32 (htonl env.info.bytes_reused))
    simp only [List.length_append, length_store32] at hinfo
    exact hinfo

/-! ### All requests -/

/-- The tags of a LST are there, none of them is empty, and they fit the buffer. -/
def Request.TagsAre (r : Request) (cap : ℕ) (input : List UInt8) (tags : List CacheTag) : Prop :=
  tags.length = r.cNtags.toNat ∧ (∀ tag ∈ tags, tag ≠ [] ∧ tag.length ≤ 255) ∧
    wireTags tags <+: input ∧ (tags.map List.length).sum ≤ cap

/-- A LST of the keys without some tags whose tags are there, or an NFO about a key that is there
but not in the store. -/
def Request.Exposes (r : Request) (s : Store) (cap : ℕ) (input : List UInt8) : Prop :=
  r.HasControl ∧
    ((r.op = CMD_BYTE_LST ∧ r.cMode = LIST_MODE_MATCH_NONE ∧ ∃ tags, r.TagsAre cap input tags) ∨
      (r.op = CMD_BYTE_NFO ∧ 0 < r.nKlen ∧ r.nKlen.toNat ≤ input.length ∧
        s.current (input.take r.nKlen.toNat).reverse = none))

/-- A key that is not empty is read when it is there. -/
theorem readRequestKey_ok_iff {c : Client} {klen : UInt8} (hpos : 0 < klen) {key : CacheKey} :
    (∃ c', readRequestKey c klen = (.ok, key, c')) ↔
      klen.toNat ≤ c.input.length ∧ key = (c.input.take klen.toNat).reverse := by
  have hpos' : 0 < klen.toUInt32.toNat := by
    rw [UInt8.toNat_toUInt32]
    exact UInt8.lt_iff_toNat_lt.mp hpos
  rcases Nat.lt_or_ge c.input.length klen.toNat with hlt | hle
  · obtain ⟨reads, hr⟩ := readRequestPayload_of_lt hlt
    refine iff_of_false (fun ⟨c', h⟩ => ?_) fun h => absurd hlt (Nat.not_lt.mpr h.1)
    have hst := status_readRequestKey c klen
    rw [h, hr] at hst
    exact c.endStatus_ne_ok hst.symm
  · obtain ⟨reads, hr⟩ := readRequestPayload_of_le hle
    have hlen :
      (c.input.take klen.toNat).length = klen.toNat := by rw [List.length_take, min_eq_left hle]
    have hrev :=
      read_reverseBytes (ByteMemory.write (fun _ => 0) 0 (c.input.take klen.toNat)) 0 hpos'
    have hw := ByteMemory.read_write_self (fun _ => 0) 0 (c.input.take klen.toNat)
    rw [hlen] at hw
    rw [UInt8.toNat_toUInt32, hw] at hrev
    rw [readRequestKey, hr]
    dsimp only
    rw [hrev]
    constructor
    · rintro ⟨c', h⟩
      rw [Prod.mk.injEq, Prod.mk.injEq] at h
      exact ⟨hle, h.2.1.symm⟩
    · rintro ⟨-, rfl⟩
      exact ⟨_, rfl⟩

theorem wireTags_cons (tag : CacheTag) (tags : List CacheTag) :
    wireTags (tag :: tags) = UInt8.ofNat tag.length :: (tag.reverse ++ wireTags tags) := by
  rw [wireTags, List.flatMap_cons, List.cons_append]
  rfl

/-- The first tag of a list that begins a stream. -/
theorem wireTags_cons_prefix {tag : CacheTag} {tags : List CacheTag} {b : UInt8} {rest : List UInt8}
    (hle : tag.length ≤ 255) (hpre : wireTags (tag :: tags) <+: b :: rest) : tag.length = b.toNat ∧
    tag.reverse ++ wireTags tags <+: rest := by
  rw [wireTags_cons, List.cons_prefix_cons] at hpre
  exact ⟨by rw [← hpre.1, toNat_ofNat_length hle], hpre.2⟩

/-- There are so many tags at the beginning of a stream, and no more bytes of them than that. -/
def TagsBegin (ntags : ℕ) (input : List UInt8) (cap : ℕ) : Prop :=
  ∃ tags : List CacheTag, tags.length = ntags ∧ (∀ tag ∈ tags, tag.length ≤ 255) ∧
    wireTags tags <+: input ∧ (tags.map List.length).sum ≤ cap

theorem tagsBegin_zero (input : List UInt8) (cap : ℕ) : TagsBegin 0 input cap :=
  ⟨[], rfl, fun _ h => (List.not_mem_nil h).elim, List.nil_prefix, Nat.zero_le _⟩

theorem not_tagsBegin_nil {ntags cap : ℕ} : ¬ TagsBegin (ntags + 1) [] cap := by
  rintro ⟨tags, hlen, -, hpre, -⟩
  obtain ⟨tag, tags, rfl⟩ := List.exists_cons_of_length_eq_add_one hlen
  rw [wireTags_cons] at hpre
  exact absurd (List.prefix_nil.mp hpre) (List.cons_ne_nil _ _)

theorem tagsBegin_cons {ntags cap : ℕ} {b : UInt8} {rest : List UInt8} :
    TagsBegin (ntags + 1) (b :: rest) cap ↔ b.toNat ≤ cap ∧ b.toNat ≤ rest.length ∧
    TagsBegin ntags (rest.drop b.toNat) (cap - b.toNat) := by
  constructor
  · rintro ⟨tags, hlen, hle, hpre, hsum⟩
    obtain ⟨tag, tags, rfl⟩ := List.exists_cons_of_length_eq_add_one hlen
    obtain ⟨htag, t, rfl⟩ := wireTags_cons_prefix (hle tag List.mem_cons_self) hpre
    rw [List.map_cons, List.sum_cons] at hsum
    refine ⟨by omega, ?_, tags, Nat.succ.inj hlen, fun t ht => hle t (List.mem_cons_of_mem _
      ht), ?_, by omega⟩
    · rw [List.append_assoc, List.length_append, List.length_reverse, htag]
      exact Nat.le_add_right _ _
    · rw [List.append_assoc, List.drop_left' (by rw [List.length_reverse, htag])]
      exact List.prefix_append _ _
  · rintro ⟨hcap, hlen, tags, rfl, hle, hpre, hsum⟩
    have htake : (rest.take b.toNat).length = b.toNat := by
      rw [List.length_take]
      omega
    have hb := b.toNat_lt
    refine ⟨(rest.take b.toNat).reverse :: tags, rfl, ?_, ?_, ?_⟩
    · intro tag ht
      rcases List.mem_cons.mp ht with rfl | ht
      · rw [List.length_reverse, htake]
        omega
      · exact hle tag ht
    · rw [wireTags_cons, List.cons_prefix_cons, List.length_reverse, htake, List.reverse_reverse]
      refine ⟨UInt8.ofNat_toNat, ?_⟩
      have happ := (List.prefix_append_right_inj (rest.take b.toNat)).mpr hpre
      rwa [List.take_append_drop] at happ
    · rw [List.map_cons, List.sum_cons, List.length_reverse, htake]
      omega

/-- Tags are read when they are there and fit the buffer. -/
theorem readTagsLoop_ok_iff {ntags : ℕ} {c : Client} {base : ByteMemory} {buffer cap : ℕ}
    {acc : List Slice} :
    (readTagsLoop ntags c base buffer cap acc).status = .ok ↔ TagsBegin ntags c.input cap := by
  induction ntags generalizing c base buffer cap acc with
  | zero => exact iff_of_true rfl (tagsBegin_zero _ _)
  | succ ntags ih =>
    rw [readTagsLoop]
    cases hc : c.input with
    | nil =>
      obtain ⟨status, bs, c', hr, hst, -⟩ :=
        readRequestPayload_starved (c := c) (n := 1) (by rw [hc]; decide)
      rw [hr]
      exact iff_of_false (by cases status <;> first | exact hst | exact absurd rfl hst)
        not_tagsBegin_nil
    | cons b rest =>
      have hin : c.input = [b] ++ rest := hc
      obtain ⟨r₁, h₁⟩ := readRequestPayload_append hin (n := 1) rfl
      have hin₁ := Client.advance_input hin (n := 1) rfl r₁
      have hb : [b].headD 0 = b := rfl
      rw [h₁, tagsBegin_cons]
      dsimp only
      rw [hb]
      by_cases hcap : b.toNat > cap
      · rw [if_pos hcap]
        exact iff_of_false (by simp) fun h => absurd hcap (Nat.not_lt.mpr h.1)
      rw [if_neg hcap]
      by_cases hshort : rest.length < b.toNat
      · obtain ⟨status, bs, c', hr, hst, -⟩ :=
          readRequestPayload_starved (c := c.advance 1 r₁) (n := b.toNat)
          (by rwa [hin₁])
        rw [hr]
        exact iff_of_false (by cases status <;> first | exact hst | exact absurd rfl hst)
          fun h => absurd hshort (Nat.not_lt.mpr h.2.1)
      · obtain ⟨r₂, h₂⟩ :=
          readRequestPayload_of_le (c := c.advance 1 r₁) (n := b.toNat) (by rw [hin₁]; omega)
        have hin₂ : ((c.advance 1 r₁).advance b.toNat r₂).input = rest.drop b.toNat := by
          rw [Client.advance, hin₁]
        rw [h₂]
        dsimp only
        rw [ih, hin₂]
        exact (and_iff_right (Nat.le_of_not_gt hcap)).trans
          (and_iff_right (Nat.le_of_not_gt hshort)) |>.symm

theorem readTagsUsingPayloadBuffer_ok_iff {ntags : UInt8} :
    (readTagsUsingPayloadBuffer ctx ntags).1 = .ok ↔ ∃ tags : List CacheTag,
    tags.length = ntags.toNat ∧
      (∀ tag ∈ tags, tag.length ≤ 255) ∧ wireTags tags <+: ctx.client.input ∧
        (tags.map List.length).sum ≤ ctx.payload_buffer.cap :=
  readTagsLoop_ok_iff

theorem readsEmptyName_lst {client : Client} {buffer : Payload} (hctl : r.HasControl)
    (hop : r.op = CMD_BYTE_LST) :
    readsEmptyName client buffer r =
    (readTagsLoop r.cNtags.toNat client buffer.base 0 buffer.cap []).hasEmpty := by
  obtain ⟨h₀, h₁, h₂⟩ := hctl
  rw [readsEmptyName, if_neg (by simp [h₀, h₁, h₂]), hop]
  rfl

theorem readsEmptyName_nfo {client : Client} {buffer : Payload} (hctl : r.HasControl)
    (hop : r.op = CMD_BYTE_NFO) :
    readsEmptyName client buffer r = false := by
  obtain ⟨h₀, h₁, h₂⟩ := hctl
  rw [readsEmptyName, if_neg (by simp [h₀, h₁, h₂]), hop]
  rfl

/-- None of the tags that are read is empty just when none of those that are there is. -/
theorem hasEmpty_eq_false_iff {slices : List Slice} {tags : List CacheTag}
    (h : slices.map Slice.nmemb = tags.map List.length) :
    (slices.any fun tag => tag.nmemb == 0) = false ↔ ∀ tag ∈ tags, tag ≠ [] := by
  have hany (n : ℕ) : n ∈ slices.map Slice.nmemb ↔ n ∈ tags.map List.length := by rw [h]
  simp only [List.mem_map] at hany
  rw [List.any_eq_false]
  constructor
  · rintro hne tag htag rfl
    obtain ⟨slice, hslice, hzero⟩ := (hany 0).mpr ⟨[], htag, rfl⟩
    exact hne slice hslice (by simp [hzero])
  · rintro hne slice hslice hzero
    obtain ⟨tag, htag, hlen⟩ := (hany 0).mp ⟨slice, hslice, by simpa using hzero⟩
    exact hne tag htag (List.length_eq_zero_iff.mp hlen)

/-- The tags of a LST are read, and none of them is empty, just when they are there. -/
theorem Request.exists_tagsAre_iff :
    (∃ tags, r.TagsAre ctx.payload_buffer.cap ctx.client.input tags) ↔
    (readTagsUsingPayloadBuffer ctx r.cNtags).1 = .ok ∧
      (readTagsLoop r.cNtags.toNat ctx.client ctx.payload_buffer.base 0 ctx.payload_buffer.cap
        []).hasEmpty = false := by
  have hempty {tags : List CacheTag} (hn : tags.length = r.cNtags.toNat)
    (hlen : ∀ tag ∈ tags, tag.length ≤ 255)
      (hin : wireTags tags <+: ctx.client.input)
      (hsum : (tags.map List.length).sum ≤ ctx.payload_buffer.cap) :
      (readTagsLoop r.cNtags.toNat ctx.client ctx.payload_buffer.base 0 ctx.payload_buffer.cap
        []).hasEmpty = false ↔ ∀ tag ∈ tags, tag ≠ [] := by
    obtain ⟨rest, hin⟩ := hin
    obtain ⟨reads, slices, base, hread, hm, -⟩ :=
      readTagsUsingPayloadBuffer_of_le hlen hin.symm hsum hn.symm
    have hslices :
      (readTagsLoop r.cNtags.toNat ctx.client ctx.payload_buffer.base 0
      ctx.payload_buffer.cap []).tags = slices := congrArg (fun r => r.2.1) hread
    rw [TagsRead.hasEmpty, hslices, hasEmpty_eq_false_iff hm]
  constructor
  · rintro ⟨tags, hn, htags, hin, hsum⟩
    have hlen (tag : CacheTag) (htag : tag ∈ tags) : tag.length ≤ 255 := (htags tag htag).2
    exact ⟨readTagsUsingPayloadBuffer_ok_iff.mpr ⟨tags, hn, hlen, hin, hsum⟩,
      (hempty hn hlen hin hsum).mpr fun tag htag => (htags tag htag).1⟩
  · rintro ⟨hok, hne⟩
    obtain ⟨tags, hn, hlen, hin, hsum⟩ := readTagsUsingPayloadBuffer_ok_iff.mp hok
    exact ⟨tags, hn, fun tag htag => ⟨(hempty hn hlen hin hsum).mp hne tag htag, hlen tag htag⟩,
      hin, hsum⟩

/-- Two states that differ in the buffer alone come to an empty name or not. -/
theorem readsEmptyName_alike (h : ctx.Alike ctx') (r : Request) :
    readsEmptyName ctx.client ctx.payload_buffer r =
    readsEmptyName ctx'.client ctx'.payload_buffer r := by
  have htags (n : ℕ) (c : Client) :
    (readTagsLoop n c ctx.payload_buffer.base 0 ctx.payload_buffer.cap []).hasEmpty =
      (readTagsLoop n c ctx'.payload_buffer.base 0 ctx'.payload_buffer.cap []).hasEmpty := by
    have hr :=
      @readTagsLoop_alike n c ctx.payload_buffer.base ctx'.payload_buffer.base 0
      ctx.payload_buffer.cap [] (.zero _ _) fun _ h => nomatch h
    rw [TagsRead.hasEmpty, hr.tags, h.cap]
    rfl
  have hset : (setTagsRead ctx.client ctx.payload_buffer r).any TagsRead.hasEmpty =
      (setTagsRead ctx.client ctx'.payload_buffer r).any TagsRead.hasEmpty := by
    unfold setTagsRead
    obtain ⟨status, key, client⟩ := readRequestKey ctx.client r.sKlen
    cases status with
    | ok =>
      dsimp only
      split_ifs
      · rfl
      · exact htags _ _
    | _ => rfl
  rw [readsEmptyName, readsEmptyName, ← h.client, hset, htags]

theorem current_eq_none_iff_get {s : Store} {key : CacheKey} :
    s.current key = none ↔ lockAndGetCacheEntry (s.mapOf key) key = none := Option.map_eq_none_iff

/-- A request that exposes nothing gets the same reply. -/
theorem handleRequest_alike (h : ctx.Alike ctx')
    (hne : readsEmptyName ctx.client ctx.payload_buffer r = false)
    (hr : ¬ r.Exposes ctx.store ctx.payload_buffer.cap ctx.client.input) :
    (handleRequest env ctx r).Alike (handleRequest env ctx' r) := by
  unfold handleRequest
  split_ifs with hctl hget hset hdel hclr hlst hnfo
  · exact .null rfl rfl rfl h.client
  · exact handleGetRequest_alike h
  · exact handleSetRequest_alike h
  · exact handleDelRequest_alike h
  · exact handleClrRequest_alike h
  · push Not at hctl
    refine handleLstRequest_alike h fun hok hmode => hr ⟨hctl, Or.inl ⟨hlst, hmode, ?_⟩⟩
    rw [readsEmptyName_lst hctl hlst] at hne
    exact Request.exists_tagsAre_iff.mpr ⟨hok, hne⟩
  · push Not at hctl
    refine handleNfoRequest_alike h fun hpos key client hread hnone =>
      hr ⟨hctl, Or.inr ⟨hnfo, hpos, ?_⟩⟩
    obtain ⟨hle, rfl⟩ := (readRequestKey_ok_iff hpos).mp ⟨client, hread⟩
    exact ⟨hle, current_eq_none_iff_get.mpr hnone⟩
  · exact .null rfl rfl rfl h.client

end Handlers

/-! ### What is sent -/

/-- What is sent depends on the client, the response and the payload. -/
theorem writeReply_congr {h h' : Handled} {stale stale' : StaleReads}
    (hc : h.ctx.client = h'.ctx.client) (hr : h.response stale = h'.response stale')
    (hp : h.payloadBytes stale = h'.payloadBytes stale') :
    (writeReply stale h).client = (writeReply stale' h').client := by
  unfold writeReply
  rw [hc, hr, hp]
  dsimp only
  split_ifs <;> rfl

theorem Handled.Alike.client_writeReply {h h' : Handled} (ha : h.Alike h')
    (hopen : h.status.has MASK_INTERNAL_ERROR = false) (stale stale' : StaleReads) :
    (writeReply stale h).client = (writeReply stale' h').client := by
  have hsame : h.payloadSize stale = h'.payloadSize stale' ∧
      h.payloadBytes stale = h'.payloadBytes stale' := by
    unfold Handled.payloadSize Handled.payloadBytes
    rw [← ha.pointer]
    cases hp : h.response_payload with
    | null => exact ⟨rfl, rfl⟩
    | payloadBuffer =>
      obtain ⟨hn, hagree⟩ := ha.payload hopen hp
      rw [← hn]
      exact ⟨rfl, hagree.read (Nat.le_of_eq (Nat.zero_add _))⟩
    | altPayload => exact absurd hp ha.valid
  refine writeReply_congr ha.client ?_ hsame.2
  rw [Handled.response, Handled.response, ha.status, hsame.1]

/-- A worker that gets a header handles the request, and sends the reply unless it closes the
connection. -/
theorem processRequest_eq {client : Client} (h : 16 ≤ client.input.length) :
    ∃ reads, ∀ env stale s buffer, processRequest env stale ⟨s, client, buffer⟩ =
      if readsEmptyName (client.advance 16 reads) buffer
        (Request.ofBytes (client.input.take 16)) then
        ⟨s, (client.advance 16 reads).close, buffer⟩
      else
        let h :=
  handleRequest env ⟨s, client.advance 16 reads, buffer⟩ (Request.ofBytes (client.input.take 16))
        if h.status.has MASK_INTERNAL_ERROR then h.ctx.withClient h.ctx.client.close
          else writeReply stale h := by
  obtain ⟨reads, hr⟩ := readRequestPayload_of_le h
  refine ⟨reads, fun env stale s buffer => ?_⟩
  rw [processRequest, hr]
  rfl

theorem processRequest_starved {client : Client} (h : client.input.length < 16) (env : Env)
    (stale : StaleReads) (s : Store) (buffer : Payload) :
    (processRequest env stale ⟨s, client, buffer⟩).client.sent = client.sent := by
  obtain ⟨reads, hr⟩ := readRequestPayload_of_lt h
  have hint : client.endStatus.has MASK_INTERNAL_ERROR = true := client.endStatus_has_internal
  rw [processRequest, hr]
  dsimp only
  rw [if_pos hint]
  rfl

/-- Each send transfers something. -/
def Client.Flows (c : Client) : Prop := ∀ i, ∃ n, 0 < n ∧ c.sends i = some n

/-- Then all is sent. -/
theorem writeLoop_of_flows {fuel : ℕ} {c : Client} {bs : List UInt8} (hs : c.Flows)
    (hf : bs.length ≤ fuel) (h₀ : 0 < bs.length) :
    ∃ sends, writeLoop fuel c bs = (.ok, { c with sent := c.sent ++ bs, sends := sends }) ∧
      ∀ i, ∃ n, 0 < n ∧ sends i = some n := by
  induction fuel generalizing c bs with
  | zero => omega
  | succ fuel ih =>
    obtain ⟨n, hn, hsend⟩ := hs 0
    obtain ⟨k, hpos, hle, hk⟩ : ∃ k, 0 < k ∧ k ≤ bs.length ∧ min n bs.length = k :=
      ⟨_, Nat.lt_min.mpr ⟨hn, h₀⟩, Nat.min_le_right _ _, rfl⟩
    let c' : Client := { c with sent := c.sent ++ bs.take k, sends := fun i => c.sends (i + 1) }
    have hflows : c'.Flows := fun i => hs (i + 1)
    have hstep : writeLoop (fuel + 1) c bs =
        if bs.length - k > 0 then writeLoop fuel c' (bs.drop k) else (.ok, c') := by
      rw [writeLoop, Client.send, hsend]
      dsimp only
      rw [hk, if_neg (Nat.ne_of_gt hpos)]
    rw [hstep]
    split_ifs with hrest
    · have hlen : (bs.drop k).length = bs.length - k := List.length_drop
      obtain ⟨sends, heq, hsends⟩ := @ih c' (bs.drop k) hflows (by omega) (by omega)
      refine ⟨sends, heq.trans ?_, hsends⟩
      simp only [c', List.append_assoc, List.take_append_drop]
    · refine ⟨c'.sends, ?_, hflows⟩
      rw [← List.take_of_length_le (by omega : bs.length ≤ k)]

theorem writeResponsePayload_of_flows {c : Client} (bs : List UInt8) (hs : c.Flows) :
    ∃ sends, writeResponsePayload c bs = (.ok, { c with sent := c.sent ++ bs, sends := sends }) ∧
      ∀ i, ∃ n, 0 < n ∧ sends i = some n := by
  rw [writeResponsePayload]
  split_ifs with hnil
  · rw [List.eq_nil_of_length_eq_zero hnil, List.append_nil]
    exact ⟨c.sends, rfl, hs⟩
  · exact writeLoop_of_flows hs (Nat.le_refl _) (Nat.pos_of_ne_zero hnil)

/-- The response and the payload are sent. -/
theorem writeReply_of_flows {h : Handled} (stale : StaleReads) (hs : h.ctx.client.Flows) :
    ∃ sends, (writeReply stale h).client =
      { h.ctx.client with
        sent := h.ctx.client.sent ++ (h.response stale ++ h.payloadBytes stale)
        sends := sends } := by
  obtain ⟨sends, hresp, hs'⟩ := writeResponsePayload_of_flows (h.response stale) hs
  rw [writeReply, hresp]
  dsimp only
  rw [if_neg (by decide)]
  by_cases hnil : (h.payloadBytes stale).length > 0
  · obtain ⟨sends', hpay, -⟩ := @writeResponsePayload_of_flows
      { h.ctx.client with sent := h.ctx.client.sent ++ h.response stale, sends := sends }
      (h.payloadBytes stale) hs'
    rw [if_pos hnil, hpay]
    dsimp only
    rw [if_neg (by decide), ← List.append_assoc]
    exact ⟨sends', rfl⟩
  · rw [if_neg hnil, List.eq_nil_of_length_eq_zero (Nat.eq_zero_of_not_pos hnil), List.append_nil]
    exact ⟨sends, rfl⟩

theorem sent_writeReply_of_flows {h : Handled} (stale : StaleReads) (hs : h.ctx.client.Flows) :
    (writeReply stale h).client.sent = h.ctx.client.sent ++
    (h.response stale ++ h.payloadBytes stale) := by
  obtain ⟨sends, heq⟩ := writeReply_of_flows stale hs
  rw [heq]

/-! ### The requests whose replies depend on the buffer -/

section Exposing

variable {env : Env} {ctx : Ctx} {r : Request}

/-- A listing succeeds or runs out of room. -/
theorem foldl_listNonMatching_status (slices : List Slice) (es : List CacheEntry) {data : ListData}
    (h : data.status = .ok ∨ data.status = .outOfMemory) :
    (es.foldl (fun data e => (listNonMatchingCallback slices e data).2) data).status = .ok ∨
      (es.foldl (fun data e => (listNonMatchingCallback slices e data).2) data).status =
      .outOfMemory := by
  induction es generalizing data with
  | nil => exact h
  | cons e es ih =>
    rw [List.foldl_cons]
    refine ih ?_
    unfold listNonMatchingCallback listAllKeysCallback
    split_ifs
    · exact h
    · exact h
    · rw [putName_eq]
      split_ifs
      · exact Or.inr rfl
      · exact h

theorem lstPayload_matchNone_status (c : Ctx) (slices : List Slice) :
    (lstPayload c slices LIST_MODE_MATCH_NONE).status.has MASK_INTERNAL_ERROR = false := by
  rw [lstPayload_matchNone]
  have hst := @foldl_listNonMatching_status slices c.store.entries
    ⟨.ok, c.payload_buffer.base, c.payload_buffer.nmemb, 0,
      c.payload_buffer.cap - c.payload_buffer.nmemb⟩ (Or.inl rfl)
  rcases hst with hst | hst
  · rw [hst]
    decide
  · rw [hst]
    decide

/-- A LST of the keys without some tags has the payload sent through a pointer to a variable that is
gone. -/
theorem handleLstRequest_matchNone (hmode : r.cMode = LIST_MODE_MATCH_NONE)
    (hok : (readTagsUsingPayloadBuffer ctx r.cNtags).1 = .ok) :
    (handleLstRequest ctx r).response_payload = .altPayload ∧
      (handleLstRequest ctx r).status.has MASK_INTERNAL_ERROR = false := by
  have hle : r.cMode ≤ LIST_MODE_MATCH_ANY := by
    rw [hmode]
    decide
  obtain ⟨slices, c, hread⟩ :
      ∃ slices c, readTagsUsingPayloadBuffer ctx r.cNtags = (.ok, slices, c) :=
    ⟨_, _, Prod.ext hok rfl⟩
  have hst : (lstPayload c slices r.cMode).status.has MASK_INTERNAL_ERROR = false := by
    rw [hmode]
    exact lstPayload_matchNone_status c slices
  rw [handleLstRequest_eq hread hle]
  exact ⟨if_pos hmode, hst⟩

theorem handleRequest_lst (env : Env) (hctl : r.HasControl) (hop : r.op = CMD_BYTE_LST) :
    handleRequest env ctx r = handleLstRequest ctx r := by
  rw [handleRequest_of_control hctl, hop]
  rfl

theorem handleRequest_nfo (env : Env) (hctl : r.HasControl) (hop : r.op = CMD_BYTE_NFO) :
    handleRequest env ctx r = handleNfoRequest env ctx r := by
  rw [handleRequest_of_control hctl, hop]
  rfl

/-- The reply to an NFO about a key that is not there is the beginning of the buffer. -/
theorem handleNfoRequest_missing {key : CacheKey} {client : Client} (hpos : 0 < r.nKlen)
    (hread : readRequestKey ctx.client r.nKlen = (.ok, key, client))
    (hnone : ctx.store.current key = none) :
    handleNfoRequest env ctx r = ⟨.notFound, .payloadBuffer, ⟨ctx.store, client,
      ⟨ctx.payload_buffer.base, sizeofNFOResponsePayload, ctx.payload_buffer.cap⟩⟩⟩ := by
  rw [handleNfoRequest, if_pos hpos, hread]
  dsimp only
  rw [current_eq_none_iff_get.mp hnone]

/-- No name in such a request is empty. -/
theorem Request.Exposes.names {s : Store} {c : Client} {cap : ℕ} (h : r.Exposes s cap c.input)
    (base : ByteMemory) (nmemb : ℕ) : readsEmptyName c ⟨base, nmemb, cap⟩ r = false := by
  obtain ⟨hctl, ⟨hop, -, htags⟩ | ⟨hop, -⟩⟩ := h
  · rw [readsEmptyName_lst hctl hop]
    exact (@Request.exists_tagsAre_iff ⟨s, c, ⟨base, nmemb, cap⟩⟩ r).mp htags |>.2
  · exact readsEmptyName_nfo hctl hop

/-- What such a request sends is not the same for all buffers and all that may be read through the
pointer. -/
theorem Request.Exposes.sent_ne {s : Store} {c : Client} {cap : ℕ} (hs : c.Flows)
    (h : r.Exposes s cap c.input) : ∃ stale stale' base base',
      (handleRequest env ⟨s, c, ⟨base, 0, cap⟩⟩ r).status.has MASK_INTERNAL_ERROR = false ∧
      (handleRequest env ⟨s, c, ⟨base', 0, cap⟩⟩ r).status.has MASK_INTERNAL_ERROR = false ∧
      (writeReply stale (handleRequest env ⟨s, c, ⟨base, 0, cap⟩⟩ r)).client.sent ≠
        (writeReply stale' (handleRequest env ⟨s, c, ⟨base', 0, cap⟩⟩ r)).client.sent := by
  have hflows (base : ByteMemory) :
      (handleRequest env ⟨s, c, ⟨base, 0, cap⟩⟩ r).ctx.client.Flows := by
    intro i
    rw [(handleRequest_readTo env _ r).sends_eq]
    exact hs i
  obtain ⟨hctl, ⟨hop, hmode, htags⟩ | ⟨hop, hpos, hklen, hnone⟩⟩ := h
  · -- one byte, or none, is read through the pointer
    obtain ⟨hptr, hopen⟩ := @handleLstRequest_matchNone ⟨s, c, ⟨fun _ => 0, 0, cap⟩⟩ r hmode
      (Request.exists_tagsAre_iff.mp htags).1
    rw [← handleRequest_lst env hctl hop] at hptr hopen
    refine ⟨⟨0, []⟩, ⟨0, [0]⟩, fun _ => 0, fun _ => 0, hopen, hopen, ?_⟩
    have hsent (stale : StaleReads) := sent_writeReply_of_flows stale (hflows fun _ => 0)
    rw [hsent, hsent, Handled.response, Handled.response, Handled.payloadSize, Handled.payloadSize,
      Handled.payloadBytes, Handled.payloadBytes, hptr]
    intro heq
    cases List.append_cancel_left (List.append_cancel_left heq)
  · -- the buffer is full of zeros, or of ones
    obtain ⟨c', hread⟩ := (readRequestKey_ok_iff hpos).mpr ⟨hklen, rfl⟩
    have hh (base : ByteMemory) : handleRequest env ⟨s, c, ⟨base, 0, cap⟩⟩ r =
        ⟨.notFound, .payloadBuffer, ⟨s, c', ⟨base, sizeofNFOResponsePayload, cap⟩⟩⟩ :=
      (handleRequest_nfo env hctl hop).trans
        (@handleNfoRequest_missing env ⟨s, c, ⟨base, 0, cap⟩⟩ r _ c' hpos hread hnone)
    have hsent (base : ByteMemory) := sent_writeReply_of_flows ⟨0, []⟩ (hflows base)
    have hopen : StatusCode.notFound.has MASK_INTERNAL_ERROR = false := by decide
    refine ⟨⟨0, []⟩, ⟨0, []⟩, fun _ => 0, fun _ => 1,
      by rw [hh]; exact hopen, by rw [hh]; exact hopen, ?_⟩
    rw [hsent, hsent, hh, hh]
    intro heq
    have hread : ByteMemory.read (fun _ => 0) 0 16 = ByteMemory.read (fun _ => 1) 0 16 :=
      List.append_cancel_left (List.append_cancel_left heq)
    exact absurd hread (by decide)

end Exposing

/-- In every two runs on the same state and stream that differ in the worker's buffer alone, and in
what is read through pointers to variables that are gone, the same is sent; whatever each send comes
to. -/
def RepliesAlike (env : Env) (s : Store) (client : Client) (cap : ℕ) : Prop :=
  ∀ (sends : ℕ → Option ℕ) (stale stale' : StaleReads) (base base' : ByteMemory) (nmemb nmemb' : ℕ),
    (processRequest env stale ⟨s, { client with sends := sends }, ⟨base, nmemb, cap⟩⟩).client.sent =
      (processRequest env stale' ⟨s, { client with sends := sends },
        ⟨base', nmemb', cap⟩⟩).client.sent

theorem not_repliesAlike {env : Env} {s : Store} {client : Client} {cap : ℕ}
    (hle : 16 ≤ client.input.length)
    (hexp : (Request.ofBytes (client.input.take 16)).Exposes s cap (client.input.drop 16)) :
    ¬ RepliesAlike env s client cap := by
  intro halike
  have hle' : 16 ≤ ({ client with sends := fun _ => some 16 } : Client).input.length := hle
  obtain ⟨reads, hproc⟩ := processRequest_eq hle'
  obtain ⟨stale, stale', base, base', hopen, hopen', hne⟩ :=
    @Request.Exposes.sent_ne env (Request.ofBytes (client.input.take 16)) s
      (({ client with sends := fun _ => some 16 } : Client).advance 16 reads) cap
      (fun _ => ⟨16, by decide, rfl⟩) hexp
  have h := halike (fun _ => some 16) stale stale' base base' 0 0
  have hexp' : (Request.ofBytes (client.input.take 16)).Exposes s cap
    (({ client with sends := fun _ => some 16 } : Client).advance 16 reads).input := hexp
  rw [hproc, hproc, if_neg (Bool.eq_false_iff.mp (hexp'.names _ _)),
    if_neg (Bool.eq_false_iff.mp (hexp'.names _ _))] at h
  dsimp only at h
  rw [if_neg (Bool.eq_false_iff.mp hopen), if_neg (Bool.eq_false_iff.mp hopen')] at h
  exact hne h

/-- The reply to a request does not depend on what the buffer held before just when the request is
neither an NFO about a key that is not there nor a LST of the keys without some tags. -/
theorem replies_alike_iff (env : Env) (s : Store) (client : Client) (cap : ℕ) :
    RepliesAlike env s client cap ↔ ¬ (16 ≤ client.input.length ∧
      (Request.ofBytes (client.input.take 16)).Exposes s cap (client.input.drop 16)) := by
  constructor
  · rintro halike ⟨hle, hexp⟩
    exact not_repliesAlike hle hexp halike
  · intro hnot sends stale stale' base base' nmemb nmemb'
    rcases Nat.lt_or_ge client.input.length 16 with hlt | hle
    · have hlt' : ({ client with sends := sends } : Client).input.length < 16 := hlt
      rw [processRequest_starved hlt', processRequest_starved hlt']
    have hle' : 16 ≤ ({ client with sends := sends } : Client).input.length := hle
    obtain ⟨reads, hproc⟩ := processRequest_eq hle'
    have hctx :
      Ctx.Alike ⟨s, ({ client with sends := sends } : Client).advance 16 reads, ⟨base, nmemb, cap⟩⟩
      ⟨s, ({ client with sends := sends } : Client).advance 16 reads, ⟨base', nmemb', cap⟩⟩ :=
      ⟨rfl, rfl, rfl⟩
    have hnames := readsEmptyName_alike hctx (Request.ofBytes (client.input.take 16))
    dsimp only at hnames
    rw [hproc, hproc]
    dsimp only
    rw [← hnames]
    by_cases hne :
      readsEmptyName (({ client with sends := sends } : Client).advance 16 reads) ⟨base, nmemb, cap⟩
      (Request.ofBytes (client.input.take 16)) = true
    · rw [if_pos hne, if_pos hne]
    · have ha :=
        @handleRequest_alike env _ _ (Request.ofBytes (client.input.take 16)) hctx
        (Bool.eq_false_iff.mpr hne) fun hexp => hnot ⟨hle, hexp⟩
      rw [if_neg hne, if_neg hne, ← ha.status]
      split_ifs with hint
      · exact congrArg (fun c => c.close.sent) ha.client
      · exact congrArg Client.sent (ha.client_writeReply (Bool.eq_false_iff.mpr hint) stale stale')

/-- An NFO about a key, to an empty store. -/
theorem not_repliesAlike_nfo : ¬ RepliesAlike (Memory.env (initMemory 0) 0) Store.init
    (openFile ((Cmd.nfo [0x61]).request.toBytes ++ (Cmd.nfo [0x61]).body)) MAX_BUCKET_SIZE :=
  not_repliesAlike (by decide) ⟨⟨by decide, by decide, by decide⟩,
    Or.inr ⟨by decide, by decide, by decide, Store.current_init _⟩⟩

end Cik

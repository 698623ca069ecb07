import Cik.Theory.Listing

/-!
# What a request does

`Cmd.exec` says what a well-formed request answers and what it does to the store,
without streams and buffers. `handleRequest_answers` says that the server does just
that, and how much of the stream it reads: all of the request, but for the value of a
SET that is refused memory (`Cmd.unread`). A GET's reply is the value
(`handleGetRequest_reply`), a LST's the names with their lengths
(`handleLstRequest_reply`).
-/

namespace Cik

open CacheEntryHashMap

/-! ### The meaning of a request -/

/-- The entry has expired. -/
def CacheEntry.Expired (e : CacheEntry) (now : Time) : Prop :=
  e.expires ≠ CACHE_EXPIRES_INIT ∧ e.expires < now

instance (e : CacheEntry) (now : Time) : Decidable (e.Expired now) :=
  inferInstanceAs (Decidable (_ ∧ _))

/-- What a CLR does to the store. -/
def Store.cleared (s : Store) (now : Time) (mode : UInt8) (tags : List CacheTag) : Store :=
  if mode = CLEAR_MODE_ALL then clearEntries clearAllCallback s
  else if mode = CLEAR_MODE_OLD then clearEntries (clearOldCallback now) s
  else if mode = CLEAR_MODE_MATCH_NONE then clearEntries (clearNonMatchingCallback tags) s
  else if mode = CLEAR_MODE_MATCH_ALL then deleteKeys s (getKeysMatchingAllTags s.tags tags)
  else deleteKeys s (getKeysMatchingAnyTag s.tags tags)

/-- The entry has none of the tags. -/
def CacheEntry.hasNone (e : CacheEntry) (tags : List CacheTag) : Bool :=
  !(tags.any fun want => e.tags.any fun have_ => want == have_)

/-- The tags that some key has, in the order of the index. -/
def TagTree.usedTags (tree : TagTree) : List CacheTag :=
  (tree.nodes.toList.filter fun x => x.2.keys ≠ []).map Prod.fst

/-- The names that a LST is to list. -/
def Store.listNames (s : Store) (mode : UInt8) (tags : List CacheTag) : List (List UInt8) :=
  if mode = LIST_MODE_ALL_KEYS then s.entries.map CacheEntry.key
  else if mode = LIST_MODE_ALL_TAGS then s.tags.usedTags
  else if mode = LIST_MODE_MATCH_NONE then
    (s.entries.filter fun e => e.hasNone tags).map CacheEntry.key
  else if mode = LIST_MODE_MATCH_ALL then getKeysMatchingAllTags s.tags tags
  else getKeysMatchingAnyTag s.tags tags

/-- The room that a LST has: the buffer, or what the tags leave of it. -/
def listRoom (mode : UInt8) (tags : List CacheTag) : ℕ :=
  if mode = LIST_MODE_MATCH_NONE then MAX_BUCKET_SIZE - (tags.map List.length).sum
    else MAX_BUCKET_SIZE

/-- What an NFO about an entry needs of the buffer. -/
def nfoLength (tags : List CacheTag) : ℕ := sizeofNFOResponsePayload + wireLength tags

/-- What a well-formed request answers and does to the store. -/
def Cmd.exec (env : Env) (s : Store) : Cmd → StatusCode × Store
  | get key ignore =>
    match lockAndGetCacheEntry (s.mapOf key) key with
    | none => (.notFound, s)
    | some (pos, entry) =>
      if ignore = false ∧ entry.Expired env.now then (.expired, s)
      else (if entry.value.length > MAX_BUCKET_SIZE then .bug else .ok,
        s.touch key pos { entry with nhits := entry.nhits + 1 })
  | set key tags value ttl =>
    match env.reserve (requestSize key tags value) with
    | none => (.outOfMemory, s)
    | some _ => setEntry s ⟨key, tags, value, env.now, expiryOf env.now ttl, 0⟩
  | setTtl key ttl =>
    match lockAndGetCacheEntry (s.mapOf key) key with
    | none => (.notFound, s)
    | some (pos, entry) => (.ok, s.touch key pos { entry with expires := expiryOf env.now ttl })
  | del key => deleteEntryByKey s key
  | clr mode tags => (.ok, s.cleared env.now mode tags)
  | lst mode tags => ((listing (listRoom mode tags) (s.listNames mode tags)).1, s)
  | nfo key =>
    if key = [] then (.ok, s)
    else
      match s.current key with
      | none => (.notFound, s)
      | some entry => (if nfoLength entry.tags ≤ MAX_BUCKET_SIZE then .ok else .bug, s)

/-- What a request leaves unread of its own bytes. -/
def Cmd.unread (env : Env) : Cmd → List UInt8
  | set key tags value _ => if (env.reserve (requestSize key tags value)).isSome then [] else value
  | _ => []

/-- A handler answered a status, left a store, and read up to `rest`; it kept its buffer. -/
structure Handled.Answers (h : Handled) (outcome : StatusCode × Store) (rest : List UInt8) :
    Prop where
  /-- The status. -/
  status : h.status = outcome.1
  /-- The store. -/
  store : h.ctx.store = outcome.2
  /-- The stream. -/
  input : h.ctx.client.input = rest
  /-- The buffer. -/
  cap : h.ctx.payload_buffer.cap = MAX_BUCKET_SIZE

/-- What a GET sends. -/
def getReply (env : Env) (s : Store) (key : CacheKey) (ignore : Bool) : List UInt8 :=
  match s.current key with
  | none => []
  | some entry =>
    if ignore = false ∧ entry.Expired env.now then []
    else if entry.value.length > MAX_BUCKET_SIZE then [] else entry.value

/-- A SET that is granted memory. -/
theorem exec_set {env : Env} {s : Store} {key : CacheKey} {tags : List CacheTag}
    {value : CacheValue} {ttl : UInt32} (h : (env.reserve (requestSize key tags value)).isSome) :
    (Cmd.set key tags value ttl).exec env s =
      setEntry s ⟨key, tags, value, env.now, expiryOf env.now ttl, 0⟩ := by
  obtain ⟨n, hn⟩ := Option.isSome_iff_exists.mp h
  simp only [Cmd.exec, hn]

/-- A process that grants memory grants a SET what fits the biggest bucket. -/
theorem Env.Grants.requestSize {env : Env} (h : env.Grants) {key : CacheKey} {tags : List CacheTag}
    {value : CacheValue} (hk : IsName key) (hs : exactSize key tags value ≤ MAX_BUCKET_SIZE) :
    (env.reserve (requestSize key tags value)).isSome := by
  have hmax : MAX_BUCKET_SIZE = 0x800000 := rfl
  have hv : value.length ≤ exactSize key tags value := Nat.le_add_left _ _
  refine h _ ?_
  rw [requestSize_toNat hk (by omega), Nat.mod_eq_of_lt (by omega)]
  exact hs

/-! ### Modes -/

/-- The modes are the five numbers up to the last one. -/
theorem mode_cases {mode : UInt8} (h : mode ≤ CLEAR_MODE_MATCH_ANY) :
    mode = CLEAR_MODE_ALL ∨ mode = CLEAR_MODE_OLD ∨ mode = CLEAR_MODE_MATCH_NONE ∨
    mode = CLEAR_MODE_MATCH_ALL ∨
      mode = CLEAR_MODE_MATCH_ANY := by
  have hall : ∀ b : BitVec 8, UInt8.ofBitVec b ≤ CLEAR_MODE_MATCH_ANY →
      UInt8.ofBitVec b = CLEAR_MODE_ALL ∨ UInt8.ofBitVec b = CLEAR_MODE_OLD ∨
        UInt8.ofBitVec b = CLEAR_MODE_MATCH_NONE ∨ UInt8.ofBitVec b = CLEAR_MODE_MATCH_ALL ∨
        UInt8.ofBitVec b = CLEAR_MODE_MATCH_ANY := by decide
  exact hall mode.toBitVec h


section Clear

variable (s : Store) (now : Time) (tags : List CacheTag)

theorem cleared_all : s.cleared now CLEAR_MODE_ALL tags =
    s.without (fun _ => true) (unindex s.tags (s.entries.filter fun _ => true)) := by
  rw [Store.cleared, if_pos rfl]
  exact clearEntries_eq (fun _ _ => (if_pos rfl).symm) s

theorem cleared_old : s.cleared now CLEAR_MODE_OLD tags =
    s.without (fun e => decide (e.Expired now))
      (unindex s.tags (s.entries.filter fun e => decide (e.Expired now))) := by
  rw [Store.cleared, if_neg (by decide), if_pos rfl]
  refine clearEntries_eq (fun e tags => ?_) s
  simp only [clearOldCallback, CacheEntry.Expired]
  by_cases h₁ : e.expires = CACHE_EXPIRES_INIT
  · simp [h₁]
  · by_cases h₂ : e.expires < now
    · simp [h₁, h₂, not_le.mpr h₂]
    · simp [h₁, h₂, not_lt.mp h₂]

theorem cleared_matchNone : s.cleared now CLEAR_MODE_MATCH_NONE tags =
    s.without (fun e => e.hasNone tags)
      (unindex s.tags (s.entries.filter fun e => e.hasNone tags)) := by
  rw [Store.cleared, if_neg (by decide), if_neg (by decide), if_pos rfl]
  refine clearEntries_eq (fun e _ => ?_) s
  rw [clearNonMatchingCallback, CacheEntry.hasNone]
  cases tags.any fun want => e.tags.any fun have_ => want == have_ <;> rfl

theorem cleared_matchAll : s.cleared now CLEAR_MODE_MATCH_ALL tags =
    deleteKeys s (getKeysMatchingAllTags s.tags tags) := by
  rw [Store.cleared, if_neg (by decide), if_neg (by decide), if_neg (by decide), if_pos rfl]

theorem cleared_matchAny : s.cleared now CLEAR_MODE_MATCH_ANY tags =
    deleteKeys s (getKeysMatchingAnyTag s.tags tags) := by
  rw [Store.cleared, if_neg (by decide), if_neg (by decide), if_neg (by decide), if_neg (by decide)]

end Clear

/-! ### The handlers -/

section Handlers

variable {env : Env} {ctx : Ctx} {r : Request} {rest : List UInt8} {key : CacheKey}
  {tags : List CacheTag}

/-- `~flags & mask` is not zero just when `flags & mask` is zero, as the mask is one bit. -/
theorem not_flags_iff (flags : UInt8) :
    ~~~flags &&& GET_FLAG_IGNORE_EXPIRES ≠ 0 ↔ ¬ flags &&& GET_FLAG_IGNORE_EXPIRES ≠ 0 := by
  have hall : ∀ b : BitVec 8, ~~~(UInt8.ofBitVec b) &&& GET_FLAG_IGNORE_EXPIRES ≠ 0 ↔
      ¬ (UInt8.ofBitVec b) &&& GET_FLAG_IGNORE_EXPIRES ≠ 0 := by decide
  exact hall flags.toBitVec

theorem handleGetRequest_answers {ignore : Bool} (hc : (Cmd.get key ignore).WF)
    (hf : (Cmd.get key ignore).Fields r) (hin : ctx.client.input = key.reverse ++ rest)
    (hcap : ctx.payload_buffer.cap = MAX_BUCKET_SIZE) :
    (handleGetRequest env ctx r).Answers ((Cmd.get key ignore).exec env ctx.store) rest ∧
      ∀ stale, (handleGetRequest env ctx r).payloadBytes stale =
      getReply env ctx.store key ignore := by
  obtain ⟨hl, hflag⟩ := hf
  obtain ⟨reads, hread⟩ := readRequestKey_spec hc hin hl
  have hrest := Client.advance_input hin (n := key.length) (by simp) reads
  have hig : ~~~r.gFlags &&& GET_FLAG_IGNORE_EXPIRES ≠ 0 ↔ ignore = false := by
    rw [not_flags_iff, ← hflag, Bool.not_eq_true]
  unfold handleGetRequest
  simp only [hread, Cmd.exec, getReply, Store.current, CacheEntryHashMap.current]
  cases hg : lockAndGetCacheEntry (ctx.store.mapOf key) key with
  | none => exact ⟨⟨rfl, rfl, hrest, hcap⟩, fun _ => rfl⟩
  | some found =>
    obtain ⟨pos, entry⟩ := found
    simp only [Option.map_some, hig, ← and_assoc, CacheEntry.Expired, hcap]
    split_ifs with he hbig hpos
    · exact ⟨⟨rfl, rfl, hrest, hcap⟩, fun _ => rfl⟩
    · exact ⟨⟨rfl, rfl, hrest, hcap⟩, fun _ => rfl⟩
    · exact ⟨⟨rfl, rfl, hrest, rfl⟩, fun _ => ByteMemory.read_write_self _ 0 _⟩
    · refine ⟨⟨rfl, rfl, hrest, hcap⟩, fun _ => ?_⟩
      exact (List.eq_nil_of_length_eq_zero (by omega)).symm

theorem handleSetRequest_answers {value : CacheValue} {ttl : UInt32}
    (hc : (Cmd.set key tags value ttl).WF) (hf : (Cmd.set key tags value ttl).Fields r)
    (hin : ctx.client.input = (Cmd.set key tags value ttl).body ++ rest)
    (hcap : ctx.payload_buffer.cap = MAX_BUCKET_SIZE) :
    (handleSetRequest env ctx r).Answers ((Cmd.set key tags value ttl).exec env ctx.store)
      ((Cmd.set key tags value ttl).unread env ++ rest) := by
  obtain ⟨hk, ht, hv⟩ := hc
  obtain ⟨hkl, hnt, hvl, httl, hflag⟩ := hf
  simp only [Cmd.body, List.append_assoc] at hin
  -- the key, the tags, and the value if there is memory for it
  obtain ⟨r₁, h₁⟩ := readRequestKey_spec hk hin hkl
  have hin₁ := Client.advance_input hin (n := key.length) (by simp) r₁
  have hcap₁ :
    (Ctx.mk ctx.store (ctx.client.advance key.length r₁) ctx.payload_buffer).payload_buffer.cap =
      MAX_BUCKET_SIZE := hcap
  obtain ⟨r₂, slices, base, h₂, hm, hb, -⟩ := readTagsUsingPayloadBuffer_spec ht hin₁ hcap₁ hnt
  have hin₂ := Client.advance_input hin₁ rfl r₂
  obtain ⟨r₃, h₃⟩ := readRequestPayload_append hin₂ (n := (ntohl r.sVlen).toNat) hvl
  have hin₃ := Client.advance_input hin₂ (n := (ntohl r.sVlen).toNat) hvl r₃
  have hsize : entrySize (setTotalSize (slices.map Slice.nmemb) r.sKlen (ntohl r.sVlen)) =
      requestSize key tags value := by
    rw [hm, requestSize, ← hkl, ← hvl, UInt8.ofNat_toNat, UInt32.ofNat_toNat]
  unfold handleSetRequest
  simp only [h₁, hflag, ne_eq, not_true_eq_false, if_false, h₂, hsize, Cmd.exec, Cmd.unread]
  cases hr : env.reserve (requestSize key tags value) with
  | none => exact ⟨rfl, rfl, hin₂, rfl⟩
  | some n =>
    simp only [h₃, hb, httl]
    exact ⟨rfl, rfl, hin₃, rfl⟩

theorem handleSetRequest_answers_setTtl {ttl : UInt32} (hc : (Cmd.setTtl key ttl).WF)
    (hf : (Cmd.setTtl key ttl).Fields r) (hin : ctx.client.input = key.reverse ++ rest)
    (hcap : ctx.payload_buffer.cap = MAX_BUCKET_SIZE) :
    (handleSetRequest env ctx r).Answers ((Cmd.setTtl key ttl).exec env ctx.store) rest := by
  obtain ⟨hl, httl, hflag⟩ := hf
  obtain ⟨reads, hread⟩ := readRequestKey_spec hc hin hl
  have hrest := Client.advance_input hin (n := key.length) (by simp) reads
  unfold handleSetRequest
  simp only [hread, if_pos hflag, httl, Cmd.exec]
  cases hg : lockAndGetCacheEntry (ctx.store.mapOf key) key with
  | none => exact ⟨rfl, rfl, hrest, hcap⟩
  | some found => exact ⟨rfl, rfl, hrest, hcap⟩

theorem handleDelRequest_answers (hc : (Cmd.del key).WF) (hf : (Cmd.del key).Fields r)
    (hin : ctx.client.input = key.reverse ++ rest)
    (hcap : ctx.payload_buffer.cap = MAX_BUCKET_SIZE) :
    (handleDelRequest ctx r).Answers ((Cmd.del key).exec env ctx.store) rest := by
  obtain ⟨reads, hread⟩ := readRequestKey_spec hc hin hf
  have hrest := Client.advance_input hin (n := key.length) (by simp) reads
  unfold handleDelRequest
  simp only [hread, Cmd.exec]
  exact ⟨rfl, rfl, hrest, hcap⟩

theorem handleClrRequest_answers {mode : UInt8} (hc : (Cmd.clr mode tags).WF)
    (hf : (Cmd.clr mode tags).Fields r) (hin : ctx.client.input = wireTags tags ++ rest)
    (hcap : ctx.payload_buffer.cap = MAX_BUCKET_SIZE) :
    (handleClrRequest env ctx r).Answers ((Cmd.clr mode tags).exec env ctx.store) rest := by
  obtain ⟨hmode, ht⟩ := hc
  obtain ⟨rfl, hn⟩ := hf
  obtain ⟨reads, slices, base, h, -, hb, -⟩ := readTagsUsingPayloadBuffer_spec ht hin hcap hn
  have hrest := Client.advance_input hin rfl reads
  unfold handleClrRequest
  simp only [h, hb, Cmd.exec, Store.cleared]
  rcases mode_cases hmode with hm | hm | hm | hm | hm <;> rw [hm]
  · exact ⟨rfl, rfl, hrest, rfl⟩
  · exact ⟨rfl, rfl, hrest, rfl⟩
  · exact ⟨rfl, rfl, hrest, rfl⟩
  · exact ⟨rfl, rfl, hrest, rfl⟩
  · exact ⟨rfl, rfl, hrest, rfl⟩

/-- The payload of a LST when its handler returns, the tags having been read. -/
def lstPayload (ctx : Ctx) (slices : List Slice) (mode : UInt8) : ListData :=
  let buffer := ctx.payload_buffer
  let tags := slices.map fun tag => tag.bytes buffer.base
  let whole : ListData := ⟨.ok, buffer.base, 0, 0, buffer.cap⟩
  if mode = LIST_MODE_ALL_KEYS then (walkAllEntries listAllKeysCallback ctx.store.maps whole).2
  else if mode = LIST_MODE_ALL_TAGS then walkAllTags listAllTagsCallback ctx.store.tags whole
  else if mode = LIST_MODE_MATCH_NONE then
    (walkAllEntries (listNonMatchingCallback slices) ctx.store.maps
      ⟨.ok, buffer.base, buffer.nmemb, 0, buffer.cap - buffer.nmemb⟩).2
  else if mode = LIST_MODE_MATCH_ALL then listKeys
    (getKeysMatchingAllTags ctx.store.tags tags) whole
  else listKeys (getKeysMatchingAnyTag ctx.store.tags tags) whole

/-- Where the payload of a LST begins. -/
def lstOffset (buffer : Payload) (mode : UInt8) : ℕ :=
  if mode = LIST_MODE_MATCH_NONE then buffer.nmemb else 0

/-- How much room the buffer has for it. -/
def lstRoom (buffer : Payload) (mode : UInt8) : ℕ :=
  if mode = LIST_MODE_MATCH_NONE then buffer.cap - buffer.nmemb else buffer.cap

/-- A LST whose tags were read answers with that payload. -/
theorem handleLstRequest_eq {slices : List Slice} {ctx' : Ctx}
    (h : readTagsUsingPayloadBuffer ctx r.cNtags = (.ok, slices, ctx'))
    (hmode : r.cMode ≤ LIST_MODE_MATCH_ANY) :
    handleLstRequest ctx r =
      ⟨(lstPayload ctx' slices r.cMode).status,
        if r.cMode = LIST_MODE_MATCH_NONE then .altPayload else .payloadBuffer,
        ctx'.listed (lstPayload ctx' slices r.cMode)
          (if r.cMode = LIST_MODE_MATCH_NONE then ctx'.payload_buffer.nmemb
            else (lstPayload ctx' slices r.cMode).nmemb)⟩ := by
  have hcases : r.cMode = LIST_MODE_ALL_KEYS ∨ r.cMode = LIST_MODE_ALL_TAGS ∨
    r.cMode = LIST_MODE_MATCH_NONE ∨
      r.cMode = LIST_MODE_MATCH_ALL ∨ r.cMode = LIST_MODE_MATCH_ANY := mode_cases hmode
  unfold handleLstRequest lstPayload
  rcases hcases with hm | hm | hm | hm | hm <;>
    simp [h, hm, LIST_MODE_ALL_KEYS, LIST_MODE_ALL_TAGS, LIST_MODE_MATCH_NONE, LIST_MODE_MATCH_ALL,
      LIST_MODE_MATCH_ANY]

/-- A callback that never takes an entry out of its map is called for each entry. -/
theorem walkAllEntries_keep {σ : Type} {cb : CacheEntry → σ → Bool × σ}
    (hcb : ∀ e data, (cb e data).1 = false) (s : Store) (data : σ) :
    (walkAllEntries cb s.maps data).2 = s.entries.foldl (fun data e => (cb e data).2) data := by
  rw [walkAllEntries_eq (p := fun _ => false) hcb]

theorem listAllKeysCallback_keep (e : CacheEntry) (data : ListData) :
    (listAllKeysCallback e data).1 = false := by
  unfold listAllKeysCallback
  split_ifs <;> rfl

theorem listNonMatchingCallback_keep (slices : List Slice) (e : CacheEntry) (data : ListData) :
    (listNonMatchingCallback slices e data).1 = false := by
  unfold listNonMatchingCallback
  split_ifs
  · rfl
  · rfl
  · exact listAllKeysCallback_keep e data

theorem listAllKeysCallback_snd (e : CacheEntry) (data : ListData) :
    (listAllKeysCallback e data).2 = if data.status ≠ .ok then data else putName e.key data := by
  unfold listAllKeysCallback
  split_ifs <;> rfl

/-- What a LST lists, as a walk over names. -/
theorem lstPayload_walk (slices : List Slice) {mode : UInt8} (hmode : mode ≤ LIST_MODE_MATCH_ANY)
    (hne : mode ≠ LIST_MODE_MATCH_NONE) : lstPayload ctx slices mode =
      (ctx.store.listNames mode (slices.map fun tag => tag.bytes ctx.payload_buffer.base)).foldl
        (fun data name => if data.status ≠ .ok then data else putName name data)
        ⟨.ok, ctx.payload_buffer.base, 0, 0, ctx.payload_buffer.cap⟩ := by
  have hcases : mode = LIST_MODE_ALL_KEYS ∨ mode = LIST_MODE_ALL_TAGS ∨
    mode = LIST_MODE_MATCH_NONE ∨
      mode = LIST_MODE_MATCH_ALL ∨ mode = LIST_MODE_MATCH_ANY := mode_cases hmode
  unfold lstPayload Store.listNames
  rcases hcases with rfl | rfl | rfl | rfl | rfl
  · -- all keys
    rw [if_pos rfl, if_pos rfl, walkAllEntries_keep listAllKeysCallback_keep]
    simp only [listAllKeysCallback_snd]
    rw [List.foldl_map]
  · -- all tags
    rw [if_neg (by decide), if_pos rfl, if_neg (by decide), if_pos rfl, walkAllTags_eq]
    rfl
  · exact absurd rfl hne
  · -- all of the tags
    rw [if_neg (by decide), if_neg (by decide), if_neg (by decide), if_pos rfl, if_neg (by decide),
      if_neg (by decide), if_neg (by decide), if_pos rfl, listKeys_eq _ _ rfl]
  · -- any of the tags
    rw [if_neg (by decide), if_neg (by decide), if_neg (by decide), if_neg (by decide),
      if_neg (by decide), if_neg (by decide), if_neg (by decide), if_neg (by decide),
      listKeys_eq _ _ rfl]

theorem lstPayload_matchNone (slices : List Slice) : lstPayload ctx slices LIST_MODE_MATCH_NONE =
    ctx.store.entries.foldl (fun data e => (listNonMatchingCallback slices e data).2)
      ⟨.ok, ctx.payload_buffer.base, ctx.payload_buffer.nmemb, 0,
        ctx.payload_buffer.cap - ctx.payload_buffer.nmemb⟩ := by
  rw [lstPayload, if_neg (by decide), if_neg (by decide), if_pos rfl,
    walkAllEntries_keep (listNonMatchingCallback_keep slices)]

theorem listNames_matchNone (s : Store) (tags : List CacheTag) :
    s.listNames LIST_MODE_MATCH_NONE tags =
    (s.entries.filter fun e => e.hasNone tags).map CacheEntry.key := by
  rw [Store.listNames, if_neg (by decide), if_neg (by decide), if_pos rfl]

/-- The payload of a LST is the listing of its names. -/
theorem lstPayload_lists (named : Prop) {slices : List Slice} {mode : UInt8}
    (hmode : mode ≤ LIST_MODE_MATCH_ANY)
    (hs : ∀ tag ∈ slices, tag.base + tag.nmemb ≤ ctx.payload_buffer.nmemb)
    (hnamed : named →
      ∀ name ∈ ctx.store.listNames mode (slices.map fun tag => tag.bytes ctx.payload_buffer.base),
        IsName name)
    (hkeys : mode = LIST_MODE_MATCH_NONE → named → ∀ e ∈ ctx.store.entries, IsName e.key) :
    Lists named ctx.payload_buffer.base (lstOffset ctx.payload_buffer mode)
      (lstRoom ctx.payload_buffer mode) (lstPayload ctx slices mode)
        (listing (lstRoom ctx.payload_buffer mode)
          (ctx.store.listNames mode
            (slices.map fun tag => tag.bytes ctx.payload_buffer.base))) := by
  by_cases hm : mode = LIST_MODE_MATCH_NONE
  · subst hm
    rw [lstPayload_matchNone, listNames_matchNone, lstOffset, lstRoom, if_pos rfl, if_pos rfl]
    exact walk_lists (lists_nil ..) hs (hkeys rfl)
  · rw [lstPayload_walk slices hmode hm, lstOffset, lstRoom, if_neg hm, if_neg hm]
    exact foldl_lists (lists_nil ..) hnamed

/-- It is written where it belongs. -/
theorem lstPayload_confined {slices : List Slice} {mode : UInt8}
    (hmode : mode ≤ LIST_MODE_MATCH_ANY)
    (hnames :
      ∀ name ∈ ctx.store.listNames mode (slices.map fun tag => tag.bytes ctx.payload_buffer.base),
      IsName name)
    (hkeys : mode = LIST_MODE_MATCH_NONE → ∀ e ∈ ctx.store.entries, IsName e.key) :
    Confined ctx.payload_buffer.base (lstOffset ctx.payload_buffer mode)
      (lstRoom ctx.payload_buffer mode) (lstPayload ctx slices mode) := by
  by_cases hm : mode = LIST_MODE_MATCH_NONE
  · subst hm
    rw [lstPayload_matchNone, lstOffset, lstRoom, if_pos rfl, if_pos rfl]
    refine foldl_confined (fun data e => ?_) (hkeys rfl) (confined_nil ..)
    unfold listNonMatchingCallback listAllKeysCallback
    split_ifs
    · exact Or.inl rfl
    · exact Or.inl rfl
    · exact Or.inr rfl
  · rw [lstPayload_walk slices hmode hm, lstOffset, lstRoom, if_neg hm, if_neg hm]
    refine foldl_confined (fun data name => ?_) hnames (confined_nil ..)
    split_ifs
    · exact Or.inl rfl
    · exact Or.inr rfl

/-- A LST answered with a listing of the names, of which the worker is to send what its buffer
holds, unless the names are those without some tags: these are behind the tags in the buffer. -/
structure Handled.ListsNames (h : Handled) (ctx : Ctx) (mode : UInt8)
    (names : List (List UInt8)) (room : ℕ) :
    Prop where
  /-- The status. -/
  status : h.status = (listing room names).1
  /-- The store. -/
  store : h.ctx.store = ctx.store
  /-- The client. -/
  client : h.ctx.client = ctx.client
  /-- The size of the buffer. -/
  cap : h.ctx.payload_buffer.cap = ctx.payload_buffer.cap
  /-- Where the payload is sent from. -/
  pointer : h.response_payload = if mode = LIST_MODE_MATCH_NONE then .altPayload else .payloadBuffer
  /-- How long it is. -/
  nmemb : mode ≠ LIST_MODE_MATCH_NONE → h.ctx.payload_buffer.nmemb = (listing room names).2.length
  /-- What it is. -/
  bytes : mode ≠ LIST_MODE_MATCH_NONE → (∀ name ∈ names, IsName name) →
    h.ctx.payload_buffer.base.read 0 h.ctx.payload_buffer.nmemb = (listing room names).2

theorem handleLstRequest_of_tags {slices : List Slice} {ctx' : Ctx}
    (h : readTagsUsingPayloadBuffer ctx r.cNtags = (.ok, slices, ctx'))
    (hs : ∀ tag ∈ slices, tag.base + tag.nmemb ≤ ctx'.payload_buffer.nmemb)
    (hmode : r.cMode ≤ LIST_MODE_MATCH_ANY) :
    (handleLstRequest ctx r).ListsNames ctx' r.cMode
      (ctx'.store.listNames r.cMode (slices.map fun tag => tag.bytes ctx'.payload_buffer.base))
      (lstRoom ctx'.payload_buffer r.cMode) := by
  have hl :=
    @lstPayload_lists ctx' (r.cMode ≠ LIST_MODE_MATCH_NONE ∧ ∀ name ∈ ctx'.store.listNames r.cMode
    (slices.map fun tag => tag.bytes ctx'.payload_buffer.base), IsName name) slices r.cMode hmode hs
    (fun hn => by exact hn.2) fun hm hn => absurd hm hn.1
  rw [handleLstRequest_eq h hmode]
  refine ⟨hl.status, rfl, rfl, rfl, rfl, fun hm => ?_, fun hm hn => ?_⟩
  · simp only [Ctx.listed, if_neg hm]
    exact hl.nmemb
  · have hbytes := hl.bytes ⟨hm, hn⟩
    rw [lstOffset, if_neg hm] at hbytes
    simp only [Ctx.listed, if_neg hm]
    exact hbytes

theorem handleLstRequest_lists {mode : UInt8} (hc : (Cmd.lst mode tags).WF)
    (hf : (Cmd.lst mode tags).Fields r) (hin : ctx.client.input = wireTags tags ++ rest)
    (hcap : ctx.payload_buffer.cap = MAX_BUCKET_SIZE) :
    ∃ ctx', ctx'.store = ctx.store ∧ ctx'.client.input = rest ∧
      ctx'.payload_buffer.cap = MAX_BUCKET_SIZE ∧
      (handleLstRequest ctx r).ListsNames ctx' mode (ctx.store.listNames mode tags)
        (listRoom mode tags) := by
  obtain ⟨hmode, ht⟩ := hc
  obtain ⟨rfl, hn⟩ := hf
  obtain ⟨reads, slices, base, h, -, hb, hle⟩ := readTagsUsingPayloadBuffer_spec ht hin hcap hn
  have hl := handleLstRequest_of_tags h hle hmode
  simp only [hb, lstRoom] at hl
  exact ⟨⟨ctx.store, ctx.client.advance (wireTags tags).length reads, ⟨base, _, MAX_BUCKET_SIZE⟩⟩,
    rfl, Client.advance_input hin rfl reads, rfl, hl⟩

theorem handleLstRequest_answers {mode : UInt8} (hc : (Cmd.lst mode tags).WF)
    (hf : (Cmd.lst mode tags).Fields r) (hin : ctx.client.input = wireTags tags ++ rest)
    (hcap : ctx.payload_buffer.cap = MAX_BUCKET_SIZE) :
    (handleLstRequest ctx r).Answers ((Cmd.lst mode tags).exec env ctx.store) rest := by
  obtain ⟨ctx', hs, hi, hcap', hl⟩ := handleLstRequest_lists hc hf hin hcap
  exact ⟨hl.status, hl.store.trans hs, hl.client ▸ hi, hl.cap.trans hcap'⟩

/-- A LST of names that can be sent sends them, with their lengths before them. -/
theorem handleLstRequest_reply {mode : UInt8} (hc : (Cmd.lst mode tags).WF)
    (hf : (Cmd.lst mode tags).Fields r) (hin : ctx.client.input = wireTags tags ++ rest)
    (hcap : ctx.payload_buffer.cap = MAX_BUCKET_SIZE) (hmode : mode ≠ LIST_MODE_MATCH_NONE)
    (hnames : ∀ name ∈ ctx.store.listNames mode tags, IsName name)
    (hok : (handleLstRequest ctx r).status = .ok) (stale : StaleReads) :
    (handleLstRequest ctx r).payloadBytes stale =
    (ctx.store.listNames mode tags).flatMap wireName := by
  obtain ⟨ctx', -, -, -, hl⟩ := handleLstRequest_lists hc hf hin hcap
  have hle := listing_ok_iff.mp (hl.status ▸ hok)
  rw [Handled.payloadBytes, hl.pointer, if_neg hmode]
  simp only
  rw [hl.bytes hmode hnames, listing_of_le hle]

/-- Whether the tags of an entry fit the buffer behind its times. -/
theorem nfoTags_spec (tags : List CacheTag) (base : ByteMemory) (tag_data nmemb : ℕ) {cap : ℕ}
    (h : nmemb ≤ cap) :
    (nfoTags tags base tag_data nmemb cap).2.2 = decide (nmemb + wireLength tags ≤ cap) ∧
      (nmemb + wireLength tags ≤ cap →
        (nfoTags tags base tag_data nmemb cap).2.1 = nmemb + wireLength tags) := by
  induction tags generalizing base tag_data nmemb with
  | nil => simpa [nfoTags, wireLength] using h
  | cons tag tags ih =>
    have hw : wireLength (tag :: tags) = tag.length + 1 + wireLength tags := by simp [wireLength]
    rw [nfoTags, hw]
    split_ifs with hfit
    · refine ⟨?_, fun hle => absurd hle (by omega)⟩
      exact (decide_eq_false (by omega)).symm
    · obtain ⟨h₁, h₂⟩ :=
        ih (reverseBytes ((base.write tag_data [UInt8.ofNat tag.length]).write (tag_data + 1) tag)
        (tag_data + 1) (UInt32.ofNat tag.length)) (tag_data + 1 + tag.length)
          (nmemb + 1 + tag.length) (by omega)
      have he :
        nmemb + 1 + tag.length + wireLength tags = nmemb + (tag.length + 1 + wireLength tags) := by
        omega
      rw [he] at h₁ h₂
      exact ⟨h₁, h₂⟩

theorem handleNfoRequest_answers (hc : (Cmd.nfo key).WF) (hf : (Cmd.nfo key).Fields r)
    (hin : ctx.client.input = key.reverse ++ rest)
    (hcap : ctx.payload_buffer.cap = MAX_BUCKET_SIZE) :
    (handleNfoRequest env ctx r).Answers ((Cmd.nfo key).exec env ctx.store) rest := by
  have hlen : r.nKlen.toNat = key.length := hf
  unfold handleNfoRequest
  simp only [Cmd.exec, Store.current, CacheEntryHashMap.current]
  by_cases hk : key = []
  · subst hk
    have h0 : ¬ r.nKlen > 0 := by
      rw [gt_iff_lt, UInt8.lt_iff_toNat_lt, hlen]
      decide
    rw [if_neg h0, if_pos rfl]
    exact ⟨rfl, rfl, hin, hcap⟩
  · have hpos : r.nKlen > 0 := by
      rw [gt_iff_lt, UInt8.lt_iff_toNat_lt, hlen]
      exact List.length_pos_iff.mpr hk
    obtain ⟨reads, hread⟩ := readRequestKey_spec ⟨hk, hc⟩ hin hlen
    have hrest := Client.advance_input hin (n := key.length) (by simp) reads
    rw [if_pos hpos, if_neg hk]
    simp only [hread]
    cases hg : lockAndGetCacheEntry (ctx.store.mapOf key) key with
    | none => exact ⟨rfl, rfl, hrest, hcap⟩
    | some found =>
      obtain ⟨pos, entry⟩ := found
      simp only [Option.map_some]
      have hn :=
        (nfoTags_spec entry.tags
        ((ctx.payload_buffer.base.write 0 (store64 (htonll entry.expires))).write 8
        (store64 (htonll entry.mtime))) sizeofNFOResponsePayload sizeofNFOResponsePayload
        (by rw [hcap]; decide : sizeofNFOResponsePayload ≤ ctx.payload_buffer.cap)).1
      refine ⟨?_, rfl, hrest, hcap⟩
      rw [hcap] at hn
      by_cases hfit : sizeofNFOResponsePayload + wireLength entry.tags ≤ MAX_BUCKET_SIZE <;>
        simp [hcap, hn, nfoLength, hfit]

/-! ### Replies without a payload -/

theorem handleSetRequest_response_payload :
    (handleSetRequest env ctx r).response_payload = .null := by
  unfold handleSetRequest
  dsimp only
  split
  · split_ifs
    · split <;> rfl
    · split
      · split
        · rfl
        · split <;> rfl
      · rfl
  · rfl

theorem handleDelRequest_response_payload : (handleDelRequest ctx r).response_payload = .null := by
  unfold handleDelRequest
  dsimp only
  split <;> rfl

theorem handleClrRequest_response_payload :
    (handleClrRequest env ctx r).response_payload = .null := by
  unfold handleClrRequest
  dsimp only
  split
  · split_ifs <;> rfl
  · rfl

/-! ### All requests -/

/-- With the control bytes in place, the operation says which handler it is. -/
theorem handleRequest_of_control (hctl : r.HasControl) : handleRequest env ctx r =
    if r.op = CMD_BYTE_GET then handleGetRequest env ctx r
    else if r.op = CMD_BYTE_SET then handleSetRequest env ctx r
    else if r.op = CMD_BYTE_DEL then handleDelRequest ctx r
    else if r.op = CMD_BYTE_CLR then handleClrRequest env ctx r
    else if r.op = CMD_BYTE_LST then handleLstRequest ctx r
    else if r.op = CMD_BYTE_NFO then handleNfoRequest env ctx r
    else ⟨.protocolError, .null, ctx⟩ := by
  obtain ⟨h₀, h₁, h₂⟩ := hctl
  rw [handleRequest, if_neg (by simp [h₀, h₁, h₂])]

/-- A header is handled by the handler of its operation. -/
theorem handleRequest_eq {c : Cmd} (h : Header r c) : handleRequest env ctx r =
    match c with
    | .get .. => handleGetRequest env ctx r
    | .set .. => handleSetRequest env ctx r
    | .setTtl .. => handleSetRequest env ctx r
    | .del _ => handleDelRequest ctx r
    | .clr .. => handleClrRequest env ctx r
    | .lst .. => handleLstRequest ctx r
    | .nfo _ => handleNfoRequest env ctx r := by
  obtain ⟨hctl, hop, -⟩ := h
  rw [handleRequest_of_control hctl, hop]
  cases c <;> rfl

/-- The server does what the request says. -/
theorem handleRequest_answers {c : Cmd} (h : Header r c) (hc : c.WF)
    (hin : ctx.client.input = c.body ++ rest) (hcap : ctx.payload_buffer.cap = MAX_BUCKET_SIZE) :
    (handleRequest env ctx r).Answers (c.exec env ctx.store) (c.unread env ++ rest) := by
  rw [handleRequest_eq h]
  obtain ⟨-, -, hf⟩ := h
  cases c with
  | get key ignore => exact (handleGetRequest_answers hc hf hin hcap).1
  | set key tags value ttl => exact handleSetRequest_answers hc hf hin hcap
  | setTtl key ttl => exact handleSetRequest_answers_setTtl hc hf hin hcap
  | del key => exact handleDelRequest_answers hc hf hin hcap
  | clr mode tags => exact handleClrRequest_answers hc hf hin hcap
  | lst mode tags => exact handleLstRequest_answers hc hf hin hcap
  | nfo key => exact handleNfoRequest_answers hc hf hin hcap

end Handlers

/-! ### Requests one at a time -/

/-- A well-formed request as a worker meets it: with the process and the buffer as they are, and a
stream that begins with what follows the header. -/
structure Served where
  /-- What it asks for. -/
  cmd : Cmd
  /-- It is well formed. -/
  wf : cmd.WF
  /-- The process. -/
  env : Env
  /-- The header. -/
  request : Request
  /-- It announces what is asked for. -/
  header : Header request cmd
  /-- The client. -/
  client : Client
  /-- What comes behind the request. -/
  rest : List UInt8
  /-- The stream. -/
  input_eq : client.input = cmd.body ++ rest
  /-- The worker's buffer. -/
  buffer : Payload
  /-- It is as big as `reserve_biggest_possible_payload` makes it. -/
  cap_eq : buffer.cap = MAX_BUCKET_SIZE

namespace Served

/-- A request that is alone in its stream. -/
def alone (c : Cmd) (wf : c.WF) (env : Env) : Served where
  cmd := c
  wf := wf
  env := env
  request := c.request
  header := c.header_request wf
  client := openFile c.body
  rest := []
  input_eq := (List.append_nil _).symm
  buffer := reserveBiggestPossiblePayload fun _ => 0
  cap_eq := rfl

/-- The request is handled. -/
def handle (q : Served) (s : Store) : Handled :=
  handleRequest q.env ⟨s, q.client, q.buffer⟩ q.request

theorem answers (q : Served) (s : Store) :
    (q.handle s).Answers (q.cmd.exec q.env s) (q.cmd.unread q.env ++ q.rest) :=
  handleRequest_answers q.header q.wf q.input_eq q.cap_eq

/-- A step of the server: a request is handled. -/
def Step (s : Store) (q : Served) (s' : Store) : Prop := (q.handle s).ctx.store = s'

theorem step_exec (q : Served) (s : Store) : Step s q (q.cmd.exec q.env s).2 := (q.answers s).store

theorem Step.eq_exec {s s' : Store} {q : Served} (h : Step s q s') : s' = (q.cmd.exec q.env s).2 :=
  h.symm.trans (q.answers s).store

end Served

end Cik

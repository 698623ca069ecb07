import Cik.Source.Util
import Cik.Source.Stream
import Cik.Source.Entry
import Cik.Source.Tag
import Cik.Source.Memory

/-!
# The request handlers

`controller.c`: the six handlers, what they share, and `handle_request`. A handler
takes the process as it finds it (`Env`), the hash maps and the tag index, the
client's connection and the worker's payload buffer (`Ctx`), and the header of the
request; it answers a status and the pointer that the worker sends the payload from.
The statistics and the log are left out.

The handlers check neither that a name has a byte nor that the size of an entry fits in
32 bits. `readsEmptyName` and `makesOverlong` say which requests these are.
-/

namespace Cik

open ByteOrder

/-! ### The store -/

/-- The hash maps and the tag index. -/
structure Store where
  /-- `entry_maps`. -/
  maps : Fin NUM_CACHE_ENTRY_MAPS → CacheEntryHashMap
  /-- The tag index. -/
  tags : TagTree

/-- The store at start-up. -/
def Store.init : Store := ⟨fun _ => initCacheEntryMap, initTagTree⟩

/-- The number that `get_map_for_key` reads from the first bytes of a key. -/
def keyPrefix (key : CacheKey) : ℕ :=
  if key.length ≥ 8 then leNat (key.take 8)
  else if key.length ≥ 4 then leNat (key.take 4)
  else if key.length ≥ 2 then leNat (key.take 2)
  else if key.length ≥ 1 then leNat (key.take 1)
  else 0

/-- `get_map_for_key`: the index of the map. -/
def getMapForKey (key : CacheKey) : Fin NUM_CACHE_ENTRY_MAPS :=
  ⟨keyPrefix key % NUM_CACHE_ENTRY_MAPS, Nat.mod_lt _ (by decide)⟩

/-- The map of a key. -/
def Store.mapOf (s : Store) (key : CacheKey) : CacheEntryHashMap := s.maps (getMapForKey key)

/-- The store with the map of a key changed. -/
def Store.setMapOf (s : Store) (key : CacheKey) (map : CacheEntryHashMap) : Store :=
  { s with maps := Function.update s.maps (getMapForKey key) map }

/-- The key is removed from each of the tags. -/
def removeKeyFromTags (tree : TagTree) (tags : List CacheTag) (key : CacheKey) : TagTree :=
  tags.foldl (fun tree tag => removeKeyFromTag tree tag key) tree

/-- The key is added to each of the tags. -/
def addKeyToTags (tree : TagTree) (tags : List CacheTag) (key : CacheKey) : TagTree :=
  tags.foldl (fun tree tag => addKeyToTag tree tag key) tree

/-! ### What a handler works on -/

/-- Where the worker is to send the payload of a response from. -/
inductive PayloadPtr where
  /-- `NULL`. -/
  | null
  /-- `&client->worker->payload_buffer`. -/
  | payloadBuffer
  /-- `&alt_payload`, a variable of `handle_lst_request`. -/
  | altPayload

/-- The state a handler works on. -/
structure Ctx where
  /-- The hash maps and the tag index. -/
  store : Store
  /-- The client. -/
  client : Client
  /-- The payload buffer of the client's worker. -/
  payload_buffer : Payload

/-- What a handler answers. -/
structure Handled where
  /-- The status. -/
  status : StatusCode
  /-- `*response_payload`. -/
  response_payload : PayloadPtr
  /-- The state. -/
  ctx : Ctx

/-! ### Keys and tags of a request -/

/-- `read_request_key`, where `klen` is not `0` (`readsEmptyName`). -/
def readRequestKey (client : Client) (klen : UInt8) : StatusCode × CacheKey × Client :=
  match readRequestPayload client klen.toNat with
  | (.ok, bs, client) =>
    (.ok, (reverseBytes (ByteMemory.write (fun _ => 0) 0 bs) 0 klen.toUInt32).read 0 klen.toNat,
      client)
  | (status, _, client) => (status, [], client)

/-- What `read_tags_using_payload_buffer` comes to. -/
structure TagsRead where
  /-- The status. -/
  status : StatusCode
  /-- Where in the buffer the tags are. -/
  tags : List Slice
  /-- The client. -/
  client : Client
  /-- The bytes of the buffer. -/
  base : ByteMemory
  /-- How much of the buffer is left. -/
  buffer_cap : ℕ

/-- The loop of `read_tags_using_payload_buffer`, where no tag has the length `0`
(`readsEmptyName`). -/
def readTagsLoop : ℕ → Client → ByteMemory → ℕ → ℕ → List Slice → TagsRead
  | 0, client, base, _, buffer_cap, tags => ⟨.ok, tags, client, base, buffer_cap⟩
  | ntags + 1, client, base, buffer, buffer_cap, tags =>
    match readRequestPayload client 1 with
    | (.ok, bs, client) =>
      let nmemb := bs.headD 0
      if nmemb.toNat > buffer_cap then ⟨.outOfMemory, tags, client, base, buffer_cap⟩
      else
        match readRequestPayload client nmemb.toNat with
        | (.ok, bs, client) =>
          readTagsLoop ntags client (reverseBytes (base.write buffer bs) buffer nmemb.toUInt32)
            (buffer + nmemb.toNat) (buffer_cap - nmemb.toNat) (tags ++ [⟨buffer, nmemb.toNat⟩])
        | (status, bs, client) => ⟨status, tags, client, base.write buffer bs, buffer_cap⟩
    | (status, _, client) => ⟨status, tags, client, base, buffer_cap⟩

/-- `read_tags_using_payload_buffer`: the status, the tags, and the state. -/
def readTagsUsingPayloadBuffer (ctx : Ctx) (ntags : UInt8) : StatusCode × List Slice × Ctx :=
  let buffer := ctx.payload_buffer
  let r := readTagsLoop ntags.toNat ctx.client buffer.base 0 buffer.cap []
  let nmemb := if r.status = .ok then buffer.cap - r.buffer_cap else buffer.nmemb
  (r.status, r.tags, { ctx with client := r.client, payload_buffer := ⟨r.base, nmemb, buffer.cap⟩ })

/-! ### GET -/

/-- `handle_get_request`. -/
def handleGetRequest (env : Env) (ctx : Ctx) (request : Request) : Handled :=
  let klen := request.gKlen
  let flags := request.gFlags
  match readRequestKey ctx.client klen with
  | (.ok, key, client) =>
    let ctx := { ctx with client := client }
    match lockAndGetCacheEntry (ctx.store.mapOf key) key with
    | none => ⟨.notFound, .null, ctx⟩
    | some (pos, entry) =>
      if ~~~flags &&& GET_FLAG_IGNORE_EXPIRES ≠ 0 ∧ entry.expires ≠ CACHE_EXPIRES_INIT ∧
          entry.expires < env.now then
        ⟨.expired, .null, ctx⟩
      else
        let entry := { entry with nhits := entry.nhits + 1 }
        let ctx :=
          { ctx with store := ctx.store.setMapOf key ((ctx.store.mapOf key).put pos entry) }
        if entry.value.length > ctx.payload_buffer.cap then ⟨.bug, .null, ctx⟩
        else if entry.value.length > 0 then
          let buffer := ctx.payload_buffer
          ⟨.ok, .payloadBuffer, { ctx with
            payload_buffer := ⟨buffer.base.write 0 entry.value, entry.value.length, buffer.cap⟩ }⟩
        else ⟨.ok, .null, ctx⟩
  | (status, _, client) => ⟨status, .null, { ctx with client := client }⟩

/-! ### SET -/

/-- The size of the payload that a SET reserves memory for: a sum of `u32`s, taken as a
`size_t`. -/
def setTotalSize (tagLengths : List ℕ) (klen : UInt8) (vlen : UInt32) : UInt64 :=
  let tlen := tagLengths.foldl (fun tlen n => tlen + UInt32.ofNat n)
    (UInt32.ofNat (sizeofCacheTag * tagLengths.length))
  (tlen + klen.toUInt32 + vlen).toUInt64

/-- Where `handle_set_request` puts the parts of an entry, counted from the entry itself. -/
structure EntryLayout where
  /-- `entry->tags.base`. -/
  tagArray : ℕ
  /-- The bases of the tags. -/
  tags : List ℕ
  /-- `entry->key.base`. -/
  key : ℕ
  /-- `entry->value.base`. -/
  value : ℕ
  /-- Where the value ends. -/
  stop : ℕ

/-- The bases of tags that follow each other from `payload` on, and where they end. -/
def layoutTags (payload : ℕ) : List ℕ → List ℕ × ℕ
  | [] => ([], payload)
  | n :: lengths =>
    let (bases, payload') := layoutTags (payload + n) lengths
    (payload :: bases, payload')

/-- The pointers of `handle_set_request`. -/
def layoutEntry (tagLengths : List ℕ) (klen : UInt8) (vlen : UInt32) : EntryLayout :=
  let payload := sizeofCacheEntry
  let (bases, payload') := layoutTags (payload + sizeofCacheTag * tagLengths.length) tagLengths
  ⟨payload, bases, payload', payload' + klen.toNat, payload' + klen.toNat + vlen.toNat⟩

/-- The expiry time of an entry that a request with this TTL makes. -/
def expiryOf (now : Time) (ttl : UInt32) : Time :=
  if ttl = 0xFFFFFFFF then CACHE_EXPIRES_INIT else now + ttl.toNat

/-- What `handle_set_request` does with an entry once it is complete. -/
def setEntry (s : Store) (entry : CacheEntry) : StatusCode × Store :=
  match setLockedCacheEntry (s.mapOf entry.key) entry with
  | none => (.outOfMemory, s)
  | some (old_entry, map) =>
    let s := s.setMapOf entry.key map
    let tags := match old_entry with
      | some old_entry => removeKeyFromTags s.tags old_entry.tags old_entry.key
      | none => s.tags
    (.ok, { s with tags := addKeyToTags tags entry.tags entry.key })

/-- `handle_set_request`, where the entry fits in the block that is reserved for it, as it does if
it has less than `2 ^ 32` bytes (`makesOverlong`). -/
def handleSetRequest (env : Env) (ctx : Ctx) (request : Request) : Handled :=
  let klen := request.sKlen
  let vlen := ntohl request.sVlen
  let ntags := request.sNtags
  let ttl := ntohl request.sTtl
  let flags := request.sFlags
  match readRequestKey ctx.client klen with
  | (.ok, key, client) =>
    let ctx := { ctx with client := client }
    if flags &&& SET_FLAG_ONLY_TTL ≠ 0 then
      match lockAndGetCacheEntry (ctx.store.mapOf key) key with
      | none => ⟨.notFound, .null, ctx⟩
      | some (pos, entry) =>
        let entry := { entry with expires := expiryOf env.now ttl }
        ⟨.ok, .null,
          { ctx with store := ctx.store.setMapOf key ((ctx.store.mapOf key).put pos entry) }⟩
    else
      match readTagsUsingPayloadBuffer ctx ntags with
      | (.ok, slices, ctx) =>
        let total_size := setTotalSize (slices.map Slice.nmemb) klen vlen
        match env.reserve (entrySize total_size) with
        | none => ⟨.outOfMemory, .null, ctx⟩
        | some _ =>
          let tags := slices.map fun tag => tag.bytes ctx.payload_buffer.base
          match readRequestPayload ctx.client vlen.toNat with
          | (.ok, value, client) =>
            let entry := ⟨key, tags, value, env.now, expiryOf env.now ttl, 0⟩
            let (status, store) := setEntry ctx.store entry
            ⟨status, .null, { ctx with store := store, client := client }⟩
          | (status, _, client) => ⟨status, .null, { ctx with client := client }⟩
      | (status, _, ctx) => ⟨status, .null, ctx⟩
  | (status, _, client) => ⟨status, .null, { ctx with client := client }⟩

/-! ### DEL -/

/-- The loop of `delete_entry_by_key`: entries of the key are taken out of the map until
there are none. Each round frees a slot, so it ends before `fuel` rounds are over. -/
def unsetRest : ℕ → CacheEntryHashMap → CacheKey → CacheEntryHashMap
  | 0, map, _ => map
  | fuel + 1, map, key =>
    match lockAndUnsetCacheEntry map key with
    | none => map
    | some (_, map) => unsetRest fuel map key

/-- `delete_entry_by_key`. -/
def deleteEntryByKey (s : Store) (key : CacheKey) : StatusCode × Store :=
  match lockAndUnsetCacheEntry (s.mapOf key) key with
  | none => (.notFound, s)
  | some (entry, map) =>
    (.ok, { s.setMapOf key (unsetRest CACHE_ENTRY_MAP_SIZE map key) with
      tags := removeKeyFromTags s.tags entry.tags entry.key })

/-- `handle_del_request`. -/
def handleDelRequest (ctx : Ctx) (request : Request) : Handled :=
  match readRequestKey ctx.client request.dKlen with
  | (.ok, key, client) =>
    let (status, store) := deleteEntryByKey ctx.store key
    ⟨status, .null, { ctx with client := client, store := store }⟩
  | (status, _, client) => ⟨status, .null, { ctx with client := client }⟩

/-! ### CLR -/

/-- `clear_all_callback`. -/
def clearAllCallback (entry : CacheEntry) (tags : TagTree) : Bool × TagTree :=
  (true, removeKeyFromTags tags entry.tags entry.key)

/-- `clear_old_callback`. -/
def clearOldCallback (now : Time) (entry : CacheEntry) (tags : TagTree) : Bool × TagTree :=
  if entry.expires = CACHE_EXPIRES_INIT ∨ entry.expires ≥ now then (false, tags)
  else clearAllCallback entry tags

/-- `clear_non_matching_callback`. -/
def clearNonMatchingCallback (wanted : List CacheTag) (entry : CacheEntry) (tags : TagTree) :
    Bool × TagTree :=
  if wanted.any fun want => entry.tags.any fun have_ => want == have_ then (false, tags)
  else clearAllCallback entry tags

/-- `walk_all_entries`. -/
def walkAllEntries {σ : Type} (cb : CacheEntry → σ → Bool × σ)
    (maps : Fin NUM_CACHE_ENTRY_MAPS → CacheEntryHashMap) (data : σ) :
    (Fin NUM_CACHE_ENTRY_MAPS → CacheEntryHashMap) × σ :=
  (List.finRange NUM_CACHE_ENTRY_MAPS).foldl (fun st i =>
    let (map, data) := walkEntries cb (st.1 i) st.2
    (Function.update st.1 i map, data)) (maps, data)

/-- A walk over the entries with a callback that works on the tag index. -/
def clearEntries (cb : CacheEntry → TagTree → Bool × TagTree) (s : Store) : Store :=
  ⟨(walkAllEntries cb s.maps s.tags).1, (walkAllEntries cb s.maps s.tags).2⟩

/-- `delete_entry_by_key` for each key of a list. -/
def deleteKeys (s : Store) (keys : List CacheKey) : Store :=
  keys.foldl (fun s key => (deleteEntryByKey s key).2) s

/-- `handle_clr_request`. -/
def handleClrRequest (env : Env) (ctx : Ctx) (request : Request) : Handled :=
  let mode := request.cMode
  match readTagsUsingPayloadBuffer ctx request.cNtags with
  | (.ok, slices, ctx) =>
    let tags := slices.map fun tag => tag.bytes ctx.payload_buffer.base
    if mode = CLEAR_MODE_ALL then
      ⟨.ok, .null, { ctx with store := clearEntries clearAllCallback ctx.store }⟩
    else if mode = CLEAR_MODE_OLD then
      ⟨.ok, .null, { ctx with store := clearEntries (clearOldCallback env.now) ctx.store }⟩
    else if mode = CLEAR_MODE_MATCH_NONE then
      ⟨.ok, .null, { ctx with store := clearEntries (clearNonMatchingCallback tags) ctx.store }⟩
    else if mode = CLEAR_MODE_MATCH_ALL then
      ⟨.ok, .null,
        { ctx with store := deleteKeys ctx.store (getKeysMatchingAllTags ctx.store.tags tags) }⟩
    else if mode = CLEAR_MODE_MATCH_ANY then
      ⟨.ok, .null,
        { ctx with store := deleteKeys ctx.store (getKeysMatchingAnyTag ctx.store.tags tags) }⟩
    else ⟨.protocolError, .null, ctx⟩
  | (status, _, ctx) => ⟨status, .null, ctx⟩

/-! ### LST -/

/-- The data of the listing callbacks: a status, and the payload they write to, which
begins at `offset` in the worker's buffer. -/
structure ListData where
  /-- The status. -/
  status : StatusCode
  /-- The bytes of the worker's buffer. -/
  base : ByteMemory
  /-- Where the payload begins. -/
  offset : ℕ
  /-- How many bytes are written. -/
  nmemb : ℕ
  /-- How many there is room for. -/
  cap : ℕ

/-- A name with its length before it, written to the payload in the client's byte order,
if there is room. -/
def putName (name : List UInt8) (data : ListData) : ListData :=
  if data.nmemb + 1 + name.length > data.cap then { data with status := .outOfMemory }
  else
    let base := data.base.write (data.offset + data.nmemb) [UInt8.ofNat name.length]
    let nmemb := data.nmemb + 1
    let base := base.write (data.offset + nmemb) name
    let base := reverseBytes base (data.offset + nmemb) (UInt32.ofNat name.length)
    { data with base := base, nmemb := nmemb + name.length }

/-- `list_all_keys_callback`. -/
def listAllKeysCallback (entry : CacheEntry) (data : ListData) : Bool × ListData :=
  if data.status ≠ .ok then (false, data) else (false, putName entry.key data)

/-- `list_non_matching_callback`. The tags it compares with lie in the buffer. -/
def listNonMatchingCallback (tags : List Slice) (entry : CacheEntry) (data : ListData) :
    Bool × ListData :=
  if data.status ≠ .ok then (false, data)
  else if tags.any fun want => entry.tags.any fun have_ =>
    want.bytes data.base == have_ then (false, data)
  else listAllKeysCallback entry data

/-- `list_all_tags_callback`. -/
def listAllTagsCallback (tag : CacheTag) (data : ListData) : ListData :=
  if data.status ≠ .ok then data else putName tag data

/-- The loop of `handle_lst_request` over a list of keys. -/
def listKeys : List CacheKey → ListData → ListData
  | [], data => data
  | key :: keys, data =>
    let data := putName key data
    if data.status ≠ .ok then data else listKeys keys data

/-- The state after a listing. -/
def Ctx.listed (ctx : Ctx) (data : ListData) (nmemb : ℕ) : Ctx :=
  { ctx with payload_buffer := ⟨data.base, nmemb, ctx.payload_buffer.cap⟩ }

/-- `handle_lst_request`. -/
def handleLstRequest (ctx : Ctx) (request : Request) : Handled :=
  let mode := request.cMode
  match readTagsUsingPayloadBuffer ctx request.cNtags with
  | (.ok, slices, ctx) =>
    let buffer := ctx.payload_buffer
    let tags := slices.map fun tag => tag.bytes buffer.base
    let whole : ListData := ⟨.ok, buffer.base, 0, 0, buffer.cap⟩
    if mode = LIST_MODE_ALL_KEYS then
      let data := (walkAllEntries listAllKeysCallback ctx.store.maps whole).2
      ⟨data.status, .payloadBuffer, ctx.listed data data.nmemb⟩
    else if mode = LIST_MODE_ALL_TAGS then
      let data := walkAllTags listAllTagsCallback ctx.store.tags whole
      ⟨data.status, .payloadBuffer, ctx.listed data data.nmemb⟩
    else if mode = LIST_MODE_MATCH_NONE then
      let alt_payload : ListData := ⟨.ok, buffer.base, buffer.nmemb, 0, buffer.cap - buffer.nmemb⟩
      let data := (walkAllEntries (listNonMatchingCallback slices) ctx.store.maps alt_payload).2
      ⟨data.status, .altPayload, ctx.listed data buffer.nmemb⟩
    else if mode = LIST_MODE_MATCH_ALL then
      let data := listKeys (getKeysMatchingAllTags ctx.store.tags tags) whole
      ⟨data.status, .payloadBuffer, ctx.listed data data.nmemb⟩
    else if mode = LIST_MODE_MATCH_ANY then
      let data := listKeys (getKeysMatchingAnyTag ctx.store.tags tags) whole
      ⟨data.status, .payloadBuffer, ctx.listed data data.nmemb⟩
    else ⟨.protocolError, .null, ctx⟩
  | (status, _, ctx) => ⟨status, .null, ctx⟩

/-! ### NFO -/

/-- `sizeof (NFOResponsePayload)`. -/
def sizeofNFOResponsePayload : ℕ := 16

/-- `(u32) x` of a signed number. -/
def toU32 (x : ℤ) : UInt32 := UInt32.ofNat (x % 2 ^ 32).toNat

/-- `htonll`. -/
def htonll (x : ℤ) : UInt64 :=
  ((htonl (toU32 x)).toUInt64 <<< 32) ||| (htonl (toU32 (x >>> (32 : ℕ)))).toUInt64

/-- A `u64` in memory. -/
def store64 (x : UInt64) : List UInt8 := leBytes 8 x.toNat

/-- The loop of `handle_nfo_request` over the tags: `none` when the buffer is too small. -/
def nfoTags : List CacheTag → ByteMemory → ℕ → ℕ → ℕ → ByteMemory × ℕ × Bool
  | [], base, _, nmemb, _ => (base, nmemb, true)
  | tag :: tags, base, tag_data, nmemb, cap =>
    if nmemb + 1 + tag.length > cap then (base, nmemb, false)
    else
      let base := base.write tag_data [UInt8.ofNat tag.length]
      let base := base.write (tag_data + 1) tag
      let base := reverseBytes base (tag_data + 1) (UInt32.ofNat tag.length)
      nfoTags tags base (tag_data + 1 + tag.length) (nmemb + 1 + tag.length) cap

/-- `handle_nfo_request`. -/
def handleNfoRequest (env : Env) (ctx : Ctx) (request : Request) : Handled :=
  let klen := request.nKlen
  let buffer : Payload := { ctx.payload_buffer with nmemb := sizeofNFOResponsePayload }
  let ctx := { ctx with payload_buffer := buffer }
  if klen > 0 then
    match readRequestKey ctx.client klen with
    | (.ok, key, client) =>
      let ctx := { ctx with client := client }
      match lockAndGetCacheEntry (ctx.store.mapOf key) key with
      | none => ⟨.notFound, .payloadBuffer, ctx⟩
      | some (_, entry) =>
        let base := buffer.base.write 0 (store64 (htonll entry.expires))
        let base := base.write 8 (store64 (htonll entry.mtime))
        let (base, nmemb, fits) :=
          nfoTags entry.tags base sizeofNFOResponsePayload buffer.nmemb buffer.cap
        ⟨if fits then .ok else .bug, .payloadBuffer,
          { ctx with payload_buffer := ⟨base, nmemb, buffer.cap⟩ }⟩
    | (status, _, client) => ⟨status, .payloadBuffer, { ctx with client := client }⟩
  else
    let base := buffer.base.write 0 (store32 (htonl env.info.bytes_reserved) ++
      store32 (htonl env.info.bytes_used) ++ store32 (htonl env.info.bytes_free) ++
      store32 (htonl env.info.bytes_reused))
    ⟨.ok, .payloadBuffer, { ctx with payload_buffer := { buffer with base := base } }⟩

/-! ### All requests -/

/-- `handle_request`. -/
def handleRequest (env : Env) (ctx : Ctx) (request : Request) : Handled :=
  if request.bytes 0 ≠ CONTROL_BYTE_1 ∨ request.bytes 1 ≠ CONTROL_BYTE_2 ∨
      request.bytes 2 ≠ CONTROL_BYTE_3 then
    ⟨.protocolError, .null, ctx⟩
  else if request.op = CMD_BYTE_GET then handleGetRequest env ctx request
  else if request.op = CMD_BYTE_SET then handleSetRequest env ctx request
  else if request.op = CMD_BYTE_DEL then handleDelRequest ctx request
  else if request.op = CMD_BYTE_CLR then handleClrRequest env ctx request
  else if request.op = CMD_BYTE_LST then handleLstRequest ctx request
  else if request.op = CMD_BYTE_NFO then handleNfoRequest env ctx request
  else ⟨.protocolError, .null, ctx⟩

/-! ### What the handlers do not come to an end on -/

/-- What `handle_set_request` reads of the tags, if it gets to them. -/
def setTagsRead (client : Client) (buffer : Payload) (request : Request) : Option TagsRead :=
  match readRequestKey client request.sKlen with
  | (.ok, _, client) =>
    if request.sFlags &&& SET_FLAG_ONLY_TTL ≠ 0 then none
    else some (readTagsLoop request.sNtags.toNat client buffer.base 0 buffer.cap [])
  | _ => none

/-- One of the tags that are read has no bytes. -/
def TagsRead.hasEmpty (r : TagsRead) : Bool := r.tags.any fun tag => tag.nmemb == 0

/-- The handler comes to a key or a tag of length `0`. It has `reverse_bytes` turn the bytes round
then, whose loop runs from `0` to `nmemb - 1`, an unsigned number: it does not return, but goes on
through the memory of the process until it is stopped. -/
def readsEmptyName (client : Client) (buffer : Payload) (request : Request) : Bool :=
  if request.bytes 0 ≠ CONTROL_BYTE_1 ∨ request.bytes 1 ≠ CONTROL_BYTE_2 ∨
      request.bytes 2 ≠ CONTROL_BYTE_3 then
    false
  else if request.op = CMD_BYTE_GET then request.gKlen == 0
  else if request.op = CMD_BYTE_SET then
    request.sKlen == 0 || (setTagsRead client buffer request).any TagsRead.hasEmpty
  else if request.op = CMD_BYTE_DEL then request.dKlen == 0
  else if request.op = CMD_BYTE_CLR then
    (readTagsLoop request.cNtags.toNat client buffer.base 0 buffer.cap []).hasEmpty
  else if request.op = CMD_BYTE_LST then
    (readTagsLoop request.cNtags.toNat client buffer.base 0 buffer.cap []).hasEmpty
  else false

/-- The request is a SET of an entry of `2 ^ 32` bytes or more. Its size wraps then, and the value
is read past the end of the block. -/
def makesOverlong (client : Client) (buffer : Payload) (request : Request) : Bool :=
  if request.bytes 0 ≠ CONTROL_BYTE_1 ∨ request.bytes 1 ≠ CONTROL_BYTE_2 ∨
      request.bytes 2 ≠ CONTROL_BYTE_3 then
    false
  else if request.op = CMD_BYTE_SET then
    (setTagsRead client buffer request).any fun r =>
      2 ^ 32 ≤ (layoutEntry (r.tags.map Slice.nmemb) request.sKlen (ntohl request.sVlen)).stop
  else false

end Cik

import Cik.Interleaving.Maps

/-!
# The handlers, as programs

`controller.c` as programs over the operations: the six handlers and `handle_request`.
What a handler does with its own variables and with the payload buffer of its worker is
as in `Cik.Source.Controller`, whose functions on them are used here. A read from the
client may give the bytes asked for or fail, each time anew.
-/

namespace Cik

namespace Guarded

/-- What a handler answers. -/
structure Reply where
  /-- The status. -/
  status : StatusCode
  /-- `*response_payload`. -/
  response_payload : PayloadPtr
  /-- The worker's payload buffer. -/
  payload_buffer : Payload

/-! ### Keys and tags of a request -/

/-- `read_request_key`. From a key of no bytes `reverse_bytes` does not return. -/
def readRequestKey (klen : UInt8) : Program (StatusCode × CacheKey) := do
  match ← read klen.toNat with
  | (.ok, bs) =>
    if klen = 0 then crash
    else return (.ok,
      (reverseBytes (ByteMemory.write (fun _ => 0) 0 bs) 0 klen.toUInt32).read 0 klen.toNat)
  | (status, _) => return (status, [])

/-- The loop of `read_tags_using_payload_buffer`: the status, the tags, the bytes of the
buffer, and how much of it is left. From a tag of no bytes `reverse_bytes` does not return. -/
def readTagsLoop : ℕ → ByteMemory → ℕ → ℕ → List Slice →
    Program (StatusCode × List Slice × ByteMemory × ℕ)
  | 0, base, _, buffer_cap, tags => pure (.ok, tags, base, buffer_cap)
  | ntags + 1, base, buffer, buffer_cap, tags => do
    match ← read 1 with
    | (.ok, bs) =>
      let nmemb := bs.headD 0
      if nmemb.toNat > buffer_cap then return (.outOfMemory, tags, base, buffer_cap)
      else
        match ← read nmemb.toNat with
        | (.ok, bs) =>
          if nmemb = 0 then crash
          else
            readTagsLoop ntags (reverseBytes (base.write buffer bs) buffer nmemb.toUInt32)
              (buffer + nmemb.toNat) (buffer_cap - nmemb.toNat) (tags ++ [⟨buffer, nmemb.toNat⟩])
        | (status, bs) => return (status, tags, base.write buffer bs, buffer_cap)
    | (status, _) => return (status, tags, base, buffer_cap)

/-- `read_tags_using_payload_buffer`: the status, the tags, and the buffer. -/
def readTagsUsingPayloadBuffer (buffer : Payload) (ntags : UInt8) :
    Program (StatusCode × List Slice × Payload) := do
  let (status, tags, base, buffer_cap) ← readTagsLoop ntags.toNat buffer.base 0 buffer.cap []
  return (status, tags,
    ⟨base, if status = .ok then buffer.cap - buffer_cap else buffer.nmemb, buffer.cap⟩)

/-! ### GET -/

/-- `handle_get_request`. -/
def handleGetRequest (buffer : Payload) (request : Request) : Program Reply := do
  let klen := request.gKlen
  let flags := request.gFlags
  match ← readRequestKey klen with
  | (.ok, key) =>
    match ← lockAndGetCacheEntry key with
    | none => return ⟨.notFound, .null, buffer⟩
    | some e =>
      let entry ← readEntry e
      let expired ← if ~~~flags &&& GET_FLAG_IGNORE_EXPIRES ≠ 0 ∧
          entry.expires ≠ CACHE_EXPIRES_INIT then
          do pure (decide (entry.expires < (← time)))
        else pure false
      if expired then
        unlock (.entry e)
        return ⟨.expired, .null, buffer⟩
      writeEntry e { entry with nhits := entry.nhits + 1 }
      unlock (.entry e)
      if entry.value.length > buffer.cap then return ⟨.bug, .null, buffer⟩
      else if entry.value.length > 0 then
        return ⟨.ok, .payloadBuffer,
          ⟨buffer.base.write 0 entry.value, entry.value.length, buffer.cap⟩⟩
      else return ⟨.ok, .null, buffer⟩
  | (status, _) => return ⟨status, .null, buffer⟩

/-! ### SET -/

/-- The key is removed from each of the tags. -/
def removeKeyFromTags (key : CacheKey) : List CacheTag → Program Unit
  | [] => pure ()
  | tag :: tags => do
    removeKeyFromTag tag key
    removeKeyFromTags key tags

/-- The key is added to each of the tags. -/
def addKeyToTags (key : CacheKey) : List CacheTag → Program Unit
  | [] => pure ()
  | tag :: tags => do
    addKeyToTag tag key
    addKeyToTags key tags

/-- What `handle_set_request` does when only the expiry time is to be renewed. -/
def renewTtl (key : CacheKey) (ttl : UInt32) : Program StatusCode := do
  match ← lockAndGetCacheEntry key with
  | none => return .notFound
  | some e =>
    let entry ← readEntry e
    if ttl = 0xFFFFFFFF then writeEntry e { entry with expires := CACHE_EXPIRES_INIT }
    else writeEntry e { entry with expires := (← time) + ttl.toNat }
    unlock (.entry e)
    return .ok

/-- What `handle_set_request` does with an entry once it is complete. -/
def setEntry (e : ℕ) : Program StatusCode := do
  match ← setLockedCacheEntry e with
  | (false, _) =>
    unlock (.entry e)
    release e
    return .outOfMemory
  | (true, old_entry) =>
    match old_entry with
    | some old =>
      let old_entry ← readEntry old
      removeKeyFromTags old_entry.key old_entry.tags
      unlock (.entry old)
      release old
    | none => pure ()
    let entry ← readEntry e
    addKeyToTags entry.key entry.tags
    unlock (.entry e)
    return .ok

/-- What `handle_set_request` does once key and tags are read: the entry is made and set. With its
parts it ends `stop` bytes from its beginning on; a value that does not come whole ends before. -/
def storeEntry (key : CacheKey) (tags : List CacheTag) (total_size : UInt64) (stop : ℕ)
    (vlen ttl : UInt32) :
    Program StatusCode := do
  match ← reserveAndLockEntry total_size with
  | none => return .outOfMemory
  | some e =>
    let entry ← readEntry e
    let entry := { entry with key := key, tags := tags }
    writeEntry e entry
    match ← read vlen.toNat with
    | (.ok, value) =>
      fill e (entrySize total_size) stop
      let mtime ← time
      writeEntry e { entry with value := value, mtime := mtime, expires := expiryOf mtime ttl }
      setEntry e
    | (status, value) =>
      fill e (entrySize total_size) (stop - (vlen.toNat - value.length))
      unlock (.entry e)
      release e
      return status

/-- `handle_set_request`. -/
def handleSetRequest (buffer : Payload) (request : Request) : Program Reply := do
  let klen := request.sKlen
  let vlen := ntohl request.sVlen
  let ntags := request.sNtags
  let ttl := ntohl request.sTtl
  let flags := request.sFlags
  match ← readRequestKey klen with
  | (.ok, key) =>
    if flags &&& SET_FLAG_ONLY_TTL ≠ 0 then return ⟨← renewTtl key ttl, .null, buffer⟩
    else
      match ← readTagsUsingPayloadBuffer buffer ntags with
      | (.ok, slices, buffer) =>
        let tags := slices.map fun tag => tag.bytes buffer.base
        let total_size := setTotalSize (slices.map Slice.nmemb) klen vlen
        let stop := (layoutEntry (slices.map Slice.nmemb) klen vlen).stop
        return ⟨← storeEntry key tags total_size stop vlen ttl, .null, buffer⟩
      | (status, _, buffer) => return ⟨status, .null, buffer⟩
  | (status, _) => return ⟨status, .null, buffer⟩

/-! ### DEL -/

/-- The loop of `delete_entry_by_key`: the entry is released, and the next one of the key
is taken out of the map, until there is none. -/
def releaseAll (key : CacheKey) (entry : ℕ) : Program Unit :=
  .iterate (fun entry => do
    unlock (.entry entry)
    release entry
    match ← lockAndUnsetCacheEntry key with
    | some entry => return .inl entry
    | none => return .inr ()) entry

/-- `delete_entry_by_key`. -/
def deleteEntryByKey (key : CacheKey) : Program StatusCode := do
  match ← lockAndUnsetCacheEntry key with
  | none => return .notFound
  | some e =>
    let entry ← readEntry e
    removeKeyFromTags entry.key entry.tags
    releaseAll key e
    return .ok

/-- `handle_del_request`. -/
def handleDelRequest (buffer : Payload) (request : Request) : Program Reply := do
  match ← readRequestKey request.dKlen with
  | (.ok, key) => return ⟨← deleteEntryByKey key, .null, buffer⟩
  | (status, _) => return ⟨status, .null, buffer⟩

/-! ### CLR -/

/-- `clear_all_callback`. It releases the entry; the caller then clears the slot. -/
def clearAllCallback (e : ℕ) : Program Bool := do
  let entry ← readEntry e
  removeKeyFromTags entry.key entry.tags
  unlock (.entry e)
  release e
  return true

/-- A callback that calls `clear_all_callback` for the entries that `keep` does not keep. -/
def clearUnless (keep : CacheEntry → Bool) (e : ℕ) (_ : Unit) : Program (Bool × Unit) := do
  if keep (← readEntry e) then return (false, ())
  else return (← clearAllCallback e, ())

/-- `clear_old_callback` keeps an entry. -/
def keepsOld (now : Time) (entry : CacheEntry) : Bool :=
  entry.expires = CACHE_EXPIRES_INIT ∨ entry.expires ≥ now

/-- `clear_non_matching_callback` keeps an entry. -/
def keepsMatching (wanted : List CacheTag) (entry : CacheEntry) : Bool :=
  wanted.any fun want => entry.tags.any fun have_ => want == have_

/-- The next `n` maps. -/
def walkMaps {σ : Type} (cb : ℕ → σ → Program (Bool × σ)) :
    ℕ → Fin NUM_CACHE_ENTRY_MAPS → σ → Program σ
  | 0, _, data => pure data
  | n + 1, i, data => do walkMaps cb n (i + 1) (← walkEntries cb i data)

/-- `walk_all_entries`. -/
def walkAllEntries {σ : Type} (cb : ℕ → σ → Program (Bool × σ)) (data : σ) : Program σ :=
  walkMaps cb NUM_CACHE_ENTRY_MAPS 0 data

/-- `delete_entry_by_key` for each key of a list. -/
def deleteKeys : List KeyElem → Program Unit
  | [] => pure ()
  | elem :: next => do
    let _ ← deleteEntryByKey elem.key
    deleteKeys next

/-- The keys of a list are deleted, and the list is released. -/
def deleteKeyList (keys : Program (List KeyElem)) : Program Unit := do
  let keys ← keys
  deleteKeys keys
  releaseKeyList keys

/-- `handle_clr_request`. -/
def handleClrRequest (buffer : Payload) (request : Request) : Program Reply := do
  let mode := request.cMode
  match ← readTagsUsingPayloadBuffer buffer request.cNtags with
  | (.ok, slices, buffer) =>
    let tags := slices.map fun tag => tag.bytes buffer.base
    if mode = CLEAR_MODE_ALL then
      walkAllEntries (clearUnless fun _ => false) ()
      return ⟨.ok, .null, buffer⟩
    else if mode = CLEAR_MODE_OLD then
      let now ← time
      walkAllEntries (clearUnless (keepsOld now)) ()
      return ⟨.ok, .null, buffer⟩
    else if mode = CLEAR_MODE_MATCH_NONE then
      walkAllEntries (clearUnless (keepsMatching tags)) ()
      return ⟨.ok, .null, buffer⟩
    else if mode = CLEAR_MODE_MATCH_ALL then
      deleteKeyList (getKeysMatchingAllTags tags)
      return ⟨.ok, .null, buffer⟩
    else if mode = CLEAR_MODE_MATCH_ANY then
      deleteKeyList (getKeysMatchingAnyTag tags)
      return ⟨.ok, .null, buffer⟩
    else return ⟨.protocolError, .null, buffer⟩
  | (status, _, buffer) => return ⟨status, .null, buffer⟩

/-! ### LST -/

/-- A callback that only looks at the entry. -/
def look {σ : Type} (callback : CacheEntry → σ → Bool × σ) (e : ℕ) (data : σ) :
    Program (Bool × σ) := do
  return callback (← readEntry e) data

/-- The keys of a list are listed, and the list is released. -/
def listKeyList (keys : Program (List KeyElem)) (data : ListData) : Program ListData := do
  let list ← keys
  let data := listKeys (list.map KeyElem.key) data
  releaseKeyList list
  return data

/-- The answer after a listing to the whole buffer. -/
def Reply.listed (data : ListData) (cap : ℕ) : Reply :=
  ⟨data.status, .payloadBuffer, ⟨data.base, data.nmemb, cap⟩⟩

/-- `handle_lst_request`. -/
def handleLstRequest (buffer : Payload) (request : Request) : Program Reply := do
  let mode := request.cMode
  match ← readTagsUsingPayloadBuffer buffer request.cNtags with
  | (.ok, slices, buffer) =>
    let tags := slices.map fun tag => tag.bytes buffer.base
    let whole : ListData := ⟨.ok, buffer.base, 0, 0, buffer.cap⟩
    if mode = LIST_MODE_ALL_KEYS then
      return .listed (← walkAllEntries (look listAllKeysCallback) whole) buffer.cap
    else if mode = LIST_MODE_ALL_TAGS then
      return .listed (← walkAllTags listAllTagsCallback whole) buffer.cap
    else if mode = LIST_MODE_MATCH_NONE then
      let alt_payload : ListData := ⟨.ok, buffer.base, buffer.nmemb, 0, buffer.cap - buffer.nmemb⟩
      let data ← walkAllEntries (look (listNonMatchingCallback slices)) alt_payload
      return ⟨data.status, .altPayload, ⟨data.base, buffer.nmemb, buffer.cap⟩⟩
    else if mode = LIST_MODE_MATCH_ALL then
      return .listed (← listKeyList (getKeysMatchingAllTags tags) whole) buffer.cap
    else if mode = LIST_MODE_MATCH_ANY then
      return .listed (← listKeyList (getKeysMatchingAnyTag tags) whole) buffer.cap
    else return ⟨.protocolError, .null, buffer⟩
  | (status, _, buffer) => return ⟨status, .null, buffer⟩

/-! ### NFO -/

/-- `handle_nfo_request`. -/
def handleNfoRequest (buffer : Payload) (request : Request) : Program Reply := do
  let klen := request.nKlen
  let buffer : Payload := { buffer with nmemb := sizeofNFOResponsePayload }
  if klen > 0 then
    match ← readRequestKey klen with
    | (.ok, key) =>
      match ← lockAndGetCacheEntry key with
      | none => return ⟨.notFound, .payloadBuffer, buffer⟩
      | some e =>
        let entry ← readEntry e
        let base := buffer.base.write 0 (store64 (htonll entry.expires))
        let base := base.write 8 (store64 (htonll entry.mtime))
        let (base, nmemb, fits) :=
          nfoTags entry.tags base sizeofNFOResponsePayload buffer.nmemb buffer.cap
        unlock (.entry e)
        return ⟨if fits then .ok else .bug, .payloadBuffer, ⟨base, nmemb, buffer.cap⟩⟩
    | (status, _) => return ⟨status, .payloadBuffer, buffer⟩
  else
    let info ← info
    let base := buffer.base.write 0 (store32 (htonl info.bytes_reserved) ++
      store32 (htonl info.bytes_used) ++ store32 (htonl info.bytes_free) ++
      store32 (htonl info.bytes_reused))
    return ⟨.ok, .payloadBuffer, { buffer with base := base }⟩

/-! ### All requests -/

/-- A request as a worker passes it on: its payload buffer, as the requests before have
left it, and the header. -/
structure Call where
  /-- The worker's payload buffer. -/
  payload_buffer : Payload
  /-- The header. -/
  request : Request

/-- `handle_request`. -/
def handleRequest (c : Call) : Program Reply :=
  let buffer := c.payload_buffer
  let request := c.request
  if request.bytes 0 ≠ CONTROL_BYTE_1 ∨ request.bytes 1 ≠ CONTROL_BYTE_2 ∨
      request.bytes 2 ≠ CONTROL_BYTE_3 then
    return ⟨.protocolError, .null, buffer⟩
  else if request.op = CMD_BYTE_GET then handleGetRequest buffer request
  else if request.op = CMD_BYTE_SET then handleSetRequest buffer request
  else if request.op = CMD_BYTE_DEL then handleDelRequest buffer request
  else if request.op = CMD_BYTE_CLR then handleClrRequest buffer request
  else if request.op = CMD_BYTE_LST then handleLstRequest buffer request
  else if request.op = CMD_BYTE_NFO then handleNfoRequest buffer request
  else return ⟨.protocolError, .null, buffer⟩

/-! ### The workers -/

variable {τ : Type*}

/-- Any number of workers, each of which handles one request after the other. -/
abbrev Workers (τ : Type*) := Threads τ (Process τ) (Option (Program Reply))

/-- What can be seen of a step of a worker. -/
abbrev Event := Prog.Event Op.Answer Call Reply

/-- The steps of the workers, where blocks hold what is written to them. -/
def Step : Workers τ → τ × Event → Workers τ → Prop :=
  Threads.Step (Prog.Serve Op.act handleRequest)

/-- The steps of the workers, with what is written past a block. -/
def MachineStep : Workers τ → τ × Event → Workers τ → Prop :=
  Threads.Step (Prog.Serve Op.effect handleRequest)

/-- Something is written past a block. -/
def overruns : Event → Bool
  | .did o _ => o.overruns
  | _ => false

/-- The step writes nothing past a block. -/
def Fits (_ : Workers τ) (a : τ × Event) : Prop := overruns a.2 = false

/-- A step that writes nothing past a block is the same with both. -/
theorem machineStep_iff_of_fits {c c' : Workers τ} {a : τ × Event} (hf : Fits c a) :
    MachineStep c a c' ↔ Step c a c' := by
  constructor
  · intro h
    refine ⟨h.own.congr fun o r ha hact => Op.act_of_effect hact ?_, h.others⟩
    rwa [Fits, ha] at hf
  · intro h
    refine ⟨h.own.congr fun o r ha hact => Op.effect_of_act hact ?_, h.others⟩
    rwa [Fits, ha] at hf

/-- Runs that write nothing past a block. -/
theorem run_of_fits {c c' : Workers τ} {l : List (τ × Event)}
    (h : Run (Provided Fits MachineStep) c l c') :
    Run Step c l c' := h.mono fun _ _ _ hs => (machineStep_iff_of_fits hs.1).mp hs.2

/-- None of the steps writes past a block. -/
def AllFit (l : List (τ × Event)) : Prop := (l.any fun a => overruns a.2) = false

theorem AllFit.provided {c c' : Workers τ} {l : List (τ × Event)} (hl : AllFit l)
    (h : Run MachineStep c l c') :
    Run (Provided Fits MachineStep) c l c' :=
  h.provided fun a ha => Bool.eq_false_iff.mpr fun hov => List.any_eq_false.mp hl a ha hov

theorem AllFit.run {c c' : Workers τ} {l : List (τ × Event)} (hl : AllFit l)
    (h : Run MachineStep c l c') :
    Run Step c l c' := run_of_fits (hl.provided h)

/-- The workers at start-up: the maps are empty and the root of the tag tree has no keys;
`start` are the blocks that were reserved before. The root is not a block. -/
def Workers.init (start : ℕ → Bool) : Workers τ where
  shared :=
    { slotGuard := fun _ => none
      entryGuard := fun _ => none
      keysLock := fun _ => none
      mark := fun _ => none
      slots := fun _ => none
      entries := fun _ => cacheEntryInit 0
      tag := fun _ => rootValue
      child := fun _ _ => none
      keys := fun _ => []
      live := fun b => start b && b != root
      partition := fun _ => MAX_BUCKET_SIZE }
  loc := fun _ => none

end Guarded

end Cik

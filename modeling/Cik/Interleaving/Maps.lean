import Cik.Interleaving.Operations

/-!
# The shared structures, as programs

The functions of `memory.c`, `tag.c` and `entry.c` that the handlers call, as programs
over the operations: they take and release guards in the order of the source, and may
be interrupted between any two operations. The functions of the same names in
`Cik.Source` are the same ones run one at a time.
-/

namespace Cik

namespace Guarded

/-! ### `memory.c` -/

/-- `sizeof (KeyElem)`. -/
def sizeofKeyElem : ℕ := 24

/-- `sizeof (TagNode)`. -/
def sizeofTagNode : ℕ := 48

/-- `sizeof (struct TagElem)`. -/
def sizeofTagElem : ℕ := 16

/-- `reserve_memory`. When the mark was already set, the list is left alone. -/
def reserveMemory (size : UInt32) : Program (Option ℕ) :=
  match partitionSizes.find? (size.toNat ≤ ·) with
  | none => pure none
  | some p => do
    if ← tryLock (.list p) then unlock (.list p)
    bucket p

/-- `reserve_and_lock_entry`. -/
def reserveAndLockEntry (payload_size : UInt64) : Program (Option ℕ) := do
  match ← reserveMemory (entrySize payload_size) with
  | none => pure none
  | some entry =>
    initEntry entry
    lock (.entry entry)
    pure (some entry)

/-! ### `tag.c` -/

/-- `create_key_elem`. -/
def createKeyElem (key : CacheKey) : Program (Option KeyElem) := do
  match ← reserveMemory (UInt32.ofNat (sizeofKeyElem + key.length)) with
  | none => pure none
  | some elem => pure (some ⟨elem, key⟩)

/-- `create_tag_node`; the node is not checked for. -/
def createTagNode (tag : CacheTag) : Program ℕ := do
  match ← reserveMemory (UInt32.ofNat (sizeofTagNode + tag.length)) with
  | none => crash
  | some node =>
    initNode node tag
    pure node

/-- `insert_if_unique`. -/
def insertIfUnique (list : List KeyElem) (key : CacheKey) : Program (List KeyElem × Bool) :=
  if key ∈ list.map KeyElem.key then pure (list, false)
  else do
    match ← createKeyElem key with
    | none => pure (list, false)
    | some elem => pure (elem :: list, true)

/-- What `get_or_create_node` does at one side of a node. -/
def getOrCreateChild (tag : CacheTag) (parent : ℕ) (side : Side) : Program ℕ := do
  match ← readChild parent side with
  | some node => pure node
  | none =>
    let node ← createTagNode tag
    if ← exchangeChild parent side node then pure node
    else
      release node
      match ← readChild parent side with
      | some node => pure node
      | none => crash

/-- `get_or_create_node`. -/
def getOrCreateNode (tag : CacheTag) : Program ℕ :=
  .iterate (fun parent => do
    match compareTags tag (← readTag parent) with
    | .lt => return .inl (← getOrCreateChild tag parent .left)
    | .gt => return .inl (← getOrCreateChild tag parent .right)
    | .eq => return .inr parent) root

/-- What the loop of `get_tag_if_exists` makes of a child. -/
def nextNode : Option ℕ → ℕ ⊕ Option ℕ
  | some node => .inl node
  | none => .inr none

/-- `get_tag_if_exists`. -/
def getTagIfExists (tag : CacheTag) : Program (Option ℕ) :=
  .iterate (fun current => do
    match compareTags tag (← readTag current) with
    | .eq => return .inr (some current)
    | .lt => return nextNode (← readChild current .left)
    | .gt => return nextNode (← readChild current .right)) root

/-- `copy_key_list`. A last element there is no memory for is left out; after any other,
the next one is stored through a null pointer. -/
def copyKeyList : List KeyElem → Program (List KeyElem)
  | [] => pure []
  | elem :: next => do
    match ← createKeyElem elem.key with
    | none => if next = [] then pure [] else crash
    | some copy => return copy :: (← copyKeyList next)

/-- `get_key_list_copy_by_tag`. -/
def getKeyListCopyByTag (tag : CacheTag) : Program (List KeyElem) := do
  match ← getTagIfExists tag with
  | none => pure []
  | some node =>
    lock (.keys node)
    let copy ← copyKeyList (← readKeys node)
    unlock (.keys node)
    pure copy

/-- `add_key_to_tag`. -/
def addKeyToTag (tag : CacheTag) (key : CacheKey) : Program Unit := do
  let node ← getOrCreateNode tag
  lock (.keys node)
  let (keys, isNew) ← insertIfUnique (← readKeys node) key
  if isNew then writeKeys node keys
  unlock (.keys node)

/-- The element of a key, and the list without it. -/
def unlinkElem (key : CacheKey) : List KeyElem → Option (KeyElem × List KeyElem)
  | [] => none
  | elem :: next =>
    if elem.key = key then some (elem, next)
    else (unlinkElem key next).map fun x => (x.1, elem :: x.2)

/-- `remove_key_from_tag`. -/
def removeKeyFromTag (tag : CacheTag) (key : CacheKey) : Program Unit := do
  match ← getTagIfExists tag with
  | none => pure ()
  | some node =>
    lock (.keys node)
    match unlinkElem key (← readKeys node) with
    | none => pure ()
    | some (found, keys) =>
      writeKeys node keys
      release found.base
    unlock (.keys node)

/-- `release_key_list`. -/
def releaseKeyList : List KeyElem → Program Unit
  | [] => pure ()
  | elem :: next => do
    release elem.base
    releaseKeyList next

/-- The loop over `keys` in `get_keys_matching_any_tag`. -/
def mergeKeys (found_keys : List KeyElem) : List KeyElem → Program (List KeyElem)
  | [] => pure found_keys
  | elem :: next => do
    let (found_keys, _) ← insertIfUnique found_keys elem.key
    mergeKeys found_keys next

/-- The loop over `found_keys` in `get_keys_matching_all_tags`. -/
def retainKeys (keys : List KeyElem) : List KeyElem → Program (List KeyElem)
  | [] => pure []
  | found_key :: next =>
    if found_key.key ∈ keys.map KeyElem.key then do return found_key :: (← retainKeys keys next)
    else do
      release found_key.base
      retainKeys keys next

/-- The loop over the tags after the first one: `combine` is given the keys found so far
and the keys of the tag. -/
def combineTags (combine : List KeyElem → List KeyElem → Program (List KeyElem)) :
    List CacheTag → List KeyElem → Program (List KeyElem)
  | [], found_keys => pure found_keys
  | tag :: tags, found_keys => do
    let keys ← getKeyListCopyByTag tag
    let found_keys ← combine found_keys keys
    releaseKeyList keys
    combineTags combine tags found_keys

/-- `get_keys_matching_any_tag`. -/
def getKeysMatchingAnyTag : List CacheTag → Program (List KeyElem)
  | [] => pure []
  | tag :: tags => do combineTags mergeKeys tags (← getKeyListCopyByTag tag)

/-- `get_keys_matching_all_tags`. -/
def getKeysMatchingAllTags : List CacheTag → Program (List KeyElem)
  | [] => pure []
  | tag :: tags => do
    combineTags (fun found_keys keys => retainKeys keys found_keys) tags (← getKeyListCopyByTag tag)

/-- An element of the stack of `walk_all_tags`. -/
structure TagElem where
  /-- Its address. -/
  base : ℕ
  /-- The node. -/
  node : ℕ

/-- The inner loop of `walk_all_tags`: the nodes on the way to the left are put on the stack. -/
def pushLeft (current : Option ℕ) (stack : List TagElem) : Program (List TagElem) :=
  .iterate (fun (current, stack) => do
    match current with
    | none => return .inr stack
    | some node =>
      match ← reserveMemory (UInt32.ofNat sizeofTagElem) with
      | none => crash
      | some tmp => return .inl (← readChild node .left, ⟨tmp, node⟩ :: stack)) (current, stack)

/-- `walk_all_tags`. -/
def walkAllTags {σ : Type} (callback : CacheTag → σ → σ) (data : σ) : Program σ :=
  .iterate (fun (current, stack, data) => do
    if current = none ∧ stack = [] then return .inr data
    else
      match ← pushLeft current stack with
      | [] => crash
      | tmp :: stack =>
        release tmp.base
        lock (.keys tmp.node)
        let keys ← readKeys tmp.node
        unlock (.keys tmp.node)
        let data ← if keys ≠ [] then do pure (callback (← readTag tmp.node) data) else pure data
        return .inl (← readChild tmp.node .right, stack, data))
          (some root, ([] : List TagElem), data)

/-! ### `entry.c` -/

/-- The `do … while (pos != slot)` of a search: what is done at each slot of the map once,
from `pos` on, until something comes of it. -/
def probe {α : Type} (visit : SlotPos → Program (Option α)) (map : Fin NUM_CACHE_ENTRY_MAPS) :
    ℕ → Fin CACHE_ENTRY_MAP_SIZE → Program (Option α)
  | 0, _ => pure none
  | n + 1, pos => do
    match ← visit (map, pos) with
    | some a => pure (some a)
    | none => probe visit map n (pos + 1)

/-- A search for a key. -/
def probeKey {α : Type} (visit : SlotPos → Program (Option α)) (key : CacheKey) :
    Program (Option α) :=
  probe visit (getMapForKey key) CACHE_ENTRY_MAP_SIZE (homeSlot key)

/-- What a search does at a slot: if the entry there has the key, `found` is done, with the
slot and the entry locked. -/
def visitKey {α : Type} (key : CacheKey) (found : SlotPos → ℕ → Program α) (p : SlotPos) :
    Program (Option α) := do
  lock (.slot p)
  match ← readSlot p with
  | some slot =>
    if slot.hash = getKeyHash key then
      lock (.entry slot.entry)
      if (← readEntry slot.entry).key = key then return some (← found p slot.entry)
      unlock (.entry slot.entry)
  | none => pure ()
  unlock (.slot p)
  return none

/-- `lock_and_get_cache_entry`. The slot is read once more after its guard is released. -/
def lockAndGetCacheEntry (key : CacheKey) : Program (Option ℕ) := do
  let entry ← probeKey (visitKey key fun p entry => do
    unlock (.slot p)
    returnEntry p entry key) key
  return entry.join

/-- `lock_and_unset_cache_entry`. -/
def lockAndUnsetCacheEntry (key : CacheKey) : Program (Option ℕ) :=
  probeKey (visitKey key fun p entry => do
    writeSlot p none
    unlock (.slot p)
    pure entry) key

/-- What comes of the search of `set_locked_cache_entry`. -/
inductive Probed where
  /-- The entry is already in the map. -/
  | already
  /-- A slot, which is still locked, and the occupant, which is too. -/
  | found (p : SlotPos) (occupant : Option ℕ)

/-- What `set_locked_cache_entry` does at a slot. -/
def visitOpen (key : CacheKey) (entry : ℕ) (p : SlotPos) : Program (Option Probed) := do
  lock (.slot p)
  match ← readSlot p with
  | some slot =>
    if slot.hash = getKeyHash key then
      if slot.entry = entry then
        unlock (.slot p)
        return some .already
      lock (.entry slot.entry)
      if (← readEntry slot.entry).key = key then return some (.found p (some slot.entry))
      unlock (.entry slot.entry)
    unlock (.slot p)
    return none
  | none => return some (.found p none)

/-- `set_locked_cache_entry`: whether the entry is in the map, and `*old_entry`. -/
def setLockedCacheEntry (entry : ℕ) : Program (Bool × Option ℕ) := do
  let key := (← readEntry entry).key
  match ← probeKey (visitOpen key entry) key with
  | none => return (false, none)
  | some .already => return (true, none)
  | some (.found p occupant) =>
    writeSlot p (some ⟨getKeyHash key, entry⟩)
    unlock (.slot p)
    return (true, occupant)

/-- What `walk_entries` does at a slot. -/
def visitEntry {σ : Type} (callback : ℕ → σ → Program (Bool × σ)) (p : SlotPos) (data : σ) :
    Program σ := do
  lock (.slot p)
  match ← readSlot p with
  | some slot =>
    lock (.entry slot.entry)
    let (unset, data) ← callback slot.entry data
    if unset then writeSlot p none else unlock (.entry slot.entry)
    unlock (.slot p)
    return data
  | none =>
    unlock (.slot p)
    return data

/-- The next `n` slots of a map. -/
def walkSlots {σ : Type} (callback : ℕ → σ → Program (Bool × σ)) (map : Fin NUM_CACHE_ENTRY_MAPS) :
    ℕ → Fin CACHE_ENTRY_MAP_SIZE → σ → Program σ
  | 0, _, data => pure data
  | n + 1, pos, data =>
    do walkSlots callback map n (pos + 1) (← visitEntry callback (map, pos) data)

/-- `walk_entries`. -/
def walkEntries {σ : Type} (callback : ℕ → σ → Program (Bool × σ))
    (map : Fin NUM_CACHE_ENTRY_MAPS) (data : σ) :
    Program σ := walkSlots callback map CACHE_ENTRY_MAP_SIZE 0 data

end Guarded

end Cik

import Cik.Source.Controller

/-!
# SET when memory runs out

The functions of `tag.c` that put a key under the tags of an entry reserve memory for
a node when the tag has none, and for an element when the list does not have the key.
Here each of the two reservations may be refused, for each tag on its own. The element
that is refused is left out; the node that is refused is written to, so that the
function does not return. When nothing is refused the functions do what they do in
`tag.c`'s own module (`handleSetRequest_granted`).
-/

namespace Cik.Scarce

/-- The answers to the reservations that are made for one tag. -/
structure Grant where
  /-- `create_tag_node` gets its memory. -/
  node : Bool
  /-- `create_key_elem` gets its memory. -/
  elem : Bool

/-- `insert_if_unique`. -/
def insertIfUnique (granted : Bool) (list : List CacheKey) (key : CacheKey) :
    List CacheKey × Bool :=
  if key ∈ list then (list, false) else if granted then (key :: list, true) else (list, false)

theorem insertIfUnique_eq (granted : Bool) (list : List CacheKey) (key : CacheKey) :
    insertIfUnique granted list key = if granted then Cik.insertIfUnique list key else
      (list, false) := by
  unfold insertIfUnique Cik.insertIfUnique
  cases granted <;> simp

/-- What `add_key_to_tag` does at the node. -/
def insertKey (granted : Bool) (node : TagNode) (key : CacheKey) : TagNode where
  keys := (insertIfUnique granted node.keys key).1
  num_keys := if (insertIfUnique granted node.keys key).2 then node.num_keys + 1 else node.num_keys
  nodup := by
    rw [insertIfUnique_eq]
    cases granted
    · exact node.nodup
    · exact nodup_insertIfUnique node.nodup key
  num_keys_eq := by
    rw [insertIfUnique_eq]
    cases granted
    · exact node.num_keys_eq
    · exact (node.insertKey key).num_keys_eq

/-- `get_or_create_node`; `none` when it writes to the node that it was refused. -/
def getOrCreateNode (granted : Bool) (tree : TagTree) (tag : CacheTag) : Option TagTree :=
  match getTagIfExists tree tag with
  | some _ => some tree
  | none => if granted then some (Cik.getOrCreateNode tree tag) else none

/-- `add_key_to_tag`. -/
def addKeyToTag (grant : Grant) (tree : TagTree) (tag : CacheTag) (key : CacheKey) :
    Option TagTree :=
  (getOrCreateNode grant.node tree tag).map fun tree =>
    modifyNode tree tag fun node => insertKey grant.elem node key

/-- The key is added to each of the tags. -/
def addKeyToTags : (ℕ → Grant) → TagTree → List CacheTag → CacheKey → Option TagTree
  | _, tree, [], _ => some tree
  | grants, tree, tag :: tags, key =>
    (addKeyToTag (grants 0) tree tag key).bind fun tree =>
      addKeyToTags (fun t => grants (t + 1)) tree tags key

/-- What `handle_set_request` does with an entry once it is complete. -/
def setEntry (grants : ℕ → Grant) (s : Store) (entry : CacheEntry) : Option (StatusCode × Store) :=
  match setLockedCacheEntry (s.mapOf entry.key) entry with
  | none => some (.outOfMemory, s)
  | some (old_entry, map) =>
    let s := s.setMapOf entry.key map
    let tags := match old_entry with
      | some old_entry => removeKeyFromTags s.tags old_entry.tags old_entry.key
      | none => s.tags
    (addKeyToTags grants tags entry.tags entry.key).map fun tags => (.ok, { s with tags := tags })

/-- `handle_set_request`; `none` when it does not return. -/
def handleSetRequest (grants : ℕ → Grant) (env : Env) (ctx : Ctx) (request : Request) :
    Option Handled :=
  let klen := request.sKlen
  let vlen := ntohl request.sVlen
  let ntags := request.sNtags
  let ttl := ntohl request.sTtl
  let flags := request.sFlags
  match readRequestKey ctx.client klen with
  | (.ok, key, client) =>
    let ctx := { ctx with client := client }
    if flags &&& SET_FLAG_ONLY_TTL ≠ 0 then
      match lockAndGetCacheEntry (ctx.store.mapOf key) key with
      | none => some ⟨.notFound, .null, ctx⟩
      | some (pos, entry) =>
        let entry := { entry with expires := expiryOf env.now ttl }
        some ⟨.ok, .null,
          { ctx with store := ctx.store.setMapOf key ((ctx.store.mapOf key).put pos entry) }⟩
    else
      match readTagsUsingPayloadBuffer ctx ntags with
      | (.ok, slices, ctx) =>
        let total_size := setTotalSize (slices.map Slice.nmemb) klen vlen
        match env.reserve (entrySize total_size) with
        | none => some ⟨.outOfMemory, .null, ctx⟩
        | some _ =>
          let tags := slices.map fun tag => tag.bytes ctx.payload_buffer.base
          match readRequestPayload ctx.client vlen.toNat with
          | (.ok, value, client) =>
            let entry := ⟨key, tags, value, env.now, expiryOf env.now ttl, 0⟩
            (setEntry grants ctx.store entry).map fun (status, store) =>
              ⟨status, .null, { ctx with store := store, client := client }⟩
          | (status, _, client) => some ⟨status, .null, { ctx with client := client }⟩
      | (status, _, ctx) => some ⟨status, .null, ctx⟩
  | (status, _, client) => some ⟨status, .null, { ctx with client := client }⟩

/-! ### Nothing is refused -/

/-- All reservations succeed. -/
def plenty : ℕ → Grant := fun _ => ⟨true, true⟩

theorem insertKey_granted (node : TagNode) (key : CacheKey) :
    insertKey true node key = node.insertKey key := by
  have h := insertIfUnique_eq true node.keys key
  rw [if_pos rfl] at h
  unfold insertKey TagNode.insertKey
  simp only [h]

/-- A node is made where there is none. -/
theorem getOrCreateNode_of_exists {tree : TagTree} {tag : CacheTag} {node : TagNode}
    (h : getTagIfExists tree tag = some node) : Cik.getOrCreateNode tree tag = tree := by
  obtain ⟨nodes, ordered⟩ := tree
  have hins : nodes.insertNew compareTags tag TagNode.empty = nodes :=
    SearchTree.insertNew_of_find h
  unfold Cik.getOrCreateNode
  simp only [hins]

theorem addKeyToTag_granted (tree : TagTree) (tag : CacheTag) (key : CacheKey) :
    addKeyToTag ⟨true, true⟩ tree tag key = some (Cik.addKeyToTag tree tag key) := by
  have hcreate : getOrCreateNode true tree tag = some (Cik.getOrCreateNode tree tag) := by
    unfold getOrCreateNode
    cases h : getTagIfExists tree tag with
    | none => rfl
    | some node => rw [getOrCreateNode_of_exists h]
  rw [addKeyToTag, hcreate, Option.map_some, Cik.addKeyToTag,
    funext fun node => insertKey_granted node key]

theorem addKeyToTags_granted (tree : TagTree) (tags : List CacheTag) (key : CacheKey) :
    addKeyToTags plenty tree tags key = some (Cik.addKeyToTags tree tags key) := by
  induction tags generalizing tree with
  | nil => rfl
  | cons tag tags ih =>
    have hplenty : (fun t => plenty (t + 1)) = plenty := rfl
    rw [addKeyToTags, hplenty, plenty, addKeyToTag_granted]
    exact ih _

theorem setEntry_granted (s : Store) (entry : CacheEntry) :
    setEntry plenty s entry = some (Cik.setEntry s entry) := by
  unfold setEntry Cik.setEntry
  cases setLockedCacheEntry (s.mapOf entry.key) entry with
  | none => rfl
  | some found =>
    dsimp only
    rw [addKeyToTags_granted]
    rfl

/-- The handler that may be refused memory is the handler, where it is refused none. -/
theorem handleSetRequest_granted (env : Env) (ctx : Ctx) (request : Request) :
    handleSetRequest plenty env ctx request = some (Cik.handleSetRequest env ctx request) := by
  unfold handleSetRequest Cik.handleSetRequest
  dsimp only
  obtain ⟨status, key, client⟩ := readRequestKey ctx.client request.sKlen
  cases status with
  | ok =>
    dsimp only
    split_ifs
    · cases lockAndGetCacheEntry (ctx.store.mapOf key) key <;> rfl
    · obtain ⟨status, slices, c⟩ :=
        readTagsUsingPayloadBuffer ⟨ctx.store, client, ctx.payload_buffer⟩ request.sNtags
      cases status with
      | ok =>
        dsimp only
        cases env.reserve
            (entrySize (setTotalSize (slices.map Slice.nmemb) request.sKlen (ntohl request.sVlen)))
            with
        | none => rfl
        | some n =>
          dsimp only
          obtain ⟨status, value, client⟩ := readRequestPayload c.client (ntohl request.sVlen).toNat
          cases status <;> first | rfl | (dsimp only; rw [setEntry_granted]; rfl)
      | _ => rfl
  | _ => rfl

end Cik.Scarce

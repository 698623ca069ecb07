import Cik.Source.Types
import Cik.Library.SearchTree

/-!
# The tag index

`tag.c`. The tags are the keys of a search tree under `compare_tags`; its root is
always there and has the tag `ROOT`. The node of a tag has the list of the keys that
carry the tag, without a key twice. A tag tree carries with it that it is ordered,
and a node that its list has no key twice, so that the operations keep both.

All reservations of memory succeed here. Copies of key lists are released by the
functions that made them, and leave no trace.
-/

namespace Cik

/-! ### Comparing tags -/

/-- `memcmp` of two strings of one length, or of the shorter one's length. -/
def memcmp : List UInt8 → List UInt8 → Ordering
  | a :: as, b :: bs => (compare a b).then (memcmp as bs)
  | _, _ => .eq

/-- `compare_tags`. -/
def compareTags (a b : CacheTag) : Ordering :=
  let size := if a.length > b.length then b.length else a.length
  let result := if size = 0 then .eq else memcmp (a.take size) (b.take size)
  if result = .eq then
    if a.length < b.length then .lt
    else if b.length < a.length then .gt
    else result
  else result

theorem memcmp_take (n : ℕ) (a b : List UInt8) (h : n = min a.length b.length) :
    memcmp (a.take n) (b.take n) = memcmp a b := by
  induction a generalizing b n with
  | nil => cases b <;> simp_all [memcmp]
  | cons x a ih =>
    cases b with
    | nil => simp_all [memcmp]
    | cons y b =>
      obtain rfl : n = min a.length b.length + 1 := by simp only [List.length_cons] at h; omega
      simp only [List.take_succ_cons, memcmp, ih _ b rfl]

/-- Tags are compared byte by byte, and a tag comes before its continuations. -/
theorem compareTags_eq (a b : CacheTag) : compareTags a b = List.compareLex compare a b := by
  have hsize : (if a.length > b.length then b.length else a.length) = min a.length b.length := by
    split_ifs <;> omega
  have hm : compareTags a b = (memcmp a b).then (compare a.length b.length) := by
    simp only [compareTags, hsize]
    have hz : (if min a.length b.length = 0 then .eq
        else memcmp (a.take (min a.length b.length)) (b.take (min a.length b.length))) =
        memcmp a b := by
      split_ifs with h
      · rw [← memcmp_take _ a b rfl, h]
        rfl
      · exact memcmp_take _ a b rfl
    rw [hz]
    cases memcmp a b <;> simp [Nat.compare_eq_ite_lt]
  rw [hm]
  clear hm hsize
  induction a generalizing b with
  | nil => cases b <;> simp [memcmp, List.compareLex, Nat.compare_eq_ite_lt]
  | cons x a ih =>
    cases b with
    | nil => simp [memcmp, List.compareLex, Nat.compare_eq_ite_lt]
    | cons y b =>
      rw [List.compareLex_cons_cons, ← ih]
      simp only [memcmp, List.length_cons, Ordering.then_assoc]
      congr 2
      simp only [Nat.compare_eq_ite_lt]
      split_ifs <;> first | rfl | omega

instance : Std.LawfulEqCmp compareTags := by
  rw [show compareTags = List.compareLex compare from funext fun a => funext fun b =>
    compareTags_eq a b]
  infer_instance

/-! ### Lists of keys -/

/-- `insert_if_unique`: the list, and whether the key was put into it. -/
def insertIfUnique (list : List CacheKey) (key : CacheKey) : List CacheKey × Bool :=
  if key ∈ list then (list, false) else (key :: list, true)

/-- The loop of `remove_key_from_tag`: the list without the first element that is the
key, and whether there was one. -/
def unlinkKey : List CacheKey → CacheKey → List CacheKey × Bool
  | [], _ => ([], false)
  | elem :: next, key =>
    if elem = key then (next, true)
    else
      let (next, found) := unlinkKey next key
      (elem :: next, found)

/-- `copy_key_list`. -/
def copyKeyList : List CacheKey → List CacheKey
  | [] => []
  | elem :: next => elem :: copyKeyList next

/-- The loop over `keys` in `get_keys_matching_any_tag`. -/
def mergeKeys (found_keys keys : List CacheKey) : List CacheKey :=
  keys.foldl (fun found_keys key => (insertIfUnique found_keys key).1) found_keys

/-- The loop over `found_keys` in `get_keys_matching_all_tags`: an element that is not
in `keys` is unlinked, and its successor tested at the same place. -/
def retainKeys : List CacheKey → List CacheKey → List CacheKey
  | [], _ => []
  | found_key :: next, keys =>
    if found_key ∈ keys then found_key :: retainKeys next keys else retainKeys next keys

theorem mem_insertIfUnique {list : List CacheKey} {key key' : CacheKey} :
    key' ∈ (insertIfUnique list key).1 ↔ key' = key ∨ key' ∈ list := by
  unfold insertIfUnique
  split_ifs with h
  · exact (or_iff_right_of_imp fun h' => h' ▸ h).symm
  · exact List.mem_cons

theorem nodup_insertIfUnique {list : List CacheKey} (h : list.Nodup) (key : CacheKey) :
    (insertIfUnique list key).1.Nodup := by
  unfold insertIfUnique
  split_ifs with hk
  · exact h
  · exact List.nodup_cons.mpr ⟨hk, h⟩

theorem length_insertIfUnique (list : List CacheKey) (key : CacheKey) :
    (insertIfUnique list key).1.length = if (insertIfUnique list key).2 then list.length +
    1 else list.length := by
  unfold insertIfUnique
  split_ifs <;> simp_all

theorem unlinkKey_eq (list : List CacheKey) (key : CacheKey) :
    unlinkKey list key = (list.erase key, decide (key ∈ list)) := by
  induction list with
  | nil => rfl
  | cons elem next ih =>
    by_cases h : elem = key
    · subst h
      simp [unlinkKey]
    · simp [unlinkKey, ih, h, Ne.symm h]

@[simp] theorem copyKeyList_eq (list : List CacheKey) : copyKeyList list = list := by
  induction list with
  | nil => rfl
  | cons elem next ih => rw [copyKeyList, ih]

theorem mem_mergeKeys {found keys : List CacheKey} {key : CacheKey} :
    key ∈ mergeKeys found keys ↔ key ∈ found ∨ key ∈ keys := by
  unfold mergeKeys
  induction keys generalizing found with
  | nil => simp
  | cons k keys ih =>
    rw [List.foldl_cons, ih, mem_insertIfUnique, List.mem_cons]
    grind

theorem nodup_mergeKeys {found : List CacheKey} (h : found.Nodup) (keys : List CacheKey) :
    (mergeKeys found keys).Nodup := by
  unfold mergeKeys
  induction keys generalizing found with
  | nil => exact h
  | cons k keys ih => exact ih (nodup_insertIfUnique h k)

theorem mem_retainKeys {found keys : List CacheKey} {key : CacheKey} :
    key ∈ retainKeys found keys ↔ key ∈ found ∧ key ∈ keys := by
  induction found with
  | nil => simp [retainKeys]
  | cons k found ih =>
    rw [retainKeys]
    split_ifs with h
    · simp only [List.mem_cons, ih]
      grind
    · simp only [List.mem_cons, ih]
      grind

theorem retainKeys_sublist (found keys : List CacheKey) :
    (retainKeys found keys).Sublist found := by
  induction found with
  | nil => exact List.Sublist.refl _
  | cons k found ih =>
    rw [retainKeys]
    split_ifs
    · exact ih.cons_cons k
    · exact ih.cons k

/-! ### The tree -/

/-- What the node of a tag has besides the tag: its keys, and how many they are. -/
structure TagNode where
  /-- The keys. -/
  keys : List CacheKey
  /-- How many. -/
  num_keys : ℕ
  /-- No key is in the list twice. -/
  nodup : keys.Nodup
  /-- The count is right. -/
  num_keys_eq : num_keys = keys.length

namespace TagNode

/-- A node as `create_tag_node` makes it. -/
def empty : TagNode := ⟨[], 0, List.nodup_nil, rfl⟩

/-- What `add_key_to_tag` does at the node. -/
def insertKey (node : TagNode) (key : CacheKey) : TagNode where
  keys := (insertIfUnique node.keys key).1
  num_keys := if (insertIfUnique node.keys key).2 then node.num_keys + 1 else node.num_keys
  nodup := nodup_insertIfUnique node.nodup key
  num_keys_eq := by rw [length_insertIfUnique, node.num_keys_eq]

/-- What `remove_key_from_tag` does at the node. -/
def removeKey (node : TagNode) (key : CacheKey) : TagNode where
  keys := (unlinkKey node.keys key).1
  num_keys := if (unlinkKey node.keys key).2 then node.num_keys - 1 else node.num_keys
  nodup := by rw [unlinkKey_eq]; exact node.nodup.erase key
  num_keys_eq := by
    rw [unlinkKey_eq, List.length_erase, node.num_keys_eq]
    by_cases h : key ∈ node.keys <;> simp [h]

end TagNode

/-- The tags with their nodes. -/
structure TagTree where
  /-- The nodes. -/
  nodes : SearchTree CacheTag TagNode
  /-- They are ordered. -/
  ordered : nodes.Ordered compareTags

/-- `root_value`. -/
def rootValue : CacheTag := [0x52, 0x4F, 0x4F, 0x54]

/-- The tree at start-up. -/
def initTagTree : TagTree :=
  ⟨.node .nil rootValue TagNode.empty .nil, by simp [SearchTree.Ordered, SearchTree.toList]⟩

/-- `get_or_create_node`: the tree with a node for the tag. -/
def getOrCreateNode (tree : TagTree) (tag : CacheTag) : TagTree :=
  ⟨tree.nodes.insertNew compareTags tag TagNode.empty, tree.ordered.insertNew tag _⟩

/-- `get_tag_if_exists`. -/
def getTagIfExists (tree : TagTree) (tag : CacheTag) : Option TagNode :=
  tree.nodes.find compareTags tag

/-- The tree with the node of a tag changed. -/
def modifyNode (tree : TagTree) (tag : CacheTag) (f : TagNode → TagNode) : TagTree :=
  ⟨tree.nodes.update compareTags tag f, tree.ordered.update tag f⟩

/-- `get_key_list_copy_by_tag`. -/
def getKeyListCopyByTag (tree : TagTree) (tag : CacheTag) : List CacheKey :=
  match getTagIfExists tree tag with
  | none => []
  | some node => copyKeyList node.keys

/-- `add_key_to_tag`. -/
def addKeyToTag (tree : TagTree) (tag : CacheTag) (key : CacheKey) : TagTree :=
  modifyNode (getOrCreateNode tree tag) tag fun node => node.insertKey key

/-- `remove_key_from_tag`. -/
def removeKeyFromTag (tree : TagTree) (tag : CacheTag) (key : CacheKey) : TagTree :=
  match getTagIfExists tree tag with
  | none => tree
  | some _ => modifyNode tree tag fun node => node.removeKey key

/-- `walk_all_tags`: the callback is called for the tags that have keys. -/
def walkAllTags {σ : Type} (callback : CacheTag → σ → σ) (tree : TagTree) (data : σ) : σ :=
  tree.nodes.walk (fun tag node data => if node.keys ≠ [] then callback tag data else data) data

/-- `get_keys_matching_any_tag`. -/
def getKeysMatchingAnyTag (tree : TagTree) : List CacheTag → List CacheKey
  | [] => []
  | tag :: tags =>
    tags.foldl (fun found_keys tag => mergeKeys found_keys (getKeyListCopyByTag tree tag))
      (getKeyListCopyByTag tree tag)

/-- `get_keys_matching_all_tags`. -/
def getKeysMatchingAllTags (tree : TagTree) : List CacheTag → List CacheKey
  | [] => []
  | tag :: tags =>
    tags.foldl (fun found_keys tag => retainKeys found_keys (getKeyListCopyByTag tree tag))
      (getKeyListCopyByTag tree tag)

/-! ### The index as a relation -/

/-- The key is in the key list of the tag's node. -/
def TagTree.HasKey (tree : TagTree) (tag : CacheTag) (key : CacheKey) : Prop :=
  key ∈ getKeyListCopyByTag tree tag

variable {tree : TagTree} {tag tag' : CacheTag} {key key' : CacheKey}

theorem getTagIfExists_getOrCreateNode :
    getTagIfExists (getOrCreateNode tree tag) tag' =
      if tag' = tag then some ((getTagIfExists tree tag).getD TagNode.empty)
        else getTagIfExists tree tag' :=
  SearchTree.find_insertNew tag tag' _ tree.nodes

theorem getTagIfExists_modifyNode {f : TagNode → TagNode} :
    getTagIfExists (modifyNode tree tag f) tag' =
      if tag' = tag then (getTagIfExists tree tag).map f else getTagIfExists tree tag' :=
  SearchTree.find_update tag tag' f tree.nodes

theorem TagTree.hasKey_iff : tree.HasKey tag key ↔ ∃ node, getTagIfExists tree tag = some node ∧
    key ∈ node.keys := by
  unfold HasKey getKeyListCopyByTag
  cases getTagIfExists tree tag <;> simp

theorem nodup_getKeyListCopyByTag (tree : TagTree) (tag : CacheTag) :
    (getKeyListCopyByTag tree tag).Nodup := by
  unfold getKeyListCopyByTag
  cases getTagIfExists tree tag with
  | none => exact List.nodup_nil
  | some node => simpa using node.nodup

@[simp] theorem not_hasKey_initTagTree : ¬ initTagTree.HasKey tag key := by
  rw [TagTree.hasKey_iff]
  rintro ⟨node, hn, hk⟩
  simp only [getTagIfExists, initTagTree, SearchTree.find] at hn
  cases h : compareTags tag rootValue <;> simp only [h, reduceCtorEq, Option.some.injEq] at hn
  subst hn
  simp [TagNode.empty] at hk

/-- Adding a key to a tag adds this pair and no other. -/
theorem hasKey_addKeyToTag :
    (addKeyToTag tree tag key).HasKey tag' key' ↔ (tag' = tag ∧ key' = key) ∨
    tree.HasKey tag' key' := by
  simp only [TagTree.hasKey_iff, addKeyToTag, getTagIfExists_modifyNode,
    getTagIfExists_getOrCreateNode]
  by_cases ht : tag' = tag
  · subst ht
    cases hn : getTagIfExists tree tag' <;>
      simp [TagNode.insertKey, mem_insertIfUnique, TagNode.empty]
  · simp [ht]

/-- Removing a key from a tag removes this pair and no other. -/
theorem hasKey_removeKeyFromTag :
    (removeKeyFromTag tree tag key).HasKey tag' key' ↔ ¬ (tag' = tag ∧ key' = key) ∧
    tree.HasKey tag' key' := by
  unfold removeKeyFromTag
  cases hn : getTagIfExists tree tag with
  | none =>
    simp only [TagTree.hasKey_iff]
    refine (and_iff_right_of_imp ?_).symm
    rintro ⟨node, h, -⟩ ⟨rfl, -⟩
    rw [hn] at h
    cases h
  | some node =>
    simp only [TagTree.hasKey_iff, getTagIfExists_modifyNode]
    by_cases ht : tag' = tag
    · subst ht
      simp [hn, TagNode.removeKey, unlinkKey_eq, node.nodup.mem_erase_iff]
    · simp [ht]

theorem nodup_getKeysMatchingAnyTag (tree : TagTree) (tags : List CacheTag) :
    (getKeysMatchingAnyTag tree tags).Nodup := by
  cases tags with
  | nil => exact List.nodup_nil
  | cons tag tags =>
    rw [getKeysMatchingAnyTag]
    have h := nodup_getKeyListCopyByTag tree tag
    generalize getKeyListCopyByTag tree tag = found at h
    induction tags generalizing found with
    | nil => exact h
    | cons t tags ih => exact ih _ (nodup_mergeKeys h _)

/-- The union of the key lists. -/
theorem mem_getKeysMatchingAnyTag {tags : List CacheTag} :
    key ∈ getKeysMatchingAnyTag tree tags ↔ ∃ tag ∈ tags, tree.HasKey tag key := by
  cases tags with
  | nil => simp [getKeysMatchingAnyTag]
  | cons tag tags =>
    have step (tags : List CacheTag) (found : List CacheKey) :
        key ∈ tags.foldl (fun found tag => mergeKeys found (getKeyListCopyByTag tree tag)) found ↔
          key ∈ found ∨ ∃ tag ∈ tags, tree.HasKey tag key := by
      induction tags generalizing found with
      | nil => simp
      | cons t tags ih => simp [ih, mem_mergeKeys, TagTree.HasKey, or_assoc]
    simp [getKeysMatchingAnyTag, step, TagTree.HasKey]

theorem nodup_getKeysMatchingAllTags (tree : TagTree) (tags : List CacheTag) :
    (getKeysMatchingAllTags tree tags).Nodup := by
  cases tags with
  | nil => exact List.nodup_nil
  | cons tag tags =>
    rw [getKeysMatchingAllTags]
    have h := nodup_getKeyListCopyByTag tree tag
    generalize getKeyListCopyByTag tree tag = found at h
    induction tags generalizing found with
    | nil => exact h
    | cons t tags ih => exact ih _ (h.sublist (retainKeys_sublist _ _))

/-- The intersection of the key lists; of no lists it is empty. -/
theorem mem_getKeysMatchingAllTags {tags : List CacheTag} :
    key ∈ getKeysMatchingAllTags tree tags ↔ tags ≠ [] ∧ ∀ tag ∈ tags, tree.HasKey tag key := by
  cases tags with
  | nil => simp [getKeysMatchingAllTags]
  | cons tag tags =>
    have step (tags : List CacheTag) (found : List CacheKey) :
        key ∈ tags.foldl (fun found tag => retainKeys found (getKeyListCopyByTag tree tag)) found ↔
          key ∈ found ∧ ∀ tag ∈ tags, tree.HasKey tag key := by
      induction tags generalizing found with
      | nil => simp
      | cons t tags ih => simp [ih, mem_retainKeys, TagTree.HasKey, and_assoc]
    simp [getKeysMatchingAllTags, step, TagTree.HasKey]

/-- A walk over the tags calls back for the tags with keys, in the order of the tree. -/
theorem walkAllTags_eq {σ : Type} (callback : CacheTag → σ → σ) (tree : TagTree) (data : σ) :
    walkAllTags callback tree data =
      ((tree.nodes.toList.filter fun x => x.2.keys ≠ []).map Prod.fst).foldl
        (fun data tag => callback tag data) data := by
  rw [walkAllTags, SearchTree.walk_eq]
  generalize tree.nodes.toList = l
  induction l generalizing data with
  | nil => rfl
  | cons x l ih => by_cases h : x.2.keys = [] <;> simp_all

/-- The tags a walk calls back for are those some key has. -/
theorem mem_walked_tags_iff :
    tag ∈ (tree.nodes.toList.filter fun x => x.2.keys ≠ []).map Prod.fst ↔
    ∃ key, tree.HasKey tag key := by
  simp only [List.mem_map, List.mem_filter, Prod.exists, exists_and_right, exists_eq_right,
    tree.ordered.mem_toList_iff, TagTree.hasKey_iff, getTagIfExists]
  constructor
  · rintro ⟨node, hn, hk⟩
    obtain ⟨key, hkey⟩ := List.exists_mem_of_ne_nil node.keys (by simpa using hk)
    exact ⟨key, node, hn, hkey⟩
  · rintro ⟨key, node, hn, hk⟩
    exact ⟨node, hn, by simpa using List.ne_nil_of_mem hk⟩

end Cik

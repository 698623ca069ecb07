import Cik.Source.Tag
import Mathlib.Data.List.Induction
import Mathlib.Data.Set.Insert

/-!
# The tag index as a map from tags to sets of keys

For who uses it, the tag index says which keys carry a tag: `KeySets`, with the tags
that were ever given a key, and the keys of each. `add_key_to_tag` and
`remove_key_from_tag` do to the tree what `KeySets.apply` does to the sets
(`Refines.apply`), so a run of them from the tree at start-up leaves just the pairs
whose last operation was an addition (`tagTree_refines`).
-/

namespace Cik

instance : Std.TransCmp compareTags := by
  rw [show compareTags = List.compareLex compare from funext fun a => funext fun b =>
    compareTags_eq a b]
  infer_instance

/-- An operation on the index. -/
inductive TagOp where
  /-- `add_key_to_tag`. -/
  | add (tag : CacheTag) (key : CacheKey)
  /-- `remove_key_from_tag`. -/
  | remove (tag : CacheTag) (key : CacheKey)
  deriving DecidableEq

/-- The tag and the key of an operation. -/
def TagOp.pair : TagOp → CacheTag × CacheKey
  | add tag key => (tag, key)
  | remove tag key => (tag, key)

/-- What an operation does to the tree. -/
def TagTree.apply (tree : TagTree) : TagOp → TagTree
  | .add tag key => addKeyToTag tree tag key
  | .remove tag key => removeKeyFromTag tree tag key

/-- The tree after some operations. -/
def TagTree.applyAll (tree : TagTree) (ops : List TagOp) : TagTree := ops.foldl TagTree.apply tree

/-! ### Sets of keys -/

/-- The tags known, and the keys of each tag. -/
structure KeySets where
  /-- The tags. -/
  tags : Set CacheTag
  /-- The keys of a tag. -/
  keys : CacheTag → Set CacheKey

namespace KeySets

/-- At start-up the tag `ROOT` is known, and no tag has a key. -/
def init : KeySets := ⟨{rootValue}, fun _ => ∅⟩

/-- What an operation does to the sets. -/
def apply (m : KeySets) : TagOp → KeySets
  | .add tag key => ⟨insert tag m.tags, Function.update m.keys tag (insert key (m.keys tag))⟩
  | .remove tag key => ⟨m.tags, Function.update m.keys tag (m.keys tag \ {key})⟩

variable {m : KeySets} {tag tag' : CacheTag} {key key' : CacheKey}

theorem mem_keys_add : key' ∈ (m.apply (.add tag key)).keys tag' ↔ (tag' = tag ∧ key' = key) ∨
    key' ∈ m.keys tag' := by
  simp only [apply, Function.update_apply]
  split_ifs with h
  · simp [h]
  · simp [h]

theorem mem_keys_remove :
    key' ∈ (m.apply (.remove tag key)).keys tag' ↔ ¬ (tag' = tag ∧ key' = key) ∧
    key' ∈ m.keys tag' := by
  simp only [apply, Function.update_apply]
  split_ifs with h
  · simp [h, and_comm]
  · simp [h]

end KeySets

/-- The last of some operations on a tag and a key. -/
def lastOn (ops : List TagOp) (tag : CacheTag) (key : CacheKey) : Option TagOp :=
  (ops.filter fun op => op.pair = (tag, key)).getLast?

theorem lastOn_concat (ops : List TagOp) (op : TagOp) (tag : CacheTag) (key : CacheKey) :
    lastOn (ops ++ [op]) tag key = if op.pair = (tag, key) then some op
      else lastOn ops tag key := by
  unfold lastOn
  by_cases h : op.pair = (tag, key)
  · simp [h]
  · simp [h]

/-- The sets after some operations. -/
theorem mem_foldl_init (ops : List TagOp) :
    (∀ tag, tag ∈ (ops.foldl KeySets.apply .init).tags ↔ tag = rootValue ∨
      ∃ key, .add tag key ∈ ops) ∧ ∀ tag key, key ∈ (ops.foldl KeySets.apply .init).keys tag ↔
      lastOn ops tag key = some (.add tag key) := by
  induction ops using List.reverseRecOn with
  | nil =>
    refine ⟨fun tag => ?_, fun tag key => ?_⟩
    · simp [KeySets.init]
    · simp [KeySets.init, lastOn]
  | append_singleton ops op ih =>
    obtain ⟨ih₁, ih₂⟩ := ih
    rw [List.foldl_append, List.foldl_cons, List.foldl_nil]
    cases op with
    | add t k =>
      refine ⟨fun tag => ?_, fun tag key => ?_⟩
      · simp only [KeySets.apply, Set.mem_insert_iff, ih₁, List.mem_append, List.mem_singleton,
          TagOp.add.injEq]
        grind
      · rw [KeySets.mem_keys_add, ih₂, lastOn_concat]
        by_cases h : tag = t ∧ key = k
        · obtain ⟨rfl, rfl⟩ := h
          simp [TagOp.pair]
        · have hne : ¬ (TagOp.add t k).pair = (tag, key) := by
            rintro ⟨rfl, rfl⟩
            exact h ⟨rfl, rfl⟩
          rw [if_neg hne, or_iff_right h]
    | remove t k =>
      refine ⟨fun tag => ?_, fun tag key => ?_⟩
      · simp [KeySets.apply, ih₁]
      · rw [KeySets.mem_keys_remove, ih₂, lastOn_concat]
        by_cases h : tag = t ∧ key = k
        · obtain ⟨rfl, rfl⟩ := h
          simp [TagOp.pair]
        · have hne : ¬ (TagOp.remove t k).pair = (tag, key) := by
            rintro ⟨rfl, rfl⟩
            exact h ⟨rfl, rfl⟩
          rw [if_neg hne, and_iff_right h]

/-! ### The tree and the sets -/

/-- The tree has the tags and the keys of the sets. -/
structure Refines (tree : TagTree) (m : KeySets) : Prop where
  /-- The tags known have nodes. -/
  tags : ∀ tag, (getTagIfExists tree tag).isSome ↔ tag ∈ m.tags
  /-- The nodes have the keys. -/
  keys : ∀ tag key, tree.HasKey tag key ↔ key ∈ m.keys tag

theorem refines_init : Refines initTagTree .init where
  tags := by
    intro tag
    simp only [getTagIfExists, initTagTree, SearchTree.find, KeySets.init, Set.mem_singleton_iff]
    constructor
    · intro h
      cases hc : compareTags tag rootValue with
      | lt => simp [hc] at h
      | eq => exact Std.LawfulEqCmp.eq_of_compare hc
      | gt => simp [hc] at h
    · rintro rfl
      have hself : compareTags rootValue rootValue = .eq := Std.ReflCmp.compare_self
      rw [hself]
      rfl
  keys := fun tag key => iff_of_false not_hasKey_initTagTree fun h => h

theorem isSome_getTagIfExists_addKeyToTag {tree : TagTree} {tag tag' : CacheTag} {key : CacheKey} :
    (getTagIfExists (addKeyToTag tree tag key) tag').isSome ↔ tag' = tag ∨
    (getTagIfExists tree tag').isSome := by
  rw [addKeyToTag, getTagIfExists_modifyNode]
  simp only [getTagIfExists_getOrCreateNode]
  by_cases h : tag' = tag
  · simp [h]
  · simp [h]

theorem isSome_getTagIfExists_removeKeyFromTag {tree : TagTree} {tag tag' : CacheTag}
    {key : CacheKey} :
    (getTagIfExists (removeKeyFromTag tree tag key) tag').isSome ↔
    (getTagIfExists tree tag').isSome := by
  unfold removeKeyFromTag
  cases hn : getTagIfExists tree tag with
  | none => exact Iff.rfl
  | some node =>
    simp only [getTagIfExists_modifyNode]
    by_cases h : tag' = tag
    · simp [h]
    · simp [h]

/-- An operation does to the tree what it does to the sets. -/
theorem Refines.apply {tree : TagTree} {m : KeySets} (h : Refines tree m) (op : TagOp) :
    Refines (tree.apply op) (m.apply op) := by
  cases op with
  | add t k =>
    refine ⟨fun tag => ?_, fun tag key => ?_⟩
    · rw [TagTree.apply, isSome_getTagIfExists_addKeyToTag, h.tags]
      rfl
    · rw [TagTree.apply, hasKey_addKeyToTag, KeySets.mem_keys_add, h.keys]
  | remove t k =>
    refine ⟨fun tag => ?_, fun tag key => ?_⟩
    · rw [TagTree.apply, isSome_getTagIfExists_removeKeyFromTag, h.tags]
      rfl
    · rw [TagTree.apply, hasKey_removeKeyFromTag, KeySets.mem_keys_remove, h.keys]

theorem Refines.applyAll {tree : TagTree} {m : KeySets} (h : Refines tree m) (ops : List TagOp) :
    Refines (tree.applyAll ops) (ops.foldl KeySets.apply m) := by
  unfold TagTree.applyAll
  induction ops generalizing tree m with
  | nil => exact h
  | cons op ops ih => exact ih (h.apply op)

/-- From the tree at start-up, whatever keys are added to tags and removed from them: the tree is a
strict search tree, a tag is found when it is `ROOT` or was given a key, and the keys of a tag are
those whose last operation with it was an addition. -/
theorem tagTree_refines (ops : List TagOp) :
    ((initTagTree.applyAll ops).nodes.Ordered compareTags ∧
      ((initTagTree.applyAll ops).nodes.toList.map Prod.fst).Pairwise
        fun a b => compareTags a b = .lt) ∧
    (∀ tag, (getTagIfExists (initTagTree.applyAll ops) tag).isSome ↔ tag = rootValue ∨
      ∃ key, .add tag key ∈ ops) ∧
    (∀ tag node, getTagIfExists (initTagTree.applyAll ops) tag = some node →
      node.keys.Nodup ∧ node.num_keys = node.keys.length ∧
        ∀ key, key ∈ node.keys ↔ lastOn ops tag key = some (.add tag key)) ∧
    ∀ tag key tag' key', (tag', key') ≠ (tag, key) →
      ((removeKeyFromTag (initTagTree.applyAll ops) tag key).HasKey tag' key' ↔
        (initTagTree.applyAll ops).HasKey tag' key') := by
  have hr := refines_init.applyAll ops
  obtain ⟨htags, hkeys⟩ := mem_foldl_init ops
  refine ⟨⟨(initTagTree.applyAll ops).ordered, (initTagTree.applyAll ops).ordered.pairwise⟩, ?_, ?_,
    ?_⟩
  · intro tag
    rw [hr.tags, htags]
  · intro tag node hn
    refine ⟨node.nodup, node.num_keys_eq, fun key => ?_⟩
    rw [← hkeys, ← hr.keys, TagTree.hasKey_iff, hn]
    simp
  · intro tag key tag' key' hne
    rw [hasKey_removeKeyFromTag]
    exact and_iff_right fun h => hne (Prod.ext h.1 h.2)

/-- A key that was added to two tags and taken off the first has a node with the second. -/
theorem tagTree_refines_second : ∃ node,
    getTagIfExists (initTagTree.applyAll [.add [1] [9], .add [2] [9], .remove [1] [9]]) [2] =
    some node ∧
      [9] ∈ node.keys ∧ node.num_keys = node.keys.length := by
  obtain ⟨-, htags, hkeys, -⟩ := tagTree_refines [.add [1] [9], .add [2] [9], .remove [1] [9]]
  obtain ⟨node, hn⟩ := Option.isSome_iff_exists.mp ((htags [2]).mpr (Or.inr ⟨[9], by decide⟩))
  exact ⟨node, hn, ((hkeys [2] node hn).2.2 [9]).mpr (by decide), (hkeys [2] node hn).2.1⟩

end Cik

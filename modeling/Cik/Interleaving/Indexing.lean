import Cik.Interleaving.Layout

/-!
# The tag index, one worker at a time

The functions of `tag.c`, run by a worker while the others do nothing, do to what the
process represents what the functions of the same names in `Cik.Source.Tag` do to the
index, and come to their end. They leave the slots, the entries and the guards as they are
(`Beside`).
-/

namespace Cik

namespace Guarded

open SearchTree (insertNew_of_find mem_values_of_mem_path)

variable {τ : Type*} {env : Env} {t : τ} {s s' s'' : Process τ} {client : Client}
  {hand : Multiset ℕ} {st : Store} {locked : Set ℕ} {key : CacheKey} {tag : CacheTag} {n : ℕ}

/-- The slots, the entries and the guards are as before. -/
structure Beside (s s' : Process τ) : Prop where
  /-- The slots. -/
  slots : s'.slots = s.slots
  /-- The entries. -/
  entries : s'.entries = s.entries
  /-- The guards. -/
  holder : s'.holder = s.holder

theorem Beside.refl (s : Process τ) : Beside s s := ⟨rfl, rfl, rfl⟩

theorem Beside.trans (h : Beside s s') (h' : Beside s' s'') : Beside s s'' :=
  ⟨h'.slots.trans h.slots, h'.entries.trans h.entries, h'.holder.trans h.holder⟩

theorem Beside.free (h : Beside s s') (hF : Free locked s) : Free locked s' := hF.congr h.holder

/-- No free list is marked. -/
def Unmarked (s : Process τ) : Prop := ∀ p, s.holder (.list p) = none

/-- No key list is locked, and no free list is marked. -/
structure Unlocked (s : Process τ) : Prop where
  /-- No key list is locked. -/
  keys : ∀ n, s.holder (.keys n) = none
  /-- No free list is marked. -/
  unmarked : Unmarked s

theorem Free.unlocked (hF : Free locked s) : Unlocked s := ⟨hF.keys, hF.list⟩

theorem Beside.unlocked (h : Beside s s') (hF : Unlocked s) : Unlocked s' :=
  ⟨fun n => by rw [h.holder, hF.keys n], fun p => by rw [h.holder, hF.unmarked p]⟩

theorem Beside.unmarked (h : Beside s s') (hF : Unmarked s) : Unmarked s' :=
  fun p => by rw [h.holder, hF p]

theorem Unmarked.setHolder (hF : Unmarked s) (w : Option τ) : Unmarked (s.setHolder (.keys n) w) :=
  fun p => by
  rw [Process.holder_setHolder_of_ne (by simp), hF p]

/-- The block is not a node of the tree. -/
def NotNode (s : Process τ) (b : ℕ) : Prop :=
  ∀ tree, Represents s.tag s.child (some root) tree → b ∉ tree.toList.map Prod.snd

/-- What is not live is not a node. -/
theorem Rep.notNode {b : ℕ} (h : Rep hand s st) (hb : s.live b = false) (hroot : b ≠ root) :
    NotNode s b := by
  intro tree ht hm
  obtain ⟨use, tree', hB, -, hI⟩ := h
  rw [ht.unique hI.represents] at hm
  rw [hB.isLive, hI.node b hm hroot] at hb
  cases hb

/-! ### Memory -/

/-- There is a partition for what is no longer than the biggest bucket. -/
theorem exists_partition {size : UInt32} (h : size.toNat ≤ MAX_BUCKET_SIZE) :
    ∃ p, partitionSizes.find? (size.toNat ≤ ·) = some p := by
  rw [← Option.isSome_iff_exists, List.find?_isSome]
  exact ⟨MAX_BUCKET_SIZE, by rw [partitionSizes_eq]; decide, by simpa using h⟩

theorem ends_reserveMemory {size : UInt32} (hfin : {b | s.live b = true}.Finite) (hF : Unmarked s)
    (hsize : size.toNat ≤ MAX_BUCKET_SIZE) {Q : Option ℕ → Process τ × Client → Prop}
    (hQ : ∀ b partition, s.live b = false → b ≠ root →
      Q (some b)
      ({ s with live := Function.update s.live b true, partition := partition }, client)) :
    Ends env t Q (s, client) (reserveMemory size) := by
  obtain ⟨p, hp⟩ := exists_partition hsize
  rw [reserveMemory, hp]
  -- the mark is set and cleared
  have hx := hF p
  refine .bind (ends_tryLock hx ?_)
  rw [if_pos rfl]
  refine .bind (ends_unlock ?_)
  rw [Process.setHolder_setHolder, Process.setHolder_none hx]
  exact ends_bucket hfin fun b hb hroot => hQ b _ hb hroot

theorem toNat_ofNat_add {a n : ℕ} (h : a + n ≤ 1000) :
    (UInt32.ofNat (a + n)).toNat ≤ MAX_BUCKET_SIZE := by
  rw [UInt32.toNat_ofNat']
  refine Nat.le_trans (Nat.mod_le _ _) ?_
  unfold MAX_BUCKET_SIZE
  omega

theorem ends_createKeyElem (h : Rep hand s st) (hF : Unmarked s) (hkey : key.length ≤ 255)
    {Q : Option KeyElem → Process τ × Client → Prop}
    (hQ : ∀ b s', Rep (b ::ₘ hand) s' st → Beside s s' → s'.keys = s.keys → s'.tag = s.tag →
      s'.child = s.child → Q (some ⟨b, key⟩) (s', client)) :
    Ends env t Q (s, client) (createKeyElem key) := by
  have hsize :=
    toNat_ofNat_add (a := sizeofKeyElem) (n := key.length) (by unfold sizeofKeyElem; omega)
  refine .bind (ends_reserveMemory h.finite hF hsize fun b partition hb hroot => .pure ?_)
  exact hQ b _ (h.reserve hb hroot partition) ⟨rfl, rfl, rfl⟩ rfl rfl rfl

theorem ends_createTagNode (h : Rep hand s st) (hF : Unlocked s) (htag : tag.length ≤ 255)
    {Q : ℕ → Process τ × Client → Prop}
    (hQ : ∀ b s', Rep (b ::ₘ hand) s' st → Beside s s' → s'.tag = Function.update s.tag b tag →
      s'.child = (Function.update s.child b fun _ => none) → s'.keys b = [] → NotNode s b →
      Q b (s', client)) :
    Ends env t Q (s, client) (createTagNode tag) := by
  have hsize :=
    toNat_ofNat_add (a := sizeofTagNode) (n := tag.length) (by unfold sizeofTagNode; omega)
  refine .bind (ends_reserveMemory h.finite hF.unmarked hsize fun b partition hb hroot =>
    .bind (ends_initNode (.pure ?_)))
  have hrep := (h.reserve hb hroot partition).initNode (Multiset.mem_cons_self b hand) tag
    (Function.update s.keysLock b none)
  refine hQ b _ hrep ⟨rfl, rfl, funext fun x => ?_⟩ rfl rfl (Function.update_self ..)
    (h.notNode hb hroot)
  have hb : s.keysLock b = none := hF.keys b
  cases x with
  | keys n => simp only [Process.holder, ← hb, Function.update_eq_self]
  | _ => rfl

/-! ### The nodes of the tags -/

theorem NodeOf.tag_eq (hn : NodeOf s tag n) (h : Rep hand s st) : s.tag n = tag := by
  obtain ⟨use, tree, -, -, hI⟩ := h
  exact (hI.represents.key_eq ((hI.ordered.mem_toList_iff tag n).mpr (hn tree hI.represents))).symm

/-- The search for a tag meets the node. -/
def Meets (s : Process τ) (tag : CacheTag) (n : ℕ) : Prop :=
  ∀ tree, Represents s.tag s.child (some root) tree → n ∈ tree.path compareTags tag

theorem meets_root : Meets s tag root := fun _ ht => ht.root_mem_path

theorem Meets.child {side : Side} {c : ℕ} (hn : Meets s tag n)
    (hside : compareTags tag (s.tag n) = side.ordering) (hc : s.child n side = some c) :
    Meets s tag c := fun tree ht => ht.child_mem_path (hn tree ht) hside hc

/-- The search ends at a node with its tag. -/
theorem Meets.nodeOf (hn : Meets s tag n) (heq : compareTags tag (s.tag n) = .eq) :
    NodeOf s tag n :=
  fun tree ht => ht.find_of_mem_path (hn tree ht) heq

/-- The search ends where there is no child. -/
theorem Meets.getTagIfExists_eq_none {side : Side} (hn : Meets s tag n) (h : Rep hand s st)
    (hside : compareTags tag (s.tag n) = side.ordering) (hnone : s.child n side = none) :
    Cik.getTagIfExists st.tags tag = none := by
  have hrep := h
  obtain ⟨use, tree, -, -, hI⟩ := h
  have hf := hrep.find_eq tag hI.represents
  rw [hI.represents.find_eq_none (hn tree hI.represents) hside hnone, Option.map_none] at hf
  exact Option.map_eq_none_iff.mp hf.symm

theorem NodeOf.getTagIfExists_eq (hn : NodeOf s tag n) (h : Rep hand s st) :
    ∃ node, Cik.getTagIfExists st.tags tag = some node ∧ node.keys = keysOf (s.keys n) := by
  have hrep := h
  obtain ⟨use, tree, -, -, hI⟩ := h
  have hf := hrep.find_eq tag hI.represents
  rw [hn tree hI.represents, Option.map_some] at hf
  obtain ⟨node, hnode, hkeys⟩ := Option.map_eq_some_iff.mp hf.symm
  exact ⟨node, hnode, hkeys⟩

/-- A tag that has a node needs none. -/
theorem getOrCreateNode_of_some {tags : TagTree} {node : TagNode}
    (h : Cik.getTagIfExists tags tag = some node) :
    Cik.getOrCreateNode tags tag = tags := by
  unfold Cik.getOrCreateNode
  obtain ⟨nodes, ordered⟩ := tags
  simp only [insertNew_of_find (show nodes.find compareTags tag = some node from h)]

/-- A node that is made is not in the tree, and does not change the search. -/
theorem Meets.fresh {b : ℕ} {tg : CacheTag} {f : Side → Option ℕ} (hn : Meets s tag n)
    (h : Rep hand s st) (hb : NotNode s b) (htag : s'.tag = Function.update s.tag b tg)
    (hchild : s'.child = Function.update s.child b f) :
    Meets s' tag n ∧ n ≠ b := by
  obtain ⟨use, tree, -, -, hI⟩ := h
  have hne (m : ℕ) (hm : m ∈ tree.toList.map Prod.snd) : m ≠ b := by
    rintro rfl
    exact hb tree hI.represents hm
  have hpath := hn tree hI.represents
  refine ⟨fun tree' ht' => ?_, hne n (mem_values_of_mem_path hpath)⟩
  have hrep : Represents s'.tag s'.child (some root) tree := by
    refine hI.represents.congr fun m hm => ?_
    rw [htag, hchild, Function.update_of_ne (hne m hm), Function.update_of_ne (hne m hm)]
    exact ⟨rfl, rfl⟩
  rw [ht'.unique hrep]
  exact hpath

/-- How far the search for the node of a tag has come: the tree is as it was, and what hangs at the
node has some size; or the node is new, and is the one that is looked for. -/
def Seeking (s : Process τ) (client : Client) (hand : Multiset ℕ) (st : Store)
    (tag : CacheTag) (size n : ℕ) (x : Process τ × Client) : Prop :=
  (x = (s, client) ∧ Meets s tag n ∧ ∃ sub, Represents s.tag s.child (some n) sub ∧
    sub.size = size) ∨ ∃ s', x = (s', client) ∧
    Rep hand s' ⟨st.maps, Cik.getOrCreateNode st.tags tag⟩ ∧ Beside s s' ∧ NodeOf s' tag n

theorem ends_getOrCreateChild (side : Side) (h : Rep hand s st) (hF : Unlocked s)
    (htag : tag.length ≤ 255) {sub : SearchTree CacheTag ℕ} (hm : Meets s tag n)
    (hside : compareTags tag (s.tag n) = side.ordering)
    (hsub : Represents s.tag s.child (some n) sub) :
    Ends env t (fun c x => ∃ m < sub.size, Seeking s client hand st tag m c x) (s, client)
      (getOrCreateChild tag n side) := by
  have hpos : 0 < sub.size := by
    cases hsub
    exact Nat.succ_pos _
  refine .bind (ends_readChild ?_)
  cases hc : s.child n side with
  | some c =>
    obtain ⟨sub', hsub', hlt⟩ := hsub.exists_smaller hc
    exact .pure ⟨_, hlt, Or.inl ⟨rfl, hm.child hside hc, sub', hsub', rfl⟩⟩
  | none =>
    refine .bind (ends_createTagNode h hF htag fun b s' hrep hbeside htags hchildren hkeys hb => ?_)
    obtain ⟨hm', hnb⟩ := hm.fresh h hb htags hchildren
    have hnone : s'.child n side = none := by rw [hchildren, Function.update_of_ne hnb, hc]
    have hpath : OnPath s' tag n side := ⟨hm', by rw [htags, Function.update_of_ne hnb, hside]⟩
    refine .bind (ends_exchangeChild hnone ?_)
    rw [if_pos rfl]
    obtain ⟨hrep', hnode⟩ := hrep.link hpath hnone (by rw [htags, Function.update_self])
      (fun side => by rw [hchildren, Function.update_self]) hkeys rfl
    exact .pure ⟨0, hpos, Or.inr ⟨_, rfl, hrep', hbeside.trans ⟨rfl, rfl, rfl⟩, hnode⟩⟩

/-- The tree has a node for the tag, made by the worker if there was none. -/
theorem ends_getOrCreateNode (h : Rep hand s st) (hF : Unlocked s) (htag : tag.length ≤ 255)
    {Q : ℕ → Process τ × Client → Prop}
    (hQ : ∀ n s', Rep hand s' ⟨st.maps, Cik.getOrCreateNode st.tags tag⟩ → Beside s s' →
      NodeOf s' tag n → Q n (s', client)) :
    Ends env t Q (s, client) (getOrCreateNode tag) := by
  obtain ⟨tree, ht⟩ : ∃ tree, Represents s.tag s.child (some root) tree := by
    obtain ⟨use, tree, -, -, hI⟩ := h
    exact ⟨tree, hI.represents⟩
  refine Completes.iterate_of (Seeking s client hand st tag) (fun size n x hx => ?_)
    (Or.inl ⟨rfl, meets_root, tree, ht, rfl⟩)
  rcases hx with ⟨rfl, hm, sub, hsub, rfl⟩ | ⟨s', rfl, hrep, hbeside, hnode⟩
  · refine .bind (ends_readTag ?_)
    cases hc : compareTags tag (s.tag n) with
    | lt =>
      exact .bind ((ends_getOrCreateChild .left h hF htag hm hc hsub).mono fun c x hx => .pure hx)
    | gt =>
      exact .bind ((ends_getOrCreateChild .right h hF htag hm hc hsub).mono fun c x hx => .pure hx)
    | eq =>
      have hnode := hm.nodeOf hc
      obtain ⟨node, hfind, -⟩ := hnode.getTagIfExists_eq h
      refine .pure (hQ n s ?_ (.refl s) hnode)
      rw [getOrCreateNode_of_some hfind]
      exact h
  · refine .bind (ends_readTag ?_)
    have hself : compareTags tag tag = .eq := Std.ReflCmp.compare_self
    rw [hnode.tag_eq hrep, hself]
    exact .pure (hQ n s' hrep hbeside hnode)

/-- The tag's node is found when there is one. -/
theorem ends_getTagIfExists (tag : CacheTag) (h : Rep hand s st)
    {Q : Option ℕ → Process τ × Client → Prop}
    (hnone : Cik.getTagIfExists st.tags tag = none → Q none (s, client))
    (hsome : ∀ n, NodeOf s tag n → Q (some n) (s, client)) :
    Ends env t Q (s, client) (getTagIfExists tag) := by
  obtain ⟨tree, ht⟩ : ∃ tree, Represents s.tag s.child (some root) tree := by
    obtain ⟨use, tree, -, -, hI⟩ := h
    exact ⟨tree, hI.represents⟩
  refine Completes.iterate_of (fun size n x => x = (s, client) ∧ Meets s tag n ∧
    ∃ sub, Represents s.tag s.child (some n) sub ∧ sub.size = size) (fun size n x hx => ?_)
      ⟨rfl, meets_root, tree, ht, rfl⟩
  obtain ⟨rfl, hm, sub, hsub, rfl⟩ := hx
  have hside (side : Side) (hc : compareTags tag (s.tag n) = side.ordering) :
      Ends env t
        (fun x x' => Sum.elim (fun n' => ∃ m < sub.size, x' = (s, client) ∧ Meets s tag n' ∧
        ∃ sub', Represents s.tag s.child (some n') sub' ∧ sub'.size = m) (fun c => Q c x') x)
          (s, client)
        (readChild n side >>= fun c => pure (nextNode c)) := by
    refine .bind (ends_readChild ?_)
    cases hcn : s.child n side with
    | none => exact .pure (hnone (hm.getTagIfExists_eq_none h hc hcn))
    | some c =>
      obtain ⟨sub', hsub', hlt⟩ := hsub.exists_smaller hcn
      exact .pure ⟨_, hlt, rfl, hm.child hc hcn, sub', hsub', rfl⟩
  refine .bind (ends_readTag ?_)
  cases hc : compareTags tag (s.tag n) with
  | eq => exact .pure (hsome n (hm.nodeOf hc))
  | lt => exact hside .left hc
  | gt => exact hside .right hc

/-! ### Key lists -/

theorem ends_copyKeyList {l : List KeyElem} (h : Rep hand s st) (hF : Unmarked s)
    (hshort : ∀ key ∈ keysOf l, key.length ≤ 255) {Q : List KeyElem → Process τ × Client → Prop}
    (hQ : ∀ l' s', keysOf l' = keysOf l → Rep (bases l' + hand) s' st → Beside s s' →
      s'.tag = s.tag → s'.child = s.child → Q l' (s', client)) :
    Ends env t Q (s, client) (copyKeyList l) := by
  induction l generalizing hand s Q with
  | nil => exact .pure (hQ [] s rfl (by simpa using h) (.refl s) rfl rfl)
  | cons elem next ih =>
    rw [keysOf_cons, List.forall_mem_cons] at hshort
    refine .bind (ends_createKeyElem h hF hshort.1 fun b s₁ h₁ hb₁ _ htag₁ hchild₁ => ?_)
    refine .bind (ih h₁ (hb₁.unmarked hF) hshort.2 fun l' s₂ hl' h₂ hb₂ htag₂ hchild₂ => .pure ?_)
    refine hQ _ s₂ (by rw [keysOf_cons, keysOf_cons, hl']) ?_ (hb₁.trans hb₂) (htag₂.trans htag₁)
      (hchild₂.trans hchild₁)
    rwa [bases_cons, Multiset.cons_add, ← Multiset.add_cons]

/-- The guard of a list is the worker's for a while. -/
theorem Beside.unlock (h : Beside (s.setHolder (.keys n) (some t)) s') (hF : Unlocked s) :
    Beside s (s'.setHolder (.keys n) none) := by
  refine ⟨?_, ?_, funext fun x => ?_⟩
  · rw [Process.setHolder_slots, h.slots, Process.setHolder_slots]
  · rw [Process.setHolder_entries, h.entries, Process.setHolder_entries]
  · by_cases hx : x = .keys n
    · subst hx
      rw [hF.keys n]
      simp [Process.holder, Process.setHolder]
    · rw [Process.holder_setHolder_of_ne hx, h.holder, Process.holder_setHolder_of_ne hx]

/-- The keys of a list of the index are no longer than a request can make them. -/
theorem NodeOf.short (hn : NodeOf s tag n) (h : Rep hand s st) :
    ∀ key ∈ keysOf (s.keys n), key.length ≤ 255 := by
  obtain ⟨node, hnode, hkeys⟩ := hn.getTagIfExists_eq h
  intro key hk
  exact h.short tag (TagTree.hasKey_iff.mpr ⟨node, hnode, hkeys ▸ hk⟩)

theorem ends_getKeyListCopyByTag (tag : CacheTag) (h : Rep hand s st) (hF : Unlocked s)
    {Q : List KeyElem → Process τ × Client → Prop}
    (hQ : ∀ l s', keysOf l = Cik.getKeyListCopyByTag st.tags tag →
      Rep (bases l + hand) s' st → Beside s s' → Q l (s', client)) :
    Ends env t Q (s, client) (getKeyListCopyByTag tag) := by
  refine .bind (ends_getTagIfExists tag h (fun hnone => .pure ?_) fun n hn => ?_)
  · refine hQ [] s ?_ (by simpa using h) (.refl s)
    rw [Cik.getKeyListCopyByTag, hnone, keysOf_nil]
  · obtain ⟨node, hnode, hkeys⟩ := hn.getTagIfExists_eq h
    refine .bind (ends_lock (hF.keys n) (.bind (ends_readKeys ?_)))
    rw [Process.setHolder_keys]
    refine .bind
      (ends_copyKeyList (Rep.setHolder_iff.mpr h) (hF.unmarked.setHolder _) (hn.short h) ?_)
    intro l s' hl hrep hb _ _
    refine .bind (ends_unlock (.pure (hQ l _ ?_ (Rep.setHolder_iff.mpr hrep) (hb.unlock hF))))
    rw [Cik.getKeyListCopyByTag, hnode, hl, ← hkeys]
    exact (copyKeyList_eq _).symm

theorem ends_insertIfUnique {l : List KeyElem} (h : Rep hand s st) (hF : Unmarked s)
    (hkey : key.length ≤ 255) {Q : List KeyElem × Bool → Process τ × Client → Prop}
    (hold : key ∈ keysOf l → Q (l, false) (s, client))
    (hnew : ∀ b s', key ∉ keysOf l → Rep (b ::ₘ hand) s' st → Beside s s' → s'.keys = s.keys →
      s'.tag = s.tag → s'.child = s.child → Q (⟨b, key⟩ :: l, true) (s', client)) :
    Ends env t Q (s, client) (insertIfUnique l key) := by
  unfold insertIfUnique
  split_ifs with hmem
  · exact .pure (hold hmem)
  · exact .bind (ends_createKeyElem h hF hkey fun b s' h' hb' hkeys htag hchild =>
      .pure (hnew b s' hmem h' hb' hkeys htag hchild))

/-- The node of a tag stays it when only lists and blocks change. -/
theorem NodeOf.congr (hn : NodeOf s tag n) (htag : s'.tag = s.tag) (hchild : s'.child = s.child) :
    NodeOf s' tag n := by
  intro tree ht
  rw [htag, hchild] at ht
  exact hn tree ht

theorem ends_addKeyToTag (h : Rep hand s st) (hF : Unlocked s) (htag : tag.length ≤ 255)
    (hkey : key.length ≤ 255) {Q : Unit → Process τ × Client → Prop}
    (hQ : ∀ s', Rep hand s' ⟨st.maps, Cik.addKeyToTag st.tags tag key⟩ → Beside s s' →
      Q () (s', client)) :
    Ends env t Q (s, client) (addKeyToTag tag key) := by
  refine .bind (ends_getOrCreateNode h hF htag fun n s₁ h₁ hb₁ hn => ?_)
  have hF₁ := hb₁.unlocked hF
  obtain ⟨node, hnode, hkeys⟩ := hn.getTagIfExists_eq h₁
  refine .bind (ends_lock (hF₁.keys n) (.bind (ends_readKeys ?_)))
  rw [Process.setHolder_keys]
  have hshort (tag' : CacheTag) (key' : CacheKey)
    (hk : (Cik.addKeyToTag st.tags tag key).HasKey tag' key') :
      key'.length ≤ 255 := by
    rcases hasKey_addKeyToTag.mp hk with ⟨-, rfl⟩ | hk
    · exact hkey
    · exact h.short _ hk
  refine .bind
    (ends_insertIfUnique (Rep.setHolder_iff.mpr h₁) (hF₁.unmarked.setHolder _) hkey
    (fun hmem => ?_) ?_)
  · -- the node has the key
    change Ends env t Q _ (unlock (.keys n))
    refine ends_unlock ?_
    rw [Process.setHolder_setHolder, Process.setHolder_none (hF₁.keys n)]
    refine hQ s₁ ?_ hb₁
    have hrel :=
      h₁.relist hn (s₁.keys n) (fun node => node.insertKey key)
      (fun l => (Cik.insertIfUnique l key).1) rfl (fun _ => rfl)
        (by rw [Cik.insertIfUnique, if_pos hmem]) hshort
    rw [Function.update_eq_self] at hrel
    exact hrel
  · intro b s₂ hmem h₂ hb₂ hkeys₂ htag₂ hchild₂
    change Ends env t Q _ (writeKeys n _ >>= fun _ => unlock (.keys n))
    refine .bind (ends_writeKeys (ends_unlock ?_))
    rw [Process.setHolder_keys] at hkeys₂
    rw [Process.setHolder_tag] at htag₂
    rw [Process.setHolder_child] at hchild₂
    have hbases : bases (⟨b, key⟩ :: s₁.keys n) + hand = bases (s₂.keys n) + b ::ₘ hand := by
      rw [hkeys₂, bases_cons, Multiset.cons_add, Multiset.add_cons]
    have hrel :=
      h₂.relist (hn.congr htag₂ hchild₂) (⟨b, key⟩ :: s₁.keys n) (fun node => node.insertKey key)
      (fun l => (Cik.insertIfUnique l key).1) hbases (fun _ => rfl)
        (by rw [hkeys₂, Cik.insertIfUnique, if_neg hmem, keysOf_cons]) hshort
    refine hQ _ (Rep.setHolder_iff.mpr hrel) (hb₁.trans ?_)
    exact Beside.unlock (hb₂.trans ⟨rfl, rfl, rfl⟩) hF₁

/-- Taking an element out of a list takes its key out. -/
theorem keysOf_unlinkElem (key : CacheKey) (l : List KeyElem) :
    unlinkElem key l = none ∧ Cik.unlinkKey (keysOf l) key = (keysOf l, false) ∨
      ∃ found rest, unlinkElem key l = some (found, rest) ∧
        Cik.unlinkKey (keysOf l) key = (keysOf rest, true) := by
  induction l with
  | nil => exact Or.inl ⟨rfl, rfl⟩
  | cons elem next ih =>
    rw [unlinkElem, keysOf_cons, Cik.unlinkKey]
    split_ifs with he
    · exact Or.inr ⟨elem, next, rfl, rfl⟩
    · rcases ih with ⟨hu, hk⟩ | ⟨found, rest, hu, hk⟩
      · exact Or.inl ⟨by rw [hu, Option.map_none], by rw [hk]⟩
      · exact Or.inr ⟨found, elem :: rest, by rw [hu, Option.map_some], by rw [hk, keysOf_cons]⟩

/-- A block of the worker is released. -/
theorem ends_releaseOwn {b : ℕ} (h : Rep (b ::ₘ hand) s st) (hF : Unmarked s)
    {Q : Unit → Process τ × Client → Prop}
    (hQ : ∀ s', Rep hand s' st → Beside s s' → s'.tag = s.tag ∧ s'.child = s.child ∧
      s'.keys = s.keys → Q () (s', client)) :
    Ends env t Q (s, client) (release b) :=
  ends_release (hF _) (hQ _ h.release ⟨rfl, rfl, rfl⟩ ⟨rfl, rfl, rfl⟩)

theorem ends_removeKeyFromTag (h : Rep hand s st) (hF : Unlocked s)
    {Q : Unit → Process τ × Client → Prop}
    (hQ : ∀ s', Rep hand s' ⟨st.maps, Cik.removeKeyFromTag st.tags tag key⟩ → Beside s s' →
      Q () (s', client)) :
    Ends env t Q (s, client) (removeKeyFromTag tag key) := by
  refine .bind (ends_getTagIfExists tag h (fun hnone => .pure ?_) fun n hn => ?_)
  · refine hQ s ?_ (.refl s)
    rw [Cik.removeKeyFromTag, hnone]
    exact h
  · obtain ⟨node, hnode, hkeys⟩ := hn.getTagIfExists_eq h
    have htags : Cik.removeKeyFromTag st.tags tag key =
        modifyNode st.tags tag fun node => node.removeKey key := by
      rw [Cik.removeKeyFromTag, hnode]
    have hshort (tag' : CacheTag) (key' : CacheKey)
        (hk : (modifyNode st.tags tag fun node => node.removeKey key).HasKey tag' key') :
        key'.length ≤ 255 := by
      rw [← htags, hasKey_removeKeyFromTag] at hk
      exact h.short _ hk.2
    rw [htags] at hQ
    refine .bind (ends_lock (hF.keys n) (.bind (ends_readKeys ?_)))
    rw [Process.setHolder_keys]
    rcases keysOf_unlinkElem key (s.keys n) with ⟨hu, hk⟩ | ⟨found, rest, hu, hk⟩
    · rw [hu]
      change Ends env t Q _ (unlock (.keys n))
      refine ends_unlock ?_
      rw [Process.setHolder_setHolder, Process.setHolder_none (hF.keys n)]
      have hrel :=
        h.relist hn (s.keys n) (fun node => node.removeKey key)
        (fun l => (Cik.unlinkKey l key).1) rfl (fun _ => rfl) (by rw [hk]) hshort
      rw [Function.update_eq_self] at hrel
      exact hQ s hrel (.refl s)
    · rw [hu]
      have hbases : bases rest + found.base ::ₘ hand = bases (s.keys n) + hand := by
        rw [bases_unlinkElem hu, Multiset.cons_add, Multiset.add_cons]
      have hrel :=
        h.relist hn rest (fun node => node.removeKey key) (fun l => (Cik.unlinkKey l key).1) hbases
        (fun _ => rfl) (by rw [hk]) hshort
      change Ends env t Q _
        (writeKeys n rest >>= fun _ => release found.base >>= fun _ => unlock (.keys n))
      have hmarks : Unmarked (s.setHolder (.keys n) (some t)) := hF.unmarked.setHolder _
      have hrel' := (Rep.setHolder_iff (x := .keys n) (w := some t)).mpr hrel
      refine .bind (ends_writeKeys (.bind (ends_releaseOwn hrel' hmarks fun s' h' hb' _ => ?_)))
      have hbeside : Beside (s.setHolder (.keys n) (some t)) s' := by
        refine Beside.trans ?_ hb'
        exact ⟨rfl, rfl, rfl⟩
      exact ends_unlock (hQ _ (Rep.setHolder_iff.mpr h') (hbeside.unlock hF))

/-! ### Queries -/

theorem ends_releaseKeyList {l : List KeyElem} (h : Rep (bases l + hand) s st) (hF : Unmarked s)
    {Q : Unit → Process τ × Client → Prop}
    (hQ : ∀ s', Rep hand s' st → Beside s s' → Q () (s', client)) :
    Ends env t Q (s, client) (releaseKeyList l) := by
  induction l generalizing s with
  | nil => exact .pure (hQ s (by simpa using h) (.refl s))
  | cons elem next ih =>
    rw [bases_cons, Multiset.cons_add] at h
    refine .bind (ends_releaseOwn h hF fun s₁ h₁ hb₁ _ => ?_)
    exact ih h₁ (hb₁.unmarked hF) fun s' h' hb' => hQ s' h' (hb₁.trans hb')

theorem ends_mergeKeys {found keys : List KeyElem} (h : Rep (bases found + hand) s st)
    (hF : Unmarked s) (hshort : ∀ key ∈ keysOf keys, key.length ≤ 255)
    {Q : List KeyElem → Process τ × Client → Prop}
    (hQ : ∀ l s', keysOf l = Cik.mergeKeys (keysOf found) (keysOf keys) →
      Rep (bases l + hand) s' st → Beside s s' → Q l (s', client)) :
    Ends env t Q (s, client) (mergeKeys found keys) := by
  induction keys generalizing found s with
  | nil => exact .pure (hQ found s rfl h (.refl s))
  | cons elem next ih =>
    rw [keysOf_cons, List.forall_mem_cons] at hshort
    have hcons (l : List CacheKey) (keys : List CacheKey) (key : CacheKey) :
        Cik.mergeKeys l (key :: keys) = Cik.mergeKeys (Cik.insertIfUnique l key).1 keys := rfl
    refine .bind
      (ends_insertIfUnique h hF hshort.1 (fun hmem => ?_) fun b s₁ hmem h₁ hb₁ _ _ _ => ?_)
    · refine ih h hF hshort.2 fun l s' hl => hQ l s' ?_
      rw [hl, keysOf_cons, hcons, Cik.insertIfUnique, if_pos hmem]
    · refine ih (by rwa [bases_cons, Multiset.cons_add])
        (hb₁.unmarked hF) hshort.2 fun l s' hl h' hb' => ?_
      refine hQ l s' ?_ h' (hb₁.trans hb')
      rw [hl, keysOf_cons, keysOf_cons, hcons, Cik.insertIfUnique, if_neg hmem]

theorem ends_retainKeys {found keys : List KeyElem} (h : Rep (bases found + hand) s st)
    (hF : Unmarked s) {Q : List KeyElem → Process τ × Client → Prop}
    (hQ : ∀ l s', keysOf l = Cik.retainKeys (keysOf found) (keysOf keys) →
      Rep (bases l + hand) s' st → Beside s s' → Q l (s', client)) :
    Ends env t Q (s, client) (retainKeys keys found) := by
  induction found generalizing hand s Q with
  | nil => exact .pure (hQ [] s rfl h (.refl s))
  | cons elem next ih =>
    rw [bases_cons, Multiset.cons_add] at h
    rw [retainKeys]
    split_ifs with hmem
    · rw [← Multiset.add_cons] at h
      refine .bind (ih h hF fun l s' hl h' hb' => .pure (hQ _ s' ?_ ?_ hb'))
      · rw [keysOf_cons, keysOf_cons, hl]
        exact (if_pos hmem).symm
      · rwa [bases_cons, Multiset.cons_add, ← Multiset.add_cons]
    · refine .bind (ends_releaseOwn h hF fun s₁ h₁ hb₁ _ => ?_)
      refine ih h₁ (hb₁.unmarked hF) fun l s' hl h' hb' => hQ l s' ?_ h' (hb₁.trans hb')
      rw [hl, keysOf_cons]
      exact (if_neg hmem).symm

/-- A program that combines the keys found so far with those of a tag, as a function does. -/
def Combines (env : Env) (t : τ) (combine : List KeyElem → List KeyElem → Program (List KeyElem))
    (f : List CacheKey → List CacheKey → List CacheKey) : Prop :=
  ∀ (found keys : List KeyElem) (s : Process τ) (client : Client) (hand : Multiset ℕ) (st : Store)
    Q,
    Rep (bases found + hand) s st → Unmarked s → (∀ key ∈ keysOf keys, key.length ≤ 255) →
    (∀ l s', keysOf l = f (keysOf found) (keysOf keys) → Rep (bases l + hand) s' st → Beside s s' →
      Q l (s', client)) →
    Ends env t Q (s, client) (combine found keys)

theorem ends_combineTags {combine : List KeyElem → List KeyElem → Program (List KeyElem)}
    {f : List CacheKey → List CacheKey → List CacheKey} (hc : Combines env t combine f)
    {tags : List CacheTag} {found : List KeyElem} (h : Rep (bases found + hand) s st)
    (hF : Unlocked s) {Q : List KeyElem → Process τ × Client → Prop}
    (hQ : ∀ l s',
      keysOf l = tags.foldl (fun found tag => f found (Cik.getKeyListCopyByTag st.tags tag))
      (keysOf found) → Rep (bases l + hand) s' st → Beside s s' → Q l (s', client)) :
    Ends env t Q (s, client) (combineTags combine tags found) := by
  induction tags generalizing found s with
  | nil => exact .pure (hQ found s rfl h (.refl s))
  | cons tag tags ih =>
    refine .bind (ends_getKeyListCopyByTag tag h hF fun keys s₁ hkeys h₁ hb₁ => ?_)
    have hshort : ∀ key ∈ keysOf keys, key.length ≤ 255 := by
      rw [hkeys]
      exact fun key hk => h.short tag hk
    rw [← Multiset.add_assoc, Multiset.add_comm (bases keys), Multiset.add_assoc] at h₁
    refine .bind
      (hc found keys s₁ client _ st _ h₁ (hb₁.unlocked hF).unmarked hshort fun l s₂ hl h₂ hb₂ => ?_)
    rw [← Multiset.add_assoc, Multiset.add_comm (bases l), Multiset.add_assoc] at h₂
    refine .bind
      (ends_releaseKeyList h₂ (hb₂.unmarked (hb₁.unlocked hF).unmarked) fun s₃ h₃ hb₃ => ?_)
    have hb := (hb₁.trans hb₂).trans hb₃
    refine ih h₃ (hb.unlocked hF) fun l' s' hl' h' hb' => hQ l' s' ?_ h' (hb.trans hb')
    rw [hl', hl, hkeys, List.foldl_cons]

theorem ends_getKeysMatchingAnyTag {tags : List CacheTag} (h : Rep hand s st) (hF : Unlocked s)
    {Q : List KeyElem → Process τ × Client → Prop}
    (hQ : ∀ l s', keysOf l = Cik.getKeysMatchingAnyTag st.tags tags →
      Rep (bases l + hand) s' st → Beside s s' → Q l (s', client)) :
    Ends env t Q (s, client) (getKeysMatchingAnyTag tags) := by
  cases tags with
  | nil => exact .pure (hQ [] s rfl (by simpa using h) (.refl s))
  | cons tag tags =>
    have hmerge : Combines env t mergeKeys Cik.mergeKeys :=
      fun found keys s client hand st Q h hF hshort hQ =>
      ends_mergeKeys h hF hshort hQ
    refine .bind (ends_getKeyListCopyByTag tag h hF fun found s₁ hfound h₁ hb₁ => ?_)
    refine ends_combineTags hmerge h₁ (hb₁.unlocked hF) fun l s' hl h' hb' =>
      hQ l s' ?_ h' (hb₁.trans hb')
    rw [hl, hfound]
    rfl

theorem ends_getKeysMatchingAllTags {tags : List CacheTag} (h : Rep hand s st) (hF : Unlocked s)
    {Q : List KeyElem → Process τ × Client → Prop}
    (hQ : ∀ l s', keysOf l = Cik.getKeysMatchingAllTags st.tags tags →
      Rep (bases l + hand) s' st → Beside s s' → Q l (s', client)) :
    Ends env t Q (s, client) (getKeysMatchingAllTags tags) := by
  cases tags with
  | nil => exact .pure (hQ [] s rfl (by simpa using h) (.refl s))
  | cons tag tags =>
    have hretain : Combines env t (fun found keys => retainKeys keys found) Cik.retainKeys :=
      fun found keys s client hand st Q h hF _ hQ => ends_retainKeys h hF hQ
    refine .bind (ends_getKeyListCopyByTag tag h hF fun found s₁ hfound h₁ hb₁ => ?_)
    refine ends_combineTags hretain h₁ (hb₁.unlocked hF) fun l s' hl h' hb' =>
      hQ l s' ?_ h' (hb₁.trans hb')
    rw [hl, hfound]
    rfl

/-! ### The walk over the tags -/

/-- The nodes of a tree from left to right. -/
def nodesOf (tree : SearchTree CacheTag ℕ) : List ℕ := tree.toList.map Prod.snd

/-- The nodes that a walk still visits for what is on its stack. -/
def Pending (s : Process τ) : List TagElem → List ℕ → Prop
  | [], l => l = []
  | tmp :: stack, l =>
    ∃ right rest, Represents s.tag s.child (s.child tmp.node .right) right ∧ Pending s stack rest ∧
    l = tmp.node :: (nodesOf right ++ rest)

/-- The walk is at the tree, and has more nodes on its stack; what it found is as it was. -/
structure Walking (s : Process τ) (client : Client) (hand : Multiset ℕ) (st : Store)
    (current : Option ℕ) (stack : List TagElem) (tree : SearchTree CacheTag ℕ) (rest : List ℕ)
        (x : Process τ × Client) : Prop where
  /-- The tree that hangs here. -/
  tree : Represents s.tag s.child current tree
  /-- The nodes on the stack. -/
  pending : Pending s stack rest
  /-- The stack is the worker's. -/
  rep : Rep (stackBases stack + hand) x.1 st
  /-- Nothing else is changed. -/
  beside : Beside s x.1
  /-- Nor are the nodes. -/
  same : x.1.tag = s.tag ∧ x.1.child = s.child ∧ x.1.keys = s.keys
  /-- Nothing is read. -/
  client : x.2 = client

theorem ends_pushLeft {current : Option ℕ} {stack : List TagElem} {tree : SearchTree CacheTag ℕ}
    {rest : List ℕ} (hF : Unlocked s) {x : Process τ × Client}
    (hw : Walking s client hand st current stack tree rest x)
    {Q : List TagElem → Process τ × Client → Prop}
    (hQ : ∀ stack' x', Walking s client hand st none stack' .nil (nodesOf tree ++ rest) x' →
      Q stack' x') :
    Ends env t Q x (pushLeft current stack) := by
  refine Completes.iterate_of (fun size y x => ∃ tree' rest',
    Walking s client hand st y.1 y.2 tree' rest' x ∧ tree'.size = size ∧
    nodesOf tree' ++ rest' = nodesOf tree ++ rest) (fun size y x hx => ?_)
    ⟨tree, rest, hw, rfl, rfl⟩
  obtain ⟨current, stack⟩ := y
  obtain ⟨tree', rest', hw, rfl, hl⟩ := hx
  obtain ⟨s', client'⟩ := x
  obtain ⟨ht, hpending, hrep, hbeside, ⟨htag, hchild, hkeys⟩, rfl⟩ := hw
  cases ht with
  | nil => exact .pure (hQ stack _ ⟨.nil, hl ▸ hpending, hrep, hbeside, ⟨htag, hchild, hkeys⟩, rfl⟩)
  | @node n left right hleft hright =>
    have hsize : (UInt32.ofNat sizeofTagElem).toNat ≤ MAX_BUCKET_SIZE := by decide
    refine .bind
      (ends_reserveMemory hrep.finite (hbeside.unmarked hF.unmarked)
      hsize fun b partition hb hroot => ?_)
    refine .bind
      (ends_readChild
      (.pure ⟨left.size, ?_, left, n :: (nodesOf right ++ rest'),
      ⟨?_, ?_, ?_, ?_, ?_, rfl⟩, rfl, ?_⟩))
    · simp only [SearchTree.size]
      omega
    · dsimp only
      rw [hchild]
      exact hleft
    · exact ⟨right, rest', hright, hpending, rfl⟩
    · have hreserve := hrep.reserve hb hroot partition
      rw [← Multiset.cons_add] at hreserve
      exact hreserve
    · exact hbeside.trans ⟨rfl, rfl, rfl⟩
    · exact ⟨htag, hchild, hkeys⟩
    · rw [← hl]
      simp [nodesOf, SearchTree.toList]

@[simp] theorem stackBases_nil : stackBases [] = 0 := rfl

/-- A walk that has nothing left is at its end. -/
theorem Walking.ended {current : Option ℕ} {stack : List TagElem} {tree : SearchTree CacheTag ℕ}
    {rest : List ℕ} {x : Process τ × Client}
    (hw : Walking s client hand st current stack tree rest x) (hl : nodesOf tree ++ rest = []) :
    current = none ∧ stack = [] := by
  obtain ⟨ht, hpending, -, -, -, -⟩ := hw
  obtain ⟨htree, rfl⟩ := List.append_eq_nil_iff.mp hl
  constructor
  · cases ht with
    | nil => rfl
    | node => simp [nodesOf, SearchTree.toList] at htree
  · cases stack with
    | nil => rfl
    | cons tmp stack =>
      obtain ⟨right, rest, -, -, hcons⟩ := hpending
      cases hcons

/-- What a walk does at a node. -/
def visitNode {σ : Type} (s : Process τ) (callback : CacheTag → σ → σ) (data : σ) (n : ℕ) : σ :=
  if s.keys n ≠ [] then callback (s.tag n) data else data

/-- A walk over the nodes is a walk over the index. -/
theorem foldl_visitNode {σ : Type} (h : Rep hand s st) {tree : SearchTree CacheTag ℕ}
    (ht : Represents s.tag s.child (some root) tree) (callback : CacheTag → σ → σ) (data : σ) :
    (nodesOf tree).foldl (visitNode s callback) data = Cik.walkAllTags callback st.tags data := by
  obtain ⟨use, tree', -, -, hI⟩ := h
  obtain rfl := ht.unique hI.represents
  have hlist := congrArg SearchTree.toList hI.same
  rw [SearchTree.toList_map, SearchTree.toList_map] at hlist
  let visit (data : σ) (x : CacheTag × List CacheKey) : σ :=
    if x.2 ≠ [] then callback x.1 data else data
  calc (nodesOf tree).foldl (visitNode s callback) data
      = tree.toList.foldl (fun data x => visit data (x.1, keysOf (s.keys x.2))) data := by
        rw [nodesOf, List.foldl_map]
        refine List.foldl_ext _ _ _ fun data x hx => ?_
        simp only [visitNode, visit, hI.represents.key_eq hx, keysOf, ne_eq, List.map_eq_nil_iff]
    _ = (st.tags.nodes.toList.map fun x => (x.1, x.2.keys)).foldl visit data := by
      rw [← hlist, List.foldl_map]
    _ = Cik.walkAllTags callback st.tags data := by
      rw [Cik.walkAllTags, SearchTree.walk_eq, List.foldl_map]

/-- A walk that has so many nodes left, and will make this of its data. -/
def OnWay {σ : Type} (s : Process τ) (client : Client) (hand : Multiset ℕ) (st : Store)
    (callback : CacheTag → σ → σ) (result : σ) (left : ℕ) (y : Option ℕ × List TagElem × σ)
    (x : Process τ × Client) : Prop :=
  ∃ tree rest, Walking s client hand st y.1 y.2.1 tree rest x ∧
    (nodesOf tree ++ rest).length = left ∧
    (nodesOf tree ++ rest).foldl (visitNode s callback) y.2.2 = result

theorem ends_walkAllTags {σ : Type} {callback : CacheTag → σ → σ} {data : σ} (h : Rep hand s st)
    (hF : Unlocked s) {Q : σ → Process τ × Client → Prop}
    (hQ : ∀ s', Rep hand s' st → Beside s s' →
      Q (Cik.walkAllTags callback st.tags data) (s', client)) :
    Ends env t Q (s, client) (walkAllTags callback data) := by
  obtain ⟨tree, ht⟩ : ∃ tree, Represents s.tag s.child (some root) tree := by
    obtain ⟨use, tree, -, -, hI⟩ := h
    exact ⟨tree, hI.represents⟩
  have hstart : Walking s client hand st (some root) [] tree [] (s, client) :=
    ⟨ht, rfl, by simpa using h, .refl s, ⟨rfl, rfl, rfl⟩, rfl⟩
  have hdone :
      (nodesOf tree ++ []).foldl (visitNode s callback) data =
      Cik.walkAllTags callback st.tags data := by
    rw [List.append_nil, foldl_visitNode h ht]
  refine Completes.iterate_of
    (OnWay s client hand st callback (Cik.walkAllTags callback st.tags data))
    (fun left y x hx => ?_) ⟨tree, [], hstart, rfl, hdone⟩
  obtain ⟨current, stack, data'⟩ := y
  obtain ⟨tree, rest, hw, rfl, hfold⟩ := hx
  change Ends env t _ x (if current = none ∧ stack = [] then _ else _)
  split_ifs with hend
  · obtain ⟨rfl, rfl⟩ := hend
    obtain ⟨s', client'⟩ := x
    obtain ⟨ht', hpending, hrep, hbeside, -, rfl⟩ := hw
    cases ht'
    obtain rfl : rest = [] := hpending
    have hdata : data' = Cik.walkAllTags callback st.tags data := hfold
    rw [hdata]
    exact .pure (hQ s' (by simpa using hrep) hbeside)
  · refine .bind (ends_pushLeft hF hw fun stack' x' hw' => ?_)
    obtain ⟨s', client'⟩ := x'
    obtain ⟨-, hpending, hrep, hbeside, ⟨htag, hchild, hkeys⟩, rfl⟩ := hw'
    cases stack' with
    | nil => exact absurd (hw.ended hpending) hend
    | cons tmp stack' =>
      obtain ⟨right, rest', hright, hpending', hl⟩ := hpending
      have hF' := hbeside.unlocked hF
      have hstack : Rep (tmp.base ::ₘ (stackBases stack' + hand)) s' st := by
        rw [← Multiset.cons_add]
        exact hrep
      refine .bind (ends_releaseOwn hstack hF'.unmarked fun s₁ h₁ hb₁ hsame₁ => ?_)
      obtain ⟨htag₁, hchild₁, hkeys₁⟩ := hsame₁
      have hbeside₁ := hbeside.trans hb₁
      have hF₁ := hbeside₁.unlocked hF
      refine .bind (ends_lock (hF₁.keys tmp.node) (.bind (ends_readKeys (.bind (ends_unlock ?_)))))
      rw [Process.setHolder_setHolder, Process.setHolder_none (hF₁.keys tmp.node),
        Process.setHolder_keys]
      have hk : s₁.keys tmp.node = s.keys tmp.node := by rw [hkeys₁, hkeys]
      have ht : s₁.tag tmp.node = s.tag tmp.node := by rw [htag₁, htag]
      have hc : s₁.child tmp.node .right = s.child tmp.node .right := by rw [hchild₁, hchild]
      -- what is left after this node
      have hlt : (nodesOf right ++ rest').length < (nodesOf tree ++ rest).length := by
        rw [hl, List.length_cons]
        exact Nat.lt_succ_self _
      rw [hl, List.foldl_cons] at hfold
      have hnext (d : σ) (hd : d = visitNode s callback data' tmp.node) :
          Ends env t
            (fun y x => Sum.elim (fun y => ∃ m < (nodesOf tree ++ rest).length,
            OnWay s client' hand st callback (Cik.walkAllTags callback st.tags data) m y x)
              (fun c => Q c x) y) (s₁, client')
            (readChild tmp.node .right >>= fun right => pure (.inl (right, stack', d))) := by
        refine .bind
          (ends_readChild
          (.pure ⟨_, hlt, right, rest', ⟨?_, hpending', h₁, hbeside₁, ?_, rfl⟩, rfl, ?_⟩))
        · dsimp only
          rw [hc]
          exact hright
        · exact ⟨htag₁.trans htag, hchild₁.trans hchild, hkeys₁.trans hkeys⟩
        · rw [hd]
          exact hfold
      rw [hk]
      by_cases hne : s.keys tmp.node ≠ []
      · rw [if_pos hne]
        refine .bind (ends_readTag (.bind (.pure (hnext _ ?_))))
        rw [visitNode, if_pos hne, ht]
      · rw [if_neg hne]
        refine .bind (.pure (hnext _ ?_))
        rw [visitNode, if_neg hne]

end Guarded

end Cik

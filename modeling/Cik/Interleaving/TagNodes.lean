import Cik.Source.Tag
import Cik.Library.LinkedTree
import Cik.Library.Threads
import Mathlib.Data.Set.Finite.Basic

/-!
# The tag tree under interleaving

`get_or_create_node` of `tag.c`, run by any number of threads, with a step for each load
of a child and each exchange. A thread compares its tag on the way down from the root;
where there is no child it makes a node and tries to put it there, and if another was
first it releases its own and goes on from the other's.

A node is named by its address; `node->left` and `node->right` are its children at the
two sides, for which the code is the same. Of a node only what the function reads and
writes is kept; the key list is left out. `reserve_memory` gives any block that is not
live, also one that was released before.

What the invariant says is that a thread is on the search path of its tag in the tree
that is linked. Paths only grow, so what others link does not lead a thread astray. A
call comes to its end when its thread goes on, since what hangs at the node that it has
come to gets smaller, and the node that it links is its tag's (`Returns`).
-/

namespace Cik

open SearchTree
  (mem_values_of_mem_path mem_path_insertNew mem_toList_insertNew mem_insertNew_of_mem
  find_insertNew)

/-- What the threads share. -/
structure TagNodes where
  /-- `node->tag`. -/
  tag : ℕ → CacheTag
  /-- `node->left` and `node->right`. -/
  child : ℕ → Side → Option ℕ
  /-- The nodes that are not released. -/
  live : ℕ → Bool

/-- `root`. -/
def TagNodes.root : ℕ := 0

/-- Where a thread is. -/
inductive TagLoc where
  /-- Not in the function. -/
  | idle
  /-- At `compare_tags`. -/
  | compare (tag : CacheTag) (parent : ℕ)
  /-- At `TAG_NODE_LEFT` or `TAG_NODE_RIGHT`. -/
  | load (tag : CacheTag) (parent : ℕ) (side : Side)
  /-- At `create_tag_node`; there was no child. -/
  | create (tag : CacheTag) (parent : ℕ) (side : Side)
  /-- At `atomic_compare_exchange_strong`. -/
  | exchange (tag : CacheTag) (parent : ℕ) (side : Side) (node : ℕ)
  /-- At `release_memory`; another was first. -/
  | release (tag : CacheTag) (parent : ℕ) (side : Side) (node : ℕ)
  /-- At the second `TAG_NODE_LEFT` or `TAG_NODE_RIGHT`. -/
  | reload (tag : CacheTag) (parent : ℕ) (side : Side)

/-- The tag that a thread is called for. -/
def TagLoc.tag : TagLoc → Option CacheTag
  | .idle => none
  | .compare tag _ => some tag
  | .load tag _ _ => some tag
  | .create tag _ _ => some tag
  | .exchange tag _ _ _ => some tag
  | .release tag _ _ _ => some tag
  | .reload tag _ _ => some tag

/-- What can be seen of a step. -/
inductive TagEvent where
  /-- Nothing. -/
  | tau
  /-- A node is linked. -/
  | linked (node : ℕ)
  /-- A node is released. -/
  | released (node : ℕ)
  /-- A call for a tag returns a node. -/
  | returned (tag : CacheTag) (node : ℕ)

/-- The steps of `get_or_create_node`. -/
inductive TagStep : TagNodes → TagLoc → TagEvent → TagNodes → TagLoc → Prop where
  /-- The call. -/
  | call {s : TagNodes} (tag : CacheTag) : TagStep s .idle .tau s (.compare tag TagNodes.root)
  /-- The tag belongs to one side of the node. -/
  | differs {s : TagNodes} {tag : CacheTag} {parent : ℕ} {side : Side}
      (h : compareTags tag (s.tag parent) = side.ordering) :
      TagStep s (.compare tag parent) .tau s (.load tag parent side)
  /-- The node is the tag's. -/
  | equal {s : TagNodes} {tag : CacheTag} {parent : ℕ} (h : compareTags tag (s.tag parent) = .eq) :
      TagStep s (.compare tag parent) (.returned tag parent) s .idle
  /-- There is a child. -/
  | child {s : TagNodes} {tag : CacheTag} {parent node : ℕ} {side : Side}
      (h : s.child parent side = some node) :
      TagStep s (.load tag parent side) .tau s (.compare tag node)
  /-- There is none. -/
  | noChild {s : TagNodes} {tag : CacheTag} {parent : ℕ} {side : Side}
      (h : s.child parent side = none) :
      TagStep s (.load tag parent side) .tau s (.create tag parent side)
  /-- A node is made. -/
  | create {s : TagNodes} {tag : CacheTag} {parent : ℕ} {side : Side} (node : ℕ)
      (h : s.live node = false) :
      TagStep s (.create tag parent side) .tau
        { tag := Function.update s.tag node tag
          child := Function.update s.child node fun _ => none
          live := Function.update s.live node true } (.exchange tag parent side node)
  /-- It is put where there is still no child. -/
  | exchanged {s : TagNodes} {tag : CacheTag} {parent node : ℕ} {side : Side}
      (h : s.child parent side = none) :
      TagStep s (.exchange tag parent side node) (.linked node)
        { s with
          child := Function.update s.child parent
            (Function.update (s.child parent) side (some node)) }
        (.compare tag node)
  /-- There is a child now. -/
  | lost {s : TagNodes} {tag : CacheTag} {parent node other : ℕ} {side : Side}
      (h : s.child parent side = some other) :
      TagStep s (.exchange tag parent side node) .tau s (.release tag parent side node)
  /-- The node is released. -/
  | release {s : TagNodes} {tag : CacheTag} {parent node : ℕ} {side : Side} :
      TagStep s (.release tag parent side node) (.released node)
        { s with live := Function.update s.live node false } (.reload tag parent side)
  /-- The thread goes on from the child that is there. -/
  | reload {s : TagNodes} {tag : CacheTag} {parent node : ℕ} {side : Side}
      (h : s.child parent side = some node) :
      TagStep s (.reload tag parent side) .tau s (.compare tag node)

variable {τ : Type*}

/-- The threads at start-up: there is the root. -/
def TagNodes.init : Threads τ TagNodes TagLoc where
  shared := ⟨fun _ => rootValue, fun _ _ => none, fun n => n == root⟩
  loc := fun _ => .idle

namespace TagNodes

/-! ### What holds -/

/-- Auxiliary: the tree that is linked, and which thread has a node that is not. -/
structure Linking (τ : Type*) where
  /-- The tree. -/
  tree : SearchTree CacheTag ℕ
  /-- Who has made a node and not yet linked or released it. -/
  owner : ℕ → Option τ

/-- What holds of what is shared. -/
structure Sound (l : List (τ × TagEvent)) (g : Linking τ) (s : TagNodes) : Prop where
  /-- The tree is what hangs at the root. -/
  tree : Represents s.tag s.child (some root) g.tree
  /-- It is ordered. -/
  ordered : g.tree.Ordered compareTags
  /-- Its nodes are live. -/
  live : ∀ n ∈ g.tree.toList.map Prod.snd, s.live n = true
  /-- So are the nodes that are not linked yet. -/
  owned : ∀ n t, g.owner n = some t → s.live n = true ∧ n ∉ g.tree.toList.map Prod.snd
  /-- Calls have returned the nodes of their tags. -/
  returned : ∀ t tag n, (t, TagEvent.returned tag n) ∈ l → g.tree.find compareTags tag = some n

/-- A search for the tag meets the node and goes on at the side. -/
def OnPath (g : Linking τ) (s : TagNodes) (tag : CacheTag) (parent : ℕ) (side : Side) : Prop :=
  parent ∈ g.tree.path compareTags tag ∧ compareTags tag (s.tag parent) = side.ordering

/-- What a thread knows at each place. -/
def Knows (g : Linking τ) (t : τ) (s : TagNodes) : TagLoc → Prop
  | .idle => True
  | .compare tag parent => parent ∈ g.tree.path compareTags tag
  | .load tag parent side => OnPath g s tag parent side
  | .create tag parent side => OnPath g s tag parent side
  | .exchange tag parent side node =>
    OnPath g s tag parent side ∧ g.owner node = some t ∧ s.tag node = tag ∧
      ∀ side, s.child node side = none
  | .release tag parent side node =>
    OnPath g s tag parent side ∧ g.owner node = some t ∧ s.child parent side ≠ none
  | .reload tag parent side => OnPath g s tag parent side ∧ s.child parent side ≠ none

variable {l : List (τ × TagEvent)} {g g' : Linking τ} {s s' : TagNodes} {t u : τ}
  {loc loc' : TagLoc} {a : TagEvent} {tag : CacheTag} {parent node : ℕ} {side : Side}

/-- What changes for the others: paths grow, linked nodes keep their tags and their children,
and a node that is not linked is as its owner made it. -/
structure Grows (g g' : Linking τ) (s s' : TagNodes) (t : τ) : Prop where
  /-- Linked nodes stay linked. -/
  tree : ∀ x ∈ g.tree.toList, x ∈ g'.tree.toList
  /-- Paths grow. -/
  path : ∀ tag n, n ∈ g.tree.path compareTags tag → n ∈ g'.tree.path compareTags tag
  /-- Linked nodes keep their tags. -/
  tag : ∀ n ∈ g.tree.toList.map Prod.snd, s'.tag n = s.tag n
  /-- They keep their children. -/
  child : ∀ n ∈ g.tree.toList.map Prod.snd, ∀ side, s.child n side ≠ none → s'.child n side ≠ none
  /-- The nodes of the others are as they were. -/
  owner : ∀ n, ∀ u ≠ t, g.owner n = some u → g'.owner n = some u ∧ s'.tag n = s.tag n ∧
    s'.child n = s.child n

theorem Grows.onPath (h : Grows g g' s s' t) (hp : OnPath g s tag parent side) :
    OnPath g' s' tag parent side := by
  refine ⟨h.path _ _ hp.1, ?_⟩
  rw [h.tag _ (mem_values_of_mem_path hp.1)]
  exact hp.2

theorem Grows.child_ne (h : Grows g g' s s' t) (hp : OnPath g s tag parent side)
    (hc : s.child parent side ≠ none) :
    s'.child parent side ≠ none := h.child _ (mem_values_of_mem_path hp.1) _ hc

/-- What a thread knows is not disturbed by another. -/
theorem Grows.knows (h : Grows g g' s s' t) (hu : u ≠ t) (hk : Knows g u s loc) :
    Knows g' u s' loc := by
  cases loc with
  | idle => trivial
  | compare tag parent => exact h.path _ _ hk
  | load tag parent side => exact h.onPath hk
  | create tag parent side => exact h.onPath hk
  | exchange tag parent side node =>
    obtain ⟨hp, ho, ht, hc⟩ := hk
    obtain ⟨ho', ht', hc'⟩ := h.owner _ u hu ho
    exact ⟨h.onPath hp, ho', ht'.trans ht, fun side => by rw [hc', hc]⟩
  | release tag parent side node =>
    obtain ⟨hp, ho, hc⟩ := hk
    exact ⟨h.onPath hp, (h.owner _ u hu ho).1, h.child_ne hp hc⟩
  | reload tag parent side => exact ⟨h.onPath hk.1, h.child_ne hk.1 hk.2⟩

/-! ### What a step does -/

/-- A step of `t` to `s'` and `loc'` keeps what holds. -/
def Kept (l : List (τ × TagEvent)) (g : Linking τ) (s : TagNodes) (t : τ) (s' : TagNodes)
    (loc' : TagLoc) : Prop :=
  ∃ g', Sound l g' s' ∧ Knows g' t s' loc' ∧ Grows g g' s s' t

/-- A step that changes nothing but where the thread is. -/
theorem kept_stay (h : Sound l g s) (hk : Knows g t s loc') : Kept l g s t s loc' :=
  ⟨g, h, hk, fun _ hx => hx, fun _ _ hn => hn, fun _ _ => rfl, fun _ _ _ hc => hc,
    fun _ _ _ ho => ⟨ho, rfl, rfl⟩⟩

theorem kept_create [DecidableEq τ] (h : Sound l g s) (hk : Knows g t s (.create tag parent side))
    (hlive : s.live node = false) :
    Kept l g s t
      { tag := Function.update s.tag node tag
        child := Function.update s.child node fun _ => none
        live := Function.update s.live node true } (.exchange tag parent side node) := by
  have hfresh : node ∉ g.tree.toList.map Prod.snd := by
    intro hn
    rw [h.live node hn] at hlive
    cases hlive
  have hown : g.owner node = none := by
    cases ho : g.owner node with
    | none => rfl
    | some u =>
      rw [(h.owned node u ho).1] at hlive
      cases hlive
  have hne : ∀ n ∈ g.tree.toList.map Prod.snd, n ≠ node := fun n hn he => hfresh (he ▸ hn)
  have hgrows : Grows g { g with owner := Function.update g.owner node (some t) } s
      { tag := Function.update s.tag node tag
        child := Function.update s.child node fun _ => none
        live := Function.update s.live node true } t := by
    refine ⟨fun _ hx => hx, fun _ _ hn => hn, fun n hn => Function.update_of_ne (hne n hn) _ _,
      fun n hn side hc => ?_, fun n u _ ho => ?_⟩
    · simpa [hne n hn] using hc
    · have hnn : n ≠ node := by
        rintro rfl
        rw [hown] at ho
        cases ho
      simp [hnn, ho]
  refine ⟨{ g with owner := Function.update g.owner node (some t) },
    ⟨?_, h.ordered, fun n hn => ?_, fun n u ho => ?_, h.returned⟩,
    ⟨hgrows.onPath hk, by simp, by simp, by simp⟩, hgrows⟩
  · exact h.tree.congr fun n hn => by simp [hne n hn]
  · simpa [hne n hn] using h.live n hn
  · by_cases hnn : n = node
    · subst hnn
      exact ⟨by simp, hfresh⟩
    · simpa [hnn] using h.owned n u (by simpa [hnn] using ho)

/-- The node is linked at the end of the search path of its tag. -/
theorem kept_exchanged (h : Sound l g s) (hk : Knows g t s (.exchange tag parent side node))
    (hnone : s.child parent side = none) :
    Kept l g s t
      { s with
        child := Function.update s.child parent
          (Function.update (s.child parent) side (some node)) }
      (.compare tag node) := by
  obtain ⟨⟨hpath, hside⟩, ho, htag, hchild⟩ := hk
  obtain ⟨hlive, hfresh⟩ := h.owned node t ho
  have hlink :
    Represents s.tag
    (Function.update s.child parent (Function.update (s.child parent) side (some node)))
      (some root) (g.tree.insertNew compareTags tag node) := by
    refine h.tree.link h.ordered hpath hside hnone htag hchild hfresh (by simp) fun m sd hm => ?_
    by_cases hmp : m = parent
    · subst hmp
      have hsd : sd ≠ side := hm.resolve_left fun hm => hm rfl
      simp [hsd]
    · simp [hmp]
  have hvalues {n : ℕ} (hn : n ∈ (g.tree.insertNew compareTags tag node).toList.map Prod.snd) :
      n = node ∨ n ∈ g.tree.toList.map Prod.snd := by
    obtain ⟨x, hx, rfl⟩ := List.mem_map.mp hn
    rcases mem_toList_insertNew hx with rfl | hx
    · exact Or.inl rfl
    · exact Or.inr (List.mem_map_of_mem hx)
  refine ⟨⟨g.tree.insertNew compareTags tag node, Function.update g.owner node none⟩,
    ⟨hlink, h.ordered.insertNew tag node, fun n hn => ?_, fun n u hn => ?_, fun u tag' n hr => ?_⟩,
    ?_, fun _ => mem_insertNew_of_mem, fun _ _ => mem_path_insertNew, fun _ _ =>
    rfl, fun n _ sd hc => ?_, fun n u hu hn => ?_⟩
  · rcases hvalues hn with rfl | hn
    · exact hlive
    · exact h.live n hn
  · have hnn : n ≠ node := by
      rintro rfl
      simp at hn
    obtain ⟨hlive, hout⟩ := h.owned n u (by simpa [hnn] using hn)
    exact ⟨hlive, fun hn => (hvalues hn).elim hnn hout⟩
  · have hfind := h.returned u tag' n hr
    simp only [find_insertNew]
    split_ifs with heq
    · rw [← heq, hfind]
      rfl
    · exact hfind
  · exact hlink.child_mem_path (mem_path_insertNew hpath) hside (by simp)
  · by_cases hnp : n = parent
    · by_cases hsd : sd = side
      · simp [hnp, hsd]
      · simpa [hnp, hsd] using hnp ▸ hc
    · simpa [hnp] using hc
  · have hnn : n ≠ node := by
      rintro rfl
      rw [ho] at hn
      exact hu (Option.some.inj hn).symm
    have hnp : n ≠ parent := fun he => (h.owned n u hn).2 (he ▸ mem_values_of_mem_path hpath)
    simp [hnn, hnp, hn]

theorem kept_release (h : Sound l g s) (hk : Knows g t s (.release tag parent side node)) :
    Kept l g s t { s with live := Function.update s.live node false }
      (.reload tag parent side) := by
  obtain ⟨hpath, ho, hchild⟩ := hk
  have hfresh := (h.owned node t ho).2
  refine ⟨{ g with owner := Function.update g.owner node none },
    ⟨h.tree, h.ordered, fun n hn => ?_, fun n u hn => ?_, h.returned⟩, ⟨hpath, hchild⟩, fun _ hx =>
    hx, fun _ _ hn => hn, fun _ _ => rfl, fun _ _ _ hc => hc, fun n u hu hn => ?_⟩
  · have hnn : n ≠ node := fun he => hfresh (he ▸ hn)
    simpa [hnn] using h.live n hn
  · have hnn : n ≠ node := by
      rintro rfl
      simp at hn
    simpa [hnn] using h.owned n u (by simpa [hnn] using hn)
  · have hnn : n ≠ node := by
      rintro rfl
      rw [ho] at hn
      exact hu (Option.some.inj hn).symm
    simp [hnn, hn]

/-- Only a return has to be added to what was returned. -/
theorem Sound.snoc (h : Sound l g s)
    (ha : ∀ tag n, a = .returned tag n → g.tree.find compareTags tag = some n) :
    Sound (l ++ [(t, a)]) g s := by
  refine ⟨h.tree, h.ordered, h.live, h.owned, fun u tag n hr => ?_⟩
  rcases List.mem_append.mp hr with hr | hr
  · exact h.returned u tag n hr
  · obtain ⟨-, rfl⟩ := Prod.mk.inj (List.mem_singleton.mp hr)
    exact ha tag n rfl

theorem Kept.snoc (h : Kept l g s t s' loc') (ha : ∀ tag n, a ≠ .returned tag n) :
    Kept (l ++ [(t, a)]) g s t s' loc' := by
  obtain ⟨g', hs, hk, hg⟩ := h
  exact ⟨g', hs.snoc fun tag n he => absurd he (ha tag n), hk, hg⟩

/-- Every step keeps what holds. -/
theorem kept_step [DecidableEq τ] (h : Sound l g s) (hk : Knows g t s loc)
    (hs : TagStep s loc a s' loc') :
    Kept (l ++ [(t, a)]) g s t s' loc' := by
  cases hs with
  | call tag => exact Kept.snoc (kept_stay h h.tree.root_mem_path) (by simp)
  | differs hd => exact Kept.snoc (kept_stay h ⟨hk, hd⟩) (by simp)
  | equal he =>
    refine kept_stay (h.snoc fun tag n hr => ?_) trivial
    cases hr
    exact h.tree.find_of_mem_path hk he
  | child hc => exact Kept.snoc (kept_stay h (h.tree.child_mem_path hk.1 hk.2 hc)) (by simp)
  | noChild hc => exact Kept.snoc (kept_stay h hk) (by simp)
  | create node hlive => exact (kept_create h hk hlive).snoc (by simp)
  | exchanged hc => exact (kept_exchanged h hk hc).snoc (by simp)
  | lost hc => exact Kept.snoc (kept_stay h ⟨hk.1, hk.2.1, by simp [hc]⟩) (by simp)
  | release => exact (kept_release h hk).snoc (by simp)
  | reload hc => exact Kept.snoc (kept_stay h (h.tree.child_mem_path hk.1.1 hk.1.2 hc)) (by simp)

/-- Also when the run goes on after `l₀`, with the nodes of `tree₀` linked. -/
theorem keeps [DecidableEq τ] (l₀ : List (τ × TagEvent)) (tree₀ : SearchTree CacheTag ℕ) :
    Threads.Keeps (fun _ : τ => TagStep)
      (fun l g s => Sound (l₀ ++ l) g s ∧ ∀ x ∈ tree₀.toList, x ∈ g.tree.toList) Knows := by
  intro l g t s loc a s' loc' h hk hs
  obtain ⟨g', h', hk', hg⟩ := kept_step h.1 hk hs
  rw [List.append_assoc] at h'
  exact ⟨g', ⟨h', fun x hx => hg.tree x (h.2 x hx)⟩, hk', fun u hu q => hg.knows hu⟩

theorem sound_init :
    Sound ([] : List (τ × TagEvent)) ⟨.node .nil rootValue root .nil, fun _ => none⟩
      (init : Threads τ TagNodes TagLoc).shared where
  tree := Represents.node Represents.nil Represents.nil
  ordered := by simp [SearchTree.Ordered, SearchTree.toList]
  live := by simp [SearchTree.toList, init]
  owned := by simp
  returned := by simp

/-! ### In every reachable state -/

/-- There is one node for each tag. -/
structure Exact (l : List (τ × TagEvent)) (c : Threads τ TagNodes TagLoc)
    (tree : SearchTree CacheTag ℕ) : Prop where
  /-- The tree is what hangs at the root. -/
  linked : Represents c.shared.tag c.shared.child (some root) tree
  /-- It is a search tree. -/
  ordered : tree.Ordered compareTags
  /-- Its nodes are not released. -/
  live : ∀ x ∈ tree.toList, c.shared.live x.2 = true
  /-- A call has returned a linked node, which is its tag's. -/
  returned : ∀ t tag n, (t, TagEvent.returned tag n) ∈ l → (tag, n) ∈ tree.toList ∧
    c.shared.tag n = tag
  /-- Calls for one tag have returned one node. -/
  same : ∀ t u tag n m, (t, TagEvent.returned tag n) ∈ l → (u, TagEvent.returned tag m) ∈ l → n = m
  /-- A thread releases a node that is live and not linked, having lost its exchange to another. -/
  released : ∀ t n c', Threads.Step (fun _ => TagStep) c (t, .released n) c' →
    c.shared.live n = true ∧ (∀ x ∈ tree.toList, x.2 ≠ n) ∧
      ∃ tag parent side, c.loc t = .release tag parent side n ∧ c.shared.child parent side ≠ none
  /-- The child a thread goes on from after a lost exchange is there. -/
  reload : ∀ t tag parent side, c.loc t = .reload tag parent side →
    c.shared.child parent side ≠ none

theorem Sound.exact {c : Threads τ TagNodes TagLoc} (h : Sound l g c.shared)
    (hk : ∀ t, Knows g t c.shared (c.loc t)) : Exact l c g.tree := by
  have hmem {t : τ} {tag : CacheTag} {n : ℕ} (hr : (t, TagEvent.returned tag n) ∈ l) :
      (tag, n) ∈ g.tree.toList :=
    (h.ordered.mem_toList_iff tag n).mpr (h.returned t tag n hr)
  refine ⟨h.tree, h.ordered, fun x hx => h.live _ (List.mem_map_of_mem hx), fun t tag n hr => ?_,
    fun t u tag n m hn hm => ?_, fun t n c' hs => ?_, fun t tag parent side hloc => ?_⟩
  · exact ⟨hmem hr, (h.tree.key_eq (hmem hr)).symm⟩
  · have hfind := h.returned t tag n hn
    rw [h.returned u tag m hm] at hfind
    exact (Option.some.inj hfind).symm
  · have hkt := hk t
    obtain ⟨hown, -⟩ := hs
    generalize hloc : c.loc t = loc at hkt hown
    generalize c'.loc t = loc' at hown
    generalize c'.shared = s' at hown
    cases hown with
    | @release tag parent _ side =>
      obtain ⟨-, ho, hchild⟩ := hkt
      obtain ⟨hlive, hout⟩ := h.owned n t ho
      exact ⟨hlive, fun x hx he => hout (he ▸ List.mem_map_of_mem hx), tag, parent,
        side, rfl, hchild⟩
  · have hkt := hk t
    rw [hloc] at hkt
    exact hkt.2

/-! ### Calls return -/

/-- A step of a thread that is in the function. -/
def Alone (t : τ) (c : Threads τ TagNodes TagLoc) (a : τ × TagEvent)
    (c' : Threads τ TagNodes TagLoc) : Prop :=
  c.loc t ≠ .idle ∧ a.1 = t ∧ Threads.Step (fun _ => TagStep) c a c'

/-- A call for a tag returns, when the thread goes on while the others do not. -/
structure Returns (t : τ) (tag : CacheTag) (c : Threads τ TagNodes TagLoc) : Prop where
  /-- It does not go on for ever. -/
  ends : Acc (fun c' c => ∃ a, Alone t c a c') c
  /-- It goes on until it has returned a node. -/
  returns : ∀ l c', Run (Alone t) c l c' →
    (∃ a c'', Alone t c' a c'') ∨ ∃ l' n, l = l' ++ [(t, .returned tag n)] ∧ c'.loc t = .idle

/-- How many steps a thread has left at most: what hangs at the node it has come to is searched,
unless the node is the tag's. -/
inductive Remains (s : TagNodes) : TagLoc → ℕ → Prop where
  /-- Nothing. -/
  | idle : Remains s .idle 0
  /-- The node is the tag's. -/
  | found {tag : CacheTag} {parent : ℕ} : compareTags tag (s.tag parent) = .eq →
      Remains s (.compare tag parent) 1
  /-- It may be another one's. -/
  | compare {tag : CacheTag} {parent : ℕ} {t : SearchTree CacheTag ℕ} :
      Represents s.tag s.child (some parent) t → Remains s (.compare tag parent) (6 * t.size + 1)
  /-- It is. -/
  | load {tag : CacheTag} {parent : ℕ} {side : Side} {t : SearchTree CacheTag ℕ} :
      Represents s.tag s.child (some parent) t → Remains s (.load tag parent side) (6 * t.size)
  /-- Nothing hung there. -/
  | create {tag : CacheTag} {parent : ℕ} {side : Side} {t : SearchTree CacheTag ℕ} :
      Represents s.tag s.child (some parent) t →
      Remains s (.create tag parent side) (6 * t.size - 1)
  /-- The new node is made. -/
  | exchange {tag : CacheTag} {parent node : ℕ} {side : Side} {t : SearchTree CacheTag ℕ} :
      Represents s.tag s.child (some parent) t →
      Remains s (.exchange tag parent side node) (6 * t.size - 2)
  /-- Another one was linked. -/
  | release {tag : CacheTag} {parent node : ℕ} {side : Side} {t : SearchTree CacheTag ℕ} :
      Represents s.tag s.child (some parent) t →
      Remains s (.release tag parent side node) (6 * t.size - 3)
  /-- It is searched. -/
  | reload {tag : CacheTag} {parent : ℕ} {side : Side} {t : SearchTree CacheTag ℕ} :
      Represents s.tag s.child (some parent) t →
      Remains s (.reload tag parent side) (6 * t.size - 4)

/-- What holds in every state that is reached. -/
def Proper (c : Threads τ TagNodes TagLoc) : Prop :=
  ∃ (l : List (τ × TagEvent)) (g : Linking τ), Sound l g c.shared ∧
    ∀ t, Knows g t c.shared (c.loc t)

section Progress

variable {c c' : Threads τ TagNodes TagLoc} {n : ℕ}

theorem Proper.step [DecidableEq τ] {x : τ × TagEvent} (h : Proper c)
    (hs : Threads.Step (fun _ => TagStep) c x c') :
    Proper c' := by
  obtain ⟨l, g, hsound, hk⟩ := h
  obtain ⟨g', hsound', hown, hgrows⟩ := kept_step hsound (hk x.1) hs.own
  refine ⟨_, g', hsound', fun u => ?_⟩
  by_cases hu : u = x.1
  · rw [hu]
    exact hown
  · rw [hs.others u hu]
    exact hgrows.knows hu (hk u)

theorem size_pos {t : SearchTree CacheTag ℕ} (h : Represents s.tag s.child (some parent) t) :
    0 < t.size := by
  cases h
  exact Nat.succ_pos _

/-- There is an end to what a thread has left. -/
theorem exists_remains (h : Sound l g s) (hk : Knows g t s loc) : ∃ n, Remains s loc n := by
  have hpart {tag : CacheTag} {parent : ℕ} (hp : parent ∈ g.tree.path compareTags tag) :
      ∃ t, Represents s.tag s.child (some parent) t :=
    (h.tree.exists_part (mem_values_of_mem_path hp)).imp fun t ht => ht.1
  cases loc with
  | idle => exact ⟨_, .idle⟩
  | compare tag parent => exact (hpart hk).elim fun t ht => ⟨_, .compare ht⟩
  | load tag parent side => exact (hpart hk.1).elim fun t ht => ⟨_, .load ht⟩
  | create tag parent side => exact (hpart hk.1).elim fun t ht => ⟨_, .create ht⟩
  | exchange tag parent side node => exact (hpart hk.1.1).elim fun t ht => ⟨_, .exchange ht⟩
  | release tag parent side node => exact (hpart hk.1.1).elim fun t ht => ⟨_, .release ht⟩
  | reload tag parent side => exact (hpart hk.1.1).elim fun t ht => ⟨_, .reload ht⟩

/-- A node that is made is not part of what hangs at a linked one. -/
theorem represents_create (h : Sound l g s) (hp : parent ∈ g.tree.path compareTags tag)
    (hlive : s.live node = false) {t : SearchTree CacheTag ℕ}
    (ht : Represents s.tag s.child (some parent) t) (tag' : CacheTag)
    (f : Side → Option ℕ) :
    Represents (Function.update s.tag node tag') (Function.update s.child node f)
      (some parent) t := by
  obtain ⟨t', ht', hpart⟩ := h.tree.exists_part (mem_values_of_mem_path hp)
  obtain rfl := ht'.unique ht
  refine ht.congr fun m hm => ?_
  have hne : m ≠ node := by
    rintro rfl
    rw [h.live m (hpart m hm)] at hlive
    cases hlive
  rw [Function.update_of_ne hne, Function.update_of_ne hne]
  exact ⟨rfl, rfl⟩

/-- With every step it has less left. -/
theorem Remains.step (hr : Remains s loc n) (h : Sound l g s) (hk : Knows g t s loc)
    (hne : loc ≠ .idle) (hs : TagStep s loc a s' loc') : ∃ n' < n, Remains s' loc' n' := by
  cases hs with
  | call tag => exact absurd rfl hne
  | @differs tag parent side hd =>
    cases hr with
    | found he =>
      rw [hd] at he
      cases side <;> cases he
    | compare ht => exact ⟨_, Nat.lt_succ_self _, .load ht⟩
  | equal he =>
    cases hr with
    | found _ => exact ⟨0, Nat.one_pos, .idle⟩
    | compare _ => exact ⟨0, Nat.succ_pos _, .idle⟩
  | child hc =>
    cases hr with
    | load ht =>
      obtain ⟨t', ht', hlt⟩ := ht.exists_smaller hc
      exact ⟨_, by omega, .compare ht'⟩
  | noChild hc =>
    cases hr with
    | load ht =>
      have hpos := size_pos ht
      exact ⟨_, by omega, .create ht⟩
  | create node hlive =>
    cases hr with
    | create ht =>
      have hpos := size_pos ht
      exact ⟨_, by omega, .exchange (represents_create h hk.1 hlive ht _ _)⟩
  | exchanged hc =>
    cases hr with
    | exchange ht =>
      -- the node that it has linked is its tag's
      have hpos := size_pos ht
      refine ⟨1, by omega, .found ?_⟩
      obtain ⟨-, -, htag, -⟩ := hk
      rw [htag]
      exact Std.ReflCmp.compare_self
  | lost hc =>
    cases hr with
    | exchange ht =>
      have hpos := size_pos ht
      exact ⟨_, by omega, .release ht⟩
  | release =>
    cases hr with
    | release ht =>
      have hpos := size_pos ht
      exact ⟨_, by omega, .reload ht⟩
  | reload hc =>
    cases hr with
    | reload ht =>
      obtain ⟨t', ht', hlt⟩ := ht.exists_smaller hc
      exact ⟨_, by omega, .compare ht'⟩

/-- A thread does not go on alone for ever. -/
theorem Proper.acc [DecidableEq τ] (h : Proper c) (t : τ) :
    Acc (fun c' c => ∃ x, Alone t c x c') c := by
  obtain ⟨n, hn⟩ : ∃ n, Remains c.shared (c.loc t) n := by
    obtain ⟨l, g, hsound, hk⟩ := h
    exact exists_remains hsound (hk t)
  induction n using Nat.strong_induction_on generalizing c with
  | _ n ih =>
    refine ⟨_, fun c' hc' => ?_⟩
    obtain ⟨⟨u, a⟩, hne, rfl, hs⟩ := hc'
    obtain ⟨l, g, hsound, hk⟩ := id h
    obtain ⟨n', hlt, hn'⟩ := hn.step hsound (hk u) hne hs.own
    exact ih n' hlt (h.step hs) hn'

/-- A thread in the function can take a step, when not every block is live. -/
theorem Proper.exists_step [DecidableEq τ] (h : Proper c)
    (hfin : {n | c.shared.live n = true}.Finite) (hne : c.loc t ≠ .idle) :
    ∃ x c', Alone t c x c' := by
  obtain ⟨l, g, -, hk⟩ := h
  have hkt := hk t
  suffices hs : ∃ a s' loc', TagStep c.shared (c.loc t) a s' loc' by
    obtain ⟨a, s', loc', hs⟩ := hs
    exact ⟨_, _, hne, rfl, Threads.step_at t rfl hs⟩
  generalize c.loc t = loc at hne hkt
  cases loc with
  | idle => exact absurd rfl hne
  | compare tag parent =>
    cases hc : compareTags tag (c.shared.tag parent) with
    | lt => exact ⟨_, _, _, @TagStep.differs _ _ _ .left hc⟩
    | gt => exact ⟨_, _, _, @TagStep.differs _ _ _ .right hc⟩
    | eq => exact ⟨_, _, _, TagStep.equal hc⟩
  | load tag parent side =>
    cases hc : c.shared.child parent side with
    | none => exact ⟨_, _, _, TagStep.noChild hc⟩
    | some node => exact ⟨_, _, _, TagStep.child hc⟩
  | create tag parent side =>
    obtain ⟨node, hnode⟩ := hfin.exists_notMem
    exact ⟨_, _, _, TagStep.create node (by simpa using hnode)⟩
  | exchange tag parent side node =>
    cases hc : c.shared.child parent side with
    | none => exact ⟨_, _, _, TagStep.exchanged hc⟩
    | some other => exact ⟨_, _, _, TagStep.lost hc⟩
  | release tag parent side node => exact ⟨_, _, _, TagStep.release⟩
  | reload tag parent side =>
    obtain ⟨node, hc⟩ := Option.ne_none_iff_exists'.mp hkt.2
    exact ⟨_, _, _, TagStep.reload hc⟩

/-- A thread is called for the tag until it returns. -/
theorem tag_of_step (hs : TagStep s loc a s' loc') (htag : loc.tag = some tag) :
    loc'.tag = some tag ∨ ∃ n, a = .returned tag n ∧ loc' = .idle := by
  cases hs with
  | call _ => cases htag
  | equal _ =>
    cases htag
    exact Or.inr ⟨_, rfl, rfl⟩
  | _ => exact Or.inl htag

/-- A step makes one node live at most. -/
theorem live_of_step (hs : TagStep s loc a s' loc') : ∃ n, ∀ m, s'.live m = true → m = n ∨
    s.live m = true := by
  cases hs with
  | create node _ =>
    refine ⟨node, fun m hm => ?_⟩
    by_cases hmn : m = node
    · exact Or.inl hmn
    · dsimp only at hm
      rw [Function.update_of_ne hmn] at hm
      exact Or.inr hm
  | @release _ _ node _ =>
    refine ⟨node, fun m hm => ?_⟩
    by_cases hmn : m = node
    · exact Or.inl hmn
    · dsimp only at hm
      rw [Function.update_of_ne hmn] at hm
      exact Or.inr hm
  | _ => exact ⟨0, fun m hm => Or.inr hm⟩

theorem finite_step {x : τ × TagEvent} (h : {n | c.shared.live n = true}.Finite)
    (hs : Threads.Step (fun _ => TagStep) c x c') : {n | c'.shared.live n = true}.Finite := by
  obtain ⟨n, hn⟩ := live_of_step hs.own
  exact (h.insert n).subset fun m hm => hn m hm

/-- A call goes on until it returns. -/
theorem Proper.returns [DecidableEq τ] (h : Proper c) (hfin : {n | c.shared.live n = true}.Finite)
    (htag : (c.loc t).tag = some tag) : Returns t tag c := by
  refine ⟨h.acc t, fun l c' hrun => ?_⟩
  have hall : Proper c' ∧ {n | c'.shared.live n = true}.Finite ∧
      ((c'.loc t).tag = some tag ∨ ∃ l' n, l = l' ++ [(t, .returned tag n)] ∧
        c'.loc t = .idle) := by
    refine hrun.history_invariant (I := fun l c' => Proper c' ∧
      {n | c'.shared.live n = true}.Finite ∧
      ((c'.loc t).tag = some tag ∨ ∃ l' n, l = l' ++ [(t, .returned tag n)] ∧ c'.loc t = .idle))
      (fun l c x c' hc hs => ?_) ⟨h, hfin, Or.inl htag⟩
    obtain ⟨hproper, hfinite, hcall⟩ := hc
    obtain ⟨hne, rfl, hs⟩ := hs
    refine ⟨hproper.step hs, finite_step hfinite hs, ?_⟩
    rcases hcall with hcall | ⟨-, -, -, hidle⟩
    · refine (tag_of_step hs.own hcall).imp id ?_
      rintro ⟨n, ha, hidle⟩
      exact ⟨l, n, by rw [← ha], hidle⟩
    · exact absurd hidle hne
  obtain ⟨hproper, hfinite, hcall | hreturned⟩ := hall
  · refine Or.inl (hproper.exists_step hfinite fun hidle => ?_)
    rw [hidle] at hcall
    cases hcall
  · exact Or.inr hreturned

end Progress

/-- However the calls of `get_or_create_node` interleave, there is one node for each tag, and
what is linked stays so. A call that goes on returns a node, however far it has come. -/
theorem one_node_per_tag [DecidableEq τ] {c : Threads τ TagNodes TagLoc}
    (h : Run (Threads.Step fun _ : τ => TagStep) init l c) :
    (∃ tree, Exact l c tree ∧ ∀ l' c', Run (Threads.Step fun _ => TagStep) c l' c' →
      ∃ tree', Exact (l ++ l') c' tree' ∧ ∀ x ∈ tree.toList, x ∈ tree'.toList) ∧
    ∀ t tag, (c.loc t).tag = some tag → Returns t tag c := by
  obtain ⟨g, ⟨hs, -⟩, hk⟩ := Threads.invariant (keeps [] .nil) h
    ⟨_, ⟨sound_init, fun x hx => absurd hx (by simp [SearchTree.toList])⟩, fun t => trivial⟩
  constructor
  · refine ⟨g.tree, hs.exact hk, fun l' c' h' => ?_⟩
    obtain ⟨g', ⟨hs', htree⟩, hk'⟩ := Threads.invariant (keeps l g.tree) h'
      ⟨g, ⟨by simpa using hs, fun _ hx => hx⟩, hk⟩
    exact ⟨g'.tree, hs'.exact hk', htree⟩
  · have hfin : {n | c.shared.live n = true}.Finite := by
      refine h.invariant (I := fun c => {n | c.shared.live n = true}.Finite)
        (fun _ _ _ hc hs => finite_step hc hs) ?_
      refine (Set.finite_singleton root).subset fun n hn => ?_
      simpa [init] using hn
    exact fun t tag htag => Proper.returns ⟨_, g, hs, hk⟩ hfin htag

/-- Two threads are called for one tag and make a node each; one of them is first. -/
theorem leads_lost :
    Threads.Leads (Threads.Step fun _ => TagStep)
      (fun _ c => c.loc false = .release [1] root .left 2 ∧
        Threads.Leads (Threads.Step fun _ => TagStep) (fun l' _ => (false, .released 2) ∈ l' ∧
          (false, .returned [1] 1) ∈ l' ∧ (true, .returned [1] 1) ∈ l') c)
      (init : Threads Bool TagNodes TagLoc) := by
  have hleft : compareTags [1] rootValue = Side.left.ordering := by decide
  have hequal : compareTags [1] [1] = .eq := by decide
  refine .next true rfl (.call [1]) ?_
  refine .next true rfl (.differs hleft) ?_
  refine .next true rfl (.noChild rfl) ?_
  refine .next true rfl (.create 1 rfl) ?_
  refine .next false rfl (.call [1]) ?_
  refine .next false rfl (.differs hleft) ?_
  refine .next false rfl (.noChild rfl) ?_
  refine .next false rfl (.create 2 rfl) ?_
  refine .next true rfl (.exchanged rfl) ?_
  refine .next false rfl (.lost rfl) ?_
  refine .done ⟨rfl, ?_⟩
  refine .next false rfl .release ?_
  refine .next false rfl (.reload rfl) ?_
  refine .next false rfl (.equal hequal) ?_
  refine .next true rfl (.equal hequal) ?_
  refine .done ⟨?_, ?_, ?_⟩ <;> simp

/-- A thread whose exchange was lost returns, and returns the node that the other has linked. -/
theorem one_node_per_tag_lost :
    ∃ (l l' : List (Bool × TagEvent)) (c c' : Threads Bool TagNodes TagLoc) (tree : _),
    c.loc false = .release [1] root .left 2 ∧ Returns false [1] c ∧ Exact (l ++ l') c' tree ∧
      (false, .released 2) ∈ l' ∧ (false, .returned [1] 1) ∈ l' ∧ (true, .returned [1] 1) ∈ l' ∧
      ([1], 1) ∈ tree.toList := by
  obtain ⟨l, c, hrun, hloc, l', c', hrun', hreleased, hfalse, htrue⟩ := leads_lost
  obtain ⟨⟨tree, -, hall⟩, hreturns⟩ := one_node_per_tag hrun
  obtain ⟨tree', he, -⟩ := hall l' c' hrun'
  refine ⟨l, l', c, c', tree', hloc, hreturns false [1] (by rw [hloc]; rfl), he, hreleased,
    hfalse, htrue, ?_⟩
  exact (he.returned false [1] 1 (List.mem_append_right l hfalse)).1

end TagNodes

end Cik

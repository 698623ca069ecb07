import Cik.Source.TagWalk
import Cik.Theory.TagMap
import Mathlib.Data.Finset.Lattice.Fold
import Mathlib.Order.Lattice.Nat

/-!
# The walk over the tags

Whatever the shape of the tree, the walk ends, has called the callback once for each node
that has keys, in the order of the tags, and has left memory as it was
(`walkAllTags_ordered`). While it runs, the elements on the stack are what it has reserved
and not released (`Walking`), and the trees that hang at their nodes are those that the
walk over a tree has on its stack (`SearchTree.descend`); so what is still to be visited
is what is pending there.
-/

namespace Cik

namespace TagWalk

open LinkedList (Cell Segment Chain segment_cons segment_nil)
open SearchTree (pending pending_descend)

variable {m m₀ m' : Memory} {stack : Option ℕ} {elems : List (ℕ × ℕ)} {a n : ℕ}

/-! ### Memory -/

namespace Memory

/-- `tag` of the node at an address. -/
def tag (m : Memory) (a : ℕ) : CacheTag := ((m.node a).map Node.tag).getD []

/-- `keys` of it. -/
def keys (m : Memory) (a : ℕ) : Option ℕ := (m.node a).bind Node.keys

end Memory

/-- The tree of nodes that hangs at a pointer. -/
inductive Hangs (m : Memory) : Option ℕ → SearchTree CacheTag ℕ → Prop where
  /-- Nothing. -/
  | nil : Hangs m none .nil
  /-- A node, with what hangs at its children. -/
  | node {a : ℕ} {node : Node} {l r : SearchTree CacheTag ℕ} : m.node a = some node →
      Hangs m node.left l → Hangs m node.right r → Hangs m (some a) (.node l node.tag a r)

/-- At an address hangs its node. -/
theorem Hangs.some {t : SearchTree CacheTag ℕ} (h : Hangs m (some a) t) :
    ∃ l node r, t = .node l node.tag a r ∧ m.node a = Option.some node ∧ Hangs m node.right r := by
  cases h with
  | @node _ node l r hnode _ hright => exact ⟨l, node, r, rfl, hnode, hright⟩

/-- A node has the tag that it has in the tree. -/
theorem Hangs.tag_eq {p : Option ℕ} {t : SearchTree CacheTag ℕ} (h : Hangs m p t) {x : CacheTag × ℕ}
    (hx : x ∈ t.toList) :
    x.1 = m.tag x.2 := by
  induction h with
  | nil => cases hx
  | node hnode _ _ ihl ihr =>
    rw [SearchTree.toList, List.mem_append, List.mem_cons] at hx
    rcases hx with hx | rfl | hx
    · exact ihl hx
    · rw [Memory.tag, hnode]
      rfl
    · exact ihr hx

/-! ### The stack -/

/-- Since the walk began in `m₀`, it has changed memory by the elements on its stack only. -/
structure Walking (m₀ m : Memory) (stack : Option ℕ) (elems : List (ℕ × ℕ)) : Prop where
  /-- The stack is a list of elements. -/
  chain : Chain m.elem stack elems
  /-- What they lie on was not in use. -/
  fresh : ∀ a ∈ elems.map Prod.fst, m₀.cells a = none
  /-- The rest is as it was. -/
  same : ∀ a ∉ elems.map Prod.fst, m.cells a = m₀.cells a
  /-- They are what was reserved and not released. -/
  calls : ∃ new, m.calls = new ++ m₀.calls ∧
    ∀ a, new.count (.reserve a) = new.count (.release a) + (elems.map Prod.fst).count a

/-- The stack is empty. -/
theorem Walking.null (h : Walking m₀ m none elems) : elems = [] := by
  cases elems with
  | nil => rfl
  | cons x elems => cases h.chain.1

theorem Walking.begin (m : Memory) : Walking m m none [] where
  chain := rfl
  fresh := fun _ h => absurd h List.not_mem_nil
  same := fun _ _ => rfl
  calls := ⟨[], rfl, fun _ => rfl⟩

/-- The nodes are where they were. -/
theorem Walking.node {node : Node} (h : Walking m₀ m stack elems) (hn : m₀.node a = some node) :
    m.node a = some node := by
  have hused : a ∉ elems.map Prod.fst := by
    intro ha
    rw [Memory.node, h.fresh a ha] at hn
    cases hn
  rw [Memory.node, h.same a hused]
  exact hn

theorem Memory.elem_congr (h : m'.cells a = m.cells a) :
    m'.elem a = m.elem a := by rw [elem, elem, h]

theorem Memory.cells_of_elem {e : TagElem} (h : m.elem a = some e) : m.cells a ≠ none := by
  intro hn
  rw [elem, hn] at h
  cases h

/-- A block that is reserved is none of those in use. -/
theorem Memory.cells_reserve (A : Allocator) (m : Memory) : m.cells (m.reserve A).1 = none := by
  have hfresh := A.fresh m.calls m.live
  rw [m.mem_live, Option.not_isSome_iff_eq_none] at hfresh
  exact hfresh

/-- An element that was written to a block just reserved. -/
theorem Memory.setElem_reserve (A : Allocator) (m : Memory) (e : TagElem) :
    ∃ m', (m.reserve A).2.setElem (m.reserve A).1 e = some m' ∧
      m'.cells = Function.update m.cells (m.reserve A).1 (some (.elem e)) ∧
      m'.calls = .reserve (m.reserve A).1 :: m.calls :=
  ⟨_, dif_pos (Finset.mem_insert_self _ _), Function.update_idem .., rfl⟩

/-- A block in use can be released. -/
theorem Memory.release_of_cells (h : m.cells a ≠ none) :
    ∃ m', m.release a = some m' ∧ m'.cells = Function.update m.cells a none ∧
      m'.calls = .release a :: m.calls :=
  ⟨_, if_pos ((m.mem_live a).mpr (Option.isSome_iff_ne_none.mpr h)), rfl, rfl⟩

/-- An element is put on the stack. -/
theorem Walking.push (A : Allocator) (h : Walking m₀ m stack elems) (n : ℕ) :
    ∃ m', (m.reserve A).2.setElem (m.reserve A).1 ⟨n, stack⟩ = some m' ∧
      Walking m₀ m' (some (m.reserve A).1) (((m.reserve A).1, n) :: elems) := by
  obtain ⟨m', hm', hcells, hcalls⟩ := m.setElem_reserve A ⟨n, stack⟩
  have hnone := m.cells_reserve A
  generalize (m.reserve A).1 = tmp at hcells hcalls hnone hm' ⊢
  have hnew : tmp ∉ elems.map Prod.fst := by
    intro ht
    obtain ⟨e, he⟩ := h.chain.exists_cell ht
    exact Memory.cells_of_elem he hnone
  have hother (b : ℕ) (hb : b ≠ tmp) :
    m'.cells b = m.cells b := by rw [hcells, Function.update_of_ne hb]
  have helem : m'.elem tmp = some ⟨n, stack⟩ := by rw [Memory.elem, hcells, Function.update_self]
  refine ⟨m', hm', ⟨rfl, stack, helem, h.chain.congr fun b hb => ?_⟩, ?_, ?_, ?_⟩
  · exact Memory.elem_congr (hother b (ne_of_mem_of_not_mem hb hnew))
  · intro b hb
    rcases List.mem_cons.mp hb with rfl | hb
    · rw [← h.same b hnew, hnone]
    · exact h.fresh b hb
  · intro b hb
    rw [List.map_cons, List.mem_cons, not_or] at hb
    rw [hother b hb.1, h.same b hb.2]
  · obtain ⟨new, hnew, hcount⟩ := h.calls
    refine ⟨.reserve tmp :: new, by rw [hcalls, hnew, List.cons_append], fun b => ?_⟩
    rw [List.map_cons, List.count_cons, List.count_cons, List.count_cons, hcount]
    simp [Nat.add_assoc]

/-- An element is taken off it. -/
theorem Walking.pop (h : Walking m₀ m (some a) ((a, n) :: elems)) :
    ∃ next m', m.elem a = some ⟨n, next⟩ ∧ m.release a = some m' ∧ Walking m₀ m' next elems := by
  obtain ⟨-, next, helem, hrest⟩ := h.chain
  obtain ⟨m', hm', hcells, hcalls⟩ := Memory.release_of_cells (Memory.cells_of_elem helem)
  have hnodup := h.chain.nodup
  rw [List.map_cons, List.nodup_cons] at hnodup
  have hother (b : ℕ) (hb : b ≠ a) :
    m'.cells b = m.cells b := by rw [hcells, Function.update_of_ne hb]
  refine ⟨next, m', helem, hm', hrest.congr fun b hb => ?_, ?_, ?_, ?_⟩
  · exact Memory.elem_congr (hother b (ne_of_mem_of_not_mem hb hnodup.1))
  · exact fun b hb => h.fresh b (List.mem_cons_of_mem _ hb)
  · intro b hb
    by_cases hba : b = a
    · rw [hba, hcells, Function.update_self, h.fresh a List.mem_cons_self]
    · rw [hother b hba]
      exact h.same b (List.not_mem_cons_of_ne_of_not_mem hba hb)
  · obtain ⟨new, hnew, hcount⟩ := h.calls
    refine ⟨.release a :: new, by rw [hcalls, hnew, List.cons_append], fun b => ?_⟩
    have hb := hcount b
    rw [List.map_cons, List.count_cons] at hb
    rw [List.count_cons, List.count_cons, hb]
    simp only [beq_iff_eq, Call.release.injEq, reduceCtorEq, if_false]
    omega

/-! ### The loops -/

/-- The nodes on the stack, with the trees that hang there. -/
def OnStack (m : Memory) : List (ℕ × ℕ) → List (SearchTree CacheTag ℕ) → Prop :=
  List.Forall₂ fun x t => Hangs m (some x.2) t

variable {A : Allocator} {t : SearchTree CacheTag ℕ} {trees : List (SearchTree CacheTag ℕ)}
  {current : Option ℕ} {fuel : ℕ}

/-- The way down to the left puts on the stack what it does over a tree. -/
theorem descend_spec (h : Walking m₀ m stack elems) (ht : Hangs m₀ current t)
    (hs : OnStack m₀ elems trees) (hfuel : t.size ≤ fuel) :
    ∃ m' stack' elems', descend A fuel m current stack = some (m', stack') ∧
      Walking m₀ m' stack' elems' ∧ OnStack m₀ elems' (t.descend trees) := by
  induction ht generalizing m stack elems trees fuel with
  | nil => exact ⟨m, stack, elems, by rw [descend], h, hs⟩
  | @node v node l r hnode hleft hright ih _ =>
    have ht := Hangs.node hnode hleft hright
    obtain ⟨fuel, rfl⟩ :=
      Nat.exists_eq_succ_of_ne_zero (Nat.ne_of_gt (Nat.lt_of_lt_of_le (Nat.zero_lt_succ _) hfuel))
    obtain ⟨m₁, hm₁, hw⟩ := h.push A v
    have hsize : l.size ≤ fuel := by
      rw [SearchTree.size] at hfuel
      omega
    obtain ⟨m', stack', elems', hd, hw', hs'⟩ := ih hw (.cons ht hs) hsize
    refine ⟨m', stack', elems', ?_, hw', hs'⟩
    rw [descend]
    simp only [hm₁, hw.node hnode, Option.bind_eq_bind, Option.bind_some, hd]

/-- What a node does to the data. -/
def visit {σ : Type} (m : Memory) (callback : CacheTag → σ → σ) (a : ℕ) (user_data : σ) : σ :=
  if m.keys a = none then user_data else callback (m.tag a) user_data

variable {σ : Type} {callback : CacheTag → σ → σ} {user_data : σ}

/-- A round of the loop. -/
theorem walkLoop_succ (h : current ≠ none ∨ stack ≠ none) :
    walkLoop A callback (fuel + 1) m current stack user_data = (do
      let (m, stack) ← descend A fuel m current stack
      let tmp ← stack
      let elem ← m.elem tmp
      let m ← m.release tmp
      let node ← m.node elem.val
      let user_data := if node.keys = none then user_data else callback node.tag user_data
      walkLoop A callback fuel m node.right elem.next user_data) := by
  cases current with
  | some current => rw [walkLoop]; exact fun h => absurd h (by simp)
  | none =>
    cases stack with
    | some stack => rw [walkLoop]; simp
    | none => exact absurd h (by simp)

/-- The loop visits the nodes that are pending. -/
theorem walkLoop_spec (h : Walking m₀ m stack elems) (ht : Hangs m₀ current t)
    (hs : OnStack m₀ elems trees) (hfuel : (t.toList ++ pending trees).length < fuel) :
    ∃ m', walkLoop A callback fuel m current stack user_data =
      some ((t.toList ++ pending trees).foldl (fun data x => visit m₀ callback x.2 data) user_data,
        m') ∧ Walking m₀ m' none [] := by
  induction fuel generalizing m stack elems t trees current user_data with
  | zero => exact absurd hfuel (Nat.not_lt_zero _)
  | succ fuel ih =>
    have hsize : t.size ≤ fuel := by
      rw [List.length_append, SearchTree.length_toList] at hfuel
      omega
    by_cases hend : current = none ∧ stack = none
    · -- nothing is pending
      obtain ⟨rfl, rfl⟩ := hend
      obtain rfl := h.null
      cases ht
      cases hs
      exact ⟨m, rfl, h⟩
    obtain ⟨m₁, stack₁, elems₁, hd, hw, hs₁⟩ := @descend_spec _ _ _ _ A _ _ _ _ h ht hs hsize
    rw [← pending_descend] at hfuel ⊢
    rw [walkLoop_succ (not_and_or.mp hend), hd]
    generalize hd' : t.descend trees = trees₁ at hs₁ hfuel ⊢
    cases hs₁ with
    | nil =>
      -- there was a node, or an element
      obtain ⟨rfl, rfl⟩ := SearchTree.descend_eq_nil hd'
      cases ht
      cases hs
      exact absurd ⟨rfl, h.chain⟩ hend
    | @cons x t₁ elems₂ trees₂ hx hs₂ =>
      obtain ⟨a, n⟩ := x
      obtain ⟨l, node, r, rfl, hnode, hright⟩ := hx.some
      obtain rfl : stack₁ = some a := hw.chain.1
      obtain ⟨next, m₂, helem, hrelease, hw₂⟩ := hw.pop
      have hvisit : (if node.keys = none then user_data else callback node.tag user_data) =
          visit m₀ callback n user_data := by
        rw [visit, Memory.keys, Memory.tag, hnode]
        rfl
      rw [pending, List.length_cons] at hfuel
      obtain ⟨m', hm', hw'⟩ :=
        @ih m₂ next elems₂ r trees₂ node.right (visit m₀ callback n user_data)
        hw₂ hright hs₂ (by omega)
      refine ⟨m', ?_, hw'⟩
      simp only [Option.bind_eq_bind, Option.bind_some, helem, hrelease, hw₂.node hnode, hvisit]
      exact hm'

/-! ### The walk -/

/-- The nodes of a tree that have keys, from left to right. -/
def withKeys (m : Memory) (t : SearchTree CacheTag ℕ) : List ℕ :=
  (t.toList.map Prod.snd).filter fun a => m.keys a ≠ none

theorem mem_withKeys : a ∈ withKeys m t ↔ a ∈ t.toList.map Prod.snd ∧ m.keys a ≠ none := by
  rw [withKeys, List.mem_filter, decide_eq_true_iff]

/-- Their tags are increasing. -/
theorem Hangs.pairwise {p : Option ℕ} (h : Hangs m p t) (ht : t.Ordered compareTags) :
    ((withKeys m t).map m.tag).Pairwise fun a b => compareTags a b = .lt := by
  have htags : t.toList.map Prod.fst = (t.toList.map Prod.snd).map m.tag := by
    rw [List.map_map]
    exact List.map_congr_left fun x hx => h.tag_eq hx
  have hall := ht.pairwise
  rw [htags] at hall
  exact hall.sublist (List.filter_sublist.map m.tag)

/-- Visiting the nodes is calling back for those that have keys. -/
theorem foldl_visit (l : List (CacheTag × ℕ)) :
    l.foldl (fun data x => visit m callback x.2 data) user_data =
      (((l.map Prod.snd).filter fun a => m.keys a ≠ none).map m.tag).foldl
        (fun data tag => callback tag data) user_data := by
  induction l generalizing user_data with
  | nil => rfl
  | cons x l ih =>
    rw [List.foldl_cons, ih, List.map_cons]
    by_cases hk : m.keys x.2 = none
    · rw [List.filter_cons_of_neg (by simpa using hk), visit, if_pos hk]
    · rw [List.filter_cons_of_pos (by simpa using hk), visit, if_neg hk, List.map_cons,
        List.foldl_cons]

/-- The walk visits the nodes of the tree from left to right, and leaves memory as it was. -/
theorem walkAllTags_visits {root : ℕ} (h : Hangs m (some root) t) (hfuel : t.size < fuel) :
    ∃ m' new, walkAllTags A callback fuel m root user_data =
        some (t.toList.foldl (fun data x => visit m callback x.2 data) user_data, m') ∧
      m'.cells = m.cells ∧ m'.calls = new ++ m.calls ∧
      ∀ a, new.count (.reserve a) = new.count (.release a) := by
  have hall : t.toList ++ pending [] = t.toList := List.append_nil _
  obtain ⟨m', hm', hw⟩ :=
    @walkLoop_spec m m none [] A t [] (some root) fuel σ callback user_data (Walking.begin m) h .nil
    (by rw [hall, SearchTree.length_toList]; exact hfuel)
  obtain ⟨new, hnew, hcount⟩ := hw.calls
  rw [hall] at hm'
  exact ⟨m', new, hm', funext fun a => hw.same a List.not_mem_nil, hnew, hcount⟩

/-- **The walk over the tags.** Whatever the shape of the search tree, the walk ends. The callback
was called just once for each node that has keys, and for no other, in strictly increasing order of
the tags. All elements of the stack that were reserved are released, and memory is as it was. -/
theorem walkAllTags_ordered (A : Allocator) (callback : CacheTag → σ → σ) (m : Memory) (root : ℕ)
    (t : SearchTree CacheTag ℕ) (user_data : σ) (h : Hangs m (some root) t)
    (ht : t.Ordered compareTags) :
    ∃ nodes : List ℕ, nodes.Nodup ∧ (∀ a, a ∈ nodes ↔ a ∈ t.toList.map Prod.snd ∧ m.keys a ≠ none) ∧
      (nodes.map m.tag).Pairwise (fun a b => compareTags a b = .lt) ∧
      ∀ fuel > t.size, ∃ m' new, walkAllTags A callback fuel m root user_data =
          some ((nodes.map m.tag).foldl (fun data tag => callback tag data) user_data, m') ∧
        m'.cells = m.cells ∧ m'.calls = new ++ m.calls ∧
        ∀ a, new.count (.reserve a) = new.count (.release a) := by
  have hpair := h.pairwise ht
  refine ⟨withKeys m t, ?_, fun a => mem_withKeys, hpair, fun fuel hfuel => ?_⟩
  · refine List.Nodup.of_map m.tag (hpair.imp fun {a b} hlt => ?_)
    intro heq
    have hself : compareTags b b = .eq := Std.ReflCmp.compare_self
    rw [heq, hself] at hlt
    cases hlt
  · obtain ⟨m', new, hm', hrest⟩ := @walkAllTags_visits m A t fuel σ callback user_data root h hfuel
    rw [foldl_visit] at hm'
    exact ⟨m', new, hm', hrest⟩

/-- What the nodes are in the tag index. -/
def Indexed (m : Memory) : List (CacheTag × TagNode) → List (CacheTag × ℕ) → Prop :=
  List.Forall₂ fun x y => x.1 = m.tag y.2 ∧ (x.2.keys = [] ↔ m.keys y.2 = none)

theorem foldl_indexed {l : List (CacheTag × TagNode)} {l' : List (CacheTag × ℕ)}
    (h : Indexed m l l') :
    l.foldl (fun data x => if x.2.keys ≠ [] then callback x.1 data else data) user_data =
      l'.foldl (fun data x => visit m callback x.2 data) user_data := by
  induction h generalizing user_data with
  | nil => rfl
  | @cons x y l l' hxy _ ih =>
    rw [List.foldl_cons, List.foldl_cons, ih]
    by_cases hk : m.keys y.2 = none
    · rw [visit, if_pos hk, if_neg (not_not.mpr (hxy.2.mpr hk))]
    · rw [visit, if_neg hk, if_pos fun h => hk (hxy.2.mp h), hxy.1]

/-- Over the nodes in memory the walk does what it does over the index. -/
theorem walkAllTags_eq_index {root : ℕ} (h : Hangs m (some root) t) {tree : TagTree}
    (hi : Indexed m tree.nodes.toList t.toList) (hfuel : t.size < fuel) :
    ∃ m', walkAllTags A callback fuel m root user_data =
    some (Cik.walkAllTags callback tree user_data, m') ∧
      m'.cells = m.cells := by
  obtain ⟨m', -, hm', hcells, -⟩ := @walkAllTags_visits m A t fuel σ callback user_data root h hfuel
  rw [← foldl_indexed hi] at hm'
  refine ⟨m', ?_, hcells⟩
  rw [Cik.walkAllTags, SearchTree.walk_eq]
  exact hm'

/-- The root without keys, and a tag `Z` that has some. -/
def twoNodes : Memory where
  cells := fun a =>
    if a = 0 then some (.node ⟨rootValue, none, none, some 1⟩) else if a =
      1 then some (.node ⟨[0x5A], some 2, none, none⟩)
    else if a = 2 then some .other else none
  live := {0, 1, 2}
  mem_live := fun a => by
    by_cases h₀ : a = 0
    · simp [h₀]
    · by_cases h₁ : a = 1
      · simp [h₁]
      · by_cases h₂ : a = 2 <;> simp [h₀, h₁, h₂]
  calls := []

/-- They hang at the root. -/
theorem hangs_twoNodes :
    Hangs twoNodes (some 0) (.node .nil rootValue 0 (.node .nil [0x5A] 1 .nil)) :=
  @Hangs.node twoNodes 0 ⟨rootValue, none, none, some 1⟩ _ _ rfl .nil
    (@Hangs.node twoNodes 1 ⟨[0x5A], some 2, none, none⟩ _ _ rfl .nil .nil)

/-- The blocks behind all others. -/
def nextBlock : Allocator where
  pick := fun _ live => live.sup id + 1
  fresh := fun _ _ h => absurd (@Finset.le_sup _ _ _ _ _ id _ h) (Nat.not_succ_le_self _)

/-- The walk over them. -/
theorem walkAllTags_twoNodes : ∃ nodes : List ℕ, nodes.Nodup ∧
    (∀ a, a ∈ nodes ↔ a ∈ [0, 1] ∧ twoNodes.keys a ≠ none) ∧
    (nodes.map twoNodes.tag).Pairwise (fun a b => compareTags a b = .lt) ∧
    ∀ fuel > 2, ∃ m' new, walkAllTags nextBlock (fun tag tags => tags ++ [tag]) fuel twoNodes 0 [] =
        some ((nodes.map twoNodes.tag).foldl (fun tags tag => tags ++ [tag]) [], m') ∧
      m'.cells = twoNodes.cells ∧ m'.calls = new ++ twoNodes.calls ∧
        ∀ a, new.count (.reserve a) = new.count (.release a) :=
  walkAllTags_ordered nextBlock (fun tag tags => tags ++ [tag]) twoNodes 0 _ [] hangs_twoNodes
    ⟨trivial,
      ⟨trivial, trivial, fun x hx => absurd hx List.not_mem_nil,
      fun x hx => absurd hx List.not_mem_nil⟩, fun x hx => absurd hx List.not_mem_nil,
      fun x hx => by rw [List.mem_singleton.mp hx]; decide⟩

end TagWalk

end Cik

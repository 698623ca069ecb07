import Cik.Library.SearchTree
import Mathlib.Data.List.Basic
import Mathlib.Logic.Function.Basic

/-!
# Search trees of linked nodes

A search tree made of nodes that point at their children. `Represents` says which tree
hangs at a pointer; the values of that tree are the nodes themselves. A search that
goes down by pointers stays on the search path of its key (`Represents.child_mem_path`),
finds the key where the path has it (`Represents.find_of_mem_path`), and where the
path ends a new node is linked, which makes of the tree what `insertNew` makes of it
(`Represents.link`). A node once on a search path stays on it, whatever is inserted
(`mem_path_insertNew`); so a search need not notice what others link meanwhile.
-/

/-- The two children of a node. -/
inductive Side where
  /-- The child with the smaller keys. -/
  | left
  /-- The child with the greater keys. -/
  | right
  deriving DecidableEq

/-- How the keys at a side compare with the node's. -/
def Side.ordering : Side → Ordering
  | .left => .lt
  | .right => .gt

namespace SearchTree

variable {κ ν : Type*}

/-- What a search for a key meets on its way down. -/
def path (cmp : κ → κ → Ordering) (k : κ) : SearchTree κ ν → List ν
  | nil => []
  | node l k' v r =>
    match cmp k k' with
    | .lt => v :: l.path cmp k
    | .gt => v :: r.path cmp k
    | .eq => [v]

variable {cmp : κ → κ → Ordering} {k k' : κ} {v w : ν} {t : SearchTree κ ν}

/-- A search still meets what it met before a key was inserted. -/
theorem mem_path_insertNew (h : v ∈ t.path cmp k) : v ∈ (t.insertNew cmp k' w).path cmp k := by
  induction t with
  | nil => cases h
  | node l a b r ihl ihr =>
    cases hk : cmp k a <;> cases hk' : cmp k' a <;>
      simp only [insertNew, path, hk, hk', List.mem_cons] at h ⊢ <;>
      first | exact h | exact h.imp id ihl | exact h.imp id ihr

/-- What a search meets is in the tree. -/
theorem mem_values_of_mem_path (h : v ∈ t.path cmp k) : v ∈ t.toList.map Prod.snd := by
  induction t with
  | nil => cases h
  | node l a b r ihl ihr =>
    rw [toList, List.map_append, List.map_cons, List.mem_append, List.mem_cons]
    cases hk : cmp k a <;> simp only [path, hk, List.mem_cons, List.not_mem_nil, or_false] at h
    · rcases h with rfl | h
      · exact Or.inr (Or.inl rfl)
      · exact Or.inl (ihl h)
    · exact Or.inr (Or.inl h)
    · rcases h with rfl | h
      · exact Or.inr (Or.inl rfl)
      · exact Or.inr (Or.inr (ihr h))

/-- A key that is inserted keeps the nodes there are. -/
theorem mem_insertNew_of_mem {x : κ × ν} (h : x ∈ t.toList) : x ∈ (t.insertNew cmp k v).toList := by
  induction t with
  | nil => cases h
  | node l a b r ihl ihr =>
    rw [toList, List.mem_append, List.mem_cons] at h
    cases hk : cmp k a <;> simp only [insertNew, hk, toList, List.mem_append, List.mem_cons]
    · exact h.imp ihl id
    · exact h
    · exact h.imp id fun h => h.imp id ihr

end SearchTree

/-- The tree that hangs at a pointer. -/
inductive Represents {κ ν : Type*} (key : ν → κ) (child : ν → Side → Option ν) : Option ν →
    SearchTree κ ν → Prop where
  /-- Nothing. -/
  | nil : Represents key child none .nil
  /-- A node, with what hangs at its children. -/
  | node {n : ν} {l r : SearchTree κ ν} : Represents key child (child n .left) l →
      Represents key child (child n .right) r → Represents key child (some n) (.node l (key n) n r)

namespace Represents

open SearchTree

variable {κ ν : Type*} {cmp : κ → κ → Ordering} {key key' : ν → κ} {child child' : ν →
  Side → Option ν} {o : Option ν} {t t' : SearchTree κ ν} {k : κ} {n c : ν} {side : Side}

/-- Only the nodes of the tree matter. -/
theorem congr (h : Represents key child o t)
    (heq : ∀ n ∈ t.toList.map Prod.snd, key' n = key n ∧ child' n = child n) :
    Represents key' child' o t := by
  induction h with
  | nil => exact nil
  | @node n l r _ _ ihl ihr =>
    simp only [toList, List.map_append, List.map_cons, List.mem_append, List.mem_cons] at heq
    obtain ⟨hk, hc⟩ := heq n (Or.inr (Or.inl rfl))
    have hl := ihl fun n hn => heq n (Or.inl hn)
    have hr := ihr fun n hn => heq n (Or.inr (Or.inr hn))
    rw [← hc] at hl hr
    rw [← hk]
    exact node hl hr

/-- A node has the key that it has in the tree. -/
theorem key_eq (h : Represents key child o t) {x : κ × ν} (hx : x ∈ t.toList) : x.1 = key x.2 := by
  induction h with
  | nil => cases hx
  | node _ _ ihl ihr =>
    rw [toList, List.mem_append, List.mem_cons] at hx
    rcases hx with hx | rfl | hx
    · exact ihl hx
    · rfl
    · exact ihr hx

/-- There is one tree at a pointer. -/
theorem unique (h : Represents key child o t) (h' : Represents key child o t') : t = t' := by
  induction h generalizing t' with
  | nil =>
    cases h'
    rfl
  | node _ _ ihl ihr =>
    cases h' with
    | node hl hr => rw [ihl hl, ihr hr]

/-- A search finds its key at a node of its path that has it. -/
theorem find_of_mem_path (h : Represents key child o t) (hn : n ∈ t.path cmp k)
    (hk : cmp k (key n) = .eq) :
    t.find cmp k = some n := by
  induction h with
  | nil => cases hn
  | @node m l r _ _ ihl ihr =>
    cases hm : cmp k (key m) <;>
      simp only [path, hm, List.mem_cons, List.not_mem_nil, or_false] at hn <;>
      simp only [find, hm]
    · rcases hn with rfl | hn
      · rw [hk] at hm
        cases hm
      · exact ihl hn
    · rw [hn]
    · rcases hn with rfl | hn
      · rw [hk] at hm
        cases hm
      · exact ihr hn

/-- A search begins at the root. -/
theorem root_mem_path (h : Represents key child (some n) t) : n ∈ t.path cmp k := by
  cases h with
  | node _ _ => cases hm : cmp k (key n) <;> simp [path, hm]

/-- What hangs at a child is smaller. -/
theorem exists_smaller (h : Represents key child (some n) t) (hc : child n side = some c) :
    ∃ t', Represents key child (some c) t' ∧ t'.size < t.size := by
  cases h with
  | @node _ l r hl hr =>
    cases side with
    | left =>
      rw [hc] at hl
      exact ⟨l, hl, by simp only [SearchTree.size]; omega⟩
    | right =>
      rw [hc] at hr
      exact ⟨r, hr, by simp only [SearchTree.size]; omega⟩

/-- What hangs at a node of the tree is part of it. -/
theorem exists_part (h : Represents key child o t) (hn : n ∈ t.toList.map Prod.snd) :
    ∃ t', Represents key child (some n) t' ∧ ∀ m ∈ t'.toList.map Prod.snd,
    m ∈ t.toList.map Prod.snd := by
  induction h with
  | nil => cases hn
  | @node m l r hl hr ihl ihr =>
    rw [toList, List.map_append, List.map_cons, List.mem_append, List.mem_cons] at hn
    simp only [toList, List.map_append, List.map_cons, List.mem_append, List.mem_cons]
    rcases hn with hn | rfl | hn
    · obtain ⟨t', ht', hpart⟩ := ihl hn
      exact ⟨t', ht', fun k hk => Or.inl (hpart k hk)⟩
    · refine ⟨.node l (key n) n r, .node hl hr, fun k hk => ?_⟩
      simpa only [toList, List.map_append, List.map_cons, List.mem_append, List.mem_cons] using hk
    · obtain ⟨t', ht', hpart⟩ := ihr hn
      exact ⟨t', ht', fun k hk => Or.inr (Or.inr (hpart k hk))⟩

/-- The node at the pointer is in the tree. -/
theorem root_mem (h : Represents key child (some n) t) : n ∈ t.toList.map Prod.snd := by
  cases h with
  | node _ _ =>
    rw [toList, List.map_append, List.map_cons, List.mem_append, List.mem_cons]
    exact Or.inr (Or.inl rfl)

/-- The children of a node of the tree are in it. -/
theorem child_mem (h : Represents key child o t) (hn : n ∈ t.toList.map Prod.snd)
    (hc : child n side = some c) :
    c ∈ t.toList.map Prod.snd := by
  induction h with
  | nil => cases hn
  | @node m l r hl hr ihl ihr =>
    rw [toList, List.map_append, List.map_cons, List.mem_append, List.mem_cons] at hn ⊢
    rcases hn with hn | rfl | hn
    · exact Or.inl (ihl hn)
    · cases side with
      | left => exact Or.inl (root_mem (hc ▸ hl))
      | right => exact Or.inr (Or.inr (root_mem (hc ▸ hr)))
    · exact Or.inr (Or.inr (ihr hn))

/-- A search that goes to the side of its key stays on its path. -/
theorem child_mem_path (h : Represents key child o t) (hn : n ∈ t.path cmp k)
    (hk : cmp k (key n) = side.ordering) (hc : child n side = some c) : c ∈ t.path cmp k := by
  induction h with
  | nil => cases hn
  | @node m l r hl hr ihl ihr =>
    cases hm : cmp k (key m) <;>
      simp only [path, hm, List.mem_cons, List.not_mem_nil, or_false] at hn ⊢
    · rcases hn with rfl | hn
      · rw [hm] at hk
        cases side with
        | left => exact Or.inr (root_mem_path (hc ▸ hl))
        | right => cases hk
      · exact Or.inr (ihl hn)
    · subst hn
      rw [hm] at hk
      cases side <;> cases hk
    · rcases hn with rfl | hn
      · rw [hm] at hk
        cases side with
        | left => cases hk
        | right => exact Or.inr (root_mem_path (hc ▸ hr))
      · exact Or.inr (ihr hn)

/-- A search finds nothing when its path ends at a node that does not have the key. -/
theorem find_eq_none (h : Represents key child o t) (hn : n ∈ t.path cmp k)
    (hk : cmp k (key n) = side.ordering) (hnone : child n side = none) : t.find cmp k = none := by
  induction h with
  | nil => cases hn
  | @node m l r hl hr ihl ihr =>
    cases hm : cmp k (key m) <;>
      simp only [path, hm, List.mem_cons, List.not_mem_nil, or_false] at hn <;>
      simp only [find, hm]
    · rcases hn with rfl | hn
      · rw [hm] at hk
        cases side with
        | left =>
          rw [hnone] at hl
          cases hl
          rfl
        | right => cases hk
      · exact ihl hn
    · subst hn
      rw [hm] at hk
      cases side <;> cases hk
    · rcases hn with rfl | hn
      · rw [hm] at hk
        cases side with
        | left => cases hk
        | right =>
          rw [hnone] at hr
          cases hr
          rfl
      · exact ihr hn

/-- A node is in the tree with its key. -/
theorem mem_toList (h : Represents key child o t) (hn : n ∈ t.toList.map Prod.snd) :
    (key n, n) ∈ t.toList := by
  obtain ⟨x, hx, rfl⟩ := List.mem_map.mp hn
  rw [← h.key_eq hx]
  exact hx

/-- A part of the tree without the node whose child is set. -/
theorem away (h : Represents key child o t) (hn : n ∉ t.toList.map Prod.snd)
    (hsame : ∀ m s, m ≠ n ∨ s ≠ side → child' m s = child m s) : Represents key child' o t := by
  refine h.congr fun m hm => ⟨rfl, funext fun s => hsame m s (Or.inl ?_)⟩
  rintro rfl
  exact hn hm

/-- A node without children. -/
theorem single (hl : child c .left = none) (hr : child c .right = none) :
    Represents key child (some c) (.node .nil (key c) c .nil) := by
  refine node ?_ ?_
  · rw [hl]
    exact nil
  · rw [hr]
    exact nil

/-- A new node with the key of a search, linked where its path ends. -/
theorem link [Std.LawfulEqCmp cmp] (h : Represents key child o t) (ht : t.Ordered cmp)
    (hn : n ∈ t.path cmp k) (hk : cmp k (key n) = side.ordering) (hnone : child n side = none)
    (hkey : key c = k) (hnew : ∀ side, child c side = none) (hc : c ∉ t.toList.map Prod.snd)
    (hside : child' n side = some c) (hsame : ∀ m s, m ≠ n ∨ s ≠ side → child' m s = child m s) :
    Represents key child' o (t.insertNew cmp k c) := by
  have hsingle : Represents key child' (some c) (.node .nil k c .nil) := by
    have hcn : c ≠ n := by
      rintro rfl
      exact hc (mem_values_of_mem_path hn)
    rw [← hkey]
    exact single ((hsame c .left (Or.inl hcn)).trans (hnew _))
      ((hsame c .right (Or.inl hcn)).trans (hnew _))
  induction h with
  | nil => cases hn
  | @node m l r hl hr ihl ihr =>
    obtain ⟨hol, hor, hlt, hgt⟩ := ht
    rw [toList, List.map_append, List.map_cons, List.mem_append, List.mem_cons,
      not_or, not_or] at hc
    have hself : cmp (key m) (key m) = .eq := Std.ReflCmp.compare_self
    have hml : m ∉ l.toList.map Prod.snd :=
      fun hm => by cases hself.symm.trans (hlt _ (hl.mem_toList hm))
    have hmr : m ∉ r.toList.map Prod.snd :=
      fun hm => by cases hself.symm.trans (hgt _ (hr.mem_toList hm))
    cases hm : cmp k (key m) <;>
      simp only [path, hm, List.mem_cons, List.not_mem_nil, or_false] at hn <;>
      simp only [insertNew, hm]
    · by_cases hnm : n = m
      · subst hnm
        rw [hm] at hk
        cases side with
        | right => cases hk
        | left =>
          rw [hnone] at hl
          cases hl with
          | nil =>
            refine node ?_ ?_
            · rw [hside]
              exact hsingle
            · rw [hsame n .right (Or.inr (by simp))]
              exact hr.away hmr hsame
      · have hn := hn.resolve_left hnm
        have hlt' := hlt _ (hl.mem_toList (mem_values_of_mem_path hn))
        have hnr : n ∉ r.toList.map Prod.snd :=
          fun hr' => by cases hlt'.symm.trans (hgt _ (hr.mem_toList hr'))
        refine node ?_ ?_
        · rw [hsame m .left (Or.inl (Ne.symm hnm))]
          exact ihl hol hn hc.1
        · rw [hsame m .right (Or.inl (Ne.symm hnm))]
          exact hr.away hnr hsame
    · subst hn
      rw [hm] at hk
      cases side <;> cases hk
    · by_cases hnm : n = m
      · subst hnm
        rw [hm] at hk
        cases side with
        | left => cases hk
        | right =>
          rw [hnone] at hr
          cases hr with
          | nil =>
            refine node ?_ ?_
            · rw [hsame n .left (Or.inr (by simp))]
              exact hl.away hml hsame
            · rw [hside]
              exact hsingle
      · have hn := hn.resolve_left hnm
        have hgt' := hgt _ (hr.mem_toList (mem_values_of_mem_path hn))
        have hnl : n ∉ l.toList.map Prod.snd :=
          fun hl' => by cases hgt'.symm.trans (hlt _ (hl.mem_toList hl'))
        refine node ?_ ?_
        · rw [hsame m .left (Or.inl (Ne.symm hnm))]
          exact hl.away hnl hsame
        · rw [hsame m .right (Or.inl (Ne.symm hnm))]
          exact ihr hor hn hc.2.2

/-- The value of one node of an ordered tree is changed. -/
theorem map_update_eq {β : Type*} [DecidableEq ν] [Std.LawfulEqCmp cmp]
    (h : Represents key child o t) (ht : t.Ordered cmp) (hf : t.find cmp k = some n)
    (f : ν → β) (x : β) :
    t.map (Function.update f n x) = (t.map f).update cmp k fun _ => x := by
  have hsame {u : SearchTree κ ν} (hn : n ∉ u.toList.map Prod.snd) :
      u.map (Function.update f n x) = u.map f := by
    refine SearchTree.map_congr fun v hv => ?_
    have hne : v ≠ n := fun he => hn (he ▸ hv)
    exact Function.update_of_ne hne _ _
  induction h with
  | nil => cases hf
  | @node m l r hl hr ihl ihr =>
    obtain ⟨hol, hor, hlt, hgt⟩ := ht
    have hself : cmp (key m) (key m) = .eq := Std.ReflCmp.compare_self
    have hml : m ∉ l.toList.map Prod.snd :=
      fun hm => by cases hself.symm.trans (hlt _ (hl.mem_toList hm))
    have hmr : m ∉ r.toList.map Prod.snd :=
      fun hm => by cases hself.symm.trans (hgt _ (hr.mem_toList hm))
    cases hm : cmp k (key m) <;>
      simp only [find, hm, Option.some.injEq] at hf <;>
      simp only [map, update, hm]
    · -- the node is at the left, and so it is neither this one nor at the right
      have hn : (k, n) ∈ l.toList := (hol.mem_toList_iff k n).mpr hf
      have hnl : n ∈ l.toList.map Prod.snd := List.mem_map_of_mem hn
      have hnm : m ≠ n := fun he => hml (he ▸ hnl)
      have hnr : n ∉ r.toList.map Prod.snd := fun hr' => by
        cases (hlt _ (hl.mem_toList hnl)).symm.trans (hgt _ (hr.mem_toList hr'))
      rw [ihl hol hf, hsame hnr, Function.update_of_ne hnm]
    · subst hf
      rw [hsame hml, hsame hmr, Function.update_self]
    · have hn : (k, n) ∈ r.toList := (hor.mem_toList_iff k n).mpr hf
      have hnr : n ∈ r.toList.map Prod.snd := List.mem_map_of_mem hn
      have hnm : m ≠ n := fun he => hmr (he ▸ hnr)
      have hnl : n ∉ l.toList.map Prod.snd := fun hl' => by
        cases (hlt _ (hl.mem_toList hl')).symm.trans (hgt _ (hr.mem_toList hnr))
      rw [ihr hor hf, hsame hnl, Function.update_of_ne hnm]

end Represents

import Mathlib.Order.Basic

/-!
# Search trees

A binary tree of keys with values, which nobody balances. A key is looked for by
comparing it with the keys on the way down (`find`); a key that is not there gets a
node where the way ends (`insertNew`); the value of a key that is there is changed in
place (`update`). What these do to a later `find` holds of any tree
(`find_insertNew`, `find_update`), as a key's way down is always the same one; that
the nodes of a tree are just what `find` finds needs the tree to be `Ordered`
(`Ordered.mem_toList_iff`). All this is the same whether a function is applied to the
values before or after (`map`).

`walk` visits the nodes from left to right without recursion, with a stack of the
nodes whose left part is being visited; it sees them in the order of `toList`
(`walk_eq`).
-/

/-- A binary tree. -/
inductive SearchTree.{u, v} (κ : Type u) (ν : Type v) where
  /-- The empty tree. -/
  | nil
  /-- A node: what is left of it, its key and value, what is right of it. -/
  | node (left : SearchTree κ ν) (key : κ) (val : ν) (right : SearchTree κ ν)

namespace SearchTree

variable {κ ν σ : Type*}

section Search

variable (cmp : κ → κ → Ordering)

/-- The value of a key. -/
def find (k : κ) : SearchTree κ ν → Option ν
  | nil => none
  | node l k' v r =>
    match cmp k k' with
    | .lt => l.find k
    | .gt => r.find k
    | .eq => some v

/-- The tree with a node for a key, with the value `v` if it has none yet. -/
def insertNew (k : κ) (v : ν) : SearchTree κ ν → SearchTree κ ν
  | nil => node nil k v nil
  | node l k' v' r =>
    match cmp k k' with
    | .lt => node (l.insertNew k v) k' v' r
    | .gt => node l k' v' (r.insertNew k v)
    | .eq => node l k' v' r

/-- The tree with the value of a key changed. -/
def update (k : κ) (f : ν → ν) : SearchTree κ ν → SearchTree κ ν
  | nil => nil
  | node l k' v' r =>
    match cmp k k' with
    | .lt => node (l.update k f) k' v' r
    | .gt => node l k' v' (r.update k f)
    | .eq => node l k' (f v') r

end Search

/-- The nodes from left to right. -/
def toList : SearchTree κ ν → List (κ × ν)
  | nil => []
  | node l k v r => l.toList ++ (k, v) :: r.toList

/-- Every key left of a node is less than the node's, every key right of it greater. -/
def Ordered (cmp : κ → κ → Ordering) : SearchTree κ ν → Prop
  | nil => True
  | node l k _ r =>
    l.Ordered cmp ∧ r.Ordered cmp ∧ (∀ x ∈ l.toList, cmp x.1 k = .lt) ∧
      ∀ x ∈ r.toList, cmp x.1 k = .gt

/-! ### Looking for a key after a change -/

section Find

variable {cmp : κ → κ → Ordering} [Std.LawfulEqCmp cmp]

/-- A key is found after it got a node; the other keys are as before. -/
theorem find_insertNew [DecidableEq κ] (k k' : κ) (v : ν) (t : SearchTree κ ν) :
    (t.insertNew cmp k v).find cmp k' = if k' = k then some ((t.find cmp k).getD v)
      else t.find cmp k' := by
  induction t with
  | nil =>
    by_cases hk : k' = k
    · subst hk
      simp [insertNew, find, Std.ReflCmp.compare_self]
    · have hne : cmp k' k ≠ .eq := fun h => hk (Std.LawfulEqCmp.eq_of_compare h)
      cases h : cmp k' k <;> simp_all [insertNew, find]
  | node l a va r ihl ihr =>
    by_cases hk : k' = k
    · subst hk
      rw [if_pos rfl] at ihl ihr ⊢
      cases h : cmp k' a <;> simp [insertNew, find, h, ihl, ihr]
    · rw [if_neg hk] at ihl ihr ⊢
      cases h : cmp k a <;> cases h' : cmp k' a <;> simp [insertNew, find, h, h', ihl, ihr]

/-- The value of a key after it was changed; the other keys are as before. -/
theorem find_update [DecidableEq κ] (k k' : κ) (f : ν → ν) (t : SearchTree κ ν) :
    (t.update cmp k f).find cmp k' = if k' = k then (t.find cmp k).map f else t.find cmp k' := by
  induction t with
  | nil => simp [update, find]
  | node l a va r ihl ihr =>
    by_cases hk : k' = k
    · subst hk
      rw [if_pos rfl] at ihl ihr ⊢
      cases h : cmp k' a <;> simp [update, find, h, ihl, ihr]
    · rw [if_neg hk] at ihl ihr ⊢
      cases h : cmp k a with
      | lt => cases h' : cmp k' a <;> simp [update, find, h, h', ihl]
      | gt => cases h' : cmp k' a <;> simp [update, find, h, h', ihr]
      | eq =>
        -- the node of `k` is not the node of `k'`
        have hka := Std.LawfulEqCmp.eq_of_compare h
        have hne : cmp k' a ≠ .eq :=
          fun h' => hk ((Std.LawfulEqCmp.eq_of_compare h').trans hka.symm)
        cases h' : cmp k' a with
        | eq => exact absurd h' hne
        | lt => simp [update, find, h, h']
        | gt => simp [update, find, h, h']

end Find

/-- A key that is there needs no node. -/
theorem insertNew_of_find {cmp : κ → κ → Ordering} {k : κ} {v v' : ν} {t : SearchTree κ ν}
    (h : t.find cmp k = some v') :
    t.insertNew cmp k v = t := by
  induction t with
  | nil => cases h
  | node l a va r ihl ihr =>
    rw [find] at h
    rw [insertNew]
    cases hc : cmp k a with
    | lt =>
      rw [hc] at h
      simp only [ihl h]
    | gt =>
      rw [hc] at h
      simp only [ihr h]
    | eq => rfl

/-! ### Ordered trees -/

theorem mem_toList_insertNew {cmp : κ → κ → Ordering} {k : κ} {v : ν}
    {t : SearchTree κ ν} {x : κ × ν} (h : x ∈ (t.insertNew cmp k v).toList) : x = (k, v) ∨
    x ∈ t.toList := by
  induction t with
  | nil => simpa [insertNew, toList] using h
  | node l a va r ihl ihr =>
    cases hc : cmp k a <;> simp only [insertNew, hc, toList, List.mem_append, List.mem_cons] at h ⊢
    · rcases h with h | h
      · exact (ihl h).imp id Or.inl
      · exact Or.inr (Or.inr h)
    · exact Or.inr h
    · rcases h with h | h | h
      · exact Or.inr (Or.inl h)
      · exact Or.inr (Or.inr (Or.inl h))
      · exact (ihr h).imp id fun h => Or.inr (Or.inr h)

theorem mem_toList_update {cmp : κ → κ → Ordering} {k : κ} {f : ν → ν}
    {t : SearchTree κ ν} {x : κ × ν} (h : x ∈ (t.update cmp k f).toList) :
    ∃ v, (x.1, v) ∈ t.toList := by
  induction t with
  | nil => simp [update, toList] at h
  | node l a va r ihl ihr =>
    cases hc : cmp k a <;> simp only [update, hc, toList, List.mem_append, List.mem_cons] at h ⊢
    · rcases h with h | rfl | h
      · obtain ⟨v, hv⟩ := ihl h
        exact ⟨v, Or.inl hv⟩
      · exact ⟨va, Or.inr (Or.inl rfl)⟩
      · exact ⟨x.2, Or.inr (Or.inr h)⟩
    · rcases h with h | rfl | h
      · exact ⟨x.2, Or.inl h⟩
      · exact ⟨va, Or.inr (Or.inl rfl)⟩
      · exact ⟨x.2, Or.inr (Or.inr h)⟩
    · rcases h with h | rfl | h
      · exact ⟨x.2, Or.inl h⟩
      · exact ⟨va, Or.inr (Or.inl rfl)⟩
      · obtain ⟨v, hv⟩ := ihr h
        exact ⟨v, Or.inr (Or.inr hv)⟩

theorem Ordered.insertNew {cmp : κ → κ → Ordering} {t : SearchTree κ ν} (ht : t.Ordered cmp)
    (k : κ) (v : ν) :
    (t.insertNew cmp k v).Ordered cmp := by
  induction t with
  | nil => simp [SearchTree.insertNew, Ordered, toList]
  | node l a va r ihl ihr =>
    obtain ⟨hl, hr, hlt, hgt⟩ := ht
    cases hc : cmp k a <;> simp only [SearchTree.insertNew, hc]
    · refine ⟨ihl hl, hr, fun x hx => ?_, hgt⟩
      rcases mem_toList_insertNew hx with rfl | hx
      · exact hc
      · exact hlt x hx
    · exact ⟨hl, hr, hlt, hgt⟩
    · refine ⟨hl, ihr hr, hlt, fun x hx => ?_⟩
      rcases mem_toList_insertNew hx with rfl | hx
      · exact hc
      · exact hgt x hx

theorem Ordered.update {cmp : κ → κ → Ordering} {t : SearchTree κ ν} (ht : t.Ordered cmp)
    (k : κ) (f : ν → ν) :
    (t.update cmp k f).Ordered cmp := by
  induction t with
  | nil => exact ht
  | node l a va r ihl ihr =>
    obtain ⟨hl, hr, hlt, hgt⟩ := ht
    cases hc : cmp k a <;> simp only [SearchTree.update, hc]
    · refine ⟨ihl hl, hr, fun x hx => ?_, hgt⟩
      obtain ⟨v, hv⟩ := mem_toList_update hx
      exact hlt (x.1, v) hv
    · exact ⟨hl, hr, hlt, hgt⟩
    · refine ⟨hl, ihr hr, hlt, fun x hx => ?_⟩
      obtain ⟨v, hv⟩ := mem_toList_update hx
      exact hgt (x.1, v) hv

/-- The nodes of an ordered tree are what a search finds. -/
theorem Ordered.mem_toList_iff {cmp : κ → κ → Ordering} [Std.LawfulEqCmp cmp] {t : SearchTree κ ν}
    (ht : t.Ordered cmp) (k : κ) (v : ν) : (k, v) ∈ t.toList ↔ t.find cmp k = some v := by
  induction t with
  | nil => simp [toList, find]
  | node l a va r ihl ihr =>
    obtain ⟨hl, hr, hlt, hgt⟩ := ht
    have ihl := ihl hl
    have ihr := ihr hr
    have hself : cmp a a = .eq := Std.ReflCmp.compare_self
    simp only [toList, List.mem_append, List.mem_cons, Prod.mk.injEq, find]
    cases hc : cmp k a
    · have hne : k ≠ a := fun h => by rw [h, hself] at hc; cases hc
      have hr' : (k, v) ∉ r.toList := fun h => by rw [hgt _ h] at hc; cases hc
      simp [hne, hr', ihl]
    · have hka := Std.LawfulEqCmp.eq_of_compare hc
      have hl' : (k, v) ∉ l.toList := fun h => by rw [hlt _ h] at hc; cases hc
      have hr' : (k, v) ∉ r.toList := fun h => by rw [hgt _ h] at hc; cases hc
      simp [hka, hka ▸ hl', hka ▸ hr', eq_comm]
    · have hne : k ≠ a := fun h => by rw [h, hself] at hc; cases hc
      have hl' : (k, v) ∉ l.toList := fun h => by rw [hlt _ h] at hc; cases hc
      simp [hne, hl', ihr]

/-- The keys of an ordered tree, from left to right, are strictly increasing. -/
theorem Ordered.pairwise {cmp : κ → κ → Ordering} [Std.TransCmp cmp] {t : SearchTree κ ν}
    (ht : t.Ordered cmp) :
    (t.toList.map Prod.fst).Pairwise fun a b => cmp a b = .lt := by
  induction t with
  | nil => exact .nil
  | node l k v r ihl ihr =>
    obtain ⟨hl, hr, hlt, hgt⟩ := ht
    have hgt' : ∀ x ∈ r.toList, cmp k x.1 = .lt := fun x hx => Std.OrientedCmp.lt_of_gt (hgt x hx)
    rw [toList, List.map_append, List.map_cons, List.pairwise_append, List.pairwise_cons]
    refine ⟨ihl hl, ⟨?_, ihr hr⟩, ?_⟩
    · intro a ha
      obtain ⟨x, hx, rfl⟩ := List.mem_map.mp ha
      exact hgt' x hx
    · intro a ha b hb
      obtain ⟨x, hx, rfl⟩ := List.mem_map.mp ha
      rcases List.mem_cons.mp hb with rfl | hb
      · exact hlt x hx
      · obtain ⟨y, hy, rfl⟩ := List.mem_map.mp hb
        exact Std.TransCmp.lt_trans (hlt x hx) (hgt' y hy)

/-! ### Trees with other values -/

section Map

variable {ν' : Type*} {cmp : κ → κ → Ordering} {k : κ} {f g : ν → ν'} {t : SearchTree κ ν}

/-- The tree with a function applied to every value. -/
def map (f : ν → ν') : SearchTree κ ν → SearchTree κ ν'
  | nil => nil
  | node l k v r => node (l.map f) k (f v) (r.map f)

theorem toList_map (f : ν → ν') (t : SearchTree κ ν) :
    (t.map f).toList = t.toList.map fun x => (x.1, f x.2) := by
  induction t with
  | nil => rfl
  | node l a va r ihl ihr => simp [map, toList, ihl, ihr]

theorem map_map {ν'' : Type*} (f : ν → ν') (g : ν' → ν'') (t : SearchTree κ ν) :
    (t.map f).map g = t.map (g ∘ f) := by
  induction t with
  | nil => rfl
  | node l a va r ihl ihr => rw [map, map, ihl, ihr, map, Function.comp_apply]

theorem find_map (f : ν → ν') (t : SearchTree κ ν) :
    (t.map f).find cmp k = (t.find cmp k).map f := by
  induction t with
  | nil => rfl
  | node l a va r ihl ihr => cases hc : cmp k a <;> simp [map, find, hc, ihl, ihr]

theorem map_insertNew (f : ν → ν') (v : ν) (t : SearchTree κ ν) :
    (t.insertNew cmp k v).map f = (t.map f).insertNew cmp k (f v) := by
  induction t with
  | nil => rfl
  | node l a va r ihl ihr => cases hc : cmp k a <;> simp [map, insertNew, hc, ihl, ihr]

/-- A value is changed before or after the function is applied. -/
theorem map_update {h : ν → ν} {h' : ν' → ν'} (hh : ∀ v, f (h v) = h' (f v)) (t : SearchTree κ ν) :
    (t.update cmp k h).map f = (t.map f).update cmp k h' := by
  induction t with
  | nil => rfl
  | node l a va r ihl ihr => cases hc : cmp k a <;> simp [map, update, hc, ihl, ihr, hh]

theorem update_eq_of_find {v : ν} {h h' : ν → ν} (hf : t.find cmp k = some v) (hh : h v = h' v) :
    t.update cmp k h = t.update cmp k h' := by
  induction t with
  | nil => rfl
  | node l a va r ihl ihr =>
    cases hc : cmp k a <;> simp only [find, hc, Option.some.injEq] at hf <;> simp only [update, hc]
    · rw [ihl hf]
    · rw [hf, hh]
    · rw [ihr hf]

theorem map_congr (h : ∀ v ∈ t.toList.map Prod.snd, f v = g v) : t.map f = t.map g := by
  induction t with
  | nil => rfl
  | node l a va r ihl ihr =>
    simp only [toList, List.map_append, List.map_cons, List.mem_append, List.mem_cons] at h
    rw [map, map, ihl fun v hv => h v (Or.inl hv), h va (Or.inr (Or.inl rfl)),
      ihr fun v hv => h v (Or.inr (Or.inr hv))]

theorem ordered_map (f : ν → ν') {t : SearchTree κ ν} : (t.map f).Ordered cmp ↔ t.Ordered cmp := by
  induction t with
  | nil => exact Iff.rfl
  | node l a va r ihl ihr => simp only [map, Ordered, ihl, ihr, toList_map, List.forall_mem_map]

end Map

/-! ### The walk -/

/-- How many nodes a tree has. -/
def size : SearchTree κ ν → ℕ
  | nil => 0
  | node l _ _ r => l.size + r.size + 1

/-- Going down to the left, with the nodes on the way put on the stack. -/
def descend : SearchTree κ ν → List (SearchTree κ ν) → List (SearchTree κ ν)
  | nil, stack => stack
  | node l k v r, stack => l.descend (node l k v r :: stack)

/-- The walk from `current` on, for at most `fuel` nodes. -/
def walkLoop (visit : κ → ν → σ → σ) : ℕ → SearchTree κ ν → List (SearchTree κ ν) → σ → σ
  | 0, _, _, data => data
  | fuel + 1, current, stack, data =>
    match current.descend stack with
    | node _ k v r :: stack => walkLoop visit fuel r stack (visit k v data)
    | _ => data

/-- The walk over a whole tree. -/
def walk (visit : κ → ν → σ → σ) (t : SearchTree κ ν) (data : σ) : σ :=
  walkLoop visit (t.size + 1) t [] data

/-- The nodes still to be visited from a stack. -/
def pending : List (SearchTree κ ν) → List (κ × ν)
  | node _ k v r :: stack => (k, v) :: (r.toList ++ pending stack)
  | _ => []

theorem length_toList (t : SearchTree κ ν) : t.toList.length = t.size := by
  induction t with
  | nil => rfl
  | node l k v r ihl ihr => simp [toList, size, ihl, ihr]; omega

theorem pending_descend (t : SearchTree κ ν) (stack : List (SearchTree κ ν)) :
    pending (t.descend stack) = t.toList ++ pending stack := by
  induction t generalizing stack with
  | nil => rfl
  | node l k v r ihl _ => rw [descend, ihl, pending, toList, List.append_assoc, List.cons_append]

theorem descend_eq_nil {t : SearchTree κ ν} {stack : List (SearchTree κ ν)}
    (h : t.descend stack = []) :
    t = nil ∧ stack = [] := by
  induction t generalizing stack with
  | nil => exact ⟨rfl, h⟩
  | node l k v r ihl _ => exact absurd (ihl h).2 (List.cons_ne_nil _ _)

theorem walkLoop_eq (visit : κ → ν → σ → σ) (fuel : ℕ) (current : SearchTree κ ν)
    (stack : List (SearchTree κ ν)) (data : σ)
    (hf : (current.toList ++ pending stack).length < fuel) :
    walkLoop visit fuel current stack data =
      (current.toList ++ pending stack).foldl (fun data x => visit x.1 x.2 data) data := by
  induction fuel generalizing current stack data with
  | zero => omega
  | succ fuel ih =>
    rw [← pending_descend] at hf ⊢
    rw [walkLoop]
    rcases hd : current.descend stack with _ | ⟨_ | ⟨l, k, v, r⟩, rest⟩
    · rfl
    · rfl
    · rw [hd, pending, List.length_cons] at hf
      exact ih r rest _ (by omega)

/-- A walk visits the nodes from left to right. -/
theorem walk_eq (visit : κ → ν → σ → σ) (t : SearchTree κ ν) (data : σ) :
    t.walk visit data = t.toList.foldl (fun data x => visit x.1 x.2 data) data := by
  have := walkLoop_eq visit (t.size + 1) t [] data (by simp [pending, length_toList])
  simpa [pending, walk] using this

end SearchTree

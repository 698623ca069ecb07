import Cik.Interleaving.Safety

/-!
# Where the blocks are

When nobody handles a request, the live blocks are those in use at start-up, the entries
in the slots, the nodes of the tag tree but for the root, and the elements of their key
lists, each in one place; and what is released is live (`blocks_in_place`). This is so as
long as nothing is written past a block. A SET whose size wraps round is given a block
that is too small, and what it writes over may be a node, whose keys then are in no list
(`blocks_lost`).
-/

namespace Cik

namespace Guarded

variable {τ : Type*} {start : ℕ → Bool} {l : List (τ × Event)} {owner : ℕ → Option (Owner τ)}
  {g : τ → Held} {s : Process τ} {c : Workers τ} {b : ℕ}

/-! ### Places -/

/-- The places where blocks are in use while nobody handles a request. -/
inductive Place where
  /-- A block that was reserved at start-up. -/
  | start (b : ℕ)
  /-- The entry in a slot. -/
  | slot (p : SlotPos)
  /-- A node of the tag tree. -/
  | node (n : ℕ)
  /-- An element of the key list of a node. -/
  | elem (n i : ℕ)

/-- The block in a place. -/
inductive Place.Has (start : ℕ → Bool) (s : Process τ) : Place → ℕ → Prop where
  /-- A block that was reserved before. -/
  | start {b : ℕ} : start b = true → b ≠ root → Place.Has start s (.start b) b
  /-- The entry in a slot. -/
  | slot {p : SlotPos} {m : MapSlot} : s.slots p = some m → Place.Has start s (.slot p) m.entry
  /-- A node of the tree. -/
  | node {n : ℕ} : InTree s.child n → n ≠ root → Place.Has start s (.node n) n
  /-- An element of its list. -/
  | elem {n i : ℕ} {elem : KeyElem} : InTree s.child n → (s.keys n)[i]? = some elem →
      Place.Has start s (.elem n i) elem.base

/-- The owner of the block in a place. -/
def Place.toOwner : Place → Owner τ
  | .start _ => .start
  | .slot p => .slot p
  | .node _ => .node
  | .elem n _ => .keys n

section Places

variable {π π' : Place} (hS : Sound start l owner (.of g) s) (hrest : ∀ t, (g t).AtRest)

include hS hrest

theorem owner_of_has (h : π.Has start s b) : owner b = some π.toOwner := by
  cases h with
  | start hb hroot => exact (hS.blocks.start b).mpr ⟨hb, hroot⟩
  | slot hm =>
    rcases hS.slots.owned _ _ hm with ho | ⟨t, ht⟩
    · exact ho
    · cases (hrest t).slot.symm.trans ht
  | node hn hroot => exact (hS.nodes.mem b).mpr ⟨hn, hroot⟩
  | elem hn hi => exact (hS.keys.mem _ _).mpr ⟨hn, List.mem_map_of_mem (List.mem_of_getElem? hi)⟩

/-- Every block is in one place at most. -/
theorem place_uniq (h : π.Has start s b) (h' : π'.Has start s b) : π = π' := by
  have ho : (π.toOwner : Owner τ) = π'.toOwner :=
    Option.some.inj ((owner_of_has hS hrest h).symm.trans (owner_of_has hS hrest h'))
  cases h with
  | start _ _ => cases h' with
    | start _ _ => rfl
    | _ => cases ho
  | @slot p m _ =>
    generalize m.entry = b at h'
    cases h' with
    | slot _ =>
      cases ho
      rfl
    | _ => cases ho
  | node _ _ => cases h' with
    | node _ _ => rfl
    | _ => cases ho
  | @elem n i elem hn hi =>
    generalize hb : elem.base = b at h'
    cases h' with
    | @elem n' j elem' _ hj =>
      cases ho
      have hnodup : ((s.keys n).map KeyElem.base).Nodup :=
        Multiset.coe_nodup.mp (hS.keys.nodup n hn)
      have hi' : ((s.keys n).map KeyElem.base)[i]? = some elem.base := by
        rw [List.getElem?_map, hi]; rfl
      have hj' : ((s.keys n).map KeyElem.base)[j]? = some elem.base := by
        rw [List.getElem?_map, hj, hb]; rfl
      have hlt : i < ((s.keys n).map KeyElem.base).length := (List.getElem?_eq_some_iff.mp hi').1
      rw [(List.getElem?_inj hlt hnodup).mp (hi'.trans hj'.symm)]
    | _ => cases ho

theorem live_iff_has (b : ℕ) : s.live b = true ↔ ∃ π : Place, π.Has start s b := by
  rw [hS.blocks.live]
  constructor
  · intro hsome
    obtain ⟨w, hw⟩ := Option.isSome_iff_exists.mp hsome
    cases w with
    | start =>
      obtain ⟨hb, hroot⟩ := (hS.blocks.start b).mp hw
      exact ⟨.start b, .start hb hroot⟩
    | slot p =>
      obtain ⟨m, hm, rfl⟩ := hS.slots.entry p b hw
      exact ⟨.slot p, .slot hm⟩
    | node =>
      obtain ⟨hn, hroot⟩ := (hS.nodes.mem b).mp hw
      exact ⟨.node b, .node hn hroot⟩
    | keys n =>
      obtain ⟨hn, hb⟩ := (hS.keys.mem n b).mp hw
      obtain ⟨elem, helem, rfl⟩ := List.mem_map.mp hb
      obtain ⟨i, hi⟩ := List.getElem?_of_mem helem
      exact ⟨.elem n i, .elem hn hi⟩
    | worker t =>
      have hown : b ∈ (g t).own := (hS.workers.mem t b).mpr hw
      rw [(hrest t).own] at hown
      cases hown
  · rintro ⟨π, hπ⟩
    rw [owner_of_has hS hrest hπ]
    rfl

end Places

/-- Between requests nobody has a guard. -/
theorem unheld (h : Run Step (Workers.init start) l c) (hidle : ∀ u, c.loc u = none) (x : Guard) :
    c.shared.holder x = none := by
  obtain ⟨g, ⟨owner, hS⟩, hc⟩ := reachable h
  cases hx : c.shared.holder x with
  | none => rfl
  | some u =>
    have hrest := hc u
    rw [hidle u] at hrest
    exact absurd hx (hS.not_has hrest x)

/-- Between requests the live blocks are those in use. -/
theorem live_iff_place (h : Run Step (Workers.init start) l c)
    (hidle : ∀ u, c.loc u = none) (b : ℕ) :
    c.shared.live b = true ↔ ∃ π : Place, π.Has start c.shared b := by
  obtain ⟨g, ⟨owner, hS⟩, hc⟩ := reachable h
  refine live_iff_has hS (fun u => ?_) b
  have hrest := hc u
  rwa [hidle u] at hrest

/-! ### An entry that is replaced -/

/-- Two keys are stored, the first one in the block 5248 after its old entry, the block 4096, was
released; the second one has a tag, whose node has its key. -/
structure Replaced (s : Process Unit) : Prop where
  /-- The slots of the two keys. -/
  slots : s.slots = Function.update (Function.update (Function.update (fun _ => none)
    (0, 0) (some ⟨getKeyHash [0, 0, 110], 4096⟩)) (0, 90) (some ⟨getKeyHash [0, 0, 0], 4384⟩))
    (0, 0) (some ⟨getKeyHash [0, 0, 110], 5248⟩)
  /-- The tree has the root and the node of the tag. -/
  child : s.child root .left = none ∧ s.child root .right = some 4672 ∧
    ∀ side, s.child 4672 side = none
  /-- Their lists. -/
  keys : s.keys root = [] ∧ s.keys 4672 = [⟨4960, [0, 0, 0]⟩]
  /-- The element of the list. -/
  elem : s.live 4960 = true
  /-- The block of the old entry. -/
  old : s.live 4096 = false
  /-- The mark of its free list. -/
  mark : s.mark 256 = none

/-- A key is stored, another one with a tag, and the first one once more. -/
theorem gets_replaced :
    Gets (fun l c => AllFit l ∧ c.loc = (fun _ => none) ∧ ((), .did (.release 4096) ()) ∈ l ∧
      Replaced c.shared) (Workers.init fun _ => false).shared none := by
  refine .call setCall ?_
  refine .op (StatusCode.ok, [110, 0, 0]) ⟨.inl ⟨rfl, rfl⟩, rfl⟩ ?_
  -- `reserve_and_lock_entry`
  refine .op true ⟨rfl, rfl⟩ ?_
  refine .op () rfl ?_
  refine .op (some 4096) ⟨rfl, by decide, rfl⟩ ?_
  refine .op () ⟨0, rfl⟩ ?_
  refine .op () ⟨rfl, rfl⟩ ?_
  -- the entry is filled in
  refine .op _ ⟨rfl, rfl⟩ ?_
  refine .op () rfl ?_
  refine .op (StatusCode.ok, []) ⟨.inl ⟨rfl, rfl⟩, rfl⟩ ?_
  refine .op () rfl ?_
  refine .op (0 : Time) rfl ?_
  refine .op () rfl ?_
  -- `set_locked_cache_entry`
  refine .op _ ⟨rfl, rfl⟩ ?_
  refine .op () ⟨rfl, rfl⟩ ?_
  refine .op _ ⟨rfl, rfl⟩ ?_
  refine .op () rfl ?_
  refine .op () rfl ?_
  refine .op _ ⟨rfl, rfl⟩ ?_
  refine .op () rfl ?_
  refine .returned ?_
  -- the second key
  refine .call setTaggedCall ?_
  refine .op (StatusCode.ok, [0, 0, 0]) ⟨.inl ⟨rfl, rfl⟩, rfl⟩ ?_
  refine .op (StatusCode.ok, [1]) ⟨.inl ⟨rfl, rfl⟩, rfl⟩ ?_
  refine .op (StatusCode.ok, [116]) ⟨.inl ⟨rfl, rfl⟩, rfl⟩ ?_
  refine .op true ⟨rfl, rfl⟩ ?_
  refine .op () rfl ?_
  refine .op (some 4384) ⟨rfl, by decide, rfl⟩ ?_
  refine .op () ⟨0, rfl⟩ ?_
  refine .op () ⟨rfl, rfl⟩ ?_
  refine .op _ ⟨rfl, rfl⟩ ?_
  refine .op () rfl ?_
  refine .op (StatusCode.ok, [118]) ⟨.inl ⟨rfl, rfl⟩, rfl⟩ ?_
  refine .op () rfl ?_
  refine .op (0 : Time) rfl ?_
  refine .op () rfl ?_
  refine .op _ ⟨rfl, rfl⟩ ?_
  refine .op () ⟨rfl, rfl⟩ ?_
  refine .op none ⟨rfl, rfl⟩ ?_
  refine .op () rfl ?_
  refine .op () rfl ?_
  refine .op _ ⟨rfl, rfl⟩ ?_
  -- `get_or_create_node`
  refine .cons .loop ?_
  refine .op _ ⟨rfl, rfl⟩ ?_
  refine .op _ ⟨rfl, rfl⟩ ?_
  refine .op true ⟨rfl, rfl⟩ ?_
  refine .op () rfl ?_
  refine .op (some 4672) ⟨rfl, by decide, rfl⟩ ?_
  refine .op () rfl ?_
  refine .op true ⟨rfl, rfl⟩ ?_
  refine .cons .loop ?_
  refine .op _ ⟨rfl, rfl⟩ ?_
  -- `insert_if_unique`
  refine .op () ⟨rfl, rfl⟩ ?_
  refine .op _ ⟨rfl, rfl⟩ ?_
  refine .op true ⟨rfl, rfl⟩ ?_
  refine .op () rfl ?_
  refine .op (some 4960) ⟨rfl, by decide, rfl⟩ ?_
  refine .op () rfl ?_
  refine .op () rfl ?_
  refine .op () rfl ?_
  refine .returned ?_
  -- the first key once more
  refine .call setCall ?_
  refine .op (StatusCode.ok, [110, 0, 0]) ⟨.inl ⟨rfl, rfl⟩, rfl⟩ ?_
  refine .op true ⟨rfl, rfl⟩ ?_
  refine .op () rfl ?_
  refine .op (some 5248) ⟨rfl, by decide, rfl⟩ ?_
  refine .op () ⟨0, rfl⟩ ?_
  refine .op () ⟨rfl, rfl⟩ ?_
  refine .op _ ⟨rfl, rfl⟩ ?_
  refine .op () rfl ?_
  refine .op (StatusCode.ok, []) ⟨.inl ⟨rfl, rfl⟩, rfl⟩ ?_
  refine .op () rfl ?_
  refine .op (0 : Time) rfl ?_
  refine .op () rfl ?_
  refine .op _ ⟨rfl, rfl⟩ ?_
  refine .op () ⟨rfl, rfl⟩ ?_
  refine .op (some ⟨getKeyHash [0, 0, 110], 4096⟩) ⟨rfl, rfl⟩ ?_
  refine .op () ⟨rfl, rfl⟩ ?_
  refine .op _ ⟨rfl, rfl⟩ ?_
  refine .op () rfl ?_
  refine .op () rfl ?_
  -- the old entry is released
  refine .op _ ⟨rfl, rfl⟩ ?_
  refine .op () rfl ?_
  refine .op () ⟨rfl, rfl⟩ ?_
  refine .op _ ⟨rfl, rfl⟩ ?_
  refine .op () rfl ?_
  refine .returned ?_
  refine ⟨[], _, .nil _, rfl, rfl, ?_, rfl, ⟨rfl, rfl, fun side => rfl⟩, ⟨rfl, rfl⟩, rfl, rfl, rfl⟩
  repeat first | exact .head _ | refine .tail _ ?_

/-! ### Blocks in place -/

/-- What a worker is to release is live; and when every worker is between two requests, the live
blocks are those in use, each in one place. -/
structure InPlace (start : ℕ → Bool) (c : Workers τ) : Prop where
  /-- What is released. -/
  released : ∀ t b, At c t (.release b) → c.shared.live b = true
  /-- What is live. -/
  live : (∀ t, c.loc t = none) → ∀ b, c.shared.live b = true ↔ ∃ π : Place, π.Has start c.shared b
  /-- One place. -/
  uniq : (∀ t, c.loc t = none) → ∀ (π π' : Place) b, π.Has start c.shared b →
    π'.Has start c.shared b → π = π'

/-- Blocks are in place as long as nothing is written past one. -/
theorem blocks_in_place (h : Run (Provided Fits MachineStep) (Workers.init start) l c) :
    InPlace start c := by
  obtain ⟨g, ⟨owner, hS⟩, hc⟩ := reachable (run_of_fits h)
  have hrest (hidle : ∀ t, c.loc t = none) (t : τ) : (g t).AtRest := by
    have hr := hc t
    rwa [hidle t] at hr
  exact ⟨fun t b ht => blocks_live hS hc ht, fun hidle => live_iff_has hS (hrest hidle),
    fun hidle π π' b => place_uniq hS (hrest hidle)⟩

/-- After a SET that replaces an entry, which is released, the live blocks are two entries, a node
and the element of its list, each in its place. -/
theorem blocks_in_place_replaced :
    ∃ (l : List (Unit × Event)) (c : Workers Unit), ((), .did (.release 4096) ()) ∈ l ∧
    Replaced c.shared ∧
    ∀ b, c.shared.live b = true ↔ ∃ π : Place, π.Has (fun _ => false) c.shared b := by
  obtain ⟨l, c, hrun, hl, hidle, hmem, hs⟩ := gets_replaced
  exact ⟨l, c, hmem, hs, (blocks_in_place (hl.provided hrun)).live fun t => by rw [hidle]⟩

/-! ### A size that wraps round -/

/-- What is left when zeros are written behind a block. -/
def Process.zeroed (e bytes : ℕ) (s : Process τ) : Process τ where
  slotGuard := s.slotGuard
  entryGuard := fun b => if e < b ∧ b < e + bytes then none else s.entryGuard b
  keysLock := fun b => if e < b ∧ b < e + bytes then none else s.keysLock b
  mark := s.mark
  slots := s.slots
  entries := fun b => if e < b ∧ b < e + bytes then ⟨[], [], [], 0, 0, 0⟩ else s.entries b
  tag := fun b => if e < b ∧ b < e + bytes then [] else s.tag b
  child := fun b => if e < b ∧ b < e + bytes then fun _ => none else s.child b
  keys := fun b => if e < b ∧ b < e + bytes then [] else s.keys b
  live := s.live
  partition := fun b => if e < b ∧ b < e + bytes + padded sizeofBucket then 0 else s.partition b

theorem spilled_zeroed (e bytes : ℕ) (s : Process τ) : Spilled e bytes s (s.zeroed e bytes) where
  slotGuard := rfl
  slots := rfl
  mark := rfl
  live := rfl
  others b hb := by
    have hn : ¬ (e < b ∧ b < e + bytes) := by omega
    exact ⟨if_neg hn, if_neg hn, if_neg hn, if_neg hn, if_neg hn⟩
  keys n hn _ := if_neg (by omega)
  partition b hb := if_neg (by omega)

/-- More zeros are written than the block has. -/
theorem gets_zeroed {P : List (Unit × Event) → Workers Unit → Prop} {s : Process Unit} {e bytes : ℕ}
    {size : UInt32} {k : Unit → Program Reply} (n : ℕ) (hn : bytes = n)
    (hov : (Op.fill e size n).overruns = true)
    (h : Gets (fun l => P (((), .did (.fill e size bytes) ()) :: l)) (s.zeroed e n) (some (k ()))) :
    Gets P s (some (.op (.fill e size bytes) k)) := by
  subst hn
  exact .op (o := .fill e size bytes) () ((if_pos hov).mpr (spilled_zeroed e bytes s)) h

/-- A SET of the key `00 00 6E` with a value of 4294967295 bytes. -/
def hugeCall : Call :=
  ⟨⟨fun _ => 0, 0, 8⟩,
    ⟨fun i => [0x43, 0x69, 0x4B, 0x73, 3, 0, 0, 0, 0xFF, 0xFF, 0xFF, 0xFF, 0xFF, 0xFF, 0xFF,
      0xFF].getD i 0⟩⟩

/-- An element of a key list is live, and there is no list that has it. -/
structure Lost (s : Process Unit) : Prop where
  /-- The element. -/
  live : s.live 4960 = true
  /-- The slots of the two keys. -/
  slots : s.slots = Function.update (Function.update (Function.update (fun _ => none)
    (0, 0) (some ⟨getKeyHash [0, 0, 110], 4096⟩)) (0, 90) (some ⟨getKeyHash [0, 0, 0], 4384⟩))
    (0, 0) (some ⟨getKeyHash [0, 0, 110], 5248⟩)
  /-- The tree has the root and the node of the tag. -/
  child : s.child root .left = none ∧ s.child root .right = some 4672 ∧
    ∀ side, s.child 4672 side = none
  /-- Their lists are empty. -/
  keys : s.keys root = [] ∧ s.keys 4672 = []

/-- A SET whose size wraps round is given the block of the old entry, and sends 600 zeros. -/
theorem gets_lost {s : Process Unit} (hs : Replaced s) :
    Gets (fun _ c => c.loc = (fun _ => none) ∧ Lost c.shared) s none := by
  refine .call hugeCall ?_
  refine .op (StatusCode.ok, [110, 0, 0]) ⟨.inl ⟨rfl, rfl⟩, rfl⟩ ?_
  -- `reserve_and_lock_entry`
  refine .op true ⟨(congrArg Option.isNone hs.mark).symm, rfl⟩ ?_
  refine .op () rfl ?_
  refine .op (some 4096) ⟨hs.old, by decide, rfl⟩ ?_
  refine .op () ⟨0, rfl⟩ ?_
  refine .op () ⟨rfl, rfl⟩ ?_
  -- the value goes past the block, and breaks off
  refine .op _ ⟨rfl, rfl⟩ ?_
  refine .op () rfl ?_
  refine .op (StatusCode.connectionClosed, List.replicate 600 0) ⟨.inr (.inl rfl), rfl⟩ ?_
  refine gets_zeroed 675 (by rw [List.length_replicate]; rfl) rfl ?_
  refine .op () rfl ?_
  refine .op () ⟨rfl, rfl⟩ ?_
  refine .returned ?_
  exact ⟨[], _, .nil _, rfl, hs.elem, hs.slots, ⟨hs.child.1, hs.child.2.1, fun side => rfl⟩,
    hs.keys.1, rfl⟩

theorem Lost.inTree {s : Process Unit} (hs : Lost s) {n : ℕ} (h : InTree s.child n) : n = root ∨
    n = 4672 := by
  obtain ⟨hleft, hright, hnone⟩ := hs.child
  induction h with
  | root => exact Or.inl rfl
  | @child n m side _ hm ih =>
    rcases ih with rfl | rfl
    · cases side with
      | left => cases hleft.symm.trans hm
      | right =>
        cases hright.symm.trans hm
        exact Or.inr rfl
    · cases (hnone side).symm.trans hm

/-- The block of the element is in no place. -/
theorem Lost.not_has {s : Process Unit} (hs : Lost s) (π : Place) :
    ¬ π.Has (fun _ => false) s 4960 := by
  intro h
  generalize hb : 4960 = b at h
  cases h with
  | start hstart => cases hstart
  | @slot p m hm =>
    rw [hs.slots] at hm
    simp only [Function.update_apply] at hm
    split_ifs at hm
    · cases hm
      cases hb
    · cases hm
      cases hb
  | node hn hroot =>
    subst hb
    rcases hs.inTree hn with h | h <;> cases h
  | @elem n i elem hn hi =>
    rcases hs.inTree hn with rfl | rfl
    · rw [hs.keys.1] at hi
      cases hi
    · rw [hs.keys.2] at hi
      cases hi

/-- Something is live that is in no place, when a SET has written past its block. -/
theorem blocks_lost : ¬ ∀ (l : List (Unit × Event)) (c : Workers Unit),
    Run MachineStep (Workers.init fun _ => false) l c → InPlace (fun _ => false) c := by
  intro h
  obtain ⟨l₀, c₀, hrun₀, -, hidle₀, -, hs₀⟩ := gets_replaced
  obtain ⟨l, c, hrun, hidle, hs⟩ := gets_lost hs₀
  rw [← hidle₀] at hrun
  obtain ⟨π, hπ⟩ := ((h _ c (hrun₀.append hrun)).live (fun t => by rw [hidle]) 4960).mp hs.live
  exact hs.not_has π hπ

end Guarded

end Cik

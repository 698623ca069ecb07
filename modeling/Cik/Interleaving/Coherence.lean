import Cik.Interleaving.Fulfilment
import Cik.Interleaving.Informed

/-!
# The memory is coherent

What the workers know (`Cik.Interleaving.Beliefs`) is right in every state that they reach,
whatever the others do (`Coherent`): the operations fulfil the second contract beside the
first one (`beside`), with which it is known who has what.

An entry in a slot is one that was read for a SET, at the place of its key, unless the
worker that has the slot's guard is emptying the slot (`Genuine`); the nodes are an ordered
search tree, with lists in which no key is twice, and none that was not read with the tag
(`Indexed`).
-/

namespace Cik

namespace Guarded

open SearchTree

variable {τ : Type*} {l : List (τ × Event)} {s s' : Process τ} {t u : τ} {p : SlotPos}
  {b b' : Belief} {c : CacheEntry} {e n : ℕ}

/-! ### What was read -/

section Reads

variable [DecidableEq τ]

/-- What a step of its worker makes of the request that is handled. -/
def Handling.after (x : Option Handling) : Event → Option Handling
  | .call c => some ⟨c, []⟩
  | .did (.read _) r => if r.1 = .ok then x.map (·.append [r.2]) else x
  | _ => x

/-- A step that leaves it as it is. -/
def Unread (a : Event) : Prop := (∀ c, a ≠ .call c) ∧ ∀ n r, a ≠ .did (.read n) r

theorem unread_op {o : Op} {r : o.Answer} (ho : ∀ n, o ≠ .read n) : Unread (.did o r) := by
  refine ⟨by simp, ?_⟩
  rintro n r' ⟨⟩
  exact ho n rfl

theorem Handling.after_unread {a : Event} (ha : Unread a) (x : Option Handling) :
    Handling.after x a = x := by
  cases a with
  | call c => exact absurd rfl (ha.1 c)
  | did o r =>
    cases o with
    | read n => exact absurd rfl (ha.2 n r)
    | _ => rfl
  | _ => rfl

/-- The request that a worker handles, or has handled last, and what it has read for it. -/
def handled (t : τ) (l : List (τ × Event)) : Option Handling :=
  l.foldl (fun x a => if a.1 = t then Handling.after x a.2 else x) none

theorem handled_snoc {a : Event} (u : τ) :
    handled u (l ++ [(t, a)]) = if t = u then Handling.after (handled u l) a else handled u l := by
  rw [handled, List.foldl_append]
  rfl

theorem handled_snoc_of_ne {a : Event} (hu : u ≠ t) : handled u (l ++ [(t, a)]) = handled u l := by
  rw [handled_snoc, if_neg (Ne.symm hu)]

theorem handled_snoc_unread {a : Event} (ha : Unread a) (u : τ) :
    handled u (l ++ [(t, a)]) = handled u l := by
  rw [handled_snoc, Handling.after_unread ha, ite_self]

/-- At some time a worker had read just this entry for a SET. -/
def Offered (l : List (τ × Event)) (c : CacheEntry) : Prop :=
  ∃ u l' x, l' <+: l ∧ handled u l' = some x ∧ x.Sets c

theorem Offered.append (h : Offered l c) (l' : List (τ × Event)) : Offered (l ++ l') c := by
  obtain ⟨u, l₁, x, hl, hx, hc⟩ := h
  exact ⟨u, l₁, x, hl.trans (List.prefix_append l l'), hx, hc⟩

theorem Offered.same {c' : CacheEntry} (h : Offered l c) (hc : SameContent c c') :
    Offered l c' := by
  obtain ⟨u, l₁, x, hl, hx, hsets⟩ := h
  exact ⟨u, l₁, x, hl, hx, hsets.same hc⟩

end Reads

/-! ### Slots that are being emptied -/

/-- Whoever has the guard of the slot has released the entry, and is to clear the slot. -/
def Emptying (l : List (τ × Event)) (s : Process τ) (p : SlotPos) (e : ℕ) : Prop :=
  ∃ u, s.slotGuard p = some u ∧ Unemptied l u p e

theorem Emptying.snoc {a : τ × Event} (h : Emptying l s p e)
    (hguard : s'.slotGuard p = s.slotGuard p) (hlock : ∀ u, a ≠ (u, .did (.lock (.slot p)) ()))
    (hwrite : ∀ u v, a ≠ (u, .did (.writeSlot p v) ())) :
    Emptying (l ++ [a]) s' p e := by
  obtain ⟨u, hu, hun⟩ := h
  exact ⟨u, hguard.trans hu, unemptied_snoc.mpr (Or.inr ⟨hun, hlock u, hwrite u⟩)⟩

theorem Emptying.plain {a : Event} (h : Emptying l s p e) (hguard : s'.slotGuard p = s.slotGuard p)
    (ha : Plain a) :
    Emptying (l ++ [(t, a)]) s' p e := by
  obtain ⟨u, hu, hun⟩ := h
  exact ⟨u, hguard.trans hu, (unemptied_snoc_of_plain ha).mpr hun⟩

/-- The entry is in no slot but ones that are being emptied. -/
def Loose (l : List (τ × Event)) (s : Process τ) (e : ℕ) : Prop :=
  ∀ p m, s.slots p = some m → m.entry = e → Emptying l s p e

/-- What is in a slot was there before, and if the slot was being emptied it still is. -/
def KeepsSlots (l : List (τ × Event)) (s : Process τ) (l' : List (τ × Event)) (s' : Process τ) :
    Prop :=
  ∀ p m, s'.slots p = some m → s.slots p = some m ∧
    (Emptying l s p m.entry → Emptying l' s' p m.entry)

theorem KeepsSlots.loose {l' : List (τ × Event)} (h : KeepsSlots l s l' s') (he : Loose l s e) :
    Loose l' s' e := by
  rintro p m hm rfl
  exact (h p m hm).2 (he p m (h p m hm).1 rfl)

theorem keepsSlots_plain {a : Event} (ha : Plain a) (hguard : s'.slotGuard = s.slotGuard)
    (hslots : s'.slots = s.slots) :
    KeepsSlots l s (l ++ [(t, a)]) s' :=
  fun p m hm => ⟨by rwa [← hslots], fun he => he.plain (by rw [hguard]) ha⟩

namespace Sound

variable {start : ℕ → Bool} {owner : ℕ → Option (Owner τ)} {g : τ → Held}

/-- A block that a worker has is in no slot but ones that are being emptied. -/
theorem loose (hS : Sound start l owner (.of g) s) (he : owner e = some (.worker t)) :
    Loose l s e := by
  rintro p m hm rfl
  rcases hS.slots.owned p m hm with ho | ⟨u, hu⟩
  · rw [he] at ho
    cases ho
  · exact ⟨u, (hS.slotGuards.holds p u).mpr ⟨_, hu⟩, (hS.slotGuards.history u p _ m hu rfl).mpr rfl⟩

/-- The slot whose guard a worker has. -/
theorem slotGuard_eq {v : SlotView} (hS : Sound start l owner (.of g) s)
    (hv : (g t).slot = some (p, v)) :
    s.slotGuard p = some t := (hS.slotGuards.holds p t).mpr ⟨v, hv⟩

/-- It has no other one's. -/
theorem eq_of_slotGuard {v : SlotView} {q : SlotPos} (hS : Sound start l owner (.of g) s)
    (hv : (g t).slot = some (p, v)) (hq : s.slotGuard q = some t) : q = p := by
  obtain ⟨v', hv'⟩ := (hS.slotGuards.holds q t).mp hq
  have h : (g t).slot = some (q, v') := hv'
  rw [hv] at h
  exact (Prod.mk.inj (Option.some.inj h)).1.symm

/-- A worker that has not released the entry is not emptying the slot. -/
theorem not_emptying {v : SlotView} {m : MapSlot} (hS : Sound start l owner (.of g) s)
    (hv : (g t).slot = some (p, v)) (hm : s.slots p = some m) (hstale : v ≠ .stale m) :
    ¬ Emptying l s p m.entry := by
  rintro ⟨u, hu, hun⟩
  rw [hS.slotGuard_eq hv] at hu
  obtain rfl := Option.some.inj hu
  have hcontent : v.content = some m := (hS.slotGuards.content t p v hv).symm.trans hm
  exact hstale ((hS.slotGuards.history t p v m hv hcontent).mp hun)

theorem entryGuard_of_locked (hS : Sound start l owner (.of g) s) (he : e ∈ (g t).locked) :
    s.entryGuard e = some t :=
  (hS.entryGuards.holds e t).mpr (Or.inl he)

theorem entryGuard_of_mapped {M : Mapped} (hS : Sound start l owner (.of g) s)
    (hM : (g t).mapped = some M) :
    s.entryGuard M.slot.entry = some t := (hS.entryGuards.holds _ t).mpr (Or.inr ⟨M, hM, rfl⟩)

/-- A worker that may release the guard of an entry has it. -/
theorem entryGuard_of_unlock {Q : Unit → Held → Prop} (hS : Sound start l owner (.of g) s)
    (h : Held.spec (.unlock (.entry e)) Q (g t)) : s.entryGuard e = some t := by
  rcases h with ⟨-, p, m, c, hM, rfl, -⟩ | ⟨p, m, c, -, hM, rfl, -⟩ | ⟨es, hes, -⟩
  · exact hS.entryGuard_of_mapped hM
  · exact hS.entryGuard_of_mapped hM
  · exact hS.entryGuard_of_locked (by rw [hes]; exact Multiset.mem_cons_self e es)

/-- The node whose key list a worker has locked is in the tree. -/
theorem inTree_of_keys {ks : List KeyElem} (hS : Sound start l owner (.of g) s)
    (hk : (g t).keys = some (n, ks)) :
    InTree s.child n := (hS.keyLocks.content t n ks hk).2

end Sound

/-! ### What is coherent -/

section Coherent

variable [DecidableEq τ]

/-- What a worker knows of entries and slots, and what it has seen and read, is right. -/
structure Belief.Right (l : List (τ × Event)) (s : Process τ) (t : τ) (b : Belief) : Prop where
  /-- What is in the entries whose guards it has. -/
  entry : ∀ e c, b.entry e = some c → s.entryGuard e = some t ∧ s.entries e = c
  /-- Its new entries. -/
  fresh : ∀ e ∈ b.fresh, s.entryGuard e = some t ∧ Loose l s e
  /-- Whether it has a slot's guard. -/
  atSlot : b.atSlot = false → ∀ p, s.slotGuard p ≠ some t
  /-- What is in the slot. -/
  inSlot : ∀ o, b.inSlot = some o →
    ∃ p, s.slotGuard p = some t ∧ (s.slots p).map MapSlot.entry = o ∧ ∀ e, o = some e →
    ¬ Unemptied l t p e
  /-- An entry whose guard it has is new, or was read for a SET. -/
  guarded : ∀ e, s.entryGuard e = some t → e ∈ b.fresh ∨ Offered l (s.entries e)
  /-- What it has seen. -/
  seen : ∀ c ∈ b.seen, Offered l c
  /-- The request that it handles. -/
  handling : b.handling = handled t l

/-- What is stored is what was read for a SET, at its place. -/
structure Genuine (l : List (τ × Event)) (s : Process τ) : Prop where
  /-- The keys are no longer than a request can make them. -/
  short : ∀ e, (s.entries e).key.length ≤ 255
  /-- What is in a slot that is not being emptied. -/
  slots : ∀ p m, s.slots p = some m → Emptying l s p m.entry ∨
    (m.hash = getKeyHash (s.entries m.entry).key ∧ p.1 = getMapForKey (s.entries m.entry).key ∧
      Offered l (s.entries m.entry))

/-- An entry with the key and the tag was read for a SET. -/
def Listed (l : List (τ × Event)) (tag : CacheTag) (key : CacheKey) : Prop :=
  ∃ entry, Offered l entry ∧ entry.key = key ∧ tag ∈ entry.tags

theorem Listed.append {tag : CacheTag} {key : CacheKey} (h : Listed l tag key)
    (l' : List (τ × Event)) :
    Listed (l ++ l') tag key := by
  obtain ⟨entry, ho, hkey, htag⟩ := h
  exact ⟨entry, ho.append l', hkey, htag⟩

/-- The nodes are a search tree of key lists. -/
structure Indexed (l : List (τ × Event)) (tag : ℕ → CacheTag) (child : ℕ → Side → Option ℕ)
    (keys : ℕ → List KeyElem) (tree : SearchTree CacheTag ℕ) : Prop where
  /-- The tree of the nodes. -/
  represents : Represents tag child (some root) tree
  /-- It is ordered. -/
  ordered : tree.Ordered compareTags
  /-- No list has a key twice. -/
  proper : ∀ n, ProperKeys (keys n)
  /-- The keys in a list are keys of the tag. -/
  listed : ∀ n, InTree child n → ∀ elem ∈ keys n, Listed l (tag n) elem.key

theorem Indexed.append {tag : ℕ → CacheTag} {child : ℕ → Side → Option ℕ} {keys : ℕ → List KeyElem}
    {tree : SearchTree CacheTag ℕ} (h : Indexed l tag child keys tree) (l' : List (τ × Event)) :
    Indexed (l ++ l') tag child keys tree :=
  ⟨h.represents, h.ordered, h.proper, fun n hn elem he => (h.listed n hn elem he).append l'⟩

/-- What a worker knows of nodes is right; `node` is the new node that it has. -/
structure Belief.Leads (l : List (τ × Event)) (tag : ℕ → CacheTag) (child : ℕ → Side → Option ℕ)
    (tree : SearchTree CacheTag ℕ) (node : Option ℕ) (b : Belief) : Prop where
  /-- The tags of nodes. -/
  tags : ∀ n tag', b.tag n = some tag' → InTree child n ∧ tag n = tag'
  /-- What searches meet. -/
  paths : ∀ x ∈ b.path, x.1 ∈ tree.path compareTags x.2
  /-- Its new node. -/
  nodes : ∀ c tag', b.node = some (c, tag') → node = some c ∧ tag c = tag'
  /-- Keys that it has met in lists. -/
  keys : ∀ x ∈ b.listed, InTree child x.1 ∧ Listed l (tag x.1) x.2

theorem Belief.Leads.append {tag : ℕ → CacheTag} {child : ℕ → Side → Option ℕ}
    {tree : SearchTree CacheTag ℕ} {node : Option ℕ} (h : b.Leads l tag child tree node)
    (l' : List (τ × Event)) : b.Leads (l ++ l') tag child tree node :=
  ⟨h.tags, h.paths, h.nodes, fun x hx => (h.keys x hx).imp_right fun hl => hl.append l'⟩

/-- What the workers know is right. -/
structure Coherent (l : List (τ × Event)) (g : τ → Held) (β : τ → Belief) (s : Process τ) :
    Prop where
  /-- Of entries and slots. -/
  right : ∀ t, (β t).Right l s t
  /-- What is stored. -/
  genuine : Genuine l s
  /-- The tag index, and what they know of nodes. -/
  indexed : ∃ tree, Indexed l s.tag s.child s.keys tree ∧
    ∀ t, (β t).Leads l s.tag s.child tree (g t).node

variable {l' : List (τ × Event)} {g : τ → Held} {β : τ → Belief} {h' : Held}
  {tree : SearchTree CacheTag ℕ}

/-- The tag index after a step of a worker, which holds `h'` and knows `b'` then. -/
def Index (l' : List (τ × Event)) (g : τ → Held) (β : τ → Belief) (t : τ) (s' : Process τ)
    (h' : Held) (b' : Belief) : Prop :=
  ∃ tree, Indexed l' s'.tag s'.child s'.keys tree ∧
    (∀ u, u ≠ t → (β u).Leads l' s'.tag s'.child tree (g u).node) ∧
    b'.Leads l' s'.tag s'.child tree h'.node

/-- What each knows after a step of one of them. -/
theorem Coherent.step (hc : Coherent l g β s)
    (ho : ∀ u, u ≠ t → (β u).Right l s u → (β u).Right l' s' u) (ht : b'.Right l' s' t)
    (hs : Genuine l' s') (hi : Index l' g β t s' h' b') :
    Coherent l' (Function.update g t h') (Function.update β t b') s' where
  right := fun u => by
    by_cases hu : u = t
    · rw [hu, Function.update_self]
      exact ht
    · rw [Function.update_of_ne hu]
      exact ho u hu (hc.right u)
  genuine := hs
  indexed := by
    obtain ⟨tree, hin, hothers, hown⟩ := hi
    refine ⟨tree, hin, fun u => ?_⟩
    by_cases hu : u = t
    · rw [hu, Function.update_self, Function.update_self]
      exact hown
    · rw [Function.update_of_ne hu, Function.update_of_ne hu]
      exact hothers u hu

/-- What a worker knows of the tag index is as before. -/
structure SameIndex (b b' : Belief) : Prop where
  tag : b'.tag = b.tag
  path : b'.path = b.path
  node : b'.node = b.node
  listed : b'.listed = b.listed

theorem Belief.Leads.same {tag : ℕ → CacheTag} {child : ℕ → Side → Option ℕ} {node : Option ℕ}
    (h : b.Leads l tag child tree node) (hb : SameIndex b b') : b'.Leads l tag child tree node where
  tags := by
    rw [hb.tag]
    exact h.tags
  paths := by
    rw [hb.path]
    exact h.paths
  nodes := by
    rw [hb.node]
    exact h.nodes
  keys := by
    rw [hb.listed]
    exact h.keys

/-- The step has nothing to do with the tag index. -/
theorem Coherent.away {a : τ × Event} (hc : Coherent l g β s) (hn : h'.node = (g t).node)
    (hb : SameIndex (β t) b') :
    Index (l ++ [a]) g β t s h' b' := by
  obtain ⟨tree, hin, hl⟩ := hc.indexed
  refine ⟨tree, hin.append _, fun u _ => (hl u).append _, ?_⟩
  rw [hn]
  exact ((hl t).same hb).append _

/-- A step of another worker leaves right what a worker knows. -/
theorem Belief.Right.other {a : Event} (h : b.Right l s u) (hu : u ≠ t)
    (hentryGuard : ∀ e, s'.entryGuard e = some u ↔ s.entryGuard e = some u)
    (hentries : ∀ e, s.entryGuard e = some u → s'.entries e = s.entries e)
    (hslotGuard : ∀ p, s'.slotGuard p = some u ↔ s.slotGuard p = some u)
    (hslots : ∀ p, s.slotGuard p = some u → s'.slots p = s.slots p)
    (hloose : ∀ e, s.entryGuard e = some u → Loose l s e → Loose (l ++ [(t, a)]) s' e) :
    b.Right (l ++ [(t, a)]) s' u where
  entry := fun e c he => by
    obtain ⟨hg, hc⟩ := h.entry e c he
    exact ⟨(hentryGuard e).mpr hg, (hentries e hg).trans hc⟩
  fresh := fun e he => by
    obtain ⟨hg, hl⟩ := h.fresh e he
    exact ⟨(hentryGuard e).mpr hg, hloose e hg hl⟩
  atSlot := fun hat p hp => h.atSlot hat p ((hslotGuard p).mp hp)
  inSlot := fun o ho => by
    obtain ⟨p, hp, hm, hun⟩ := h.inSlot o ho
    refine ⟨p, (hslotGuard p).mpr hp, by rwa [hslots p hp], fun e he => ?_⟩
    rw [unemptied_snoc_other hu]
    exact hun e he
  guarded := fun e he => by
    have hg := (hentryGuard e).mp he
    rw [hentries e hg]
    exact (h.guarded e hg).imp_right fun ho => ho.append _
  seen := fun c hc => (h.seen c hc).append _
  handling := by rw [h.handling, handled_snoc_of_ne hu]

/-- Slots and entries are as before, and so are their guards. -/
structure SameEntries (s s' : Process τ) : Prop where
  entryGuard : s'.entryGuard = s.entryGuard
  entries : s'.entries = s.entries
  slotGuard : s'.slotGuard = s.slotGuard
  slots : s'.slots = s.slots

/-- What a worker knows of slots and entries is as before. -/
structure SameView (b b' : Belief) : Prop where
  entry : b'.entry = b.entry
  fresh : b'.fresh = b.fresh
  atSlot : b'.atSlot = b.atSlot
  inSlot : b'.inSlot = b.inSlot
  seen : b'.seen = b.seen

theorem SameView.refl (b : Belief) : SameView b b := ⟨rfl, rfl, rfl, rfl, rfl⟩

/-- What was read before is read, and what was being emptied is. -/
theorem Belief.Right.of_keeps {a : Event} (hkeep : KeepsSlots l s (l ++ [(t, a)]) s')
    (hentry : ∀ e c, b.entry e = some c → s'.entryGuard e = some u ∧ s'.entries e = c)
    (hfresh : ∀ e ∈ b.fresh, s'.entryGuard e = some u ∧ Loose l s e)
    (hat : b.atSlot = false → ∀ p, s'.slotGuard p ≠ some u)
    (hin : ∀ o, b.inSlot = some o → ∃ p, s'.slotGuard p = some u ∧
      (s'.slots p).map MapSlot.entry = o ∧ ∀ e, o = some e → ¬ Unemptied (l ++ [(t, a)]) u p e)
    (hguarded : ∀ e, s'.entryGuard e = some u → e ∈ b.fresh ∨ Offered l (s'.entries e))
    (hseen : ∀ c ∈ b.seen, Offered l c) (hx : b.handling = handled u (l ++ [(t, a)])) :
    b.Right (l ++ [(t, a)]) s' u :=
  ⟨hentry, fun e he => ⟨(hfresh e he).1, hkeep.loose (hfresh e he).2⟩, hat, hin,
    fun e he => (hguarded e he).imp_right fun ho => ho.append _, fun c hc =>
    (hseen c hc).append _, hx⟩

theorem Belief.Right.handling_snoc {a : Event} (h : b.Right l s u) (ha : Unread a) :
    b.handling = handled u (l ++ [(t, a)]) := by rw [handled_snoc_unread ha, h.handling]

theorem Belief.Right.inSlot_plain {a : Event} (h : b.Right l s u) (ha : Plain a)
    (hguard : s'.slotGuard = s.slotGuard) (hslots : s'.slots = s.slots) (o : Option ℕ)
    (ho : b.inSlot = some o) : ∃ p, s'.slotGuard p = some u ∧
      (s'.slots p).map MapSlot.entry = o ∧ ∀ e, o = some e → ¬ Unemptied (l ++ [(t, a)]) u p e := by
  obtain ⟨p, hp, hm, hun⟩ := h.inSlot o ho
  refine ⟨p, by rwa [hguard], by rwa [hslots], fun e he => ?_⟩
  rw [unemptied_snoc_of_plain ha]
  exact hun e he

/-- What a worker knows after an operation that has nothing to do with slots and entries. -/
theorem Belief.Right.plain {a : Event} (h : b.Right l s u) (ha : Plain a) (hs : SameEntries s s')
    (hb : SameView b b') (hx : b'.handling = handled u (l ++ [(t, a)])) :
    b'.Right (l ++ [(t, a)]) s' u := by
  refine .of_keeps (keepsSlots_plain ha hs.slotGuard hs.slots) ?_ ?_ ?_ ?_ ?_ ?_ hx
  · rw [hb.entry, hs.entryGuard, hs.entries]
    exact h.entry
  · rw [hb.fresh, hs.entryGuard]
    exact h.fresh
  · rw [hb.atSlot, hs.slotGuard]
    exact h.atSlot
  · rw [hb.inSlot]
    exact h.inSlot_plain ha hs.slotGuard hs.slots
  · rw [hb.fresh, hs.entryGuard, hs.entries]
    exact h.guarded
  · rw [hb.seen]
    exact h.seen

/-- What is stored after an operation that has nothing to do with slots and entries. -/
theorem Genuine.plain {a : Event} (h : Genuine l s) (ha : Plain a) (hs : SameEntries s s') :
    Genuine (l ++ [(t, a)]) s' := by
  refine ⟨fun e => by rw [hs.entries]; exact h.short e, fun p m hm => ?_⟩
  rw [hs.entries]
  rcases h.slots p m (by rwa [← hs.slots]) with he | ⟨hhash, hmap, ho⟩
  · exact Or.inl (he.plain (by rw [hs.slotGuard]) ha)
  · exact Or.inr ⟨hhash, hmap, ho.append _⟩

/-- An operation that has nothing to do with slots and entries. -/
theorem Coherent.plain {o : Op} {r : o.Answer} (hc : Coherent l g β s) (ha : Plain (.did o r))
    (hread : ∀ n, o ≠ .read n) (hs : SameEntries s s') (hb : SameView (β t) b')
    (hx : b'.handling = (β t).handling) (hi : Index (l ++ [(t, .did o r)]) g β t s' h' b') :
    Coherent (l ++ [(t, .did o r)]) (Function.update g t h') (Function.update β t b') s' := by
  have hunread : Unread (.did o r) := unread_op hread
  refine hc.step (fun u _ h => h.plain ha hs (.refl _) ?_) ((hc.right t).plain ha hs hb ?_)
    (hc.genuine.plain ha hs) hi
  · rw [handled_snoc_unread hunread, h.handling]
  · rw [handled_snoc_unread hunread, hx, (hc.right t).handling]

/-! ### Operations -/

variable {start : ℕ → Bool}

/-- What becomes of a worker's new node. -/
def Held.NodeAfter : Op → Held → Held → Prop
  | .initNode n _, _, h' => h'.node = some n
  | .exchangeChild _ _ _, _, _ => True
  | _, h, h' => h'.node = h.node

/-- The operations leave the node as it is, but for those that are about it. -/
theorem Held.spec_nodeAfter (o : Op) (Q : o.Answer → Held → Prop) (h : Held)
    (hs : Held.spec o Q h) :
    Held.spec o (fun r h' => Q r h' ∧ Held.NodeAfter o h h') h := by
  cases o with
  | lock g => cases g <;> grind [Held.spec, Held.NodeAfter]
  | tryLock g => cases g <;> grind [Held.spec, Held.NodeAfter]
  | unlock g => cases g <;> grind [Held.spec, Held.NodeAfter]
  | writeSlot p v => cases v <;> grind [Held.spec, Held.NodeAfter]
  | crash => trivial
  | _ => grind [Held.spec, Held.NodeAfter]

/-- A worker that may do the operation does it, and what the workers know is right as before. -/
def Advised (τ : Type*) [DecidableEq τ] (start : ℕ → Bool) (o : Op) : Prop :=
  ∀ (l : List (τ × Event)) g (β : τ → Belief) (s : Process τ) t r s' Q₁ Q₂ h', Agrees start l g s →
    Coherent l g β s → Held.spec o Q₁ (g t) → Belief.spec o Q₂ (β t) → Op.act t s o r s' →
    Held.NodeAfter o (g t) h' →
      ∃ b', Q₂ r b' ∧
      Coherent (l ++ [(t, .did o r)]) (Function.update g t h') (Function.update β t b') s'

/-- An operation that has nothing to do with slots, entries and the tag index, and tells nothing. -/
theorem advised_aside {o : Op} (hplain : ∀ r, Plain (.did o r)) (hread : ∀ n, o ≠ .read n)
    (hspec : ∀ Q b, Belief.spec o Q b → ∀ r, Q r b)
    (hnode : ∀ h h', Held.NodeAfter o h h' → h'.node = h.node)
    (hact : ∀ (t : τ) s r s', Op.act t s o r s' → SameEntries s s' ∧ s'.tag = s.tag ∧
      s'.child = s.child ∧ s'.keys = s.keys) :
    Advised τ start o := by
  intro l g β s t r s' Q₁ Q₂ h' hJ hc hs₁ hs₂ ha hn
  obtain ⟨hsame, htag, hchild, hkeys⟩ := hact t s r s' ha
  refine ⟨β t, hspec Q₂ (β t) hs₂ r, hc.plain (hplain r) hread hsame (.refl _) rfl ?_⟩
  rw [Index, htag, hchild, hkeys]
  exact hc.away (hnode _ _ hn) ⟨rfl, rfl, rfl, rfl⟩

theorem advised_lock_keys (n : ℕ) : Advised τ start (.lock (.keys n)) := by
  refine advised_aside (fun _ => trivial) (by simp) (fun Q b hQ => hQ) (fun _ _ hn => hn) ?_
  rintro t s r s' ⟨-, rfl⟩
  exact ⟨⟨rfl, rfl, rfl, rfl⟩, rfl, rfl, rfl⟩

theorem advised_tryLock_list (p : ℕ) : Advised τ start (.tryLock (.list p)) := by
  refine advised_aside (fun _ => trivial) (by simp) (fun Q b hQ => hQ) (fun _ _ hn => hn) ?_
  rintro t s r s' ⟨-, rfl⟩
  cases r <;> exact ⟨⟨rfl, rfl, rfl, rfl⟩, rfl, rfl, rfl⟩

theorem advised_unlock_keys (n : ℕ) : Advised τ start (.unlock (.keys n)) := by
  refine advised_aside (fun _ => trivial) (by simp) (fun Q b hQ => hQ) (fun _ _ hn => hn) ?_
  rintro t s r s' rfl
  exact ⟨⟨rfl, rfl, rfl, rfl⟩, rfl, rfl, rfl⟩

theorem advised_unlock_list (p : ℕ) : Advised τ start (.unlock (.list p)) := by
  refine advised_aside (fun _ => trivial) (by simp) (fun Q b hQ => hQ) (fun _ _ hn => hn) ?_
  rintro t s r s' rfl
  exact ⟨⟨rfl, rfl, rfl, rfl⟩, rfl, rfl, rfl⟩

theorem advised_bucket (p : ℕ) : Advised τ start (.bucket p) := by
  refine advised_aside (fun _ => trivial) (by simp) (fun Q b hQ => hQ)
    (fun _ _ hn => hn) fun t s r s' ha => ?_
  cases r with
  | none =>
    obtain rfl : s' = s := ha
    exact ⟨⟨rfl, rfl, rfl, rfl⟩, rfl, rfl, rfl⟩
  | some b =>
    obtain ⟨-, -, rfl⟩ := ha
    exact ⟨⟨rfl, rfl, rfl, rfl⟩, rfl, rfl, rfl⟩

theorem advised_time : Advised τ start .time := by
  refine advised_aside (fun _ => trivial) (by simp) (fun Q b hQ => hQ) (fun _ _ hn => hn) ?_
  rintro t s r s' rfl
  exact ⟨⟨rfl, rfl, rfl, rfl⟩, rfl, rfl, rfl⟩

theorem advised_fill (e : ℕ) (size : UInt32) (bytes : ℕ) :
    Advised τ start (.fill e size bytes) := by
  refine advised_aside (fun _ => trivial) (by simp) (fun Q b hQ => hQ) (fun _ _ hn => hn) ?_
  rintro t s r s' rfl
  exact ⟨⟨rfl, rfl, rfl, rfl⟩, rfl, rfl, rfl⟩

theorem advised_info : Advised τ start .info := by
  refine advised_aside (fun _ => trivial) (by simp) (fun Q b hQ => hQ) (fun _ _ hn => hn) ?_
  rintro t s r s' rfl
  exact ⟨⟨rfl, rfl, rfl, rfl⟩, rfl, rfl, rfl⟩

/-! ### The tag index -/

section Tree

variable {tag : ℕ → CacheTag} {child : ℕ → Side → Option ℕ} {keys : ℕ → List KeyElem}

/-- The nodes of the tree that hangs at the root are those that are in it. -/
theorem inTree_iff_mem (h : Represents tag child (some root) tree) : InTree child n ↔
    n ∈ tree.toList.map Prod.snd := by
  constructor
  · intro hn
    induction hn with
    | root => exact h.root_mem
    | child _ hc ih => exact h.child_mem ih hc
  · suffices hsub : ∀ o tree, Represents tag child o tree → (∀ m, o = some m → InTree child m) →
        ∀ n ∈ tree.toList.map Prod.snd,
        InTree child n from hsub _ _ h (by rintro m ⟨⟩; exact .root) n
    intro o tree h
    induction h with
    | nil => exact fun _ n hn => absurd hn List.not_mem_nil
    | @node m l r _ _ ihl ihr =>
      intro ho n hn
      have hm : InTree child m := ho m rfl
      rw [toList, List.map_append, List.map_cons, List.mem_append, List.mem_cons] at hn
      rcases hn with hn | rfl | hn
      · exact ihl (fun c hc => hm.child hc) n hn
      · exact hm
      · exact ihr (fun c hc => hm.child hc) n hn

end Tree

theorem advised_readTag (n : ℕ) : Advised τ start (.readTag n) := by
  rintro l g β s t r s' Q₁ Q₂ h' ⟨owner, hS⟩ hc ⟨hknows, -⟩ hQ ⟨rfl, rfl⟩ hn
  refine ⟨_, hQ _, hc.plain trivial (by simp) ⟨rfl, rfl, rfl, rfl⟩ ⟨rfl, rfl, rfl, rfl, rfl⟩ rfl ?_⟩
  obtain ⟨tree, hin, hothers, hl⟩ := hc.away hn (⟨rfl, rfl, rfl, rfl⟩ : SameIndex (β t) (β t))
  refine ⟨tree, hin, hothers, fun m tag' hm => ?_, hl.paths, hl.nodes, hl.keys⟩
  change Function.update (β t).tag n (some (s'.tag n)) m = some tag' at hm
  by_cases hmn : m = n
  · subst hmn
    rw [Function.update_self] at hm
    exact ⟨hS.inTree_of_knows hknows, Option.some.inj hm⟩
  · rw [Function.update_of_ne hmn] at hm
    exact hl.tags m tag' hm

/-- What a worker knows of a search is so. -/
theorem Belief.Leads.mem_path {tag : ℕ → CacheTag} {child : ℕ → Side → Option ℕ}
    {keys : ℕ → List KeyElem} {node : Option ℕ} {side : Side} {tag' : CacheTag}
    (h : b.Leads l tag child tree node) (hin : Indexed l tag child keys tree)
    (hb : b.GoesTo n side tag') : n ∈ tree.path compareTags tag' ∧
    compareTags tag' (tag n) = side.ordering := by
  obtain ⟨hmeets, tag'', htag, hcmp⟩ := hb
  refine ⟨?_, by rwa [(h.tags n tag'' htag).2]⟩
  rcases hmeets with rfl | hmeets
  · exact hin.represents.root_mem_path
  · exact h.paths _ hmeets

theorem advised_readChild (n : ℕ) (side : Side) : Advised τ start (.readChild n side) := by
  rintro l g β s t r s' Q₁ Q₂ h' - hc - ⟨hnone, hsome⟩ ⟨rfl, rfl⟩ hn
  cases hchild : s'.child n side with
  | none =>
    exact ⟨_, hnone, hc.plain trivial (by simp) ⟨rfl, rfl, rfl, rfl⟩ (.refl _) rfl
      (hc.away hn ⟨rfl, rfl, rfl, rfl⟩)⟩
  | some c =>
    refine ⟨_, hsome c,
      hc.plain trivial (by simp) ⟨rfl, rfl, rfl, rfl⟩ ⟨rfl, rfl, rfl, rfl, rfl⟩ rfl ?_⟩
    obtain ⟨tree, hin, hothers, hl⟩ := hc.away hn (⟨rfl, rfl, rfl, rfl⟩ : SameIndex (β t) (β t))
    refine ⟨tree, hin, hothers, hl.tags, ?_, hl.nodes, hl.keys⟩
    rintro ⟨m, tag'⟩ (hx | ⟨rfl, hx⟩)
    · exact hl.paths _ hx
    · obtain ⟨hpath, hcmp⟩ := hl.mem_path hin hx
      exact hin.represents.child_mem_path hpath hcmp hchild

theorem advised_readKeys (n : ℕ) : Advised τ start (.readKeys n) := by
  rintro l g β s t r s' Q₁ Q₂ h' ⟨owner, hS⟩ hc ⟨ks, hks, -⟩ hQ ⟨rfl, rfl⟩ hn
  obtain ⟨tree, hin, hothers, hl⟩ := hc.away hn (⟨rfl, rfl, rfl, rfl⟩ : SameIndex (β t) (β t))
  refine ⟨_, hQ _ (hin.proper n),
    hc.plain trivial (by simp) ⟨rfl, rfl, rfl, rfl⟩ ⟨rfl, rfl, rfl, rfl, rfl⟩ rfl
    ⟨tree, hin, hothers, hl.tags, hl.paths, hl.nodes, ?_⟩⟩
  rintro ⟨m, key⟩ (hx | ⟨rfl, hx⟩)
  · exact hl.keys _ hx
  · obtain ⟨elem, he, rfl⟩ := List.mem_map.mp hx
    exact ⟨hS.inTree_of_keys hks, hin.listed m (hS.inTree_of_keys hks) elem he⟩

theorem advised_writeKeys (n : ℕ) (ks : List KeyElem) : Advised τ start (.writeKeys n ks) := by
  rintro l g β s t r s' Q₁ Q₂ h' - hc - ⟨hks, hlists, hQ⟩ rfl hn
  obtain ⟨tree, hin, hothers, hl⟩ :=
    hc.away (a := (t, Prog.Event.did (Op.writeKeys n ks) r)) hn
    (⟨rfl, rfl, rfl, rfl⟩ : SameIndex (β t) (β t))
  refine ⟨_, hQ, hc.plain trivial (by simp) ⟨rfl, rfl, rfl, rfl⟩ (.refl _) rfl
    ⟨tree, ⟨hin.represents, hin.ordered, fun m => ?_, fun m hm => ?_⟩, hothers, hl⟩⟩
  · change ProperKeys (Function.update s.keys n ks m)
    by_cases hm : m = n
    · rw [hm, Function.update_self]
      exact hks
    · rw [Function.update_of_ne hm]
      exact hin.proper m
  · change ∀ elem ∈ Function.update s.keys n ks m, _
    by_cases hmn : m = n
    · subst hmn
      rw [Function.update_self]
      intro elem he
      rcases hlists elem he with hmet | ⟨entry, hseen, hkey, tag, htag, hb⟩
      · exact (hl.keys _ hmet).2
      · refine ⟨entry, ((hc.right t).seen entry hseen).append _, hkey, ?_⟩
        rwa [show ({ s with keys := Function.update s.keys m ks } : Process τ).tag m =
          tag from (hl.tags m tag hb).2]
    · rw [Function.update_of_ne hmn]
      exact hin.listed m hm

theorem advised_initNode (n : ℕ) (tag : CacheTag) : Advised τ start (.initNode n tag) := by
  rintro l g β s t r s' Q₁ Q₂ h' ⟨owner, hS⟩ hc ⟨-, bs, hbs, -⟩ hQ rfl hn
  have hown : owner n = some (.worker t) :=
    hS.owner_of_blocks (by rw [hbs]; exact Multiset.mem_cons_self n bs)
  have hnot : ¬ InTree s.child n := hS.not_inTree hown
  refine ⟨_, hQ, hc.plain trivial (by simp) ⟨rfl, rfl, rfl, rfl⟩ ⟨rfl, rfl, rfl, rfl, rfl⟩ rfl ?_⟩
  obtain ⟨tree, hin, hl⟩ := hc.indexed
  -- nothing changes in the tree
  have hne (m : ℕ) (hm : InTree s.child m) : m ≠ n := by
    rintro rfl
    exact hnot hm
  have htree (m : ℕ) (hm : m ∈ tree.toList.map Prod.snd) : m ≠ n :=
    hne m ((inTree_iff_mem hin.represents).mpr hm)
  have htags (u : τ) (m : ℕ) (tag' : CacheTag) (hm : (β u).tag m = some tag') :
      InTree (Function.update s.child n fun _ => none) m ∧
      Function.update s.tag n tag m = tag' := by
    obtain ⟨hm', htag'⟩ := (hl u).tags m tag' hm
    exact ⟨(inTree_update_of_not hnot _).mpr hm',
      (Function.update_of_ne (hne m hm') ..).trans htag'⟩
  have hkeys (u : τ) (x : ℕ × CacheKey) (hx : x ∈ (β u).listed) :
    InTree (Function.update s.child n fun _ => none) x.1 ∧
      Listed (l ++ [(t, Prog.Event.did (Op.initNode n tag) r)])
        (Function.update s.tag n tag x.1) x.2 := by
    obtain ⟨hm, hlisted⟩ := (hl u).keys x hx
    rw [Function.update_of_ne (hne x.1 hm)]
    exact ⟨(inTree_update_of_not hnot _).mpr hm, hlisted.append _⟩
  refine ⟨tree, ⟨hin.represents.congr fun m hm => ?_, hin.ordered, fun m => ?_, fun m hm => ?_⟩,
    fun u hu => ?_, ?_⟩
  · exact ⟨Function.update_of_ne (htree m hm) .., Function.update_of_ne (htree m hm) ..⟩
  · change ProperKeys (Function.update s.keys n [] m)
    by_cases hm : m = n
    · rw [hm, Function.update_self]
      exact properKeys_nil
    · rw [Function.update_of_ne hm]
      exact hin.proper m
  · have hm' := (inTree_update_of_not hnot _).mp hm
    change ∀ elem ∈ Function.update s.keys n [] m, Listed _ (Function.update s.tag n tag m) elem.key
    rw [Function.update_of_ne (hne m hm'), Function.update_of_ne (hne m hm')]
    exact fun elem he => (hin.listed m hm' elem he).append _
  · refine ⟨htags u, (hl u).paths, fun c tag' hb => ?_, hkeys u⟩
    obtain ⟨hc', htag'⟩ := (hl u).nodes c tag' hb
    refine ⟨hc', (Function.update_of_ne ?_ ..).trans htag'⟩
    rintro rfl
    have hu' := hS.owner_of_node hc'
    rw [hown] at hu'
    exact hu (Owner.worker.inj (Option.some.inj hu')).symm
  · refine ⟨htags t, (hl t).paths, ?_, hkeys t⟩
    rintro c tag' ⟨⟩
    exact ⟨hn, Function.update_self ..⟩

theorem advised_exchangeChild (n : ℕ) (side : Side) (c : ℕ) :
    Advised τ start (.exchangeChild n side c) := by
  rintro l g β s t r s' Q₁ Q₂ h' ⟨owner, hS⟩ hc ⟨hknows, hnode, -⟩
    ⟨tag, hb, hgoes, htrue, hfalse⟩ ⟨rfl, rfl⟩ -
  obtain ⟨tree, hin, hl⟩ := hc.indexed
  cases hchild : s.child n side with
  | some m =>
    simp only [Option.isNone_some, Bool.false_eq_true, if_false]
    refine ⟨_, hfalse,
      hc.plain trivial (by simp) ⟨rfl, rfl, rfl, rfl⟩ ⟨rfl, rfl, rfl, rfl, rfl⟩ rfl ?_⟩
    have ht := (hl t).append [(t, Prog.Event.did (Op.exchangeChild n side c) false)]
    exact ⟨tree, hin.append _, fun u _ => (hl u).append _, ht.tags, ht.paths, by simp, ht.keys⟩
  | none =>
    simp only [Option.isNone_none, if_true]
    refine ⟨_, htrue,
      hc.plain trivial (by simp) ⟨rfl, rfl, rfl, rfl⟩ ⟨rfl, rfl, rfl, rfl, rfl⟩ rfl ?_⟩
    have hnin : InTree s.child n := hS.inTree_of_knows hknows
    obtain ⟨hleaf, hempty⟩ := hS.nodes.fresh t c hnode
    have hnc : n ≠ c := (hS.node_ne hnin hnode).symm
    obtain ⟨hpath, hcmp⟩ := (hl t).mem_path hin hgoes
    have htag : s.tag c = tag := ((hl t).nodes c tag hb).2
    have hcnot : c ∉ tree.toList.map Prod.snd := fun hm =>
      hS.not_inTree (hS.owner_of_node hnode) ((inTree_iff_mem hin.represents).mpr hm)
    have hside :
        Function.update s.child n (Function.update (s.child n) side (some c)) n side = some c := by
      rw [Function.update_self, Function.update_self]
    have hrep :=
      hin.represents.link hin.ordered hpath hcmp hchild htag hleaf hcnot hside fun m s' hms => by
      by_cases hm : m = n
      · subst hm
        rw [Function.update_self, Function.update_of_ne (hms.resolve_left fun h => h rfl)]
      · rw [Function.update_of_ne hm]
    have hiff (m : ℕ) := inTree_exchange (m := m) hnin hchild hleaf hnc
    have htags (u : τ) (m : ℕ) (tag' : CacheTag) (hm : (β u).tag m = some tag') :
        InTree (Function.update s.child n (Function.update (s.child n) side (some c))) m ∧
        s.tag m = tag' :=
      ((hl u).tags m tag' hm).imp_left fun hm => (hiff m).mpr (Or.inl hm)
    have hkeys (u : τ) (x : ℕ × CacheKey) (hx : x ∈ (β u).listed) :
        InTree (Function.update s.child n (Function.update (s.child n) side (some c))) x.1 ∧
          Listed (l ++ [(t, Prog.Event.did (Op.exchangeChild n side c) true)]) (s.tag x.1) x.2 :=
      ((hl u).keys x hx).imp (fun hm => (hiff x.1).mpr (Or.inl hm)) fun h => h.append _
    refine ⟨_, ⟨hrep, hin.ordered.insertNew tag c, hin.proper, fun m hm elem he => ?_⟩, fun u _ =>
      ⟨htags u, fun x hx => ?_, (hl u).nodes, hkeys u⟩, htags t, ?_, by simp, hkeys t⟩
    · rcases (hiff m).mp hm with hm | rfl
      · exact (hin.listed m hm elem he).append _
      · rw [hempty] at he
        cases he
    · exact mem_path_insertNew ((hl u).paths x hx)
    · rintro x (rfl | hx)
      · exact hrep.child_mem_path (mem_path_insertNew hpath) hcmp hside
      · exact mem_path_insertNew ((hl t).paths x hx)

/-! ### Reading from the client -/

theorem advised_read (nmemb : ℕ) : Advised τ start (.read nmemb) := by
  rintro l g β s t r s' Q₁ Q₂ h' - hc - hQ ⟨hr, rfl⟩ hn
  have hsame (more : List (List UInt8)) :
    SameView (β t) (if r.1 = .ok then (β t).hear more else β t) ∧
      SameIndex (β t) (if r.1 = .ok then (β t).hear more else β t) := by
    split_ifs
    · exact ⟨⟨rfl, rfl, rfl, rfl, rfl⟩, rfl, rfl, rfl, rfl⟩
    · exact ⟨.refl _, rfl, rfl, rfl, rfl⟩
  refine ⟨_, hQ r fun hok => ?_,
    hc.step (fun u hu h => h.plain trivial ⟨rfl, rfl, rfl, rfl⟩ (.refl _) ?_)
    ((hc.right t).plain trivial ⟨rfl, rfl, rfl, rfl⟩ (hsame _).1 ?_)
    (hc.genuine.plain trivial ⟨rfl, rfl, rfl, rfl⟩) (hc.away hn (hsame _).2)⟩
  · rcases hr with hr | hr | hr
    · exact hr.2
    · rw [hok] at hr
      cases hr
    · rw [hok] at hr
      cases hr
  · rw [handled_snoc_of_ne hu, h.handling]
  · rw [handled_snoc, if_pos rfl, ← (hc.right t).handling, apply_ite Belief.handling]
    rfl

/-! ### The guards of slots -/

theorem KeepsSlots.genuine {a : τ × Event} (h : KeepsSlots l s (l ++ [a]) s') (hs : Genuine l s)
    (hentries : s'.entries = s.entries) :
    Genuine (l ++ [a]) s' := by
  refine ⟨fun e => by rw [hentries]; exact hs.short e, fun p m hm => ?_⟩
  rw [hentries]
  rcases hs.slots p m (h p m hm).1 with he | ⟨hhash, hmap, ho⟩
  · exact Or.inl ((h p m hm).2 he)
  · exact Or.inr ⟨hhash, hmap, ho.append _⟩

theorem advised_lock_slot (p : SlotPos) : Advised τ start (.lock (.slot p)) := by
  rintro l g β s t r s' Q₁ Q₂ h' - hc - hQ ⟨hnone, rfl⟩ hn
  have hkeep :
      KeepsSlots l s (l ++ [(t, Prog.Event.did (Op.lock (.slot p)) r)])
      (s.setHolder (.slot p) (some t)) := by
    intro q m hm
    refine ⟨hm, fun he => ?_⟩
    -- nobody is emptying the slot whose guard is taken
    have hq : q ≠ p := by
      rintro rfl
      obtain ⟨u, hu, -⟩ := he
      rw [show s.slotGuard q = none from hnone] at hu
      cases hu
    refine he.snoc (Function.update_of_ne hq ..) (fun u hu => ?_) (by simp)
    cases hu
    exact hq rfl
  have ht := hc.right t
  refine ⟨_, hQ ((s.slots p).map MapSlot.entry),
    hc.step (fun u hu h => ?_) ?_ (hkeep.genuine hc.genuine rfl) (hc.away hn ⟨rfl, rfl, rfl, rfl⟩)⟩
  · refine h.other hu (fun _ => Iff.rfl) (fun _ _ => rfl) (fun q => ?_)
      (fun _ _ => rfl) fun e _ he => hkeep.loose he
    refine update_keeps ?_ (fun he => hu (Option.some.inj he).symm) q
    rw [show s.slotGuard p = none from hnone]
    exact (Option.some_ne_none u).symm
  · refine .of_keeps hkeep ht.entry ht.fresh (by simp) ?_ ht.guarded ht.seen
      (ht.handling_snoc (unread_op (by simp)))
    rintro o ⟨⟩
    exact ⟨p, Function.update_self .., rfl, fun e _ => not_unemptied_lock⟩

theorem advised_unlock_slot (p : SlotPos) : Advised τ start (.unlock (.slot p)) := by
  rintro l g β s t r s' Q₁ Q₂ h' ⟨owner, hS⟩ hc ⟨v, hv, hstale, -⟩ hQ rfl hn
  have hkeep :
      KeepsSlots l s (l ++ [(t, Prog.Event.did (Op.unlock (.slot p)) r)])
      (s.setHolder (.slot p) none) := by
    intro q m hm
    refine ⟨hm, fun he => ?_⟩
    -- the worker has not released the entry in the slot
    have hq : q ≠ p := by
      rintro rfl
      exact hS.not_emptying hv hm (hstale m) he
    exact he.snoc (Function.update_of_ne hq ..) (by simp) (by simp)
  have ht := hc.right t
  have hguard := hS.slotGuard_eq hv
  refine ⟨_, hQ, hc.step (fun u hu h => ?_) ?_ (hkeep.genuine hc.genuine rfl)
    (hc.away hn ⟨rfl, rfl, rfl, rfl⟩)⟩
  · refine h.other hu (fun _ => Iff.rfl) (fun _ _ => rfl) (fun q => ?_)
      (fun _ _ => rfl) fun e _ he => hkeep.loose he
    refine update_keeps ?_ (Option.some_ne_none u).symm q
    rw [hguard]
    exact fun he => hu (Option.some.inj he).symm
  · refine .of_keeps hkeep ht.entry ht.fresh (fun _ q hq => ?_) (by simp) ht.guarded ht.seen
      (ht.handling_snoc (unread_op (by simp)))
    change Function.update s.slotGuard p none q = some t at hq
    by_cases hqp : q = p
    · rw [hqp, Function.update_self] at hq
      cases hq
    · rw [Function.update_of_ne hqp] at hq
      exact hqp (hS.eq_of_slotGuard hv hq)

theorem advised_readSlot (p : SlotPos) : Advised τ start (.readSlot p) := by
  rintro l g β s t r s' Q₁ Q₂ h' ⟨owner, hS⟩ hc ⟨v, hv, -⟩ hQ ⟨rfl, rfl⟩ hn
  refine ⟨_, hQ _ fun o ho => ?_, hc.plain trivial (by simp) ⟨rfl, rfl, rfl, rfl⟩ (.refl _) rfl
    (hc.away hn ⟨rfl, rfl, rfl, rfl⟩)⟩
  obtain ⟨q, hq, hm, hun⟩ := (hc.right t).inSlot o ho
  obtain rfl := hS.eq_of_slotGuard hv hq
  refine ⟨hm, ?_⟩
  -- a new entry is in no slot that is not being emptied
  rintro e he rfl
  obtain ⟨m, hm', rfl⟩ := Option.map_eq_some_iff.mp hm
  obtain ⟨u, hu, hun'⟩ := ((hc.right t).fresh _ he).2 _ m hm' rfl
  rw [hq] at hu
  obtain rfl := Option.some.inj hu
  exact hun _ rfl hun'

theorem advised_returnEntry (p : SlotPos) (e : ℕ) (key : CacheKey) :
    Advised τ start (.returnEntry p e key) := by
  rintro l g β s t r s' Q₁ Q₂ h' ⟨owner, hS⟩ hc ⟨m, c, hM, rfl, -⟩ hQ ⟨rfl, rfl⟩ hn
  have hslot : s'.slots p = some m := (hS.mapped t _ hM).1
  rw [hslot]
  exact ⟨_, hQ, hc.plain trivial (by simp) ⟨rfl, rfl, rfl, rfl⟩ (.refl _) rfl
    (hc.away hn ⟨rfl, rfl, rfl, rfl⟩)⟩

theorem advised_release (n : ℕ) : Advised τ start (.release n) := by
  rintro l g β s t r s' Q₁ Q₂ h' - hc - hQ ⟨-, rfl⟩ hn
  have hkeep : KeepsSlots l s (l ++ [(t, Prog.Event.did (Op.release n) r)])
      { s with live := Function.update s.live n false } :=
    fun q m hm => ⟨hm, fun he => he.snoc rfl (by simp) (by simp)⟩
  have ht := hc.right t
  refine ⟨_, hQ, hc.step (fun u hu h => ?_) ?_ (hkeep.genuine hc.genuine rfl)
    (hc.away hn ⟨rfl, rfl, rfl, rfl⟩)⟩
  · exact h.other hu (fun _ => Iff.rfl) (fun _ _ => rfl) (fun _ => Iff.rfl)
      (fun _ _ => rfl) fun e _ he => hkeep.loose he
  · exact .of_keeps hkeep ht.entry ht.fresh ht.atSlot (by simp) ht.guarded ht.seen
      (ht.handling_snoc (unread_op (by simp)))

/-! ### The guards of entries -/

theorem advised_lock_entry (e : ℕ) : Advised τ start (.lock (.entry e)) := by
  rintro l g β s t r s' Q₁ Q₂ h' ⟨owner, hS⟩ hc ⟨-, -, hheld⟩ hQ ⟨hnone, rfl⟩ hn
  have ht := hc.right t
  have hnone : s.entryGuard e = none := hnone
  have hkeep :
      KeepsSlots l s (l ++ [(t, Prog.Event.did (Op.lock (.entry e)) r)])
      (s.setHolder (.entry e) (some t)) :=
    keepsSlots_plain trivial rfl rfl
  have hguard (e' : ℕ) (he' : s.entryGuard e' = some t) :
      Function.update s.entryGuard e (some t) e' = some t := by
    by_cases he : e' = e
    · rw [he, Function.update_self]
    · rwa [Function.update_of_ne he]
  have hothers (u : τ) (hu : u ≠ t) (h : (β u).Right l s u) :
      (β u).Right (l ++ [(t, Prog.Event.did (Op.lock (.entry e)) r)])
      (s.setHolder (.entry e) (some t)) u := by
    refine h.other hu (fun e' => ?_) (fun _ _ => rfl) (fun _ => Iff.rfl)
      (fun _ _ => rfl) fun e _ he => hkeep.loose he
    exact update_keeps (by rw [hnone]; exact (Option.some_ne_none u).symm)
      (fun he => hu (Option.some.inj he).symm) e'
  -- the worker knows of `fresh` now, which is what it knew of and perhaps the entry
  have hown (fresh : Set ℕ) (hold : (β t).fresh ⊆ fresh) (hnew : ∀ e' ∈ fresh, e' = e ∧
    Loose l s e ∨ e' ∈ (β t).fresh)
      (he : e ∈ fresh ∨ Offered l (s.entries e)) :
      ({ β t with fresh := fresh } : Belief).Right
      (l ++ [(t, Prog.Event.did (Op.lock (.entry e)) r)])
        (s.setHolder (.entry e) (some t)) t := by
    refine .of_keeps hkeep (fun e' c he' => ?_) (fun e' he' => ?_) ht.atSlot
      (ht.inSlot_plain trivial rfl rfl) (fun e' he' => ?_) ht.seen
      (ht.handling_snoc (unread_op (by simp)))
    · exact ⟨hguard e' (ht.entry e' c he').1, (ht.entry e' c he').2⟩
    · rcases hnew e' he' with ⟨rfl, hl⟩ | he'
      · exact ⟨Function.update_self .., hl⟩
      · exact ⟨hguard e' (ht.fresh e' he').1, (ht.fresh e' he').2⟩
    · change Function.update s.entryGuard e (some t) e' = some t at he'
      by_cases hee : e' = e
      · rw [hee]
        exact he
      · rw [Function.update_of_ne hee] at he'
        exact (ht.guarded e' he').imp_left fun h => hold h
  rcases hQ with ⟨hat, hQ⟩ | ⟨hin, hQ⟩
  · -- the entry is the worker's own
    have hloose : Loose l s e := by
      rcases hheld with ⟨-, p, v, m, hv, -⟩ | ⟨bs, hbs, -⟩
      · exact absurd (hS.slotGuard_eq hv) (ht.atSlot hat p)
      · exact hS.loose (hS.owner_of_blocks (by rw [hbs]; exact Multiset.mem_cons_self e bs))
    refine ⟨_, hQ,
      hc.step hothers
      (hown _ (Set.subset_insert _ _) (fun e' he' => ?_) (Or.inl (Set.mem_insert _ _)))
      (hkeep.genuine hc.genuine rfl) (hc.away hn ⟨rfl, rfl, rfl, rfl⟩)⟩
    exact he'.imp_left fun h => ⟨h, hloose⟩
  · -- the entry is in the slot whose guard the worker has
    have hoffered : Offered l (s.entries e) := by
      obtain ⟨p, hp, hm, hun⟩ := ht.inSlot _ hin
      obtain ⟨m, hm', rfl⟩ := Option.map_eq_some_iff.mp hm
      rcases hc.genuine.slots p m hm' with ⟨u, hu, hun'⟩ | ⟨-, -, ho⟩
      · rw [hp] at hu
        obtain rfl := Option.some.inj hu
        exact absurd hun' (hun _ rfl)
      · exact ho
    exact ⟨_, hQ, hc.step hothers (hown _ subset_rfl (fun _ he' => Or.inr he') (Or.inr hoffered))
      (hkeep.genuine hc.genuine rfl) (hc.away hn ⟨rfl, rfl, rfl, rfl⟩)⟩

theorem advised_unlock_entry (e : ℕ) : Advised τ start (.unlock (.entry e)) := by
  rintro l g β s t r s' Q₁ Q₂ h' ⟨owner, hS⟩ hc hheld hQ rfl hn
  have ht := hc.right t
  have hguard := hS.entryGuard_of_unlock hheld
  have hkeep :
      KeepsSlots l s (l ++ [(t, Prog.Event.did (Op.unlock (.entry e)) r)])
      (s.setHolder (.entry e) none) :=
    keepsSlots_plain trivial rfl rfl
  refine ⟨_, hQ,
    hc.step (fun u hu h => ?_) (.of_keeps hkeep (fun e' c he' => ?_) (fun e' he' => ?_) ht.atSlot
    (ht.inSlot_plain trivial rfl rfl) (fun e' he' => ?_) ht.seen
    (ht.handling_snoc (unread_op (by simp)))) (hkeep.genuine hc.genuine rfl)
    (hc.away hn ⟨rfl, rfl, rfl, rfl⟩)⟩
  · refine h.other hu (fun e' => ?_) (fun _ _ => rfl) (fun _ => Iff.rfl)
      (fun _ _ => rfl) fun e _ he => hkeep.loose he
    exact update_keeps (by rw [hguard]; exact fun he => hu (Option.some.inj he).symm)
      (Option.some_ne_none u).symm e'
  · change Function.update (β t).entry e none e' = some c at he'
    by_cases hee : e' = e
    · rw [hee, Function.update_self] at he'
      cases he'
    · rw [Function.update_of_ne hee] at he'
      exact ⟨(Function.update_of_ne hee ..).trans (ht.entry e' c he').1, (ht.entry e' c he').2⟩
  · obtain ⟨he', hee⟩ := he'
    exact ⟨(Function.update_of_ne hee ..).trans (ht.fresh e' he').1, (ht.fresh e' he').2⟩
  · change Function.update s.entryGuard e none e' = some t at he'
    by_cases hee : e' = e
    · rw [hee, Function.update_self] at he'
      cases he'
    · rw [Function.update_of_ne hee] at he'
      exact (ht.guarded e' he').imp_left fun h => ⟨h, hee⟩

/-! ### Entries -/

theorem advised_readEntry (e : ℕ) : Advised τ start (.readEntry e) := by
  rintro l g β s t r s' Q₁ Q₂ h' ⟨owner, hS⟩ hc hheld hQ ⟨rfl, rfl⟩ hn
  have ht := hc.right t
  have hguard : s'.entryGuard e = some t := by
    rcases hheld with ⟨p, m, c, hM, rfl, -⟩ | ⟨hlocked, -⟩
    · exact hS.entryGuard_of_mapped hM
    · exact hS.entryGuard_of_locked hlocked
  have hkeep : KeepsSlots l s' (l ++ [(t, Prog.Event.did (Op.readEntry e) (s'.entries e))]) s' :=
    keepsSlots_plain trivial rfl rfl
  refine ⟨_, hQ _ (hc.genuine.short e) fun c hb => (ht.entry e c hb).2,
    hc.step (fun u hu h => ?_)
      (.of_keeps hkeep (fun e' c he' => ?_) ht.fresh ht.atSlot (ht.inSlot_plain trivial rfl rfl)
      ht.guarded ?_ (ht.handling_snoc (unread_op (by simp))))
    (hkeep.genuine hc.genuine rfl) (hc.away hn ⟨rfl, rfl, rfl, rfl⟩)⟩
  · exact h.other hu (fun _ => Iff.rfl) (fun _ _ => rfl) (fun _ => Iff.rfl)
      (fun _ _ => rfl) fun e _ he => hkeep.loose he
  · change Function.update (β t).entry e (some (s'.entries e)) e' = some c at he'
    by_cases hee : e' = e
    · subst hee
      rw [Function.update_self] at he'
      exact ⟨hguard, Option.some.inj he'⟩
    · rw [Function.update_of_ne hee] at he'
      exact ht.entry e' c he'
  · rintro c (hc' | ⟨rfl, hfresh⟩)
    · exact ht.seen c hc'
    · exact (ht.guarded e hguard).resolve_left hfresh

/-- What is stored when an entry is written. -/
theorem Genuine.write {a : Event} {v : CacheEntry} (h : Genuine l s) (ha : Plain a)
    (hv : v.key.length ≤ 255) (hslots : s'.slots = s.slots)
    (hslotGuard : s'.slotGuard = s.slotGuard)
    (hentries : s'.entries = Function.update s.entries e v)
    (he : Loose l s e ∨ SameContent (s.entries e) v) : Genuine (l ++ [(t, a)]) s' := by
  refine ⟨fun e' => ?_, fun p m hm => ?_⟩
  · rw [hentries]
    by_cases hee : e' = e
    · rw [hee, Function.update_self]
      exact hv
    · rw [Function.update_of_ne hee]
      exact h.short e'
  · rw [hslots] at hm
    have hkeep (hem : Emptying l s p m.entry) : Emptying (l ++ [(t, a)]) s' p m.entry :=
      hem.plain (by rw [hslotGuard]) ha
    rw [hentries]
    by_cases hee : m.entry = e
    · rw [hee, Function.update_self]
      rcases he with hloose | hsame
      · exact Or.inl (hee ▸ hkeep (hee ▸ hloose p m hm hee))
      · rw [hsame.key]
        have hm' := h.slots p m hm
        rw [hee] at hm' hkeep
        exact hm'.imp hkeep fun h => ⟨h.1, h.2.1, (h.2.2.same hsame).append _⟩
    · rw [Function.update_of_ne hee]
      exact (h.slots p m hm).imp hkeep fun h => ⟨h.1, h.2.1, h.2.2.append _⟩

theorem advised_initEntry (e : ℕ) : Advised τ start (.initEntry e) := by
  rintro l g β s t r s' Q₁ Q₂ h' ⟨owner, hS⟩ hc ⟨he, -⟩ hQ ⟨now, rfl⟩ hn
  have hnone : s.entryGuard e = none := hS.entryGuard_of_blocks he
  have hguard : Function.update s.entryGuard e none = s.entryGuard := by
    rw [← hnone, Function.update_eq_self]
  -- nobody has the guard of the entry
  have hentries (u : τ) (e' : ℕ) (he' : s.entryGuard e' = some u) :
      Function.update s.entries e (cacheEntryInit now) e' = s.entries e' := by
    refine Function.update_of_ne ?_ ..
    rintro rfl
    rw [hnone] at he'
    cases he'
  rw [hguard]
  have hright (u : τ) (h : (β u).Right l s u) :
    (β u).Right (l ++ [(t, Prog.Event.did (Op.initEntry e) r)])
      { s with entries := Function.update s.entries e (cacheEntryInit now) } u := by
    refine .of_keeps (keepsSlots_plain trivial rfl rfl) (fun e' c he' => ?_) h.fresh h.atSlot
      (h.inSlot_plain trivial rfl rfl) (fun e' he' => ?_) h.seen
      (h.handling_snoc (unread_op (by simp)))
    · obtain ⟨hg, hc⟩ := h.entry e' c he'
      exact ⟨hg, (hentries u e' hg).trans hc⟩
    · change _ ∨ Offered l (Function.update s.entries e (cacheEntryInit now) e')
      rw [hentries u e' he']
      exact h.guarded e' he'
  exact ⟨β t, hQ r,
    hc.step (fun u _ => hright u) (hright t (hc.right t))
    (hc.genuine.write trivial (Nat.zero_le _) rfl rfl rfl
      (Or.inl (hS.loose (hS.owner_of_blocks he)))) (hc.away hn ⟨rfl, rfl, rfl, rfl⟩)⟩

theorem advised_writeEntry (e : ℕ) (v : CacheEntry) : Advised τ start (.writeEntry e v) := by
  rintro l g β s t r s' Q₁ Q₂ h' ⟨owner, hS⟩ hc hheld ⟨hshort, hsame, hQ⟩ rfl hn
  have ht := hc.right t
  have hguard : s.entryGuard e = some t := by
    rcases hheld with ⟨p, m, c, hM, rfl, -⟩ | ⟨hlocked, -⟩
    · exact hS.entryGuard_of_mapped hM
    · exact hS.entryGuard_of_locked hlocked
  have hkeep : KeepsSlots l s (l ++ [(t, Prog.Event.did (Op.writeEntry e v) r)])
      { s with entries := Function.update s.entries e v } :=
    keepsSlots_plain trivial rfl rfl
  -- the entry is new, or its content stays
  have hsame : e ∈ (β t).fresh ∨ SameContent (s.entries e) v := by
    refine hsame.imp_right ?_
    rintro ⟨c, hb, hcv⟩
    rwa [(ht.entry e c hb).2]
  refine ⟨_, hQ, hc.step (fun u hu h => ?_) (.of_keeps hkeep (fun e' c he' => ?_) ht.fresh ht.atSlot
    (ht.inSlot_plain trivial rfl rfl) (fun e' he' => ?_) ht.seen
    (ht.handling_snoc (unread_op (by simp))))
    (hc.genuine.write trivial hshort rfl rfl rfl (hsame.imp_left fun h => (ht.fresh e h).2))
    (hc.away hn ⟨rfl, rfl, rfl, rfl⟩)⟩
  · refine h.other hu (fun _ => Iff.rfl) (fun e' he' => Function.update_of_ne ?_ ..)
      (fun _ => Iff.rfl) (fun _ _ => rfl) fun e _ he => hkeep.loose he
    rintro rfl
    rw [hguard] at he'
    exact hu (Option.some.inj he').symm
  · change Function.update (β t).entry e (some v) e' = some c at he'
    change _ ∧ Function.update s.entries e v e' = c
    by_cases hee : e' = e
    · subst hee
      rw [Function.update_self] at he' ⊢
      exact ⟨hguard, Option.some.inj he'⟩
    · rw [Function.update_of_ne hee] at he' ⊢
      exact ht.entry e' c he'
  · change _ ∨ Offered l (Function.update s.entries e v e')
    by_cases hee : e' = e
    · subst hee
      rw [Function.update_self]
      rcases ht.guarded e' he' with h | h
      · exact Or.inl h
      · exact hsame.imp_right fun hs => h.same hs
    · rw [Function.update_of_ne hee]
      exact ht.guarded e' he'

/-! ### Writing to slots -/

/-- A worker that may write to a slot has the slot's guard. -/
theorem view_of_writeSlot {x : Option MapSlot} {Q : Unit → Held → Prop} {h : Held}
    (hs : Held.spec (.writeSlot p x) Q h) :
    ∃ v, h.slot = some (p, v) := by
  cases x with
  | none =>
    rcases hs with ⟨m, hv, -⟩ | ⟨m, c, hv, -⟩
    · exact ⟨_, hv⟩
    · exact ⟨_, hv⟩
  | some m' =>
    obtain ⟨es, -, ⟨hv, -⟩ | ⟨m, c, hv, -⟩⟩ := hs
    · exact ⟨_, hv⟩
    · exact ⟨_, hv⟩

omit [DecidableEq τ] in
/-- The other slots stay as they are. -/
theorem Emptying.write {x : Option MapSlot} {q : SlotPos} {r : Unit} (h : Emptying l s q e)
    (hq : q ≠ p) :
    Emptying (l ++ [(t, Prog.Event.did (Op.writeSlot p x) r)])
      { s with slots := Function.update s.slots p x } q e :=
  h.snoc rfl (by simp) fun u v ha => by
    cases ha
    exact hq rfl

theorem advised_writeSlot (p : SlotPos) (x : Option MapSlot) :
    Advised τ start (.writeSlot p x) := by
  rintro l g β s t r s' Q₁ Q₂ h' ⟨owner, hS⟩ hc hheld hQ rfl hn
  obtain ⟨v, hv⟩ := view_of_writeSlot hheld
  have ht := hc.right t
  have hslotGuard := hS.slotGuard_eq hv
  -- what is right of the others, if what they have locked is not put in the slot
  have hothers (hx : ∀ m u, x = some m → s.entryGuard m.entry = some u → u = t) (u : τ) (hu : u ≠ t)
    (h : (β u).Right l s u) :
      (β u).Right (l ++ [(t, Prog.Event.did (Op.writeSlot p x) r)])
        { s with slots := Function.update s.slots p x } u := by
    refine h.other hu (fun _ => Iff.rfl) (fun _ _ => rfl) (fun _ => Iff.rfl)
      (fun q hq => Function.update_of_ne ?_ ..) fun e he hl q m hm hme => ?_
    · rintro rfl
      rw [hslotGuard] at hq
      exact hu (Option.some.inj hq).symm
    · change Function.update s.slots p x q = some m at hm
      by_cases hqp : q = p
      · rw [hqp, Function.update_self] at hm
        exact absurd (hx m u hm (by rwa [hme])) hu
      · rw [Function.update_of_ne hqp] at hm
        exact (hl q m hm hme).write hqp
  cases x with
  | none =>
    have hkeep : KeepsSlots l s (l ++ [(t, Prog.Event.did (Op.writeSlot p none) r)])
        { s with slots := Function.update s.slots p none } := by
      intro q m hm
      change Function.update s.slots p none q = some m at hm
      by_cases hqp : q = p
      · rw [hqp, Function.update_self] at hm
        cases hm
      · rw [Function.update_of_ne hqp] at hm
        exact ⟨hm, fun he => he.write hqp⟩
    exact ⟨_, hQ,
      hc.step (hothers (by simp))
      (.of_keeps hkeep ht.entry ht.fresh ht.atSlot (by simp) ht.guarded ht.seen
      (ht.handling_snoc (unread_op (by simp)))) (hkeep.genuine hc.genuine rfl)
      (hc.away hn ⟨rfl, rfl, rfl, rfl⟩)⟩
  | some m =>
    obtain ⟨c, hb, hhash, hmap, ⟨y, hy, hsets⟩, hQ⟩ := hQ
    obtain ⟨hguard, rfl⟩ := ht.entry m.entry c hb
    have hoffered : Offered l (s.entries m.entry) :=
      ⟨t, l, y, List.prefix_rfl, ht.handling.symm.trans hy, hsets⟩
    refine ⟨_, hQ,
      hc.step (hothers fun m' u hm' hu => ?_)
      ⟨ht.entry, fun e he => ⟨(ht.fresh e he.1).1, fun q m' hm' hme => ?_⟩,
      ht.atSlot,
      by simp, fun e he => ?_, fun c hc => (ht.seen c hc).append _, ht.handling_snoc (unread_op
      (by simp))⟩ ⟨hc.genuine.short, fun q m' hm' => ?_⟩ (hc.away hn ⟨rfl, rfl, rfl, rfl⟩)⟩
    · cases hm'
      rw [hguard] at hu
      exact (Option.some.inj hu).symm
    · change Function.update s.slots p (some m) q = some m' at hm'
      by_cases hqp : q = p
      · rw [hqp, Function.update_self] at hm'
        cases hm'
        exact absurd hme.symm he.2
      · rw [Function.update_of_ne hqp] at hm'
        exact ((ht.fresh e he.1).2 q m' hm' hme).write hqp
    · by_cases hem : e = m.entry
      · rw [hem]
        exact Or.inr (hoffered.append _)
      · exact (ht.guarded e he).imp (fun h => ⟨h, hem⟩) fun ho => ho.append _
    · change Function.update s.slots p (some m) q = some m' at hm'
      by_cases hqp : q = p
      · rw [hqp, Function.update_self] at hm'
        cases hm'
        rw [hqp]
        exact Or.inr ⟨hhash, hmap, hoffered.append _⟩
      · rw [Function.update_of_ne hqp] at hm'
        exact (hc.genuine.slots q m' hm').imp (fun he => he.write hqp) fun h =>
          ⟨h.1, h.2.1, h.2.2.append _⟩

/-! ### All operations -/

theorem advised (o : Op) : Advised τ start o := by
  cases o with
  | lock g =>
    cases g with
    | slot p => exact advised_lock_slot p
    | entry e => exact advised_lock_entry e
    | keys n => exact advised_lock_keys n
    | list p => exact fun l g β s t r s' Q₁ Q₂ h' _ _ hs => hs.elim
  | tryLock g =>
    cases g with
    | list p => exact advised_tryLock_list p
    | _ => exact fun l g β s t r s' Q₁ Q₂ h' _ _ hs => hs.elim
  | unlock g =>
    cases g with
    | slot p => exact advised_unlock_slot p
    | entry e => exact advised_unlock_entry e
    | keys n => exact advised_unlock_keys n
    | list p => exact advised_unlock_list p
  | readSlot p => exact advised_readSlot p
  | returnEntry p e key => exact advised_returnEntry p e key
  | writeSlot p x => exact advised_writeSlot p x
  | readEntry e => exact advised_readEntry e
  | writeEntry e v => exact advised_writeEntry e v
  | initEntry e => exact advised_initEntry e
  | fill e size bytes => exact advised_fill e size bytes
  | readTag n => exact advised_readTag n
  | readChild n side => exact advised_readChild n side
  | initNode n tag => exact advised_initNode n tag
  | exchangeChild n side c => exact advised_exchangeChild n side c
  | readKeys n => exact advised_readKeys n
  | writeKeys n ks => exact advised_writeKeys n ks
  | bucket p => exact advised_bucket p
  | release b => exact advised_release b
  | time => exact advised_time
  | read nmemb => exact advised_read nmemb
  | info => exact advised_info
  | crash => exact fun l g β s t r => r.elim

/-- What the workers know is right, whatever they do. -/
theorem beside :
    Contract.Beside contract beliefs (Op.act (τ := τ)) (fun o h _ h' => Held.NodeAfter o h h')
    Belief.AtRest Belief.Begins (Agrees start) Coherent where
  rel := Held.spec_nodeAfter
  op := fun l g β s t o r s' Q₁ Q₂ h' hJ hc hs₁ hs₂ ha hn _ =>
    advised o l g β s t r s' Q₁ Q₂ h' hJ hc hs₁ hs₂ ha hn
  call := fun l g β s t c hc hrest => by
    refine ⟨{ β t with handling := some ⟨c, []⟩ }, ⟨⟨hrest.atSlot, hrest.fresh⟩, rfl⟩, ?_⟩
    have hstep : Coherent (l ++ [(t, Prog.Event.call c)]) (Function.update g t (g t))
        (Function.update β t { β t with handling := some ⟨c, []⟩ }) s :=
      hc.step
        (fun u hu h => h.plain trivial ⟨rfl, rfl, rfl, rfl⟩ (.refl _)
        (by rw [handled_snoc_of_ne hu, h.handling]))
        ((hc.right t).plain trivial ⟨rfl, rfl, rfl, rfl⟩ ⟨rfl, rfl, rfl, rfl, rfl⟩
        (by rw [handled_snoc, if_pos rfl]; rfl)) (hc.genuine.plain trivial ⟨rfl, rfl, rfl, rfl⟩)
        (hc.away rfl ⟨rfl, rfl, rfl, rfl⟩)
    rwa [Function.update_eq_self] at hstep
  other := fun l g β s t a ha hi hc => by
    have hplain : Plain a := by
      cases a with
      | did o r => exact absurd rfl (ha o r)
      | _ => trivial
    refine ⟨fun u => (hc.right u).plain hplain ⟨rfl, rfl, rfl, rfl⟩ (.refl _)
      ((hc.right u).handling_snoc ⟨hi, fun n r => ha _ r⟩),
      hc.genuine.plain hplain ⟨rfl, rfl, rfl, rfl⟩, ?_⟩
    obtain ⟨tree, hin, hl⟩ := hc.indexed
    exact ⟨tree, hin.append _, fun u => (hl u).append _⟩

/-- At start-up nobody knows anything, and nothing is stored. -/
theorem coherent_init :
    Coherent [] (fun _ : τ => Held.init) (fun _ => Belief.init)
      (Workers.init start : Workers τ).shared where
  right :=
    fun t =>
    ⟨by simp [Belief.init], by simp [Belief.init], fun _ _ => (Option.some_ne_none
    t).symm,
      by simp [Belief.init], fun e he => absurd he.symm (Option.some_ne_none
      t), by simp [Belief.init], rfl⟩
  genuine := ⟨fun e => Nat.zero_le _, fun p m hm => by cases hm⟩
  indexed := by
    refine ⟨.node .nil rootValue root .nil,
      ⟨.single rfl rfl, ?_, fun n => properKeys_nil, fun n _ elem he => ?_⟩, fun t => ?_⟩
    · simp [Ordered, toList]
    · cases he
    · exact ⟨by
        simp [Belief.init], by simp [Belief.init], by simp [Belief.init], by simp [Belief.init]⟩

end Coherent

end Guarded

end Cik

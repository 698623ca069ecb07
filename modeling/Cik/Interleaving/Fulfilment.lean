import Cik.Interleaving.Conduct
import Cik.Interleaving.Ownership

/-!
# The operations fulfil the contract

`Agrees` says that what the workers hold agrees with what is shared, for some owner of
every block. An operation that its worker may do by `Held.spec` keeps it, and what the
worker holds then is as `Held.spec` says, whatever the others hold (`fulfilled`): one
lemma for each operation, which says what becomes of the parts of `Sound` that it has to
do with.
-/

namespace Cik

namespace Guarded

variable {τ : Type*} {start : ℕ → Bool} {l : List (τ × Event)} {owner : ℕ → Option (Owner τ)}
  {g : τ → Held} {s : Process τ} {t u : τ} {h' : Held} {p : SlotPos} {v : SlotView} {m : MapSlot}
    {M : Mapped} {b e n : ℕ}

/-- What the workers hold agrees with what is shared. -/
def Agrees (start : ℕ → Bool) (l : List (τ × Event)) (g : τ → Held) (s : Process τ) : Prop :=
  ∃ owner, Sound start l owner (.of g) s

/-- A worker that may do the operation does it, and everything agrees as before. -/
def Allowed (τ : Type*) [DecidableEq τ] (start : ℕ → Bool) (o : Op) : Prop :=
  ∀ (l : List (τ × Event)) g (s : Process τ) t r s' Q, Agrees start l g s → Held.spec o Q (g t) →
    Op.act t s o r s' → ∃ h', Q r h' ∧
    Agrees start (l ++ [(t, .did o r)]) (Function.update g t h') s'

namespace Sound

/-! ### What follows of one block or guard -/

theorem owner_of_own (hS : Sound start l owner (.of g) s) (hb : b ∈ (g t).own) :
    owner b = some (.worker t) :=
  (hS.workers.mem t b).mp hb

theorem owner_of_blocks (hS : Sound start l owner (.of g) s) (hb : b ∈ (g t).blocks) :
    owner b = some (.worker t) :=
  hS.owner_of_own (Multiset.mem_add.mpr (Or.inl (Multiset.mem_add.mpr (Or.inl hb))))

theorem owner_of_locked (hS : Sound start l owner (.of g) s) (hb : b ∈ (g t).locked) :
    owner b = some (.worker t) :=
  hS.owner_of_own (Multiset.mem_add.mpr (Or.inl (Multiset.mem_add.mpr (Or.inr hb))))

theorem owner_of_node (hS : Sound start l owner (.of g) s) (hb : (g t).node = some b) :
    owner b = some (.worker t) :=
  hS.owner_of_own (Multiset.mem_add.mpr (Or.inr (by rw [hb]; exact Multiset.mem_singleton_self b)))

theorem owner_of_mapped (hS : Sound start l owner (.of g) s) (hM : (g t).mapped = some M) :
    owner M.slot.entry = some (.slot M.pos) := (hS.mapped t M hM).2.1

/-- An entry that a worker has outside of the maps is not in a slot. -/
theorem mapped_ne (hS : Sound start l owner (.of g) s) (he : owner e = some (.worker t))
    (u : τ) (M : Mapped) (hM : (g u).mapped = some M) : M.slot.entry ≠ e := by
  rintro rfl
  rw [hS.owner_of_mapped hM] at he
  cases he

theorem owner_of_quiet (hS : Sound start l owner (.of g) s) (hv : (g t).slot = some (p, .quiet m)) :
    owner m.entry = some (.slot p) := hS.slots.present t p _ m hv rfl

/-- A block that a worker has is not a node of the tree. -/
theorem not_inTree (hS : Sound start l owner (.of g) s) (hn : owner n = some (.worker t)) :
    ¬ InTree s.child n := by
  intro hin
  have hne : n ≠ root := by
    rintro rfl
    rw [hS.blocks.static] at hn
    cases hn
  rw [(hS.nodes.mem n).mpr ⟨hin, hne⟩] at hn
  cases hn

theorem ne_root (hS : Sound start l owner (.of g) s) (hb : owner b ≠ none) : b ≠ root := by
  rintro rfl
  exact hb hS.blocks.static

/-- A node that a worker knows is in the tree. -/
theorem inTree_of_knows (hS : Sound start l owner (.of g) s) (hn : (g t).Knows n) :
    InTree s.child n := by
  rcases hn with rfl | hn
  · exact .root
  · exact hS.nodes.met t n hn

/-- A node that a worker has filled in is not in the tree. -/
theorem node_ne (hS : Sound start l owner (.of g) s) (hn : InTree s.child n)
    (hu : (g u).node = some b) : b ≠ n := by
  rintro rfl
  exact hS.not_inTree (hS.owner_of_node hu) hn

/-- An entry that two workers have locked. -/
theorem mapped_uniq {M' : Mapped} (hS : Sound start l owner (.of g) s) (ht : (g t).mapped = some M)
    (hu : (g u).mapped = some M') (he : M'.slot.entry = M.slot.entry) : u = t :=
  hS.entryGuards.uniq ((hS.entryGuards.holds M.slot.entry t).mpr (Or.inr ⟨M, ht, rfl⟩)) hu he

/-- Nobody has the guard of an entry that its owner has not locked. -/
theorem entryGuard_of_blocks (hS : Sound start l owner (.of g) s) (he : e ∈ (g t).blocks) :
    s.entryGuard e = none := by
  have hown : owner e = some (.worker t) := hS.owner_of_blocks he
  refine Option.eq_none_iff_forall_ne_some.mpr fun u hu => ?_
  rcases (hS.entryGuards.holds e u).mp hu with hlocked | ⟨M, hM, hMe⟩
  · have hu : owner e = some (.worker u) := hS.owner_of_locked hlocked
    rw [hown] at hu
    cases hu
    have hnodup := hS.workers.nodup t
    simp only [Holdings.of, Held.own, Multiset.nodup_add] at hnodup
    exact Multiset.disjoint_left.mp hnodup.1.2.2 he hlocked
  · exact hS.mapped_ne hown u M hM hMe

/-- No other worker has locked an entry in the same slot. -/
theorem pos_ne {M' : Mapped} (hS : Sound start l owner (.of g) s)
    (hM : (g t).mapped = some M) (hu : u ≠ t) (hM' : (g u).mapped = some M') : M'.pos ≠ M.pos := by
  intro hp
  have hslot := (hS.mapped u M' hM').1
  rw [hp, (hS.mapped t M hM).1] at hslot
  exact hu (hS.mapped_uniq hM hM' (by rw [Option.some.inj hslot]))

/-- The entry in a slot that nobody is at was not released. -/
theorem owner_of_slot (hS : Sound start l owner (.of g) s) (hp : s.slotGuard p = none)
    (hm : s.slots p = some m) :
    owner m.entry = some (.slot p) := by
  rcases hS.slots.owned p m hm with ho | ⟨t, ht⟩
  · exact ho
  · have hg : s.slotGuard p = some t := (hS.slotGuards.holds p t).mpr ⟨_, ht⟩
    rw [hp] at hg
    cases hg

/-! ### A step of one worker -/

variable [DecidableEq τ]

/-- Before it, said of the worker. -/
theorem at_ (hS : Sound start l owner (.of g) s) (t : τ) :
    Sound start l owner ((Holdings.of g).set t (g t)) s := by
  rwa [Holdings.of_set_self]

/-- The same, if the step has nothing to do with slots. -/
theorem plain (hS : Sound start l owner (.of g) s) (t : τ) {a : Event} (ha : Plain a) :
    Sound start (l ++ [(t, a)]) owner ((Holdings.of g).set t (g t)) s :=
  { hS.at_ t with slotGuards := (hS.at_ t).slotGuards.plain ha }

/-- After it. -/
theorem agrees (owner : ℕ → Option (Owner τ))
    (hS : Sound start l owner ((Holdings.of g).set t h') s) :
    Agrees start l (Function.update g t h') s := by
  refine ⟨owner, ?_⟩
  rwa [Holdings.of_update]

end Sound

section Operations

variable [DecidableEq τ]

/-! ### The guards of slots -/

theorem allowed_lock_slot (p : SlotPos) : Allowed τ start (.lock (.slot p)) := by
  rintro l g s t r s' Q ⟨owner, hS⟩ ⟨hslot, hmapped, hkeys, hlist, hfree, hfull⟩ ⟨hnone, rfl⟩
  have hold (q : SlotPos) (m : MapSlot) : (g t).slot ≠ some (q, .stale m) := by rw [hslot]; nofun
  cases hc : s.slots p with
  | none =>
    refine ⟨_, hfree, Sound.agrees owner ?_⟩
    exact { hS.at_ t with
      slots := hS.slots.setView hold (fun _ _ => nofun) fun q v m hv hm => by cases hv; cases hm
      slotGuards := hS.slotGuards.take hnone hslot hc fun _ => nofun
      entryGuards := hS.entryGuards.setView rfl rfl fun _ _ => nofun }
  | some m =>
    have hown := hS.owner_of_slot hnone hc
    have hlocked : m.entry ∉ (g t).locked := fun hm => by
      rw [hS.owner_of_locked hm] at hown
      cases hown
    refine ⟨_, hfull m hlocked, Sound.agrees owner ?_⟩
    exact { hS.at_ t with
      slots := hS.slots.setView hold (fun _ _ => nofun) fun q v m' hv hm =>
        by cases hv; cases hm; exact hown
      slotGuards := hS.slotGuards.take hnone hslot hc fun _ => nofun
      entryGuards := hS.entryGuards.setView rfl rfl fun _ _ => nofun }

theorem allowed_unlock_slot (p : SlotPos) : Allowed τ start (.unlock (.slot p)) := by
  rintro l g s t r s' Q ⟨owner, hS⟩ ⟨v, hv, hstale, hQ⟩ rfl
  have hold (q : SlotPos) (m : MapSlot) : (g t).slot ≠ some (q, .stale m) := by
    rw [hv]
    rintro ⟨⟩
    exact hstale m rfl
  refine ⟨_, hQ, Sound.agrees owner ?_⟩
  exact { hS.at_ t with
    slots := hS.slots.setView hold (fun _ _ => nofun) fun _ _ _ => nofun
    slotGuards := (hS.slotGuards.unset hv).plain trivial
    entryGuards := hS.entryGuards.setView rfl rfl fun _ _ => nofun }

/-! ### The guards of entries -/

/-- A worker takes the guard of the entry in the slot whose guard it has. -/
theorem lock_mapped (hS : Sound start l owner (.of g) s) (he : s.entryGuard m.entry = none)
    (hmapped : (g t).mapped = none) (hv : (g t).slot = some (p, v)) (hm : v.present = some m) :
    Agrees start (l ++ [(t, .did (.lock (.entry m.entry)) ())])
      (Function.update g t
        { g t with slot := some (p, .mapped m), mapped := some ⟨p, m, s.entries m.entry⟩ })
      (s.setHolder (.entry m.entry) (some t)) := by
  have hcontent : v.content = some m := by cases v <;> first | exact hm | cases hm
  have hstale (m' : MapSlot) : v ≠ .stale m' := by rintro rfl; cases hm
  have hown : owner m.entry = some (.slot p) := hS.slots.present t p v m hv hm
  refine Sound.agrees owner ?_
  exact { hS.at_ t with
    slots := by
      refine hS.slots.setView (fun q m' hq => ?_) (fun _ _ => nofun) fun q v' m' hv' hm' => ?_
      · exact hstale m' (Prod.mk.inj (Option.some.inj (hv.symm.trans hq))).2
      · cases hv'
        cases hm'
        exact hown
    slotGuards := hS.slotGuards.turn_plain hv trivial hcontent.symm fun m' =>
      ⟨nofun, fun h => absurd h (hstale m')⟩
    entryGuards := by
      refine hS.entryGuards.set he (fun c => ?_) (fun _ _ => nofun) fun u q m' hu hq hm' => ?_
      · simp [Holdings.of, hmapped, or_comm, eq_comm]
      · have ho := hS.owner_of_quiet hq
        rw [hm', hown] at ho
        cases ho
        exact hu (hS.slotGuards.uniq hv hq)
    mapped := by
      refine hS.mapped.replace (fun M hM => ?_) fun _ _ _ _ => ⟨rfl, rfl, rfl⟩
      cases hM
      exact ⟨(hS.slotGuards.content t p v hv).trans hcontent, hown, rfl⟩ }

/-- A worker takes the guard of an entry of its own. -/
theorem lock_own {bs : Multiset ℕ} (hS : Sound start l owner (.of g) s) (he : s.entryGuard e = none)
    (hbs : (g t).blocks = e ::ₘ bs) :
    Agrees start (l ++ [(t, .did (.lock (.entry e)) ())])
      (Function.update g t { g t with blocks := bs, locked := e ::ₘ (g t).locked })
      (s.setHolder (.entry e) (some t)) := by
  have hown : owner e = some (.worker t) :=
    hS.owner_of_blocks (by rw [hbs]; exact Multiset.mem_cons_self e bs)
  have hquiet (u : τ) (q : SlotPos) (m : MapSlot) (hq : (g u).slot = some (q, .quiet m)) :
      m.entry ≠ e := by
    rintro rfl
    have ho := hS.owner_of_quiet hq
    rw [hown] at ho
    cases ho
  refine Sound.agrees owner ?_
  exact { hS.plain t (a := .did (.lock (.entry e)) ()) trivial with
    workers := hS.workers.same (by simp [Holdings.of, Held.own, hbs])
    entryGuards := by
      refine hS.entryGuards.set he (fun c => ?_) (fun q m hq => ⟨hq, hquiet t q m hq⟩)
        fun u q m _ hq => hquiet u q m hq
      rw [Multiset.mem_cons, or_assoc]
      rfl
    mapped := hS.mapped.replace (hS.mapped t) fun _ _ _ _ => ⟨rfl, rfl, rfl⟩ }

theorem allowed_lock_entry (e : ℕ) : Allowed τ start (.lock (.entry e)) := by
  rintro l g s t r s' Q ⟨owner, hS⟩ ⟨hkeys, hlist, hQ⟩ ⟨hnone, rfl⟩
  rcases hQ with ⟨hmapped, p, v, m, hv, hm, rfl, hQ⟩ | ⟨bs, hbs, hQ⟩
  · exact ⟨_, hQ _, lock_mapped hS hnone hmapped hv hm⟩
  · exact ⟨_, hQ, lock_own hS hnone hbs⟩

/-- A worker releases the guard of the entry in a slot. -/
theorem unlock_mapped {w : Option (SlotPos × SlotView)} (hS : Sound start l owner (.of g) s)
    (hM : (g t).mapped = some M)
    (hslots : SlotBlocks owner s.slots (Function.update (Holdings.of g).view t w))
    (hguards : SlotGuards (l ++ [(t, .did (.unlock (.entry M.slot.entry)) ())]) s.slotGuard s.slots
      (Function.update (Holdings.of g).view t w))
    (hw : ∀ p m, w = some (p, .quiet m) → m.entry = M.slot.entry ∨
      (g t).slot = some (p, .quiet m)) :
    Agrees start (l ++ [(t, .did (.unlock (.entry M.slot.entry)) ())])
      (Function.update g t { g t with slot := w, mapped := none })
        (s.setHolder (.entry M.slot.entry) none) := by
  have hlocked : M.slot.entry ∉ (g t).locked := fun hm => by
    have ho := hS.owner_of_locked hm
    rw [hS.owner_of_mapped hM] at ho
    cases ho
  refine Sound.agrees owner ?_
  exact { hS.at_ t with
    slots := hslots
    slotGuards := hguards
    entryGuards := by
      refine hS.entryGuards.unset ((hS.entryGuards.holds _ t).mpr (Or.inr ⟨M, hM, rfl⟩))
        (fun c => ?_) hw
      simp only [Holdings.of, hM, Option.some.injEq, exists_eq_left', reduceCtorEq, false_and,
        exists_false, or_false]
      constructor
      · intro hc
        exact ⟨fun he => hlocked (he ▸ hc), Or.inl hc⟩
      · rintro ⟨hne, hc | rfl⟩
        · exact hc
        · exact absurd rfl hne
    mapped := hS.mapped.replace (fun _ => nofun) fun _ _ _ _ => ⟨rfl, rfl, rfl⟩ }

/-- A worker releases the guard of an entry of its own. -/
theorem unlock_own {es : Multiset ℕ} (hS : Sound start l owner (.of g) s)
    (hes : (g t).locked = e ::ₘ es) :
    Agrees start (l ++ [(t, .did (.unlock (.entry e)) ())])
      (Function.update g t { g t with blocks := e ::ₘ (g t).blocks, locked := es })
      (s.setHolder (.entry e) none) := by
  have hmem : e ∈ (g t).locked := by rw [hes]; exact Multiset.mem_cons_self e es
  have hown : owner e = some (.worker t) := hS.owner_of_locked hmem
  have hnodup : e ∉ es := by
    have h := hS.workers.nodup t
    simp only [Holdings.of, Held.own, hes, Multiset.add_cons, Multiset.cons_add,
      Multiset.nodup_cons, Multiset.mem_add, not_or] at h
    exact h.1.1.2
  have hmapped (M : Mapped) (hM : (g t).mapped = some M) : M.slot.entry ≠ e := by
    rintro rfl
    rw [hS.owner_of_mapped hM] at hown
    cases hown
  refine Sound.agrees owner ?_
  exact { hS.plain t (a := .did (.unlock (.entry e)) ()) trivial with
    workers := hS.workers.same (by simp [Holdings.of, Held.own, hes])
    entryGuards := by
      refine hS.entryGuards.unset ((hS.entryGuards.holds e t).mpr (Or.inl hmem))
        (fun c => ?_) fun _ _ hq => Or.inr hq
      simp only [Holdings.of, hes, Multiset.mem_cons]
      constructor
      · rintro (hc | ⟨M, hM, rfl⟩)
        · exact ⟨fun he => hnodup (he ▸ hc), Or.inl (Or.inr hc)⟩
        · exact ⟨hmapped M hM, Or.inr ⟨M, hM, rfl⟩⟩
      · rintro ⟨hne, (hc | hc) | hc⟩
        · exact absurd hc hne
        · exact Or.inl hc
        · exact Or.inr hc
    mapped := hS.mapped.replace (hS.mapped t) fun _ _ _ _ => ⟨rfl, rfl, rfl⟩ }

theorem allowed_unlock_entry (e : ℕ) : Allowed τ start (.unlock (.entry e)) := by
  rintro l g s t r s' Q ⟨owner, hS⟩ hQ rfl
  rcases hQ with ⟨-, p, m, c, hM, rfl, hQ⟩ | ⟨p, m, c, hv, hM, rfl, hQ⟩ | ⟨es, hes, hQ⟩
  · have hat := hS.plain t (a := .did (.unlock (.entry m.entry)) ()) trivial
    exact ⟨_, hQ, unlock_mapped (w := (g t).slot) hS hM hat.slots hat.slotGuards fun _ _ => Or.inr⟩
  · refine ⟨_, hQ, unlock_mapped (w := some (p, .quiet m)) hS hM ?_ ?_ fun q m' hw => Or.inl ?_⟩
    · refine hS.slots.setView (fun q m' hq => ?_) (fun _ _ => nofun) fun q v m' hv' hm' => ?_
      · cases hv.symm.trans hq
      · cases hv'
        cases hm'
        exact hS.owner_of_mapped hM
    · exact hS.slotGuards.turn_plain hv trivial rfl fun _ => ⟨nofun, nofun⟩
    · cases hw
      rfl
  · exact ⟨_, hQ, unlock_own hS hes⟩

/-! ### The locks of key lists and the marks of free lists -/

theorem allowed_lock_keys (n : ℕ) : Allowed τ start (.lock (.keys n)) := by
  rintro l g s t r s' Q ⟨owner, hS⟩ ⟨hn, hkeys, hlist, hQ⟩ ⟨hnone, rfl⟩
  refine ⟨_, hQ (s.keys n), Sound.agrees owner ?_⟩
  exact { hS.plain t (a := .did (.lock (.keys n)) r) trivial with
    keyLocks := hS.keyLocks.set hnone hkeys (hS.inTree_of_knows hn) }

theorem allowed_unlock_keys (n : ℕ) : Allowed τ start (.unlock (.keys n)) := by
  rintro l g s t r s' Q ⟨owner, hS⟩ ⟨ks, hkeys, hQ⟩ rfl
  refine ⟨_, hQ, Sound.agrees owner ?_⟩
  exact { hS.plain t (a := .did (.unlock (.keys n)) r) trivial with
    keyLocks := hS.keyLocks.unset hkeys }

theorem allowed_tryLock_list (p : ℕ) : Allowed τ start (.tryLock (.list p)) := by
  rintro l g s t r s' Q ⟨owner, hS⟩ ⟨hlist, hset, hfail⟩ ⟨rfl, rfl⟩
  cases hmark : s.mark p with
  | none =>
    simp only [Process.holder, hmark, Option.isNone_none, if_true]
    refine ⟨_, hset, Sound.agrees owner ?_⟩
    exact { hS.plain t (a := .did (.tryLock (.list p)) true) trivial with
      marks := hS.marks.set hmark hlist }
  | some u =>
    simp only [Process.holder, hmark, Option.isNone_some, Bool.false_eq_true, if_false]
    exact ⟨_, hfail, Sound.agrees _ (hS.plain t trivial)⟩

theorem allowed_unlock_list (p : ℕ) : Allowed τ start (.unlock (.list p)) := by
  rintro l g s t r s' Q ⟨owner, hS⟩ ⟨hlist, hQ⟩ rfl
  refine ⟨_, hQ, Sound.agrees owner ?_⟩
  exact { hS.plain t (a := .did (.unlock (.list p)) r) trivial with marks := hS.marks.unset hlist }

/-! ### Reading -/

theorem allowed_readSlot (p : SlotPos) : Allowed τ start (.readSlot p) := by
  rintro l g s t r s' Q ⟨owner, hS⟩ ⟨v, hv, hQ⟩ ⟨rfl, rfl⟩
  rw [← hS.slotGuards.content t p v hv] at hQ
  exact ⟨_, hQ, Sound.agrees _ (hS.plain t trivial)⟩

theorem allowed_returnEntry (p : SlotPos) (e : ℕ) (key : CacheKey) :
    Allowed τ start (.returnEntry p e key) := by
  rintro l g s t r s' Q ⟨owner, hS⟩ ⟨m, c, hM, rfl, -, hQ⟩ ⟨rfl, rfl⟩
  have hslot : s'.slots p = some m := (hS.mapped t _ hM).1
  rw [hslot]
  exact ⟨_, hQ, Sound.agrees _ (hS.plain t trivial)⟩

theorem allowed_readEntry (e : ℕ) : Allowed τ start (.readEntry e) := by
  rintro l g s t r s' Q ⟨owner, hS⟩ hQ ⟨rfl, rfl⟩
  refine ⟨g t, ?_, Sound.agrees _ (hS.plain t trivial)⟩
  rcases hQ with ⟨p, m, c, hM, rfl, hQ⟩ | ⟨-, hQ⟩
  · rwa [(hS.mapped t _ hM).2.2]
  · exact hQ _

theorem allowed_readTag (n : ℕ) : Allowed τ start (.readTag n) := by
  rintro l g s t r s' Q ⟨owner, hS⟩ ⟨-, hQ⟩ ⟨rfl, rfl⟩
  exact ⟨_, hQ _, Sound.agrees _ (hS.plain t trivial)⟩

theorem allowed_readChild (n : ℕ) (side : Side) : Allowed τ start (.readChild n side) := by
  rintro l g s t r s' Q ⟨owner, hS⟩ ⟨hn, hnone, hsome⟩ ⟨rfl, rfl⟩
  cases hc : s'.child n side with
  | none => exact ⟨_, hnone, Sound.agrees _ (hS.plain t trivial)⟩
  | some m =>
    refine ⟨_, hsome m, Sound.agrees owner ?_⟩
    exact { hS.plain t (a := .did (.readChild n side) (some m)) trivial with
      nodes := hS.nodes.meet rfl ((hS.inTree_of_knows hn).child hc) }

theorem allowed_readKeys (n : ℕ) : Allowed τ start (.readKeys n) := by
  rintro l g s t r s' Q ⟨owner, hS⟩ ⟨ks, hkeys, hQ⟩ ⟨rfl, rfl⟩
  rw [← (hS.keyLocks.content t n ks hkeys).1] at hQ
  exact ⟨_, hQ, Sound.agrees _ (hS.plain t trivial)⟩

theorem allowed_time : Allowed τ start .time := by
  rintro l g s t r s' Q ⟨owner, hS⟩ hQ rfl
  exact ⟨_, hQ r, Sound.agrees _ (hS.plain t trivial)⟩

theorem allowed_fill (e : ℕ) (size : UInt32) (bytes : ℕ) :
    Allowed τ start (.fill e size bytes) := by
  rintro l g s t r s' Q ⟨owner, hS⟩ ⟨-, hQ⟩ rfl
  exact ⟨_, hQ, Sound.agrees _ (hS.plain t trivial)⟩

theorem allowed_read (nmemb : ℕ) : Allowed τ start (.read nmemb) := by
  rintro l g s t r s' Q ⟨owner, hS⟩ hQ ⟨-, rfl⟩
  exact ⟨_, hQ r, Sound.agrees _ (hS.plain t trivial)⟩

theorem allowed_info : Allowed τ start .info := by
  rintro l g s t r s' Q ⟨owner, hS⟩ hQ rfl
  exact ⟨_, hQ r, Sound.agrees _ (hS.plain t trivial)⟩

/-! ### Entries -/

/-- What is written to an entry that nobody has locked in a slot. -/
theorem Sound.write_entry {v : CacheEntry} (hS : Sound start l owner (.of g) s) (t : τ)
    (he : ∀ u M, (g u).mapped = some M → M.slot.entry ≠ e) :
    MappedEntries owner s.slots (Function.update s.entries e v)
      ((Holdings.of g).set t (g t)).mapped := by
  refine hS.mapped.replace (fun M hM => ?_) fun u M _ hM =>
    ⟨rfl, rfl, Function.update_of_ne (he u M hM) ..⟩
  rw [Function.update_of_ne (he t M hM)]
  exact hS.mapped t M hM

theorem allowed_writeEntry (e : ℕ) (v : CacheEntry) : Allowed τ start (.writeEntry e v) := by
  rintro l g s t r s' Q ⟨owner, hS⟩ hQ rfl
  rcases hQ with ⟨p, m, c, hM, rfl, hQ⟩ | ⟨he, hQ⟩
  · refine ⟨_, hQ, Sound.agrees owner ?_⟩
    exact { hS.plain t (a := .did (.writeEntry m.entry v) r) trivial with
      entryGuards := hS.entryGuards.hold (fun c => by simp [Holdings.of, hM]) fun _ _ hq => hq
      mapped := by
        refine hS.mapped.replace (fun M' hM' => ?_) fun u M' hu hM' => ⟨rfl, rfl, ?_⟩
        · cases hM'
          exact ⟨(hS.mapped t _ hM).1, (hS.mapped t _ hM).2.1, Function.update_self ..⟩
        · exact Function.update_of_ne (fun he => hu (hS.mapped_uniq hM hM' he)) .. }
  · refine ⟨_, hQ, Sound.agrees owner ?_⟩
    exact { hS.plain t (a := .did (.writeEntry e v) r) trivial with
      mapped := hS.write_entry t (hS.mapped_ne (hS.owner_of_locked he)) }

theorem allowed_initEntry (e : ℕ) : Allowed τ start (.initEntry e) := by
  rintro l g s t r s' Q ⟨owner, hS⟩ ⟨he, hQ⟩ ⟨now, rfl⟩
  have hown : owner e = some (.worker t) := hS.owner_of_blocks he
  -- the guard of a new entry is clear, but not because of what is written
  have hnone : s.entryGuard e = none := hS.entryGuard_of_blocks he
  refine ⟨_, hQ, Sound.agrees owner ?_⟩
  exact { hS.plain t (a := .did (.initEntry e) r) trivial with
    entryGuards := by
      show EntryGuards (Function.update s.entryGuard e none) _ _ _
      rw [← hnone, Function.update_eq_self]
      exact (hS.at_ t).entryGuards
    mapped := hS.write_entry t (hS.mapped_ne hown) }

/-! ### The tag tree -/

theorem allowed_initNode (n : ℕ) (tag : CacheTag) : Allowed τ start (.initNode n tag) := by
  rintro l g s t r s' Q ⟨owner, hS⟩ ⟨hnode, bs, hbs, hQ⟩ rfl
  have hn : ¬ InTree s.child n :=
    hS.not_inTree (hS.owner_of_blocks (by rw [hbs]; exact Multiset.mem_cons_self n bs))
  refine ⟨_, hQ, Sound.agrees owner ?_⟩
  exact { hS.plain t (a := .did (.initNode n tag) r) trivial with
    workers :=
      hS.workers.same (by simp [Holdings.of, Held.own, hbs, hnode, add_comm _ ({n} : Multiset ℕ)])
    keys := hS.keys.initNode hn
    nodes := hS.nodes.initNode rfl hn
    keyLocks := by
      show KeyLocks (Function.update s.keysLock n none) _ _ _
      rw [← hS.keyLocks.eq_none hn, Function.update_eq_self]
      refine (hS.at_ t).keyLocks.grow (fun m hm => Function.update_of_ne ?_ ..) fun m =>
        (inTree_update_of_not hn _).mpr
      rintro rfl
      exact hn hm }

theorem allowed_exchangeChild (n : ℕ) (side : Side) (c : ℕ) :
    Allowed τ start (.exchangeChild n side c) := by
  rintro l g s t r s' Q ⟨owner, hS⟩ ⟨hn, hnode, htrue, hfalse⟩ ⟨rfl, rfl⟩
  cases hchild : s.child n side with
  | some m =>
    simp only [Option.isNone_some, Bool.false_eq_true, if_false]
    refine ⟨_, hfalse, Sound.agrees owner ?_⟩
    exact { hS.plain t (a := .did (.exchangeChild n side c) false) trivial with
      workers :=
        hS.workers.same (by simp [Holdings.of, Held.own, hnode, add_comm _ ({c} : Multiset ℕ)])
      nodes := hS.nodes.drop rfl }
  | none =>
    simp only [Option.isNone_none, if_true]
    have hin : InTree s.child n := hS.inTree_of_knows hn
    have hown : owner c = some (.worker t) := hS.owner_of_node hnode
    obtain ⟨hleaf, hkeys⟩ := hS.nodes.fresh t c hnode
    have hiff (m : ℕ) := inTree_exchange (m := m) hin hchild hleaf (hS.node_ne hin hnode).symm
    refine ⟨_, htrue, Sound.agrees (Function.update owner c (some .node)) ?_⟩
    exact { hS.plain t (a := .did (.exchangeChild n side c) true) trivial with
      blocks := hS.blocks.pass (isSome_update (by simp [hown]) rfl) fun b =>
        update_keeps (by simp [hown]) (by simp) b
      workers :=
        hS.workers.lose (by simp [Holdings.of, Held.own, hnode, add_comm _ ({c} : Multiset ℕ)])
        (by simp)
      slots := (hS.at_ t).slots.other fun b p => update_keeps (by simp [hown]) (by simp) b
      keys := (hS.keys.grow hiff hkeys).other fun b m => update_keeps (by simp [hown]) (by simp) b
      nodes := hS.nodes.grow hiff (hS.ne_root (by simp [hown])) fun u m hm => hS.node_ne hin hm
      mapped := (hS.at_ t).mapped.other fun b p => update_keeps (by simp [hown]) (by simp) b
      keyLocks := (hS.at_ t).keyLocks.grow (fun _ _ => rfl) fun m hm => (hiff m).mpr (Or.inl hm) }

/-! ### Key lists -/

theorem allowed_writeKeys (n : ℕ) (ks' : List KeyElem) : Allowed τ start (.writeKeys n ks') := by
  rintro l g s t r s' Q ⟨owner, hS⟩ ⟨ks, bs, hkeys, hsum, hQ⟩ rfl
  obtain ⟨rfl, hin⟩ := hS.keyLocks.content t n ks hkeys
  -- the blocks that the list and the worker have, before and after
  have hown :
      bases ks' + (bs + (g t).locked + ((g t).node.toList : Multiset ℕ)) = bases (s.keys n) +
      (g t).own := by
    rw [← add_assoc, ← add_assoc, hsum, Held.own, ← add_assoc, ← add_assoc]
  have hks (b : ℕ) : owner b = some (.keys n) ↔ b ∈ bases (s.keys n) := by
    rw [hS.keys.mem, and_iff_right hin]
  have hmem (b : ℕ) : b ∈ bases (s.keys n) + (g t).own ↔ b ∈ bases (s.keys n) ∨
      owner b = some (.worker t) := by
    rw [Multiset.mem_add, ← hS.workers.mem t b]
    rfl
  have hnodup : (bases (s.keys n) + (g t).own).Nodup := by
    refine Multiset.nodup_add.mpr ⟨hS.keys.nodup n hin, hS.workers.nodup t, ?_⟩
    refine Multiset.disjoint_left.mpr fun {b} hb hb' => ?_
    have ho := hS.owner_of_own hb'
    rw [(hks b).mpr hb] at ho
    cases ho
  have hks' (b : ℕ) (hb : b ∈ bases ks') : owner b = some (.keys n) ∨
      owner b = some (.worker t) := by
    rw [hks, ← hmem, ← hown]
    exact Multiset.mem_add.mpr (Or.inl hb)
  rw [← hown, Multiset.nodup_add] at hnodup
  obtain ⟨hnodup₁, hnodup₂, hdisjoint⟩ := hnodup
  have hiff := relist_iff hks hks'
  refine ⟨_, hQ, Sound.agrees (relist owner t n (s.keys n) ks') ?_⟩
  exact { hS.plain t (a := .did (.writeKeys n ks') r) trivial with
    blocks := hS.blocks.pass (isSome_relist hks hks') (hiff .start (by simp) (by simp))
    workers := by
      refine hS.workers.replace hnodup₂ (fun b => ?_) fun u hu =>
        hiff (.worker u) (by simp) fun he => hu (Owner.worker.inj he)
      rw [relist_worker, ← hmem, ← hown, Multiset.mem_add]
      constructor
      · intro hb
        exact ⟨fun hb' => Multiset.disjoint_left.mp hdisjoint hb' hb, Or.inr hb⟩
      · rintro ⟨hb', hb⟩
        exact hb.resolve_left hb'
    slots := (hS.at_ t).slots.other fun b p => hiff (.slot p) (by simp) (by simp) b
    keys := hS.keys.write hin hnodup₁ (fun b => relist_keys hks) fun b m hm =>
      hiff (.keys m) (fun he => hm (Owner.keys.inj he)) (by simp) b
    nodes := by
      refine NodeBlocks.write ((hS.at_ t).nodes.other (hiff .node (by simp) (by simp)))
        fun u c hc => ?_
      have hc' : (Holdings.of g).node u = some c := by rwa [← Holdings.of_set_self g t]
      exact hS.node_ne hin hc'
    mapped := (hS.at_ t).mapped.other fun b p => hiff (.slot p) (by simp) (by simp) b
    keyLocks := hS.keyLocks.write hkeys }

/-! ### Writing to slots -/

/-- A worker clears a slot whose entry it has released. -/
theorem clear_stale (hS : Sound start l owner (.of g) s) (hv : (g t).slot = some (p, .stale m)) :
    Agrees start (l ++ [(t, .did (.writeSlot p none) ())])
      (Function.update g t { g t with slot := some (p, .free) })
      { s with slots := Function.update s.slots p none } := by
  have hslot : s.slots p = some m := hS.slotGuards.content t p _ hv
  have hpos (u : τ) (M : Mapped) (hM : (g u).mapped = some M) : M.pos ≠ p := by
    rintro rfl
    have h := (hS.mapped u M hM).1
    rw [hslot] at h
    have ho := hS.owner_of_mapped hM
    rw [← Option.some.inj h] at ho
    exact hS.slots.stale t _ m hv ho
  refine Sound.agrees owner ?_
  exact { hS.at_ t with
    slots := by
      refine hS.slots.write hv (fun u v' hu => hS.slotGuards.uniq hv hu)
        (fun _ => nofun) rfl (fun b => ?_) fun b q _ => Iff.rfl
      refine ⟨fun hb => ?_, nofun⟩
      rw [hS.slots.eq_of_owner hslot hb] at hb
      exact absurd hb (hS.slots.stale t p m hv)
    slotGuards := hS.slotGuards.write hv rfl fun _ => nofun
    entryGuards := hS.entryGuards.setView rfl rfl fun _ _ => nofun
    mapped := by
      refine hS.mapped.replace (fun M hM => ?_) fun u M _ hM =>
        ⟨Function.update_of_ne (hpos u M hM) .., rfl, rfl⟩
      obtain ⟨hslot, hown, hentry⟩ := hS.mapped t M hM
      exact ⟨(Function.update_of_ne (hpos t M hM) ..).trans hslot, hown, hentry⟩ }

/-- A worker takes the entry that it has locked out of the slot. -/
theorem clear_mapped {c : CacheEntry} (hS : Sound start l owner (.of g) s)
    (hv : (g t).slot = some (p, .mapped m)) (hM : (g t).mapped = some ⟨p, m, c⟩) :
    Agrees start (l ++ [(t, .did (.writeSlot p none) ())])
      (Function.update g t
        { g t with slot := some (p, .free), mapped := none, locked := m.entry ::ₘ (g t).locked })
      { s with slots := Function.update s.slots p none } := by
  have hown : owner m.entry = some (.slot p) := hS.owner_of_mapped hM
  refine Sound.agrees (Function.update owner m.entry (some (.worker t))) ?_
  exact { hS.at_ t with
    blocks := hS.blocks.pass (isSome_update (by simp [hown]) rfl) fun b =>
      update_keeps (by simp [hown]) (by simp) b
    workers := hS.workers.gain (fun u => by simp [hown]) (by simp [Holdings.of, Held.own])
    slots := by
      refine hS.slots.write hv (fun u v' hu => hS.slotGuards.uniq hv hu) (by simp) rfl (fun b => ?_)
        fun b q hq => update_keeps (by simp [hown, Ne.symm hq]) (by simp) b
      refine ⟨fun hb => ?_, by simp⟩
      by_cases hbm : b = m.entry
      · rw [hbm, Function.update_self] at hb
        cases hb
      · rw [Function.update_of_ne hbm] at hb
        exact absurd (hS.slots.eq_of_owner (hS.mapped t _ hM).1 hb) hbm
    keys := hS.keys.other fun b n => update_keeps (by simp [hown]) (by simp) b
    nodes := (hS.at_ t).nodes.other fun b => update_keeps (by simp [hown]) (by simp) b
    slotGuards := hS.slotGuards.write hv rfl (by simp)
    entryGuards :=
      hS.entryGuards.hold (fun c => by simp [Holdings.of, hM, or_comm, eq_comm]) (by simp)
    mapped := hS.mapped.replace (by simp) fun u M' hu hM' =>
      ⟨Function.update_of_ne (hS.pos_ne hM hu hM') ..,
        Function.update_of_ne (fun he => hu (hS.mapped_uniq hM hM' he)) ..,
        rfl⟩ }

/-- A worker puts an entry of its own, whose guard it has, in a slot. -/
theorem fill_free {es : Multiset ℕ} {m' : MapSlot} (hS : Sound start l owner (.of g) s)
    (hv : (g t).slot = some (p, .free)) (hmapped : (g t).mapped = none)
    (hes : (g t).locked = m'.entry ::ₘ es) :
    Agrees start (l ++ [(t, .did (.writeSlot p (some m')) ())])
      (Function.update g t
        { g t with
          slot := some (p, .mapped m')
          mapped := some ⟨p, m', s.entries m'.entry⟩
          locked := es })
      { s with slots := Function.update s.slots p (some m') } := by
  have hown : owner m'.entry = some (.worker t) :=
    hS.owner_of_locked (by rw [hes]; exact Multiset.mem_cons_self m'.entry es)
  have hslot : s.slots p = none := hS.slotGuards.content t p _ hv
  refine Sound.agrees (Function.update owner m'.entry (some (.slot p))) ?_
  exact { hS.at_ t with
    blocks := hS.blocks.pass (isSome_update (by simp [hown]) rfl) fun b =>
      update_keeps (by simp [hown]) (by simp) b
    workers := hS.workers.lose (by simp [Holdings.of, Held.own, hes]) fun _ => nofun
    slots := by
      refine hS.slots.write hv (fun u v' hu => hS.slotGuards.uniq hv hu)
        (fun _ => nofun) rfl (fun b => ?_) fun b q hq =>
        update_keeps (by simp [hown]) (by simp [Ne.symm hq]) b
      by_cases hb : b = m'.entry
      · simp [hb]
      · simp only [Function.update_of_ne hb, Option.some.injEq, exists_eq_left',
          Ne.symm hb, iff_false]
        exact hS.slots.not_owner hslot b
    keys := hS.keys.other fun b n => update_keeps (by simp [hown]) (by simp) b
    nodes := (hS.at_ t).nodes.other fun b => update_keeps (by simp [hown]) (by simp) b
    slotGuards := hS.slotGuards.write hv rfl fun _ => nofun
    entryGuards :=
      hS.entryGuards.hold (fun c => by simp [Holdings.of, hmapped, hes, or_comm, eq_comm])
      fun _ _ => nofun
    mapped := by
      refine hS.mapped.replace (fun M hM => ?_) fun u M _ hM =>
        ⟨Function.update_of_ne ?_ .., Function.update_of_ne (hS.mapped_ne hown u M hM) .., rfl⟩
      · cases hM
        exact ⟨Function.update_self .., Function.update_self .., rfl⟩
      · rintro rfl
        have h := (hS.mapped u M hM).1
        rw [hslot] at h
        cases h }

/-- A worker puts an entry of its own, whose guard it has, in the place of the entry in a
slot that it has locked. -/
theorem fill_mapped {es : Multiset ℕ} {m' : MapSlot} {c : CacheEntry}
    (hS : Sound start l owner (.of g) s) (hv : (g t).slot = some (p, .mapped m))
    (hM : (g t).mapped = some ⟨p, m, c⟩) (hes : (g t).locked = m'.entry ::ₘ es) :
    Agrees start (l ++ [(t, .did (.writeSlot p (some m')) ())])
      (Function.update g t
        { g t with
          slot := some (p, .mapped m'), mapped := some ⟨p, m', s.entries m'.entry⟩, locked :=
  m.entry ::ₘ es })
      { s with slots := Function.update s.slots p (some m') } := by
  have hown' : owner m'.entry = some (.worker t) :=
    hS.owner_of_locked (by rw [hes]; exact Multiset.mem_cons_self m'.entry es)
  have hown : owner m.entry = some (.slot p) := hS.owner_of_mapped hM
  have hne : m.entry ≠ m'.entry := fun he => by
    rw [he, hown'] at hown
    cases hown
  -- the new entry goes to the slot, then the old one to the worker
  have hown₁ : Function.update owner m'.entry (some (.slot p)) m.entry = some (.slot p) := by
    rw [Function.update_of_ne hne, hown]
  have hiff (w : Owner τ) (hw : w ≠ .slot p) (hwt : w ≠ .worker t) (b : ℕ) :
      Function.update (Function.update owner m'.entry (some (.slot p))) m.entry
        (some (.worker t)) b = some w ↔ owner b = some w := by
    rw [update_keeps (by simp [hown₁, hw.symm]) (by simp [hwt.symm])]
    exact update_keeps (by simp [hown', hwt.symm]) (by simp [hw.symm]) b
  refine Sound.agrees
    (Function.update (Function.update owner m'.entry (some (.slot p))) m.entry (some (.worker t)))
    ?_
  exact { hS.at_ t with
    blocks := by
      refine hS.blocks.pass (fun b => ?_) (hiff .start (by simp) (by simp))
      rw [isSome_update (by rw [hown₁]; rfl) rfl, isSome_update (by rw [hown']; rfl) rfl]
    workers := by
      have h := (hS.workers.lose (t := t) (b := m'.entry) (o := some (.slot p))
        (v := (g t).blocks + es + ((g t).node.toList : Multiset ℕ))
        (by simp [Holdings.of, Held.own, hes]) (by simp)).gain (t := t) (b := m.entry)
        (v := (g t).blocks + (m.entry ::ₘ es) + ((g t).node.toList : Multiset ℕ))
        (fun u => by simp [hown₁]) (by simp)
      rwa [Function.update_idem] at h
    slots := by
      refine hS.slots.write hv (fun u v' hu => hS.slotGuards.uniq hv hu) (by simp) rfl (fun b => ?_)
        fun b q hq => hiff (.slot q) (by simp [hq]) (by simp) b
      by_cases hbm : b = m.entry
      · simp [hbm, hne.symm]
      · rw [Function.update_of_ne hbm]
        by_cases hb : b = m'.entry
        · simp [hb]
        · simp only [Function.update_of_ne hb, Option.some.injEq, exists_eq_left',
            Ne.symm hb, iff_false]
          exact fun ho => hbm (hS.slots.eq_of_owner (hS.mapped t _ hM).1 ho)
    keys := hS.keys.other fun b n => hiff (.keys n) (by simp) (by simp) b
    nodes := (hS.at_ t).nodes.other (hiff .node (by simp) (by simp))
    slotGuards := hS.slotGuards.write hv rfl (by simp)
    entryGuards := by
      refine hS.entryGuards.hold (fun b => ?_) (by simp)
      simp only [Holdings.of, hM, hes, Multiset.mem_cons, Option.some.injEq, exists_eq_left']
      grind
    mapped := by
      refine hS.mapped.replace (fun M hM => ?_) fun u M hu hM' =>
        ⟨Function.update_of_ne (hS.pos_ne hM hu hM') .., ?_, rfl⟩
      · cases hM
        refine ⟨Function.update_self .., ?_, rfl⟩
        rw [Function.update_of_ne hne.symm, Function.update_self]
      · rw [Function.update_of_ne (fun he => hu (hS.mapped_uniq hM hM' he)),
          Function.update_of_ne (hS.mapped_ne hown' u M hM')] }

theorem allowed_writeSlot (p : SlotPos) (x : Option MapSlot) :
    Allowed τ start (.writeSlot p x) := by
  rintro l g s t r s' Q ⟨owner, hS⟩ hQ rfl
  cases x with
  | none =>
    rcases hQ with ⟨m, hv, hQ⟩ | ⟨m, c, hv, hM, hQ⟩
    · exact ⟨_, hQ, clear_stale hS hv⟩
    · exact ⟨_, hQ, clear_mapped hS hv hM⟩
  | some m' =>
    obtain ⟨es, hes, ⟨hv, hmapped, hQ⟩ | ⟨m, c, hv, hM, hQ⟩⟩ := hQ
    · exact ⟨_, hQ _, fill_free hS hv hmapped hes⟩
    · exact ⟨_, hQ _, fill_mapped hS hv hM hes⟩

/-! ### Memory -/

theorem allowed_bucket (p : ℕ) : Allowed τ start (.bucket p) := by
  rintro l g s t r s' Q ⟨owner, hS⟩ ⟨hnone, hsome⟩ ha
  cases r with
  | none =>
    obtain rfl : s' = s := ha
    exact ⟨_, hnone, Sound.agrees _ (hS.plain t trivial)⟩
  | some b =>
    obtain ⟨hlive, hb, rfl⟩ := ha
    have hown : owner b = none := by
      rw [← Option.not_isSome_iff_eq_none, ← hS.blocks.live, hlive]
      nofun
    refine ⟨_, hsome b, Sound.agrees (Function.update owner b (some (.worker t))) ?_⟩
    exact { hS.plain t (a := .did (.bucket p) (some b)) trivial with
      blocks := hS.blocks.change hb (by simp [hown]) (by simp)
      workers := hS.workers.gain (fun u => by simp [hown]) (by simp [Holdings.of, Held.own])
      slots := (hS.at_ t).slots.other fun c p => update_keeps (by simp [hown]) (by simp) c
      keys := hS.keys.other fun c n => update_keeps (by simp [hown]) (by simp) c
      nodes := (hS.at_ t).nodes.other fun c => update_keeps (by simp [hown]) (by simp) c
      mapped := (hS.at_ t).mapped.other fun c p => update_keeps (by simp [hown]) (by simp) c }

/-- A worker releases a block of its own. -/
theorem release_own {bs : Multiset ℕ} (hS : Sound start l owner (.of g) s)
    (hbs : (g t).blocks = b ::ₘ bs) :
    Agrees start (l ++ [(t, .did (.release b) ())]) (Function.update g t { g t with blocks := bs })
      { s with live := Function.update s.live b false } := by
  have hown : owner b = some (.worker t) :=
    hS.owner_of_blocks (by rw [hbs]; exact Multiset.mem_cons_self b bs)
  refine Sound.agrees (Function.update owner b none) ?_
  exact { hS.at_ t with
    blocks := hS.blocks.change (hS.ne_root (by simp [hown])) (by simp [hown]) nofun
    workers := hS.workers.lose (by simp [Holdings.of, Held.own, hbs]) fun _ => nofun
    slots := (hS.at_ t).slots.other fun c p => update_keeps (by simp [hown]) (by simp) c
    keys := hS.keys.other fun c n => update_keeps (by simp [hown]) (by simp) c
    nodes := (hS.at_ t).nodes.other fun c => update_keeps (by simp [hown]) (by simp) c
    slotGuards := by
      refine (hS.at_ t).slotGuards.released fun p v m hv hm => ?_
      rintro rfl
      have ho := (hS.at_ t).slots.present t p v m hv hm
      rw [hown] at ho
      cases ho
    mapped := (hS.at_ t).mapped.other fun c p => update_keeps (by simp [hown]) (by simp) c }

/-- A worker that has the guard of a slot releases the entry, which nobody is at. -/
theorem release_quiet (hS : Sound start l owner (.of g) s) (hv : (g t).slot = some (p, .quiet m)) :
    Agrees start (l ++ [(t, .did (.release m.entry) ())])
      (Function.update g t { g t with slot := some (p, .stale m) })
      { s with live := Function.update s.live m.entry false } := by
  have hown : owner m.entry = some (.slot p) := hS.owner_of_quiet hv
  have hne (u : τ) (M : Mapped) (hM : (g u).mapped = some M) : M.slot.entry ≠ m.entry := by
    intro he
    have hguard := (hS.entryGuards.holds m.entry u).mpr (Or.inr ⟨M, hM, he⟩)
    rw [hS.entryGuards.quiet t p m hv] at hguard
    cases hguard
  refine Sound.agrees (Function.update owner m.entry none) ?_
  exact { hS.at_ t with
    blocks := hS.blocks.change (hS.ne_root (by simp [hown])) (by simp [hown]) nofun
    workers := (hS.at_ t).workers.other fun c u => update_keeps (by simp [hown]) (by simp) c
    slots := hS.slots.release hv (hS.slotGuards.content t p _ hv) fun u v' hu =>
      hS.slotGuards.uniq hv hu
    keys := hS.keys.other fun c n => update_keeps (by simp [hown]) (by simp) c
    nodes := (hS.at_ t).nodes.other fun c => update_keeps (by simp [hown]) (by simp) c
    slotGuards := by
      refine hS.slotGuards.turn hv rfl fun m' hm' => ?_
      cases hm'
      exact ⟨fun _ => rfl, fun _ => unemptied_snoc.mpr (Or.inl rfl)⟩
    entryGuards := hS.entryGuards.setView rfl rfl fun _ _ => nofun
    mapped := by
      refine hS.mapped.replace (fun M hM => ?_) fun u M _ hM =>
        ⟨rfl, Function.update_of_ne (hne u M hM) .., rfl⟩
      rw [Function.update_of_ne (hne t M hM)]
      exact hS.mapped t M hM }

theorem allowed_release (b : ℕ) : Allowed τ start (.release b) := by
  rintro l g s t r s' Q ⟨owner, hS⟩ ⟨hlist, hQ⟩ ⟨hmark, rfl⟩
  rcases hQ with ⟨bs, hbs, hQ⟩ | ⟨p, m, hv, rfl, hQ⟩
  · exact ⟨_, hQ, release_own hS hbs⟩
  · exact ⟨_, hQ, release_quiet hS hv⟩

/-! ### All operations -/

theorem allowed (o : Op) : Allowed τ start o := by
  cases o with
  | lock g =>
    cases g with
    | slot p => exact allowed_lock_slot p
    | entry e => exact allowed_lock_entry e
    | keys n => exact allowed_lock_keys n
    | list p => exact fun l g s t r s' Q _ hQ => hQ.elim
  | tryLock g =>
    cases g with
    | list p => exact allowed_tryLock_list p
    | _ => exact fun l g s t r s' Q _ hQ => hQ.elim
  | unlock g =>
    cases g with
    | slot p => exact allowed_unlock_slot p
    | entry e => exact allowed_unlock_entry e
    | keys n => exact allowed_unlock_keys n
    | list p => exact allowed_unlock_list p
  | readSlot p => exact allowed_readSlot p
  | returnEntry p e key => exact allowed_returnEntry p e key
  | writeSlot p x => exact allowed_writeSlot p x
  | readEntry e => exact allowed_readEntry e
  | writeEntry e v => exact allowed_writeEntry e v
  | initEntry e => exact allowed_initEntry e
  | fill e size bytes => exact allowed_fill e size bytes
  | readTag n => exact allowed_readTag n
  | readChild n side => exact allowed_readChild n side
  | initNode n tag => exact allowed_initNode n tag
  | exchangeChild n side c => exact allowed_exchangeChild n side c
  | readKeys n => exact allowed_readKeys n
  | writeKeys n ks => exact allowed_writeKeys n ks
  | bucket p => exact allowed_bucket p
  | release b => exact allowed_release b
  | time => exact allowed_time
  | read nmemb => exact allowed_read nmemb
  | info => exact allowed_info
  | crash => exact fun l g s t r => r.elim

/-- What the workers hold agrees with what is shared, whatever they do. -/
theorem fulfilled : contract.Fulfilled (Op.act (τ := τ)) (Agrees start) where
  op l g s t o r s' Q hJ hQ ha := allowed o l g s t r s' Q hJ hQ ha
  other l g s t a ha := by
    rintro ⟨owner, hS⟩
    have hplain : Plain a := by
      cases a with
      | did o r => exact absurd rfl (ha o r)
      | _ => trivial
    refine ⟨owner, ?_⟩
    have h := hS.plain t hplain
    rwa [Holdings.of_set_self] at h

end Operations

/-! ### All runs -/

/-- The owners at start-up. -/
def startOwner (start : ℕ → Bool) (b : ℕ) : Option (Owner τ) :=
  if start b = true ∧ b ≠ root then some .start else none

theorem startOwner_eq_some_iff {w : Owner τ} : startOwner start b = some w ↔
    (start b = true ∧ b ≠ root) ∧ w = .start := by
  unfold startOwner
  split_ifs with h
  · simp [h, eq_comm]
  · simp [h]

/-- At start-up, nobody has anything but the blocks that were reserved before. -/
theorem sound_init (start : ℕ → Bool) :
    Sound start [] (startOwner start) (.of fun _ : τ => Held.init) (Workers.init start).shared where
  blocks := by
    refine ⟨fun b => ?_, by simp [startOwner], fun b => by simp [startOwner_eq_some_iff]⟩
    by_cases h : start b = true ∧ b ≠ root
    · simp [Workers.init, startOwner, h]
    · have h' : (start b && b != root) = false := by simpa using h
      simp [Workers.init, startOwner, h, h']
  workers := by
    refine ⟨fun t => Multiset.nodup_zero, fun t b => ?_⟩
    simp [Holdings.of, Held.own, Held.init, startOwner_eq_some_iff]
  slots :=
    ⟨fun p b => by simp [startOwner_eq_some_iff], by simp [Workers.init], by simp [Holdings.of,
    Held.init], by simp [Holdings.of, Held.init]⟩
  keys :=
    ⟨fun n _ => Multiset.nodup_zero, fun n b => by simp [Workers.init, startOwner_eq_some_iff]⟩
  nodes := by
    refine ⟨fun n => ?_, by simp [Holdings.of, Held.init], by simp [Holdings.of, Held.init]⟩
    simp only [startOwner_eq_some_iff, reduceCtorEq, and_false, false_iff, not_and, not_not]
    intro h
    cases h with
    | root => rfl
    | child _ hc => cases hc
  slotGuards :=
    ⟨fun p t => by simp [Workers.init, Holdings.of, Held.init], by simp [Holdings.of,
    Held.init], by simp [Holdings.of, Held.init]⟩
  entryGuards :=
    ⟨fun e t => by simp [Workers.init, Holdings.of, Held.init], by simp [Holdings.of, Held.init]⟩
  mapped := by simp [MappedEntries, Holdings.of, Held.init]
  keyLocks :=
    ⟨fun n t => by simp [Workers.init, Holdings.of, Held.init], by simp [Holdings.of, Held.init]⟩
  marks := fun p t => by simp [Workers.init, Holdings.of, Held.init]

/-- In every state that the workers reach, what they hold agrees with what is shared, and
lets each of them go on from where it is. -/
theorem reachable {c : Workers τ} (h : Run Step (Workers.init start) l c) :
    Threads.Holds (Agrees start) (fun g t _ loc => contract.Covers Held.AtRest (g t) loc) l c := by
  classical
  exact fulfilled.invariant (fun c _ hr => wp_handleRequest c hr) h
    ⟨fun _ => Held.init, ⟨_, sound_init start⟩, fun _ => Held.init_atRest⟩

end Guarded

end Cik

import Cik.Interleaving.Fulfilment

/-!
# What holds whatever the workers do

Any number of workers handle any requests, in any interleaving. Nobody waits in a circle,
and a worker that has answered holds nothing (`no_deadlock`). What is released is live
(`blocks_live`). An entry that is in a slot is not used after it is released
(`entries_guarded`), although the slot may still have it for a while:
`slot_written_without_entry_guard` is about a run where it has.
-/

namespace Cik

namespace Guarded

variable {τ : Type*} {start : ℕ → Bool} {l : List (τ × Event)} {owner : ℕ → Option (Owner τ)}
  {g : τ → Held} {s : Process τ} {c : Workers τ} {t u v : τ} {o : Op} {p : SlotPos} {m : MapSlot}
    {b e : ℕ} {x y : Guard}

/-- The worker is at an operation. -/
def At (c : Workers τ) (t : τ) (o : Op) : Prop := ∃ k, c.loc t = some (.op o k)

/-- What a worker holds lets it do the operation it is at. -/
theorem At.spec (h : At c t o) (hc : contract.Covers Held.AtRest (g t) (c.loc t)) :
    ∃ Q, Held.spec o Q (g t) := by
  obtain ⟨k, hk⟩ := h
  rw [hk] at hc
  exact ⟨_, hc⟩

/-! ### Locks -/

/-- The guard that an operation waits for when somebody has it. -/
def Process.awaited (s : Process τ) : Op → Option Guard
  | .lock x => some x
  | .release b => some (.list (s.partition b))
  | _ => none

/-- A worker is where it waits for a guard. -/
def Waits (c : Workers τ) (t : τ) (x : Guard) : Prop := ∃ o, At c t o ∧ c.shared.awaited o = some x

/-- A worker has a guard. -/
def Has (c : Workers τ) (t : τ) (x : Guard) : Prop := c.shared.holder x = some t

/-- The order in which guards are taken. -/
def Guard.rank : Guard → ℕ
  | .slot _ => 0
  | .entry _ => 1
  | .keys _ => 2
  | .list _ => 3

section Ranks

variable (hc : ∀ t, contract.Covers Held.AtRest (g t) (c.loc t))

include hc

/-- A worker that waits for the guard of an entry which somebody has has not locked another
entry in a slot, and the entry is in the slot whose guard it has. -/
theorem waits_entry (hS : Sound start l owner (.of g) c.shared) (ht : Waits c t (.entry e))
    (hu : Has c u (.entry e)) :
    (g t).mapped = none ∧ (g t).keys = none ∧ (g t).list = none ∧
    ∃ p, owner e = some (.slot p) := by
  obtain ⟨o, ho, hy⟩ := ht
  obtain ⟨Q, hQ⟩ := ho.spec (hc t)
  cases o with
  | lock y =>
    cases hy
    obtain ⟨hkeys, hlist, ⟨hmapped, p, v, m, hv, hm, rfl, -⟩ | ⟨bs, hbs, -⟩⟩ := hQ
    · exact ⟨hmapped, hkeys, hlist, p, hS.slots.present t p v m hv hm⟩
    · have hnone :=
        hS.entryGuard_of_blocks (t := t) (e := e) (by rw [hbs]; exact Multiset.mem_cons_self e bs)
      cases hnone.symm.trans hu
  | release b => cases hy
  | _ => cases hy

/-- So is it for the guard of a slot, of which none is taken after another guard. -/
theorem waits_slot (ht : Waits c t (.slot p)) : (g t).Unguarded := by
  obtain ⟨o, ho, hy⟩ := ht
  obtain ⟨Q, hQ⟩ := ho.spec (hc t)
  cases o with
  | lock y =>
    cases hy
    obtain ⟨hslot, hmapped, hkeys, hlist, -⟩ := hQ
    exact ⟨hslot, hmapped, hkeys, hlist⟩
  | release b => cases hy
  | _ => cases hy

theorem waits_keys {n : ℕ} (ht : Waits c t (.keys n)) : (g t).keys = none ∧ (g t).list = none := by
  obtain ⟨o, ho, hy⟩ := ht
  obtain ⟨Q, hQ⟩ := ho.spec (hc t)
  cases o with
  | lock y =>
    cases hy
    obtain ⟨-, hkeys, hlist, -⟩ := hQ
    exact ⟨hkeys, hlist⟩
  | release b => cases hy
  | _ => cases hy

theorem waits_list {q : ℕ} (ht : Waits c t (.list q)) : (g t).list = none := by
  obtain ⟨o, ho, hy⟩ := ht
  obtain ⟨Q, hQ⟩ := ho.spec (hc t)
  cases o with
  | lock y =>
    cases hy
    exact hQ.elim
  | release b => exact hQ.1
  | _ => cases hy

/-- Whoever has a guard and waits waits for one that comes later. -/
theorem rank_lt (hS : Sound start l owner (.of g) c.shared) (ht : Waits c t x) (hu : Has c u x)
    (huy : Waits c u y) (hv : Has c v y) : x.rank < y.rank := by
  cases x with
  | slot p =>
    obtain ⟨w, hw⟩ := (hS.slotGuards.holds p u).mp hu
    cases y with
    | slot q => cases (waits_slot hc huy).slot.symm.trans hw
    | _ => simp [Guard.rank]
  | entry e =>
    obtain ⟨-, -, -, p, hown⟩ := waits_entry hc hS ht hu
    -- the entry is in a slot, so `u` has not got its guard from before it was put there
    have hM : ∃ M, (g u).mapped = some M := by
      rcases (hS.entryGuards.holds e u).mp hu with hlocked | ⟨M, hM, -⟩
      · cases (hS.owner_of_locked hlocked).symm.trans hown
      · exact ⟨M, hM⟩
    obtain ⟨M, hM⟩ := hM
    cases y with
    | slot q => cases (waits_slot hc huy).mapped.symm.trans hM
    | entry e' => cases (waits_entry hc hS huy hv).1.symm.trans hM
    | _ => simp [Guard.rank]
  | keys n =>
    obtain ⟨ks, hks⟩ := (hS.keyLocks.holds n u).mp hu
    cases y with
    | slot q => cases (waits_slot hc huy).keys.symm.trans hks
    | entry e => cases (waits_entry hc hS huy hv).2.1.symm.trans hks
    | keys m => cases (waits_keys hc huy).1.symm.trans hks
    | list q => simp [Guard.rank]
  | list q =>
    have hlist := (hS.marks q u).mp hu
    cases y with
    | slot p => cases (waits_slot hc huy).list.symm.trans hlist
    | entry e => cases (waits_entry hc hS huy hv).2.2.1.symm.trans hlist
    | keys m => cases (waits_keys hc huy).2.symm.trans hlist
    | list q' => cases (waits_list hc huy).symm.trans hlist

end Ranks

/-- A worker that is at rest has no guard. -/
theorem Sound.not_has (hS : Sound start l owner (.of g) c.shared) (hr : (g t).AtRest) (x : Guard) :
    ¬ Has c t x := by
  intro hx
  cases x with
  | slot p =>
    obtain ⟨v, hv⟩ := (hS.slotGuards.holds p t).mp hx
    cases hr.slot.symm.trans hv
  | entry e =>
    rcases (hS.entryGuards.holds e t).mp hx with hlocked | ⟨M, hM, -⟩
    · have hown : e ∈ (g t).own :=
        Multiset.mem_add.mpr (Or.inl (Multiset.mem_add.mpr (Or.inr hlocked)))
      rw [hr.own] at hown
      cases hown
    · cases hr.mapped.symm.trans hM
  | keys n =>
    obtain ⟨ks, hks⟩ := (hS.keyLocks.holds n t).mp hx
    cases hr.keys.symm.trans hks
  | list q => cases hr.list.symm.trans ((hS.marks q t).mp hx)

/-- No workers wait in a circle, each for a guard that the next one has, and a worker that
has answered has no guard. -/
theorem no_deadlock (h : Run Step (Workers.init start) l c) :
    (∀ t, ¬ Relation.TransGen (Threads.WaitsFor (Waits c) (Has c)) t t) ∧
      ∀ t, c.loc t = none → ∀ x, ¬ Has c t x := by
  obtain ⟨g, ⟨owner, hS⟩, hc⟩ := reachable h
  constructor
  · exact Threads.not_transGen_waits fun t u v x y ht hu huy hv => rank_lt hc hS ht hu huy hv
  · intro t ht
    have hr := hc t
    rw [ht] at hr
    exact hS.not_has hr

/-- A DEL of the key `00 00 6E`. -/
def delCall : Call := ⟨⟨fun _ => 0, 0, 8⟩, ⟨fun i => [0x43, 0x69, 0x4B, 0x64, 3].getD i 0⟩⟩

/-- One worker waits for the guard that the other one has, and there is no circle. -/
theorem no_deadlock_waiting : ∃ c : Workers Bool, Has c false (.slot (0, 0)) ∧
    Waits c true (.slot (0, 0)) ∧
    ∀ t, ¬ Relation.TransGen (Threads.WaitsFor (Waits c) (Has c)) t t := by
  have hread (t : Bool) (s : Process Bool) : Op.act t s (.read 3) (StatusCode.ok, [110, 0, 0]) s :=
    ⟨.inl ⟨rfl, rfl⟩, rfl⟩
  have hrun : Run Step (Workers.init fun _ => false) _ _ :=
    .cons (Threads.step_at false rfl (.call delCall)) <|
    .cons (Threads.step_at true rfl (.call delCall)) <|
    .cons (Threads.step_at false rfl (.op (hread _ _))) <|
    .cons (Threads.step_at true rfl (.op (hread _ _))) <|
    .cons (Threads.step_at false rfl (.op (r := ()) ⟨rfl, rfl⟩)) <|
    .nil _
  refine ⟨_, ?_, ?_, (no_deadlock hrun).1⟩
  · rfl
  · exact ⟨_, ⟨_, rfl⟩, rfl⟩

/-! ### Runs of one worker -/

/-- One worker, alone, gets from a place in its program to a state by certain steps. -/
def Gets (P : List (Unit × Event) → Workers Unit → Prop) (s : Process Unit)
    (q : Option (Program Reply)) : Prop :=
  ∃ l c, Run MachineStep ⟨s, fun _ => q⟩ l c ∧ P l c

namespace Gets

variable {P : List (Unit × Event) → Workers Unit → Prop} {s s' : Process Unit}

theorem cons {q q' : Option (Program Reply)} {a : Event}
    (hs : Prog.Serve Op.effect handleRequest () s q a s' q')
    (h : Gets (fun l => P (((), a) :: l)) s' q') : Gets P s q := by
  obtain ⟨l, c, hrun, hP⟩ := h
  have hstep : MachineStep ⟨s, fun _ => q⟩ ((), a) ⟨s', fun _ => q'⟩ :=
    ⟨hs, fun u hu => absurd rfl hu⟩
  exact ⟨((), a) :: l, c, .cons hstep hrun, hP⟩

theorem call (c : Call) (h : Gets (fun l => P (((), .call c) :: l)) s (some (handleRequest c))) :
    Gets P s none :=
  cons (.call c) h

theorem op {o : Op} {k : o.Answer → Program Reply} (r : o.Answer) (ha : o.effect () s r s')
    (h : Gets (fun l => P (((), .did o r) :: l)) s' (some (k r))) : Gets P s (some (.op o k)) :=
  cons (.op ha) h

theorem returned {a : Reply} (h : Gets (fun l => P (((), .returned a) :: l)) s none) :
    Gets P s (some (.pure a)) :=
  cons .returned h

end Gets

/-- A SET of the key `00 00 6E` without tags, value and TTL. -/
def setCall : Call :=
  ⟨⟨fun _ => 0, 0, 8⟩,
    ⟨fun i => [0x43, 0x69, 0x4B, 0x73, 3, 0, 0, 0, 0, 0, 0, 0, 0xFF, 0xFF, 0xFF, 0xFF].getD i 0⟩⟩

/-- A SET of a key of three bytes with a tag and a value of one byte. -/
def setTaggedCall : Call :=
  ⟨⟨fun _ => 0, 0, 8⟩,
    ⟨fun i => [0x43, 0x69, 0x4B, 0x73, 3, 1, 0, 0, 0, 0, 0, 1, 0xFF, 0xFF, 0xFF, 0xFF].getD i 0⟩⟩

/-- A CLR of everything. -/
def clrCall : Call := ⟨⟨fun _ => 0, 0, 8⟩, ⟨fun i => [0x43, 0x69, 0x4B, 0x63].getD i 0⟩⟩

/-- The block 1, of 256 bytes, is the entry in the first slot of the first map, the block 2 is free,
and nobody has a guard. -/
structure Stored (s : Process Unit) : Prop where
  /-- The slot. -/
  slot : s.slots (0, 0) = some ⟨getKeyHash [0, 0, 110], 1⟩
  /-- The entry has no tags. -/
  tags : (s.entries 1).tags = []
  /-- The guard of the slot. -/
  slotGuard : s.slotGuard (0, 0) = none
  /-- The guard of the entry. -/
  entryGuard : s.entryGuard 1 = none
  /-- The partition of the entry. -/
  partition : s.partition 1 = 256
  /-- The mark of its free list. -/
  mark : s.mark 256 = none
  /-- The other block. -/
  live : s.live 2 = false

/-- After the SET. -/
theorem gets_stored : Gets (fun l c => AllFit l ∧ c.loc = (fun _ => none) ∧ Stored c.shared)
    (Workers.init fun _ => false).shared none := by
  refine .call setCall ?_
  -- `read_request_key`
  refine .op (StatusCode.ok, [110, 0, 0]) ⟨.inl ⟨rfl, rfl⟩, rfl⟩ ?_
  -- `reserve_and_lock_entry`
  refine .op true ⟨rfl, rfl⟩ ?_
  refine .op () rfl ?_
  refine .op (some 1) ⟨rfl, by decide, rfl⟩ ?_
  refine .op () ⟨0, rfl⟩ ?_
  refine .op () ⟨rfl, rfl⟩ ?_
  -- the entry is filled in
  refine .op _ ⟨rfl, rfl⟩ ?_
  refine .op () rfl ?_
  refine .op (StatusCode.ok, []) ⟨.inl ⟨rfl, rfl⟩, rfl⟩ ?_
  refine .op () rfl ?_
  refine .op (0 : Time) rfl ?_
  refine .op () rfl ?_
  -- `set_locked_cache_entry`
  refine .op _ ⟨rfl, rfl⟩ ?_
  refine .op () ⟨rfl, rfl⟩ ?_
  refine .op _ ⟨rfl, rfl⟩ ?_
  refine .op () rfl ?_
  refine .op () rfl ?_
  refine .op _ ⟨rfl, rfl⟩ ?_
  refine .op () rfl ?_
  refine .returned ?_
  exact ⟨[], _, .nil _, rfl, rfl, rfl, rfl, rfl, rfl, rfl, rfl, rfl⟩

/-- The worker clears the slot after it has released the guard of the entry there. -/
theorem gets_clearing {s : Process Unit} (hs : Stored s) : Gets (fun l c => AllFit l ∧
    ∃ k, c.loc () = some (.op (.writeSlot (0, 0) none) k) ∧
      c.shared.slots (0, 0) = some ⟨getKeyHash [0, 0, 110], 1⟩ ∧
      c.shared.entryGuard 1 = none) s none := by
  refine .call clrCall ?_
  refine .op () ⟨hs.slotGuard, rfl⟩ ?_
  refine .op (some ⟨getKeyHash [0, 0, 110], 1⟩) ⟨hs.slot.symm, rfl⟩ ?_
  refine .op () ⟨hs.entryGuard, rfl⟩ ?_
  refine .op (s.entries 1) ⟨rfl, rfl⟩ ?_
  refine .op { s.entries 1 with tags := [] } ⟨?_, rfl⟩ ?_
  · rw [← hs.tags]
    rfl
  refine .op () rfl ?_
  refine .op () ⟨hs.partition ▸ hs.mark, rfl⟩ ?_
  exact ⟨[], _, .nil _, rfl, _, rfl, hs.slot, rfl⟩

/-- A SET of the key `00 00 6E` with a value of two bytes. -/
def setValueCall : Call :=
  ⟨⟨fun _ => 0, 0, 8⟩,
    ⟨fun i => [0x43, 0x69, 0x4B, 0x73, 3, 0, 0, 0, 0, 0, 0, 2, 0xFF, 0xFF, 0xFF, 0xFF].getD i 0⟩⟩

/-- The SET reserves a block, and of its value only the first byte comes. -/
theorem gets_closed {s : Process Unit} (hs : Stored s) : Gets (fun l _ => AllFit l ∧
    ∃ mid,
    l = ((), .call setValueCall) ::
    (mid ++ [((), .returned ⟨.connectionClosed, .null, ⟨fun _ => 0, 0, 8⟩⟩)]) ∧
      (∀ x ∈ mid, ∀ i, x.2 ≠ .call i) ∧
      ((), .did (.bucket MIN_BUCKET_SIZE) (some 2)) ∈ mid) s none := by
  refine .call setValueCall ?_
  refine .op (StatusCode.ok, [110, 0, 0]) ⟨.inl ⟨rfl, rfl⟩, rfl⟩ ?_
  -- `reserve_and_lock_entry`
  refine .op true ⟨(congrArg Option.isNone hs.mark).symm, rfl⟩ ?_
  refine .op () rfl ?_
  refine .op (some 2) ⟨hs.live, by decide, rfl⟩ ?_
  refine .op () ⟨0, rfl⟩ ?_
  refine .op () ⟨rfl, rfl⟩ ?_
  -- the value breaks off
  refine .op _ ⟨rfl, rfl⟩ ?_
  refine .op () rfl ?_
  refine .op (StatusCode.connectionClosed, [118]) ⟨.inr (.inl rfl), rfl⟩ ?_
  refine .op () rfl ?_
  refine .op () rfl ?_
  refine .op () ⟨rfl, rfl⟩ ?_
  refine .returned ?_
  refine ⟨[], _, .nil _, rfl, [_, _, _, _, _, _, _, _, _, _, _, _], rfl, ?_,
    .tail _ (.tail _ (.tail _ (.head _)))⟩
  simp only [List.forall_mem_cons, List.not_mem_nil, false_implies, implies_true, and_true,
    ne_eq, reduceCtorEq, not_false_eq_true]

/-! ### What is released -/

/-- What a worker is to release has an owner: the worker, or a slot whose guard it has. -/
theorem owner_of_release (hS : Sound start l owner (.of g) c.shared)
    (hc : ∀ t, contract.Covers Held.AtRest (g t) (c.loc t)) (ht : At c t (.release b)) :
    (b ∈ (g t).blocks ∧ owner b = some (.worker t)) ∨
      ∃ p m, (g t).slot = some (p, .quiet m) ∧ m.entry = b ∧ owner b = some (.slot p) := by
  obtain ⟨Q, hQ⟩ := ht.spec (hc t)
  rcases hQ.2 with ⟨bs, hbs, -⟩ | ⟨p, m, hv, rfl, -⟩
  · have hb : b ∈ (g t).blocks := by rw [hbs]; exact Multiset.mem_cons_self b bs
    exact Or.inl ⟨hb, hS.owner_of_blocks hb⟩
  · exact Or.inr ⟨p, m, hv, rfl, hS.owner_of_quiet hv⟩

/-- It is live. -/
theorem blocks_live (hS : Sound start l owner (.of g) c.shared)
    (hc : ∀ t, contract.Covers Held.AtRest (g t) (c.loc t)) (ht : At c t (.release b)) :
    c.shared.live b = true := by
  rw [hS.blocks.live]
  rcases owner_of_release hS hc ht with ⟨-, ho⟩ | ⟨p, m, -, -, ho⟩
  · rw [ho]
    rfl
  · rw [ho]
    rfl

/-! ### Entries -/

/-- The entry that an operation uses. -/
def Op.entry : Op → Option ℕ
  | .lock (.entry e) => some e
  | .unlock (.entry e) => some e
  | .returnEntry _ e _ => some e
  | .readEntry e => some e
  | .writeEntry e _ => some e
  | .initEntry e => some e
  | .fill e _ _ => some e
  | _ => none

@[simp] theorem Process.setHolder_slots (s : Process τ) (x : Guard) (w : Option τ) :
    (s.setHolder x w).slots = s.slots := by
  cases x <;> rfl

/-- What is in a slot changes only when the slot is written. -/
theorem eq_writeSlot_of_act {r : o.Answer} {s' : Process τ} (h : o.act t s r s')
    (hp : s'.slots p ≠ s.slots p) :
    ∃ x, o = .writeSlot p x := by
  cases o with
  | writeSlot q x =>
    obtain rfl : s' = _ := h
    by_cases hq : p = q
    · exact ⟨x, by rw [hq]⟩
    · exact absurd (Function.update_of_ne hq ..) hp
  | tryLock x =>
    obtain ⟨-, rfl⟩ := h
    refine absurd ?_ hp
    split_ifs
    · rw [Process.setHolder_slots]
    · rfl
  | exchangeChild n side c =>
    obtain ⟨-, rfl⟩ := h
    refine absurd ?_ hp
    split_ifs
    · rfl
    · rfl
  | bucket q =>
    cases r with
    | none =>
      obtain rfl : s' = s := h
      exact absurd rfl hp
    | some b =>
      obtain ⟨-, -, rfl⟩ := h
      exact absurd rfl hp
  | initEntry e =>
    obtain ⟨now, rfl⟩ := h
    exact absurd rfl hp
  | crash => exact r.elim
  | _ => simp_all [Op.act]

/-- How entries in slots are guarded: what the workers do to slots and entries. -/
structure Guarding (l : List (τ × Event)) (c : Workers τ) : Prop where
  /-- An entry that is used is live. -/
  used : ∀ t o e, At c t o → o.entry = some e → c.shared.live e = true
  /-- An entry that is released is live; nobody else has its guard or waits for it; and a
  slot that still has it is one whose guard the worker has, or one that a worker which has
  released what was at this address before is about to empty. -/
  release : ∀ t e, At c t (.release e) → c.shared.live e = true ∧
    (∀ u, u ≠ t → ¬ Has c u (.entry e) ∧ ¬ At c u (.lock (.entry e))) ∧
    ∀ p m, c.shared.slots p = some m → m.entry = e → ∃ u, Has c u (.slot p) ∧
    (u = t ∨ Unemptied l u p e)
  /-- A worker that has released the entry in a slot empties the slot before it releases
  the slot's guard. -/
  emptied : ∀ t p m, At c t (.unlock (.slot p)) → c.shared.slots p = some m →
    ¬ Unemptied l t p m.entry
  /-- What a lookup reads from the slot again is the entry whose key it has compared, which
  it has locked. -/
  returned : ∀ t p e key, At c t (.returnEntry p e key) →
    (c.shared.slots p).map MapSlot.entry = some e ∧ Has c t (.entry e) ∧
    (c.shared.entries e).key = key

section Entries

variable (hS : Sound start l owner (.of g) c.shared)
  (hc : ∀ t, contract.Covers Held.AtRest (g t) (c.loc t))

include hS

theorem live_of_owner {w : Owner τ} (h : owner e = some w) : c.shared.live e = true := by
  rw [hS.blocks.live, h]
  rfl

theorem has_slot {v : SlotView} (h : (g t).slot = some (p, v)) : Has c t (.slot p) :=
  (hS.slotGuards.holds p t).mpr ⟨v, h⟩

theorem has_entry {M : Mapped} (h : (g t).mapped = some M) : Has c t (.entry M.slot.entry) :=
  (hS.entryGuards.holds _ t).mpr (Or.inr ⟨M, h, rfl⟩)

include hc

theorem live_of_used (ht : At c t o) (he : o.entry = some e) : c.shared.live e = true := by
  obtain ⟨Q, hQ⟩ := ht.spec (hc t)
  cases o with
  | lock x =>
    cases x with
    | entry e' =>
      cases he
      obtain ⟨-, -, ⟨-, p, v, m, hv, hm, rfl, -⟩ | ⟨bs, hbs, -⟩⟩ := hQ
      · exact live_of_owner hS (hS.slots.present t p v m hv hm)
      · exact live_of_owner hS (hS.owner_of_blocks (by rw [hbs]; exact Multiset.mem_cons_self e bs))
    | _ => cases he
  | unlock x =>
    cases x with
    | entry e' =>
      cases he
      rcases hQ with ⟨-, p, m, c, hM, rfl, -⟩ | ⟨p, m, c, -, hM, rfl, -⟩ | ⟨es, hes, -⟩
      · exact live_of_owner hS (hS.owner_of_mapped hM)
      · exact live_of_owner hS (hS.owner_of_mapped hM)
      · exact live_of_owner hS (hS.owner_of_locked (by rw [hes]; exact Multiset.mem_cons_self e es))
    | _ => cases he
  | returnEntry p e' key =>
    cases he
    obtain ⟨m, c, hM, rfl, -⟩ := hQ
    exact live_of_owner hS (hS.owner_of_mapped hM)
  | readEntry e' =>
    cases he
    rcases hQ with ⟨p, m, c, hM, rfl, -⟩ | ⟨he, -⟩
    · exact live_of_owner hS (hS.owner_of_mapped hM)
    · exact live_of_owner hS (hS.owner_of_locked he)
  | writeEntry e' v =>
    cases he
    rcases hQ with ⟨p, m, c, hM, rfl, -⟩ | ⟨he, -⟩
    · exact live_of_owner hS (hS.owner_of_mapped hM)
    · exact live_of_owner hS (hS.owner_of_locked he)
  | initEntry e' =>
    cases he
    exact live_of_owner hS (hS.owner_of_blocks hQ.1)
  | fill e' size bytes =>
    cases he
    exact live_of_owner hS (hS.owner_of_locked hQ.1)
  | _ => cases he

/-- Nobody else has the guard of what a worker is to release, or waits for it. -/
theorem alone_at_release (ht : At c t (.release e)) (hu : u ≠ t) :
    ¬ Has c u (.entry e) ∧ ¬ At c u (.lock (.entry e)) := by
  have hnone : c.shared.entryGuard e = none := by
    rcases owner_of_release hS hc ht with ⟨he, -⟩ | ⟨p, m, hv, rfl, -⟩
    · exact hS.entryGuard_of_blocks he
    · exact hS.entryGuards.quiet t p m hv
  refine ⟨fun hh => absurd (hnone.symm.trans hh) nofun, fun hat => ?_⟩
  obtain ⟨Q, hQ⟩ := hat.spec (hc u)
  rcases owner_of_release hS hc ht with ⟨-, ho⟩ | ⟨p, m, hv, rfl, ho⟩
  · obtain ⟨-, -, ⟨-, p, v, m, hv, hm, rfl, -⟩ | ⟨bs, hbs, -⟩⟩ := hQ
    · cases (hS.slots.present u p v m hv hm).symm.trans ho
    · have ho' : owner e = some (.worker u) :=
        hS.owner_of_blocks (by rw [hbs]; exact Multiset.mem_cons_self e bs)
      cases ho'.symm.trans ho
      exact hu rfl
  · obtain ⟨-, -, ⟨-, p', v', m', hv', hm', he, -⟩ | ⟨bs, hbs, -⟩⟩ := hQ
    · have ho' := hS.slots.present u p' v' m' hv' hm'
      rw [he, ho] at ho'
      cases ho'
      exact hu (hS.slotGuards.uniq hv hv')
    · have ho' : owner m.entry = some (.worker u) :=
        hS.owner_of_blocks (by rw [hbs]; exact Multiset.mem_cons_self m.entry bs)
      cases ho'.symm.trans ho

/-- A slot that has an address whose block a worker is to release. -/
theorem guarded_at_release (ht : At c t (.release e)) (hm : c.shared.slots p = some m)
    (he : m.entry = e) :
    ∃ u, Has c u (.slot p) ∧ (u = t ∨ Unemptied l u p e) := by
  subst he
  rcases hS.slots.owned p m hm with ho | ⟨u, hu⟩
  · rcases owner_of_release hS hc ht with ⟨-, ho'⟩ | ⟨p', m', hv, -, ho'⟩
    · cases ho.symm.trans ho'
    · cases ho.symm.trans ho'
      exact ⟨t, has_slot hS hv, Or.inl rfl⟩
  · exact ⟨u, has_slot hS hu, Or.inr ((hS.slotGuards.history u p _ m hu rfl).mpr rfl)⟩

/-- Entries in slots are guarded. -/
theorem guarding : Guarding l c where
  used _ _ _ ht he := live_of_used hS hc ht he
  release t e ht :=
    ⟨blocks_live hS hc ht, fun u hu => alone_at_release hS hc ht hu,
      fun p m => guarded_at_release hS hc ht⟩
  emptied t p m ht hm hun := by
    obtain ⟨Q, v, hv, hstale, -⟩ := ht.spec (hc t)
    rw [hS.slotGuards.content t p v hv] at hm
    exact hstale m ((hS.slotGuards.history t p v m hv hm).mp hun)
  returned t p e key ht := by
    obtain ⟨Q, m, w, hM, rfl, hkey, -⟩ := ht.spec (hc t)
    obtain ⟨hslot, -, hentry⟩ := hS.mapped t _ hM
    rw [hslot, hentry]
    exact ⟨rfl, has_entry hS hM, hkey⟩

/-- What is in a slot in use is changed by a worker that has its guard, and the guard of
the entry or has released it. -/
theorem has_of_change {x : Option MapSlot} (ht : At c t (.writeSlot p x))
    (hm : c.shared.slots p = some m) :
    Has c t (.slot p) ∧ (Has c t (.entry m.entry) ∨ Unemptied l t p m.entry) := by
  obtain ⟨Q, hQ⟩ := ht.spec (hc t)
  have hstale (m' : MapSlot) (hv : (g t).slot = some (p, .stale m')) :
      Has c t (.slot p) ∧ (Has c t (.entry m.entry) ∨ Unemptied l t p m.entry) := by
    rw [hS.slotGuards.content t p _ hv] at hm
    cases hm
    exact ⟨has_slot hS hv, Or.inr ((hS.slotGuards.history t p _ m hv rfl).mpr rfl)⟩
  have hmapped (m' : MapSlot) (w : CacheEntry) (hv : (g t).slot = some (p, .mapped m'))
      (hM : (g t).mapped = some ⟨p, m', w⟩) :
      Has c t (.slot p) ∧ (Has c t (.entry m.entry) ∨ Unemptied l t p m.entry) := by
    rw [hS.slotGuards.content t p _ hv] at hm
    cases hm
    exact ⟨has_slot hS hv, Or.inl (has_entry hS hM)⟩
  cases x with
  | none =>
    rcases hQ with ⟨m', hv, -⟩ | ⟨m', w, hv, hM, -⟩
    · exact hstale m' hv
    · exact hmapped m' w hv hM
  | some m₂ =>
    obtain ⟨es, -, ⟨hv, -, -⟩ | ⟨m', w, hv, hM, -⟩⟩ := hQ
    · cases (hS.slotGuards.content t p _ hv).symm.trans hm
    · exact hmapped m' w hv hM

end Entries

/-- Entries in slots are guarded in every state that the workers reach. A worker that
changes a slot in use has its guard, and the guard of the entry there, unless it has
itself released the entry since it took the guard of the slot. -/
theorem entries_guarded (h : Run Step (Workers.init start) l c) :
    Guarding l c ∧ ∀ t a c', Step c (t, a) c' → ∀ p m, c.shared.slots p = some m →
    c'.shared.slots p ≠ some m →
      Has c t (.slot p) ∧ (Has c t (.entry m.entry) ∨ Unemptied l t p m.entry) := by
  obtain ⟨g, ⟨owner, hS⟩, hc⟩ := reachable h
  refine ⟨guarding hS hc, fun t a c' hs p m hm hm' => ?_⟩
  have hown := hs.own
  generalize hp : c.loc (t, a).1 = q at hown
  generalize c'.loc (t, a).1 = q' at hown
  generalize hs' : c'.shared = s' at hown hm'
  cases hown with
  | op hact =>
    obtain ⟨x, rfl⟩ := eq_writeSlot_of_act (p := p) hact fun he => hm' (he.trans hm)
    exact has_of_change hS hc ⟨_, hp⟩ hm
  | _ => exact absurd hm hm'

/-- A CLR clears a slot whose entry it has unlocked and released. -/
theorem gets_clear_slot : ∃ (l : List (Unit × Event)) (c : Workers Unit),
    Run Step (Workers.init fun _ => false) l c ∧
    ∃ k, c.loc () = some (.op (.writeSlot (0, 0) none) k) ∧
      c.shared.slots (0, 0) = some ⟨getKeyHash [0, 0, 110], 1⟩ ∧ c.shared.entryGuard 1 = none := by
  obtain ⟨l₁, c₁, hrun₁, hl₁, hloc, hs⟩ := gets_stored
  obtain ⟨l₂, c₂, hrun₂, hl₂, hc₂⟩ := gets_clearing hs
  rw [← hloc] at hrun₂
  exact ⟨l₁ ++ l₂, c₂, (hl₁.run hrun₁).append (hl₂.run hrun₂), hc₂⟩

/-- There it is guarded by the guard of the slot. -/
theorem entries_guarded_clear : ∃ (l : List (Unit × Event)) (c : Workers Unit),
    At c () (.writeSlot (0, 0) none) ∧ Guarding l c := by
  obtain ⟨l, c, hrun, k, hk, -⟩ := gets_clear_slot
  exact ⟨l, c, ⟨k, hk⟩, (entries_guarded hrun).1⟩

/-- What is in a slot in use is changed without the guard of the entry there. -/
theorem slot_written_without_entry_guard :
    ¬ ∀ (l : List (Unit × Event)) (c c' : Workers Unit) (a : Event) p m,
    Run Step (Workers.init fun _ => false) l c → Step c ((), a) c' → c.shared.slots p = some m →
      c'.shared.slots p ≠ some m → Has c () (.slot p) ∧ Has c () (.entry m.entry) := by
  intro h
  obtain ⟨l, c, hrun, k, hk, hslot, hguard⟩ := gets_clear_slot
  have hstep : Step c ((), .did (.writeSlot (0, 0) none) ()) _ := Threads.step_at () hk (.op rfl)
  have hhas := (h l c _ _ (0, 0) _ hrun hstep hslot (by simp)).2
  cases hguard.symm.trans hhas

end Guarded

end Cik

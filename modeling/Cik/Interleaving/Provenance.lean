import Cik.Interleaving.Coherence
import Cik.Interleaving.Safety

/-!
# Where things come from

What follows of `Cik.Interleaving.Coherence` for all that any number of workers do, in any
interleaving: the memory is as it should be in every state (`consistent`); nothing gets
into the maps (`stored_offered`) or into the tag index (`listed_offered`) but what was read
for one SET; and a GET answers with nothing else (`get_offered`).
-/

namespace Cik

namespace Guarded

open Prog

variable {τ : Type*} [DecidableEq τ] {start : ℕ → Bool} {l : List (τ × Event)}
  {c : Workers τ} {t : τ}

/-! ### All runs -/

/-- The operations fulfil both contracts, and a call begins a request. -/
theorem upheld_both :
    (contract.prod beliefs).Upheld (Op.act (τ := τ)) (fun h => h.1.AtRest ∧ h.2.AtRest)
    (fun i h => h.1.AtRest ∧ h.2.Begins i) fun l g s =>
      Agrees start l (fun t => (g t).1) s ∧ Coherent l (fun t => (g t).1) (fun t => (g t).2) s :=
  fulfilled.prod beside

/-- Every request is let through by both contracts. -/
theorem wp_both (i : Call) (h : Held × Belief) (hr : h.1.AtRest ∧ h.2.Begins i) :
    wp (contract.prod beliefs) (handleRequest i) (fun r h => (h.1.AtRest ∧ h.2.AtRest) ∧
      GetsSeen i r h.2) h :=
  (wp_prod (wp_handleRequest i hr.1) (lets_handleRequest i hr.2)).mono fun _ _ h =>
    ⟨⟨h.1, h.2.1⟩, h.2.2⟩

theorem start_both : Agrees start [] (fun _ : τ => Held.init) (Workers.init start).shared ∧
    Coherent [] (fun _ : τ => Held.init) (fun _ => Belief.init) (Workers.init start).shared :=
  ⟨⟨_, sound_init start⟩, coherent_init⟩

/-- In every state that the workers reach, what they hold agrees with what is shared, and what they
know is right. -/
theorem reachable_coherent (h : Run Step (Workers.init start) l c) :
    ∃ g β, Agrees start l g c.shared ∧ Coherent l g β c.shared ∧ ∀ t, c.loc t = none →
    (g t).AtRest := by
  obtain ⟨g, ⟨hJ, hc⟩, hs⟩ :=
    upheld_both.serves wp_both h (g := fun _ => (Held.init, Belief.init)) start_both
    (fun _ => ⟨Held.init_atRest, Belief.init_atRest⟩) fun _ => rfl
  refine ⟨_, _, hJ, hc, fun t ht => ?_⟩
  have hst := hs t
  rw [ht] at hst
  exact hst.1

/-! ### A SET and a GET -/

/-- A GET of the key. -/
def getCall : Call := ⟨⟨fun _ => 0, 0, 8⟩, ⟨fun i => [0x43, 0x69, 0x4B, 0x67, 3].getD i 0⟩⟩

/-- The entry of the SET is in its slot, and the key is in the list of the tag. -/
structure StoredTagged (s : Process Unit) : Prop where
  /-- The slots. -/
  slots : s.slots = Function.update (fun _ => none) (0, 0) (some ⟨getKeyHash [0, 0, 110], 1⟩)
  /-- The key of the entry. -/
  key : (s.entries 1).key = [0, 0, 110]
  /-- Its tags. -/
  tags : (s.entries 1).tags = [[116]]
  /-- Its value. -/
  value : (s.entries 1).value = [118]
  /-- The node. -/
  node : InTree s.child 2
  /-- The node is that of the tag. -/
  tag : s.tag 2 = [116]
  /-- Its key list. -/
  keys : s.keys 2 = [⟨3, [0, 0, 110]⟩]
  /-- The guard of the slot. -/
  slotGuard : s.slotGuard (0, 0) = none

/-- The GET is answered with the value. -/
theorem gets_answer :
    Gets (fun l c => AllFit l ∧ ∃ l' r, l = l' ++ [((), .returned r)] ∧
      lastCall l' () = some getCall ∧ r.status = .ok ∧ StoredTagged c.shared ∧
      ∀ t, c.loc t = none) (Workers.init fun _ => false).shared none := by
  refine .cons (.call setTaggedCall) ?_
  -- `read_request_key`
  refine .op (StatusCode.ok, [110, 0, 0]) ⟨.inl ⟨rfl, rfl⟩, rfl⟩ ?_
  -- `read_tags_using_payload_buffer`
  refine .op (StatusCode.ok, [1]) ⟨.inl ⟨rfl, rfl⟩, rfl⟩ ?_
  refine .op (StatusCode.ok, [116]) ⟨.inl ⟨rfl, rfl⟩, rfl⟩ ?_
  -- `reserve_and_lock_entry`
  refine .op true ⟨rfl, rfl⟩ ?_
  refine .op () rfl ?_
  refine .op (some 1) ⟨rfl, by decide, rfl⟩ ?_
  refine .op () ⟨0, rfl⟩ ?_
  refine .op () ⟨rfl, rfl⟩ ?_
  -- the entry is filled in
  refine .op _ ⟨rfl, rfl⟩ ?_
  refine .op () rfl ?_
  refine .op (StatusCode.ok, [118]) ⟨.inl ⟨rfl, rfl⟩, rfl⟩ ?_
  refine .op () rfl ?_
  refine .op (0 : Time) rfl ?_
  refine .op () rfl ?_
  -- `set_locked_cache_entry`
  refine .op _ ⟨rfl, rfl⟩ ?_
  refine .op () ⟨rfl, rfl⟩ ?_
  refine .op _ ⟨rfl, rfl⟩ ?_
  refine .op () rfl ?_
  refine .op () rfl ?_
  refine .op _ ⟨rfl, rfl⟩ ?_
  -- `get_or_create_node`
  refine .cons .loop ?_
  refine .op _ ⟨rfl, rfl⟩ ?_
  refine .op _ ⟨rfl, rfl⟩ ?_
  refine .op true ⟨rfl, rfl⟩ ?_
  refine .op () rfl ?_
  refine .op (some 2) ⟨rfl, by decide, rfl⟩ ?_
  refine .op () rfl ?_
  refine .op true ⟨rfl, rfl⟩ ?_
  refine .cons .loop ?_
  refine .op _ ⟨rfl, rfl⟩ ?_
  -- `insert_if_unique`
  refine .op () ⟨rfl, rfl⟩ ?_
  refine .op _ ⟨rfl, rfl⟩ ?_
  refine .op true ⟨rfl, rfl⟩ ?_
  refine .op () rfl ?_
  refine .op (some 3) ⟨rfl, by decide, rfl⟩ ?_
  refine .op () rfl ?_
  refine .op () rfl ?_
  refine .op () rfl ?_
  refine .cons .returned ?_
  -- `lock_and_get_cache_entry`
  refine .cons (.call getCall) ?_
  refine .op (StatusCode.ok, [110, 0, 0]) ⟨.inl ⟨rfl, rfl⟩, rfl⟩ ?_
  refine .op () ⟨rfl, rfl⟩ ?_
  refine .op (some ⟨getKeyHash [0, 0, 110], 1⟩) ⟨rfl, rfl⟩ ?_
  refine .op () ⟨rfl, rfl⟩ ?_
  refine .op _ ⟨rfl, rfl⟩ ?_
  refine .op () rfl ?_
  refine .op _ ⟨rfl, rfl⟩ ?_
  -- the value is copied
  refine .op _ ⟨rfl, rfl⟩ ?_
  refine .op () rfl ?_
  refine .op () rfl ?_
  refine .cons .returned ?_
  refine ⟨[], _, .nil _, rfl, _, _, (List.dropLast_concat_getLast (List.cons_ne_nil _ _)).symm, rfl,
    rfl, ?_, fun _ => rfl⟩
  exact ⟨rfl, rfl, rfl, rfl, @InTree.child _ root 2 .right .root (by decide), rfl, rfl, rfl⟩

/-! ### The memory -/

/-- The memory is as it should be. -/
structure Consistent (s : Process τ) : Prop where
  /-- What is in a slot whose guard is clear is live, in a map of its key, and the hash is that of
  its key. -/
  slots : ∀ p m, s.slotGuard p = none → s.slots p = some m → s.live m.entry = true ∧
    p.1 = getMapForKey (s.entries m.entry).key ∧ m.hash = getKeyHash (s.entries m.entry).key
  /-- No entry is in two such slots. -/
  once : ∀ p q m m', s.slotGuard p = none → s.slotGuard q = none → s.slots p = some m →
    s.slots q = some m' → m.entry = m'.entry → p = q
  /-- The nodes are an ordered search tree. -/
  tree : ∃ tree, Represents s.tag s.child (some root) tree ∧ tree.Ordered compareTags
  /-- No key is in a list twice. -/
  keys : ∀ n, ((s.keys n).map KeyElem.key).Nodup

/-- The memory is as it should be in every state that the workers reach. -/
theorem consistent (h : Run (Provided Fits MachineStep) (Workers.init start) l c) :
    Consistent c.shared := by
  obtain ⟨g, β, ⟨owner, hS⟩, hc, -⟩ := reachable_coherent (run_of_fits h)
  obtain ⟨tree, hin, -⟩ := hc.indexed
  refine ⟨fun p m hp hm => ⟨?_, ?_⟩, fun p q m m' hp hq hm hm' he => ?_,
    ⟨tree, hin.represents, hin.ordered⟩, fun n => (hin.proper n).nodup⟩
  · rw [hS.blocks.live, hS.owner_of_slot hp hm]
    rfl
  · rcases hc.genuine.slots p m hm with ⟨u, hu, -⟩ | ⟨hhash, hmap, -⟩
    · rw [hp] at hu
      cases hu
    · exact ⟨hmap, hhash⟩
  · have ho := hS.owner_of_slot hp hm
    rw [he, hS.owner_of_slot hq hm'] at ho
    exact (Owner.slot.inj (Option.some.inj ho)).symm

/-- After the SET and the GET. -/
theorem consistent_answer : ∃ c : Workers Unit, StoredTagged c.shared ∧ Consistent c.shared := by
  obtain ⟨l, c, hrun, hl, -, -, -, -, -, hs, -⟩ := gets_answer
  exact ⟨c, hs, consistent (hl.provided hrun)⟩

/-! ### What is stored -/

/-- What is in a slot is the key, the tags and the value of one SET, as one worker has read them;
the only slots where this need not be so are those whose entry was released by the worker that has
the guard and is to clear the slot. -/
theorem stored_offered (h : Run (Provided Fits MachineStep) (Workers.init start) l c) {p : SlotPos}
    {m : MapSlot} (hm : c.shared.slots p = some m) (he : ¬ Emptying l c.shared p m.entry) :
    Offered l (c.shared.entries m.entry) := by
  obtain ⟨g, β, -, hc, -⟩ := reachable_coherent (run_of_fits h)
  exact ((hc.genuine.slots p m hm).resolve_left he).2.2

/-- After the SET and the GET. -/
theorem stored_offered_answer : ∃ (l : List (Unit × Event)) (c : Workers Unit),
    StoredTagged c.shared ∧ Offered l (c.shared.entries 1) := by
  obtain ⟨l, c, hrun, hl, -, -, -, -, -, hs, -⟩ := gets_answer
  have hm : c.shared.slots (0, 0) = some ⟨getKeyHash [0, 0, 110], 1⟩ := by
    rw [hs.slots, Function.update_self]
  refine ⟨l, c, hs, stored_offered (hl.provided hrun) hm ?_⟩
  rintro ⟨u, hu, -⟩
  rw [hs.slotGuard] at hu
  cases hu

/-! ### What is listed and answered -/

/-- A key in the list of a tag is that of one SET with the tag. -/
theorem listed_offered (h : Run (Provided Fits MachineStep) (Workers.init start) l c) {n : ℕ}
    {elem : KeyElem} (hn : InTree c.shared.child n) (helem : elem ∈ c.shared.keys n) :
    ∃ entry, Offered l entry ∧ entry.key = elem.key ∧ c.shared.tag n ∈ entry.tags := by
  obtain ⟨g, β, -, hc, -⟩ := reachable_coherent (run_of_fits h)
  obtain ⟨tree, hin, -⟩ := hc.indexed
  exact hin.listed n hn elem helem

/-- After the SET and the GET. -/
theorem listed_offered_answer : ∃ (l : List (Unit × Event)) (entry : CacheEntry),
    Offered l entry ∧ entry.key = [0, 0, 110] ∧ [116] ∈ entry.tags := by
  obtain ⟨l, c, hrun, hl, -, -, -, -, -, hs, -⟩ := gets_answer
  obtain ⟨entry, ho, hkey, hentry⟩ :=
    listed_offered (hl.provided hrun) hs.node (by rw [hs.keys]; exact List.mem_singleton_self _)
  rw [hs.tag] at hentry
  exact ⟨l, entry, ho, hkey, hentry⟩

/-- A GET that is answered with a value is answered with that of one SET, with the key that was read
for the GET. -/
theorem get_offered {r : Reply} {call : Call}
    (h : Run (Provided Fits MachineStep) (Workers.init start) (l ++ [(t, .returned r)]) c)
    (hcall : lastCall l t = some call) (hop : call.request.op = CMD_BYTE_GET)
    (hr : r.status = .ok) :
    ∃ entry, Offered l entry ∧ (∀ stale, r.payloadBytes stale = entry.value) ∧
      handled t l = some ⟨call, [entry.key.reverse]⟩ := by
  obtain ⟨g, call', ⟨-, hc⟩, hcall', hseen⟩ := upheld_both.returned wp_both (run_of_fits h)
    (g := fun _ => (Held.init, Belief.init)) start_both
    (fun _ => ⟨Held.init_atRest, Belief.init_atRest⟩) fun _ => rfl
  obtain rfl : call' = call := Option.some.inj (hcall'.symm.trans hcall)
  obtain ⟨entry, hmem, hvalue, hkey⟩ := hseen hop hr
  have hright := hc.right t
  rw [hright.handling] at hkey
  exact ⟨entry, hright.seen entry hmem, hvalue, hkey⟩

/-- The answer to the GET. -/
theorem get_offered_answer : ∃ (l : List (Unit × Event)) (r : Reply) (entry : CacheEntry),
    Offered l entry ∧ (∀ stale, r.payloadBytes stale = entry.value) ∧
    handled () l = some ⟨getCall, [entry.key.reverse]⟩ := by
  obtain ⟨_, c, hrun, hl, l, r, rfl, hcall, hr, -⟩ := gets_answer
  obtain ⟨entry, ho, hvalue, hkey⟩ := get_offered (hl.provided hrun) hcall rfl hr
  exact ⟨l, r, entry, ho, hvalue, hkey⟩

end Guarded

end Cik

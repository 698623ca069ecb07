import Cik.Interleaving.Failure
import Cik.Interleaving.Provenance
import Cik.Interleaving.Serial

/-!
# Between requests

Whatever any number of workers have done, in any interleaving: when each of them is between
two requests, what they share is a store, made of what was read for SETs (`storeOf`), and
nobody has a guard. What the workers do from then on, one request after the other, is what
`Cik.Source.Controller` does with that store (`idle_refines`).

Which store it is depends on the interleaving. It need not be one that the same requests
give one after the other, nor need its index be exact.
-/

namespace Cik

namespace Guarded

open SearchTree

variable {τ : Type*} {start : ℕ → Bool} {l : List (τ × Event)} {c : Workers τ}
  {s s' : Process τ} {t : τ}

/-! ### Blocks -/

/-- What a block is used for, by its owner. -/
def Owner.use : Owner τ → Use
  | .start => .start
  | .slot p => .slot p
  | .node => .node
  | .keys n => .elem n
  | .worker _ => .hand

/-- An operation reserves or releases one block at most. -/
theorem live_of_act {o : Op} {r : o.Answer} (h : o.act t s r s') :
    s'.live = s.live ∨ ∃ b v, s'.live = Function.update s.live b v := by
  cases o with
  | lock x =>
    obtain ⟨-, rfl⟩ := h
    cases x <;> exact Or.inl rfl
  | tryLock x =>
    obtain ⟨-, rfl⟩ := h
    split_ifs
    · cases x <;> exact Or.inl rfl
    · exact Or.inl rfl
  | unlock x =>
    obtain rfl : s' = _ := h
    cases x <;> exact Or.inl rfl
  | exchangeChild n side child =>
    obtain ⟨-, rfl⟩ := h
    split_ifs <;> exact Or.inl rfl
  | bucket p =>
    cases r with
    | none =>
      obtain rfl : s' = s := h
      exact Or.inl rfl
    | some b =>
      obtain ⟨-, -, rfl⟩ := h
      exact Or.inr ⟨b, true, rfl⟩
  | release b =>
    obtain ⟨-, rfl⟩ := h
    exact Or.inr ⟨b, false, rfl⟩
  | initEntry e =>
    obtain ⟨now, rfl⟩ := h
    exact Or.inl rfl
  | crash => exact r.elim
  | _ => simp_all [Op.act]

/-- Only finitely many blocks are live. -/
theorem finite_live (hfin : {b | start b = true}.Finite) (h : Run Step (Workers.init start) l c) :
    {b | c.shared.live b = true}.Finite := by
  refine h.invariant (I := fun c => {b | c.shared.live b = true}.Finite) ?_ ?_
  · rintro c ⟨t, a⟩ c' hc hs
    have hown := hs.own
    -- only an operation changes what is shared
    cases a with
    | did o r =>
      obtain ⟨-, -, hact, -⟩ := Prog.Serve.did_iff.mp hown
      rcases live_of_act hact with hl | ⟨b, v, hl⟩
      · rwa [hl]
      · rw [hl]
        refine (hc.union (Set.finite_singleton b)).subset fun b' hb' => ?_
        by_cases hb : b' = b
        · exact Or.inr hb
        · refine Or.inl ?_
          change Function.update c.shared.live b v b' = true at hb'
          rwa [Function.update_of_ne hb] at hb'
    | call i =>
      rw [(Prog.Serve.call_iff.mp hown).2.1]
      exact hc
    | tau =>
      obtain ⟨_, _, _, _, _, -, hs', -⟩ := Prog.Serve.tau_iff.mp hown
      rwa [hs']
    | returned r =>
      rw [(Prog.Serve.returned_iff.mp hown).2.1]
      exact hc
  · refine hfin.subset fun b hb => ?_
    change (start b && b != root) = true at hb
    exact (Bool.and_eq_true_iff.mp hb).1

/-! ### The store -/

/-- The store in the memory, whose nodes are this tree. -/
def storeOf (s : Process τ) (tree : SearchTree CacheTag ℕ) (ht : tree.Ordered compareTags)
    (hk : ∀ n, ProperKeys (s.keys n)) :
    Store where
  maps := fun i => ⟨fun pos => (s.slots (i, pos)).map fun m => Slot.ofEntry (s.entries m.entry)⟩
  tags :=
    ⟨tree.map fun n => ⟨keysOf (s.keys n), (keysOf (s.keys n)).length, (hk n).nodup, rfl⟩,
    (ordered_map _).mpr ht⟩

variable [DecidableEq τ]

/-- What is in the index of that store is in a list of the memory. -/
theorem hasKey_storeOf {tree : SearchTree CacheTag ℕ} {ht : tree.Ordered compareTags}
    {hk : ∀ n, ProperKeys (s.keys n)} {tag : CacheTag} {key : CacheKey}
    (hin : Indexed l s.tag s.child s.keys tree) (h : (storeOf s tree ht hk).tags.HasKey tag key) :
    ∃ n, InTree s.child n ∧ s.tag n = tag ∧ ∃ elem ∈ s.keys n, elem.key = key := by
  rw [TagTree.hasKey_iff] at h
  obtain ⟨node, hnode, hkey⟩ := h
  have hfind : (tree.find compareTags tag).map _ = some node := (find_map _ tree).symm.trans hnode
  obtain ⟨n, hn, rfl⟩ := Option.map_eq_some_iff.mp hfind
  have hmem : (tag, n) ∈ tree.toList := (ht.mem_toList_iff tag n).mpr hn
  have htree : n ∈ tree.toList.map Prod.snd := List.mem_map_of_mem hmem
  exact ⟨n, (inTree_iff_mem hin.represents).mpr htree, (hin.represents.key_eq hmem).symm,
    List.mem_map.mp hkey⟩

/-- A store with nothing in it but what was read for SETs. -/
structure Store.Offered (l : List (τ × Event)) (st : Store) : Prop where
  /-- The entries. -/
  entry : ∀ i pos slot, (st.maps i).slots pos = some slot → Guarded.Offered l slot.entry
  /-- The index. -/
  key : ∀ tag key, st.tags.HasKey tag key → Listed l tag key

/-- Between requests what is in a slot is in a map of its key, with the hash of its key, and was
read for one SET. -/
theorem genuine_of_idle (h : Run Step (Workers.init start) l c) (hidle : ∀ t, c.loc t = none)
    {p : SlotPos} {m : MapSlot} (hm : c.shared.slots p = some m) :
    m.hash = getKeyHash (c.shared.entries m.entry).key ∧
      p.1 = getMapForKey (c.shared.entries m.entry).key ∧ Offered l (c.shared.entries m.entry) := by
  obtain ⟨g, β, -, hc, -⟩ := reachable_coherent h
  rcases hc.genuine.slots p m hm with ⟨u, hu, -⟩ | hgenuine
  · cases (unheld h hidle (.slot p)).symm.trans hu
  · exact hgenuine

/-- Between requests the memory represents a store. -/
theorem serves_of_idle (hfin : {b | start b = true}.Finite) (h : Run Step (Workers.init start) l c)
    (hidle : ∀ t, c.loc t = none) : ∃ st, Serves c.shared st ∧ Store.Offered l st := by
  obtain ⟨g, β, ⟨owner, hS⟩, hc, hrest⟩ := reachable_coherent h
  obtain ⟨tree, hin, -⟩ := hc.indexed
  have hunheld := unheld h hidle
  have hslot (p : SlotPos) (m : MapSlot) (hm : c.shared.slots p = some m) :
      owner m.entry = some (.slot p) :=
    hS.owner_of_slot (hunheld (.slot p)) hm
  have hmem {n : ℕ} (hn : n ∈ tree.toList.map Prod.snd) : InTree c.shared.child n :=
    (inTree_iff_mem hin.represents).mpr hn
  -- nobody has a block in hand
  have hhand (b : ℕ) : (owner b).map Owner.use ≠ some .hand := by
    intro hb
    obtain ⟨w, hw, hu⟩ := Option.map_eq_some_iff.mp hb
    cases w with
    | worker u =>
      have hown : b ∈ (g u).own := (hS.workers.mem u b).mpr hw
      rw [(hrest u (hidle u)).own] at hown
      cases hown
    | _ => cases hu
  have hblocks : RepBlocks (fun b => (owner b).map Owner.use) 0 c.shared.live :=
    { isLive := fun b => by rw [hS.blocks.live, Option.isSome_map]
      finite := finite_live hfin h
      static := by rw [hS.blocks.static, Option.map_none]
      nodup := Multiset.nodup_zero
      mem := fun b => iff_of_false (Multiset.notMem_zero b) (hhand b) }
  have hmaps : RepMaps (fun b => (owner b).map Owner.use) c.shared.slots c.shared.entries
      (storeOf c.shared tree hin.ordered hin.proper).maps :=
    { used := fun p m hm => by rw [hslot p m hm]; rfl
      hash := fun p m hm => (genuine_of_idle h hidle hm).1
      slot := fun p => rfl }
  have hindex :
    RepIndex (fun b => (owner b).map Owner.use) tree c.shared.tag c.shared.child c.shared.keys
      (storeOf c.shared tree hin.ordered hin.proper).tags :=
    { represents := hin.represents
      node := fun n hn hroot => by rw [(hS.nodes.mem n).mpr ⟨hmem hn, hroot⟩]; rfl
      elem := fun n hn b hb => by rw [(hS.keys.mem n b).mpr ⟨hmem hn, hb⟩]; rfl
      nodup := fun n hn => hS.keys.nodup n (hmem hn)
      same := by
        unfold storeOf
        rw [map_map]
        rfl
      short := fun tag key hkey => by
        obtain ⟨n, -, -, elem, helem, rfl⟩ := hasKey_storeOf hin hkey
        exact (hin.proper n).short elem helem }
  refine ⟨_, ⟨⟨_, _, hblocks, hmaps, hindex⟩, fun x _ => hunheld x⟩, fun i pos slot hs => ?_,
    fun tag key hkey => ?_⟩
  · obtain ⟨m, hm, rfl⟩ := Option.map_eq_some_iff.mp hs
    exact (genuine_of_idle h hidle hm).2.2
  · obtain ⟨n, hn, rfl, elem, helem, rfl⟩ := hasKey_storeOf hin hkey
    exact hin.listed n hn elem helem

/-- When all workers are between two requests, after whatever they have done, the memory represents
a store with nothing in it but what was read for SETs. The requests that they handle one after the
other from then on are handled as in that store, where they are what the handlers rely on, and there
is always a way to handle the next one. -/
theorem idle_refines (hfin : {b | start b = true}.Finite)
    (h : Run (Provided Fits MachineStep) (Workers.init start) l c) (hidle : ∀ t, c.loc t = none) :
    ∃ st, Rep 0 c.shared st ∧ Store.Offered l st ∧
      ∀ (l' : List (Turn τ × Outcome)) s', Run (Provided IsProper TakesTurn) c.shared l' s' →
        (∃ st', Run HandlesTurn st l' st' ∧ Rep 0 s' st' ∧ ∀ x, s'.holder x = none) ∧
          ∀ a : Turn τ, a.Proper → ∃ o s'', TakesTurn s' (a, o) s'' := by
  obtain ⟨st, hs, ho⟩ := serves_of_idle hfin (run_of_fits h) hidle
  refine ⟨st, hs.1, ho, fun l' s' h' => ?_⟩
  obtain ⟨st', hrun, hs'⟩ := hs.run h'
  refine ⟨⟨st', hrun, hs'.1, fun x => hs'.2 x (by simp)⟩, fun a ha => ?_⟩
  obtain ⟨o, s'', hturn, -⟩ := hs'.exists_turn ha
  exact ⟨o, s'', hturn.2⟩

/-- After a SET and a GET another key is stored. -/
theorem idle_refines_answer : ∃ (l : List (Unit × Event)) (c : Workers Unit) (st : Store)
    (o : Outcome) (s' : Process Unit) (st' : Store),
    c.shared.keys 2 = [⟨3, [0, 0, 110]⟩] ∧ Rep 0 c.shared st ∧ Store.Offered l st ∧
      TakesTurn c.shared (turnOf (.set [0x61] [[0x62]] [0x58] 0), o) s' ∧
      Run HandlesTurn st [(turnOf (.set [0x61] [[0x62]] [0x58] 0), o)] st' ∧ Rep 0 s' st' := by
  obtain ⟨l, c, hrun, hl, -, -, -, -, -, hs, hidle⟩ := gets_answer
  obtain ⟨st, hrep, ho, hthen⟩ := idle_refines (by simp) (hl.provided hrun) hidle
  obtain ⟨-, hnext⟩ := hthen [] _ (.nil _)
  obtain ⟨o, s', hturn⟩ := hnext _ turnOf_set_proper
  obtain ⟨⟨st', hhandles, hrep', -⟩, -⟩ :=
    hthen [(_, o)] s' (.cons ⟨turnOf_set_proper, hturn⟩ (.nil s'))
  exact ⟨l, c, st, o, s', st', hs.keys, hrep, ho, hturn, hhandles, hrep'⟩

end Guarded

end Cik

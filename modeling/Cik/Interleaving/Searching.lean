import Cik.Interleaving.Indexing
import Mathlib.Data.Fin.Basic

/-!
# The hash maps, one worker at a time

The functions of `entry.c`, run by a worker while the others do nothing: a search leaves
everything as it is but for the guard of the entry that it finds (`ends_lockAndGetCacheEntry`)
or for the slot that it clears or fills (`ends_lockAndUnsetCacheEntry`,
`ends_setLockedCacheEntry`), and a walk does to the maps and the index what the walk of
`Cik.Source.Entry` does.
-/

namespace Cik

open Probing

namespace Guarded

variable {τ : Type*} {env : Env} {t : τ} {s s' : Process τ} {client : Client}
  {hand : Multiset ℕ} {st : Store} {locked : Set ℕ} {key : CacheKey} {e : ℕ} {α : Type}

/-! ### Once round -/

section Rounds

variable {N : ℕ} [NeZero N]

/-- Going on from each place to the next is going through all of them. -/
theorem rounds_induction {P : List (Fin N) → ℕ → Fin N → Prop} (hnil : ∀ pos, P [] 0 pos)
    (hcons : ∀ l n pos, P l n (pos + 1) → P (pos :: l) (n + 1) pos) : P (List.finRange N) N 0 := by
  have hdrop (n k : ℕ) (pos : Fin N) (hk : k + n = N) (hpos : pos.val = k ∨ n = 0) :
      P ((List.finRange N).drop k) n pos := by
    induction n generalizing k pos with
    | zero =>
      have hk : (List.finRange N).length ≤ k := by
        rw [List.length_finRange]
        omega
      rw [List.drop_eq_nil_of_le hk]
      exact hnil pos
    | succ n ih =>
      have hk' : k < (List.finRange N).length := by
        rw [List.length_finRange]
        omega
      have hpos : (List.finRange N)[k] = pos := by
        rw [List.getElem_finRange]
        exact Fin.ext (by simpa using (hpos.resolve_right (Nat.succ_ne_zero n)).symm)
      rw [List.drop_eq_getElem_cons hk', hpos]
      refine hcons _ n pos (ih (k + 1) (pos + 1) (by omega) ?_)
      by_cases hn : n = 0
      · exact Or.inr hn
      · refine Or.inl ?_
        have hval : pos.val = k := by
          rw [← hpos, List.getElem_finRange]
          rfl
        rw [Fin.val_add_one_of_lt' (by omega), hval]
  exact hdrop N 0 0 (by omega) (Or.inl rfl)

/-- The next place of a search. -/
theorem next_eq_add_one (pos : Fin N) : next pos = pos + 1 := by
  have hlt := pos.isLt
  unfold next
  split_ifs with h
  · exact Fin.ext (Fin.val_add_one_of_lt' h).symm
  · have hval : pos.val + 1 = N := by omega
    refine Fin.ext ?_
    rw [Fin.val_add, Fin.val_one', Nat.add_mod_mod, hval, Nat.mod_self]
    rfl

end Rounds

/-! ### Searches -/

/-- A probe does at the slot that a scan finds what is done there, when it leaves everything as it
is at the others. -/
theorem ends_probe (test : Fin CACHE_ENTRY_MAP_SIZE → Bool) {visit : SlotPos → Program (Option α)}
    {map : Fin NUM_CACHE_ENTRY_MAPS} {start : Fin CACHE_ENTRY_MAP_SIZE}
    {Q : Option α → Process τ × Client → Prop}
    (hother : ∀ pos, test pos = false →
      Ends env t (fun r x => r = none ∧ x = (s, client)) (s, client) (visit (map, pos)))
    (hfound : ∀ pos, scan test start = some pos →
      Ends env t (fun r x => (∃ a, r = some a) ∧ Q r x) (s, client) (visit (map, pos)))
    (hnone : scan test start = none → Q none (s, client)) :
    Ends env t Q (s, client) (probe visit map CACHE_ENTRY_MAP_SIZE start) := by
  suffices h : ∀ n pos, rank start pos + n = CACHE_ENTRY_MAP_SIZE →
    scanFrom test start n pos = scan test start →
      Ends env t Q (s, client) (probe visit map n pos) from
    h _ start (by rw [rank_self, Nat.zero_add]) rfl
  intro n
  induction n with
  | zero =>
    intro pos hr
    have := Probing.rank_lt start pos
    omega
  | succ n ih =>
    intro pos hr hscan
    rw [scanFrom] at hscan
    by_cases ht : test pos = true
    · rw [if_pos ht] at hscan
      refine .bind ((hfound pos hscan.symm).mono fun r x hx => ?_)
      obtain ⟨⟨a, rfl⟩, hQ⟩ := hx
      exact .pure hQ
    · rw [if_neg ht] at hscan
      refine .bind ((hother pos (by simpa using ht)).mono fun r x hx => ?_)
      obtain ⟨rfl, rfl⟩ := hx
      by_cases hn : next pos = start
      · rw [if_pos hn] at hscan
        have hlast := rank_of_next hn
        obtain rfl : n = 0 := by omega
        exact .pure (hnone hscan.symm)
      · rw [if_neg hn] at hscan
        have hr' := rank_next hn
        rw [next_eq_add_one] at hn hscan hr'
        exact ih (pos + 1) (by omega) hscan

namespace Process

variable {x y : Guard} {w w' : Option τ}

/-- Guards are set one after the other in any order. -/
theorem setHolder_comm (h : x ≠ y) :
    (s.setHolder x w).setHolder y w' = (s.setHolder y w').setHolder x w := by
  cases x <;> cases y <;> simp only [setHolder] <;>
    rw [Function.update_comm (by simpa using h)]

end Process

namespace Rep

variable {p : SlotPos} {m : MapSlot}

/-- What is in a slot. -/
theorem slot (h : Rep hand s st) (p : SlotPos) :
    (st.maps p.1).slots p.2 = (s.slots p).map fun m => Slot.ofEntry (s.entries m.entry) := by
  obtain ⟨use, tree, -, hM, -⟩ := h
  exact hM.slot p

theorem hash (h : Rep hand s st) (hm : s.slots p = some m) :
    m.hash = getKeyHash (s.entries m.entry).key := by
  obtain ⟨use, tree, -, hM, -⟩ := h
  exact hM.hash p m hm

/-- A slot matches when its entry has the key. -/
theorem matchesAt_iff (h : Rep hand s st) {map : Fin NUM_CACHE_ENTRY_MAPS}
    {pos : Fin CACHE_ENTRY_MAP_SIZE} :
    matchesAt (st.maps map) (getKeyHash key) key pos = true ↔
      ∃ m, s.slots (map, pos) = some m ∧ m.hash = getKeyHash key ∧
        (s.entries m.entry).key = key := by
  have hslot := h.slot (map, pos)
  dsimp only at hslot
  unfold matchesAt
  rw [hslot]
  cases hm : s.slots (map, pos) with
  | none => simp
  | some m => simp [h.hash hm, Slot.ofEntry]

theorem isOpenAt_iff (h : Rep hand s st) {map : Fin NUM_CACHE_ENTRY_MAPS}
    {pos : Fin CACHE_ENTRY_MAP_SIZE} :
    isOpenAt (st.maps map) (getKeyHash key) key pos = true ↔
      ∀ m, s.slots (map, pos) = some m → m.hash = getKeyHash key ∧
      (s.entries m.entry).key = key := by
  have hslot := h.slot (map, pos)
  dsimp only at hslot
  unfold isOpenAt
  rw [hslot]
  cases hm : s.slots (map, pos) with
  | none => simp
  | some m => simp [h.hash hm, Slot.ofEntry]

end Rep

/-- The worker with the guards of a slot and of the entry there. -/
def Process.atEntry (s : Process τ) (t : τ) (p : SlotPos) (m : MapSlot) : Process τ :=
  (s.setHolder (.slot p) (some t)).setHolder (.entry m.entry) (some t)

/-- The guards of the entries in slots can be taken. -/
theorem Free.lockMapped (hF : Free locked s) (h : Rep hand s st) (hL : ∀ e ∈ locked, e ∈ hand)
    {p : SlotPos} {m : MapSlot} (hm : s.slots p = some m) :
    (s.setHolder (.slot p) (some t)).holder (.entry m.entry) = none := by
  rw [Process.holder_setHolder_of_ne (by simp)]
  exact hF.entry fun hl => h.entry_not_mem hm (hL _ hl)

/-- A slot that is looked at and left. -/
theorem ends_leaveSlot {p : SlotPos} {a : α} (hF : Free locked s) :
    Ends env t (fun r x => r = a ∧ x = (s, client)) (s.setHolder (.slot p) (some t), client)
      (unlock (.slot p) >>= fun _ => pure a) := by
  refine .bind (ends_unlock (.pure ⟨rfl, ?_⟩))
  rw [Process.setHolder_setHolder, Process.setHolder_none (hF.slot p)]

/-- An entry that is looked at and left. -/
theorem Process.leaveEntry {p : SlotPos} {m : MapSlot}
    (he : (s.setHolder (.slot p) (some t)).holder (.entry m.entry) = none) :
    (s.atEntry t p m).setHolder (.entry m.entry) none = s.setHolder (.slot p) (some t) := by
  rw [atEntry, setHolder_setHolder, setHolder_none he]

theorem ends_visitKey_other {found : SlotPos → ℕ → Program α} {map : Fin NUM_CACHE_ENTRY_MAPS}
    {pos : Fin CACHE_ENTRY_MAP_SIZE} (h : Rep hand s st) (hF : Free locked s)
    (hL : ∀ e ∈ locked, e ∈ hand) (ht : matchesAt (st.maps map) (getKeyHash key) key pos = false) :
    Ends env t (fun r x => r = none ∧ x = (s, client)) (s, client)
      (visitKey key found (map, pos)) := by
  have hnot : ¬ ∃ m, s.slots (map, pos) = some m ∧ m.hash = getKeyHash key ∧
      (s.entries m.entry).key = key := by
    rw [← h.matchesAt_iff, ht]
    simp
  refine .bind (ends_lock (hF.slot _) (.bind (ends_readSlot ?_)))
  rw [Process.setHolder_slots]
  cases hm : s.slots (map, pos) with
  | none => exact ends_leaveSlot hF
  | some m =>
    dsimp only
    split_ifs with hhash
    · have he := hF.lockMapped (t := t) h hL hm
      refine .bind (ends_lock he (.bind (ends_readEntry ?_)))
      rw [Process.setHolder_entries, Process.setHolder_entries,
        if_neg fun hk => hnot ⟨m, hm, hhash, hk⟩]
      refine .bind (ends_unlock ?_)
      rw [← Process.atEntry, Process.leaveEntry he]
      exact ends_leaveSlot hF
    · exact ends_leaveSlot hF

theorem ends_visitKey_found {found : SlotPos → ℕ → Program α} {map : Fin NUM_CACHE_ENTRY_MAPS}
    {pos : Fin CACHE_ENTRY_MAP_SIZE} (h : Rep hand s st) (hF : Free locked s)
    (hL : ∀ e ∈ locked, e ∈ hand) {m : MapSlot} (hm : s.slots (map, pos) = some m)
    (hhash : m.hash = getKeyHash key) (hkey : (s.entries m.entry).key = key)
    {Q : Option α → Process τ × Client → Prop}
    (hQ : Ends env t (fun a x => Q (some a) x) (s.atEntry t (map, pos) m, client)
      (found (map, pos) m.entry)) :
    Ends env t (fun r x => (∃ a, r = some a) ∧ Q r x) (s, client)
      (visitKey key found (map, pos)) := by
  refine .bind (ends_lock (hF.slot _) (.bind (ends_readSlot ?_)))
  rw [Process.setHolder_slots, hm]
  dsimp only
  rw [if_pos hhash]
  refine .bind (ends_lock (hF.lockMapped h hL hm) (.bind (ends_readEntry ?_)))
  rw [Process.setHolder_entries, Process.setHolder_entries, if_pos hkey]
  exact .bind (hQ.mono fun a x hx => .pure ⟨⟨a, rfl⟩, hx⟩)

/-- What a search for a key comes to, when the entry it finds is dealt with by `found`. -/
theorem ends_probeKey {found : SlotPos → ℕ → Program α} (h : Rep hand s st) (hF : Free locked s)
    (hL : ∀ e ∈ locked, e ∈ hand) {Q : Option α → Process τ × Client → Prop}
    (hnone : scan (matchesAt (st.mapOf key) (getKeyHash key) key) (homeSlot key) = none →
      Q none (s, client))
    (hfound : ∀ pos m,
      scan (matchesAt (st.mapOf key) (getKeyHash key) key) (homeSlot key) = some pos →
      s.slots (getMapForKey key, pos) = some m →
      ((st.mapOf key).slots pos).map Slot.entry = some (s.entries m.entry) →
      Ends env t (fun a x => Q (some a) x) (s.atEntry t (getMapForKey key, pos) m, client)
        (found (getMapForKey key, pos) m.entry)) :
    Ends env t Q (s, client) (probeKey (visitKey key found) key) := by
  refine ends_probe _ (fun pos ht => ends_visitKey_other h hF hL ht) (fun pos hscan => ?_) hnone
  obtain ⟨m, hm, hhash, hkey⟩ := h.matchesAt_iff.mp (scan_eq_some_iff.mp hscan).1
  refine ends_visitKey_found h hF hL hm hhash hkey (hfound pos m hscan hm ?_)
  have hslot := h.slot (getMapForKey key, pos)
  rw [hm, Option.map_some] at hslot
  rw [Store.mapOf, hslot]
  rfl

/-- The guard of the slot is released. -/
theorem Process.leaveSlot {p : SlotPos} {m : MapSlot} (hF : Free locked s) :
    (s.atEntry t p m).setHolder (.slot p) none = s.setHolder (.entry m.entry) (some t) := by
  rw [atEntry, setHolder_comm (by simp), setHolder_setHolder, setHolder_none (hF.slot p)]

/-- The entry is found and locked, or there is none. -/
theorem ends_lockAndGetCacheEntry (h : Rep hand s st) (hF : Free locked s)
    (hL : ∀ e ∈ locked, e ∈ hand) {Q : Option ℕ → Process τ × Client → Prop}
    (hnone : Cik.lockAndGetCacheEntry (st.mapOf key) key = none → Q none (s, client))
    (hsome : ∀ pos m, Cik.lockAndGetCacheEntry (st.mapOf key) key = some (pos, s.entries m.entry) →
      s.slots (getMapForKey key, pos) = some m → Q (some m.entry)
      (s.setHolder (.entry m.entry) (some t), client)) :
    Ends env t Q (s, client) (lockAndGetCacheEntry key) := by
  refine .bind
    (ends_probeKey h hF hL (fun hscan => .pure (hnone ?_)) fun pos m hscan hm hentry => ?_)
  · rw [Cik.lockAndGetCacheEntry, hscan, Option.bind_none]
  · refine .bind (ends_unlock (ends_returnEntry (.pure ?_)))
    rw [Process.leaveSlot hF, Process.setHolder_slots, hm]
    refine hsome pos m ?_ hm
    rw [Cik.lockAndGetCacheEntry, hscan, Option.bind_some]
    obtain ⟨sl, hsl, he⟩ := Option.map_eq_some_iff.mp hentry
    rw [hsl, Option.map_some, he]

/-- The entry is found and locked, and taken out of the map; or there is none. -/
theorem ends_lockAndUnsetCacheEntry (h : Rep hand s st) (hF : Free locked s)
    (hL : ∀ e ∈ locked, e ∈ hand) {Q : Option ℕ → Process τ × Client → Prop}
    (hnone : Cik.lockAndUnsetCacheEntry (st.mapOf key) key = none → Q none (s, client))
    (hsome : ∀ e map s', Cik.lockAndUnsetCacheEntry (st.mapOf key) key = some (s.entries e, map) →
      Rep (e ::ₘ hand) s' (st.setMapOf key map) → Free (insert e locked) s' →
      s'.entries = s.entries → Q (some e) (s', client)) :
    Ends env t Q (s, client) (lockAndUnsetCacheEntry key) := by
  refine ends_probeKey h hF hL (fun hscan => hnone ?_) fun pos m hscan hm hentry => ?_
  · rw [Cik.lockAndUnsetCacheEntry, hscan, Option.bind_none]
  · refine .bind (ends_writeSlot (.bind (ends_unlock (.pure ?_))))
    have hslots : (s.atEntry t (getMapForKey key, pos) m).slots = s.slots := by
      rw [Process.atEntry, Process.setHolder_slots, Process.setHolder_slots]
    have hrep : Rep hand (s.atEntry t (getMapForKey key, pos) m) st :=
      Rep.setHolder_iff.mpr (Rep.setHolder_iff.mpr h)
    have hclear := hrep.clear (by rw [hslots]; exact hm)
    refine hsome m.entry ((st.mapOf key).clear pos) _ ?_ (Rep.setHolder_iff.mpr hclear) ?_ ?_
    · rw [Cik.lockAndUnsetCacheEntry, hscan, Option.bind_some]
      obtain ⟨sl, hsl, he⟩ := Option.map_eq_some_iff.mp hentry
      rw [hsl, Option.map_some, he]
    · have hfree := hF.lock (e := m.entry) (some t)
      rw [← Process.leaveSlot (p := (getMapForKey key, pos)) hF] at hfree
      exact hfree
    · simp [Process.atEntry]

/-! ### Putting an entry into its map -/

theorem ends_visitOpen_other {map : Fin NUM_CACHE_ENTRY_MAPS} {pos : Fin CACHE_ENTRY_MAP_SIZE}
    (h : Rep hand s st) (hF : Free locked s) (hL : ∀ e ∈ locked, e ∈ hand) (he : e ∈ hand)
    (ht : isOpenAt (st.maps map) (getKeyHash key) key pos = false) :
    Ends env t (fun r x => r = none ∧ x = (s, client)) (s, client)
      (visitOpen key e (map, pos)) := by
  have hnot : ¬ ∀ m, s.slots (map, pos) = some m → m.hash = getKeyHash key ∧
      (s.entries m.entry).key = key := by
    rw [← h.isOpenAt_iff, ht]
    simp
  refine .bind (ends_lock (hF.slot _) (.bind (ends_readSlot ?_)))
  rw [Process.setHolder_slots]
  cases hm : s.slots (map, pos) with
  | none => exact absurd (by simp [hm]) hnot
  | some m =>
    dsimp only
    split_ifs with hhash heq
    · exact absurd he (heq ▸ h.entry_not_mem hm)
    · have hx := hF.lockMapped (t := t) h hL hm
      have hkey : (s.entries m.entry).key ≠ key := by
        intro hk
        refine hnot fun m' hm' => ?_
        rw [hm, Option.some.injEq] at hm'
        exact hm' ▸ ⟨hhash, hk⟩
      refine .bind (ends_lock hx (.bind (ends_readEntry ?_)))
      rw [Process.setHolder_entries, Process.setHolder_entries, if_neg hkey]
      refine .bind (ends_unlock ?_)
      rw [← Process.atEntry, Process.leaveEntry hx]
      exact ends_leaveSlot hF
    · exact ends_leaveSlot hF

/-- The entry is put into its map, and the entry of its key that was there is the worker's; or
there is no slot for it. -/
theorem ends_setLockedCacheEntry (h : Rep (e ::ₘ hand) s st) (hF : Free locked s)
    (hL : ∀ e' ∈ locked, e' ∈ e ::ₘ hand) {Q : Bool × Option ℕ → Process τ × Client → Prop}
    (hnone : Cik.setLockedCacheEntry (st.mapOf (s.entries e).key) (s.entries e) = none →
      Q (false, none) (s, client))
    (hfree : ∀ map s', Cik.setLockedCacheEntry (st.mapOf (s.entries e).key) (s.entries e) =
      some (none, map) → Rep hand s' (st.setMapOf (s.entries e).key map) → Free locked s' →
      s'.entries = s.entries → Q (true, none) (s', client))
    (hold : ∀ old map s',
      Cik.setLockedCacheEntry (st.mapOf (s.entries e).key)
      (s.entries e) = some (some (s.entries old), map) →
      Rep (old ::ₘ hand) s' (st.setMapOf (s.entries e).key map) → Free (insert old locked) s' →
      s'.entries = s.entries → Q (true, some old) (s', client)) :
    Ends env t Q (s, client) (setLockedCacheEntry e) := by
  have he := Multiset.mem_cons_self e hand
  refine .bind (ends_readEntry ?_)
  generalize hk : (s.entries e).key = key at hnone hfree hold ⊢
  refine .bind (ends_probe (isOpenAt (st.mapOf key) (getKeyHash key) key)
    (fun pos ht => ends_visitOpen_other h hF hL he ht) (fun pos hscan => ?_)
    fun hscan => .pure (hnone ?_))
  · have hopen := h.isOpenAt_iff.mp (scan_eq_some_iff.mp hscan).1
    have hset : Cik.setLockedCacheEntry (st.mapOf key) (s.entries e) =
        some (((st.mapOf key).slots pos).map Slot.entry, (st.mapOf key).put pos (s.entries e)) := by
      rw [Cik.setLockedCacheEntry, hk, hscan, Option.map_some]
    have hslot := h.slot (getMapForKey key, pos)
    rw [← Store.mapOf] at hslot
    -- the worker with the slot's guard
    have hrep : Rep (e ::ₘ hand) (s.setHolder (.slot (getMapForKey key, pos)) (some t)) st :=
      Rep.setHolder_iff.mpr h
    have hF' :
        Free locked
        ((s.setHolder (.slot (getMapForKey key, pos)) (some t)).setHolder
        (.slot (getMapForKey key, pos)) none) := by
      rw [Process.setHolder_setHolder, Process.setHolder_none (hF.slot _)]
      exact hF
    refine .bind (ends_lock (hF.slot _) (.bind (ends_readSlot ?_)))
    rw [Process.setHolder_slots]
    cases hm : s.slots (getMapForKey key, pos) with
    | none =>
      rw [hm, Option.map_none] at hslot
      rw [hslot, Option.map_none] at hset
      have hfill := hrep.fill (p := (getMapForKey key, pos)) (by rw [Process.setHolder_slots, hm])
      rw [Process.setHolder_entries, hk] at hfill
      refine .pure ⟨⟨_, rfl⟩, .bind (ends_writeSlot (.bind (ends_unlock (.pure ?_))))⟩
      exact hfree _ _ hset (Rep.setHolder_iff.mpr hfill) hF' (Process.setHolder_entries ..)
    | some m =>
      obtain ⟨hhash, hkey⟩ := hopen m hm
      rw [hm, Option.map_some] at hslot
      rw [hslot, Option.map_some] at hset
      have hx := hF.lockMapped (t := t) h hL hm
      have hne : m.entry ≠ e := fun heq => h.entry_not_mem hm (heq ▸ he)
      have hrep' : Rep (e ::ₘ hand) (s.atEntry t (getMapForKey key, pos) m) st :=
        Rep.setHolder_iff.mpr hrep
      have hslots : (s.atEntry t (getMapForKey key, pos) m).slots = s.slots := by
        rw [Process.atEntry, Process.setHolder_slots, Process.setHolder_slots]
      have hentries : (s.atEntry t (getMapForKey key, pos) m).entries = s.entries := by
        rw [Process.atEntry, Process.setHolder_entries, Process.setHolder_entries]
      have hexchange := hrep'.exchange (p := (getMapForKey key, pos)) (m := m) (by rw [hslots, hm])
      rw [hentries, hk] at hexchange
      have hF'' := hF.lock (e := m.entry) (some t)
      rw [← Process.leaveSlot (p := (getMapForKey key, pos)) hF] at hF''
      dsimp only
      rw [if_pos hhash, if_neg hne]
      refine .bind (ends_lock hx (.bind (ends_readEntry ?_)))
      rw [Process.setHolder_entries, Process.setHolder_entries, if_pos hkey]
      refine .pure ⟨⟨_, rfl⟩, .bind (ends_writeSlot (.bind (ends_unlock (.pure ?_))))⟩
      exact hold m.entry _ _ hset (Rep.setHolder_iff.mpr hexchange) hF'' hentries
  · rw [Cik.setLockedCacheEntry, hk, hscan, Option.map_none]

/-! ### Walks -/

section Walks

variable {σ σ' : Type} {callback : ℕ → σ → Program (Bool × σ)} {cb : CacheEntry → σ' → Bool × σ'}
  {R : (Fin NUM_CACHE_ENTRY_MAPS → CacheEntryHashMap) → σ' → σ → Process τ × Client → Prop}
  {maps : Fin NUM_CACHE_ENTRY_MAPS → CacheEntryHashMap} {d : σ'} {data : σ} {x : Process τ × Client}

/-- A visit to a slot is a round of the walk: `R` relates the maps and the data of the walk to the
data and the state of the visit. -/
def Visits (env : Env) (t : τ) (callback : ℕ → σ → Program (Bool × σ))
    (cb : CacheEntry → σ' → Bool × σ')
    (R : (Fin NUM_CACHE_ENTRY_MAPS → CacheEntryHashMap) → σ' → σ → Process τ × Client → Prop) :
    Prop :=
  ∀ (p : SlotPos) maps d data x, R maps d data x →
    Ends env t
      (R (Function.update maps p.1 (walkStep cb (maps p.1, d) p.2).1)
      (walkStep cb (maps p.1, d) p.2).2) x (visitEntry callback p data)

theorem ends_walkEntries (hv : Visits env t callback cb R) (map : Fin NUM_CACHE_ENTRY_MAPS)
    (h : R maps d data x) :
    Ends env t
      (R (Function.update maps map (Cik.walkEntries cb (maps map) d).1)
        (Cik.walkEntries cb (maps map) d).2) x
      (walkEntries callback map data) := by
  refine rounds_induction (P := fun l n pos => ∀ maps d data x, R maps d data x →
    Ends env t
      (R (Function.update maps map (l.foldl (walkStep cb) (maps map, d)).1)
      (l.foldl (walkStep cb) (maps map, d)).2) x (walkSlots callback map n pos data))
      (fun pos maps d data x h => ?_) (fun l n pos ih maps d data x h => ?_) maps d data x h
  · refine .pure ?_
    rw [List.foldl_nil, Function.update_eq_self]
    exact h
  · refine .bind ((hv (map, pos) maps d data x h).mono fun data' x' h' => ?_)
    refine (ih _ _ _ _ h').mono fun data'' x'' h'' => ?_
    simp only [Function.update_self, Function.update_idem] at h''
    exact h''

/-- What the walk over all entries does to one map. -/
def walkMap (cb : CacheEntry → σ' → Bool × σ')
    (st : (Fin NUM_CACHE_ENTRY_MAPS → CacheEntryHashMap) × σ') (i : Fin NUM_CACHE_ENTRY_MAPS) :
    (Fin NUM_CACHE_ENTRY_MAPS → CacheEntryHashMap) × σ' :=
  (Function.update st.1 i (Cik.walkEntries cb (st.1 i) st.2).1,
    (Cik.walkEntries cb (st.1 i) st.2).2)

theorem ends_walkAllEntries (hv : Visits env t callback cb R) (h : R maps d data x) :
    Ends env t (R (Cik.walkAllEntries cb maps d).1 (Cik.walkAllEntries cb maps d).2) x
      (walkAllEntries callback data) := by
  have hrounds :=
    rounds_induction (N := NUM_CACHE_ENTRY_MAPS) (P := fun l n i => ∀ maps d data x,
    R maps d data x →
      Ends env t (R (l.foldl (walkMap cb) (maps, d)).1 (l.foldl (walkMap cb) (maps, d)).2) x
      (walkMaps callback n i data))
    (fun i maps d data x h => .pure h)
    (fun l n i ih maps d data x h =>
      .bind ((ends_walkEntries hv i h).mono fun data' x' h' => ih _ _ _ _ h'))
  have hwalk :
      Cik.walkAllEntries cb maps d = (List.finRange NUM_CACHE_ENTRY_MAPS).foldl (walkMap cb)
      (maps, d) := by
    rw [Cik.walkAllEntries]
    refine List.foldl_ext _ _ _ fun st i _ => ?_
    rcases hw : Cik.walkEntries cb (st.1 i) st.2 with ⟨map, d⟩
    simp only [walkMap, hw]
  rw [hwalk]
  exact hrounds maps d data x h

end Walks

/-- A walk that only looks leaves everything as it is. -/
theorem visits_look {σ : Type} {callback : CacheEntry → σ → Bool × σ}
    (hc : ∀ e d, (callback e d).1 = false) (h : Rep hand s st) (hF : Free locked s)
    (hL : ∀ e ∈ locked, e ∈ hand) :
    Visits env t (look callback) callback (fun maps d data x => x = (s, client) ∧ maps = st.maps ∧
      data = d) := by
  rintro p maps d data x ⟨rfl, rfl, rfl⟩
  have hslot := h.slot p
  refine .bind (ends_lock (hF.slot p) (.bind (ends_readSlot ?_)))
  rw [Process.setHolder_slots]
  cases hm : s.slots p with
  | none =>
    rw [hm, Option.map_none] at hslot
    refine .bind (ends_unlock (.pure ⟨?_, ?_, ?_⟩))
    · rw [Process.setHolder_setHolder, Process.setHolder_none (hF.slot p)]
    · simp only [walkStep, hslot, Function.update_eq_self]
    · simp only [walkStep, hslot]
  | some m =>
    rw [hm, Option.map_some] at hslot
    obtain ⟨data', hcb⟩ : ∃ data', callback (s.entries m.entry) data = (false, data') :=
      ⟨_, Prod.ext (hc _ data) rfl⟩
    have hstep : walkStep callback (st.maps p.1, data) p.2 = (st.maps p.1, data') := by
      simp only [walkStep, hslot, Slot.ofEntry_entry, hcb]
    have hx := hF.lockMapped (t := t) h hL hm
    refine .bind (ends_lock hx (.bind (.bind (ends_readEntry (.pure ?_)))))
    rw [Process.setHolder_entries, Process.setHolder_entries, hcb, hstep]
    change Ends env t _ _
      (unlock (.entry m.entry) >>= fun _ => unlock (.slot p) >>= fun _ => pure data')
    refine .bind (ends_unlock (.bind (ends_unlock (.pure ⟨?_, ?_, rfl⟩))))
    · rw [← Process.atEntry, Process.leaveEntry hx, Process.setHolder_setHolder,
        Process.setHolder_none (hF.slot p)]
    · rw [Function.update_eq_self]

/-! ### Clearing -/

theorem ends_removeKeyFromTags {tags : List CacheTag} (h : Rep hand s st) (hF : Unlocked s)
    {Q : Unit → Process τ × Client → Prop}
    (hQ : ∀ s', Rep hand s' ⟨st.maps, Cik.removeKeyFromTags st.tags tags key⟩ → Beside s s' →
      Q () (s', client)) :
    Ends env t Q (s, client) (removeKeyFromTags key tags) := by
  induction tags generalizing s st with
  | nil => exact .pure (hQ s h (.refl s))
  | cons tag tags ih =>
    refine .bind (ends_removeKeyFromTag h hF fun s₁ h₁ hb₁ => ?_)
    exact ih h₁ (hb₁.unlocked hF) fun s' h' hb' => hQ s' h' (hb₁.trans hb')

theorem ends_addKeyToTags {tags : List CacheTag} (h : Rep hand s st) (hF : Unlocked s)
    (hkey : key.length ≤ 255) (htags : ∀ tag ∈ tags, tag.length ≤ 255)
    {Q : Unit → Process τ × Client → Prop}
    (hQ : ∀ s', Rep hand s' ⟨st.maps, Cik.addKeyToTags st.tags tags key⟩ → Beside s s' →
      Q () (s', client)) :
    Ends env t Q (s, client) (addKeyToTags key tags) := by
  induction tags generalizing s st with
  | nil => exact .pure (hQ s h (.refl s))
  | cons tag tags ih =>
    rw [List.forall_mem_cons] at htags
    refine .bind (ends_addKeyToTag h hF htags.1 hkey fun s₁ h₁ hb₁ => ?_)
    exact ih h₁ (hb₁.unlocked hF) htags.2 fun s' h' hb' => hQ s' h' (hb₁.trans hb')

/-- The callback that clears the entries that are not kept. -/
def clearing (keep : CacheEntry → Bool) (entry : CacheEntry) (tags : TagTree) : Bool × TagTree :=
  if keep entry then (false, tags) else Cik.clearAllCallback entry tags

/-- The entry of a slot is released and the slot is cleared. -/
theorem Rep.releaseSlot (h : Rep hand s st) {p : SlotPos} {m : MapSlot} (hm : s.slots p = some m) :
    Rep hand
        { s with
          live := Function.update s.live m.entry false
          slots := Function.update s.slots p none }
      ⟨Function.update st.maps p.1 ((st.maps p.1).clear p.2), st.tags⟩ := (h.clear hm).release

theorem visits_clear (keep : CacheEntry → Bool) (hL : ∀ e ∈ locked, e ∈ hand) :
    Visits env t (clearUnless keep) (clearing keep)
      (fun maps tags _ x => ∃ s', x = (s', client) ∧ Rep hand s' ⟨maps, tags⟩ ∧
        Free locked s') := by
  rintro p maps tags data x ⟨s, rfl, h, hF⟩
  have hslot := h.slot p
  dsimp only at hslot
  refine .bind (ends_lock (hF.slot p) (.bind (ends_readSlot ?_)))
  rw [Process.setHolder_slots]
  cases hm : s.slots p with
  | none =>
    rw [hm, Option.map_none] at hslot
    have hstep : walkStep (clearing keep) (maps p.1, tags) p.2 = (maps p.1, tags) := by
      simp only [walkStep, hslot]
    rw [hstep, Function.update_eq_self]
    refine .bind (ends_unlock (.pure ⟨s, ?_, h, hF⟩))
    rw [Process.setHolder_setHolder, Process.setHolder_none (hF.slot p)]
  | some m =>
    rw [hm, Option.map_some] at hslot
    have hx := hF.lockMapped (t := t) h hL hm
    refine .bind (ends_lock hx (.bind (.bind (ends_readEntry ?_))))
    rw [Process.setHolder_entries, Process.setHolder_entries]
    cases hkeep : keep (s.entries m.entry) with
    | true =>
      have hstep : walkStep (clearing keep) (maps p.1, tags) p.2 = (maps p.1, tags) := by
        simp only [walkStep, hslot, Slot.ofEntry_entry, clearing, hkeep, if_true]
      rw [hstep, Function.update_eq_self, if_pos rfl]
      refine .pure ?_
      change Ends env t _ _
        (unlock (.entry m.entry) >>= fun _ => unlock (.slot p) >>= fun _ => pure ())
      refine .bind (ends_unlock (.bind (ends_unlock (.pure ⟨s, ?_, h, hF⟩))))
      rw [← Process.atEntry, Process.leaveEntry hx, Process.setHolder_setHolder,
        Process.setHolder_none (hF.slot p)]
    | false =>
      have hstep : walkStep (clearing keep) (maps p.1, tags) p.2 =
          ((maps p.1).clear p.2,
            Cik.removeKeyFromTags tags (s.entries m.entry).tags (s.entries m.entry).key) := by
        simp only [walkStep, hslot, Slot.ofEntry_entry, clearing, hkeep, Bool.false_eq_true,
          if_false, Cik.clearAllCallback]
      have hrep : Rep hand (s.atEntry t p m) ⟨maps, tags⟩ :=
        Rep.setHolder_iff.mpr (Rep.setHolder_iff.mpr h)
      have hslots : (s.atEntry t p m).slots = s.slots := by
        rw [Process.atEntry, Process.setHolder_slots, Process.setHolder_slots]
      have hunlocked : Unlocked (s.atEntry t p m) := by
        refine ⟨fun n => ?_, fun n => ?_⟩ <;>
          rw [Process.atEntry, Process.holder_setHolder_of_ne (by simp),
            Process.holder_setHolder_of_ne (by simp)]
        · exact hF.keys n
        · exact hF.list n
      rw [hstep, if_neg (by simp)]
      refine .bind (.bind (ends_readEntry (.bind ?_)))
      have hentries : (s.atEntry t p m).entries = s.entries := by
        rw [Process.atEntry, Process.setHolder_entries, Process.setHolder_entries]
      rw [← Process.atEntry, hentries]
      refine ends_removeKeyFromTags hrep hunlocked fun s₁ h₁ hb₁ => ?_
      have hrel := h₁.releaseSlot (p := p) (m := m) (by rw [hb₁.slots, hslots, hm])
      refine .bind (ends_unlock (.bind (ends_release ?_ (.pure (.pure ?_)))))
      · rw [← Process.setHolder_partition (x := .entry m.entry) (w := none)]
        change (s₁.setHolder (.entry m.entry) none).holder (.list _) = none
        rw [Process.holder_setHolder_of_ne (by simp), hb₁.holder]
        exact hunlocked.unmarked _
      · change Ends env t _ _ (writeSlot p none >>= fun _ => unlock (.slot p) >>= fun _ => pure ())
        refine .bind
          (ends_writeSlot (.bind (ends_unlock (.pure ⟨_, rfl, Rep.setHolder_iff.mpr ?_, ?_⟩))))
        · rw [← Rep.setHolder_iff (x := .entry m.entry) (w := none)] at hrel
          exact hrel
        · refine hF.congr ?_
          rw [Process.holder_setHolder]
          change Function.update (s₁.setHolder (.entry m.entry) none).holder
            (.slot p) none = s.holder
          have he :
            s.holder (.entry m.entry) = none := by
            rw [← hx, Process.holder_setHolder_of_ne (by simp)]
          rw [Process.holder_setHolder, hb₁.holder, Process.atEntry, Process.holder_setHolder,
            Function.update_idem, Process.holder_setHolder, Function.update_comm (by simp),
            Function.update_idem, (Function.update_eq_self_iff (a := .slot p) (f := s.holder)).mpr
              (hF.slot p).symm,
            Function.update_eq_self_iff.mpr he.symm]

end Guarded

end Cik

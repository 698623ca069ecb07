import Cik.Interleaving.Quiescence
import Cik.Theory.Restart

/-!
# Restarting

When the server stops, its workers are done with their requests, and `main` writes what is in
the slots to a file, which is loaded when the server starts again. Whatever the workers have
done, in any interleaving: when nobody sends requests while the file is loaded, what is bound
then was read for one SET each and had not expired, and no key is lost whose entry had not
expired (`recovered`). A key that is in two slots is bound to the entry that the file has last.
-/

namespace Cik

namespace Guarded

variable {τ : Type*} {start : ℕ → Bool} {l : List (τ × Event)} {c : Workers τ}
  {s : Process τ} {st : Store} {d t : Time} {envs : ℕ → Env}

/-- The entries of the store are those in the slots. -/
theorem slot_iff (h : Rep 0 s st) {i : Fin NUM_CACHE_ENTRY_MAPS} {pos : Fin CACHE_ENTRY_MAP_SIZE}
    {e : CacheEntry} :
    st.slot i pos = some e ↔ ∃ m, s.slots (i, pos) = some m ∧ s.entries m.entry = e := by
  obtain ⟨use, tree, -, hmaps, -⟩ := h
  rw [Store.slot, hmaps.slot (i, pos), Option.map_map]
  exact Option.map_eq_some_iff

variable [DecidableEq τ]

/-- What a restart is to keep of what is in the slots: it is written to the file at `d` and loaded
at `t`. -/
structure Recovered (l : List (τ × Event)) (d t : Time) (s : Process τ) (st : Store) : Prop where
  /-- What is bound was in a slot, as it was read for one SET, and had not expired. -/
  source : ∀ key e, st.current key = some e → ∃ p m, s.slots p = some m ∧
    Offered l (s.entries m.entry) ∧ (s.entries m.entry).key = key ∧
    ¬ (s.entries m.entry).Expired d ∧ e = (s.entries m.entry).reloaded d t
  /-- A key that has an entry which had not expired is bound. -/
  kept : ∀ p m, s.slots p = some m → ¬ (s.entries m.entry).Expired d →
    ∃ e, st.current (s.entries m.entry).key = some e

/-- What is loaded of the file that is written when all workers are between two requests, after
whatever they have done, when the entries have names that are not empty and fit the biggest
bucket. -/
theorem recovered (hfin : {b | start b = true}.Finite)
    (h : Run (Provided Fits MachineStep) (Workers.init start) l c)
    (hidle : ∀ t, c.loc t = none)
    (hwf : ∀ p m, c.shared.slots p = some m → (c.shared.entries m.entry).WF) :
    ∃ st, Rep 0 c.shared st ∧ ∀ (d t : Time) (envs : ℕ → Env),
    (∀ i, (envs i).Grants ∧ (envs i).now = t) →
      ∀ (base : ByteMemory) (r : Request),
        Recovered l d t c.shared (loadRequestLog envs Store.init base r (dump d st)) := by
  have hstep := run_of_fits h
  obtain ⟨st, ⟨hrep, -⟩, -⟩ := serves_of_idle hfin hstep hidle
  refine ⟨st, hrep, fun d t envs henvs base r => ?_⟩
  have hall : st.All fun _ e => e.WF := by
    intro i pos e he
    obtain ⟨m, hm, rfl⟩ := (slot_iff hrep).mp he
    exact hwf (i, pos) m hm
  have hloc : st.All fun i e => getMapForKey e.key = i := by
    intro i pos e he
    obtain ⟨m, hm, rfl⟩ := (slot_iff hrep).mp he
    exact (genuine_of_idle hstep hidle hm).2.1.symm
  have hl := latest_loaded (d := d) hall hloc henvs base r
  constructor
  · intro key e he
    rw [hl.bound] at he
    obtain ⟨hmem, hkey⟩ := List.mem_filter.mp (List.mem_of_getLast? he)
    obtain ⟨e₀, he₀, rfl⟩ := List.mem_map.mp hmem
    obtain ⟨hmem₀, hlive⟩ := List.mem_filter.mp he₀
    obtain ⟨i, pos, hslot⟩ := mem_entries_iff.mp hmem₀
    obtain ⟨m, hm, rfl⟩ := (slot_iff hrep).mp hslot
    exact ⟨(i, pos), m, hm, (genuine_of_idle hstep hidle hm).2.2, of_decide_eq_true hkey,
      of_decide_eq_true hlive, rfl⟩
  · rintro ⟨i, pos⟩ m hm hlive
    have hmem : c.shared.entries m.entry ∈ st.entries :=
      mem_entries_iff.mpr ⟨i, pos, (slot_iff hrep).mpr ⟨m, hm, rfl⟩⟩
    refine Option.ne_none_iff_exists'.mp fun hnone => ?_
    rw [hl.bound, List.getLast?_eq_none_iff, List.filter_eq_nil_iff] at hnone
    refine hnone _ (List.mem_map_of_mem (List.mem_filter.mpr ⟨hmem, decide_eq_true hlive⟩)) ?_
    exact decide_eq_true rfl

/-- After a SET and a GET. -/
theorem recovered_answer : ∃ (l : List (Unit × Event)) (c : Workers Unit) (st : Store),
    c.shared.slots (0, 0) = some ⟨getKeyHash [0, 0, 110], 1⟩ ∧
      Recovered l 0 0 c.shared
        (loadRequestLog (fun _ => startEnv) Store.init (fun _ => 0) ⟨fun _ => 0⟩ (dump 0 st)) := by
  obtain ⟨l, c, hrun, hl, -, -, -, -, -, hs, hidle⟩ := gets_answer
  have hwf (p : SlotPos) (m : MapSlot) (hm : c.shared.slots p = some m) :
      (c.shared.entries m.entry).WF := by
    have hm' := hm
    rw [hs.slots, Function.update_apply] at hm'
    split_ifs at hm' with hp
    cases hm'
    refine ⟨?_, ?_, ?_⟩
    · rw [hs.key]
      decide
    · rw [hs.tags]
      decide
    · rw [hs.key, hs.tags, hs.value]
      decide
  obtain ⟨st, -, h⟩ := recovered (by simp) (hl.provided hrun) hidle hwf
  refine ⟨l, c, st, ?_, h 0 0 _ (fun _ => ⟨env_initMemory_grants 0 0, rfl⟩) _ _⟩
  rw [hs.slots, Function.update_self]

end Guarded

end Cik

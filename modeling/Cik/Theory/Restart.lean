import Cik.Theory.Reading
import Cik.Theory.TagIndex
import Mathlib.Data.Fintype.EquivFin

/-!
# Keeping the entries over a restart

The file that is written at shutdown is a log of SETs, one for each entry that has not
expired (`dump_eq`), and loading a log handles its requests one after the other
(`loadRequestLog_eq`). When no key is in two slots the SETs are of different keys, and
there is room for each, as the map of its key had room for all of them
(`Store.Holds.exists_open`); so the store is as before the restart, but for the clock
(`restored_of_orderly`). A key
in two slots may come back with its older entry (`not_restored`): it comes back with the
one that the walk over the slots meets last, whatever the store is (`latest_loaded`).
-/

namespace Cik

open Probing CacheEntryHashMap

/-! ### Loading a log -/

/-- A request in a stream. -/
def Cmd.wire (c : Cmd) : List UInt8 := c.request.toBytes ++ c.body

/-- The store after some requests, the first of them handled with the process `envs 0`. -/
def execAll : (ℕ → Env) → List Cmd → Store → Store
  | _, [], s => s
  | envs, c :: cs, s => execAll (fun i => envs (i + 1)) cs (c.exec (envs 0) s).2

/-- The loop of `load_request_log` handles the requests at the beginning of its file, one a round,
and is left with what comes behind them and the header of the last of them. -/
theorem loadLoop_append {cs : List Cmd} {rest : List UInt8} (envs : ℕ → Env)
    (ctx : Ctx) (r : Request) (hwf : ∀ c ∈ cs, c.WF) (hread : ∀ c ∈ cs, ∀ i, c.unread (envs i) = [])
    (hfull : ctx.client.Full) (hcap : ctx.payload_buffer.cap = MAX_BUCKET_SIZE)
    (hin : ctx.client.input = cs.flatMap Cmd.wire ++ rest) :
    ∃ ctx', ctx'.store = execAll envs cs ctx.store ∧ ctx'.client.Full ∧
      ctx'.payload_buffer.cap = MAX_BUCKET_SIZE ∧ ctx'.client.input = rest ∧
      ∀ fuel, loadLoop (cs.length + fuel) envs ctx r =
        loadLoop fuel (fun i => envs (i + cs.length)) ctx' ((cs.map Cmd.request).getLastD r) := by
  induction cs generalizing envs ctx r with
  | nil =>
    refine ⟨ctx, rfl, hfull, hcap, hin, fun fuel => ?_⟩
    rw [List.length_nil, Nat.zero_add]
    rfl
  | cons c cs ih =>
    have hc := hwf c List.mem_cons_self
    have hin' :
        ctx.client.input = c.request.toBytes ++ (c.body ++ (cs.flatMap Cmd.wire ++ rest)) := by
      rw [hin, List.flatMap_cons, Cmd.wire, List.append_assoc, List.append_assoc]
    have hlen : c.request.toBytes.length = 16 := c.request.length_toBytes
    obtain ⟨reads, h₁⟩ := hfull.read_append hin' (List.length_pos_iff.mp (by omega))
    rw [hlen] at h₁
    have hin₁ := Client.advance_input hin' hlen.symm reads
    have hcap₁ :
      (ctx.withClient (ctx.client.advance 16 reads)).payload_buffer.cap = MAX_BUCKET_SIZE := hcap
    -- the header has been read, the handler reads the rest
    have ha :
      (handleRequest (envs 0) (ctx.withClient (ctx.client.advance 16 reads)) c.request).Answers
        (c.exec (envs 0) ctx.store) (c.unread (envs 0) ++ (cs.flatMap Cmd.wire ++ rest)) :=
      handleRequest_answers (c.header_request hc) hc hin₁ hcap₁
    have hfull₁ : (ctx.withClient (ctx.client.advance 16 reads)).client.Full := by
      have hto := Client.ReadTo.read ctx.client 16
      rw [h₁] at hto
      exact hfull.readTo hto
    have hrest := ha.input
    rw [hread c List.mem_cons_self 0, List.nil_append] at hrest
    obtain ⟨ctx', hs, hf, hcap', hin'', hloop⟩ := ih (fun i => envs (i + 1)) _ c.request
      (fun c' h => hwf c' (List.mem_cons_of_mem _ h))
      (fun c' h i => hread c' (List.mem_cons_of_mem _ h) (i + 1))
      (hfull₁.readTo (handleRequest_readTo _ _ _)) ha.cap hrest
    refine ⟨ctx', ?_, hf, hcap', hin'', fun fuel => ?_⟩
    · rw [hs, ha.store]
      rfl
    · rw [List.length_cons, Nat.add_right_comm]
      simp only [loadLoop, h₁, hlen, Request.overlay_toBytes]
      rw [if_neg (by decide), hloop fuel, List.map_cons, List.getLastD_cons]
      rfl

/-- At the end of its file the loop stops. -/
theorem loadLoop_end {fuel : ℕ} {envs : ℕ → Env} {ctx : Ctx} (r : Request) (hfull : ctx.client.Full)
    (hin : ctx.client.input = []) (hfuel : 0 < fuel) : loadLoop fuel envs ctx r = ctx := by
  obtain ⟨fuel, rfl⟩ := Nat.exists_eq_succ_of_ne_zero (Nat.ne_of_gt hfuel)
  simp only [loadLoop, hfull.read_nil hin, List.length_nil, if_true]
  rfl

theorem length_le_flatMap_wire (cs : List Cmd) : cs.length ≤ (cs.flatMap Cmd.wire).length := by
  induction cs with
  | nil => exact Nat.le_refl 0
  | cons c cs ih =>
    have hc : 1 ≤ c.wire.length := by
      rw [Cmd.wire, List.length_append, Request.length_toBytes]
      omega
    rw [List.flatMap_cons, List.length_append, List.length_cons]
    omega

/-- Loading a file of requests that are read to their ends handles them one after the other. -/
theorem loadRequestLog_eq {cs : List Cmd} {envs : ℕ → Env} (s : Store)
    (base : ByteMemory) (r : Request) (hwf : ∀ c ∈ cs, c.WF)
    (hread : ∀ c ∈ cs, ∀ i, c.unread (envs i) = []) :
    loadRequestLog envs s base r (cs.flatMap Cmd.wire) = execAll envs cs s := by
  obtain ⟨ctx', hs, hf, -, hin, hloop⟩ := loadLoop_append envs
    ⟨s, openFile (cs.flatMap Cmd.wire), reserveBiggestPossiblePayload base⟩ r hwf hread
    (full_openFile _) rfl (List.append_nil _).symm
  obtain ⟨fuel, hfuel⟩ := Nat.exists_eq_add_of_le (length_le_flatMap_wire cs)
  rw [loadRequestLog, hfuel, Nat.add_assoc, hloop, loadLoop_end _ hf hin (Nat.succ_pos _), hs]

/-! ### Writing the log -/

theorem Request.toBytes_ofBytes {bs : List UInt8} (h : bs.length = 16) :
    (Request.ofBytes bs).toBytes = bs := by
  refine List.ext_getElem (by rw [Request.length_toBytes, h]) fun i h₁ h₂ => ?_
  simp only [Request.toBytes, List.getElem_ofFn, Request.ofBytes]
  exact (List.getElem_eq_getD _).symm

/-- The SET that is written for an entry, if one is. -/
def setRequest (d : Time) (e : CacheEntry) : Option Cmd :=
  (requestTtl d e).map fun ttl => .set e.key e.tags e.value ttl

theorem reverseInPlace_eq {bs : List UInt8} (h : IsName bs) : reverseInPlace bs = bs.reverse := by
  have hl := h.2
  have hlen : (UInt32.ofNat bs.length).toNat = bs.length := by
    rw [UInt32.toNat_ofNat']
    omega
  have hpos : 0 < (UInt32.ofNat bs.length).toNat := by
    rw [hlen]
    exact List.length_pos_iff.mpr h.1
  have hr := read_reverseBytes (ByteMemory.write (fun _ => 0) 0 bs) 0 hpos
  rw [hlen] at hr
  rw [reverseInPlace, hr, ByteMemory.read_write_self]

/-- What is written for an entry is the SET that makes it. -/
theorem writeEntry_eq {e : CacheEntry} (h : e.WF) (d : Time) (file : List UInt8) :
    writeEntryAsSetRequestCallback d e file =
      ((requestTtl d e).isSome, file ++ ((setRequest d e).map Cmd.wire).getD []) := by
  rw [writeEntryAsSetRequestCallback, setRequest]
  cases requestTtl d e with
  | none => simp
  | some ttl =>
    have htags : e.tags.flatMap writtenTag = wireTags e.tags := by
      refine List.flatMap_congr fun tag ht => ?_
      rw [writtenTag, reverseInPlace_eq (h.tags.2 tag ht)]
    have hheader : (Cmd.set e.key e.tags e.value ttl).request.toBytes = entryHeader e ttl :=
      Request.toBytes_ofBytes (by simp [Cmd.headerBytes])
    simp only [Option.map_some, Option.getD_some, Option.isSome_some, htags,
      reverseInPlace_eq h.key, Cmd.wire, Cmd.body, hheader, List.append_assoc]

/-- What is written for some entries. -/
theorem foldl_writeEntry {es : List CacheEntry} (h : ∀ e ∈ es, e.WF) (d : Time)
    (file : List UInt8) :
    es.foldl (fun file e => (writeEntryAsSetRequestCallback d e file).2) file =
      file ++ (es.filterMap (setRequest d)).flatMap Cmd.wire := by
  induction es generalizing file with
  | nil => simp
  | cons e es ih =>
    rw [List.foldl_cons, ih (fun e' h' => h e' (List.mem_cons_of_mem _ h')),
      writeEntry_eq (h e List.mem_cons_self), List.filterMap_cons]
    cases setRequest d e <;> simp

/-- The file is the SETs of the entries that have not expired. -/
theorem dump_eq {s : Store} (h : s.All fun _ e => e.WF) (d : Time) :
    dump d s = (s.entries.filterMap (setRequest d)).flatMap Cmd.wire := by
  have hcb (e : CacheEntry) (file : List UInt8) :
      (writeEntryAsSetRequestCallback d e file).1 = (requestTtl d e).isSome := by
    rw [writeEntryAsSetRequestCallback]
    cases requestTtl d e <;> rfl
  have hwf : ∀ e ∈ s.entries, e.WF := by
    intro e he
    obtain ⟨i, pos, hs⟩ := mem_entries_iff.mp he
    exact h i pos e hs
  rw [dump, walkAllEntries_eq hcb, fileWritten, foldl_writeEntry hwf, List.nil_append]

/-- Loading the file handles the SETs of the entries that had not expired, in the order of the
slots. -/
theorem load_dump {s s' : Store} (h : s.All fun _ e => e.WF) (d : Time) {envs : ℕ → Env}
    (henvs : ∀ i, (envs i).Grants) {base : ByteMemory} {r : Request} :
    loadRequestLog envs s' base r (dump d s) = execAll envs
      (s.entries.filterMap (setRequest d)) s' := by
  have hcs : ∀ c ∈ s.entries.filterMap (setRequest d), c.WF ∧ ∀ i, c.unread (envs i) = [] := by
    intro c hc
    obtain ⟨e, he, hec⟩ := List.mem_filterMap.mp hc
    obtain ⟨i, pos, hslot⟩ := mem_entries_iff.mp he
    have hewf := h i pos e hslot
    obtain ⟨ttl, -, rfl⟩ := Option.map_eq_some_iff.mp hec
    have hmax : MAX_BUCKET_SIZE = 0x800000 := rfl
    have hv := hewf.value_le
    refine ⟨⟨hewf.key, hewf.tags, by omega⟩, fun i => ?_⟩
    exact if_pos ((henvs i).requestSize hewf.key hewf.size)
  rw [dump_eq h]
  exact loadRequestLog_eq _ _ _ (fun c hc => (hcs c hc).1) fun c hc => (hcs c hc).2

/-! ### Room for all entries -/

/-- In a sound store no two entries have the same key. -/
theorem Store.Sound.pairwise_entries {s : Store} (h : s.Sound) :
    s.entries.Pairwise fun e e' => e.key ≠ e'.key := by
  have hslot (i : Fin NUM_CACHE_ENTRY_MAPS) {e : CacheEntry} (he : e ∈ (s.maps i).entries) :
      getMapForKey e.key = i := by
    obtain ⟨pos, hs⟩ := CacheEntryHashMap.mem_entries.mp he
    exact h.located i pos e hs
  rw [Store.entries, List.pairwise_flatMap]
  constructor
  · intro i _
    rw [CacheEntryHashMap.entries, List.pairwise_filterMap]
    refine (List.nodup_finRange _).imp fun {p q} hne e he e' he' hk => hne ?_
    obtain ⟨sl, hsl, rfl⟩ := Option.map_eq_some_iff.mp he
    obtain ⟨sl', hsl', rfl⟩ := Option.map_eq_some_iff.mp he'
    exact h.unique i sl.entry.key p q ⟨sl, hsl, rfl⟩ ⟨sl', hsl', hk.symm⟩
  · refine (List.nodup_finRange _).imp fun {i j} hne e he e' he' hk => hne ?_
    rw [← hslot i he, ← hslot j he', hk]

/-- Where entries are in the maps of their keys, no map has more than it has slots. -/
theorem length_filter_entries_le {s : Store} (hloc : s.All fun i e => getMapForKey e.key = i)
    (i : Fin NUM_CACHE_ENTRY_MAPS) :
    (s.entries.filter fun e => getMapForKey e.key = i).length ≤ CACHE_ENTRY_MAP_SIZE := by
  have hlist (l : List (Fin NUM_CACHE_ENTRY_MAPS)) (hl : l.Nodup) :
      ((l.flatMap fun j => (s.maps j).entries).filter fun e => getMapForKey e.key = i).length ≤
      (s.maps i).entries.length := by
    induction l with
    | nil => exact Nat.zero_le _
    | cons j l ih =>
      obtain ⟨hj, hl'⟩ := List.nodup_cons.mp hl
      rw [List.flatMap_cons, List.filter_append, List.length_append]
      by_cases he : j = i
      · subst he
        have hrest :
            ((l.flatMap fun j => (s.maps j).entries).filter fun e => getMapForKey e.key = j) =
            [] := by
          refine List.filter_eq_nil_iff.mpr fun e hmem => ?_
          obtain ⟨k, hk, hek⟩ := List.mem_flatMap.mp hmem
          obtain ⟨pos, hs⟩ := CacheEntryHashMap.mem_entries.mp hek
          have hkey : getMapForKey e.key = k := hloc k pos e hs
          intro hdec
          exact hj ((of_decide_eq_true hdec).symm.trans hkey ▸ hk)
        rw [hrest, List.length_nil, Nat.add_zero]
        exact List.length_filter_le _ _
      · have hhead : ((s.maps j).entries.filter fun e => getMapForKey e.key = i) = [] := by
          refine List.filter_eq_nil_iff.mpr fun e hmem => ?_
          obtain ⟨pos, hs⟩ := CacheEntryHashMap.mem_entries.mp hmem
          have hkey : getMapForKey e.key = j := hloc j pos e hs
          intro hdec
          exact he (hkey.symm.trans (of_decide_eq_true hdec))
        rw [hhead, List.length_nil, Nat.zero_add]
        exact ih hl'
  have hle : (s.maps i).entries.length ≤ (List.finRange CACHE_ENTRY_MAP_SIZE).length :=
    List.length_filterMap_le _ _
  rw [List.length_finRange] at hle
  exact (hlist _ (List.nodup_finRange _)).trans hle

/-- The store is sound, and its entries are those of the list. -/
structure Store.Holds (s : Store) (es : List CacheEntry) : Prop where
  /-- The store is sound. -/
  sound : s.Sound
  /-- The entries of the list are there. -/
  bound : ∀ e ∈ es, s.current e.key = some e
  /-- There are no others. -/
  unbound : ∀ key, (∀ e ∈ es, e.key ≠ key) → s.current key = none

namespace Store.Holds

variable {s : Store} {es : List CacheEntry} {e : CacheEntry}

theorem init : Store.init.Holds [] where
  sound := sound_init
  bound := fun _ h => nomatch h
  unbound := fun key _ => Store.current_init key

theorem mem_entries (h : s.Holds es) : e ∈ s.entries ↔ e ∈ es := by
  rw [h.sound.mem_entries]
  refine ⟨fun hc => ?_, h.bound e⟩
  by_contra hno
  rw [h.unbound e.key ?_] at hc
  · cases hc
  · intro e' he' hk
    have hc' := h.bound e' he'
    rw [hk, hc, Option.some.injEq] at hc'
    exact hno (hc' ▸ he')

/-- While fewer entries belong into the map of a key than it has slots, there is one for the key. -/
theorem exists_open (h : s.Holds es) {key : CacheKey}
    (hlt : (es.filter fun e => getMapForKey e.key = getMapForKey key).length <
      CACHE_ENTRY_MAP_SIZE) :
    ∃ pos, (s.mapOf key).OpenAt key pos := by
  by_contra hnone
  push Not at hnone
  -- every slot is taken, by entries with different keys
  choose slot hslot using fun pos => Option.ne_none_iff_exists'.mp fun hf => hnone pos (Or.inl hf)
  have hentry (pos : Fin CACHE_ENTRY_MAP_SIZE) :
      s.slot (getMapForKey key) pos = some (slot pos).entry := by
    rw [Store.slot]
    exact congrArg (Option.map Slot.entry) (hslot pos)
  have hinj : Function.Injective fun pos => (slot pos).entry := by
    intro p q hpq
    exact h.sound.unique _ _ p q ⟨_, hslot p, rfl⟩ ⟨_, hslot q, congrArg CacheEntry.key hpq.symm⟩
  have hsub : (List.finRange CACHE_ENTRY_MAP_SIZE).map (fun pos => (slot pos).entry) ⊆
      es.filter fun e => getMapForKey e.key = getMapForKey key := by
    intro e he
    obtain ⟨pos, -, rfl⟩ := List.mem_map.mp he
    refine List.mem_filter.mpr ⟨h.mem_entries.mp (mem_entries_iff.mpr ⟨_, pos, hentry pos⟩), ?_⟩
    exact decide_eq_true (h.sound.located _ pos _ (hentry pos))
  have hle := (List.subperm_of_subset ((List.nodup_finRange _).map hinj) hsub).length_le
  rw [List.length_map, List.length_finRange] at hle
  omega

/-- A new entry is added to those that are there. -/
theorem setEntry (h : s.Holds es) (hne : ∀ e' ∈ es, e'.key ≠ e.key)
    (hlt : (es.filter fun e' => getMapForKey e'.key = getMapForKey e.key).length <
      CACHE_ENTRY_MAP_SIZE) :
    (setEntry s e).2.Holds (es ++ [e]) := by
  have hnone := h.unbound e.key hne
  have hok : (Cik.setEntry s e).1 = .ok := setEntry_ok_iff.mpr (h.exists_open hlt)
  have hcur : ∀ key, _ = if key = e.key then some e else s.current key := current_setEntry hok
  refine ⟨h.sound.setEntry (noHoleBefore_of_unbound hnone), ?_, ?_⟩
  · intro e' he'
    rw [hcur]
    rcases List.mem_append.mp he' with he' | he'
    · rw [if_neg (hne e' he')]
      exact h.bound e' he'
    · obtain rfl := List.mem_singleton.mp he'
      exact if_pos rfl
  · intro key hk
    rw [hcur, if_neg fun heq => hk e (by simp) heq.symm]
    exact h.unbound key fun e' he' => hk e' (List.mem_append_left _ he')

end Store.Holds

/-! ### The store after the restart -/

/-- The entry that the SET written for `e` makes when it is loaded. -/
def CacheEntry.reloaded (e : CacheEntry) (d t : Time) : CacheEntry :=
  ⟨e.key, e.tags, e.value, t, expiryOf t ((requestTtl d e).getD 0), 0⟩

@[simp] theorem reloaded_key (e : CacheEntry) (d t : Time) : (e.reloaded d t).key = e.key := rfl

theorem requestTtl_eq_none_iff {d : Time} {e : CacheEntry} : requestTtl d e = none ↔
    e.Expired d := by
  unfold requestTtl CacheEntry.Expired
  split_ifs with h₁ h₂
  · exact iff_of_true rfl ⟨h₁, h₂⟩
  · exact iff_of_false (by simp) fun h => h₂ h.2
  · exact iff_of_false (by simp) fun h => h₁ h.1

/-- What is loaded of some entries of a store. -/
structure Loaded (d t : Time) (es : List CacheEntry) (s : Store) : Prop where
  /-- The store is sound. -/
  sound : s.Sound
  /-- The entries that had not expired are there. -/
  bound : ∀ e ∈ es, ¬ e.Expired d → s.current e.key = some (e.reloaded d t)
  /-- There are no others. -/
  unbound : ∀ key, (∀ e ∈ es, e.key = key → e.Expired d) → s.current key = none

section Load

variable {d : Time} {s : Store} {e : CacheEntry} {es rest : List CacheEntry} {envs : ℕ → Env}

/-- The entry that is made has the same key. -/
theorem keys_reloaded (e : CacheEntry) (d t : Time) (es rest : List CacheEntry) :
    ((es ++ [e.reloaded d t]) ++ rest).map CacheEntry.key =
    (es ++ e :: rest).map CacheEntry.key := by
  simp only [List.map_append, List.map_cons, List.append_assoc, List.singleton_append]
  rfl

/-- When another entry belongs into its map and all fit, there is room for it. -/
theorem length_filter_lt
    (h : (((es ++ e :: rest).map CacheEntry.key).filter fun key => getMapForKey key =
      getMapForKey e.key).length ≤ CACHE_ENTRY_MAP_SIZE) :
    (es.filter fun e' => getMapForKey e'.key = getMapForKey e.key).length <
    CACHE_ENTRY_MAP_SIZE := by
  rw [List.map_append, List.map_cons, List.filter_append, List.filter_cons_of_pos (by simp),
    List.filter_map, List.length_append, List.length_map, List.length_cons] at h
  exact Nat.lt_of_lt_of_le (Nat.lt_add_of_pos_right (Nat.succ_pos _)) h

/-- Loading the SET of an entry that has not expired puts it into the store. -/
theorem exec_setRequest (hwf : e.WF) (hlive : ¬ e.Expired d) {env : Env}
    (henv : env.Grants) (s : Store) :
    ∃ c, setRequest d e = some c ∧ c.exec env s = setEntry s (e.reloaded d env.now) := by
  obtain ⟨ttl, httl⟩ := Option.ne_none_iff_exists'.mp (mt requestTtl_eq_none_iff.mp hlive)
  refine ⟨.set e.key e.tags e.value ttl, by rw [setRequest, httl]; rfl, ?_⟩
  rw [exec_set (henv.requestSize hwf.key hwf.size), CacheEntry.reloaded, httl]
  rfl

/-- Loading the SETs of entries that have not expired adds these to the entries that are there. -/
theorem Store.Holds.execAll (h : s.Holds es) (hrest : ∀ e ∈ rest, e.WF ∧ ¬ e.Expired d)
    (hne : ((es ++ rest).map CacheEntry.key).Nodup)
    (hroom : ∀ i,
      (((es ++ rest).map CacheEntry.key).filter fun key => getMapForKey key = i).length ≤
      CACHE_ENTRY_MAP_SIZE)
    (henvs : ∀ i, (envs i).Grants) :
    (execAll envs (rest.filterMap (setRequest d)) s).Holds
      (es ++ rest.mapIdx fun i e => e.reloaded d (envs i).now) := by
  induction rest generalizing es s envs with
  | nil => rwa [List.mapIdx_nil, List.append_nil]
  | cons e rest ih =>
    obtain ⟨hwf, hlive⟩ := hrest e List.mem_cons_self
    obtain ⟨c, hreq, hexec⟩ := exec_setRequest hwf hlive (henvs 0) s
    have hkeys := keys_reloaded e d (envs 0).now es rest
    have hkey : ∀ e' ∈ es, e'.key ≠ e.key := by
      rw [List.map_append, List.map_cons] at hne
      intro e' he'
      exact (List.nodup_append.mp hne).2.2 e'.key (List.mem_map_of_mem he') e.key List.mem_cons_self
    have hlt := length_filter_lt (hroom (getMapForKey e.key))
    have hset := h.setEntry (e := e.reloaded d (envs 0).now) hkey hlt
    rw [List.filterMap_cons_some hreq, Cik.execAll, hexec,
      List.mapIdx_cons, ← List.singleton_append, ← List.append_assoc]
    exact ih hset (fun e' he' => hrest e' (List.mem_cons_of_mem _ he')) (by rwa [hkeys])
      (by rwa [hkeys]) fun i => henvs (i + 1)

theorem Store.Holds.loaded {live : List CacheEntry} {t : Time}
    (h : s.Holds (live.mapIdx fun i e => e.reloaded d (envs i).now)) (henvs : ∀ i, (envs i).now = t)
    (hlive : ∀ e, e ∈ live ↔ e ∈ es ∧ ¬ e.Expired d) : Loaded d t es s := by
  refine ⟨h.sound, fun e he hn => ?_, fun key hk => h.unbound key fun e he heq => ?_⟩
  · obtain ⟨i, hi, rfl⟩ := List.mem_iff_getElem.mp ((hlive e).mpr ⟨he, hn⟩)
    exact h.bound (live[i].reloaded d t) (List.mem_mapIdx.mpr ⟨i, hi, by rw [henvs]⟩)
  · obtain ⟨i, hi, rfl⟩ := List.mem_mapIdx.mp he
    obtain ⟨hmem, hn⟩ := (hlive live[i]).mp (List.getElem_mem hi)
    exact hn (hk live[i] hmem heq)

/-- The entries that have expired are not written. -/
theorem filterMap_setRequest (d : Time) (es : List CacheEntry) :
    (es.filter fun e => ¬ e.Expired d).filterMap (setRequest d) = es.filterMap (setRequest d) := by
  rw [List.filterMap_filter]
  refine List.filterMap_congr fun e _ => ?_
  by_cases he : e.Expired d
  · rw [setRequest, requestTtl_eq_none_iff.mpr he]
    simp
  · simp [he]

end Load

/-- What a restart is to keep: the store `s` is written to the file at `d`, and `s'` is loaded at
`t`. -/
structure Restored (d t : Time) (s s' : Store) : Prop where
  /-- A key whose entry does not expire is bound as before. -/
  never : ∀ key e, s.current key = some e → e.expires = CACHE_EXPIRES_INIT →
    ∃ e', s'.current key = some e' ∧ e'.value = e.value ∧ e'.tags = e.tags ∧
    e'.expires = CACHE_EXPIRES_INIT
  /-- A key whose entry expires later is bound as before, for as long as was left. -/
  later : ∀ key e, s.current key = some e → e.expires ≠ CACHE_EXPIRES_INIT → d ≤ e.expires →
    ∃ e', s'.current key = some e' ∧ e'.value = e.value ∧ e'.tags = e.tags ∧
    e'.expires = t + (e.expires - d)
  /-- The other keys are unbound. -/
  gone : ∀ key, (∀ e, s.current key = some e → e.expires ≠ CACHE_EXPIRES_INIT ∧ e.expires < d) →
    s'.current key = none

theorem reloaded_expires_never {e : CacheEntry} (h : e.expires = CACHE_EXPIRES_INIT) (d t : Time) :
    (e.reloaded d t).expires = CACHE_EXPIRES_INIT := by
  simp only [CacheEntry.reloaded, requestTtl, h, ne_eq, not_true_eq_false, if_false,
    Option.getD_some]
  rfl

theorem reloaded_expires_later {e : CacheEntry} {d : Time} (h : e.expires ≠ CACHE_EXPIRES_INIT)
    (hd : d ≤ e.expires) (hlt : e.expires - d < 2 ^ 32 - 1) (t : Time) :
    (e.reloaded d t).expires = t + (e.expires - d) := by
  obtain ⟨n, hn⟩ : ∃ n : ℕ, e.expires - d = n := Int.eq_ofNat_of_zero_le (sub_nonneg.mpr hd)
  rw [hn] at hlt ⊢
  have hlt' : (n : ℤ) < 2 ^ 32 - 1 := hlt
  have hnat : (toU32 n).toNat = n := by
    rw [toU32, UInt32.toNat_ofNat']
    omega
  have hne : toU32 n ≠ 0xFFFFFFFF := by
    intro heq
    have hval : (0xFFFFFFFF : UInt32).toNat = 4294967295 := rfl
    rw [heq, hval] at hnat
    omega
  simp only [CacheEntry.reloaded, requestTtl, h, ne_eq, not_false_eq_true, if_true,
    not_lt.mpr hd, if_false, Option.getD_some, hn, expiryOf, hne, hnat]

/-- Loading the file brings back every entry of a sound store that had not expired. -/
theorem loaded_dump {s : Store} (hs : s.Sound) (hwf : s.All fun _ e => e.WF) (d t : Time)
    {envs : ℕ → Env} (henvs : ∀ i, (envs i).Grants ∧ (envs i).now = t) (base : ByteMemory)
    (r : Request) :
    Loaded d t s.entries (loadRequestLog envs Store.init base r (dump d s)) := by
  have hwf' : ∀ e ∈ s.entries, e.WF := fun e he => by
    obtain ⟨i, pos, hslot⟩ := mem_entries_iff.mp he
    exact hwf i pos e hslot
  have hsub : (s.entries.filter fun e => ¬ e.Expired d).Sublist s.entries := List.filter_sublist
  have hl :
    (execAll envs ((s.entries.filter fun e => ¬ e.Expired d).filterMap (setRequest d))
    Store.init).Holds
      ([] ++ (s.entries.filter fun e => ¬ e.Expired d).mapIdx fun i e =>
        e.reloaded d (envs i).now) := by
    refine Store.Holds.init.execAll (fun e he => ?_) ?_ (fun i => ?_) fun i => (henvs i).1
    · obtain ⟨hmem, hlive⟩ := List.mem_filter.mp he
      exact ⟨hwf' e hmem, of_decide_eq_true hlive⟩
    · rw [List.nil_append]
      exact (List.pairwise_map.mpr hs.pairwise_entries).sublist (hsub.map _)
    · rw [List.nil_append]
      refine ((hsub.map _).filter _).length_le.trans ?_
      rw [List.filter_map, List.length_map]
      exact length_filter_entries_le hs.located i
  rw [load_dump hwf d fun i => (henvs i).1, ← filterMap_setRequest]
  exact hl.loaded (fun i => (henvs i).2) fun e => by rw [List.mem_filter, decide_eq_true_iff]

/-- A restart keeps what orderly requests have left, when no expiry time is so far ahead that the
TTL does not fit its field. -/
theorem restored_of_orderly {l : List Served} {s : Store}
    (h : Run (Provided Served.Orderly Served.Step) Store.init l s) {d t : Time}
    (hd : ∀ key e, s.current key = some e → e.expires ≠ CACHE_EXPIRES_INIT →
      e.expires - d < 2 ^ 32 - 1)
    {envs : ℕ → Env} (henvs : ∀ i, (envs i).Grants ∧ (envs i).now = t) (base : ByteMemory)
    (r : Request) :
    Restored d t s (loadRequestLog envs Store.init base r (dump d s)) := by
  obtain ⟨hs, hwf⟩ := sound_of_orderly h sound_init_wf
  have hl := loaded_dump hs hwf d t henvs base r
  have hback : ∀ key e, s.current key = some e → ¬ e.Expired d →
      (loadRequestLog envs Store.init base r (dump d s)).current key = some (e.reloaded d t) := by
    intro key e hc hlive
    have hk := Store.current_key hc
    subst hk
    exact hl.bound e (hs.mem_entries.mpr hc) hlive
  refine ⟨?_, ?_, ?_⟩
  · intro key e hc hx
    exact ⟨_, hback key e hc fun he => he.1 hx, rfl, rfl, reloaded_expires_never hx d t⟩
  · intro key e hc hx hle
    exact ⟨_, hback key e hc fun he => not_lt.mpr hle he.2, rfl, rfl,
      reloaded_expires_later hx hle (hd key e hc hx) t⟩
  · intro key hk
    refine hl.unbound key fun e he hek => ?_
    subst hek
    exact hk e (hs.mem_entries.mp he)

/-- A restart after a single SET. -/
theorem restored_of_orderly_set : ∃ s : Store,
    Served.Step Store.init (.alone (setOf entryOld) ⟨by decide, by decide, by decide⟩ startEnv) s ∧
      Restored 0 0 s
        (loadRequestLog (fun _ => startEnv) Store.init (fun _ => 0) ⟨fun _ => 0⟩ (dump 0 s)) := by
  have hplace : (setOf entryOld).InPlace Store.init :=
    noHoleBefore_of_unbound (Store.current_init keyK)
  have hsized : (setOf entryOld).Sized := (by decide : exactSize keyK [[0x31]] [0x6F] < 2 ^ 32)
  have hok : (setEntry Store.init entryOld).1 = .ok :=
    setEntry_ok_iff.mpr ⟨homeSlot keyK, openAt_init keyK _⟩
  have hstep :=
    Served.step_exec (.alone (setOf entryOld) ⟨by decide, by decide, by decide⟩ startEnv) Store.init
  refine ⟨_, hstep, restored_of_orderly (.cons ⟨⟨hplace, hsized⟩, hstep⟩ (.nil _)) ?_
    (fun _ => ⟨env_initMemory_grants 0 0, rfl⟩) _ _⟩
  intro key e hc hx
  -- the only entry does not expire
  have hcur : ((setOf entryOld).exec startEnv Store.init).2.current key = some e := hc
  rw [exec_setOf rfl (by decide) (by decide), current_setEntry hok] at hcur
  split_ifs at hcur with hk
  · obtain rfl := Option.some.inj hcur
    exact absurd rfl hx
  · rw [Store.current_init] at hcur
    cases hcur

/-! ### Any store -/

section Any

variable {d t : Time} {s : Store} {e : CacheEntry} {es rest : List CacheEntry} {envs : ℕ → Env}

/-- One more slot is in use at most. -/
theorem length_entries_put (map : CacheEntryHashMap) (pos : Fin CACHE_ENTRY_MAP_SIZE)
    (e : CacheEntry) :
    (map.put pos e).entries.length ≤ map.entries.length + 1 := by
  have hlist (l : List (Fin CACHE_ENTRY_MAP_SIZE)) (hl : l.Nodup) :
      (l.filterMap fun p => ((map.put pos e).slots p).map Slot.entry).length ≤
        (l.filterMap fun p => (map.slots p).map Slot.entry).length + 1 := by
    induction l with
    | nil => exact Nat.zero_le _
    | cons p l ih =>
      obtain ⟨hp, hl'⟩ := List.nodup_cons.mp hl
      by_cases he : p = pos
      · -- the other slots are as they were
        have hrest : (l.filterMap fun p => ((map.put pos e).slots p).map Slot.entry) =
            l.filterMap fun p => (map.slots p).map Slot.entry := by
          refine List.filterMap_congr fun q hq => ?_
          have hne : q ≠ pos := fun hqe => hp (he ▸ hqe ▸ hq)
          rw [put_slots, Function.update_of_ne hne]
        rw [List.filterMap_cons, List.filterMap_cons, hrest]
        cases ((map.put pos e).slots p).map Slot.entry <;> cases (map.slots p).map Slot.entry <;>
          simp only [List.length_cons] <;> omega
      · rw [List.filterMap_cons, List.filterMap_cons, put_slots,
          Function.update_of_ne he, ← put_slots]
        have hih := ih hl'
        cases (map.slots p).map Slot.entry with
        | none => exact hih
        | some x => exact Nat.succ_le_succ hih
  exact hlist _ (List.nodup_finRange _)

/-- A map that has fewer entries than slots has an empty slot. -/
theorem exists_empty {map : CacheEntryHashMap} (h : map.entries.length < CACHE_ENTRY_MAP_SIZE) :
    ∃ pos, map.slots pos = none := by
  by_contra hnone
  push Not at hnone
  have hall :
    ((List.finRange CACHE_ENTRY_MAP_SIZE).countP fun p => ((map.slots p).map Slot.entry).isSome) =
      (List.finRange CACHE_ENTRY_MAP_SIZE).length :=
    List.countP_eq_length.mpr fun p _ => by
      rw [Option.isSome_map]
      exact Option.isSome_iff_ne_none.mpr (hnone p)
  rw [entries, List.length_filterMap_eq_countP, hall, List.length_finRange] at h
  exact lt_irrefl _ h

/-- The store after entries were loaded: a key is bound to the last one that has it. -/
structure Store.Latest (s : Store) (es : List CacheEntry) : Prop where
  /-- What a key is bound to. -/
  bound : ∀ key, s.current key = (es.filter fun e => e.key = key).getLast?
  /-- A map has no more entries than were loaded into it. -/
  room : ∀ i, (s.maps i).entries.length ≤ (es.filter fun e => getMapForKey e.key = i).length

namespace Store.Latest

theorem init : Store.init.Latest [] where
  bound := fun key => Store.current_init key
  room := fun i => by
    have hnil : (Store.init.maps i).entries = [] :=
      List.eq_nil_iff_forall_not_mem.mpr fun e he => by
        obtain ⟨pos, hs⟩ := CacheEntryHashMap.mem_entries.mp he
        cases hs
    rw [hnil]
    exact Nat.zero_le _

/-- Another entry is loaded. -/
theorem setEntry (h : s.Latest es)
    (hlt : (es.filter fun e' => getMapForKey e'.key = getMapForKey e.key).length <
      CACHE_ENTRY_MAP_SIZE) :
    (setEntry s e).2.Latest (es ++ [e]) := by
  obtain ⟨pos, hpos⟩ := exists_empty (lt_of_le_of_lt (h.room (getMapForKey e.key)) hlt)
  have hok : (Cik.setEntry s e).1 = .ok := setEntry_ok_iff.mpr ⟨pos, Or.inl hpos⟩
  constructor
  · intro key
    rw [current_setEntry hok, h.bound, List.filter_append]
    split_ifs with hk
    · rw [List.filter_cons_of_pos (by simp [hk]), List.filter_nil, List.getLast?_concat]
    · rw [List.filter_cons_of_neg (by simp [Ne.symm hk]), List.filter_nil, List.append_nil]
  · intro i
    obtain ⟨hfull, -⟩ | ⟨old, map, hset, he⟩ := setEntry_spec s e
    · exact absurd (Or.inl hpos) (setLockedCacheEntry_eq_none_iff.mp hfull pos)
    obtain ⟨pos', -, -, rfl⟩ := setLockedCacheEntry_eq_some_iff.mp hset
    have hroom := h.room i
    rw [he, List.filter_append, List.length_append]
    change ((s.setMapOf e.key _).maps i).entries.length ≤ _
    by_cases hi : getMapForKey e.key = i
    · subst hi
      rw [List.filter_cons_of_pos (by simp), List.filter_nil, List.length_singleton]
      have hput := length_entries_put (s.mapOf e.key) pos' e
      rw [← Store.mapOf, Store.mapOf_setMapOf_self]
      exact hput.trans (Nat.succ_le_succ hroom)
    · rw [List.filter_cons_of_neg (by simpa using hi), List.filter_nil,
        List.length_nil, Nat.add_zero]
      have hsame : (s.setMapOf e.key ((s.mapOf e.key).put pos' e)).maps i = s.maps i :=
        Function.update_of_ne (Ne.symm hi) _ _
      rwa [hsame]

end Store.Latest

/-- Loading the SETs of entries that have not expired puts one after the other into the store. -/
theorem Store.Latest.execAll (h : s.Latest es) (hrest : ∀ e ∈ rest, e.WF ∧ ¬ e.Expired d)
    (hroom : ∀ i,
      (((es ++ rest).map CacheEntry.key).filter fun key => getMapForKey key = i).length ≤
      CACHE_ENTRY_MAP_SIZE)
    (henvs : ∀ i, (envs i).Grants ∧ (envs i).now = t) :
    (execAll envs (rest.filterMap (setRequest d)) s).Latest
      (es ++ rest.map fun e => e.reloaded d t) := by
  induction rest generalizing es s envs with
  | nil => rwa [List.map_nil, List.append_nil]
  | cons e rest ih =>
    obtain ⟨hwf, hlive⟩ := hrest e List.mem_cons_self
    obtain ⟨c, hreq, hexec⟩ := exec_setRequest hwf hlive (henvs 0).1 s
    rw [(henvs 0).2] at hexec
    have hlt := length_filter_lt (hroom (getMapForKey e.key))
    have hset := h.setEntry (e := e.reloaded d t) hlt
    rw [List.filterMap_cons_some hreq, Cik.execAll, hexec,
      List.map_cons, ← List.singleton_append, ← List.append_assoc]
    exact ih hset (fun e' he' => hrest e' (List.mem_cons_of_mem _ he'))
      (by rwa [keys_reloaded]) fun i => henvs (i + 1)

/-- Whatever store is written to the file, what is loaded binds a key to that of its entries that
was last on the walk over the slots, of those that had not expired. -/
theorem latest_loaded (hwf : s.All fun _ e => e.WF) (hloc : s.All fun i e => getMapForKey e.key = i)
    (henvs : ∀ i, (envs i).Grants ∧ (envs i).now = t) (base : ByteMemory) (r : Request) :
    (loadRequestLog envs Store.init base r (dump d s)).Latest
      ((s.entries.filter fun e => ¬ e.Expired d).map fun e => e.reloaded d t) := by
  have hrest (e : CacheEntry) (he : e ∈ s.entries.filter fun e => ¬ e.Expired d) :
      e.WF ∧ ¬ e.Expired d := by
    obtain ⟨hmem, hlive⟩ := List.mem_filter.mp he
    obtain ⟨i, pos, hslot⟩ := mem_entries_iff.mp hmem
    exact ⟨hwf i pos e hslot, of_decide_eq_true hlive⟩
  rw [load_dump hwf d fun i => (henvs i).1, ← filterMap_setRequest]
  have hsub : (s.entries.filter fun e => ¬ e.Expired d).Sublist s.entries := List.filter_sublist
  have hl := Store.Latest.init.execAll hrest (fun i => ?_) henvs
  · rwa [List.nil_append] at hl
  · rw [List.nil_append, List.filter_map, List.length_map]
    exact (hsub.filter _).length_le.trans (length_filter_entries_le hloc i)

end Any

/-! ### A key in two slots -/

/-- The file has the newer SET of the key before the older one, so the older value comes back. -/
theorem not_restored : ¬ ∀ (l : List Served) (s : Store), Run Served.Step Store.init l s →
    (∀ q ∈ l, q.cmd.Sized ∧ q.env.Grants) → ∀ (d t : Time) (envs : ℕ → Env),
    (∀ i, (envs i).Grants ∧ (envs i).now = t) → ∀ (base : ByteMemory) (r : Request),
    Restored d t s (loadRequestLog envs Store.init base r (dump d s)) := by
  intro h
  have henvs : ∀ i : ℕ, ((fun _ => startEnv) i : Env).Grants ∧
      ((fun _ => startEnv) i : Env).now = 0 :=
    fun _ => ⟨env_initMemory_grants 0 0, rfl⟩
  have hsized : ∀ q ∈ duplicating, q.cmd.Sized := fun q hq => (duplicating_granted q hq).2.1
  have hr :=
    h _ _ duplicating_run (fun q hq => (duplicating_granted q hq).2) 0 0 _ henvs
    (fun _ => 0) ⟨fun _ => 0⟩
  have hwf : duplicated.All fun _ e => e.WF :=
    wf_of_sized (duplicating_run.provided hsized) (.init _)
  have hcur : duplicated.current keyK = some entryNew :=
    @current_leftBehind entryA entryOld entryNew collide_keys rfl
  have hes : duplicated.entries = [entryNew, entryOld] :=
    @entries_leftBehind entryA entryOld entryNew collide_keys rfl (by decide)
  -- the two SETs of the file
  have hload :
    loadRequestLog (fun _ => startEnv) Store.init (fun _ => 0) ⟨fun _ => 0⟩ (dump 0 duplicated) =
      (setEntry (setEntry Store.init entryNew).2 entryOld).2 := by
    have hcs : [entryNew, entryOld].filterMap (setRequest 0) = [setOf entryNew, setOf entryOld] :=
      rfl
    rw [load_dump hwf 0 fun i => (henvs i).1, hes, hcs, execAll, execAll, execAll,
      exec_setOf rfl (by decide) (by decide), exec_setOf rfl (by decide) (by decide)]
  have hok₁ : (setEntry Store.init entryNew).1 = .ok :=
    setEntry_ok_iff.mpr ⟨homeSlot keyK, openAt_init keyK _⟩
  have hcur₁ := (current_setEntry hok₁ keyK).trans (if_pos rfl)
  obtain ⟨pos, hpos, -⟩ := current_eq_some_iff.mp hcur₁
  have hok₂ : (setEntry (setEntry Store.init entryNew).2 entryOld).1 = .ok :=
    setEntry_ok_iff.mpr ⟨pos, Or.inr hpos.1⟩
  obtain ⟨e, hback, hvalue, -⟩ := hr.never keyK entryNew hcur rfl
  rw [hload, current_setEntry hok₂, if_pos (by rfl), Option.some.injEq] at hback
  subst hback
  exact absurd hvalue (by decide)

end Cik
